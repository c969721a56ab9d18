import Mathlib.Tactic.Common
import Zabbix.Library.Ascii

/-!
# UTF-8

The bytes of a text. A character starts with a byte that is not a continuation byte, and
has only continuation bytes behind it; of the bytes below 128 each is a character.
-/

namespace Utf8

/-- The bytes of a text. -/
def encode (text : List Char) : Bytes := text.flatMap String.utf8EncodeChar

/-- The bytes are those of a text. Of a character there is one encoding only, and no character
is a surrogate or lies above U+10FFFF. -/
def WellFormed (s : Bytes) : Prop := ∃ text, encode text = s

/-- The byte is not the first one of a character. -/
def isContinuation (b : UInt8) : Bool := b &&& 0xc0 = 0x80

@[simp]
theorem encode_nil :
  encode [] = []
  := rfl

@[simp]
theorem encode_cons (c : Char) (text : List Char) :
  encode (c :: text) = String.utf8EncodeChar c ++ encode text
  := rfl

@[simp]
theorem encode_append (text text' : List Char) :
  encode (text ++ text') = encode text ++ encode text'
  := List.flatMap_append

theorem isContinuation_tail (k : ℕ) :
  isContinuation (UInt8.ofNat (k % 0x40 + 0x80)) = true
  := by
  have hall : ∀ k < 0x40, isContinuation (UInt8.ofNat (k + 0x80)) = true := by decide
  exact hall _ (Nat.mod_lt k (by decide))

theorem isContinuation_of_low {b : UInt8} (h : b < 0x80) :
  isContinuation b = false
  := by
  have hall : ∀ k < 0x80, isContinuation (UInt8.ofNat k) = false := by decide
  rw [← b.ofNat_toNat]
  exact hall _ h

/-- A character is one byte below 128, or a first byte that is not and continuation bytes. -/
theorem utf8EncodeChar_cases (c : Char) :
  (∃ b, String.utf8EncodeChar c = [b] ∧ b < 0x80 ∧ b.toNat = c.toNat) ∨
  (∃ first tail, String.utf8EncodeChar c = first :: tail ∧ isContinuation first = false ∧
    0x80 ≤ first ∧ (∀ b ∈ tail, isContinuation b = true) ∧ 0x80 ≤ c.toNat)
  := by
  have hsecond : ∀ k < 0x20, isContinuation (UInt8.ofNat (k + 0xc0)) = false ∧
      0x80 ≤ UInt8.ofNat (k + 0xc0) := by decide
  have hthird : ∀ k < 0x10, isContinuation (UInt8.ofNat (k + 0xe0)) = false ∧
      0x80 ≤ UInt8.ofNat (k + 0xe0) := by decide
  have hfourth : ∀ k < 0x08, isContinuation (UInt8.ofNat (k + 0xf0)) = false ∧
      0x80 ≤ UInt8.ofNat (k + 0xf0) := by decide
  have htail := isContinuation_tail
  have hval : c.val.toNat = c.toNat := rfl
  unfold String.utf8EncodeChar
  simp only [hval]
  by_cases h1 : c.toNat ≤ 0x7f
  · left
    rw [if_pos h1]
    have hmod : (UInt8.ofNat c.toNat).toNat = c.toNat := by
      rw [UInt8.toNat_ofNat']
      omega
    refine ⟨_, rfl, ?_, hmod⟩
    rw [UInt8.lt_iff_toNat_lt, hmod]
    change c.toNat < 128
    omega
  · right
    rw [if_neg h1]
    have hhigh : 0x80 ≤ c.toNat := by omega
    by_cases h2 : c.toNat ≤ 0x7ff
    · obtain ⟨hfirst, hfirsthigh⟩ := hsecond (c.toNat / 64 % 0x20) (Nat.mod_lt _ (by decide))
      rw [if_pos h2]
      exact ⟨_, _, rfl, hfirst, hfirsthigh, List.forall_mem_singleton.mpr (htail _), hhigh⟩
    · rw [if_neg h2]
      by_cases h3 : c.toNat ≤ 0xffff
      · obtain ⟨hfirst, hfirsthigh⟩ :=
          hthird (c.toNat / 4096 % 0x10) (Nat.mod_lt _ (by decide))
        rw [if_pos h3]
        refine ⟨_, _, rfl, hfirst, hfirsthigh, ?_, hhigh⟩
        exact List.forall_mem_cons.mpr ⟨htail _, List.forall_mem_singleton.mpr (htail _)⟩
      · obtain ⟨hfirst, hfirsthigh⟩ :=
          hfourth (c.toNat / 262144 % 0x08) (Nat.mod_lt _ (by decide))
        rw [if_neg h3]
        refine ⟨_, _, rfl, hfirst, hfirsthigh, ?_, hhigh⟩
        exact List.forall_mem_cons.mpr ⟨htail _,
          List.forall_mem_cons.mpr ⟨htail _, List.forall_mem_singleton.mpr (htail _)⟩⟩

end Utf8
