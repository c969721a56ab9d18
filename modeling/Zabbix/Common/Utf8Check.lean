import Mathlib.Data.Nat.Bitwise
import Zabbix.Library.Utf8

/-!
# Checking and repairing UTF-8

`zbx_is_utf8` decides whether a text is UTF-8, and `zbx_replace_invalid_utf8` replaces what is
not. Both read sequences of up to six bytes and test the number a sequence stands for.
-/

namespace Utf8Check

open Utf8


/-- `ZBX_UTF8_REPLACE_CHAR` -/
def replaceChar : UInt8 := '?'.toUInt8

/-- The number of continuation bytes expected behind the first byte of a sequence. -/
def expectingBytes (first : UInt8) : ℕ :=
  if first &&& 0xe0 = 0xc0 then 1
  else if first &&& 0xf0 = 0xe0 then 2
  else if first &&& 0xf8 = 0xf0 then 3
  else if first &&& 0xfc = 0xf8 then 4
  else if first &&& 0xfe = 0xfc then 5
  else 0

/-- The expected continuation bytes, up to the first byte that is none. -/
def continuationBytes : (expecting : ℕ) → Bytes → Bytes
  | expecting + 1, c :: text =>
    if isContinuation c then c :: continuationBytes expecting text else []
  | _, _ => []

/-- The sequence is longer than its number needs. -/
def overlong : Bytes → Bool
  | first :: second :: _ =>
    first &&& 0xfe = 0xc0 ||
      (first = 0xe0 && second &&& 0x20 = 0x00) ||
      (first = 0xf0 && second &&& 0x30 = 0x00) ||
      (first = 0xf8 && second &&& 0x38 = 0x00) ||
      (first = 0xfc && second &&& 0x3c = 0x00)
  | _ => false

/-- The bits of the first byte of a sequence that belong to its number. -/
def leadingBits (first : UInt8) : UInt8 :=
  if first &&& 0xe0 = 0xc0 then first &&& 0x1f
  else if first &&& 0xf0 = 0xe0 then first &&& 0x0f
  else if first &&& 0xf8 = 0xf0 then first &&& 0x07
  else if first &&& 0xfc = 0xf8 then first &&& 0x03
  else if first &&& 0xfe = 0xfc then first &&& 0x01
  else 0

/-- `utf32`, the number of a sequence. It has 31 bits at most, so it fits an `unsigned int`. -/
def utf32 : Bytes → ℕ
  | [] => 0
  | first :: tail =>
    tail.foldl (fun utf32 c => (utf32 <<< 6) + (c &&& 0x3f).toNat) (leadingBits first).toNat

/-- The test for the halves of surrogate pairs and the numbers above U+10FFFF. -/
def notLegal (utf32 : ℕ) : Bool := utf32 > 0x10ffff || utf32 &&& 0xf800 = 0xd800

/-- The tests made of a sequence that has all its bytes. -/
def accepted (utf8 : Bytes) : Bool := !overlong utf8 && !notLegal (utf32 utf8)

/-- `zbx_is_utf8` -/
def isUtf8 : Bytes → Bool
  | [] => true
  | c :: text =>
    if c &&& 0x80 = 0 then isUtf8 text
    else if isContinuation c || c &&& 0xfe = 0xfe then false
    else
      let tail := continuationBytes (expectingBytes c) text
      if tail.length ≠ expectingBytes c then false
      else if ¬ accepted (c :: tail) then false
      else isUtf8 (text.drop tail.length)
  termination_by text => text.length

/-- `zbx_replace_invalid_utf8`. It writes over the text it reads. What it writes for a sequence
is never longer than the sequence, so that the text not read yet is still the old one. -/
def replaceInvalidUtf8 : Bytes → Bytes
  | [] => []
  | c :: text =>
    if c &&& 0x80 = 0 then c :: replaceInvalidUtf8 text
    else if isContinuation c || c &&& 0xfe = 0xfe then replaceChar :: replaceInvalidUtf8 text
    else
      let tail := continuationBytes (expectingBytes c) text
      if tail.length = expectingBytes c ∧ accepted (c :: tail) then
        c :: tail ++ replaceInvalidUtf8 (text.drop tail.length)
      else replaceChar :: replaceInvalidUtf8 (text.drop tail.length)
  termination_by text => text.length
  decreasing_by
    all_goals simp only [List.length_cons, List.length_drop]
    all_goals omega

/-! ### Bytes as numbers -/

/-- What the masks say of a byte. -/
structure Masks (c : UInt8) : Prop where
  ascii : c &&& 0x80 = 0 ↔ c.toNat < 0x80
  continuation : isContinuation c = true ↔ 0x80 ≤ c.toNat ∧ c.toNat < 0xc0
  invalid : c &&& 0xfe = 0xfe ↔ 0xfe ≤ c.toNat
  expecting : expectingBytes c =
    if c.toNat < 0xc0 then 0 else if c.toNat < 0xe0 then 1 else if c.toNat < 0xf0 then 2
    else if c.toNat < 0xf8 then 3 else if c.toNat < 0xfc then 4 else if c.toNat < 0xfe then 5
    else 0
  leading : (leadingBits c).toNat =
    if c.toNat < 0xc0 then 0 else if c.toNat < 0xe0 then c.toNat - 0xc0
    else if c.toNat < 0xf0 then c.toNat - 0xe0 else if c.toNat < 0xf8 then c.toNat - 0xf0
    else if c.toNat < 0xfc then c.toNat - 0xf8 else if c.toNat < 0xfe then c.toNat - 0xfc
    else 0
  payload : (c &&& 0x3f).toNat = c.toNat % 64
  shortest : c &&& 0xfe = 0xc0 ↔ c.toNat = 0xc0 ∨ c.toNat = 0xc1
  second : (c &&& 0x20 = 0 ↔ c.toNat % 64 < 0x20) ∧ (c &&& 0x30 = 0 ↔ c.toNat % 64 < 0x10) ∧
    (c &&& 0x38 = 0 ↔ c.toNat % 64 < 0x08) ∧ (c &&& 0x3c = 0 ↔ c.toNat % 64 < 0x04)

theorem masks (c : UInt8) :
  Masks c
  where
  ascii := by revert c; exact Ascii.forall_byte (by decide +kernel)
  continuation := by revert c; exact Ascii.forall_byte (by decide +kernel)
  invalid := by revert c; exact Ascii.forall_byte (by decide +kernel)
  expecting := by revert c; exact Ascii.forall_byte (by decide +kernel)
  leading := by revert c; exact Ascii.forall_byte (by decide +kernel)
  payload := by revert c; exact Ascii.forall_byte (by decide +kernel)
  shortest := by revert c; exact Ascii.forall_byte (by decide +kernel)
  second := by revert c; exact Ascii.forall_byte (by decide +kernel)

theorem and_surrogates (n : ℕ) :
  n &&& 0xf800 = n / 2048 % 32 * 2048
  := by
  have hmask : 0xf800 = 0x1f <<< 11 := rfl
  have hpart : n / 2048 % 32 = (n >>> 11) &&& 0x1f := by
    rw [Nat.shiftRight_eq_div_pow, show 0x1f = 2 ^ 5 - 1 from rfl,
      Nat.and_two_pow_sub_one_eq_mod]
  have hshift : n / 2048 % 32 * 2048 = (n / 2048 % 32) <<< 11 := by rw [Nat.shiftLeft_eq]
  rw [hmask, hshift, hpart]
  apply Nat.eq_of_testBit_eq
  intro i
  simp only [Nat.testBit_and, Nat.testBit_shiftLeft, Nat.testBit_shiftRight]
  by_cases hi : 11 ≤ i
  · simp [hi]
  · simp [hi]

/-- The mask for the surrogates looks at five bits, of every plane. -/
theorem notLegal_iff (n : ℕ) :
  notLegal n = true ↔ 0x10ffff < n ∨ 0xd800 ≤ n % 0x10000 ∧ n % 0x10000 < 0xe000
  := by
  rw [notLegal, Bool.or_eq_true, decide_eq_true_iff, decide_eq_true_iff, and_surrogates]
  omega

/-! ### Sequences -/

/-- A sequence that has all its bytes. -/
structure Sequence (first : UInt8) (tail : Bytes) : Prop where
  le_first : 0xc0 ≤ first.toNat
  first_lt : first.toNat < 0xfe
  length : tail.length = expectingBytes first
  continuation : ∀ c ∈ tail, isContinuation c = true

theorem continuationBytes_append {tail : Bytes} (h : ∀ c ∈ tail, isContinuation c = true)
    (rest : Bytes) :
  continuationBytes tail.length (tail ++ rest) = tail
  := by
  induction tail with
  | nil => cases rest <;> rfl
  | cons c tail ih =>
    rw [List.forall_mem_cons] at h
    rw [List.cons_append, List.length_cons, continuationBytes, if_pos h.1, ih h.2]

/-- The continuation bytes found are at the front of the text. -/
theorem continuationBytes_spec (expecting : ℕ) (text : Bytes) :
  continuationBytes expecting text
      ++ text.drop (continuationBytes expecting text).length = text ∧
    ∀ c ∈ continuationBytes expecting text, isContinuation c = true
  := by
  fun_induction continuationBytes expecting text with
  | case1 expecting c text hc ih =>
    exact ⟨by simp [ih.1], List.forall_mem_cons.mpr ⟨hc, ih.2⟩⟩
  | case2 expecting c text hc => simp
  | case3 expecting text => simp

theorem Sequence.tests {first : UInt8} {tail : Bytes} (h : Sequence first tail) :
  ¬ first &&& 0x80 = 0 ∧ ¬ (isContinuation first || first &&& 0xfe = 0xfe) = true
  := by
  have hmasks := masks first
  have hle := h.le_first
  have hlt := h.first_lt
  rw [hmasks.ascii, Bool.or_eq_true, decide_eq_true_iff, hmasks.continuation, hmasks.invalid]
  omega

theorem Sequence.bytes {first : UInt8} {tail : Bytes} (h : Sequence first tail) (rest : Bytes) :
  continuationBytes (expectingBytes first) (tail ++ rest) = tail
  := by
  rw [← h.length]
  exact continuationBytes_append h.continuation rest

theorem isUtf8_sequence {first : UInt8} {tail : Bytes} (h : Sequence first tail)
    (rest : Bytes) :
  isUtf8 (first :: (tail ++ rest)) = (accepted (first :: tail) && isUtf8 rest)
  := by
  rw [isUtf8, if_neg h.tests.1, if_neg h.tests.2, h.bytes]
  simp only [h.length, ne_eq, not_true_eq_false, if_false]
  rw [← h.length, List.drop_left]
  cases accepted (first :: tail) <;> simp

theorem replaceInvalidUtf8_sequence {first : UInt8} {tail : Bytes} (h : Sequence first tail)
    (haccepted : accepted (first :: tail) = true) (rest : Bytes) :
  replaceInvalidUtf8 (first :: (tail ++ rest)) = first :: (tail ++ replaceInvalidUtf8 rest)
  := by
  rw [replaceInvalidUtf8, if_neg h.tests.1, if_neg h.tests.2, h.bytes]
  simp only [h.length, haccepted, true_and, if_true]
  rw [← h.length, List.drop_left, List.cons_append]

/-! ### The number of a sequence -/

theorem utf32_cons (first : UInt8) (tail : Bytes) :
  utf32 (first :: tail)
    = tail.foldl (fun n c => n * 64 + c.toNat % 64) (leadingBits first).toNat
  := by
  simp only [utf32, Nat.shiftLeft_eq, (masks _).payload]

/-- The bytes of a sequence, by its length. -/
theorem Sequence.shapes {first : UInt8} {tail : Bytes} (h : Sequence first tail) :
  (first.toNat < 0xe0 ∧ ∃ a, tail = [a]) ∨
  (0xe0 ≤ first.toNat ∧ first.toNat < 0xf0 ∧ ∃ a b, tail = [a, b]) ∨
  (0xf0 ≤ first.toNat ∧ first.toNat < 0xf8 ∧ ∃ a b c, tail = [a, b, c]) ∨
  (0xf8 ≤ first.toNat ∧ first.toNat < 0xfc ∧ ∃ a b c d, tail = [a, b, c, d]) ∨
  (0xfc ≤ first.toNat ∧ ∃ a b c d e, tail = [a, b, c, d, e])
  := by
  have hle := h.le_first
  have hlt := h.first_lt
  have hlength := h.length
  rw [(masks first).expecting] at hlength
  split_ifs at hlength with h1 h2 h3 h4 h5
  · omega
  · exact Or.inl ⟨h2, List.length_eq_one_iff.mp hlength⟩
  · exact Or.inr (Or.inl ⟨by omega, h3, List.length_eq_two.mp hlength⟩)
  · exact Or.inr (Or.inr (Or.inl ⟨by omega, h4, List.length_eq_three.mp hlength⟩))
  · right; right; right; left
    refine ⟨by omega, h5, ?_⟩
    match tail, hlength with
    | [a, b, c, d], _ => exact ⟨a, b, c, d, rfl⟩
  · right; right; right; right
    refine ⟨by omega, ?_⟩
    match tail, hlength with
    | [a, b, c, d, e], _ => exact ⟨a, b, c, d, e, rfl⟩

theorem overlong_cons (first second : UInt8) (tail : Bytes) :
  overlong (first :: second :: tail) = true ↔
    (first.toNat = 0xc0 ∨ first.toNat = 0xc1) ∨
    first.toNat = 0xe0 ∧ second.toNat % 64 < 0x20 ∨
    first.toNat = 0xf0 ∧ second.toNat % 64 < 0x10 ∨
    first.toNat = 0xf8 ∧ second.toNat % 64 < 0x08 ∨
    first.toNat = 0xfc ∧ second.toNat % 64 < 0x04
  := by
  obtain ⟨h20, h30, h38, h3c⟩ := (masks second).second
  have hfirst : ∀ n < 256, first = UInt8.ofNat n ↔ first.toNat = n := by
    intro n hn
    rw [← UInt8.toNat_inj, UInt8.toNat_ofNat', Nat.mod_eq_of_lt hn]
  have he0 := hfirst 0xe0 (by decide)
  have hf0 := hfirst 0xf0 (by decide)
  have hf8 := hfirst 0xf8 (by decide)
  have hfc := hfirst 0xfc (by decide)
  simp only [overlong, Bool.or_eq_true, Bool.and_eq_true, decide_eq_true_iff,
    (masks first).shortest, h20, h30, h38, h3c, or_assoc]
  simp only [UInt8.reduceOfNat] at he0 hf0 hf8 hfc
  rw [he0, hf0, hf8, hfc]

/-- A sequence is overlong exactly when its number fits a shorter one. -/
theorem overlong_iff {first : UInt8} {tail : Bytes} (h : Sequence first tail) :
  overlong (first :: tail) = true ↔ utf32 (first :: tail) <
    if first.toNat < 0xe0 then 0x80 else if first.toNat < 0xf0 then 0x800
    else if first.toNat < 0xf8 then 0x10000 else if first.toNat < 0xfc then 0x200000
    else 0x4000000
  := by
  have hle := h.le_first
  have hlt := h.first_lt
  rw [utf32_cons, (masks first).leading]
  obtain ⟨h1, a, rfl⟩ | ⟨h0, h1, a, b, rfl⟩ | ⟨h0, h1, a, b, c, rfl⟩ |
    ⟨h0, h1, a, b, c, d, rfl⟩ | ⟨h0, a, b, c, d, e, rfl⟩ := h.shapes <;>
  · simp only [List.foldl_cons, List.foldl_nil, overlong_cons]
    split_ifs <;> omega

/-! ### Characters -/

/-- A character the mask for the surrogates hits, though it is none. -/
def Mistaken (c : Char) : Prop := 0xd800 ≤ c.toNat % 0x10000 ∧ c.toNat % 0x10000 < 0xe000

theorem accepted_iff {first : UInt8} {tail : Bytes} (h : overlong (first :: tail) = false) :
  accepted (first :: tail) = true ↔ ¬ (0x10ffff < utf32 (first :: tail) ∨
    0xd800 ≤ utf32 (first :: tail) % 0x10000 ∧ utf32 (first :: tail) % 0x10000 < 0xe000)
  := by
  rw [← notLegal_iff, accepted, h]
  simp

theorem toNat_byte {k : ℕ} (h : k < 256) :
  (UInt8.ofNat k).toNat = k
  := by
  rw [UInt8.toNat_ofNat', Nat.mod_eq_of_lt h]

/-- The continuation byte with the last six bits of a number. -/
def tailByte (k : ℕ) : UInt8 := UInt8.ofNat (k % 0x40 + 0x80)

@[simp]
theorem toNat_tailByte (k : ℕ) :
  (tailByte k).toNat = k % 0x40 + 0x80
  := toNat_byte (by omega)

theorem eq_tailByte {c : UInt8} (h : isContinuation c = true) {k : ℕ}
    (hk : k % 64 = c.toNat % 64) :
  tailByte k = c
  := by
  rw [(masks c).continuation] at h
  rw [← UInt8.toNat_inj, toNat_tailByte]
  omega

theorem Sequence.of_tailByte {first : UInt8} {ks : List ℕ} (hle : 0xc0 ≤ first.toNat)
    (hlt : first.toNat < 0xf8)
    (hlength : ks.length
      = if first.toNat < 0xe0 then 1 else if first.toNat < 0xf0 then 2 else 3) :
  Sequence first (ks.map tailByte)
  := by
  refine ⟨hle, by omega, ?_, ?_⟩
  · rw [List.length_map, hlength, (masks first).expecting]
    split_ifs <;> omega
  · intro c hc
    obtain ⟨k, -, rfl⟩ := List.mem_map.mp hc
    exact isContinuation_tail k

theorem utf32_tailByte (first : UInt8) (ks : List ℕ) :
  utf32 (first :: ks.map tailByte)
    = ks.foldl (fun n k => n * 64 + k % 64) (leadingBits first).toNat
  := by
  rw [utf32_cons, List.foldl_map]
  congr
  funext n k
  rw [toNat_tailByte]
  omega

/-- The bytes of a character that is not of one byte. -/
theorem utf8EncodeChar_eq {c : Char} (h : 0x80 ≤ c.toNat) :
  String.utf8EncodeChar c =
    if c.toNat < 0x800 then
      UInt8.ofNat (c.toNat / 64 % 0x20 + 0xc0) :: [c.toNat].map tailByte
    else if c.toNat < 0x10000 then
      UInt8.ofNat (c.toNat / 4096 % 0x10 + 0xe0) :: [c.toNat / 64, c.toNat].map tailByte
    else
      UInt8.ofNat (c.toNat / 262144 % 0x08 + 0xf0)
        :: [c.toNat / 4096, c.toNat / 64, c.toNat].map tailByte
  := by
  have hval : c.val.toNat = c.toNat := rfl
  have h1 : ¬ c.toNat ≤ 0x7f := by omega
  have h2 : c.toNat ≤ 0x7ff ↔ c.toNat < 0x800 := by omega
  have h3 : c.toNat ≤ 0xffff ↔ c.toNat < 0x10000 := by omega
  simp only [String.utf8EncodeChar, hval, if_neg h1, h2, h3]
  rfl

theorem toNat_lt (c : Char) :
  c.toNat < 0x110000
  := by
  have hvalid : c.toNat < 0xd800 ∨ 0xdfff < c.toNat ∧ c.toNat < 0x110000 := c.valid
  omega

theorem Sequence.numbered {first : UInt8} {ks : List ℕ} {n : ℕ}
    (h : Sequence first (ks.map tailByte))
    (hnumber : ks.foldl (fun n k => n * 64 + k % 64) (leadingBits first).toNat = n)
    (hlong : (if first.toNat < 0xe0 then 0x80 else if first.toNat < 0xf0 then 0x800
      else if first.toNat < 0xf8 then 0x10000 else if first.toNat < 0xfc then 0x200000
      else 0x4000000) ≤ n) :
  utf32 (first :: ks.map tailByte) = n ∧ overlong (first :: ks.map tailByte) = false
  := by
  have heq : utf32 (first :: ks.map tailByte) = n := by rw [utf32_tailByte, hnumber]
  refine ⟨heq, ?_⟩
  rw [← Bool.not_eq_true, overlong_iff h, heq]
  omega

theorem toNat_ofNat {n : ℕ} (h : n.isValidChar) :
  (Char.ofNat n).toNat = n
  := by
  unfold Char.ofNat
  rw [dif_pos h]
  exact UInt32.toNat_ofNatLT

/-- A character that is not of one byte is a sequence of its own number. -/
theorem utf8EncodeChar_sequence {c : Char} (h : 0x80 ≤ c.toNat) :
  ∃ first tail, String.utf8EncodeChar c = first :: tail ∧ Sequence first tail ∧
    utf32 (first :: tail) = c.toNat ∧ overlong (first :: tail) = false
  := by
  have hmax := toNat_lt c
  rw [utf8EncodeChar_eq h]
  split_ifs with h2 h3
  · have hfirst := toNat_byte (k := c.toNat / 64 % 0x20 + 0xc0) (by omega)
    generalize UInt8.ofNat (c.toNat / 64 % 0x20 + 0xc0) = first at hfirst
    have hseq : Sequence first ([c.toNat].map tailByte) :=
      Sequence.of_tailByte (by omega) (by omega) (by rw [if_pos (by omega)]; rfl)
    refine ⟨_, _, rfl, hseq, hseq.numbered ?_ ?_⟩
    · rw [(masks first).leading, List.foldl_cons, List.foldl_nil]
      split_ifs <;> omega
    · rw [if_pos (by omega)]
      exact h
  · have hfirst := toNat_byte (k := c.toNat / 4096 % 0x10 + 0xe0) (by omega)
    generalize UInt8.ofNat (c.toNat / 4096 % 0x10 + 0xe0) = first at hfirst
    have hseq : Sequence first ([c.toNat / 64, c.toNat].map tailByte) :=
      Sequence.of_tailByte (by omega) (by omega)
        (by rw [if_neg (by omega), if_pos (by omega)]; rfl)
    refine ⟨_, _, rfl, hseq, hseq.numbered ?_ ?_⟩
    · rw [(masks first).leading, List.foldl_cons, List.foldl_cons, List.foldl_nil]
      split_ifs <;> omega
    · rw [if_neg (by omega), if_pos (by omega)]
      omega
  · have hfirst := toNat_byte (k := c.toNat / 262144 % 0x08 + 0xf0) (by omega)
    generalize UInt8.ofNat (c.toNat / 262144 % 0x08 + 0xf0) = first at hfirst
    have hseq : Sequence first ([c.toNat / 4096, c.toNat / 64, c.toNat].map tailByte) :=
      Sequence.of_tailByte (by omega) (by omega)
        (by rw [if_neg (by omega), if_neg (by omega)]; rfl)
    refine ⟨_, _, rfl, hseq, hseq.numbered ?_ ?_⟩
    · rw [(masks first).leading]
      simp only [List.foldl_cons, List.foldl_nil]
      split_ifs <;> omega
    · rw [if_neg (by omega), if_neg (by omega), if_pos (by omega)]
      omega

/-- A sequence accepted is a character. -/
theorem exists_char {first : UInt8} {tail : Bytes} (h : Sequence first tail)
    (haccepted : accepted (first :: tail) = true) :
  ∃ c : Char, String.utf8EncodeChar c = first :: tail
  := by
  have hoverlong : overlong (first :: tail) = false := by
    cases ho : overlong (first :: tail) with
    | false => rfl
    | true => simp [accepted, ho] at haccepted
  have hlegal := (accepted_iff hoverlong).mp haccepted
  have hvalid : (utf32 (first :: tail)).isValidChar := by
    change _ ∨ _ ∧ _
    omega
  have hlong := (overlong_iff h).not.mp (by simp [hoverlong])
  have hnumber := utf32_cons first tail
  rw [(masks first).leading] at hnumber
  have hle := h.le_first
  have hlt := h.first_lt
  use Char.ofNat (utf32 (first :: tail))
  have hchar : (Char.ofNat (utf32 (first :: tail))).toNat = utf32 (first :: tail) :=
    toNat_ofNat hvalid
  generalize utf32 (first :: tail) = n at hchar hlong hnumber hlegal
  have hfirst : ∀ k < 256, k = first.toNat → UInt8.ofNat k = first := by
    intro k hk hkfirst
    rw [← UInt8.toNat_inj, toNat_byte hk, hkfirst]
  have hcontinuation := h.continuation
  obtain ⟨h1, a, rfl⟩ | ⟨h0, h1, a, b, rfl⟩ | ⟨h0, h1, a, b, d, rfl⟩ |
    ⟨h0, h1, a, b, d, e, rfl⟩ | ⟨h0, a, b, d, e, f, rfl⟩ := h.shapes
  · have ha := hcontinuation a (by simp)
    simp only [List.foldl_cons, List.foldl_nil] at hnumber
    rw [if_neg (by omega), if_pos h1] at hnumber
    rw [if_pos h1] at hlong
    rw [utf8EncodeChar_eq (by omega), hchar, if_pos (by omega), hfirst _ (by omega) (by omega),
      List.map_singleton, eq_tailByte ha (by omega)]
  · have ha := hcontinuation a (by simp)
    have hb := hcontinuation b (by simp)
    simp only [List.foldl_cons, List.foldl_nil] at hnumber
    rw [if_neg (by omega), if_neg (by omega), if_pos h1] at hnumber
    rw [if_neg (by omega), if_pos h1] at hlong
    rw [utf8EncodeChar_eq (by omega), hchar, if_neg (by omega), if_pos (by omega),
      hfirst _ (by omega) (by omega)]
    simp only [List.map_cons, List.map_nil]
    rw [eq_tailByte ha (by omega), eq_tailByte hb (by omega)]
  · have ha := hcontinuation a (by simp)
    have hb := hcontinuation b (by simp)
    have hd := hcontinuation d (by simp)
    simp only [List.foldl_cons, List.foldl_nil] at hnumber
    rw [if_neg (by omega), if_neg (by omega), if_neg (by omega), if_pos h1] at hnumber
    rw [if_neg (by omega), if_neg (by omega), if_pos h1] at hlong
    rw [utf8EncodeChar_eq (by omega), hchar, if_neg (by omega), if_neg (by omega),
      hfirst _ (by omega) (by omega)]
    simp only [List.map_cons, List.map_nil]
    rw [eq_tailByte ha (by omega), eq_tailByte hb (by omega), eq_tailByte hd (by omega)]
  -- a sequence of five or six bytes that is not overlong has a number above U+10FFFF
  · rw [if_neg (by omega), if_neg (by omega), if_neg (by omega), if_pos h1] at hlong
    omega
  · rw [if_neg (by omega), if_neg (by omega), if_neg (by omega), if_neg (by omega)] at hlong
    omega

/-! ### What is accepted -/

theorem sequence_or_not (c : UInt8) (text : Bytes) (hascii : ¬ c &&& 0x80 = 0)
    (hfirst : ¬ (isContinuation c || c &&& 0xfe = 0xfe) = true)
    (hlength : (continuationBytes (expectingBytes c) text).length = expectingBytes c) :
  Sequence c (continuationBytes (expectingBytes c) text)
  := by
  have hmasks := masks c
  rw [hmasks.ascii] at hascii
  rw [Bool.or_eq_true, decide_eq_true_iff, hmasks.continuation, hmasks.invalid] at hfirst
  exact ⟨by omega, by omega, hlength, (continuationBytes_spec _ _).2⟩

theorem isUtf8_encode_cons (c : Char) (rest : Bytes) :
  isUtf8 (String.utf8EncodeChar c ++ rest) = true ↔ ¬ Mistaken c ∧ isUtf8 rest = true
  := by
  obtain ⟨b, heq, hlow, hb⟩ | ⟨_, _, -, -, -, -, hhigh⟩ := utf8EncodeChar_cases c
  · have hascii : b &&& 0x80 = 0 := (masks b).ascii.mpr hlow
    have hlow' : b.toNat < 0x80 := hlow
    rw [heq, List.singleton_append, isUtf8, if_pos hascii]
    refine (and_iff_right ?_).symm
    unfold Mistaken
    omega
  · obtain ⟨first, tail, heq, hseq, hnumber, hoverlong⟩ := utf8EncodeChar_sequence hhigh
    have hmax := toNat_lt c
    rw [heq, List.cons_append, isUtf8_sequence hseq, Bool.and_eq_true, accepted_iff hoverlong,
      hnumber, Mistaken]
    refine and_congr_left fun _ => ?_
    omega

/-- The text of characters is accepted exactly when the mask hits none of them. -/
theorem isUtf8_encode (text : List Char) :
  isUtf8 (encode text) = true ↔ ∀ c ∈ text, ¬ Mistaken c
  := by
  induction text with
  | nil => simp [isUtf8]
  | cons c text ih => rw [encode_cons, isUtf8_encode_cons, ih, List.forall_mem_cons]

theorem exists_ascii {c : UInt8} (h : c &&& 0x80 = 0) :
  ∃ char : Char, String.utf8EncodeChar char = [c]
  := by
  rw [(masks c).ascii] at h
  have hvalid : c.toNat.isValidChar := Or.inl (by omega)
  use Char.ofNat c.toNat
  have hval : (Char.ofNat c.toNat).val.toNat = c.toNat := toNat_ofNat hvalid
  simp only [String.utf8EncodeChar, hval]
  rw [if_pos (by omega), c.ofNat_toNat]

theorem wellFormed_of_isUtf8 (s : Bytes) (h : isUtf8 s = true) :
  WellFormed s
  := by
  fun_induction isUtf8 s with
  | case1 => exact ⟨[], rfl⟩
  | case2 c text hascii ih =>
    obtain ⟨rest, rfl⟩ := ih h
    obtain ⟨char, hchar⟩ := exists_ascii hascii
    use char :: rest
    rw [encode_cons, hchar, List.singleton_append]
  | case3 => exact absurd h (by decide)
  | case4 => exact absurd h (by decide)
  | case5 => exact absurd h (by decide)
  | case6 c text hascii hfirst tail hlength haccepted ih =>
    obtain ⟨rest, hrest⟩ := ih h
    have hseq := sequence_or_not c text hascii hfirst (not_not.mp hlength)
    obtain ⟨char, hchar⟩ := exists_char hseq (not_not.mp haccepted)
    use char :: rest
    rw [encode_cons, hchar, hrest, List.cons_append]
    exact congrArg _ (continuationBytes_spec _ _).1

/-! ### What is repaired -/

theorem isUtf8_replaceChar (text : Bytes) :
  isUtf8 (replaceChar :: text) = isUtf8 text
  := by
  rw [isUtf8, if_pos (by decide)]

theorem length_replaceInvalidUtf8 (text : Bytes) :
  (replaceInvalidUtf8 text).length ≤ text.length
  := by
  fun_induction replaceInvalidUtf8 text with
  | case1 => exact Nat.le_refl _
  | case2 c text _ ih => exact Nat.succ_le_succ ih
  | case3 c text _ _ ih => exact Nat.succ_le_succ ih
  | case4 c text _ _ tail _ ih =>
    have hsplit := congrArg List.length (continuationBytes_spec (expectingBytes c) text).1
    rw [List.length_append] at hsplit
    rw [List.length_append, List.length_cons, List.length_cons]
    change tail.length + (text.drop tail.length).length = text.length at hsplit
    omega
  | case5 c text _ _ tail _ ih =>
    rw [List.length_drop] at ih
    rw [List.length_cons, List.length_cons]
    omega

theorem replaceInvalidUtf8_of_isUtf8 (text : Bytes) (h : isUtf8 text = true) :
  replaceInvalidUtf8 text = text
  := by
  fun_induction isUtf8 text with
  | case1 => rw [replaceInvalidUtf8]
  | case2 c text hascii ih => rw [replaceInvalidUtf8, if_pos hascii, ih h]
  | case3 => exact absurd h (by decide)
  | case4 => exact absurd h (by decide)
  | case5 => exact absurd h (by decide)
  | case6 c text hascii hfirst tail hlength haccepted ih =>
    have hseq := sequence_or_not c text hascii hfirst (not_not.mp hlength)
    have hsplit := (continuationBytes_spec (expectingBytes c) text).1
    have hreplace := replaceInvalidUtf8_sequence hseq (not_not.mp haccepted)
      (text.drop tail.length)
    rwa [ih h, hsplit] at hreplace

theorem isUtf8_replaceInvalidUtf8 (text : Bytes) :
  isUtf8 (replaceInvalidUtf8 text) = true
  := by
  fun_induction replaceInvalidUtf8 text with
  | case1 => rw [isUtf8]
  | case2 c text hascii ih => rw [isUtf8, if_pos hascii, ih]
  | case3 c text _ _ ih => rw [isUtf8_replaceChar, ih]
  | case4 c text hascii hfirst tail haccepted ih =>
    have hseq := sequence_or_not c text hascii hfirst haccepted.1
    rw [List.cons_append, isUtf8_sequence hseq, haccepted.2, ih, Bool.and_true]
  | case5 c text _ _ tail _ ih => rw [isUtf8_replaceChar, ih]

/-- The check accepts exactly what is UTF-8, and the repair gives a text that is accepted and
not longer, the same one when it was accepted already. -/
structure Exact (s : Bytes) : Prop where
  accepts : isUtf8 s = true ↔ WellFormed s
  shorter : (replaceInvalidUtf8 s).length ≤ s.length
  unchanged : isUtf8 s = true → replaceInvalidUtf8 s = s
  repaired : isUtf8 (replaceInvalidUtf8 s) = true

/-- Only the check of a text with a character beyond U+FFFF is wrong, when the last sixteen bits
of the character are those of a surrogate. -/
theorem exact_iff (s : Bytes) :
  Exact s ↔ ∀ text, encode text = s → ∀ c ∈ text, ¬ Mistaken c
  := by
  constructor
  · rintro hexact text rfl
    exact (isUtf8_encode text).mp (hexact.accepts.mpr ⟨text, rfl⟩)
  · intro h
    refine ⟨⟨wellFormed_of_isUtf8 s, ?_⟩, length_replaceInvalidUtf8 s,
      replaceInvalidUtf8_of_isUtf8 s, isUtf8_replaceInvalidUtf8 s⟩
    rintro ⟨text, rfl⟩
    exact (isUtf8_encode text).mpr (h text rfl)

/-- The character U+1D800 is refused. -/
theorem exact_fails :
  ¬ Exact [0xf0, 0x9d, 0xa0, 0x80]
  := by
  intro hexact
  have hchar : encode [Char.ofNat 0x1d800] = [0xf0, 0x9d, 0xa0, 0x80] := by decide
  have haccepted := hexact.accepts.mpr ⟨_, hchar⟩
  rw [← hchar, isUtf8_encode] at haccepted
  exact haccepted _ (List.mem_singleton_self _) (by unfold Mistaken; decide)

end Utf8Check
