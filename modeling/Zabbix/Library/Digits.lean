import Mathlib.Data.List.Induction
import Mathlib.Tactic.Ring
import Zabbix.Library.Ascii

/-!
# Digits

The numbers that texts of digits stand for, in a base up to sixteen. Both cases of the letters
are digits.
-/

namespace Digits

open Ascii

/-- The number that a digit stands for. -/
def digit (c : UInt8) : ℕ :=
  if isDigit c then c.toNat - 0x30
  else if 0x61 ≤ c then c.toNat - 0x61 + 10
  else c.toNat - 0x41 + 10

/-- The number that digits stand for. -/
def value (base : ℕ) (digits : Bytes) : ℕ := digits.foldl (fun n c => base * n + digit c) 0

@[simp]
theorem value_nil (base : ℕ) :
  value base [] = 0
  := rfl

theorem value_concat (base : ℕ) (digits : Bytes) (c : UInt8) :
  value base (digits ++ [c]) = base * value base digits + digit c
  := by
  rw [value, List.foldl_append]
  rfl

theorem value_append (base : ℕ) (digits digits' : Bytes) :
  value base (digits ++ digits')
    = value base digits * base ^ digits'.length + value base digits'
  := by
  induction digits' using List.reverseRecOn with
  | nil => simp
  | append_singleton digits' c ih =>
    rw [← List.append_assoc, value_concat, ih, value_concat, List.length_append,
      List.length_singleton, pow_succ]
    ring

/-- Digits in front of others do not make the number smaller. -/
theorem value_le_append {base : ℕ} (hbase : 0 < base) (digits digits' : Bytes) :
  value base digits ≤ value base (digits ++ digits')
  := by
  rw [value_append]
  exact Nat.le_add_right_of_le (Nat.le_mul_of_pos_right _ (Nat.pow_pos hbase))

theorem digit_lt_ten {c : UInt8} (h : isDigit c = true) :
  digit c < 10
  := by
  have hrange : c ≤ 0x39 := by
    rw [isDigit, Bool.and_eq_true, decide_eq_true_eq, decide_eq_true_eq] at h
    exact h.2
  rw [UInt8.le_iff_toNat_le] at hrange
  change c.toNat ≤ 57 at hrange
  rw [digit, if_pos h]
  omega

theorem digit_lt_sixteen {c : UInt8} (h : isHexDigit c = true) :
  digit c < 16
  := by
  have hall : ∀ n < 256, isHexDigit (UInt8.ofNat n) = true → digit (UInt8.ofNat n) < 16 := by
    decide +kernel
  rw [← c.ofNat_toNat] at h ⊢
  exact hall _ c.toNat_lt h

theorem value_lt {base : ℕ} {digits : Bytes} (h : ∀ c ∈ digits, digit c < base) :
  value base digits < base ^ digits.length
  := by
  induction digits using List.reverseRecOn with
  | nil => simp
  | append_singleton digits c ih =>
    rw [List.forall_mem_append, List.forall_mem_singleton] at h
    have hlt := ih h.1
    rw [value_concat, List.length_append, List.length_singleton, pow_succ]
    calc base * value base digits + digit c < base * value base digits + base :=
          Nat.add_lt_add_left h.2 _
      _ = base * (value base digits + 1) := by ring
      _ ≤ base * base ^ digits.length := Nat.mul_le_mul_left _ hlt
      _ = base ^ digits.length * base := Nat.mul_comm ..

/-! ### Printing -/

/-- The digit for a number below sixteen. -/
def hexDigit (n : ℕ) : UInt8 := if n < 10 then 0x30 + n.toUInt8 else 0x57 + n.toUInt8

/-- The digits `%x` prints. -/
def hex (n : ℕ) : Bytes :=
  if n < 16 then [hexDigit n] else hex (n / 16) ++ [hexDigit (n % 16)]

/-- The digits `%04x` prints, for the width four. -/
def hexPadded (width n : ℕ) : Bytes :=
  List.replicate (width - (hex n).length) 0x30 ++ hex n

theorem hexDigit_spec {n : ℕ} (h : n < 16) :
  digit (hexDigit n) = n ∧ isHexDigit (hexDigit n) = true
  := by
  have hall : ∀ n < 16, digit (hexDigit n) = n ∧ isHexDigit (hexDigit n) = true := by decide
  exact hall n h

theorem value_singleton (base : ℕ) (c : UInt8) :
  value base [c] = digit c
  := by
  rw [← List.nil_append [c], value_concat, value_nil, Nat.mul_zero, Nat.zero_add]

theorem hex_ne_nil (n : ℕ) :
  hex n ≠ []
  := by
  rw [hex]
  split_ifs <;> simp

theorem isHexDigit_hex (n : ℕ) :
  ∀ c ∈ hex n, isHexDigit c = true
  := by
  fun_induction hex n with
  | case1 n hlt => exact List.forall_mem_singleton.mpr (hexDigit_spec hlt).2
  | case2 n _ ih =>
    have hlast := (hexDigit_spec (Nat.mod_lt n (show 16 > 0 by decide))).2
    exact List.forall_mem_append.mpr ⟨ih, List.forall_mem_singleton.mpr hlast⟩

@[simp]
theorem value_hex (n : ℕ) :
  value 16 (hex n) = n
  := by
  fun_induction hex n with
  | case1 n hlt => rw [value_singleton, (hexDigit_spec hlt).1]
  | case2 n _ ih =>
    rw [value_concat, ih, (hexDigit_spec (Nat.mod_lt n (show 16 > 0 by decide))).1]
    exact Nat.div_add_mod n 16

theorem length_hex_le {n k : ℕ} (h : n < 16 ^ (k + 1)) :
  (hex n).length ≤ k + 1
  := by
  induction k generalizing n with
  | zero =>
    rw [hex, if_pos (by omega)]
    rfl
  | succ k ih =>
    rw [hex]
    split_ifs with hlt
    · exact Nat.le_add_left 1 _
    · have hdiv : n / 16 < 16 ^ (k + 1) := by
        rw [Nat.div_lt_iff_lt_mul (by decide), ← pow_succ]
        exact h
      rw [List.length_append]
      exact Nat.succ_le_succ (ih hdiv)

theorem value_replicate_zero (base k : ℕ) :
  value base (List.replicate k 0x30) = 0
  := by
  induction k with
  | zero => rfl
  | succ k ih =>
    rw [List.replicate_succ', value_concat, ih]
    rfl

theorem value_hexPadded (width n : ℕ) :
  value 16 (hexPadded width n) = n
  := by
  rw [hexPadded, value_append, value_replicate_zero, value_hex]
  omega

theorem isHexDigit_hexPadded (width n : ℕ) :
  ∀ c ∈ hexPadded width n, isHexDigit c = true
  := by
  intro c hc
  obtain hc | hc := List.mem_append.mp hc
  · rw [List.eq_of_mem_replicate hc]
    decide
  · exact isHexDigit_hex n c hc

theorem length_hexPadded {width n : ℕ} (h : (hex n).length ≤ width) :
  (hexPadded width n).length = width
  := by
  rw [hexPadded, List.length_append, List.length_replicate]
  omega

/-- Printing digits again gives no more of them. -/
theorem length_hex_value_le {digits : Bytes} (hne : digits ≠ [])
    (h : ∀ c ∈ digits, isHexDigit c = true) :
  (hex (value 16 digits)).length ≤ digits.length
  := by
  have hlt := value_lt fun c hc => digit_lt_sixteen (h c hc)
  obtain ⟨k, hk⟩ := Nat.exists_eq_add_one_of_ne_zero (List.length_pos_of_ne_nil hne).ne'
  rw [hk] at hlt ⊢
  exact length_hex_le hlt

end Digits
