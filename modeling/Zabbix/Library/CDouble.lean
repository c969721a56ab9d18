import Mathlib.Algebra.Order.Field.Rat
import Zabbix.Library.Ascii

/-!
# Numbers of type `double`

The operations of the type `double` and of the C library that a program uses. Nothing is assumed
of them: not how they round, nor where they overflow to an infinity. What holds for every type
with these operations holds for the `double` of every machine.

The letters that `%lf` prints for an infinity or for what is not a number are those of the C
library; the digits it prints for a finite number come from its value in millionths.
-/

open Ascii

/-- The operations of `double`. -/
class CDouble (D : Type*) where
  /-- The `double` that stands for a literal. -/
  literal : ℚ → D
  /-- `atof`. -/
  atof : Bytes → D
  neg : D → D
  add : D → D → D
  sub : D → D → D
  mul : D → D → D
  div : D → D → D
  /-- `fabs`. -/
  fabs : D → D
  lt : D → D → Bool
  le : D → D → Bool
  /-- `signbit`. -/
  signbit : D → Bool
  /-- `isnan`. -/
  isNan : D → Bool
  /-- The absolute value in millionths, rounded, of a finite number. -/
  millionths : D → Option ℕ

namespace CDouble

variable {D : Type*} [CDouble D]

/-- The last `k` digits of a number. -/
def lastDigits : ℕ → ℕ → Bytes
  | 0, _ => []
  | k + 1, n => lastDigits k (n / 10) ++ [0x30 + (n % 10).toUInt8]

theorem length_lastDigits (k n : ℕ) :
  (lastDigits k n).length = k
  := by
  induction k generalizing n with
  | zero => rfl
  | succ k ih => rw [lastDigits, List.length_append, ih, List.length_singleton]

theorem isDigit_lastDigits (k n : ℕ) :
  ∀ c ∈ lastDigits k n, isDigit c = true
  := by
  induction k generalizing n with
  | zero => exact fun c hc => nomatch hc
  | succ k ih =>
    intro c hc
    obtain hc | hc := List.mem_append.mp hc
    · exact ih _ c hc
    · rw [List.mem_singleton.mp hc]
      exact isDigit_digit n

/-- What `%lf` prints for a number that is not finite. -/
def special (value : D) : Bytes :=
  if isNan value then bytes ['n', 'a', 'n'] else bytes ['i', 'n', 'f']

theorem isAlpha_special (value : D) :
  ∀ c ∈ special value, isAlpha c = true
  := by
  rw [special]
  split
  · exact List.all_eq_true.mp (by decide)
  · exact List.all_eq_true.mp (by decide)

/-- What `%lf` prints for a number without its sign: six digits behind the point. -/
def magnitude (value : D) : Bytes :=
  match millionths value with
  | none => special value
  | some n => decimal (n / 1000000) ++ dot :: lastDigits 6 n

/-- `%lf`. -/
def print (value : D) : Bytes :=
  (if signbit value then [minus] else []) ++ magnitude value

/-- The number of characters that `%lf` prints. -/
def printedLength (value : D) : ℕ :=
  (if signbit value then 1 else 0) + match millionths value with
    | none => 3
    | some n => (decimal (n / 1000000)).length + 7

theorem length_print (value : D) :
  (print value).length = printedLength value
  := by
  have hsign : (if signbit value then [minus] else []).length =
      if signbit value then 1 else 0 := by split <;> rfl
  rw [print, printedLength, List.length_append, hsign, magnitude]
  congr 1
  cases millionths value with
  | none =>
    dsimp only
    rw [special]
    split <;> rfl
  | some n =>
    dsimp only
    rw [List.length_append, List.length_cons, length_lastDigits]

/-- The characters that `%lf` prints. -/
theorem mem_print {value : D} {c : UInt8} (h : c ∈ print value) :
  c = minus ∨ c = dot ∨ isDigit c = true ∨ isAlpha c = true
  := by
  rw [print, List.mem_append, magnitude] at h
  obtain h | h := h
  · split at h
    · exact .inl (List.mem_singleton.mp h)
    · cases h
  · cases hvalue : millionths value with
    | none =>
      rw [hvalue] at h
      exact .inr (.inr (.inr (isAlpha_special value c h)))
    | some n =>
      rw [hvalue, List.mem_append, List.mem_cons] at h
      obtain h | h | h := h
      · exact .inr (.inr (.inl (isDigit_decimal _ c h)))
      · exact .inr (.inl h)
      · exact .inr (.inr (.inl (isDigit_lastDigits _ _ c h)))

theorem not_mem_print (value : D) {c : UInt8}
    (h : ¬ (c = minus ∨ c = dot ∨ isDigit c = true ∨ isAlpha c = true)) :
  c ∉ print value
  := mt mem_print h

end CDouble
