import Mathlib.Algebra.GroupWithZero.Nat
import Mathlib.Algebra.Ring.Int.Defs

/-!
# Numbers of type `int`

An `int` has 32 bits. A wider number is converted to one by its lowest bits, and the processor
does the same to a sum that an `int` cannot hold. Where the overflow of a sum is to count as a
failure, the sum has no result.
-/

namespace CInt

/-- The numbers an `int` can hold. -/
def Fits (n : ℤ) : Prop := -2147483648 ≤ n ∧ n ≤ 2147483647

instance (n : ℤ) : Decidable (Fits n) := inferInstanceAs (Decidable (_ ∧ _))

/-- The conversion to `int`. -/
def wrap (n : ℤ) : ℤ := n.bmod 4294967296

/-- The value of a sum, unless it overflows. -/
def fit (n : ℤ) : Option ℤ := if Fits n then some n else none

theorem Fits.of_le {n bound : ℤ} (hbound : Fits bound) (hn : 0 ≤ n) (hle : n ≤ bound) :
  Fits n
  := ⟨by omega, Int.le_trans hle hbound.2⟩

theorem wrap_of_fits {n : ℤ} (h : Fits n) :
  wrap n = n
  := by
  obtain ⟨hlow, hhigh⟩ := h
  unfold wrap
  apply Int.bmod_eq_of_le <;> omega

theorem fits_wrap (n : ℤ) :
  Fits (wrap n)
  := by
  have hlow := Int.le_bmod (x := n) (m := 4294967296) (by decide)
  have hhigh := Int.bmod_lt (x := n) (m := 4294967296) (by decide)
  unfold wrap Fits
  omega

/-- A number is converted to itself exactly when an `int` can hold it. -/
theorem wrap_eq_iff (n : ℤ) :
  wrap n = n ↔ Fits n
  := by
  refine ⟨?_, wrap_of_fits⟩
  intro heq
  rw [← heq]
  exact fits_wrap n

theorem fit_of_fits {n : ℤ} (h : Fits n) :
  fit n = some n
  := if_pos h

end CInt
