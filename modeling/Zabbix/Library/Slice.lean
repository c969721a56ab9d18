import Mathlib.Data.List.Basic
import Mathlib.Order.Basic
import Mathlib.Algebra.Order.Ring.Int
import Mathlib.Tactic.Common

/-!
# Slices of an array

The elements of an array `a : ℤ → α` at the positions `i`, …, `j - 1`, as a list, and
the array with a list written at a position. Positions are integers, as they are in code
that counts an index down past the start of an array.
-/

variable {α : Type*}

/-- The elements of `a` at the positions from `i` up to, but not including, `j`. -/
def slice (a : ℤ → α) (i j : ℤ) : List α :=
  (List.range (j - i).toNat).map fun k : ℕ => a (i + k)

/-- The array `a` with the list written at the positions from `i` on. -/
def writeAt (a : ℤ → α) (i : ℤ) : List α → ℤ → α
  | [] => a
  | x :: l => Function.update (writeAt a (i + 1) l) i x

namespace Slice

variable {a b : ℤ → α} {i j m : ℤ}

@[simp]
theorem length_slice (a : ℤ → α) (i j : ℤ) :
  (slice a i j).length = (j - i).toNat
  := by
  simp [slice]

theorem slice_of_le (h : j ≤ i) :
  slice a i j = []
  := by
  apply List.eq_nil_of_length_eq_zero
  rw [length_slice]
  omega

theorem mem_slice {x : α} :
  x ∈ slice a i j ↔ ∃ k, i ≤ k ∧ k < j ∧ a k = x
  := by
  simp only [slice, List.mem_map, List.mem_range]
  constructor
  · rintro ⟨k, hk, rfl⟩
    exact ⟨i + k, by omega, by omega, rfl⟩
  · rintro ⟨k, hi, hj, rfl⟩
    refine ⟨(k - i).toNat, by omega, ?_⟩
    congr
    omega

theorem slice_cons (h : i < j) :
  slice a i j = a i :: slice a (i + 1) j
  := by
  obtain ⟨n, hn⟩ : ∃ n : ℕ, j = i + n + 1 := ⟨(j - i - 1).toNat, by omega⟩
  subst hn
  unfold slice
  rw [show (i + n + 1 - i).toNat = n + 1 by omega,
    show (i + n + 1 - (i + 1)).toNat = n by omega, List.range_succ_eq_map]
  simp only [List.map_cons, List.map_map, Nat.cast_zero, add_zero, List.cons.injEq, true_and]
  apply List.map_congr_left
  intro k _
  simp only [Function.comp_apply]
  congr 1
  push_cast
  omega

theorem slice_append (hi : i ≤ m) (hj : m ≤ j) :
  slice a i m ++ slice a m j = slice a i j
  := by
  obtain ⟨n, hn⟩ : ∃ n : ℕ, m = i + n := ⟨(m - i).toNat, by omega⟩
  induction n generalizing i with
  | zero =>
    obtain rfl : m = i := by omega
    rw [slice_of_le le_rfl, List.nil_append]
  | succ n ih =>
    rw [slice_cons (show i < m by omega), slice_cons (show i < j by omega), List.cons_append,
      ih (by omega) (by omega)]

theorem slice_succ (h : i ≤ j) :
  slice a i (j + 1) = slice a i j ++ [a j]
  := by
  rw [← slice_append h (by omega : j ≤ j + 1), slice_cons (by omega : j < j + 1),
    slice_of_le (le_refl (j + 1))]

theorem slice_congr (h : ∀ k, i ≤ k → k < j → a k = b k) :
  slice a i j = slice b i j
  := by
  apply List.map_congr_left
  intro k hk
  have := List.mem_range.mp hk
  apply h (i + k) (by omega) (by omega)

theorem pairwise_slice {r : α → α → Prop} (h : (slice a i j).Pairwise r) {k l : ℤ}
    (hk : i ≤ k) (hkl : k < l) (hl : l < j) :
  r (a k) (a l)
  := by
  rw [← slice_append (by omega : i ≤ l) hl.le, List.pairwise_append] at h
  apply h.2.2
  · exact mem_slice.mpr ⟨k, hk, hkl, rfl⟩
  · exact mem_slice.mpr ⟨l, le_rfl, hl, rfl⟩

theorem writeAt_of_lt (l : List α) {k : ℤ} (h : k < i) :
  writeAt a i l k = a k
  := by
  induction l generalizing i with
  | nil => rfl
  | cons x l ih => rw [writeAt, Function.update_of_ne h.ne, ih (by omega)]

theorem writeAt_of_ge (l : List α) {k : ℤ} (h : i + l.length ≤ k) :
  writeAt a i l k = a k
  := by
  induction l generalizing i with
  | nil => rfl
  | cons x l ih =>
    rw [List.length_cons] at h
    push_cast at h
    rw [writeAt, Function.update_of_ne (by omega), ih (by omega)]

/-- The written part reads back. -/
theorem slice_writeAt (a : ℤ → α) (i : ℤ) (l : List α) :
  slice (writeAt a i l) i (i + l.length) = l
  := by
  induction l generalizing i with
  | nil => exact slice_of_le (by simp)
  | cons x l ih =>
    rw [List.length_cons]
    push_cast
    rw [slice_cons (by omega), writeAt, Function.update_self]
    congr 1
    rw [show i + ((l.length : ℤ) + 1) = i + 1 + l.length by omega]
    calc slice (Function.update (writeAt a (i + 1) l) i x) (i + 1) (i + 1 + l.length)
        = slice (writeAt a (i + 1) l) (i + 1) (i + 1 + l.length) := by
          apply slice_congr
          intro k hk _
          exact Function.update_of_ne (by omega) _ _
      _ = l := ih (i + 1)

/-- Appending behind position `j`. -/
theorem slice_writeAt_end (h : i ≤ j) (l : List α) :
  slice (writeAt a j l) i (j + l.length) = slice a i j ++ l
  := by
  rw [← slice_append h (by omega : j ≤ j + l.length), slice_writeAt]
  congr 1
  apply slice_congr
  intro k _ hk
  exact writeAt_of_lt l hk

/-- Prepending before position `i`. -/
theorem slice_writeAt_start (l : List α) (h : i ≤ j) :
  slice (writeAt a (i - l.length) l) (i - l.length) j = l ++ slice a i j
  := by
  rw [← slice_append (by omega : i - l.length ≤ i) h]
  congr 1
  · have := slice_writeAt a (i - l.length) l
    rwa [sub_add_cancel] at this
  · apply slice_congr
    intro k hk _
    exact writeAt_of_ge l (by omega)

end Slice
