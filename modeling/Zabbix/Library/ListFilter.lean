import Mathlib.Data.List.Perm.Basic
import Mathlib.Data.List.Perm.Lattice
import Mathlib.Tactic.Common

/-!
# Filtered parts of a list

A list filtered by two conditions that exclude each other is, up to order, the list
filtered by either of them. A filter whose condition holds on a front part of the list
and fails on the rest gives the front part.
-/

namespace ListFilter

variable {α : Type*} {l front rest : List α} {P Q R : α → Bool}

/-- The parts filtered by `P` and by `Q` make up the part filtered by `R`. -/
theorem filter_append_filter (hR : ∀ x ∈ l, R x = (P x || Q x))
    (hPQ : ∀ x ∈ l, P x → Q x = false) :
  (l.filter P ++ l.filter Q).Perm (l.filter R)
  := by
  induction l with
  | nil => simp
  | cons x l ih =>
    have ih := ih (fun y hy => hR y (List.mem_cons_of_mem x hy))
      (fun y hy => hPQ y (List.mem_cons_of_mem x hy))
    have hx := hR x List.mem_cons_self
    have hxPQ := hPQ x List.mem_cons_self
    cases hp : P x with
    | true =>
      rw [hp, Bool.true_or] at hx
      rw [List.filter_cons_of_pos hp, List.filter_cons_of_pos hx,
        List.filter_cons_of_neg (by simp [hxPQ hp])]
      exact ih.cons x
    | false =>
      rw [hp, Bool.false_or] at hx
      rw [List.filter_cons_of_neg (by simp [hp])]
      cases hq : Q x with
      | true =>
        rw [List.filter_cons_of_pos hq, List.filter_cons_of_pos (hx.trans hq)]
        exact (List.perm_middle).trans (ih.cons x)
      | false =>
        rw [List.filter_cons_of_neg (by simp [hq]),
          List.filter_cons_of_neg (by simp [hx, hq])]
        exact ih

/-- A condition that separates a list filters out its front part. -/
theorem filter_append_eq_front (hfront : ∀ x ∈ front, P x) (hrest : ∀ x ∈ rest, ¬ P x) :
  (front ++ rest).filter P = front
  := by
  rw [List.filter_append, List.filter_eq_self.mpr hfront,
    List.filter_eq_nil_iff.mpr hrest, List.append_nil]

/-- A condition that separates a list filters out its rear part. -/
theorem filter_append_eq_rest (hfront : ∀ x ∈ front, ¬ P x) (hrest : ∀ x ∈ rest, P x) :
  (front ++ rest).filter P = rest
  := by
  rw [List.filter_append, List.filter_eq_nil_iff.mpr hfront,
    List.filter_eq_self.mpr hrest, List.nil_append]

end ListFilter
