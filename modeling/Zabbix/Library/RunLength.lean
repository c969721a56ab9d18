import Mathlib.Data.List.Basic
import Mathlib.Tactic.Common

/-!
# Run lengths

A list as the list of its runs of equal elements, each with the number of times the element is
repeated.
-/

namespace RunLength

variable {α : Type*} [DecidableEq α]

/-- The runs of a list. The number `0` stands for an element that is not repeated. -/
def runs : List α → List (α × ℕ)
  | [] => []
  | a :: l =>
    match runs l with
    | [] => [(a, 0)]
    | (b, m) :: rest => if a = b then (a, m + 1) :: rest else (a, 0) :: (b, m) :: rest

/-- The first run is one of the first element. -/
theorem exists_runs_cons (a : α) (l : List α) :
  ∃ m rest, runs (a :: l) = (a, m) :: rest
  := by
  rw [runs]
  split
  · exact ⟨0, [], rfl⟩
  · split_ifs
    · exact ⟨_, _, rfl⟩
    · exact ⟨0, _, rfl⟩

/-- A run goes on until another element comes. -/
theorem runs_replicate_append {a b : α} (h : a ≠ b) (m : ℕ) (l : List α) :
  runs (List.replicate (m + 1) a ++ b :: l) = (a, m) :: runs (b :: l)
  := by
  induction m with
  | zero =>
    obtain ⟨k, rest, hruns⟩ := exists_runs_cons b l
    rw [List.replicate_one, List.singleton_append, runs, hruns]
    exact if_neg h
  | succ m ih =>
    rw [List.replicate_succ, List.cons_append, runs, ih]
    exact if_pos rfl

/-- The first run is as long as the elements before anything else comes, or longer. -/
theorem exists_runs_replicate_append (a : α) (m : ℕ) (l : List α) :
  ∃ k rest, runs (List.replicate (m + 1) a ++ l) = (a, k) :: rest ∧ m ≤ k
  := by
  induction m with
  | zero =>
    obtain ⟨k, rest, hruns⟩ := exists_runs_cons a l
    exact ⟨k, rest, hruns, Nat.zero_le k⟩
  | succ m ih =>
    obtain ⟨k, rest, hruns, hk⟩ := ih
    refine ⟨k + 1, rest, ?_, Nat.succ_le_succ hk⟩
    rw [List.replicate_succ, List.cons_append, runs, hruns]
    exact if_pos rfl

theorem runs_replicate (a : α) (m : ℕ) :
  runs (List.replicate (m + 1) a) = [(a, m)]
  := by
  induction m with
  | zero => rfl
  | succ m ih =>
    rw [List.replicate_succ, runs, ih]
    exact if_pos rfl

end RunLength
