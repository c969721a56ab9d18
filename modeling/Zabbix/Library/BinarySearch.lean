import Mathlib.Order.Lattice
import Mathlib.Tactic.Common

/-!
# Binary search

The search of `bsearch` for an element: an interval of the list is halved until the element
is met or nothing is left. In a list in order this decides membership.
-/

universe u

variable {α : Type u} [LinearOrder α]

/-- Looks for `x` between the places `low` and `high`, for at most the given number of
rounds. -/
def bsearchIn (xs : List α) (x : α) : (rounds low high : ℕ) → Bool
  | 0, _, _ => false
  | rounds + 1, low, high =>
    if low < high then
      match xs[(low + high) / 2]? with
      | none => false
      | some y =>
        if x < y then bsearchIn xs x rounds low ((low + high) / 2)
        else if y < x then bsearchIn xs x rounds ((low + high) / 2 + 1) high
        else true
    else false

/-- Whether `bsearch` finds an element. -/
def bsearch (xs : List α) (x : α) : Bool := bsearchIn xs x (xs.length + 1) 0 xs.length

theorem bsearchIn_sound {xs : List α} {x : α} {rounds low high : ℕ}
    (h : bsearchIn xs x rounds low high) :
  x ∈ xs
  := by
  induction rounds generalizing low high with
  | zero => simp [bsearchIn] at h
  | succ rounds ih =>
    rw [bsearchIn] at h
    split_ifs at h with hlt
    cases hget : xs[(low + high) / 2]? with
    | none => simp [hget] at h
    | some y =>
      simp only [hget] at h
      split_ifs at h with hbelow habove
      · exact ih h
      · exact ih h
      · obtain rfl : x = y := le_antisymm (not_lt.mp habove) (not_lt.mp hbelow)
        exact List.mem_of_getElem? hget

/-- An element between the two places is found. -/
theorem bsearchIn_complete {xs : List α} (hsorted : xs.Pairwise (· ≤ ·)) {x : α} {i : ℕ}
    (hi : xs[i]? = some x) {rounds low high : ℕ} (hlow : low ≤ i) (hhigh : i < high)
    (hend : high ≤ xs.length) (hrounds : high - low < rounds) :
  bsearchIn xs x rounds low high
  := by
  induction rounds generalizing low high with
  | zero => omega
  | succ rounds ih =>
    have hmiddle : (low + high) / 2 < xs.length := by omega
    obtain ⟨hlt, hx⟩ := List.getElem?_eq_some_iff.mp hi
    have hmono : ∀ {j k : ℕ} (hk : k < xs.length) (hjk : j ≤ k), xs[j] ≤ xs[k] := by
      intro j k hk hjk
      obtain hjk | rfl := Nat.lt_or_eq_of_le hjk
      · exact List.pairwise_iff_getElem.mp hsorted j k _ hk hjk
      · exact le_rfl
    rw [bsearchIn, if_pos (by omega), List.getElem?_eq_getElem hmiddle]
    dsimp only
    split_ifs with hbelow habove
    · have hleft : i < (low + high) / 2 := by
        by_contra hge
        exact absurd (hx ▸ hmono hlt (Nat.le_of_not_lt hge)) (not_le.mpr hbelow)
      exact ih hlow hleft (by omega) (by omega)
    · have hright : (low + high) / 2 < i := by
        by_contra hge
        exact absurd (hx ▸ hmono hmiddle (Nat.le_of_not_lt hge)) (not_le.mpr habove)
      exact ih hright hhigh hend (by omega)
    · rfl

/-- In a list in order an element is found exactly when it is there. -/
theorem bsearch_iff {xs : List α} (hsorted : xs.Pairwise (· ≤ ·)) (x : α) :
  bsearch xs x ↔ x ∈ xs
  := by
  constructor
  · exact bsearchIn_sound
  · intro hx
    obtain ⟨i, hi⟩ := List.mem_iff_getElem?.mp hx
    obtain ⟨hlt, -⟩ := List.getElem?_eq_some_iff.mp hi
    exact bsearchIn_complete hsorted hi (Nat.zero_le i) hlt (Nat.le_refl _) (by omega)
