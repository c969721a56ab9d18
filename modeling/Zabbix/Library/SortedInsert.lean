import Mathlib.Data.List.InsertIdx
import Mathlib.Order.Lattice
import Mathlib.Order.Nat
import Mathlib.Tactic.Common

/-!
# Sorted insertion

A list is in order by the keys of its elements.  An element is inserted at the place that
separates the smaller keys from the others, if its key is not there.
-/

namespace SortedInsert

universe u v

variable {α : Type u} {κ : Type v} [LinearOrder κ] (key : α → κ)

def Sorted (xs : List α) : Prop := xs.Pairwise (key · < key ·)

/-- A place separates the keys below `k` from the others. -/
structure IsNearest (xs : List α) (k : κ) (i : ℕ) : Prop where
  le : i ≤ xs.length
  before : ∀ j y, xs[j]? = some y → j < i → key y < k
  after : ∀ j y, xs[j]? = some y → i ≤ j → k ≤ key y

variable {key} {xs : List α} {k : κ} {i j : ℕ} {x y : α}

theorem Sorted.lt_of_lt (hsorted : Sorted key xs) (hx : xs[i]? = some x) (hy : xs[j]? = some y)
    (hlt : i < j) :
  key x < key y
  := by
  obtain ⟨hi, rfl⟩ := List.getElem?_eq_some_iff.mp hx
  obtain ⟨hj, rfl⟩ := List.getElem?_eq_some_iff.mp hy
  exact List.pairwise_iff_getElem.mp hsorted i j hi hj hlt

/-- An element whose key is there is met at the place. -/
theorem IsNearest.getElem_of_mem (hsorted : Sorted key xs) (hnearest : IsNearest key xs k i)
    (hx : x ∈ xs) (hkey : key x = k) :
  xs[i]? = some x
  := by
  obtain ⟨j, hj⟩ := List.mem_iff_getElem?.mp hx
  obtain hlt | rfl | hgt := lt_trichotomy j i
  · exact absurd hkey (hnearest.before j x hj hlt).ne
  · exact hj
  · obtain ⟨hlen, -⟩ := List.getElem?_eq_some_iff.mp hj
    have hi : xs[i]? = some xs[i] := List.getElem?_eq_getElem (by omega)
    have hle := hnearest.after i xs[i] hi le_rfl
    exact absurd (hsorted.lt_of_lt hi hj hgt) (not_lt.mpr (hkey ▸ hle))

theorem IsNearest.tail {xs : List α} (hnearest : IsNearest key (y :: xs) k (i + 1)) :
  IsNearest key xs k i
  where
  le := Nat.le_of_succ_le_succ hnearest.le
  before j z hz hlt := hnearest.before (j + 1) z hz (Nat.succ_lt_succ hlt)
  after j z hz hle := hnearest.after (j + 1) z hz (Nat.succ_le_succ hle)

/-! ### Bisection -/

/-- The place for a key lies between two places of a list. -/
structure Bracket (key : α → κ) (xs : List α) (k : κ) (first last : ℕ) : Prop where
  le : first ≤ last
  lt : last < xs.length
  before : ∀ j y, xs[j]? = some y → j < first → key y < k
  after : ∀ j y, xs[j]? = some y → last < j → k ≤ key y

theorem Bracket.whole (hne : xs ≠ []) :
  Bracket key xs k 0 (xs.length - 1)
  where
  le := Nat.zero_le _
  lt := Nat.sub_one_lt (mt List.length_eq_zero_iff.mp hne)
  before j y _ hlt := absurd hlt (Nat.not_lt_zero j)
  after j y hy hlt := by
    obtain ⟨hj, -⟩ := List.getElem?_eq_some_iff.mp hy
    omega

section Bracket

variable {first last : ℕ} (hsorted : Sorted key xs) (h : Bracket key xs k first last)
  (hx : xs[i]? = some x)

include hsorted h hx

/-- The place lies behind a smaller key. -/
theorem Bracket.raise (hlt : i < last) (hkey : key x < k) :
  Bracket key xs k (i + 1) last
  := by
  refine ⟨hlt, h.lt, fun j y hy hj => ?_, h.after⟩
  obtain hj | rfl := Nat.lt_succ_iff_lt_or_eq.mp hj
  · exact lt_trans (hsorted.lt_of_lt hy hx hj) hkey
  · rw [Option.some.inj (hy.symm.trans hx)]
    exact hkey

/-- The place does not lie behind a key that is not smaller. -/
theorem Bracket.lower (hle : first ≤ i) (hkey : k ≤ key x) :
  Bracket key xs k first i
  := by
  obtain ⟨hi, -⟩ := List.getElem?_eq_some_iff.mp hx
  exact ⟨hle, hi, h.before, fun j y hy hj => le_of_lt (lt_of_le_of_lt hkey
    (hsorted.lt_of_lt hx hy hj))⟩

omit h in
/-- The place of a key that is met is where it is met. -/
theorem isNearest_of_eq (hkey : key x = k) :
  IsNearest key xs k i
  := by
  obtain ⟨hi, -⟩ := List.getElem?_eq_some_iff.mp hx
  refine ⟨hi.le, fun j y hy hj => ?_, fun j y hy hj => ?_⟩
  · rw [← hkey]
    exact hsorted.lt_of_lt hy hx hj
  · rw [← hkey]
    obtain hj | rfl := hj.lt_or_eq
    · exact le_of_lt (hsorted.lt_of_lt hx hy hj)
    · rw [Option.some.inj (hy.symm.trans hx)]

omit hsorted in
/-- Between two places that are the same, the place is this one or the next. -/
theorem Bracket.isNearest (hfirst : i = first) (hlast : i = last) :
  IsNearest key xs k (if key x < k then i + 1 else i)
  := by
  subst hfirst
  obtain ⟨hi, -⟩ := List.getElem?_eq_some_iff.mp hx
  split_ifs with hkey
  · refine ⟨hi, fun j y hy hj => ?_, fun j y hy hj => h.after j y hy (by omega)⟩
    obtain hj | rfl := Nat.lt_succ_iff_lt_or_eq.mp hj
    · exact h.before j y hy hj
    · rw [Option.some.inj (hy.symm.trans hx)]
      exact hkey
  · refine ⟨hi.le, fun j y hy hj => h.before j y hy hj, fun j y hy hj => ?_⟩
    obtain hj | rfl := hj.lt_or_eq
    · exact h.after j y hy (by omega)
    · rw [Option.some.inj (hy.symm.trans hx)]
      exact not_lt.mp hkey

end Bracket

/-! ### Insertion -/

/-- An element with a new key is inserted in order. -/
theorem sorted_insertIdx (hsorted : Sorted key xs) (hnearest : IsNearest key xs (key x) i)
    (hnew : ∀ y ∈ xs, key y ≠ key x) :
  Sorted key (xs.insertIdx i x)
  := by
  induction xs generalizing i with
  | nil =>
    obtain rfl : i = 0 := Nat.le_zero.mp hnearest.le
    exact List.pairwise_singleton _ x
  | cons y xs ih =>
    obtain ⟨hhead, htail⟩ := List.pairwise_cons.mp hsorted
    cases i with
    | zero =>
      have hy : key x < key y :=
        lt_of_le_of_ne (hnearest.after 0 y rfl le_rfl) (hnew y List.mem_cons_self).symm
      refine List.pairwise_cons.mpr ⟨fun z hz => ?_, hsorted⟩
      obtain rfl | hz := List.mem_cons.mp hz
      · exact hy
      · exact lt_trans hy (hhead z hz)
    | succ i =>
      have hle : i ≤ xs.length := Nat.le_of_succ_le_succ hnearest.le
      rw [List.insertIdx_succ_cons]
      refine List.pairwise_cons.mpr ⟨fun z hz => ?_, ?_⟩
      · obtain rfl | hz := (List.mem_insertIdx hle).mp hz
        · exact hnearest.before 0 y rfl (Nat.succ_pos i)
        · exact hhead z hz
      · exact ih htail hnearest.tail fun z hz => hnew z (List.mem_cons_of_mem y hz)

/-- The first element with a property has the least key of those with it. -/
theorem Sorted.le_of_find? (hsorted : Sorted key xs) {p : α → Bool}
    (hfind : xs.find? p = some x) (hy : y ∈ xs) (hp : p y = true) :
  key x ≤ key y
  := by
  obtain ⟨-, before, rest, rfl, hbefore⟩ := List.find?_eq_some_iff_append.mp hfind
  obtain ⟨-, hlater, -⟩ := List.pairwise_append.mp hsorted
  obtain hin | hin := List.mem_append.mp hy
  · have hnot := hbefore y hin
    rw [hp] at hnot
    nomatch hnot
  · obtain rfl | hin := List.mem_cons.mp hin
    · exact le_rfl
    · exact le_of_lt (List.rel_of_pairwise_cons hlater hin)

end SortedInsert
