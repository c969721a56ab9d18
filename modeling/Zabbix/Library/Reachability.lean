import Mathlib.Data.List.Chain
import Mathlib.Logic.Relation
import Mathlib.SetTheory.Cardinal.NatCard

/-!
# Bounded search of a graph

A search that follows the edges of a graph from a vertex for a limited number of levels, and
stops where it meets a vertex that is not good. When no path is longer than the limit it
meets every vertex that can be reached.
-/

universe u

variable {α : Type u}

/-- Whether all vertices that are met within the given number of levels are good. -/
def allWithin (next : α → List α) (good : α → Bool) : (levels : ℕ) → α → Bool
  | 0, _ => true
  | levels + 1, x => (next x).all fun y => good y && allWithin next good levels y

/-- An edge of the graph. -/
def Edge (next : α → List α) (x y : α) : Prop := y ∈ next x

/-- No path from the vertex has more edges than given. -/
def PathsBounded (next : α → List α) (levels : ℕ) (x : α) : Prop :=
  ∀ path, (x :: path).IsChain (Edge next) → path.length ≤ levels

variable {next : α → List α} {good : α → Bool} {levels : ℕ} {x y : α}

theorem PathsBounded.mono (h : PathsBounded next levels x) {levels' : ℕ}
    (hle : levels ≤ levels') :
  PathsBounded next levels' x
  := fun path hpath => (h path hpath).trans hle

theorem PathsBounded.of_edge (h : PathsBounded next (levels + 1) x) (hxy : Edge next x y) :
  PathsBounded next levels y
  := by
  intro path hpath
  have hlong := h (y :: path) (List.isChain_cons_cons.mpr ⟨hxy, hpath⟩)
  rw [List.length_cons] at hlong
  exact Nat.le_of_succ_le_succ hlong

theorem PathsBounded.notEdge (h : PathsBounded next 0 x) :
  ¬ Edge next x y
  := by
  intro hxy
  have hlong := h [y] (List.isChain_pair.mpr hxy)
  exact absurd hlong (Nat.not_succ_le_zero 0)

/-- The vertices reached from a vertex are its successors and those reached from them. -/
theorem transGen_forall_iff {p : α → Prop} :
  (∀ z, Relation.TransGen (Edge next) x z → p z)
    ↔ ∀ y ∈ next x, p y ∧ ∀ z, Relation.TransGen (Edge next) y z → p z
  := by
  constructor
  · intro h y hy
    exact ⟨h y (.single hy), fun z hz => h z (.head hy hz)⟩
  · intro h z hz
    obtain ⟨y, hy, hyz⟩ := Relation.TransGen.head'_iff.mp hz
    obtain ⟨hgood, hrest⟩ := h y hy
    obtain rfl | hyz := Relation.reflTransGen_iff_eq_or_transGen.mp hyz
    · exact hgood
    · exact hrest z hyz

/-- The search meets exactly the vertices that can be reached. -/
theorem allWithin_iff (h : PathsBounded next levels x) :
  allWithin next good levels x ↔ ∀ z, Relation.TransGen (Edge next) x z → good z
  := by
  induction levels generalizing x with
  | zero =>
    rw [transGen_forall_iff, allWithin]
    exact iff_of_true rfl fun y hy => absurd hy h.notEdge
  | succ levels ih =>
    rw [transGen_forall_iff, allWithin, List.all_eq_true]
    refine forall₂_congr fun y hy => ?_
    rw [Bool.and_eq_true, ih (h.of_edge hy)]

/-- When every edge goes down in rank, a path has no more edges than the rank of its start. -/
theorem length_le_of_rank {r : α → α → Prop} (rank : α → ℕ)
    (hrank : ∀ x y, r x y → rank y < rank x) {path : List α} (h : (x :: path).IsChain r) :
  path.length ≤ rank x
  := by
  induction path generalizing x with
  | nil => exact Nat.zero_le _
  | cons y path ih =>
    obtain ⟨hxy, hrest⟩ := List.isChain_cons_cons.mp h
    rw [List.length_cons]
    exact (ih hrest).trans_lt (hrank x y hxy)

/-- Without cycles no path has more edges than there are vertices. -/
theorem PathsBounded.of_acyclic [Finite α]
    (hacyclic : ∀ x, ¬ Relation.TransGen (Edge next) x x) (x : α) :
  PathsBounded next (Nat.card α) x
  := by
  intro path hpath
  have hpairs : (x :: path).Pairwise (Relation.TransGen (Edge next)) :=
    List.isChain_iff_pairwise.mp (hpath.imp fun _ _ hedge => .single hedge)
  have hnodup : (x :: path).Nodup := by
    apply hpairs.imp
    rintro y z hyz rfl
    exact hacyclic y hyz
  have hlength := hnodup.length_le_natCard
  rw [List.length_cons] at hlength
  exact Nat.le_of_succ_le hlength
