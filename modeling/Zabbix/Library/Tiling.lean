import Mathlib.Data.List.Basic

/-!
# Tilings

An interval of addresses that is divided into pieces without holes. Every piece is
followed by a gap of a fixed length, which is not counted in its size.
-/

universe u

/-- A piece of an interval. -/
structure Piece (κ : Type u) where
  addr : ℕ
  size : ℕ
  kind : κ
deriving DecidableEq, Repr

/-- The pieces follow one another from `lo` to `hi`. -/
def Tiles {κ : Type u} (gap : ℕ) : (lo hi : ℕ) → List (Piece κ) → Prop
  | lo, hi, [] => lo = hi
  | lo, hi, p :: pieces => p.addr = lo ∧ Tiles gap (lo + p.size + gap) hi pieces

namespace Tiles

variable {κ : Type u} {gap lo hi : ℕ} {pieces before after : List (Piece κ)} {p : Piece κ}

theorem le (h : Tiles gap lo hi pieces) :
  lo ≤ hi
  := by
  induction pieces generalizing lo with
  | nil => exact Nat.le_of_eq h
  | cons p pieces ih =>
    have hle := ih h.2
    omega

/-- A tiling taken apart at a piece. -/
theorem at_iff :
  Tiles gap lo hi (before ++ p :: after) ↔
    Tiles gap lo p.addr before ∧ Tiles gap (p.addr + p.size + gap) hi after
  := by
  induction before generalizing lo with
  | nil =>
    constructor
    · rintro ⟨rfl, h⟩
      exact ⟨rfl, h⟩
    · rintro ⟨rfl, h⟩
      exact ⟨rfl, h⟩
  | cons q before ih => simp only [List.cons_append, Tiles, ih, and_assoc]

/-- The last piece before an address ends there. -/
theorem concat_iff :
  Tiles gap lo hi (before ++ [p]) ↔
    Tiles gap lo p.addr before ∧ p.addr + p.size + gap = hi
  := at_iff

theorem bounds (h : Tiles gap lo hi pieces) (hp : p ∈ pieces) :
  lo ≤ p.addr ∧ p.addr + p.size + gap ≤ hi
  := by
  obtain ⟨before, after, rfl⟩ := List.append_of_mem hp
  obtain ⟨hbefore, hafter⟩ := at_iff.mp h
  exact ⟨hbefore.le, hafter.le⟩

/-- Two pieces do not overlap. -/
theorem apart (h : Tiles gap lo hi pieces) {q : Piece κ} (hp : p ∈ pieces)
    (hq : q ∈ pieces) :
  p = q ∨ p.addr + p.size + gap ≤ q.addr ∨ q.addr + q.size + gap ≤ p.addr
  := by
  obtain ⟨before, after, rfl⟩ := List.append_of_mem hp
  obtain ⟨hbefore, hafter⟩ := at_iff.mp h
  obtain hq | hq := List.mem_append.mp hq
  · exact Or.inr (Or.inr (hbefore.bounds hq).2)
  · obtain rfl | hq := List.mem_cons.mp hq
    · exact Or.inl rfl
    · exact Or.inr (Or.inl (hafter.bounds hq).1)

/-- A piece is known by its address. -/
theorem eq_of_addr_eq (h : Tiles gap lo hi pieces) (hgap : 0 < gap) {q : Piece κ}
    (hp : p ∈ pieces) (hq : q ∈ pieces) (haddr : p.addr = q.addr) :
  p = q
  := by
  obtain heq | hle | hle := h.apart hp hq
  · exact heq
  · omega
  · omega

/-- The pieces other than one at a known place lie before or after it. -/
theorem apart_of_mem (h : Tiles gap lo hi (before ++ p :: after)) {q : Piece κ}
    (hq : q ∈ before ++ after) :
  q.addr + q.size + gap ≤ p.addr ∨ p.addr + p.size + gap ≤ q.addr
  := by
  obtain ⟨hbefore, hafter⟩ := at_iff.mp h
  obtain hq | hq := List.mem_append.mp hq
  · exact Or.inl (hbefore.bounds hq).2
  · exact Or.inr (hafter.bounds hq).1

/-- A piece of another kind at the same place. -/
theorem setKind (h : Tiles gap lo hi (before ++ p :: after)) (kind : κ) :
  Tiles gap lo hi (before ++ ⟨p.addr, p.size, kind⟩ :: after)
  := by
  obtain ⟨hbefore, hafter⟩ := at_iff.mp h
  exact at_iff.mpr ⟨hbefore, hafter⟩

/-- A piece is divided. -/
theorem split (h : Tiles gap lo hi (before ++ p :: after)) {size : ℕ} (kind kind' : κ)
    (hsize : size + gap ≤ p.size) :
  Tiles gap lo hi (before ++ ⟨p.addr, size, kind⟩
    :: ⟨p.addr + size + gap, p.size - size - gap, kind'⟩ :: after)
  := by
  obtain ⟨hbefore, hafter⟩ := at_iff.mp h
  refine at_iff.mpr ⟨hbefore, rfl, ?_⟩
  dsimp only
  rwa [show p.addr + size + gap + (p.size - size - gap) + gap = p.addr + p.size + gap by omega]

/-- Two neighbours become one piece. -/
theorem merge {q : Piece κ} (h : Tiles gap lo hi (before ++ p :: q :: after)) (kind : κ) :
  q.addr = p.addr + p.size + gap ∧
  Tiles gap lo hi (before ++ ⟨p.addr, p.size + gap + q.size, kind⟩ :: after)
  := by
  obtain ⟨hbefore, hq, hafter⟩ := at_iff.mp h
  refine ⟨hq, at_iff.mpr ⟨hbefore, ?_⟩⟩
  dsimp only
  rwa [show p.addr + (p.size + gap + q.size) + gap = p.addr + p.size + gap + q.size + gap
    by omega]

end Tiles
