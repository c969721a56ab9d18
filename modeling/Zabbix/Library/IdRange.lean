import Mathlib.Data.List.Basic

/-!
# Ranges of ids

Ranges of consecutive ids that a counter hands out one above the other. A stack of ranges
has the newest one first; each lies above those that are older, all lie at or above a
floor, and below the id that the counter hands out next.
-/

/-- The ids from `first` on, `num` of them. -/
structure IdRange where
  first : ℕ
  num : ℕ
deriving DecidableEq, Repr

namespace IdRange

instance : Membership ℕ IdRange := ⟨fun r i => r.first ≤ i ∧ i < r.first + r.num⟩

theorem mem_def {r : IdRange} {i : ℕ} :
  i ∈ r ↔ r.first ≤ i ∧ i < r.first + r.num
  := Iff.rfl

instance (r : IdRange) (i : ℕ) : Decidable (i ∈ r) :=
  inferInstanceAs (Decidable (_ ∧ _))

/-- No id is in both ranges. -/
def Apart (r r' : IdRange) : Prop := ∀ i ∈ r, i ∉ r'

/-- The ranges are handed out one above the other. -/
def Stacked (floor : ℕ) : List IdRange → (next : ℕ) → Prop
  | [], next => floor ≤ next
  | r :: ranges, next => Stacked floor ranges r.first ∧ r.first + r.num ≤ next

variable {floor next next' : ℕ} {ranges : List IdRange}

theorem Stacked.raise (h : Stacked floor ranges next) (hnext : next ≤ next') :
  Stacked floor ranges next'
  := by
  cases ranges with
  | nil => exact Nat.le_trans h hnext
  | cons r ranges => exact ⟨h.1, Nat.le_trans h.2 hnext⟩

/-- The next ids are handed out. -/
theorem Stacked.push (h : Stacked floor ranges next) (num : ℕ) :
  Stacked floor (⟨next, num⟩ :: ranges) (next + num)
  := ⟨h, Nat.le_refl _⟩

theorem Stacked.floor_le (h : Stacked floor ranges next) :
  floor ≤ next
  := by
  induction ranges generalizing next with
  | nil => exact h
  | cons r ranges ih =>
    have hfirst := ih h.1
    have hnext := h.2
    omega

theorem Stacked.bounds (h : Stacked floor ranges next) :
  ∀ r ∈ ranges, floor ≤ r.first ∧ r.first + r.num ≤ next
  := by
  induction ranges generalizing next with
  | nil => simp
  | cons r ranges ih =>
    intro r' hr'
    obtain rfl | hr' := List.mem_cons.mp hr'
    · exact ⟨h.1.floor_le, h.2⟩
    · have hbounds := ih h.1 r' hr'
      have hnext := h.2
      omega

theorem Stacked.apart (h : Stacked floor ranges next) :
  ranges.Pairwise Apart
  := by
  induction ranges generalizing next with
  | nil => exact List.Pairwise.nil
  | cons r ranges ih =>
    apply List.Pairwise.cons
    · intro r' hr' i hi hi'
      have hbounds := h.1.bounds r' hr'
      rw [mem_def] at hi hi'
      omega
    · exact ih h.1

end IdRange
