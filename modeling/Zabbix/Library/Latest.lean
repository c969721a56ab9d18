import Mathlib.Data.Int.LeastGreatest
import Mathlib.Tactic.Common

/-!
# The latest number with a property

Of the numbers up to a bound the latest one with a property counts, when it is late enough.  Two
properties have the same latest number exactly when no number that only one of them has counts
for it.
-/

namespace Latest

/-- The latest number up to `high` with the property `p` is this one, and it is late enough. -/
structure IsLatest (p enough : ℤ → Prop) (high d : ℤ) : Prop where
  prop : p d
  enough : enough d
  le : d ≤ high
  later : ∀ d', d < d' → d' ≤ high → ¬ p d'

variable {p q enough : ℤ → Prop} {high d d' : ℤ}

theorem IsLatest.unique (h : IsLatest p enough high d) (h' : IsLatest p enough high d') :
  d = d'
  := by
  obtain hlt | heq | hgt := lt_trichotomy d d'
  · exact absurd h'.prop (h.later d' hlt h'.le)
  · exact heq
  · exact absurd h.prop (h'.later d hgt h.le)

/-- A number up to the bound is followed by the latest one with its property. -/
theorem exists_latest (hp : p d) (hle : d ≤ high) :
  ∃ d', p d' ∧ d ≤ d' ∧ d' ≤ high ∧ ∀ d'', d' < d'' → d'' ≤ high → ¬ p d''
  := by
  obtain ⟨d', ⟨hp', hle'⟩, hgreatest⟩ := Int.exists_greatest_of_bdd
    (P := fun d => p d ∧ d ≤ high) ⟨high, fun d h => h.2⟩ ⟨d, hp, hle⟩
  refine ⟨d', hp', hgreatest d ⟨hp, hle⟩, hle', fun d'' hlt hle'' hp'' => ?_⟩
  have := hgreatest d'' ⟨hp'', hle''⟩
  omega

section Enough

variable (henough : ∀ d d', enough d → d ≤ d' → enough d')

include henough

theorem exists_isLatest_iff :
  (∃ d, IsLatest p enough high d) ↔ ∃ d, p d ∧ enough d ∧ d ≤ high
  := by
  constructor
  · rintro ⟨d, h⟩
    exact ⟨d, h.prop, h.enough, h.le⟩
  · rintro ⟨d, hp, hd, hle⟩
    obtain ⟨d', hp', hle', hhigh, hlater⟩ := exists_latest hp hle
    exact ⟨d', hp', henough d d' hd hle', hhigh, hlater⟩

/-- Where every number that only one of the properties has is followed by one with both, the
latest number with the one is that with the other. -/
theorem IsLatest.of_followed
    (h : ∀ d, enough d → d ≤ high → ¬ (p d ↔ q d) → ∃ d', d < d' ∧ d' ≤ high ∧ p d' ∧ q d')
    (hlatest : IsLatest p enough high d) :
  IsLatest q enough high d
  := by
  have hagree : ∀ d', d ≤ d' → d' ≤ high → (p d' ↔ q d') := by
    intro d' hle hhigh
    by_contra hdiffer
    obtain ⟨d'', hlt, hhigh', hp, -⟩ :=
      h d' (henough d d' hlatest.enough hle) hhigh hdiffer
    exact hlatest.later d'' (lt_of_le_of_lt hle hlt) hhigh' hp
  refine ⟨(hagree d le_rfl hlatest.le).mp hlatest.prop, hlatest.enough, hlatest.le, ?_⟩
  intro d' hlt hle hq
  exact hlatest.later d' hlt hle ((hagree d' hlt.le hle).mpr hq)

/-- Two properties have the same latest number exactly when every number that only one of them
has is followed by one with both. -/
theorem isLatest_congr_iff :
  (∀ d, IsLatest p enough high d ↔ IsLatest q enough high d) ↔
    ∀ d, enough d → d ≤ high → ¬ (p d ↔ q d) → ∃ d', d < d' ∧ d' ≤ high ∧ p d' ∧ q d'
  := by
  constructor
  · intro h d hd hle hdiffer
    by_contra hnone
    have hany : p d ∨ q d := by tauto
    obtain ⟨d', hany', hle', hhigh, hlater⟩ :=
      exists_latest (p := fun d => p d ∨ q d) hany hle
    have hd' : enough d' := henough d d' hd hle'
    have hboth : p d' ∧ q d' := by
      obtain hp | hq := hany'
      · have hlatest : IsLatest p enough high d' :=
          ⟨hp, hd', hhigh, fun d'' hlt hle'' hp'' => hlater d'' hlt hle'' (Or.inl hp'')⟩
        exact ⟨hp, ((h d').mp hlatest).prop⟩
      · have hlatest : IsLatest q enough high d' :=
          ⟨hq, hd', hhigh, fun d'' hlt hle'' hq'' => hlater d'' hlt hle'' (Or.inr hq'')⟩
        exact ⟨((h d').mpr hlatest).prop, hq⟩
    obtain hlt | rfl := hle'.lt_or_eq
    · exact hnone ⟨d', hlt, hhigh, hboth⟩
    · exact hdiffer (iff_of_true hboth.1 hboth.2)
  · intro h d
    constructor
    · exact IsLatest.of_followed henough h
    · apply IsLatest.of_followed henough
      intro d hd hle hdiffer
      obtain ⟨d', hlt, hhigh, hp, hq⟩ := h d hd hle fun hiff => hdiffer hiff.symm
      exact ⟨d', hlt, hhigh, hq, hp⟩

end Enough

end Latest
