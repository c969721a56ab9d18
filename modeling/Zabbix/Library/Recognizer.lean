import Mathlib.Logic.Basic

/-!
# Recognizers

A recognizer reads a list from the left, one element at a time, and can get stuck. It accepts
the lists at whose end it is in a final state.
-/

namespace Recognizer

variable {α σ τ : Type} {step : σ → α → Option σ} {final : σ → Prop}

/-- From this state the list is read to a final state. -/
def Accepts (step : σ → α → Option σ) (final : σ → Prop) (s : σ) (text : List α) : Prop :=
  ∃ t, text.foldlM step s = some t ∧ final t

instance [DecidablePred final] (s : σ) (text : List α) : Decidable (Accepts step final s text) :=
  match h : text.foldlM step s with
  | none => isFalse fun ⟨_, ht, _⟩ => by
      rw [h] at ht
      contradiction
  | some t =>
    if hfinal : final t then isTrue ⟨t, h, hfinal⟩
    else isFalse fun ⟨t', ht, hfinal'⟩ => by
      rw [h] at ht
      cases ht
      exact hfinal hfinal'

@[simp]
theorem accepts_nil {s : σ} :
  Accepts step final s [] ↔ final s
  := by
  constructor
  · rintro ⟨t, ht, hfinal⟩
    cases ht
    exact hfinal
  · exact fun h => ⟨s, rfl, h⟩

theorem accepts_cons {s : σ} {c : α} {text : List α} :
  Accepts step final s (c :: text) ↔ ∃ t, step s c = some t ∧ Accepts step final t text
  := by
  simp only [Accepts, List.foldlM_cons, Option.bind_eq_bind, Option.bind_eq_some_iff]
  constructor
  · rintro ⟨u, ⟨t, hstep, hrun⟩, hfinal⟩
    exact ⟨t, hstep, u, hrun, hfinal⟩
  · rintro ⟨t, hstep, u, hrun, hfinal⟩
    exact ⟨u, ⟨t, hstep, hrun⟩, hfinal⟩

theorem accepts_append {s : σ} {text text' : List α} :
  Accepts step final s (text ++ text')
    ↔ ∃ t, text.foldlM step s = some t ∧ Accepts step final t text'
  := by
  simp only [Accepts, List.foldlM_append, Option.bind_eq_bind, Option.bind_eq_some_iff]
  constructor
  · rintro ⟨u, ⟨t, hrun, hrun'⟩, hfinal⟩
    exact ⟨t, hrun, u, hrun', hfinal⟩
  · rintro ⟨t, hrun, u, hrun', hfinal⟩
    exact ⟨u, ⟨t, hrun, hrun'⟩, hfinal⟩

/-- Elements that do not change a state are read in it. -/
theorem foldlM_stays {s : σ} {text : List α} (h : ∀ c ∈ text, step s c = some s) :
  text.foldlM step s = some s
  := by
  induction text with
  | nil => rfl
  | cons c text ih =>
    rw [List.forall_mem_cons] at h
    rw [List.foldlM_cons, h.1]
    exact ih h.2

/-- Elements that never change the state can be left out. -/
theorem accepts_filter {keep : α → Bool} (h : ∀ s c, keep c = false → step s c = some s) {s : σ}
    {text : List α} :
  Accepts step final s (text.filter keep) ↔ Accepts step final s text
  := by
  induction text generalizing s with
  | nil => rfl
  | cons c text ih =>
    cases hkeep : keep c with
    | false =>
      rw [List.filter_cons_of_neg (by simp [hkeep]), ih, accepts_cons, h s c hkeep]
      simp
    | true =>
      rw [List.filter_cons_of_pos hkeep, accepts_cons, accepts_cons]
      simp only [ih]

/-- A recognizer that does at least the steps of another one accepts what that one accepts. -/
theorem Accepts.simulate {step' : τ → α → Option τ} {final' : τ → Prop} (rel : σ → τ → Prop)
    (hstep : ∀ s t c t', rel s t → step' t c = some t' → ∃ s', step s c = some s' ∧ rel s' t')
    (hfinal : ∀ s t, rel s t → final' t → final s) {s : σ} {t : τ} {text : List α} (hrel : rel s t)
    (h : Accepts step' final' t text) :
  Accepts step final s text
  := by
  induction text generalizing s t with
  | nil => exact accepts_nil.mpr (hfinal s t hrel (accepts_nil.mp h))
  | cons c text ih =>
    obtain ⟨t', ht', h'⟩ := accepts_cons.mp h
    obtain ⟨s', hs', hrel'⟩ := hstep s t c t' hrel ht'
    exact accepts_cons.mpr ⟨s', hs', ih hrel' h'⟩

end Recognizer
