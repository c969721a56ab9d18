import Mathlib.Tactic.Common

/-!
# Procedures

Code that works on a state, reports events on its way, and may break off. A triple says that
a procedure started in a state with the precondition comes to its end and leaves the
postcondition behind, provided that all events it reports are good. The rules follow the
way procedures are put together, so that a loop is treated by induction on its rounds.
-/

universe u v

/-- What a run of a procedure leaves behind: the events in their order, the state, and the
result, unless the run broke off. -/
structure Outcome (σ : Type u) (ρ : Type v) (α : Type u) where
  events : List ρ
  state : σ
  result : Option α

/-- A procedure on states `σ` that reports events `ρ` and returns an `α`. -/
def Procedure (σ : Type u) (ρ : Type v) (α : Type u) := σ → Outcome σ ρ α

namespace Procedure

variable {σ : Type u} {ρ : Type v} {α β : Type u}

/-- Runs a procedure and then another one, unless the first one broke off. -/
def andThen (m : Procedure σ ρ α) (f : α → Procedure σ ρ β) : Procedure σ ρ β := fun s =>
  match (m s).result with
  | none => ⟨(m s).events, (m s).state, none⟩
  | some a =>
    let after := f a (m s).state
    ⟨(m s).events ++ after.events, after.state, after.result⟩

instance : Monad (Procedure σ ρ) where
  pure a := fun s => ⟨[], s, some a⟩
  bind := andThen

/-- The state. -/
def get : Procedure σ ρ σ := fun s => ⟨[], s, some s⟩

/-- Replaces the state. -/
def put (s : σ) : Procedure σ ρ PUnit := fun _ => ⟨[], s, some ⟨⟩⟩

/-- Reports an event. -/
def report (event : ρ) : Procedure σ ρ PUnit := fun s => ⟨[event], s, some ⟨⟩⟩

/-- Breaks off. -/
def breakOff : Procedure σ ρ α := fun s => ⟨[], s, none⟩

/-- Runs a procedure under a condition. -/
def when (m : Procedure σ ρ PUnit) (c : Prop) [Decidable c] : Procedure σ ρ PUnit :=
  if c then m else pure ⟨⟩

/-- Started in a state with the precondition, a run without bad events ends with the
postcondition. -/
def Triple (good : ρ → Prop) (P : σ → Prop) (m : Procedure σ ρ α) (Q : α → σ → Prop) : Prop :=
  ∀ s, P s → (∀ event ∈ (m s).events, good event) →
    ∃ a, (m s).result = some a ∧ Q a (m s).state

end Procedure

namespace Procedure.Triple

variable {σ : Type u} {ρ : Type v} {α β : Type u} {good : ρ → Prop} {P P' : σ → Prop}
  {m : Procedure σ ρ α} {f : α → Procedure σ ρ β} {Q Q' : α → σ → Prop} {R : β → σ → Prop}

theorem bind (hm : Triple good P m Q) (hf : ∀ a, Triple good (Q a) (f a) R) :
  Triple good P (m >>= f) R
  := by
  intro s hs hgood
  change ∀ event ∈ (m.andThen f s).events, good event at hgood
  change ∃ b, (m.andThen f s).result = some b ∧ R b (m.andThen f s).state
  rw [andThen] at hgood ⊢
  cases hresult : (m s).result with
  | none =>
    rw [hresult] at hgood
    obtain ⟨a, ha, -⟩ := hm s hs hgood
    rw [hresult] at ha
    cases ha
  | some a =>
    rw [hresult] at hgood
    obtain ⟨a', ha', hQ⟩ := hm s hs fun event h => hgood event (List.mem_append_left _ h)
    obtain rfl : a = a' := Option.some.inj (hresult.symm.trans ha')
    exact hf a _ hQ fun event h => hgood event (List.mem_append_right _ h)

theorem pure {a : α} (h : ∀ s, P s → Q a s) :
  Triple good P (Pure.pure a) Q
  := fun s hs _ => ⟨a, rfl, h s hs⟩

theorem ite {c : Prop} [Decidable c] {m' : Procedure σ ρ α} (hm : c → Triple good P m Q)
    (hm' : ¬ c → Triple good P m' Q) :
  Triple good P (if c then m else m') Q
  := by
  split
  · exact hm ‹_›
  · exact hm' ‹_›

theorem when {c : Prop} [Decidable c] {m : Procedure σ ρ PUnit} {Q : PUnit → σ → Prop}
    (hm : c → Triple good P m Q) (hskip : ¬ c → ∀ s, P s → Q ⟨⟩ s) :
  Triple good P (m.when c) Q
  := ite hm fun hc => .pure (hskip hc)

/-- The rule of consequence. -/
theorem weaken (hm : Triple good P m Q) (hP : ∀ s, P' s → P s) (hQ : ∀ a s, Q a s → Q' a s) :
  Triple good P' m Q'
  := by
  intro s hs hgood
  obtain ⟨a, ha, h⟩ := hm s (hP s hs) hgood
  exact ⟨a, ha, hQ a _ h⟩

theorem before (hm : Triple good P m Q) (hP : ∀ s, P' s → P s) :
  Triple good P' m Q
  := hm.weaken hP fun _ _ h => h

theorem after (hm : Triple good P m Q) (hQ : ∀ a s, Q a s → Q' a s) :
  Triple good P m Q'
  := hm.weaken (fun _ h => h) hQ

/-- What is done next may depend on the state as it is. -/
theorem inspect {f : σ → Procedure σ ρ β} (h : ∀ s, P s → Triple good (· = s) (f s) R) :
  Triple good P (get >>= f) R
  := fun s hs hgood => h s hs s rfl hgood

end Procedure.Triple
