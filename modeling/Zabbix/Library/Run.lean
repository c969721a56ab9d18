/-!
# Runs

Runs of a system that takes one atomic step after another. The steps of all parties of
the system are the steps of one relation, so that a run is one interleaving of them. A
run may be restricted to steps that meet a condition on the state before the step.
-/

universe u v

variable {S : Type u} {A : Type v}

/-- From `start` the steps `actions` lead to the state, all of them meeting the
condition. -/
inductive Run (step : S → A → S → Prop) (meets : S → A → Prop) (start : S) :
    List A → S → Prop where
  | nil : Run step meets start [] start
  | snoc {actions : List A} {s s' : S} {action : A} (run : Run step meets start actions s)
      (hmeets : meets s action) (hstep : step s action s') :
      Run step meets start (actions ++ [action]) s'

/-- The steps of a step function. -/
def StepOf (step : S → A → Option S) (s : S) (action : A) (s' : S) : Prop :=
  step s action = some s'

/-- The state a step function leads to by a list of actions. -/
def execute (step : S → A → Option S) (start : S) : List A → Option S
  | [] => some start
  | action :: actions => (step start action).bind fun s => execute step s actions

/-- Every action of the list meets the condition when its turn comes. -/
def MeetsAll (step : S → A → Option S) (meets : S → A → Prop) : S → List A → Prop
  | _, [] => True
  | s, action :: actions =>
    meets s action ∧ ∀ s' ∈ step s action, MeetsAll step meets s' actions

instance MeetsAll.decidable (step : S → A → Option S) (meets : S → A → Prop)
    [∀ s action, Decidable (meets s action)] :
    ∀ s actions, Decidable (MeetsAll step meets s actions)
  | _, [] => inferInstanceAs (Decidable True)
  | s, action :: actions =>
    have := fun s' => MeetsAll.decidable step meets s' actions
    inferInstanceAs (Decidable
      (meets s action ∧ ∀ s' ∈ step s action, MeetsAll step meets s' actions))

theorem MeetsAll.trivial {step : S → A → Option S} (start : S) (actions : List A) :
  MeetsAll step (fun _ _ => True) start actions
  := by
  induction actions generalizing start with
  | nil => exact True.intro
  | cons action actions ih => exact ⟨True.intro, fun s' _ => ih s'⟩

namespace Run

variable {step : S → A → S → Prop} {meets : S → A → Prop} {start s : S} {actions : List A}

/-- What holds at the start and is preserved by every step holds in every state
reached. -/
theorem invariant {inv : S → Prop} (run : Run step meets start actions s)
    (hstart : inv start)
    (hstep : ∀ s action s', inv s → meets s action → step s action s' → inv s') :
  inv s
  := by
  induction run with
  | nil => exact hstart
  | snoc _ hmeets hstep' ih => exact hstep _ _ _ ih hmeets hstep'

theorem cons {s' : S} {action : A} (hmeets : meets start action)
    (hstep : step start action s') (run : Run step meets s' actions s) :
  Run step meets start (action :: actions) s
  := by
  induction run with
  | nil => exact (snoc nil hmeets hstep : Run step meets start ([] ++ [_]) _)
  | snoc _ hmeets' hstep' ih => exact snoc ih hmeets' hstep'

/-- An executed list of actions is a run. -/
theorem of_execute {step : S → A → Option S} (h : execute step start actions = some s)
    (hmeets : MeetsAll step meets start actions) :
  Run (StepOf step) meets start actions s
  := by
  induction actions generalizing start with
  | nil =>
    obtain rfl : start = s := by simpa [execute] using h
    exact nil
  | cons action actions ih =>
    obtain ⟨s', hstep, hrest⟩ := Option.bind_eq_some_iff.mp h
    exact cons hmeets.1 hstep (ih hrest (hmeets.2 s' hstep))

end Run

/-! ### Loops

A loop of a step function over a list is `List.foldlM`. -/

section Loop

variable {step : S → A → Option S} {actions : List A} {start s : S}

theorem foldlM_eq_execute :
  actions.foldlM step start = execute step start actions
  := by
  induction actions generalizing start with
  | nil => rfl
  | cons action actions ih =>
    rw [List.foldlM_cons]
    unfold execute
    congr 1
    funext s
    apply ih

/-- What every round that meets the condition preserves holds after the loop. -/
theorem foldlM_meets {inv : S → Prop} {meets : S → A → Prop}
    (h : actions.foldlM step start = some s) (hmeets : MeetsAll step meets start actions)
    (hstart : inv start)
    (hstep : ∀ s action s', inv s → meets s action → step s action = some s' → inv s') :
  inv s
  := by
  rw [foldlM_eq_execute] at h
  exact (Run.of_execute h hmeets).invariant hstart hstep

/-- What every round preserves holds after the loop. -/
theorem foldlM_invariant {inv : S → Prop} (h : actions.foldlM step start = some s)
    (hstart : inv start)
    (hstep : ∀ s action s', action ∈ actions → inv s → step s action = some s' → inv s') :
  inv s
  := by
  induction actions generalizing start with
  | nil =>
    obtain rfl : start = s := by simpa using h
    exact hstart
  | cons action actions ih =>
    rw [List.foldlM_cons] at h
    obtain ⟨s₁, hs₁, h⟩ := Option.bind_eq_some_iff.mp h
    apply ih h (hstep start action s₁ List.mem_cons_self hstart hs₁)
    intro s action' s' hmem
    apply hstep s action' s' (List.mem_cons_of_mem _ hmem)

/-- What the round of each action establishes and every round preserves holds of all
actions after the loop. -/
theorem foldlM_forall {inv : S → Prop} (done : A → S → Prop)
    (h : actions.foldlM step start = some s) (hstart : inv start)
    (hinv : ∀ s action s', action ∈ actions → inv s → step s action = some s' → inv s')
    (hdone : ∀ s action s', inv s → step s action = some s' → done action s')
    (hkeep : ∀ action s action' s', inv s → done action s → step s action' = some s' →
      done action s') :
  ∀ action ∈ actions, done action s
  := by
  induction actions generalizing start with
  | nil => simp
  | cons action actions ih =>
    rw [List.foldlM_cons] at h
    obtain ⟨s₁, hs₁, hloop⟩ := Option.bind_eq_some_iff.mp h
    have hinv₁ := hinv start action s₁ List.mem_cons_self hstart hs₁
    have hrest : ∀ s action' s', action' ∈ actions → inv s → step s action' = some s' →
        inv s' :=
      fun s action' s' hmem => hinv s action' s' (List.mem_cons_of_mem _ hmem)
    intro action' hmem
    obtain rfl | hmem := List.mem_cons.mp hmem
    · have hboth : inv s ∧ done action' s := by
        apply foldlM_invariant hloop ⟨hinv₁, hdone start action' s₁ hstart hs₁⟩
        intro s b s' hb ⟨hs, hd⟩ hstep
        exact ⟨hrest s b s' hb hs hstep, hkeep action' s b s' hs hd hstep⟩
      exact hboth.2
    · exact ih hloop hinv₁ hrest action' hmem

end Loop
