import Mathlib.Data.List.Nodup
import Mathlib.Tactic.Common
import Zabbix.Escalator.Escalations
import Zabbix.Library.Run

/-!
# Escalations over time

Passes of the escalator follow one another, and actions insert rows for problems and for their
ends in between.  The operations that are executed are recorded as triples of an escalation, a
step and an operation.  No operation should be executed twice in a step of an escalation, nor
any for an escalation that sleeps; a pass should process the recovery of each escalation that
is followed by the end of its problem, and remove both rows; and of the rows of one action,
trigger and item only the newest one should be left.

An escalation that sleeps becomes active when it is recovered, so that its operations can be
executed again, and a step that ends an escalation leaves nothing to recover.  Escalations are
processed as they should be when neither happens (`processes_escalations`).
-/

namespace Escalator

/-- The operations that are executed: the escalation, its step, and the operation. -/
def operationsOf (effects : List Effect) : List (ℕ × ℕ × ℕ) :=
  effects.filterMap fun
    | .operation escalationid escStep operationid => some (escalationid, escStep, operationid)
    | .recovery _ _ _ => none

/-- The recoveries that are processed: the escalation and the event. -/
def recoveriesOf (effects : List Effect) : List (ℕ × ℕ) :=
  effects.filterMap fun
    | .operation _ _ _ => none
    | .recovery escalationid rEventid _ => some (escalationid, rEventid)

/-- Each row with the one that follows it. -/
def withNext {α : Type*} : List α → List (α × Option α)
  | [] => []
  | [a] => [(a, none)]
  | a :: b :: rest => (a, some b) :: withNext (b :: rest)

/-- The row is the beginning of a problem. -/
def Escalation.IsProblem (row : Escalation) : Prop := row.rEventid = 0

instance (row : Escalation) : Decidable row.IsProblem := inferInstanceAs (Decidable (_ = 0))

/-- A problem is followed by its end. -/
def Recovers (row next : Escalation) : Prop :=
  row.IsProblem ∧ ¬ next.IsProblem ∧ SameSource row next

instance (row next : Escalation) : Decidable (Recovers row next) :=
  inferInstanceAs (Decidable (_ ∧ _))

/-- The problems that are followed by their ends. -/
def recoveredPairs (rows : List Escalation) : List (Escalation × Escalation) :=
  (withNext rows).filterMap fun (row, next) =>
    next.bind fun next => if Recovers row next then some (row, next) else none

/-! ### Runs -/

/-- The table, the largest identifier that was ever used, what has been executed, and the
escalations that have reached sleep. -/
structure EscalatorRun where
  table : List Escalation
  lastId : ℕ
  log : List Effect
  asleep : List ℕ
deriving DecidableEq

/-- The escalations that sleep. -/
def sleeping (table : List Escalation) : List ℕ :=
  (table.filter fun row => row.status = .sleep).map (·.escalationid)

/-- What can happen: `process_actions` inserts a row, or there is a pass. -/
inductive EscalatorAction where
  | insert (row : Escalation)
  | pass (env : PassEnv)

namespace EscalatorRun

variable (actions : ℕ → Option Action)

/-- One action. -/
def step (s : EscalatorRun) : EscalatorAction → Option EscalatorRun
  | .insert row => some { s with table := s.table ++ [row], lastId := row.escalationid }
  | .pass env =>
    let (table, effects, _) := processEscalations actions env s.table
    some
      { table := table
        lastId := s.lastId
        log := s.log ++ effects
        asleep := s.asleep ++ sleeping table }

/-- A state to start from: any table, of which nothing is recorded. -/
structure Starts (s : EscalatorRun) : Prop where
  nodup : (s.table.map (·.escalationid)).Nodup
  le_lastId : ∀ row ∈ s.table, row.escalationid ≤ s.lastId
  log_eq : s.log = []
  asleep_eq : s.asleep = sleeping s.table

/-- The rows that are inserted are new, and the actions and events of a pass exist. -/
def Allowed (s : EscalatorRun) : EscalatorAction → Prop
  | .insert row =>
    s.lastId < row.escalationid ∧ row.status = .active ∧ row.escStep = 0 ∧ row.nextcheck = 0
  | .pass env => ∀ row ∈ s.table, (actions row.actionid).isSome = true ∧
      env.eventInfo (if row.IsProblem then row.eventid else row.rEventid) = true

/-! ### The condition -/

/-- The operations of the next step of an escalation. -/
def dueOperations (env : PassEnv) (row : Escalation) (action : Action) :
    List (ℕ × ℕ × ℕ) :=
  let row := { row with escStep := action.nextStep row.escStep }
  operationsOf (((action.selected row.escStep).filter (env.conditions row.eventid)).filterMap
    (operationEffect row))

/-- A step ends an escalation, as it is cancelled, or because there are no more operations and
there is no message when it is recovered. -/
def StepEnds (env : PassEnv) (row next : Escalation) (action : Action) : Prop :=
  env.cancels { row with rEventid := next.rEventid, status := .active } = true ∨
    (action.recoveryMsg ≠ 1 ∧
      (action.escPeriod = 0 ∨
        (action.selected (action.nextStep row.escStep) = [] ∧
          action.hasLater (action.nextStep row.escStep) = false)))

/-- A step that is due when a problem is followed by its end executes nothing for an
escalation that sleeps, and does not end the escalation. -/
def StepsSafely (env : PassEnv) (row next : Escalation) : Prop :=
  Recovers row next → row.nextcheck ≤ env.now → ∀ action ∈ actions row.actionid,
    (row.status = .sleep → dueOperations env row action = []) ∧ ¬ StepEnds env row next action

/-- The condition on an action. -/
def Safe (s : EscalatorRun) : EscalatorAction → Prop
  | .insert _ => True
  | .pass env =>
    (∀ row ∈ s.table, row.IsProblem → row.status = .active ∨ row.status = .sleep) ∧
      ∀ pair ∈ withNext (selectRows s.table), ∀ last ∈ pair.2,
        StepsSafely actions env pair.1 last

instance (env : PassEnv) (row next : Escalation) (action : Action) :
    Decidable (StepEnds env row next action) :=
  inferInstanceAs (Decidable (_ ∨ _ ∧ (_ ∨ _ ∧ _)))

instance (env : PassEnv) (row next : Escalation) :
    Decidable (StepsSafely actions env row next) :=
  inferInstanceAs (Decidable (_ → _ → ∀ action ∈ actions row.actionid, _))

instance (s : EscalatorRun) (action : EscalatorAction) : Decidable (s.Allowed actions action) :=
  match action with
  | .insert _ => inferInstanceAs (Decidable (_ ∧ _ ∧ _ ∧ _))
  | .pass _ => inferInstanceAs (Decidable (∀ row ∈ s.table, _ ∧ _))

instance (s : EscalatorRun) (action : EscalatorAction) : Decidable (s.Safe actions action) :=
  match action with
  | .insert _ => inferInstanceAs (Decidable True)
  | .pass _ =>
    inferInstanceAs (Decidable ((∀ row ∈ s.table, row.IsProblem → _ ∨ _) ∧
      ∀ pair ∈ withNext (selectRows s.table), ∀ last ∈ pair.2, _))

/-! ### What a pass should do -/

/-- What a pass should do. -/
structure Processes (s : EscalatorRun) (env : PassEnv) : Prop where
  /-- No escalation that has reached sleep executes an operation. -/
  asleep : ∀ op ∈ operationsOf (processEscalations actions env s.table).2.1, op.1 ∉ s.asleep
  /-- The recoveries that are processed are those of the problems followed by their ends. -/
  recoveries : recoveriesOf (processEscalations actions env s.table).2.1 =
    (recoveredPairs (selectRows s.table)).map fun (row, next) => (row.escalationid, next.rEventid)
  /-- Both rows are removed. -/
  removed : ∀ pair ∈ recoveredPairs (selectRows s.table),
    ∀ row ∈ (processEscalations actions env s.table).1,
      row.escalationid ≠ pair.1.escalationid ∧ row.escalationid ≠ pair.2.escalationid
  /-- Of each action, trigger and item the newest row is left, if any. -/
  newest : ∀ row ∈ (processEscalations actions env s.table).1, ∀ other ∈ s.table,
    SameSource row other → other.escalationid ≤ row.escalationid

/-- No operation has been executed twice in a step of an escalation, and a pass does what it
should. -/
def ProcessesEscalations (s : EscalatorRun) : Prop :=
  (operationsOf s.log).Nodup ∧
    ∀ env, s.Allowed actions (.pass env) → s.Safe actions (.pass env) → s.Processes actions env

end EscalatorRun

/-! ### Operations and recoveries of effects -/

theorem operationsOf_append (front back : List Effect) :
  operationsOf (front ++ back) = operationsOf front ++ operationsOf back
  := List.filterMap_append

theorem recoveriesOf_append (front back : List Effect) :
  recoveriesOf (front ++ back) = recoveriesOf front ++ recoveriesOf back
  := List.filterMap_append

/-! ### One escalation -/

section

variable {actions : ℕ → Option Action} {env : PassEnv} {escalation : Escalation} {action : Action}

/-- Two states of the same row. -/
structure SameRow (a b : Escalation) : Prop where
  escalationid : a.escalationid = b.escalationid
  source : SameSource a b
  eventid : a.eventid = b.eventid
  rEventid : a.rEventid = b.rEventid

theorem SameRow.refl (a : Escalation) :
  SameRow a a
  := ⟨rfl, ⟨rfl, rfl, rfl⟩, rfl, rfl⟩

/-- There are operations in the next step or in later ones. -/
def GoesOn (escalation : Escalation) (action : Action) : Prop :=
  action.escPeriod ≠ 0 ∧
    (action.selected (action.nextStep escalation.escStep) ≠ [] ∨
      action.hasLater (action.nextStep escalation.escStep) = true)

/-- What `execute_operations` does: the next step is executed, and the escalation stays as it
is when there is more to come. -/
theorem executeOperations_spec (env : PassEnv) (escalation : Escalation) (action : Action) :
  let result := executeOperations env escalation action
  SameRow result.1 escalation ∧ result.1.escStep = action.nextStep escalation.escStep ∧
    (GoesOn escalation action → result.1.status = escalation.status) ∧
    (¬ GoesOn escalation action → result.1.status = action.statusOver) ∧
    operationsOf result.2 = EscalatorRun.dueOperations env escalation action ∧
    recoveriesOf result.2 = []
  := by
  have hrecoveries : ∀ row : Escalation, ∀ operations : List Operation,
      recoveriesOf (operations.filterMap (operationEffect row)) = [] := by
    intro row operations
    rw [recoveriesOf, List.filterMap_filterMap, List.filterMap_eq_nil_iff]
    intro o _
    rw [operationEffect]
    split <;> rfl
  by_cases hgoesOn : GoesOn escalation action
  · obtain ⟨hperiod, hmore⟩ := id hgoesOn
    simp only [executeOperations, if_neg hperiod, if_pos hmore]
    refine ⟨?_, ?_, ?_, fun hnot => absurd hgoesOn hnot, rfl, hrecoveries _ _⟩
    · split <;> exact ⟨rfl, ⟨rfl, rfl, rfl⟩, rfl, rfl⟩
    · split <;> rfl
    · intro _
      split <;> rfl
  · have hover : action.escPeriod = 0 ∨
        ¬ (action.selected (action.nextStep escalation.escStep) ≠ [] ∨
          action.hasLater (action.nextStep escalation.escStep) = true) := by
      rw [GoesOn, not_and_or, not_not] at hgoesOn
      exact hgoesOn
    have hstatus : ∀ (a : Escalation), (if action.escPeriod = 0 then
        { escalation with
          escStep := action.nextStep escalation.escStep, status := action.statusOver }
      else if action.selected (action.nextStep escalation.escStep) ≠ [] ∨
          action.hasLater (action.nextStep escalation.escStep) = true then a
      else { escalation with
          escStep := action.nextStep escalation.escStep, status := action.statusOver }) =
        { escalation with
          escStep := action.nextStep escalation.escStep, status := action.statusOver } := by
      intro a
      split
      · rfl
      · rw [if_neg (hover.resolve_left ‹_›)]
    simp only [executeOperations, hstatus]
    refine ⟨?_, ?_, fun h => absurd h hgoesOn, ?_, rfl, hrecoveries _ _⟩
    · split <;> exact ⟨rfl, ⟨rfl, rfl, rfl⟩, rfl, rfl⟩
    · split <;> rfl
    · intro _
      split <;> rfl

/-- An active escalation executes its next step. -/
theorem executeEscalation_active (haction : actions escalation.actionid = some action)
    (hevent : env.eventInfo escalation.eventid = true) (hactive : escalation.status = .active) :
  let result := executeEscalation actions env escalation
  SameRow result.1 escalation ∧
    operationsOf result.2 = EscalatorRun.dueOperations env escalation action ∧
    recoveriesOf result.2 = [] ∧
    (env.cancels escalation = true → result.1.status = .completed) ∧
    (env.cancels escalation = false →
      result.1.escStep = action.nextStep escalation.escStep ∧
      (GoesOn escalation action → result.1.status = .active) ∧
      (¬ GoesOn escalation action → result.1.status = action.statusOver))
  := by
  obtain ⟨hsame, hstep, hgoesOn, hover, hoperations, hrecoveries⟩ :=
    executeOperations_spec env escalation action
  rw [hactive] at hgoesOn
  simp only [executeEscalation, haction, hactive, hevent, if_true]
  cases hcancels : env.cancels escalation with
  | true =>
    simp only [if_true]
    exact ⟨⟨hsame.1, hsame.2, hsame.3, hsame.4⟩, hoperations, hrecoveries, by simp, by simp⟩
  | false => exact ⟨hsame, hoperations, hrecoveries, nofun, fun _ => ⟨hstep, hgoesOn, hover⟩⟩

/-- The recovery of an escalation is processed once. -/
theorem executeEscalation_recovery (env : PassEnv) (escalation : Escalation)
    (haction : actions escalation.actionid = some action)
    (hevent : env.eventInfo escalation.eventid = true)
    (hevent' : env.eventInfo escalation.rEventid = true)
    (hrecovery : escalation.status = .recovery) :
  let result := executeEscalation actions env escalation
  result.1.status = .completed ∧ operationsOf result.2 = [] ∧
    recoveriesOf result.2 = [(escalation.escalationid, escalation.rEventid)]
  := by
  simp only [executeEscalation, haction, hrecovery, hevent, hevent', Bool.and_self, if_true]
  split <;> exact ⟨rfl, rfl, rfl⟩

/-! ### One row -/

theorem fetch_rEventid (row : Escalation) :
  (fetch row).rEventid = row.rEventid
  := by
  rw [fetch]
  split <;> rfl

theorem fetch_problem {row : Escalation} (h : row.IsProblem) :
  fetch row = row
  := by
  have hproblem : ¬ row.rEventid ≠ 0 := not_not.mpr h
  rw [fetch, if_neg hproblem]

theorem sameSource_fetch (row next : Escalation) :
  SameSource row (fetch next) ↔ SameSource row next
  := by
  rw [fetch]
  split <;> rfl

/-- What the processing of a row does to it. -/
structure RowSpec (actions : ℕ → Option Action) (env : PassEnv) (row : Escalation)
    (next : Option Escalation) (fate : Fate) (effects : List Effect) : Prop where
  recoveries : recoveriesOf effects =
    (next.bind fun next =>
      if Recovers row next then some (row.escalationid, next.rEventid) else none).toList
  operations : operationsOf effects = [] ∨ (row.status = .active ∧
    ∃ action ∈ actions row.actionid,
      operationsOf effects = EscalatorRun.dueOperations env row action)
  left : ∀ row', fate.apply row = some row' →
    SameRow row' row ∧ row.IsProblem ∧ (∀ last ∈ next, ¬ SameSource row last) ∧
      (row.status = .sleep → row'.status = .sleep) ∧
      ((row'.status = row.status ∧ row'.escStep = row.escStep ∧ operationsOf effects = []) ∨
        row'.status = .sleep ∨
        ∃ action ∈ actions row.actionid, action.escPeriod ≠ 0 ∧ row'.escStep = row.escStep + 1)

/-- A row that is deleted without effects. -/
theorem RowSpec.deleted {row : Escalation} {next : Option Escalation} {fate : Fate}
    (hfate : fate = .delete ∨ fate = .deleteLater)
    (hnext : ∀ last ∈ next, ¬ Recovers row last) :
  RowSpec actions env row next fate []
  := by
  refine ⟨?_, Or.inl rfl, fun row' hrow' => ?_⟩
  · cases next with
    | none => rfl
    | some last =>
      rw [Option.bind_some, if_neg (hnext last rfl)]
      rfl
  · obtain rfl | rfl := hfate <;> contradiction

/-- The end of a problem is deleted. -/
theorem rowSpec_end {row : Escalation} (h : ¬ row.IsProblem) (next : Option Escalation) :
  let out := processEscalation actions env (fetch row) (next.map fetch)
  RowSpec actions env row next out.2.1 out.2.2
  := by
  have hstatus : (fetch row).status = .completed := by
    have hend : row.rEventid ≠ 0 := h
    rw [fetch, if_pos hend]
  simp only [processEscalation, if_pos hstatus]
  exact .deleted (Or.inr rfl) fun last _ hrecovers => h hrecovers.1

/-- What is needed of the actions and events to process a row. -/
structure Found (actions : ℕ → Option Action) (env : PassEnv) (row : Escalation)
    (action : Action) : Prop where
  problem : row.IsProblem
  status : row.status = .active ∨ row.status = .sleep
  action : actions row.actionid = some action
  event : env.eventInfo row.eventid = true

/-- A problem that is followed by a newer one is deleted, after a step if one is due. -/
theorem rowSpec_superseded {row last : Escalation} (h : Found actions env row action)
    (hsource : SameSource row last) (hlast : last.IsProblem) :
  let out := processEscalation actions env (fetch row) ((some last).map fetch)
  RowSpec actions env row (some last) out.2.1 out.2.2
  := by
  have hnext : ∀ last' ∈ some last, ¬ Recovers row last' := by
    intro last' hmem hrecovers
    obtain rfl := Option.some.inj hmem
    exact hrecovers.2.1 hlast
  have hzero : last.rEventid = 0 := hlast
  have hrow : row.rEventid = 0 := h.problem
  have hsuperseded : (decide (SameSource row last)) = true := decide_eq_true hsource
  have hstatus : row.status ≠ .completed := by
    obtain hactive | hsleep := h.status
    · simp [hactive]
    · simp [hsleep]
  simp only [fetch_problem h.problem, fetch_problem hlast, processEscalation, if_neg hstatus,
    Option.map_some, Option.any_some, hsuperseded, Option.getD_some, hzero, ne_eq,
    not_true_eq_false, and_false, if_false, true_and]
  by_cases hlater : env.now < row.nextcheck ∨ row.status = .sleep
  · rw [if_pos hlater]
    exact .deleted (Or.inr rfl) hnext
  · obtain ⟨hdue, hawake⟩ := not_or.mp hlater
    have hdue : row.nextcheck ≤ env.now := not_lt.mp hdue
    have hactive : row.status = .active := h.status.resolve_right hawake
    obtain ⟨hsame, hoperations, hrecoveries, -⟩ :=
      executeEscalation_active h.action h.event hactive
    have hzero' := hsame.rEventid.trans hrow
    simp only [if_neg hlater, if_pos (Or.inl hdue : row.nextcheck ≤ env.now ∨ ¬ row.rEventid = 0),
      if_pos hactive, runEscalation, if_pos hdue, hzero', ne_eq, not_true_eq_false, and_false,
      if_false, if_true]
    refine ⟨?_, Or.inr ⟨hactive, action, h.action, hoperations⟩, nofun⟩
    rw [hrecoveries, Option.bind_some, if_neg (hnext last rfl)]
    rfl

/-- An active escalation with the event that ends its problem makes a step if one is due, and
its recovery is processed, unless the step ends it. -/
theorem runEscalation_recovered (escalation : Escalation)
    (haction : actions escalation.actionid = some action)
    (hevent : env.eventInfo escalation.eventid = true)
    (hevent' : env.eventInfo escalation.rEventid = true) (hactive : escalation.status = .active)
    (hend : escalation.rEventid ≠ 0)
    (hstay : escalation.nextcheck ≤ env.now →
      env.cancels escalation = false ∧ (action.recoveryMsg = 1 ∨ GoesOn escalation action))
    (superseded : Bool) :
  let result := runEscalation actions env escalation superseded
  result.1.status = .completed ∧
    operationsOf result.2 =
      (if escalation.nextcheck ≤ env.now then
        EscalatorRun.dueOperations env escalation action else []) ∧
    recoveriesOf result.2 = [(escalation.escalationid, escalation.rEventid)]
  := by
  -- the escalation is not completed by its step
  have hstepped : ∀ stepped : Escalation × List Effect,
      stepped = (if escalation.nextcheck ≤ env.now then executeEscalation actions env escalation
        else (escalation, [])) →
      SameRow stepped.1 escalation ∧ stepped.1.status ≠ .completed ∧
        operationsOf stepped.2 = (if escalation.nextcheck ≤ env.now then
          EscalatorRun.dueOperations env escalation action else []) ∧
        recoveriesOf stepped.2 = [] := by
    rintro stepped rfl
    by_cases hdue : escalation.nextcheck ≤ env.now
    · obtain ⟨hcancels, hmore⟩ := hstay hdue
      obtain ⟨hsame, hoperations, hrecoveries, -, hstatus⟩ :=
        executeEscalation_active haction hevent hactive
      obtain ⟨-, hgoesOn, hover⟩ := hstatus hcancels
      simp only [if_pos hdue]
      refine ⟨hsame, ?_, hoperations, hrecoveries⟩
      by_cases hgo : GoesOn escalation action
      · rw [hgoesOn hgo]
        nofun
      · rw [hover hgo, Action.statusOver, if_pos (hmore.resolve_right hgo)]
        nofun
    · simp only [if_neg hdue]
      refine ⟨SameRow.refl _, ?_, rfl, rfl⟩
      rw [hactive]
      nofun
  obtain ⟨hsame, hstatus, hoperations, hrecoveries⟩ := hstepped _ rfl
  rw [runEscalation]
  generalize (if escalation.nextcheck ≤ env.now then executeEscalation actions env escalation
    else (escalation, [])) = stepped at hsame hstatus hoperations hrecoveries
  have haction' : actions stepped.1.actionid = some action := by
    rw [hsame.source.1]
    exact haction
  obtain ⟨hcompleted, hoperations', hrecoveries'⟩ :=
    executeEscalation_recovery env { stepped.1 with status := .recovery } haction'
      (by rw [hsame.eventid]; exact hevent) (by rw [hsame.rEventid]; exact hevent') rfl
  have hboth : stepped.1.status ≠ .completed ∧ stepped.1.rEventid ≠ 0 :=
    ⟨hstatus, by rw [hsame.rEventid]; exact hend⟩
  simp only [if_pos hboth]
  refine ⟨hcompleted, ?_, ?_⟩
  · rw [operationsOf_append, hoperations, hoperations', List.append_nil]
  · rw [recoveriesOf_append, hrecoveries, hrecoveries', List.nil_append, hsame.escalationid,
      hsame.rEventid]

/-- A problem that is followed by its end is recovered and deleted. -/
theorem rowSpec_recovered {row last : Escalation} (h : Found actions env row action)
    (hrecovers : Recovers row last) (hevent : env.eventInfo last.rEventid = true)
    (hsafe : EscalatorRun.StepsSafely actions env row last) :
  let out := processEscalation actions env (fetch row) ((some last).map fetch)
  RowSpec actions env row (some last) out.2.1 out.2.2
  := by
  have hnonzero : last.rEventid ≠ 0 := hrecovers.2.1
  have hsuperseded : (decide (SameSource row (fetch last))) = true :=
    decide_eq_true ((sameSource_fetch row last).mpr hrecovers.2.2)
  have hstatus : row.status ≠ .completed := by
    obtain hactive | hsleep := h.status
    · simp [hactive]
    · simp [hsleep]
  have hstay : row.nextcheck ≤ env.now →
      env.cancels { row with rEventid := last.rEventid, status := .active } = false ∧
        (action.recoveryMsg = 1 ∨ GoesOn row action) := by
    intro hdue
    have hnot := (hsafe hrecovers hdue action h.action).2
    rw [EscalatorRun.StepEnds, not_or] at hnot
    refine ⟨by simpa using hnot.1, or_iff_not_imp_left.mpr fun hmsg => ?_⟩
    have hmore := not_and.mp hnot.2 hmsg
    rw [not_or, not_and_or] at hmore
    exact ⟨hmore.1, by simpa using hmore.2⟩
  obtain ⟨hcompleted, hoperations, hrecoveries⟩ := runEscalation_recovered
    { row with rEventid := last.rEventid, status := .active } h.action h.event hevent rfl hnonzero
    hstay true
  simp only [fetch_problem h.problem, processEscalation, if_neg hstatus, Option.map_some,
    Option.any_some, hsuperseded, Option.getD_some, fetch_rEventid, hnonzero, ne_eq,
    not_false_eq_true, and_self, if_true, true_and, false_and, if_false, or_true]
  simp only [hcompleted, not_true_eq_false, if_false]
  refine ⟨?_, ?_, nofun⟩
  · rw [hrecoveries, Option.bind_some, if_pos hrecovers]
    rfl
  · rw [hoperations]
    by_cases hdue : row.nextcheck ≤ env.now
    · simp only [if_pos hdue]
      obtain hactive | hsleep := h.status
      · exact Or.inr ⟨hactive, action, h.action, rfl⟩
      · exact Or.inl ((hsafe hrecovers hdue action h.action).1 hsleep)
    · simp only [if_neg hdue]
      exact Or.inl trivial

/-- A problem that nothing follows makes a step if one is due, or is looked after while it
sleeps. -/
theorem rowSpec_alone {row : Escalation} {next : Option Escalation}
    (h : Found actions env row action) (hnext : ∀ last ∈ next, ¬ SameSource row last) :
  let out := processEscalation actions env (fetch row) (next.map fetch)
  RowSpec actions env row next out.2.1 out.2.2
  := by
  have hrow : row.rEventid = 0 := h.problem
  have hsuperseded : ((next.map fetch).any fun last => decide (SameSource row last)) = false := by
    cases next with
    | none => rfl
    | some last =>
      rw [Option.map_some, Option.any_some, decide_eq_false_iff_not, sameSource_fetch]
      exact hnext last rfl
  have hnone : (next.bind fun next =>
      if Recovers row next then some (row.escalationid, next.rEventid) else none).toList = [] := by
    cases next with
    | none => rfl
    | some last =>
      rw [Option.bind_some, if_neg fun hrecovers => hnext last rfl hrecovers.2.2]
      rfl
  have hstatus : row.status ≠ .completed := by
    obtain hactive | hsleep := h.status
    · simp [hactive]
    · simp [hsleep]
  simp only [fetch_problem h.problem, processEscalation, if_neg hstatus, hsuperseded, hrow,
    Bool.false_eq_true, false_and, if_false, ne_eq, not_true_eq_false, or_false]
  by_cases hdue : row.nextcheck ≤ env.now
  · rw [if_pos hdue]
    obtain hactive | hsleep := h.status
    · obtain ⟨hsame, hoperations, hrecoveries, hcancelled, hgoes⟩ :=
        executeEscalation_active h.action h.event hactive
      have hzero := hsame.rEventid.trans hrow
      simp only [if_pos hactive, runEscalation, if_pos hdue, hzero, ne_eq, not_true_eq_false,
        and_false, if_false, Bool.false_eq_true]
      refine ⟨by rw [hrecoveries, hnone], Or.inr ⟨hactive, action, h.action, hoperations⟩, ?_⟩
      intro row' hrow'
      have hawake : row.status ≠ .sleep := by simp [hactive]
      by_cases hgo : GoesOn row action ∧ env.cancels row = false
      · have hstill := (hgoes hgo.2).2.1 hgo.1
        have hstep := (hgoes hgo.2).1
        simp only [hstill, reduceCtorEq, not_false_eq_true, if_true] at hrow'
        obtain rfl := Option.some.inj hrow'
        refine ⟨⟨rfl, ⟨rfl, rfl, rfl⟩, rfl, rfl⟩, h.problem, hnext, fun hsleep =>
          absurd hsleep hawake, Or.inr (Or.inr ⟨action, h.action, hgo.1.1, ?_⟩)⟩
        rw [Action.nextStep, if_neg hgo.1.1] at hstep
        exact hstep
      · have hover : (executeEscalation actions env row).1.status = .sleep ∨
            (executeEscalation actions env row).1.status = .completed := by
          cases hcancels : env.cancels row with
          | true => exact Or.inr (hcancelled hcancels)
          | false =>
            rw [(hgoes hcancels).2.2 fun hgo' => hgo ⟨hgo', hcancels⟩, Action.statusOver]
            split
            · exact Or.inl rfl
            · exact Or.inr rfl
        obtain hsleep | hcompleted := hover
        · simp only [hsleep, reduceCtorEq, not_false_eq_true, if_true, if_false] at hrow'
          obtain rfl := Option.some.inj hrow'
          exact ⟨⟨rfl, ⟨rfl, rfl, rfl⟩, rfl, rfl⟩, h.problem, hnext, fun _ => rfl, Or.inr (Or.inl rfl)⟩
        · simp only [hcompleted, not_true_eq_false, if_false] at hrow'
          contradiction
    · have hinactive : row.status ≠ .active := by simp [hsleep]
      rw [if_neg hinactive]
      split
      · exact .deleted (Or.inl rfl) fun last hlast hrecovers => hnext last hlast hrecovers.2.2
      · refine ⟨by rw [hnone]; rfl, Or.inl rfl, ?_⟩
        intro row' hrow'
        obtain rfl := Option.some.inj hrow'
        exact ⟨⟨rfl, ⟨rfl, rfl, rfl⟩, rfl, rfl⟩, h.problem, hnext, id, Or.inl ⟨rfl, rfl, rfl⟩⟩
  · rw [if_neg hdue]
    refine ⟨by rw [hnone]; rfl, Or.inl rfl, ?_⟩
    intro row' hrow'
    obtain rfl := Option.some.inj hrow'
    exact ⟨SameRow.refl _, h.problem, hnext, id, Or.inl ⟨rfl, rfl, rfl⟩⟩

/-- What the processing of a row does to it. -/
theorem rowSpec {row : Escalation} {next : Option Escalation}
    (haction : actions row.actionid = some action)
    (hevent : row.IsProblem → env.eventInfo row.eventid = true)
    (hstatus : row.IsProblem → row.status = .active ∨ row.status = .sleep)
    (hnext : ∀ last ∈ next, ¬ last.IsProblem → env.eventInfo last.rEventid = true)
    (hsafe : ∀ last ∈ next, EscalatorRun.StepsSafely actions env row last) :
  let out := processEscalation actions env (fetch row) (next.map fetch)
  RowSpec actions env row next out.2.1 out.2.2
  := by
  by_cases hproblem : row.IsProblem
  · have hfound : Found actions env row action :=
      ⟨hproblem, hstatus hproblem, haction, hevent hproblem⟩
    by_cases hsource : ∃ last ∈ next, SameSource row last
    · obtain ⟨last, rfl, hsource⟩ := hsource
      by_cases hlast : last.IsProblem
      · exact rowSpec_superseded hfound hsource hlast
      · exact rowSpec_recovered hfound ⟨hproblem, hlast, hsource⟩ (hnext last rfl hlast)
          (hsafe last rfl)
    · exact rowSpec_alone hfound fun last hlast hsame => hsource ⟨last, hlast, hsame⟩
  · exact rowSpec_end hproblem next

/-! ### The rows of a pass -/

theorem mem_withNext {rows : List Escalation} {row : Escalation} (h : row ∈ rows) :
  ∃ next, (row, next) ∈ withNext rows
  := by
  induction rows with
  | nil => contradiction
  | cons first rest ih =>
    cases rest with
    | nil =>
      obtain rfl := List.mem_singleton.mp h
      exact ⟨none, List.mem_cons_self⟩
    | cons second rest =>
      obtain rfl | h := List.mem_cons.mp h
      · exact ⟨some second, List.mem_cons_self⟩
      · obtain ⟨next, hnext⟩ := ih h
        exact ⟨next, List.mem_cons_of_mem _ hnext⟩

theorem map_withNext (rows : List Escalation) :
  (withNext rows).map Prod.fst = rows
  := by
  induction rows with
  | nil => rfl
  | cons first rest ih =>
    cases rest with
    | nil => rfl
    | cons second rest => rw [withNext, List.map_cons, ih]

theorem withNext_map {rows : List Escalation} (f : Escalation → Escalation) :
  withNext (rows.map f) = (withNext rows).map fun (row, next) => (f row, next.map f)
  := by
  induction rows with
  | nil => rfl
  | cons first rest ih =>
    cases rest with
    | nil => rfl
    | cons second rest =>
      rw [List.map_cons] at ih
      rw [List.map_cons, List.map_cons, withNext, ih, withNext, List.map_cons]
      rfl

/-- The loop goes over the rows with those that follow them. -/
theorem escalationLoop_eq (rows : List Escalation) (st : PassState) :
  escalationLoop actions env rows st =
    (withNext rows).foldl (fun st pair => st.process actions env pair.1 pair.2) st
  := by
  induction rows generalizing st with
  | nil => rfl
  | cons first rest ih =>
    cases rest with
    | nil => rfl
    | cons second rest => rw [escalationLoop, ih, withNext, List.foldl_cons]

/-- The rows that are not to be deleted at the end. -/
def PassState.live (st : PassState) : List Escalation :=
  st.table.filter fun row => row.escalationid ∉ st.escalationids

theorem Fate.apply_escalationid {fate : Fate} {row row' : Escalation}
    (h : fate.apply row = some row') :
  row'.escalationid = row.escalationid
  := by
  cases fate with
  | keep =>
    obtain rfl := Option.some.inj h
    rfl
  | update status escStep nextcheck =>
    obtain rfl := Option.some.inj h
    rfl
  | delete => contradiction
  | deleteLater => contradiction

/-- Writing a row keeps apart the rows that are deleted in the end. -/
theorem writeRow_filter (table : List Escalation) (escalationid : ℕ) (fate : Fate)
    (escalationids : List ℕ) :
  (writeRow table escalationid fate).filter (·.escalationid ∉ escalationids) =
    writeRow (table.filter (·.escalationid ∉ escalationids)) escalationid fate
  := by
  induction table with
  | nil => rfl
  | cons row rest ih =>
    rw [writeRow] at ih
    rw [writeRow, List.filterMap_cons, List.filter_cons]
    cases hfate : (if row.escalationid = escalationid then fate.apply row else some row) with
    | none =>
      rw [ih]
      split
      · rw [writeRow, writeRow, List.filterMap_cons, hfate]
      · rfl
    | some row' =>
      have hid : row'.escalationid = row.escalationid := by
        split at hfate
        · exact Fate.apply_escalationid hfate
        · rw [Option.some.inj hfate]
      rw [List.filter_cons, hid, ih]
      split
      · rw [writeRow, writeRow, List.filterMap_cons, hfate]
      · rfl

/-- Deleting a row now is deleting it in the end. -/
theorem writeRow_deleteLater (table : List Escalation) (escalationid : ℕ)
    (escalationids : List ℕ) :
  table.filter (·.escalationid ∉ escalationids ++ [escalationid]) =
    writeRow (table.filter (·.escalationid ∉ escalationids)) escalationid .deleteLater
  := by
  induction table with
  | nil => rfl
  | cons row rest ih =>
    rw [List.filter_cons, List.filter_cons, ih]
    by_cases hmem : row.escalationid ∈ escalationids
    · simp [hmem]
    · by_cases hid : row.escalationid = escalationid
      · rw [hid] at hmem
        simp [hid, hmem, writeRow, Fate.apply]
      · simp [hmem, hid, writeRow]

/-- A round leads to the fate of the row. -/
theorem PassState.process_live (st : PassState) (escalation : Escalation)
    (last : Option Escalation) :
  (st.process actions env escalation last).live =
    writeRow st.live escalation.escalationid (processEscalation actions env escalation last).2.1
  := by
  rw [PassState.process]
  by_cases hlater : (processEscalation actions env escalation last).2.1 = .deleteLater
  · simp only [if_pos hlater, PassState.live]
    rw [hlater, writeRow_deleteLater]
  · simp only [if_neg hlater, PassState.live]
    apply writeRow_filter

theorem PassState.process_effects (st : PassState) (escalation : Escalation)
    (last : Option Escalation) :
  (st.process actions env escalation last).effects =
    st.effects ++ (processEscalation actions env escalation last).2.2
  := by
  rw [PassState.process]
  simp only
  split <;> rfl

theorem mem_writeRow {table : List Escalation} {escalationid : ℕ} {fate : Fate}
    {row' : Escalation} :
  row' ∈ writeRow table escalationid fate ↔
    (row' ∈ table ∧ row'.escalationid ≠ escalationid) ∨
      ∃ row ∈ table, row.escalationid = escalationid ∧ fate.apply row = some row'
  := by
  rw [writeRow, List.mem_filterMap]
  constructor
  · rintro ⟨row, hmem, hfate⟩
    by_cases hid : row.escalationid = escalationid
    · rw [if_pos hid] at hfate
      exact Or.inr ⟨row, hmem, hid, hfate⟩
    · rw [if_neg hid] at hfate
      obtain rfl := Option.some.inj hfate
      exact Or.inl ⟨hmem, hid⟩
  · rintro (⟨hmem, hid⟩ | ⟨row, hmem, hid, hfate⟩)
    · exact ⟨row', hmem, if_neg hid⟩
    · exact ⟨row, hmem, by rw [if_pos hid, hfate]⟩

/-- What a row becomes in a pass. -/
def fateOf (actions : ℕ → Option Action) (env : PassEnv) (pair : Escalation × Option Escalation) :
    Fate :=
  (processEscalation actions env (fetch pair.1) (pair.2.map fetch)).2.1

/-- What is executed for a row in a pass. -/
def effectsOf (actions : ℕ → Option Action) (env : PassEnv)
    (pair : Escalation × Option Escalation) : List Effect :=
  (processEscalation actions env (fetch pair.1) (pair.2.map fetch)).2.2

theorem fetch_escalationid (row : Escalation) :
  (fetch row).escalationid = row.escalationid
  := by
  rw [fetch]
  split <;> rfl

/-- The loop over rows with those that follow them. -/
theorem foldl_process {pairs : List (Escalation × Option Escalation)} {st : PassState}
    (hnodup : (pairs.map (·.1.escalationid)).Nodup) :
  let result := pairs.foldl (fun st pair =>
    st.process actions env (fetch pair.1) (pair.2.map fetch)) st
  result.effects = st.effects ++ pairs.flatMap (effectsOf actions env) ∧
    ∀ row' ∈ result.live,
      (row' ∈ st.live ∧ ∀ pair ∈ pairs, row'.escalationid ≠ pair.1.escalationid) ∨
        ∃ pair ∈ pairs, ∃ row ∈ st.live, row.escalationid = pair.1.escalationid ∧
          (fateOf actions env pair).apply row = some row'
  := by
  induction pairs generalizing st with
  | nil => exact ⟨(List.append_nil _).symm, fun row' hmem => Or.inl ⟨hmem, by simp⟩⟩
  | cons pair pairs ih =>
    rw [List.map_cons, List.nodup_cons] at hnodup
    obtain ⟨heffects, hlive⟩ := @ih (st.process actions env (fetch pair.1) (pair.2.map fetch))
      hnodup.2
    refine ⟨?_, fun row' hmem => ?_⟩
    · rw [List.foldl_cons, heffects, PassState.process_effects, List.append_assoc,
        List.flatMap_cons]
      rfl
    · rw [List.foldl_cons] at hmem
      simp only [PassState.process_live, fetch_escalationid, mem_writeRow] at hlive
      obtain ⟨⟨hmem, hne⟩ | ⟨row, hmem, hid, hfate⟩, hothers⟩ |
        ⟨pair', hpair', row, ⟨hmem, hne⟩ | ⟨row₀, hmem, hid₀, hfate₀⟩, hid, hfate⟩ := hlive row' hmem
      · exact Or.inl ⟨hmem, List.forall_mem_cons.mpr ⟨hne, hothers⟩⟩
      · exact Or.inr ⟨pair, List.mem_cons_self, row, hmem, hid, hfate⟩
      · exact Or.inr ⟨pair', List.mem_cons_of_mem _ hpair', row, hmem, hid, hfate⟩
      · -- a row is processed once
        have hsame : row.escalationid = row₀.escalationid := Fate.apply_escalationid hfate₀
        refine absurd ?_ hnodup.1
        rw [← hid₀, ← hsame, hid]
        exact List.mem_map_of_mem hpair'

/-! ### A pass -/

theorem selectRows_perm (table : List Escalation) :
  (selectRows table).Perm table
  := List.perm_insertionSort _ _

theorem mem_selectRows {table : List Escalation} {row : Escalation} :
  row ∈ selectRows table ↔ row ∈ table
  := (selectRows_perm table).mem_iff

theorem pairs_nodup {table : List Escalation} (hnodup : (table.map (·.escalationid)).Nodup) :
  ((withNext (selectRows table)).map (·.1.escalationid)).Nodup
  := by
  have hmap : (withNext (selectRows table)).map (·.1.escalationid)
      = (selectRows table).map (·.escalationid) := by
    rw [← map_withNext (selectRows table), List.map_map, map_withNext]
    rfl
  rw [hmap, ((selectRows_perm table).map _).nodup_iff]
  exact hnodup

/-- The effects of a pass are those of the rows, and a row that is left is what a row of the
table has become. -/
theorem processEscalations_spec {table : List Escalation}
    (hnodup : (table.map (·.escalationid)).Nodup) :
  (processEscalations actions env table).2.1 =
      (withNext (selectRows table)).flatMap (effectsOf actions env) ∧
    ∀ row' ∈ (processEscalations actions env table).1, ∃ pair ∈ withNext (selectRows table),
      (fateOf actions env pair).apply pair.1 = some row'
  := by
  have hpairs := pairs_nodup hnodup
  have hloop : ∀ st : PassState, escalationLoop actions env ((selectRows table).map fetch) st =
      (withNext (selectRows table)).foldl (fun st pair =>
        st.process actions env (fetch pair.1) (pair.2.map fetch)) st := by
    intro st
    rw [escalationLoop_eq, withNext_map, List.foldl_map]
  rw [processEscalations]
  simp only [hloop]
  refine ⟨(foldl_process hpairs).1, fun row' hrow' => ?_⟩
  obtain ⟨hmem, hnone⟩ | ⟨pair, hpair, row, hmem, hid, hfate⟩ :=
    (foldl_process hpairs).2 row' hrow'
  · -- every row of the table is processed
    have hmem : row' ∈ table := (List.mem_filter.mp hmem).1
    obtain ⟨next, hpair⟩ := mem_withNext (mem_selectRows.mpr hmem)
    exact absurd rfl (hnone _ hpair)
  · have hmem : row ∈ table := (List.mem_filter.mp hmem).1
    have hfirst : pair.1 ∈ table := by
      rw [← mem_selectRows, ← map_withNext (selectRows table)]
      exact List.mem_map_of_mem hpair
    obtain rfl := List.inj_on_of_nodup_map hnodup hmem hfirst hid
    exact ⟨pair, hpair, hfate⟩

theorem writeRow_ids (table : List Escalation) (escalationid : ℕ) (fate : Fate) :
  ((writeRow table escalationid fate).map (·.escalationid)).Sublist (table.map (·.escalationid))
  := by
  induction table with
  | nil => exact List.Sublist.refl _
  | cons row rest ih =>
    rw [writeRow, List.filterMap_cons, List.map_cons]
    split
    · exact ih.cons _
    · case h_2 row' hfate =>
      have hid : row'.escalationid = row.escalationid := by
        split at hfate
        · exact Fate.apply_escalationid hfate
        · rw [Option.some.inj hfate]
      rw [List.map_cons, hid]
      exact ih.cons_cons _

theorem escalationLoop_ids (rows : List Escalation) (st : PassState) :
  ((escalationLoop actions env rows st).table.map (·.escalationid)).Sublist
    (st.table.map (·.escalationid))
  := by
  have hprocess : ∀ (st : PassState) escalation last,
      ((st.process actions env escalation last).table.map (·.escalationid)).Sublist
        (st.table.map (·.escalationid)) := by
    intro st escalation last
    rw [PassState.process]
    simp only
    split
    · exact List.Sublist.refl _
    · apply writeRow_ids
  induction rows generalizing st with
  | nil => exact List.Sublist.refl _
  | cons first rest ih =>
    cases rest with
    | nil => apply hprocess
    | cons second rest => exact (ih _).trans (hprocess st first (some second))

/-- A pass leaves rows of the table only. -/
theorem processEscalations_ids (table : List Escalation) :
  ((processEscalations actions env table).1.map (·.escalationid)).Sublist
    (table.map (·.escalationid))
  := (List.filter_sublist.map _).trans (escalationLoop_ids _ _)

theorem NotAfter.refl (a : Escalation) :
  NotAfter a a
  := by
  unfold NotAfter
  omega

theorem selectRows_sorted (table : List Escalation) :
  (selectRows table).Pairwise NotAfter
  := by
  have : Std.Total NotAfter := ⟨fun a b => by unfold NotAfter; omega⟩
  have : IsTrans Escalation NotAfter := ⟨fun a b c => by unfold NotAfter; omega⟩
  exact List.pairwise_insertionSort NotAfter table

/-- A row that is followed by an older one, if at all, is followed by its neighbour first. -/
theorem exists_between {rows : List Escalation}
    (hsorted : rows.Pairwise NotAfter) {row other : Escalation}
    {next : Option Escalation} (hpair : (row, next) ∈ withNext rows) (hother : other ∈ rows) :
  NotAfter other row ∨ ∃ last ∈ next, NotAfter row last ∧ NotAfter last other
  := by
  induction rows with
  | nil => contradiction
  | cons first rest ih =>
    obtain ⟨hfirst, hrest⟩ := List.pairwise_cons.mp hsorted
    cases rest with
    | nil =>
      obtain rfl := List.mem_singleton.mp hother
      obtain ⟨rfl, -⟩ := Prod.mk.inj (List.mem_singleton.mp hpair)
      exact Or.inl (NotAfter.refl _)
    | cons second rest =>
      obtain hpair | hpair := List.mem_cons.mp hpair
      · obtain ⟨rfl, rfl⟩ := Prod.mk.inj hpair
        obtain rfl | hother := List.mem_cons.mp hother
        · exact Or.inl (NotAfter.refl _)
        · refine Or.inr ⟨second, rfl, hfirst second List.mem_cons_self, ?_⟩
          obtain rfl | hother := List.mem_cons.mp hother
          · exact NotAfter.refl _
          · exact (List.pairwise_cons.mp hrest).1 other hother
      · have hrow : row ∈ second :: rest := by
          rw [← map_withNext (second :: rest)]
          exact List.mem_map_of_mem hpair
        obtain rfl | hother := List.mem_cons.mp hother
        · exact Or.inl (hfirst row hrow)
        · exact ih hrest hpair hother

theorem mem_of_withNext {rows : List Escalation} {row : Escalation} {next : Option Escalation}
    (h : (row, next) ∈ withNext rows) :
  row ∈ rows ∧ ∀ last ∈ next, last ∈ rows
  := by
  induction rows with
  | nil => contradiction
  | cons first rest ih =>
    cases rest with
    | nil =>
      obtain ⟨rfl, rfl⟩ := Prod.mk.inj (List.mem_singleton.mp h)
      exact ⟨List.mem_cons_self, nofun⟩
    | cons second rest =>
      obtain h | h := List.mem_cons.mp h
      · obtain ⟨rfl, rfl⟩ := Prod.mk.inj h
        refine ⟨List.mem_cons_self, fun last hlast => ?_⟩
        obtain rfl := Option.some.inj hlast
        exact List.mem_cons_of_mem _ List.mem_cons_self
      · obtain ⟨hrow, hlast⟩ := ih h
        exact ⟨List.mem_cons_of_mem _ hrow, fun last hmem => List.mem_cons_of_mem _ (hlast last hmem)⟩

namespace EscalatorRun

variable {s s' : EscalatorRun}

/-- The rows of a pass are processed as they should be. -/
theorem rowSpec_of_pass (hallowed : s.Allowed actions (.pass env))
    (hsafe : s.Safe actions (.pass env)) {pair : Escalation × Option Escalation}
    (hpair : pair ∈ withNext (selectRows s.table)) :
  RowSpec actions env pair.1 pair.2 (fateOf actions env pair) (effectsOf actions env pair)
  := by
  obtain ⟨row, next⟩ := pair
  obtain ⟨hrow, hnext⟩ := mem_of_withNext hpair
  have hrow := mem_selectRows.mp hrow
  obtain ⟨hsome, hevent⟩ := hallowed row hrow
  obtain ⟨action, haction⟩ := Option.isSome_iff_exists.mp hsome
  apply rowSpec haction
  · intro hproblem
    rw [if_pos hproblem] at hevent
    exact hevent
  · exact hsafe.1 row hrow
  · intro last hlast hend
    have hevent' := (hallowed last (mem_selectRows.mp (hnext last hlast))).2
    rw [if_neg hend] at hevent'
    exact hevent'
  · intro last hlast
    obtain rfl : next = some last := hlast
    exact hsafe.2 _ hpair last rfl

/-- The operations of a step are operations of the action. -/
theorem dueOperations_sublist (row : Escalation) (action : Action) :
  (dueOperations env row action).Sublist (action.operations.map fun o =>
    (row.escalationid, action.nextStep row.escStep, o.operationid))
  := by
  have heffects : ∀ (row : Escalation) (operations : List Operation),
      (operationsOf (operations.filterMap (operationEffect row))).Sublist
        (operations.map fun o => (row.escalationid, row.escStep, o.operationid)) := by
    intro row operations
    induction operations with
    | nil => exact List.Sublist.refl _
    | cons o rest ih =>
      rw [List.filterMap_cons, List.map_cons, operationEffect]
      by_cases hsilent : o.operationtype = .message ∧ o.hasMessage = false
      · rw [if_pos hsilent]
        exact ih.cons _
      · rw [if_neg hsilent]
        exact ih.cons_cons _
  exact (heffects _ _).trans ((List.filter_sublist.trans List.filter_sublist).map _)

theorem mem_dueOperations {row : Escalation} {action : Action} {op : ℕ × ℕ × ℕ}
    (h : op ∈ dueOperations env row action) :
  op.1 = row.escalationid ∧ op.2.1 = action.nextStep row.escStep
  := by
  obtain ⟨o, -, rfl⟩ := List.mem_map.mp ((dueOperations_sublist row action).subset h)
  exact ⟨rfl, rfl⟩

theorem dueOperations_nodup (row : Escalation) {action : Action}
    (h : (action.operations.map (·.operationid)).Nodup) :
  (dueOperations env row action).Nodup
  := by
  apply (dueOperations_sublist row action).nodup
  have hmap : (action.operations.map fun o =>
      (row.escalationid, action.nextStep row.escStep, o.operationid)) =
      (action.operations.map (·.operationid)).map fun operationid =>
        (row.escalationid, action.nextStep row.escStep, operationid) := by
    rw [List.map_map]
    rfl
  rw [hmap]
  exact h.map fun a b heq => (Prod.mk.inj (Prod.mk.inj heq).2).2

/-- What holds in every state: identifiers are not used twice, an escalation that has reached
sleep still sleeps, and an active one has executed only steps before its next one. -/
structure Inv (actions : ℕ → Option Action) (s : EscalatorRun) : Prop where
  nodup : (s.table.map (·.escalationid)).Nodup
  le_lastId : ∀ row ∈ s.table, row.escalationid ≤ s.lastId
  log_nodup : (operationsOf s.log).Nodup
  log_le : ∀ op ∈ operationsOf s.log, op.1 ≤ s.lastId
  asleep_le : ∀ id ∈ s.asleep, id ≤ s.lastId
  asleep : ∀ row ∈ s.table, row.escalationid ∈ s.asleep → row.status = .sleep
  steps : ∀ row ∈ s.table, row.status = .active → ∀ action ∈ actions row.actionid,
    ∀ op ∈ operationsOf s.log, op.1 = row.escalationid →
      action.escPeriod ≠ 0 ∧ op.2.1 ≤ row.escStep

theorem operationsOf_flatMap {α : Type*} (l : List α) (f : α → List Effect) :
  operationsOf (l.flatMap f) = l.flatMap fun a => operationsOf (f a)
  := List.filterMap_flatMap

theorem recoveriesOf_flatMap {α : Type*} (l : List α) (f : α → List Effect) :
  recoveriesOf (l.flatMap f) = l.flatMap fun a => recoveriesOf (f a)
  := List.filterMap_flatMap

theorem Starts.inv (h : s.Starts) :
  s.Inv actions
  := by
  refine ⟨h.nodup, h.le_lastId, ?_, ?_, ?_, ?_, ?_⟩
  · rw [h.log_eq]
    exact List.nodup_nil
  · rw [h.log_eq]
    exact nofun
  · rw [h.asleep_eq]
    intro id hid
    obtain ⟨row, hrow, rfl⟩ := List.mem_map.mp hid
    exact h.le_lastId row (List.mem_filter.mp hrow).1
  · rw [h.asleep_eq]
    intro row hrow hid
    obtain ⟨row', hrow', heq⟩ := List.mem_map.mp hid
    obtain ⟨hrow', hsleep⟩ := List.mem_filter.mp hrow'
    obtain rfl := List.inj_on_of_nodup_map h.nodup hrow' hrow heq
    simpa using hsleep
  · rw [h.log_eq]
    intro row _ _ action _ op hop
    contradiction

theorem Inv.insert (h : s.Inv actions) {row : Escalation}
    (hallowed : s.Allowed actions (.insert row)) :
  Inv actions { s with table := s.table ++ [row], lastId := row.escalationid }
  := by
  obtain ⟨hnew, -⟩ := hallowed
  have hold : ∀ other ∈ s.table ++ [row], other ∈ s.table ∨ other = row := by
    intro other hother
    rw [List.mem_append, List.mem_singleton] at hother
    exact hother
  refine ⟨?_, ?_, h.log_nodup, ?_, ?_, ?_, ?_⟩
  · rw [List.map_append, List.nodup_append]
    refine ⟨h.nodup, List.nodup_singleton _, ?_⟩
    intro id hid id' hid' heq
    obtain ⟨other, hother, rfl⟩ := List.mem_map.mp hid
    obtain rfl := List.mem_singleton.mp hid'
    exact absurd (h.le_lastId other hother) (Nat.not_le.mpr (heq ▸ hnew))
  · intro other hother
    obtain hother | rfl := hold other hother
    · exact (h.le_lastId other hother).trans hnew.le
    · exact le_rfl
  · exact fun op hop => (h.log_le op hop).trans hnew.le
  · exact fun id hid => (h.asleep_le id hid).trans hnew.le
  · intro other hother hid
    obtain hother | rfl := hold other hother
    · exact h.asleep other hother hid
    · have := h.asleep_le _ hid
      omega
  · intro other hother hactive action haction op hop hid
    obtain hother | rfl := hold other hother
    · exact h.steps other hother hactive action haction op hop hid
    · have := h.log_le op hop
      omega

/-- The operations of a pass are those of active rows. -/
theorem mem_passOperations (hinv : s.Inv actions) (hallowed : s.Allowed actions (.pass env))
    (hsafe : s.Safe actions (.pass env)) {op : ℕ × ℕ × ℕ}
    (hop : op ∈ operationsOf (processEscalations actions env s.table).2.1) :
  ∃ pair ∈ withNext (selectRows s.table), pair.1 ∈ s.table ∧ pair.1.status = .active ∧
    ∃ action ∈ actions pair.1.actionid, op ∈ dueOperations env pair.1 action ∧
      op ∈ operationsOf (effectsOf actions env pair)
  := by
  rw [(processEscalations_spec hinv.nodup).1, operationsOf_flatMap] at hop
  obtain ⟨pair, hpair, hop⟩ := List.mem_flatMap.mp hop
  have hrow := mem_selectRows.mp (mem_of_withNext hpair).1
  obtain hnone | ⟨hactive, action, haction, hoperations⟩ :=
    (rowSpec_of_pass hallowed hsafe hpair).operations
  · rw [hnone] at hop
    contradiction
  · exact ⟨pair, hpair, hrow, hactive, action, haction, hoperations ▸ hop, hop⟩

/-- Rows with one identifier are one row, with one row behind it. -/
theorem pair_unique (hinv : s.Inv actions) {pair pair' : Escalation × Option Escalation}
    (hpair : pair ∈ withNext (selectRows s.table)) (hpair' : pair' ∈ withNext (selectRows s.table))
    (hid : pair.1.escalationid = pair'.1.escalationid) :
  pair = pair'
  := by
  exact List.inj_on_of_nodup_map (pairs_nodup hinv.nodup) hpair hpair' hid

/-- The operations of a pass are executed once each. -/
theorem passOperations_nodup
    (hactions : ∀ actionid, ∀ action ∈ actions actionid,
      (action.operations.map (·.operationid)).Nodup)
    (hinv : s.Inv actions) (hallowed : s.Allowed actions (.pass env))
    (hsafe : s.Safe actions (.pass env)) :
  (operationsOf (processEscalations actions env s.table).2.1).Nodup
  := by
  rw [(processEscalations_spec hinv.nodup).1, operationsOf_flatMap, List.nodup_flatMap]
  constructor
  · intro pair hpair
    obtain hnone | ⟨-, action, haction, hoperations⟩ :=
      (rowSpec_of_pass hallowed hsafe hpair).operations
    · rw [hnone]
      exact List.nodup_nil
    · rw [hoperations]
      exact dueOperations_nodup _ (hactions _ action haction)
  · have hids : ∀ pair ∈ withNext (selectRows s.table),
        ∀ op ∈ operationsOf (effectsOf actions env pair), op.1 = pair.1.escalationid := by
      intro pair hpair op hop
      obtain hnone | ⟨-, action, -, hoperations⟩ :=
        (rowSpec_of_pass hallowed hsafe hpair).operations
      · rw [hnone] at hop
        contradiction
      · rw [hoperations] at hop
        exact (mem_dueOperations hop).1
    have hdistinct : (withNext (selectRows s.table)).Nodup := by
      apply List.Nodup.of_map Prod.fst
      rw [map_withNext, (selectRows_perm s.table).nodup_iff]
      exact List.Nodup.of_map _ hinv.nodup
    refine hdistinct.imp_of_mem ?_
    intro pair pair' hpair hpair' hne op hop hop'
    apply hne
    apply pair_unique hinv hpair hpair'
    rw [← hids pair hpair op hop, ← hids pair' hpair' op hop']

/-- A step that is executed in a pass was not executed before. -/
theorem passOperations_new (hinv : s.Inv actions) (hallowed : s.Allowed actions (.pass env))
    (hsafe : s.Safe actions (.pass env)) :
  List.Disjoint (operationsOf s.log)
    (operationsOf (processEscalations actions env s.table).2.1)
  := by
  intro op hold hnew
  obtain ⟨pair, -, hrow, hactive, action, haction, hdue, -⟩ :=
    mem_passOperations hinv hallowed hsafe hnew
  obtain ⟨hid, hstep⟩ := mem_dueOperations hdue
  obtain ⟨hperiod, hle⟩ := hinv.steps pair.1 hrow hactive action haction op hold hid
  rw [Action.nextStep, if_neg hperiod] at hstep
  omega

theorem mem_recoveredPairs {rows : List Escalation} {ends : Escalation × Escalation}
    (h : ends ∈ recoveredPairs rows) :
  ∃ row last, (row, some last) ∈ withNext rows ∧ Recovers row last ∧ ends = (row, last)
  := by
  obtain ⟨⟨row, next⟩, hpair, hends⟩ := List.mem_filterMap.mp h
  obtain ⟨last, rfl, hsome⟩ := Option.bind_eq_some_iff.mp hends
  by_cases hrecovers : Recovers row last
  · rw [if_pos hrecovers] at hsome
    exact ⟨row, last, hpair, hrecovers, (Option.some.inj hsome).symm⟩
  · rw [if_neg hrecovers] at hsome
    contradiction

/-- What is left of a row by a pass. -/
theorem mem_passTable (hinv : s.Inv actions) (hallowed : s.Allowed actions (.pass env))
    (hsafe : s.Safe actions (.pass env)) {row' : Escalation}
    (hrow' : row' ∈ (processEscalations actions env s.table).1) :
  ∃ pair ∈ withNext (selectRows s.table), pair.1 ∈ s.table ∧
    (fateOf actions env pair).apply pair.1 = some row' ∧ SameRow row' pair.1 ∧
      RowSpec actions env pair.1 pair.2 (fateOf actions env pair) (effectsOf actions env pair)
  := by
  obtain ⟨pair, hpair, hfate⟩ := (processEscalations_spec hinv.nodup).2 row' hrow'
  have hspec := rowSpec_of_pass hallowed hsafe hpair
  exact ⟨pair, hpair, mem_selectRows.mp (mem_of_withNext hpair).1, hfate,
    (hspec.left row' hfate).1, hspec⟩

/-- An active row that is left has executed only steps before its next one. -/
theorem steps_of_pass (hinv : s.Inv actions) (hallowed : s.Allowed actions (.pass env))
    (hsafe : s.Safe actions (.pass env)) {row' : Escalation}
    (hrow' : row' ∈ (processEscalations actions env s.table).1) (hactive : row'.status = .active)
    {action : Action} (haction : action ∈ actions row'.actionid) {op : ℕ × ℕ × ℕ}
    (hop : op ∈ operationsOf s.log ∨
      op ∈ operationsOf (processEscalations actions env s.table).2.1)
    (hid : op.1 = row'.escalationid) :
  action.escPeriod ≠ 0 ∧ op.2.1 ≤ row'.escStep
  := by
  obtain ⟨pair, hpair, hrow, hfate, hsame, hspec⟩ := mem_passTable hinv hallowed hsafe hrow'
  obtain ⟨-, hproblem, -, hsleeps, hcases⟩ := hspec.left row' hfate
  rw [hsame.source.1] at haction
  rw [hsame.escalationid] at hid
  have hrowActive : pair.1.status = .active := by
    refine (hsafe.1 pair.1 hrow hproblem).resolve_right fun hsleep => ?_
    rw [hsleeps hsleep] at hactive
    contradiction
  have hold : op ∈ operationsOf s.log → action.escPeriod ≠ 0 ∧ op.2.1 ≤ pair.1.escStep :=
    fun hop => hinv.steps pair.1 hrow hrowActive action haction op hop hid
  have hnew : op ∈ operationsOf (processEscalations actions env s.table).2.1 →
      op ∈ operationsOf (effectsOf actions env pair) ∧
        op.2.1 = action.nextStep pair.1.escStep := by
    intro hop
    obtain ⟨pair', hpair', -, -, action', haction', hdue, hop⟩ :=
      mem_passOperations hinv hallowed hsafe hop
    obtain ⟨hid', hstep⟩ := mem_dueOperations hdue
    obtain rfl := pair_unique hinv hpair hpair' (hid.symm.trans hid')
    obtain rfl := Option.some.inj (haction.symm.trans haction')
    exact ⟨hop, hstep⟩
  obtain ⟨-, hstep, hnone⟩ | hsleep | ⟨action', haction', hperiod, hstep⟩ := hcases
  · obtain hop | hop := hop
    · rw [hstep]
      exact hold hop
    · have hmem := (hnew hop).1
      rw [hnone] at hmem
      contradiction
  · rw [hsleep] at hactive
    contradiction
  · obtain rfl := Option.some.inj (haction.symm.trans haction')
    refine ⟨hperiod, ?_⟩
    obtain hop | hop := hop
    · have := (hold hop).2
      omega
    · have hnext := (hnew hop).2
      rw [Action.nextStep, if_neg hperiod] at hnext
      omega

theorem Inv.pass
    (hactions : ∀ actionid, ∀ action ∈ actions actionid,
      (action.operations.map (·.operationid)).Nodup)
    (hinv : s.Inv actions) (hallowed : s.Allowed actions (.pass env))
    (hsafe : s.Safe actions (.pass env))
    (hstep : s.step actions (.pass env) = some s') :
  s'.Inv actions
  := by
  obtain rfl := Option.some.inj hstep
  have hnodup : ((processEscalations actions env s.table).1.map (·.escalationid)).Nodup :=
    (processEscalations_ids s.table).nodup hinv.nodup
  have hle : ∀ row ∈ (processEscalations actions env s.table).1, row.escalationid ≤ s.lastId := by
    intro row' hrow'
    obtain ⟨pair, -, hrow, -, hsame, -⟩ := mem_passTable hinv hallowed hsafe hrow'
    rw [hsame.escalationid]
    exact hinv.le_lastId pair.1 hrow
  refine ⟨hnodup, hle, ?_, ?_, ?_, ?_, ?_⟩
  · rw [operationsOf_append]
    exact List.Nodup.append hinv.log_nodup (passOperations_nodup hactions hinv hallowed hsafe)
      (passOperations_new hinv hallowed hsafe)
  · rw [operationsOf_append]
    intro op hop
    obtain hop | hop := List.mem_append.mp hop
    · exact hinv.log_le op hop
    · obtain ⟨pair, -, hrow, -, action, -, hdue, -⟩ := mem_passOperations hinv hallowed hsafe hop
      rw [(mem_dueOperations hdue).1]
      exact hinv.le_lastId pair.1 hrow
  · intro id hid
    obtain hid | hid := List.mem_append.mp hid
    · exact hinv.asleep_le id hid
    · obtain ⟨row, hrow, rfl⟩ := List.mem_map.mp hid
      exact hle row (List.mem_filter.mp hrow).1
  · intro row' hrow' hid
    obtain hid | hid := List.mem_append.mp hid
    · obtain ⟨pair, -, hrow, hfate, hsame, hspec⟩ := mem_passTable hinv hallowed hsafe hrow'
      rw [hsame.escalationid] at hid
      exact (hspec.left row' hfate).2.2.2.1 (hinv.asleep pair.1 hrow hid)
    · obtain ⟨row, hrow, heq⟩ := List.mem_map.mp hid
      obtain ⟨hrow, hsleep⟩ := List.mem_filter.mp hrow
      obtain rfl := List.inj_on_of_nodup_map hnodup hrow hrow' heq
      simpa using hsleep
  · intro row' hrow' hactive action haction op hop hid
    simp only [operationsOf_append, List.mem_append] at hop
    exact steps_of_pass hinv hallowed hsafe hrow' hactive haction hop hid

/-- A pass does what it should. -/
theorem Inv.processes (hinv : s.Inv actions) (hallowed : s.Allowed actions (.pass env))
    (hsafe : s.Safe actions (.pass env)) :
  s.Processes actions env
  where
    asleep := by
      intro op hop hasleep
      obtain ⟨pair, -, hrow, hactive, action, -, hdue, -⟩ :=
        mem_passOperations hinv hallowed hsafe hop
      rw [(mem_dueOperations hdue).1] at hasleep
      rw [hinv.asleep pair.1 hrow hasleep] at hactive
      contradiction
    recoveries := by
      rw [(processEscalations_spec hinv.nodup).1, recoveriesOf_flatMap, recoveredPairs]
      have hpairs : ∀ pair ∈ withNext (selectRows s.table),
          recoveriesOf (effectsOf actions env pair) = (pair.2.bind fun next =>
            if Recovers pair.1 next then some (pair.1.escalationid, next.rEventid)
            else none).toList := fun pair hpair => (rowSpec_of_pass hallowed hsafe hpair).recoveries
      rw [List.flatMap_congr hpairs, List.map_filterMap, List.filterMap_eq_flatMap_toList]
      congr 1
      funext pair
      obtain ⟨row, next⟩ := pair
      cases next with
      | none => rfl
      | some last =>
        simp only [Option.bind_some]
        split <;> rfl
    removed := by
      intro ends hends row' hrow'
      obtain ⟨row, last, hmem, hrecovers, rfl⟩ := mem_recoveredPairs hends
      obtain ⟨pair, hpair, -, hfate, hsame, hspec⟩ := mem_passTable hinv hallowed hsafe hrow'
      obtain ⟨-, hproblem, hnext, -⟩ := hspec.left row' hfate
      rw [hsame.escalationid]
      constructor
      · intro hid
        obtain rfl := pair_unique hinv hpair hmem hid
        exact hnext last rfl hrecovers.2.2
      · intro hid
        obtain ⟨next', hmem'⟩ := mem_withNext ((mem_of_withNext hmem).2 last rfl)
        obtain rfl := pair_unique hinv hpair hmem' hid
        exact hrecovers.2.1 hproblem
    newest := by
      intro row' hrow' other hother hsource
      obtain ⟨pair, hpair, -, hfate, hsame, hspec⟩ := mem_passTable hinv hallowed hsafe hrow'
      have hnext := (hspec.left row' hfate).2.2.1
      have hsource' : SameSource pair.1 other :=
        ⟨hsame.source.1.symm.trans hsource.1, hsame.source.2.1.symm.trans hsource.2.1,
          hsame.source.2.2.symm.trans hsource.2.2⟩
      rw [hsame.escalationid]
      unfold SameSource at hsource' hnext
      obtain hbefore | ⟨last, hlast, hafter, hbefore⟩ :=
        exists_between (selectRows_sorted s.table) hpair (mem_selectRows.mpr hother)
      · unfold NotAfter at hbefore
        omega
      · have hdifferent := hnext last hlast
        unfold NotAfter at hafter hbefore
        omega

end EscalatorRun

end

open EscalatorRun

/-- Operations are executed once, recoveries are processed, and the newest rows are left, when
no step that is due at a recovery executes operations of a sleeping escalation or ends the
escalation. -/
theorem processes_escalations {actions : ℕ → Option Action}
    (hactions : ∀ actionid, ∀ action ∈ actions actionid,
      (action.operations.map (·.operationid)).Nodup)
    {start s : EscalatorRun} (hstart : start.Starts) {steps : List EscalatorAction}
    (run : Run (StepOf (EscalatorRun.step actions))
      (fun s action => s.Allowed actions action ∧ s.Safe actions action) start steps s) :
  s.ProcessesEscalations actions
  := by
  have hinv : s.Inv actions := by
    apply run.invariant hstart.inv
    rintro s action s' hinv ⟨hallowed, hsafe⟩ hstep
    cases action with
    | insert row =>
      obtain rfl := Option.some.inj hstep
      exact hinv.insert hallowed
    | pass env => exact hinv.pass hactions hallowed hsafe hstep
  exact ⟨hinv.log_nodup, fun env hallowed hsafe => hinv.processes hallowed hsafe⟩

/-! ### Samples -/

/-- A command that is executed in one step, and a message when the problem ends. -/
def commandAction (escPeriod : ℤ) : Action where
  escPeriod := escPeriod
  recoveryMsg := 1
  operations :=
    [{ operationid := 7, operationtype := .command, escPeriod := 0, escStepFrom := 1
       escStepTo := 1, hasMessage := false }]

/-- The only action. -/
def oneAction (escPeriod : ℤ) (actionid : ℕ) : Option Action :=
  if actionid = 1 then some (commandAction escPeriod) else none

/-- A pass in which nothing is cancelled and all conditions hold. -/
def samplePass (now : ℤ) : EscalatorAction :=
  .pass
    { now := now, time := fun _ => now, cancels := fun _ => false, eventInfo := fun _ => true
      conditions := fun _ _ => true, recipients := fun _ => [] }

/-- A row for a problem of trigger 5, or for its end. -/
def sampleRow (escalationid eventid rEventid : ℕ) : Escalation where
  escalationid := escalationid
  actionid := 1
  triggerid := 5
  eventid := eventid
  rEventid := rEventid
  nextcheck := 0
  escStep := 0
  status := .active
  itemid := 0

def emptyRun : EscalatorRun where
  table := []
  lastId := 0
  log := []
  asleep := []

/-- A problem, a pass, the end of the problem, and another pass. -/
def sampleSteps : List EscalatorAction :=
  [.insert (sampleRow 1 11 0), samplePass 100, .insert (sampleRow 2 0 12), samplePass 103]

/-- With the period 0 the command is executed a second time before the recovery, after the
escalation has reached sleep. -/
theorem executes_again :
  ∃ s, Run (StepOf (EscalatorRun.step (oneAction 0)))
      (fun s action => s.Allowed (oneAction 0) action) emptyRun sampleSteps s ∧
    s.log = [.operation 1 0 7, .operation 1 0 7, .recovery 1 12 []] ∧
    ¬ (operationsOf s.log).Nodup
  := by
  have hsome : (execute (EscalatorRun.step (oneAction 0)) emptyRun sampleSteps).isSome = true := by
    decide
  obtain ⟨s, hs⟩ := Option.isSome_iff_exists.mp hsome
  have hlog : ∀ s ∈ execute (EscalatorRun.step (oneAction 0)) emptyRun sampleSteps,
      s.log = [.operation 1 0 7, .operation 1 0 7, .recovery 1 12 []] := by
    decide
  refine ⟨s, Run.of_execute hs (by decide), hlog s hs, ?_⟩
  rw [hlog s hs]
  decide

theorem processes_escalations_sample :
  ∃ s, Run (StepOf (EscalatorRun.step (oneAction 60)))
      (fun s action => s.Allowed (oneAction 60) action ∧ s.Safe (oneAction 60) action)
      emptyRun sampleSteps s ∧
    s.log = [.operation 1 1 7, .recovery 1 12 []] ∧ s.ProcessesEscalations (oneAction 60)
  := by
  have hsome : (execute (EscalatorRun.step (oneAction 60)) emptyRun sampleSteps).isSome = true := by
    decide
  obtain ⟨s, hs⟩ := Option.isSome_iff_exists.mp hsome
  have hlog : ∀ s ∈ execute (EscalatorRun.step (oneAction 60)) emptyRun sampleSteps,
      s.log = [.operation 1 1 7, .recovery 1 12 []] := by
    decide
  have run : Run (StepOf (EscalatorRun.step (oneAction 60)))
      (fun s action => s.Allowed (oneAction 60) action ∧ s.Safe (oneAction 60) action)
      emptyRun sampleSteps s := Run.of_execute hs (by decide)
  refine ⟨s, run, hlog s hs, processes_escalations ?_ ?_ run⟩
  · intro actionid action haction
    unfold oneAction at haction
    split at haction
    · obtain rfl := Option.some.inj haction
      decide
    · contradiction
  · exact ⟨List.nodup_nil, nofun, rfl, rfl⟩

end Escalator
