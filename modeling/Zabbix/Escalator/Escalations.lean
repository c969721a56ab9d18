import Mathlib.Data.List.Sort

/-!
# Escalations

The table `escalations` has a row for each event that an action reacts to, and a row for each
event that ends one.  `process_escalations` reads the rows in order of action, trigger, item
and age.  It looks one row ahead: a row that is followed by a newer problem of the same action,
trigger and item is superseded, and one that is followed by the end of the problem is
recovered.  The operations of an action are executed in steps; when there are no more of them,
the escalation sleeps until it is recovered.

What the other tables hold and what `time` returns are parameters of a pass.
-/

namespace Escalator

inductive EscalationStatus where
  | active
  | recovery
  | sleep
  | completed
deriving DecidableEq

/-- A row of `escalations`, with 0 for null. -/
structure Escalation where
  escalationid : ℕ
  actionid : ℕ
  triggerid : ℕ
  eventid : ℕ
  rEventid : ℕ
  nextcheck : ℤ
  escStep : ℕ
  status : EscalationStatus
  itemid : ℕ
deriving DecidableEq

inductive OperationType where
  | message
  | command
  | other
deriving DecidableEq

/-- A row of `operations`, with whether it has a row in `opmessage`. -/
structure Operation where
  operationid : ℕ
  operationtype : OperationType
  escPeriod : ℤ
  escStepFrom : ℕ
  escStepTo : ℕ
  hasMessage : Bool
deriving DecidableEq

structure Action where
  escPeriod : ℤ
  recoveryMsg : ℤ
  operations : List Operation
deriving DecidableEq

/-- What becomes visible: an operation is executed in a step of an escalation, or the recovery
of an escalation is processed, with the recipients of the message. -/
inductive Effect where
  | operation (escalationid escStep operationid : ℕ)
  | recovery (escalationid rEventid : ℕ) (recipients : List (ℕ × ℕ))
deriving DecidableEq

/-- What a pass finds: the time at its start and when a next check is set, which escalations
`check_escalation` cancels, which events `get_event_info` finds, the operations whose
conditions match an event, and the users and media types that have had a message. -/
structure PassEnv where
  now : ℤ
  time : Escalation → ℤ
  cancels : Escalation → Bool
  eventInfo : ℕ → Bool
  conditions : ℕ → Operation → Bool
  recipients : Escalation → List (ℕ × ℕ)

def escalatorFrequency : ℤ := 3

def secPerMin : ℤ := 60

/-! ### Operations -/

namespace Action

/-- The operations that the first query selects for a step. -/
def selected (action : Action) (escStep : ℕ) : List Operation :=
  action.operations.filter fun o =>
    (o.operationtype = .message || o.operationtype = .command) &&
      (action.escPeriod = 0 ||
        (o.escStepFrom ≤ escStep && (o.escStepTo = 0 || escStep ≤ o.escStepTo)))

/-- There are operations in later steps. -/
def hasLater (action : Action) (escStep : ℕ) : Bool :=
  action.operations.any fun o => escStep < o.escStepFrom

/-- The status when there are no more operations. -/
def statusOver (action : Action) : EscalationStatus :=
  if action.recoveryMsg = 1 then .sleep else .completed

/-- The step that is executed next. -/
def nextStep (action : Action) (escStep : ℕ) : ℕ :=
  if action.escPeriod = 0 then escStep else escStep + 1

end Action

/-- The shortest period of the operations that are executed, or 0. -/
def nextEscPeriod (operations : List Operation) : ℤ :=
  operations.foldl
    (fun next o => if next = 0 ∨ o.escPeriod < next then o.escPeriod else next) 0

/-- What an operation does. -/
def operationEffect (escalation : Escalation) (o : Operation) : Option Effect :=
  if o.operationtype = .message ∧ o.hasMessage = false then none
  else some (.operation escalation.escalationid escalation.escStep o.operationid)

/-- `execute_operations`. -/
def executeOperations (env : PassEnv) (escalation : Escalation) (action : Action) :
    Escalation × List Effect :=
  let escalation := { escalation with escStep := action.nextStep escalation.escStep }
  let selected := action.selected escalation.escStep
  let executed := selected.filter (env.conditions escalation.eventid)
  let effects := executed.filterMap (operationEffect escalation)
  let escalation : Escalation :=
    if action.escPeriod = 0 then { escalation with status := action.statusOver }
    else if selected ≠ [] ∨ action.hasLater escalation.escStep then
      let next := nextEscPeriod executed
      let period := if next ≠ 0 then next else action.escPeriod
      { escalation with nextcheck := env.time escalation + period }
    else { escalation with status := action.statusOver }
  let escalation : Escalation :=
    if escalation.status = .sleep then
      { escalation with nextcheck := env.time escalation + secPerMin }
    else escalation
  (escalation, effects)

/-- `process_recovery_msg`. -/
def processRecoveryMsg (env : PassEnv) (escalation : Escalation) (action : Action) :
    Escalation × List Effect :=
  let recipients := if action.recoveryMsg = 1 then env.recipients escalation else []
  ({ escalation with
      escStep := if recipients = [] then escalation.escStep else 0
      status := .completed },
    [.recovery escalation.escalationid escalation.rEventid recipients])

/-- `execute_escalation`. -/
def executeEscalation (actions : ℕ → Option Action) (env : PassEnv) (escalation : Escalation) :
    Escalation × List Effect :=
  match actions escalation.actionid with
  | none => ({ escalation with status := .completed }, [])
  | some action =>
    let executed :=
      match escalation.status with
      | .active =>
        if env.eventInfo escalation.eventid then executeOperations env escalation action
        else (escalation, [])
      | .recovery =>
        if env.eventInfo escalation.eventid && env.eventInfo escalation.rEventid then
          processRecoveryMsg env escalation action
        else (escalation, [])
      | _ => (escalation, [])
    if env.cancels escalation then ({ executed.1 with status := .completed }, executed.2)
    else executed

/-! ### A pass -/

/-- What happens to a row in the table: its columns are updated as far as they are given, or it
is deleted, at once or at the end of the pass. -/
inductive Fate where
  | keep
  | update (status : Option EscalationStatus) (escStep : Option ℕ) (nextcheck : Option ℤ)
  | delete
  | deleteLater
deriving DecidableEq

/-- The row as it is read: an end of a problem is only deleted. -/
def fetch (row : Escalation) : Escalation :=
  if row.rEventid ≠ 0 then { row with status := .completed } else row

/-- Two rows are of the same action, trigger and item. -/
def SameSource (a b : Escalation) : Prop :=
  a.actionid = b.actionid ∧ a.triggerid = b.triggerid ∧ a.itemid = b.itemid

instance (a b : Escalation) : Decidable (SameSource a b) := by
  unfold SameSource
  infer_instance

/-- The processing of an escalation that is active, or that is recovered: a step that is due,
and the recovery. -/
def runEscalation (actions : ℕ → Option Action) (env : PassEnv) (escalation : Escalation)
    (superseded : Bool) : Escalation × List Effect :=
  let stepped :=
    if escalation.nextcheck ≤ env.now then executeEscalation actions env escalation
    else (escalation, [])
  if stepped.1.status ≠ .completed ∧ stepped.1.rEventid ≠ 0 then
    let recovered := executeEscalation actions env { stepped.1 with status := .recovery }
    (recovered.1, stepped.2 ++ recovered.2)
  else if superseded then ({ stepped.1 with status := .completed }, stepped.2)
  else stepped

/-- The processing of a row, with the row that follows it: the escalation as it is left, what
happens to the row, and the effects. -/
def processEscalation (actions : ℕ → Option Action) (env : PassEnv) (escalation : Escalation)
    (last : Option Escalation) : Escalation × Fate × List Effect :=
  if escalation.status = .completed then (escalation, .deleteLater, [])
  else
    let superseded := last.any fun last => SameSource escalation last
    let rEventid := (last.map (·.rEventid)).getD 0
    let escalation : Escalation :=
      if superseded ∧ rEventid ≠ 0 then
        { escalation with rEventid := rEventid, status := .active }
      else escalation
    if superseded ∧ rEventid = 0 ∧ (env.now < escalation.nextcheck ∨ escalation.status = .sleep)
    then (escalation, .deleteLater, [])
    else if escalation.nextcheck ≤ env.now ∨ escalation.rEventid ≠ 0 then
      if escalation.status = .active then
        let (escalation, effects) := runEscalation actions env escalation superseded
        let fate :=
          if escalation.status ≠ .completed then
            if escalation.status = .active then
              .update (some escalation.status) (some escalation.escStep) (some escalation.nextcheck)
            else .update (some escalation.status) none none
          else .delete
        (escalation, fate, effects)
      else if env.cancels escalation || (actions escalation.actionid).isNone then
        (escalation, .delete, [])
      else
        let escalation := { escalation with nextcheck := env.time escalation + secPerMin }
        (escalation, .update none none (some escalation.nextcheck), [])
    else (escalation, .keep, [])

/-- The row after its fate, unless it is deleted. -/
def Fate.apply (fate : Fate) (row : Escalation) : Option Escalation :=
  match fate with
  | .keep => some row
  | .update status escStep nextcheck =>
    some { row with
      status := status.getD row.status
      escStep := escStep.getD row.escStep
      nextcheck := nextcheck.getD row.nextcheck }
  | .delete | .deleteLater => none

/-- The table while a pass goes on, the rows that are deleted at its end, what has been
executed, and the time of the next check. -/
structure PassState where
  table : List Escalation
  escalationids : List ℕ
  effects : List Effect
  nextcheck : ℤ

/-- The rows with an identifier are updated or deleted. -/
def writeRow (table : List Escalation) (escalationid : ℕ) (fate : Fate) : List Escalation :=
  table.filterMap fun row => if row.escalationid = escalationid then fate.apply row else some row

/-- One round of the loop. -/
def PassState.process (actions : ℕ → Option Action) (env : PassEnv) (st : PassState)
    (escalation : Escalation) (last : Option Escalation) : PassState :=
  let (processed, fate, effects) := processEscalation actions env escalation last
  let st := { st with effects := st.effects ++ effects }
  if fate = .deleteLater then
    { st with escalationids := st.escalationids ++ [escalation.escalationid] }
  else
    { st with
      table := writeRow st.table escalation.escalationid fate
      nextcheck :=
        if processed.status ≠ .completed ∧ processed.nextcheck < st.nextcheck then
          processed.nextcheck
        else st.nextcheck }

/-- The loop over the rows. -/
def escalationLoop (actions : ℕ → Option Action) (env : PassEnv) :
    List Escalation → PassState → PassState
  | [], st => st
  | [escalation], st => st.process actions env escalation none
  | escalation :: last :: rest, st =>
    escalationLoop actions env (last :: rest) (st.process actions env escalation (some last))

/-- The order of the rows: by action, trigger, item and escalation. -/
def NotAfter (a b : Escalation) : Prop :=
  a.actionid < b.actionid ∨ a.actionid = b.actionid ∧
    (a.triggerid < b.triggerid ∨ a.triggerid = b.triggerid ∧
      (a.itemid < b.itemid ∨ a.itemid = b.itemid ∧ a.escalationid ≤ b.escalationid))

instance (a b : Escalation) : Decidable (NotAfter a b) := by
  unfold NotAfter
  infer_instance

/-- The rows as the query returns them. -/
def selectRows (table : List Escalation) : List Escalation := table.insertionSort NotAfter

/-- `process_escalations`: the table, what is executed, and the time of the next check. -/
def processEscalations (actions : ℕ → Option Action) (env : PassEnv) (table : List Escalation) :
    List Escalation × List Effect × ℤ :=
  let st := escalationLoop actions env ((selectRows table).map fetch)
    { table := table, escalationids := [], effects := []
      nextcheck := env.now + escalatorFrequency }
  (st.table.filter fun row => row.escalationid ∉ st.escalationids, st.effects, st.nextcheck)

end Escalator
