import Mathlib.Logic.Function.Basic
import Zabbix.Library.Identifiers
import Zabbix.Library.Run
import Zabbix.ValueCache.Record

/-!
# Processing triggers

The history syncer evaluates triggers, writes their new values to the configuration
cache, queues events and updates the database at the end of its transaction. The
configuration syncer selects the triggers from the database and copies the rows over the
cached triggers later, when it has read all other tables too.

Strings stand for themselves; a trigger error is cut to its length in the database when
it is stored there.
-/

namespace Trigger

open ValueCache (Timespec)

/-- `TRIGGER_VALUE_OK`, `TRIGGER_VALUE_PROBLEM`, `TRIGGER_VALUE_UNKNOWN`. -/
inductive TriggerValue where
  | ok
  | problem
  | unknown
deriving DecidableEq, Repr

/-- `TRIGGER_STATE_NORMAL`, `TRIGGER_STATE_UNKNOWN`. -/
inductive TriggerState where
  | normal
  | unknown
deriving DecidableEq, Repr

/-- `TRIGGER_TYPE_NORMAL`, `TRIGGER_TYPE_MULTIPLE_TRUE`. -/
inductive TriggerType where
  | normal
  | multipleTrue
deriving DecidableEq, Repr

/-- A row of the table of triggers, which `ZBX_DC_TRIGGER` holds field by field. -/
structure TriggerRow where
  triggerid : UInt64
  description : String
  expression : String
  error : String
  priority : UInt8
  type : TriggerType
  value : TriggerValue
  state : TriggerState
  lastchange : ℤ
deriving DecidableEq, Repr

/-- `DC_TRIGGER`: a copy of a cached trigger with the result of its evaluation. -/
structure DcTrigger extends TriggerRow where
  timespec : Timespec
  newValue : TriggerValue
  newError : Option String
deriving DecidableEq, Repr

/-- The result of an evaluation. -/
structure Evaluation where
  triggerid : UInt64
  timespec : Timespec
  newValue : TriggerValue
  newError : Option String
deriving DecidableEq, Repr

/-- `EVENT_SOURCE_TRIGGERS` with the value, `EVENT_SOURCE_INTERNAL` with the state. -/
inductive EventSource where
  | triggers (value : TriggerValue)
  | internal (state : TriggerState)
deriving DecidableEq, Repr

/-- What an event of `EVENT_SOURCE_TRIGGERS` keeps of its trigger. -/
structure EventTrigger where
  triggerid : UInt64
  description : String
  expression : String
  priority : UInt8
  type : TriggerType
deriving DecidableEq, Repr

/-- An event about a trigger (`EVENT_OBJECT_TRIGGER`). -/
structure Event where
  source : EventSource
  objectid : UInt64
  timespec : Timespec
  trigger : Option EventTrigger
deriving DecidableEq, Repr

/-- An `update triggers set … where triggerid=…` with the columns it sets. -/
structure Update where
  triggerid : UInt64
  lastchange : Option ℤ
  value : Option TriggerValue
  state : Option TriggerState
  error : Option String
deriving DecidableEq, Repr

/-- The cached triggers, or the rows of the table, by id. -/
abbrev Triggers := UInt64 → Option TriggerRow

/-- `TRIGGER_ERROR_LEN`. -/
def triggerErrorLen : ℕ := 128

/-- The row after an update. -/
def Update.apply (update : Update) (row : TriggerRow) : TriggerRow :=
  { row with
    lastchange := update.lastchange.getD row.lastchange
    value := update.value.getD row.value
    state := update.state.getD row.state
    error := update.error.getD row.error }

/-- The table after an update. -/
def executeUpdate (table : Triggers) (update : Update) : Triggers :=
  Function.update table update.triggerid ((table update.triggerid).map update.apply)

/-- `DCget_trigger`, with the results of the evaluation filled in. -/
def getTrigger (row : TriggerRow) (evaluation : Evaluation) : DcTrigger :=
  { row with
    timespec := evaluation.timespec
    newValue := evaluation.newValue
    newError := evaluation.newError }

/-- `DCconfig_set_trigger_value`. -/
def setTriggerValue (cache : Triggers) (triggerid : UInt64) (value : TriggerValue)
    (state : TriggerState) (error : String) (lastchange : Option ℤ) : Triggers :=
  match cache triggerid with
  | none => cache
  | some trigger =>
    Function.update cache triggerid (some
      { trigger with
        error := error
        value := value
        state := state
        lastchange := lastchange.getD trigger.lastchange })

/-- `DCconfig_check_trigger_dependencies_rec`, for at most the given number of levels:
no trigger this one depends on has a problem. -/
def checkTriggerDependenciesRec (cache : Triggers) (trigdeps : UInt64 → List UInt64) :
    ℕ → UInt64 → Bool
  | 0, _ => true
  | levels + 1, triggerid =>
    (trigdeps triggerid).all fun next =>
      !((cache next).any fun trigger => trigger.value = .problem ∧ trigger.state = .normal) &&
        checkTriggerDependenciesRec cache trigdeps levels next

/-- `DCconfig_check_trigger_dependencies`; levels up to 32 are followed. -/
def checkTriggerDependencies (cache : Triggers) (trigdeps : UInt64 → List UInt64)
    (triggerid : UInt64) : Bool :=
  checkTriggerDependenciesRec cache trigdeps 33 triggerid

/-- The state a trigger gets by its evaluation. -/
def DcTrigger.newState (trigger : DcTrigger) : TriggerState :=
  if trigger.newValue = .unknown then .unknown else .normal

/-- The value a trigger gets by its evaluation. -/
def DcTrigger.nextValue (trigger : DcTrigger) : TriggerValue :=
  if trigger.newValue = .unknown then trigger.value else trigger.newValue

def DcTrigger.newErrorLocal (trigger : DcTrigger) : String :=
  trigger.newError.getD ""

def DcTrigger.valueChanged (trigger : DcTrigger) : Bool :=
  trigger.value ≠ trigger.nextValue ∨ trigger.lastchange = 0 ∧ trigger.newState ≠ .unknown

def DcTrigger.stateChanged (trigger : DcTrigger) : Bool :=
  trigger.state ≠ trigger.newState

def DcTrigger.multipleProblem (trigger : DcTrigger) : Bool :=
  trigger.type = .multipleTrue ∧ trigger.nextValue = .problem ∧ trigger.newState = .normal

def DcTrigger.errorChanged (trigger : DcTrigger) : Bool :=
  trigger.error ≠ trigger.newErrorLocal

/-- `add_event` for a trigger. -/
def DcTrigger.event (trigger : DcTrigger) (source : EventSource) : Event where
  source := source
  objectid := trigger.triggerid
  timespec := trigger.timespec
  trigger := match source with
    | .triggers _ => some
        { triggerid := trigger.triggerid
          description := trigger.description
          expression := trigger.expression
          priority := trigger.priority
          type := trigger.type }
    | .internal _ => none

/-- What processing has done so far: the cached triggers, the updates to execute and the
queued events. -/
structure Progress where
  cache : Triggers
  updates : List Update
  events : List Event

/-- `process_trigger`. -/
def processTrigger (trigdeps : UInt64 → List UInt64) (progress : Progress)
    (trigger : DcTrigger) : Progress :=
  if trigger.valueChanged || trigger.stateChanged || trigger.multipleProblem ||
      trigger.errorChanged then
    if checkTriggerDependencies progress.cache trigdeps trigger.triggerid then
      let touched := trigger.valueChanged || trigger.multipleProblem
      let lastchange := if touched then some trigger.timespec.sec else none
      { cache := setTriggerValue progress.cache trigger.triggerid trigger.nextValue
          trigger.newState trigger.newErrorLocal lastchange
        updates := progress.updates ++ [{
          triggerid := trigger.triggerid
          lastchange := lastchange
          value := if trigger.valueChanged then some trigger.nextValue else none
          state := if trigger.stateChanged then some trigger.newState else none
          error := if trigger.errorChanged then
              some (String.ofList (trigger.newErrorLocal.toList.take triggerErrorLen))
            else none }]
        events := progress.events
          ++ (if touched then [trigger.event (.triggers trigger.nextValue)] else [])
          ++ (if trigger.stateChanged then [trigger.event (.internal trigger.newState)]
            else []) }
    else progress
  else progress

/-- `process_triggers`. -/
def processTriggers (trigdeps : UInt64 → List UInt64) (progress : Progress)
    (triggers : List DcTrigger) : Progress :=
  triggers.foldl (processTrigger trigdeps) progress

/-- `DCsync_triggers`: copies the rows over the cached triggers and removes the triggers
that were not selected. -/
def syncTriggers (cache : Triggers) (rows : List TriggerRow) : Triggers :=
  let cache := rows.foldl
    (fun (cache : Triggers) row => Function.update cache row.triggerid (some row)) cache
  fun triggerid => if triggerid ∈ rows.map (·.triggerid) then cache triggerid else none

/-! ### The server -/

/-- Where the history syncer is in its transaction. -/
inductive SyncerPhase where
  | idle
  | evaluated (triggers : List DcTrigger)
  | processed (updates : List Update)
deriving DecidableEq, Repr

/-- The triggers in the database and in the cache, the rows the configuration syncer has
read, and the events queued so far. -/
structure Server where
  db : Triggers
  cache : Triggers
  syncer : SyncerPhase
  selected : Option (List TriggerRow)
  events : List Event
  trigdeps : UInt64 → List UInt64

/-- The steps of the history syncer and of the configuration syncer. -/
inductive Action where
  /-- Triggers are copied from the cache and evaluated. -/
  | evaluate (evaluations : List Evaluation)
  | processTriggers
  | commit
  /-- `DCsync_configuration` selects the triggers with the given ids. -/
  | select (triggerids : List UInt64)
  | syncTriggers
deriving DecidableEq, Repr

/-- The copies of the cached triggers that are evaluated. -/
def getTriggers (cache : Triggers) (evaluations : List Evaluation) : List DcTrigger :=
  evaluations.filterMap fun evaluation =>
    (cache evaluation.triggerid).map (getTrigger · evaluation)

/-- One atomic step. The copies of the triggers are of different triggers. -/
def step (s : Server) : Action → Option Server
  | .evaluate evaluations =>
    match s.syncer with
    | .idle =>
      if (evaluations.map (·.triggerid)).Nodup then
        some { s with syncer := .evaluated (getTriggers s.cache evaluations) }
      else none
    | _ => none
  | .processTriggers =>
    match s.syncer with
    | .evaluated triggers =>
      let progress := processTriggers s.trigdeps ⟨s.cache, [], s.events⟩ triggers
      some { s with
        cache := progress.cache
        events := progress.events
        syncer := .processed progress.updates }
    | _ => none
  | .commit =>
    match s.syncer with
    | .processed updates =>
      some { s with db := updates.foldl executeUpdate s.db, syncer := .idle }
    | _ => none
  | .select triggerids =>
    match s.selected with
    | none => some { s with selected := some (triggerids.filterMap s.db) }
    | some _ => none
  | .syncTriggers =>
    match s.selected with
    | some rows => some { s with cache := syncTriggers s.cache rows, selected := none }
    | none => none

end Trigger
