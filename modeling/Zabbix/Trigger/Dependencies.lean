import Mathlib.Data.List.Sort
import Mathlib.Data.UInt
import Zabbix.Library.Entries
import Zabbix.Library.Identifiers
import Zabbix.Trigger.Process

/-!
# Trigger dependencies in the configuration cache

The configuration syncer keeps for every trigger that depends on others, or on which others
depend, a list of pointers to the lists of the triggers it depends on, and a pointer to the
trigger itself. The lists are updated in place when the dependencies are loaded again. A
trigger is checked by following the pointers; a pointer to memory that has been freed gives
no result.
-/

namespace Trigger

/-- `ZBX_DC_TRIGGER_DEPLIST`. Pointers are addresses, and the list ends with `NULL`. -/
structure TriggerDeplist where
  triggerid : UInt64
  trigger : Option ℕ
  dependencies : Option (List ℕ)

/-- The hash sets `triggers` and `trigdeps` of the configuration cache. -/
structure DependencyCache where
  triggers : Entries UInt64 TriggerRow
  trigdeps : Entries UInt64 TriggerDeplist

/-- Where memory for new entries comes from, and in which order a hash set is visited. -/
structure Surroundings where
  triggers : Allocator TriggerRow
  trigdeps : Allocator TriggerDeplist
  visit : Visit UInt64

/-- What the configuration syncer selects from the database: triggers, and the dependencies
`(triggerid_down, triggerid_up)` in the order of the first id. Ids are not zero, which stands
for no id: those of `DBget_nextid` start from one. -/
structure Snapshot where
  triggers : List TriggerRow
  dependencies : List (UInt64 × UInt64)
  ordered : dependencies.Pairwise fun row row' => row.1 ≤ row'.1
  positive : ∀ row ∈ dependencies, row.1 ≠ 0

/-- `DCfind_id`: the entry of an id and whether it was there. A new entry has its id, and
otherwise what was in the memory. -/
def findId {ω : Type*} (m : Allocator ω) (setId : UInt64 → ω → ω) (e : Entries UInt64 ω)
    (id : UInt64) : Entries UInt64 ω × ℕ × Bool :=
  match e.index.search id with
  | some a => (e, a, true)
  | none => ((e.insert m id (setId id)).1, (e.insert m id (setId id)).2, false)

/-! ### Loading triggers -/

/-- A row of the loop of `DCsync_triggers`. -/
def loadTrigger (m : Allocator TriggerRow) (e : Entries UInt64 TriggerRow) (row : TriggerRow) :
    Entries UInt64 TriggerRow :=
  let found := findId m (fun id trigger => { trigger with triggerid := id }) e row.triggerid
  found.1.modify found.2.1 fun trigger => { row with triggerid := trigger.triggerid }

/-- `DCsync_triggers`: stores the rows, and removes the triggers that are not selected. -/
def DependencyCache.syncTriggers (m : Allocator TriggerRow) (visit : Visit UInt64)
    (e : Entries UInt64 TriggerRow) (rows : List TriggerRow) : Entries UInt64 TriggerRow :=
  let e := rows.foldl (loadTrigger m) e
  let ids := sortIds (rows.map (·.triggerid))
  (visit.arrange e.index.keys).foldl (fun e id => if bsearch ids id then e else e.remove id) e

/-! ### Loading dependencies -/

/-- The variables of the loop of `DCsync_trigdeps`. -/
structure TrigdepLoop where
  trigdeps : Entries UInt64 TriggerDeplist
  triggerid : UInt64
  trigdepDown : Option ℕ
  dependencies : List ℕ
  idsDown : List UInt64
  idsUp : List UInt64

/-- Stores the dependencies that were collected for a trigger. -/
def TrigdepLoop.store (s : TrigdepLoop) : TrigdepLoop :=
  match s.trigdepDown with
  | none => s
  | some a =>
    { s with
      trigdeps := s.trigdeps.modify a fun d => { d with dependencies := some s.dependencies }
      dependencies := [] }

def setDeplistId (id : UInt64) (d : TriggerDeplist) : TriggerDeplist := { d with triggerid := id }

/-- Starts with the dependencies of another trigger. -/
def TrigdepLoop.enter (m : Allocator TriggerDeplist) (triggers : Entries UInt64 TriggerRow)
    (s : TrigdepLoop) (down : UInt64) : TrigdepLoop :=
  let found := findId m setDeplistId s.trigdeps down
  { s with
    trigdeps := found.1.modify found.2.1 fun d =>
      { d with
        trigger := triggers.index.search down
        dependencies := if found.2.2 then d.dependencies else none }
    triggerid := down
    trigdepDown := some found.2.1
    idsDown := s.idsDown ++ [down] }

/-- Collects a dependency. -/
def TrigdepLoop.collect (m : Allocator TriggerDeplist) (s : TrigdepLoop) (up : UInt64) :
    TrigdepLoop :=
  let found := findId m setDeplistId s.trigdeps up
  { s with
    trigdeps := if found.2.2 then found.1
      else found.1.modify found.2.1 fun d => { d with dependencies := none }
    dependencies := s.dependencies ++ [found.2.1]
    idsUp := s.idsUp ++ [up] }

/-- A row of the loop of `DCsync_trigdeps`. -/
def TrigdepLoop.next (m : Allocator TriggerDeplist) (triggers : Entries UInt64 TriggerRow)
    (s : TrigdepLoop) (row : UInt64 × UInt64) : TrigdepLoop :=
  let s := if s.triggerid ≠ row.1 then s.store.enter m triggers row.1 else s
  s.collect m row.2

/-- An entry in the last loop of `DCsync_trigdeps`: the lists that are only depended on lose
their dependencies, and those that are not used any more are removed. -/
def sweepTrigdep (triggers : Entries UInt64 TriggerRow) (idsDown idsUp : List UInt64)
    (e : Entries UInt64 TriggerDeplist) (id : UInt64) : Entries UInt64 TriggerDeplist :=
  if bsearch idsDown id then e
  else if bsearch idsUp id then
    match e.index.search id with
    | none => e
    | some a => e.modify a fun d =>
      { d with trigger := triggers.index.search id, dependencies := none }
  else e.remove id

/-- `DCsync_trigdeps`. -/
def DependencyCache.syncTrigdeps (m : Allocator TriggerDeplist) (visit : Visit UInt64)
    (triggers : Entries UInt64 TriggerRow) (e : Entries UInt64 TriggerDeplist)
    (rows : List (UInt64 × UInt64)) : Entries UInt64 TriggerDeplist :=
  let s := (rows.foldl (TrigdepLoop.next m triggers) ⟨e, 0, none, [], [], []⟩).store
  (visit.arrange s.trigdeps.index.keys).foldl
    (sweepTrigdep triggers s.idsDown (sortIds s.idsUp)) s.trigdeps

/-! ### Steps of the cache -/

/-- What happens to the cached triggers and their dependencies. -/
inductive CacheStep where
  | sync (surroundings : Surroundings) (snapshot : Snapshot)
  | setValue (triggerid : UInt64) (value : TriggerValue) (state : TriggerState) (error : String)
    (lastchange : Option ℤ)

namespace DependencyCache

/-- `DCsync_triggers` and `DCsync_trigdeps`, in this order and under one lock. -/
def sync (c : DependencyCache) (surroundings : Surroundings) (snapshot : Snapshot) :
    DependencyCache :=
  let triggers := syncTriggers surroundings.triggers surroundings.visit c.triggers
    snapshot.triggers
  { triggers
    trigdeps := syncTrigdeps surroundings.trigdeps surroundings.visit triggers c.trigdeps
      snapshot.dependencies }

/-- `DCconfig_set_trigger_value`. -/
def setValue (c : DependencyCache) (triggerid : UInt64) (value : TriggerValue)
    (state : TriggerState) (error : String) (lastchange : Option ℤ) : DependencyCache :=
  match c.triggers.index.search triggerid with
  | none => c
  | some a =>
    { c with
      triggers := c.triggers.modify a fun trigger =>
        { trigger with value, state, error, lastchange := lastchange.getD trigger.lastchange } }

def step (c : DependencyCache) : CacheStep → DependencyCache
  | .sync surroundings snapshot => c.sync surroundings snapshot
  | .setValue triggerid value state error lastchange =>
    c.setValue triggerid value state error lastchange

/-- The cache after the steps, from the start of the server on. -/
def run (steps : List CacheStep) : DependencyCache := steps.foldl step ⟨.empty, .empty⟩

/-! ### Checking a trigger -/

/-- Whether a pointer leads to a trigger with a problem. -/
def hasProblem (c : DependencyCache) : Option ℕ → Option Bool
  | none => some false
  | some a => (c.triggers.memory.search a).map fun trigger =>
    trigger.value = .problem ∧ trigger.state = .normal

/-- The loop over the dependencies, where `check` goes on from one of them. -/
def checkDependencies (c : DependencyCache) (check : ℕ → Option Bool) : List ℕ → Option Bool
  | [] => some true
  | a :: rest => do
    let next ← c.trigdeps.memory.search a
    let problem ← c.hasProblem next.trigger
    if problem then some false
    else
      let succeeds ← check a
      if succeeds then checkDependencies c check rest else some false

/-- `DCconfig_check_trigger_dependencies_rec` for at most the given number of levels. -/
def checkRec (c : DependencyCache) : (levels : ℕ) → (trigdep : ℕ) → Option Bool
  | 0, a => (c.trigdeps.memory.search a).map fun _ => true
  | levels + 1, a => do
    let trigdep ← c.trigdeps.memory.search a
    match trigdep.dependencies with
    | none => some true
    | some dependencies => c.checkDependencies (checkRec c levels) dependencies

/-- `DCconfig_check_trigger_dependencies`: whether the trigger may change its value. -/
def check (c : DependencyCache) (triggerid : UInt64) : Option Bool :=
  match c.trigdeps.index.search triggerid with
  | none => some true
  | some a => c.checkRec 33 a

end DependencyCache

end Trigger
