import Mathlib.Algebra.GroupWithZero.Nat
import Mathlib.Logic.Function.Basic
import Zabbix.Library.IdRange
import Zabbix.Library.Run
import Zabbix.Library.Table

/-!
# Reserving ids

Any number of processes reserve ids for the records that they are going to insert. Most
tables have a record in table `ids`, which is read, increased and read again, each by a
statement of its own. Some tables have a counter in shared memory instead, which is set
from the ids of the table the first time that it is asked for.

In a distributed setup every node has ranges of ids of its own, one next to the other.
-/

namespace Ids

/-! ### The ids of a node -/

/-- `ZBX_STANDALONE_MAX_IDS` -/
def standaloneMaxIds : ℕ := 0x7fffffffffffffff

/-- `ZBX_DM_MAX_HISTORY_IDS` -/
def dmMaxHistoryIds : ℕ := 100000000000000

/-- `ZBX_DM_MAX_CONFIG_IDS` -/
def dmMaxConfigIds : ℕ := 100000000000

/-- The configured node and which tables are synchronised between nodes (`ZBX_SYNC`). -/
structure Node where
  nodeid : Fin 1000
  sync : String → Bool

namespace Node

variable (node : Node) (table : String)

/-- `min` of `DBget_nextid`. -/
def min : ℕ :=
  if node.nodeid = 0 then 0
  else if node.sync table then dmMaxHistoryIds * node.nodeid + dmMaxConfigIds * node.nodeid
  else dmMaxHistoryIds * node.nodeid

/-- `max` of `DBget_nextid`. -/
def max : ℕ :=
  if node.nodeid = 0 then standaloneMaxIds
  else if node.sync table then node.min table + dmMaxConfigIds - 1
  else node.min table + dmMaxHistoryIds - 1

/-- `min` of `DCget_nextid`. -/
def dcMin : ℕ :=
  if node.sync table then dmMaxHistoryIds * node.nodeid + dmMaxConfigIds * node.nodeid
  else dmMaxHistoryIds * node.nodeid

/-- `max` of `DCget_nextid`. -/
def dcMax : ℕ :=
  if node.sync table then node.dcMin table + dmMaxConfigIds - 1
  else node.dcMin table + dmMaxHistoryIds - 1

end Node

/-- The greatest of the ids between `min` and `max`. -/
def maxId (rows : List ℕ) (min max : ℕ) : Option ℕ :=
  (rows.filter fun i => min ≤ i ∧ i ≤ max).max?

/-! ### The state -/

/-- The statement of `DBget_nextid` that a process executes next. -/
inductive Statement where
  | selectNextid
  | selectMaxid
  | insert (ret1 : ℕ)
  | increment
  | delete
  | update (ret1 : ℕ)
  | reselect (ret1 : ℕ)
deriving DecidableEq, Repr

/-- What a process does. -/
inductive Process where
  | idle
  | running (table : String) (num : ℕ) (statement : Statement)
  | exited
deriving DecidableEq, Repr

/-- The database, the shared memory, and the processes. -/
structure State where
  /-- The ids in the tables. -/
  rows : String → List ℕ
  /-- `nextid` of the records of the node in table `ids`. -/
  nextid : String → Option ℕ
  /-- `lastid` of the slots in shared memory. -/
  lastid : Table String ℕ
  processes : ℕ → Process
  /-- The ranges that have been returned, the newest first. -/
  returned : String → List IdRange

namespace State

/-- A state in which no counter has been created. -/
def initial (rows : String → List ℕ) : State where
  rows := rows
  nextid := fun _ => none
  lastid := Table.empty
  processes := fun _ => .idle
  returned := fun _ => []

def setProcess (s : State) (p : ℕ) (process : Process) : State :=
  { s with processes := Function.update s.processes p process }

def setNextid (s : State) (table : String) (nextid : Option ℕ) : State :=
  { s with nextid := Function.update s.nextid table nextid }

def setLastid (s : State) (table : String) (lastid : ℕ) : State :=
  { s with lastid := s.lastid.set table lastid }

def addReturned (s : State) (table : String) (r : IdRange) : State :=
  { s with returned := Function.update s.returned table (r :: s.returned table) }

def addRow (s : State) (table : String) (i : ℕ) : State :=
  { s with rows := Function.update s.rows table (i :: s.rows table) }

end State

/-! ### Shared memory -/

/-- `ZBX_IDS_SIZE` -/
def idsSize : ℕ := 10

/-- The tables that `DBget_maxid_num` has a counter in shared memory for. -/
def dcTables : List String :=
  ["history_log", "history_text", "events", "dservices", "dhosts", "alerts", "escalations",
    "autoreg_host", "graph_discovery", "trigger_discovery"]

/-- The last id in the slot of a table, or the one that a new slot is set to. -/
def State.dcLastid (node : Node) (s : State) (table : String) : ℕ :=
  (s.lastid.search table).getD
    ((maxId (s.rows table) (node.dcMin table) (node.dcMax table)).getD (node.dcMin table))

/-- `DCget_nextid`: the lock is held for all of it. A process that finds no slot for its
table exits. -/
def dcGetNextid (node : Node) (s : State) (p : ℕ) (table : String) (num : ℕ) : State :=
  if s.lastid.search table = none ∧ s.lastid.entries.length = idsSize then
    s.setProcess p .exited
  else
    let lastid := s.dcLastid node table
    (s.setLastid table ((lastid + num) % 2 ^ 64)).addReturned table
      ⟨(lastid + 1) % 2 ^ 64, num⟩

/-! ### The database -/

/-- One statement of `DBget_nextid`, and what the process does next. -/
def dbGetNextid (node : Node) (s : State) (p : ℕ) (table : String) (num : ℕ) :
    (statement : Statement) → State
  | .selectNextid =>
    match s.nextid table with
    | none => s.setProcess p (.running table num .selectMaxid)
    | some ret1 =>
      if ret1 < node.min table ∨ node.max table ≤ ret1 then
        s.setProcess p (.running table num .delete)
      else s.setProcess p (.running table num (.update ret1))
  | .selectMaxid =>
    match maxId (s.rows table) (node.min table) (node.max table) with
    | none => s.setProcess p (.running table num (.insert (node.min table)))
    | some ret1 =>
      if node.max table ≤ ret1 then s.setProcess p .exited
      else s.setProcess p (.running table num (.insert ret1))
  | .insert ret1 =>
    -- the record is unique: the statement fails when another process was faster
    match s.nextid table with
    | none => (s.setNextid table (some ret1)).setProcess p (.running table num .selectNextid)
    | some _ => s.setProcess p (.running table num .increment)
  | .increment =>
    (s.setNextid table ((s.nextid table).map (· + 1))).setProcess p
      (.running table num .selectNextid)
  | .delete => (s.setNextid table none).setProcess p (.running table num .selectNextid)
  | .update ret1 =>
    (s.setNextid table ((s.nextid table).map (· + num))).setProcess p
      (.running table num (.reselect ret1))
  | .reselect ret1 =>
    match s.nextid table with
    | none => s.setProcess p (.running table num .selectNextid)
    | some ret2 =>
      if ret1 + num = ret2 then
        (s.setProcess p .idle).addReturned table ⟨ret2 - num + 1, num⟩
      else s.setProcess p (.running table num .selectNextid)

/-! ### Steps -/

/-- A step of some process. -/
inductive Action where
  /-- Process `p` calls `DBget_maxid_num`. -/
  | call (p : ℕ) (table : String) (num : ℕ)
  /-- Process `p` executes its next statement. -/
  | execute (p : ℕ)
  /-- Process `p` finds that its transaction has failed. -/
  | giveUp (p : ℕ)
  /-- A record with a reserved id is inserted. -/
  | store (table : String) (i : ℕ)
deriving DecidableEq, Repr

/-- The state after a step, when the step can be taken. -/
def step (node : Node) (s : State) : Action → Option State
  | .call p table num =>
    if s.processes p = .idle ∧ 0 < num then
      if table ∈ dcTables then some (dcGetNextid node s p table num)
      else some (s.setProcess p (.running table num .selectNextid))
    else none
  | .execute p =>
    match s.processes p with
    | .running table num statement => some (dbGetNextid node s p table num statement)
    | _ => none
  | .giveUp p =>
    match s.processes p with
    | .running _ _ .selectNextid => some (s.setProcess p .idle)
    | _ => none
  | .store table i =>
    if ∃ r ∈ s.returned table, i ∈ r then some (s.addRow table i) else none

end Ids
