import Mathlib.Tactic.Common
import Zabbix.Library.SampleRing

/-!
# Self-monitoring

Every process tells the collector when it gets busy and when it gets idle.  The collector adds up
the ticks of each process in each state in 16-bit counters, and from time to time keeps a sample
of them; statistics are taken between the oldest and the newest sample that are kept.
-/

namespace Selfmon

open SampleRing

/-- `ZBX_PROCESS_STATE_IDLE` and `ZBX_PROCESS_STATE_BUSY`. -/
inductive ProcessState
  | idle
  | busy
deriving DecidableEq

/-- `ZBX_PROCESS_TYPE_POLLER` and so on. -/
inductive ProcessType
  | poller
  | unreachable
  | ipmiPoller
  | pinger
  | javaPoller
  | httpPoller
  | trapper
  | snmpTrapper
  | proxyPoller
  | escalator
  | histSyncer
  | discoverer
  | alerter
  | timer
  | nodeWatcher
  | housekeeper
  | watchdog
  | dataSender
  | confSyncer
  | heartbeat
  | selfmon
  | vmware
deriving DecidableEq

/-- `MAX_HISTORY`. -/
def maxHistory : ℕ := 60

/-- `get_process_type_forks`, from the configuration, which allows at most 1000 processes. -/
structure Forks where
  forks : ProcessType → ℕ
  le : ∀ t, forks t ≤ 1000

abbrev Counter := ProcessState → UInt16

/-- `zbx_stat_process_t`, where `h_counter` is by index. -/
structure StatProcess where
  hCounter : List Counter
  counter : Counter
  lastTicks : ℤ
  lastState : ProcessState
  size : hCounter.length = maxHistory

/-- `zbx_selfmon_collector_t`, where the cursor is `first` and `count`. -/
structure Collector where
  process : ProcessType → List StatProcess
  cursor : Cursor

/-- `init_selfmon_collector`. -/
def initSelfmonCollector (f : Forks) (ticks : ℤ) : Collector where
  process t := List.replicate (f.forks t) {
    hCounter := List.replicate maxHistory fun _ => 0
    counter := fun _ => 0
    lastTicks := ticks
    lastState := .busy
    size := List.length_replicate }
  cursor := ⟨0, 0⟩

/-- The counters with the ticks since the last change of state. -/
def StatProcess.counterAt (p : StatProcess) (ticks : ℤ) : Counter :=
  if ticks > p.lastTicks then
    Function.update p.counter p.lastState
      (p.counter p.lastState + UInt16.ofNat (ticks - p.lastTicks).toNat)
  else p.counter

/-- `update_selfmon_counter` of a process; there is no type for `ZBX_PROCESS_TYPE_UNKNOWN`. -/
def updateSelfmonCounter (c : Collector) (processType : Option ProcessType) (processNum : ℕ)
    (ticks : ℤ) (state : ProcessState) : Option Collector :=
  match processType with
  | none => some c
  | some t =>
    if processNum = 0 then none
    else do
      let p ← (c.process t)[processNum - 1]?
      let p := { p with counter := p.counterAt ticks, lastTicks := ticks, lastState := state }
      return { c with
        process := Function.update c.process t ((c.process t).set (processNum - 1) p) }

/-- A sample of a process. -/
def StatProcess.sample (p : StatProcess) (index : ℕ) (ticks : ℤ) : StatProcess :=
  { p with
    hCounter := p.hCounter.set index (p.counterAt ticks)
    size := List.length_set.trans p.size }

/-- `collect_selfmon_stats`; a write behind the arrays has no result. -/
def collectSelfmonStats (c : Collector) (ticks : ℤ) : Option Collector :=
  let index := c.cursor.index maxHistory
  if index < maxHistory then
    some {
      process := fun t => (c.process t).map (·.sample index ticks)
      cursor := c.cursor.advance maxHistory }
  else none

/-- `ZBX_AGGR_FUNC_ONE` and so on. -/
inductive AggrFunc
  | one
  | avg
  | max
  | min

/-- A turn of the loop of `get_selfmon_stats` over the processes, with `total` and `counter`. -/
def aggregate (c : Collector) (procType : ProcessType) (aggrFunc : AggrFunc)
    (state : ProcessState) (current : ℕ) (sums : UInt32 × UInt32) (procNum : ℕ) :
    Option (UInt32 × UInt32) := do
  let process ← (c.process procType)[procNum]?
  let newest ← process.hCounter[current]?
  let oldest ← process.hCounter[c.cursor.first]?
  let oneTotal := [ProcessState.idle, .busy].foldl
    (fun oneTotal s => oneTotal + (newest s - oldest s)) 0
  let oneCounter := newest state - oldest state
  let (total, counter) := sums
  match aggrFunc with
  | .one | .avg => return (total + oneTotal.toUInt32, counter + oneCounter.toUInt32)
  | .max =>
    if procNum = 0 ∨ oneCounter.toUInt32 > counter then
      return (oneTotal.toUInt32, oneCounter.toUInt32)
    else return (total, counter)
  | .min =>
    if procNum = 0 ∨ oneCounter.toUInt32 < counter then
      return (oneTotal.toUInt32, oneCounter.toUInt32)
    else return (total, counter)

def percentage (counter total : UInt32) : ℚ :=
  if total = 0 then 0 else 100 * counter.toNat / total.toNat

/-- `get_selfmon_stats`; there is no result when an assertion fails. -/
def getSelfmonStats (f : Forks) (c : Collector) (procType : ProcessType) (aggrFunc : AggrFunc)
    (procNum : ℕ) (state : ProcessState) : Option ℚ := do
  let processForks := f.forks procType
  let (procNum, processForks) ← match aggrFunc with
    | .one =>
      if 0 < procNum ∧ procNum ≤ processForks then some (procNum - 1, procNum) else none
    | .avg | .max | .min =>
      if 0 = procNum ∧ 0 < processForks then some (procNum, processForks) else none
  let (total, counter) ← if 1 ≥ c.cursor.count then some ((0, 0) : UInt32 × UInt32) else
    (List.range' procNum (processForks - procNum)).foldlM
      (aggregate c procType aggrFunc state (c.cursor.current maxHistory)) (0, 0)
  return percentage counter total

end Selfmon
