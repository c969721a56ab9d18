import Mathlib.Algebra.BigOperators.Fin
import Mathlib.Data.List.ReduceOption
import Mathlib.Data.Rat.Defs
import Mathlib.Tactic.NormNum
import Zabbix.Library.Identifiers
import Zabbix.Library.SampleRing

/-!
# CPU utilisation

The collector of the agent keeps the counters of each CPU of the last 15 minutes, one sample a
second.  When a sample could not be taken its slot is marked as failed and keeps older counters.
The utilisation is the growth of a counter in a window, against that of all counters.
-/

namespace CpuStat

open SampleRing

/-- `ZBX_CPU_STATE_COUNT`. -/
abbrev stateCount : ℕ := 8

abbrev Counters := Fin stateCount → UInt64

/-- `MAX_COLLECTOR_HISTORY`. -/
def maxCollectorHistory : ℕ := 15 * 60 + 1

/-- `SYSINFO_RET_OK` and `SYSINFO_RET_FAIL`. -/
inductive SysinfoRet
  | ok
  | fail
deriving DecidableEq

/-- The entries of `h_counter` and `h_status` with one index. -/
structure Slot where
  counter : Counters
  status : SysinfoRet

/-- `ZBX_SINGLE_CPU_STAT_DATA`, where the cursor is `h_first` and `h_count`. -/
structure SingleCpuStat where
  slots : List Slot
  cursor : Cursor
  cpuNum : ℤ

/-- `update_cpu_counters`; a write behind the arrays has no result. -/
def updateCpuCounters (cpu : SingleCpuStat) (counter : Option Counters) :
    Option SingleCpuStat := do
  let index := cpu.cursor.index maxCollectorHistory
  let slot ← cpu.slots[index]?
  let slot := match counter with
    | some counter => ⟨counter, .ok⟩
    | none => { slot with status := .fail }
  return { cpu with
    slots := cpu.slots.set index slot
    cursor := cpu.cursor.advance maxCollectorHistory }

/-- `get_cpustat_by_num`. -/
def getCpustatByNum (cpus : List SingleCpuStat) (cpuNum : ℤ) : Option SingleCpuStat :=
  cpus.find? (·.cpuNum = cpuNum)

/-- The seconds of `ZBX_AVG1`, `ZBX_AVG5` and `ZBX_AVG15`. -/
def windowTime (mode : ℤ) : Option ℕ :=
  if mode = 0 then some 60 else if mode = 1 then some (5 * 60) else if mode = 2 then some (15 * 60)
  else none

/-- The result of a request, with a message where one is set. -/
inductive AgentResult
  | fail (msg : Option String)
  | ok (value : ℚ)

/-- Steps over failed samples; there is no result when an index is out of range or when the turns
are used up. -/
def skipFailed (slots : List Slot) : (turns idxBase : ℕ) → Option ℕ
  | 0, _ => none
  | turns + 1, idxBase => do
    let slot ← slots[idxBase]?
    if slot.status = .ok then return idxBase
    else skipFailed slots turns (if maxCollectorHistory = idxBase + 1 then 0 else idxBase + 1)

/-- The total of a loop over the states. -/
def totalOf (counter : Counters) : UInt64 :=
  (List.finRange stateCount).foldl (fun total i => total + counter i) 0

def percentage (counter total : UInt64) : ℚ :=
  if total = 0 then 0 else 100 * counter.toNat / total.toNat

/-- The part of `get_cpustat` under the lock. -/
def utilisation (cpu : SingleCpuStat) (state : Fin stateCount) (time : ℕ) :
    Option AgentResult := do
  let idxCurr := cpu.cursor.current maxCollectorHistory
  let curr ← cpu.slots[idxCurr]?
  if curr.status = .fail then return .fail none
  if cpu.cursor.count = 1 then
    return .ok (percentage (curr.counter state) (totalOf curr.counter))
  let back := min (cpu.cursor.count - 1) time
  let idxBase := if idxCurr < back then idxCurr + maxCollectorHistory - back else idxCurr - back
  -- after this many turns the loop would be at the same slot again
  let idxBase ← skipFailed cpu.slots maxCollectorHistory idxBase
  let base ← cpu.slots[idxBase]?
  return .ok (percentage (curr.counter state - base.counter state)
    (totalOf fun i => curr.counter i - base.counter i))

/-- `get_cpustat`, where there is no collector before it is started. -/
def getCpustat (collector : Option (List SingleCpuStat)) (cpuNum state mode : ℤ) :
    Option AgentResult :=
  if h : 0 > state ∨ state ≥ stateCount then some (.fail none)
  else match windowTime mode with
    | none => some (.fail none)
    | some time => match collector with
      | none => some (.fail (some "Collector is not started!"))
      | some cpus => match getCpustatByNum cpus cpuNum with
        | none => some (.fail none)
        | some cpu =>
          if cpu.cursor.count = 0 then some (.ok 0)
          else utilisation cpu ⟨state.toNat, by omega⟩ time

/-! ### The samples in the ring -/

/-- What a slot tells of a sample. -/
def Recorded (slot : Slot) : Option Counters → Prop
  | some counter => slot.status = .ok ∧ slot.counter = counter
  | none => slot.status = .fail

/-- The ring of a CPU has the newest samples. -/
structure SingleCpuStat.Holds (cpu : SingleCpuStat) (updates : List (Option Counters)) : Prop where
  ring : SampleRing.Holds Recorded cpu.cursor cpu.slots updates
  size : cpu.slots.length = maxCollectorHistory

variable {cpu : SingleCpuStat} {updates : List (Option Counters)}

theorem SingleCpuStat.Holds.update (h : cpu.Holds updates) (counter : Option Counters) :
  ∃ cpu', updateCpuCounters cpu counter = some cpu' ∧ cpu'.Holds (updates ++ [counter]) ∧
    cpu'.cpuNum = cpu.cpuNum
  := by
  have hindex := h.ring.toFits.index_lt
  rw [h.size] at hindex
  obtain ⟨slot, hslot⟩ : ∃ slot, cpu.slots[cpu.cursor.index maxCollectorHistory]? = some slot :=
    ⟨_, List.getElem?_eq_getElem (h.size ▸ hindex)⟩
  have hpush : ∀ slot', Recorded slot' counter → SingleCpuStat.Holds
      { cpu with
        slots := cpu.slots.set (cpu.cursor.index maxCollectorHistory) slot'
        cursor := cpu.cursor.advance maxCollectorHistory } (updates ++ [counter]) := by
    intro slot' hrecorded
    have hring := h.ring.push hrecorded
    rw [h.size] at hring
    exact ⟨hring, by rw [List.length_set, h.size]⟩
  unfold updateCpuCounters
  simp only [hslot, Option.bind_eq_bind, Option.bind_some]
  cases counter with
  | none => exact ⟨_, rfl, hpush { slot with status := .fail } rfl, rfl⟩
  | some counter => exact ⟨_, rfl, hpush ⟨counter, .ok⟩ ⟨rfl, rfl⟩, rfl⟩

/-- A CPU before its first sample, whatever stands in the arrays. -/
structure SingleCpuStat.Empty (cpu : SingleCpuStat) : Prop where
  cursor : cpu.cursor = ⟨0, 0⟩
  size : cpu.slots.length = maxCollectorHistory

theorem SingleCpuStat.Empty.run (h : cpu.Empty) (updates : List (Option Counters)) :
  ∃ cpu', updates.foldlM updateCpuCounters cpu = some cpu' ∧ cpu'.Holds updates ∧
    cpu'.cpuNum = cpu.cpuNum
  := by
  induction updates using List.reverseRecOn with
  | nil =>
    refine ⟨cpu, rfl, ⟨?_, h.size⟩, rfl⟩
    rw [h.cursor]
    exact holds_nil (by rw [h.size]; decide)
  | append_singleton updates counter ih =>
    obtain ⟨cpu', hrun, hholds, hnum⟩ := ih
    obtain ⟨cpu'', hupdate, hholds', hnum'⟩ := hholds.update counter
    refine ⟨cpu'', ?_, hholds', hnum'.trans hnum⟩
    rw [List.foldlM_append, hrun]
    simpa using hupdate

/-! ### The search for the base -/

/-- The base is the first sample that did not fail. -/
theorem SingleCpuStat.Holds.skipFailed (h : cpu.Holds updates) {rest : List (Option Counters)}
    {k turns : ℕ} (hk : k < cpu.cursor.count)
    (hrest : updates.drop (updates.length - cpu.cursor.count + k) = rest)
    (hok : rest.reduceOption ≠ []) (hturns : rest.length ≤ turns) :
  ∃ idxBase slot base,
    skipFailed cpu.slots turns (ringSlot maxCollectorHistory cpu.cursor.first k) = some idxBase ∧
    cpu.slots[idxBase]? = some slot ∧ rest.reduceOption.head? = some base ∧ slot.counter = base
  := by
  induction rest generalizing k turns with
  | nil => exact absurd rfl hok
  | cons w rest ih =>
    obtain ⟨turns, rfl⟩ := Nat.exists_eq_add_one_of_ne_zero (Nat.ne_zero_of_lt hturns)
    obtain ⟨slot, v, hslot, hv, hrecorded⟩ := h.ring.slot k hk
    rw [h.size] at hslot
    obtain rfl : v = w := by
      rw [← Nat.add_zero (_ + k), ← List.getElem?_drop, hrest] at hv
      exact (Option.some.inj hv).symm
    have hrest' : updates.drop (updates.length - cpu.cursor.count + (k + 1)) = rest := by
      rw [← Nat.add_assoc, ← List.drop_drop, hrest]
      rfl
    rw [CpuStat.skipFailed, hslot, Option.bind_eq_bind, Option.bind_some]
    cases v with
    | some counter =>
      rw [if_pos hrecorded.1, List.reduceOption_cons_of_some]
      exact ⟨_, slot, counter, rfl, hslot, rfl, hrecorded.2⟩
    | none =>
      rw [List.reduceOption_cons_of_none] at hok ⊢
      have hfailed : slot.status = .fail := hrecorded
      have hcount := h.ring.count_eq
      rw [h.size] at hcount
      have hnext : k + 1 < cpu.cursor.count := by
        have hne : rest.length ≠ 0 := fun hnil => hok (by rw [List.length_eq_zero_iff.mp hnil]; rfl)
        rw [← hrest', List.length_drop] at hne
        omega
      have hfirst : cpu.cursor.first < maxCollectorHistory := h.size ▸ h.ring.first_lt
      rw [if_neg (by rw [hfailed]; nofun), ringSlot_succ hfirst (by omega)]
      exact ih hnext hrest' hok (Nat.le_of_succ_le_succ hturns)

/-! ### The utilisation -/

/-- The samples in a window of some seconds before the newest one. -/
def window (updates : List (Option Counters)) (time : ℕ) : List (Option Counters) :=
  updates.drop (updates.length - (time + 1))

theorem mem_window {time : ℕ} {newest : Option Counters} (h : updates.getLast? = some newest) :
  newest ∈ window updates time
  := by
  have hlength : 0 < updates.length := List.length_pos_of_mem (List.mem_of_getLast? h)
  apply List.mem_of_getLast?
  rw [window, List.getLast?_drop, if_neg (by omega), h]

theorem SingleCpuStat.Holds.utilisation_eq (h : cpu.Holds updates) (hlength : 2 ≤ updates.length)
    {newest : Counters} (hnewest : updates.getLast? = some (some newest)) (state : Fin stateCount)
    {time : ℕ} (htime : time < maxCollectorHistory) :
  ∃ base, (window updates time).reduceOption.head? = some base ∧
    utilisation cpu state time = some (.ok (percentage (newest state - base state)
      (totalOf fun i => newest i - base i)))
  := by
  have hsize : maxCollectorHistory = 901 := rfl
  have hcount := h.ring.count_eq
  rw [h.size] at hcount
  have hpos : 0 < cpu.cursor.count := by omega
  obtain ⟨curr, v, hcurr, hlast, hrecorded⟩ := h.ring.newest hpos
  obtain rfl : v = some newest := Option.some.inj (hlast.symm.trans hnewest)
  obtain ⟨hstatus, rfl⟩ := hrecorded
  have hfirst : cpu.cursor.first < maxCollectorHistory := h.size ▸ h.ring.first_lt
  let back := min (cpu.cursor.count - 1) time
  have hback : (if cpu.cursor.current maxCollectorHistory < back
      then cpu.cursor.current maxCollectorHistory + maxCollectorHistory - back
      else cpu.cursor.current maxCollectorHistory - back)
      = ringSlot maxCollectorHistory cpu.cursor.first (cpu.cursor.count - 1 - back) := by
    rw [Cursor.current_eq hpos]
    exact ringSlot_back hfirst (by omega) (Nat.min_le_left _ _)
  have hwindow : updates.drop (updates.length - cpu.cursor.count + (cpu.cursor.count - 1 - back))
      = window updates time := by
    rw [window]
    congr 1
    omega
  have hok : (window updates time).reduceOption ≠ [] :=
    List.ne_nil_of_mem (List.reduceOption_mem_iff.mpr (mem_window hnewest))
  have hturns : (window updates time).length ≤ maxCollectorHistory := by
    rw [window, List.length_drop]
    omega
  obtain ⟨idxBase, slot, base, hskip, hbase, hhead, hcounter⟩ :=
    h.skipFailed (by omega) hwindow hok hturns
  refine ⟨base, hhead, ?_⟩
  rw [h.size] at hcurr
  simp only [utilisation, hcurr, Option.bind_eq_bind, Option.bind_some]
  rw [if_neg (by rw [hstatus]; nofun), if_neg (by omega), hback, hskip, Option.bind_some, hbase,
    Option.bind_some, hcounter]
  rfl

/-- A request fails when the newest sample did, and else has a value. -/
theorem SingleCpuStat.Holds.utilisation_ok_iff (h : cpu.Holds updates) (hne : updates ≠ [])
    (state : Fin stateCount) {time : ℕ} (htime : time < maxCollectorHistory) :
  (updates.getLast? = some none ∧ utilisation cpu state time = some (.fail none)) ∨
    ((∃ newest, updates.getLast? = some (some newest)) ∧
      ∃ value, utilisation cpu state time = some (.ok value))
  := by
  have hcount := h.ring.count_eq
  have hlength : 0 < updates.length := List.length_pos_iff.mpr hne
  rw [h.size] at hcount
  have hpos : 0 < cpu.cursor.count := by
    have hsize : maxCollectorHistory = 901 := rfl
    omega
  obtain ⟨curr, v, hcurr, hlast, hrecorded⟩ := h.ring.newest hpos
  cases v with
  | none =>
    refine .inl ⟨hlast, ?_⟩
    rw [h.size] at hcurr
    simp only [utilisation, hcurr, Option.bind_eq_bind, Option.bind_some]
    rw [if_pos (show curr.status = .fail from hrecorded)]
    rfl
  | some newest =>
    refine .inr ⟨⟨newest, hlast⟩, ?_⟩
    obtain hone | htwo := Nat.lt_or_ge updates.length 2
    · rw [h.size] at hcurr
      simp only [utilisation, hcurr, Option.bind_eq_bind, Option.bind_some]
      rw [if_neg (by rw [hrecorded.1]; nofun), if_pos (by omega)]
      exact ⟨_, rfl⟩
    · obtain ⟨base, -, hvalue⟩ := h.utilisation_eq htwo hlast state htime
      exact ⟨_, hvalue⟩

/-! ### Growth -/

/-- The counters of the samples that did not fail never get smaller. -/
def Nondecreasing (updates : List (Option Counters)) : Prop :=
  updates.reduceOption.Pairwise fun counter counter' => ∀ i, counter i ≤ counter' i

def growth (newest base : Counters) (i : Fin stateCount) : ℕ :=
  (newest i).toNat - (base i).toNat

def totalGrowth (newest base : Counters) : ℕ := ∑ i, growth newest base i

theorem toNat_totalOf (counter : Counters) :
  (totalOf counter).toNat = (∑ i, (counter i).toNat) % 2 ^ 64
  := by
  have hloop : ∀ (states : List (Fin stateCount)) (total : UInt64),
      (states.foldl (fun total i => total + counter i) total).toNat
        = (total.toNat + (states.map fun i => (counter i).toNat).sum) % 2 ^ 64 := by
    intro states
    induction states with
    | nil =>
      intro total
      rw [List.foldl_nil, List.map_nil, List.sum_nil, Nat.add_zero,
        Nat.mod_eq_of_lt total.toNat_lt]
    | cons i states ih =>
      intro total
      rw [List.foldl_cons, ih, UInt64.toNat_add, List.map_cons, List.sum_cons, ← Nat.add_assoc,
        Nat.mod_add_mod]
  rw [totalOf, hloop, Fin.sum_univ_def]
  simp

theorem percentage_growth {newest base : Counters} (hle : ∀ i, base i ≤ newest i)
    (state : Fin stateCount) :
  percentage (newest state - base state) (totalOf fun i => newest i - base i)
    = ratio (growth newest base state) (totalGrowth newest base % 2 ^ 64)
  := by
  have htotal : (totalOf fun i => newest i - base i).toNat = totalGrowth newest base % 2 ^ 64 := by
    rw [toNat_totalOf, totalGrowth]
    congr 1
    exact Finset.sum_congr rfl fun i _ => UInt64.toNat_sub_of_le _ _ (hle i)
  have hzero : (totalOf fun i => newest i - base i) = 0 ↔ totalGrowth newest base % 2 ^ 64 = 0 := by
    rw [← htotal]
    exact UInt64.toNat_inj.symm
  rw [percentage, htotal, UInt64.toNat_sub_of_le _ _ (hle state), ratio]
  simp only [hzero]
  rfl

/-- The base of a window does not exceed the newest sample. -/
theorem Nondecreasing.base_le (h : Nondecreasing updates) {time : ℕ} {newest base : Counters}
    (hnewest : updates.getLast? = some (some newest))
    (hbase : (window updates time).reduceOption.head? = some base) (i : Fin stateCount) :
  base i ≤ newest i
  := by
  have hmem : some base ∈ updates :=
    List.mem_of_mem_drop (List.reduceOption_mem_iff.mp (List.mem_of_head? hbase))
  obtain ⟨before, rfl⟩ := List.getLast?_eq_some_iff.mp hnewest
  rw [Nondecreasing, List.reduceOption_append, List.reduceOption_singleton,
    List.pairwise_append] at h
  obtain hbefore | hsame := List.mem_append.mp hmem
  · exact h.2.2 base (List.reduceOption_mem_iff.mpr hbefore) newest List.mem_cons_self i
  · rw [Option.some.inj (List.mem_singleton.mp hsame)]

/-! ### Requests -/

theorem windowTime_lt {mode : ℤ} {time : ℕ} (h : windowTime mode = some time) :
  time < maxCollectorHistory
  := by
  unfold windowTime at h
  have hsize : maxCollectorHistory = 901 := rfl
  split_ifs at h <;> cases h <;> omega

theorem getCpustat_eq {cpus : List SingleCpuStat} {cpuNum : ℤ}
    (hcpu : getCpustatByNum cpus cpuNum = some cpu) (state : Fin stateCount) {mode : ℤ} {time : ℕ}
    (hmode : windowTime mode = some time) :
  getCpustat (some cpus) cpuNum state.val mode
    = if cpu.cursor.count = 0 then some (.ok 0) else utilisation cpu state time
  := by
  have hstate : ¬ ((0 : ℤ) > (state.val : ℤ) ∨ (state.val : ℤ) ≥ stateCount) := by
    have hlt := state.isLt
    omega
  rw [getCpustat, dif_neg hstate, hmode]
  simp only [hcpu]
  rfl

/-- A request fails when the newest sample did, and else tells the growth of a counter from the
oldest good sample of the window, where the growth of all counters is summed in 64 bits. -/
structure Answers (updates : List (Option Counters)) (state : Fin stateCount) (time : ℕ)
    (result : AgentResult) : Prop where
  fail : (∃ msg, result = .fail msg) ↔ updates.getLast? = some none
  value : 2 ≤ updates.length → ∀ newest, updates.getLast? = some (some newest) →
    ∃ base, (window updates time).reduceOption.head? = some base ∧
      result = .ok (ratio (growth newest base state) (totalGrowth newest base % 2 ^ 64))

/-- The requests after any samples. -/
theorem getCpustat_run (hempty : cpu.Empty) (hgrow : Nondecreasing updates) :
  ∃ cpu', updates.foldlM updateCpuCounters cpu = some cpu' ∧
    ∀ cpus cpuNum, getCpustatByNum cpus cpuNum = some cpu' →
    ∀ (state : Fin stateCount) (mode : ℤ) (time : ℕ), windowTime mode = some time →
    ∃ result, getCpustat (some cpus) cpuNum state.val mode = some result ∧
      Answers updates state time result
  := by
  obtain ⟨cpu', hrun, hholds, -⟩ := hempty.run updates
  refine ⟨cpu', hrun, fun cpus cpuNum hcpu state mode time hmode => ?_⟩
  have htime := windowTime_lt hmode
  have hcount := hholds.ring.count_eq
  rw [hholds.size] at hcount
  rw [getCpustat_eq hcpu state hmode]
  obtain rfl | hne := eq_or_ne updates []
  · rw [if_pos (by simpa using hcount)]
    exact ⟨_, rfl, ⟨by simp, fun h => absurd h (by decide)⟩⟩
  have hlength : 0 < updates.length := List.length_pos_iff.mpr hne
  have hsize : maxCollectorHistory = 901 := rfl
  rw [if_neg (by omega)]
  obtain ⟨hlast, hfail⟩ | ⟨⟨newest, hlast⟩, value, hvalue⟩ :=
    hholds.utilisation_ok_iff hne state htime
  · refine ⟨_, hfail, ⟨by simp [hlast], fun _ newest hnewest => ?_⟩⟩
    rw [hlast] at hnewest
    nomatch hnewest
  · refine ⟨_, hvalue, ⟨by simp [hlast], fun htwo newest' hnewest => ?_⟩⟩
    obtain ⟨base, hbase, hutilisation⟩ := hholds.utilisation_eq htwo hnewest state htime
    refine ⟨base, hbase, ?_⟩
    rw [← percentage_growth (fun i => hgrow.base_le hnewest hbase i) state]
    exact Option.some.inj (hvalue.symm.trans hutilisation)

/-- The first CPU before its first sample. -/
def emptyCpu : SingleCpuStat where
  slots := List.replicate maxCollectorHistory ⟨fun _ => 0, .ok⟩
  cursor := ⟨0, 0⟩
  cpuNum := 0

theorem emptyCpu_empty :
  emptyCpu.Empty
  := ⟨rfl, List.length_replicate⟩

theorem getCpustat_run_at :
  ∃ cpu', [some fun _ => 1, none, some fun _ => 3].foldlM updateCpuCounters emptyCpu
      = some cpu' ∧
    ∀ cpus cpuNum, getCpustatByNum cpus cpuNum = some cpu' →
    ∀ (state : Fin stateCount) (mode : ℤ) (time : ℕ), windowTime mode = some time →
    ∃ result, getCpustat (some cpus) cpuNum state.val mode = some result ∧
      Answers [some fun _ => 1, none, some fun _ => 3] state time result
  := by
  refine getCpustat_run emptyCpu_empty ?_
  exact List.pairwise_pair.mpr fun i => by decide

/-- Two counters grow by half of their range. -/
def halfRange : Counters := fun i => if i.val < 2 then 0x8000000000000000 else 0

/-- The sum over the states wraps to 0, and so does the answer. -/
theorem getCpustat_halfRange :
  emptyCpu.Empty ∧ Nondecreasing [some fun _ => 0, some halfRange] ∧
    ∃ cpu', [some fun _ => 0, some halfRange].foldlM updateCpuCounters emptyCpu = some cpu' ∧
      getCpustat (some [cpu']) 0 0 0 = some (.ok 0) ∧
      (window [some fun _ => 0, some halfRange] 60).reduceOption.head? = some (fun _ => 0) ∧
      ratio (growth halfRange (fun _ => 0) 0) (totalGrowth halfRange fun _ => 0) = 50
  := by
  have hempty := emptyCpu_empty
  have hbase : (window [some fun _ => 0, some halfRange] 60).reduceOption.head?
      = some (fun _ => 0) := rfl
  obtain ⟨cpu', hrun, hholds, hnum⟩ := hempty.run [some fun _ => 0, some halfRange]
  have hcpu : getCpustatByNum [cpu'] 0 = some cpu' := List.find?_cons_of_pos (decide_eq_true hnum)
  have hcount : ¬ cpu'.cursor.count = 0 := by
    rw [hholds.ring.count_eq, hholds.size]
    decide
  obtain ⟨base, hbase', hvalue⟩ :=
    hholds.utilisation_eq (le_refl 2) rfl 0 (show 60 < maxCollectorHistory by decide)
  obtain rfl := Option.some.inj (hbase'.symm.trans hbase)
  refine ⟨hempty, ?_, cpu', hrun, ?_, hbase, ?_⟩
  · exact List.pairwise_pair.mpr fun i => UInt64.le_iff_toNat_le.mpr (Nat.zero_le _)
  · refine (getCpustat_eq hcpu 0 (rfl : windowTime 0 = some 60)).trans ?_
    rw [if_neg hcount, hvalue]
    rfl
  · have hpart : growth halfRange (fun _ => 0) 0 = 2 ^ 63 := rfl
    have hwhole : totalGrowth halfRange (fun _ => 0) = 2 ^ 64 := rfl
    rw [ratio, hpart, hwhole]
    norm_num

end CpuStat
