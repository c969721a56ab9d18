import Mathlib.Algebra.GroupWithZero.Nat
import Mathlib.Algebra.Order.BigOperators.Group.List
import Mathlib.Algebra.Order.Group.Nat
import Zabbix.Selfmon.Collector

/-!
# Utilisation of the processes

A run of the processes and of the collector gives every process a state at every tick.  The
counters follow the ticks spent in each state modulo 2^16, and as long as the samples that are
kept span fewer ticks than that, their differences are the numbers of ticks.
-/

namespace Selfmon

open SampleRing

/-! ### Runs -/

/-- A call of a process or of the collector, with the ticks it reads. -/
inductive Event
  | update (processType : Option ProcessType) (processNum : ℕ) (ticks : ℤ) (state : ProcessState)
  | collect (ticks : ℤ)

def Event.ticks : Event → ℤ
  | .update _ _ ticks _ => ticks
  | .collect ticks => ticks

/-- The calls of processes come from processes of the configuration. -/
def Event.Known (f : Forks) : Event → Prop
  | .update (some t) processNum _ _ => 1 ≤ processNum ∧ processNum ≤ f.forks t
  | _ => True

def step (c : Collector) : Event → Option Collector
  | .update processType processNum ticks state =>
    updateSelfmonCounter c processType processNum ticks state
  | .collect ticks => collectSelfmonStats c ticks

/-- The calls come from known processes, and the ticks never get smaller. -/
structure Proper (f : Forks) (start : ℤ) (es : List Event) : Prop where
  known : ∀ e ∈ es, e.Known f
  start_le : ∀ e ∈ es, start ≤ e.ticks
  ordered : es.Pairwise fun e e' => e.ticks ≤ e'.ticks

/-! ### Ticks in a state -/

/-- The state that a call has told of a process, up to some tick. -/
def Event.told (t : ProcessType) (num : ℕ) (tick : ℤ) : Event → Option ProcessState
  | .update processType processNum ticks state =>
    if processType = some t ∧ processNum = num ∧ ticks ≤ tick then some state else none
  | .collect _ => none

/-- The state of a process at a tick; processes are busy at first. -/
def stateAt (es : List Event) (t : ProcessType) (num : ℕ) (tick : ℤ) : ProcessState :=
  (es.filterMap (Event.told t num tick)).getLast?.getD .busy

/-- The number of ticks that a process spent in a state. -/
def spent (es : List Event) (t : ProcessType) (num : ℕ) (s : ProcessState) (a b : ℤ) : ℕ :=
  (List.range (b - a).toNat).countP fun k : ℕ => stateAt es t num (a + k) = s

section Spent

variable {es : List Event} {e : Event} {t : ProcessType} {num : ℕ} {s : ProcessState}
  {a b c tick : ℤ}

theorem stateAt_concat_of_none (h : e.told t num tick = none) :
  stateAt (es ++ [e]) t num tick = stateAt es t num tick
  := by
  rw [stateAt, List.filterMap_append, List.filterMap_cons_none h, List.filterMap_nil,
    List.append_nil, stateAt]

theorem stateAt_concat_of_some (h : e.told t num tick = some s) :
  stateAt (es ++ [e]) t num tick = s
  := by
  rw [stateAt, List.filterMap_append, List.filterMap_cons_some h, List.filterMap_nil,
    List.getLast?_concat, Option.getD_some]

/-- A call tells nothing of the ticks before it. -/
theorem told_of_lt (h : tick < e.ticks) :
  e.told t num tick = none
  := by
  cases e with
  | update processType processNum ticks state =>
    exact if_neg fun hle => absurd hle.2.2 (not_le.mpr h)
  | collect ticks => rfl

/-- A call tells nothing of another process. -/
theorem told_of_ne {processType : Option ProcessType} {processNum : ℕ} {ticks : ℤ}
    {state : ProcessState} (h : ¬ (processType = some t ∧ processNum = num)) :
  (Event.update processType processNum ticks state).told t num tick = none
  := if_neg fun hsame => h ⟨hsame.1, hsame.2.1⟩

/-- Later calls do not change the ticks before them. -/
theorem spent_concat (h : b ≤ e.ticks) :
  spent (es ++ [e]) t num s a b = spent es t num s a b
  := by
  refine List.countP_congr fun k hk => ?_
  have hlt : a + k < e.ticks := by
    rw [List.mem_range] at hk
    omega
  rw [stateAt_concat_of_none (told_of_lt hlt)]

theorem spent_add (hab : a ≤ b) (hbc : b ≤ c) :
  spent es t num s a b + spent es t num s b c = spent es t num s a c
  := by
  have hlength : (c - a).toNat = (b - a).toNat + (c - b).toNat := by omega
  rw [spent, spent, spent, hlength, List.range_add, List.countP_append, List.countP_map]
  congr 2
  funext k
  have htick : a + (((b - a).toNat + k : ℕ) : ℤ) = b + k := by omega
  rw [Function.comp_apply, htick]

/-- The ticks of a process that keeps its state. -/
theorem spent_of_const (h : ∀ tick, a ≤ tick → stateAt es t num tick = s) (s' : ProcessState) :
  spent es t num s' a b = if s' = s then (b - a).toNat else 0
  := by
  have hstate : ∀ k : ℕ, stateAt es t num (a + k) = s := fun k => h _ (by omega)
  by_cases hs : s' = s
  · rw [if_pos hs, spent, List.countP_eq_length.mpr, List.length_range]
    intro k _
    exact decide_eq_true ((hstate k).trans hs.symm)
  · rw [if_neg hs, spent, List.countP_eq_zero.mpr]
    intro k _ hk
    exact hs ((of_decide_eq_true hk).symm.trans (hstate k))

/-- Every tick is spent in one of the states. -/
theorem spent_idle_add_busy :
  spent es t num .idle a b + spent es t num .busy a b = (b - a).toNat
  := by
  have hbusy : ∀ s : ProcessState, s = .busy ↔ ¬ s = .idle := by
    intro s
    cases s <;> simp
  have hparts := List.length_eq_countP_add_countP
    (fun k : ℕ => decide (stateAt es t num (a + k) = .idle)) (l := List.range (b - a).toNat)
  rw [List.length_range] at hparts
  rw [hparts, spent, spent]
  simp only [hbusy, decide_eq_true_eq]

theorem spent_le :
  spent es t num s a b ≤ (b - a).toNat
  := List.countP_le_length.trans_eq List.length_range

end Spent

/-! ### The counters of a process -/

/-- The counters of a process are its ticks up to its last call, and its state is the one that it
has told then. -/
structure StatProcess.Follows (p : StatProcess) (es : List Event) (t : ProcessType) (num : ℕ)
    (start : ℤ) : Prop where
  start_le : start ≤ p.lastTicks
  called : p.lastTicks = start ∨ ∃ e ∈ es, p.lastTicks = e.ticks
  state : ∀ tick, p.lastTicks ≤ tick → stateAt es t num tick = p.lastState
  counter : ∀ s, p.counter s = UInt16.ofNat (spent es t num s start p.lastTicks)

section Follows

variable {p : StatProcess} {es : List Event} {e : Event} {t : ProcessType} {num : ℕ}
  {start ticks : ℤ}

theorem StatProcess.Follows.counterAt (h : p.Follows es t num start) (hticks : p.lastTicks ≤ ticks)
    (s : ProcessState) :
  p.counterAt ticks s = UInt16.ofNat (spent es t num s start ticks)
  := by
  have hzero : UInt16.ofNat 0 = 0 := rfl
  rw [← spent_add h.start_le hticks, spent_of_const h.state s, UInt16.ofNat_add, ← h.counter]
  unfold StatProcess.counterAt
  by_cases hs : s = p.lastState
  · subst hs
    rw [if_pos rfl]
    split_ifs with hlater
    · rw [Function.update_self]
    · rw [show ticks - p.lastTicks = 0 by omega, Int.toNat_zero, hzero, UInt16.add_zero]
  · rw [if_neg hs, hzero, UInt16.add_zero]
    split_ifs
    · rw [Function.update_of_ne hs]
    · rfl

theorem Proper.last_le {f : Forks} (hproper : Proper f start (es ++ [e]))
    (h : p.Follows es t num start) :
  p.lastTicks ≤ e.ticks
  := by
  obtain hstart | ⟨e', he', hticks⟩ := h.called
  · rw [hstart]
    exact hproper.start_le e (List.mem_append_right _ List.mem_cons_self)
  · rw [hticks]
    exact (List.pairwise_append.mp hproper.ordered).2.2 e' he' e List.mem_cons_self

/-- A call that tells nothing of the process. -/
theorem StatProcess.Follows.other (h : p.Follows es t num start) (hlast : p.lastTicks ≤ e.ticks)
    (he : ∀ tick, e.told t num tick = none) :
  p.Follows (es ++ [e]) t num start
  where
  start_le := h.start_le
  called := h.called.imp_right fun ⟨e', he', hticks⟩ => ⟨e', List.mem_append_left _ he', hticks⟩
  state tick htick := (stateAt_concat_of_none (he tick)).trans (h.state tick htick)
  counter s := by rw [spent_concat hlast, h.counter]

/-- A call of the process. -/
theorem StatProcess.Follows.update (h : p.Follows es t num start) (hlast : p.lastTicks ≤ ticks)
    (state : ProcessState) :
  StatProcess.Follows
    { p with counter := p.counterAt ticks, lastTicks := ticks, lastState := state }
    (es ++ [.update (some t) num ticks state]) t num start
  where
  start_le := h.start_le.trans hlast
  called := .inr ⟨_, List.mem_append_right _ List.mem_cons_self, rfl⟩
  state tick htick := stateAt_concat_of_some (if_pos ⟨rfl, rfl, htick⟩)
  counter s := by
    rw [spent_concat (le_refl ticks)]
    exact h.counterAt hlast s

end Follows

/-! ### The collector -/

/-- The ticks of a sample. -/
def Event.sampled : Event → Option ℤ
  | .update _ _ _ _ => none
  | .collect ticks => some ticks

def samples (es : List Event) : List ℤ := es.filterMap Event.sampled

/-- A sample has the ticks that a process has spent in each state before it. -/
def Sampled (es : List Event) (t : ProcessType) (num : ℕ) (start : ℤ) (slot : Counter)
    (ticks : ℤ) : Prop :=
  ∀ s, slot s = UInt16.ofNat (spent es t num s start ticks)

/-- The collector after a run. -/
structure Collector.Follows (c : Collector) (f : Forks) (es : List Event) (start : ℤ) : Prop where
  fits : c.cursor.Fits maxHistory (samples es).length
  forks : ∀ t, (c.process t).length = f.forks t
  process : ∀ t i p, (c.process t)[i]? = some p → p.Follows es t (i + 1) start ∧
    Holds (Sampled es t (i + 1) start) c.cursor p.hCounter (samples es)

section Collector

variable {c : Collector} {f : Forks} {es : List Event} {e : Event} {start ticks : ℤ}

@[simp]
theorem samples_concat_update (processType : Option ProcessType) (num : ℕ) (ticks : ℤ)
    (state : ProcessState) :
  samples (es ++ [.update processType num ticks state]) = samples es
  := by
  rw [samples, List.filterMap_append, List.filterMap_cons_none rfl, List.filterMap_nil,
    List.append_nil, samples]

@[simp]
theorem samples_concat_collect (ticks : ℤ) :
  samples (es ++ [.collect ticks]) = samples es ++ [ticks]
  := List.filterMap_append

theorem Proper.sample_le (hproper : Proper f start (es ++ [e])) (h : ticks ∈ samples es) :
  ticks ≤ e.ticks
  := by
  obtain ⟨e', he', hsome⟩ := List.mem_filterMap.mp h
  have hle := (List.pairwise_append.mp hproper.ordered).2.2 e' he' e List.mem_cons_self
  cases e' with
  | update processType num ticks' state => nomatch hsome
  | collect ticks' =>
    cases hsome
    exact hle

/-- What the slots tell of a process does not change with later calls. -/
theorem Proper.holds (hproper : Proper f start (es ++ [e])) {t : ProcessType} {num : ℕ}
    {cursor : Cursor} {slots : List Counter}
    (h : Holds (Sampled es t num start) cursor slots (samples es)) :
  Holds (Sampled (es ++ [e]) t num start) cursor slots (samples es)
  := h.mono fun slot ticks hmem hsampled s => by
    rw [spent_concat (hproper.sample_le hmem), hsampled s]

theorem Collector.follows_init (f : Forks) (start : ℤ) :
  (initSelfmonCollector f start).Follows f [] start
  where
  fits := fits_zero (by decide)
  forks t := List.length_replicate
  process t i p hp := by
    obtain rfl := List.eq_of_mem_replicate (List.mem_of_getElem? hp)
    refine ⟨⟨le_refl start, .inl rfl, fun tick _ => rfl, fun s => ?_⟩, holds_nil ?_⟩
    · rw [spent, Int.sub_self]
      rfl
    · rw [List.length_replicate]
      decide

theorem Collector.Follows.collect (hproper : Proper f start (es ++ [.collect ticks]))
    (h : c.Follows f es start) :
  ∃ c', collectSelfmonStats c ticks = some c' ∧ c'.Follows f (es ++ [.collect ticks]) start
  := by
  refine ⟨_, if_pos h.fits.index_lt, ?_, fun t => ?_, fun t i p hp => ?_⟩
  · rw [samples_concat_collect, List.length_append, List.length_singleton]
    exact h.fits.advance
  · exact (List.length_map _).trans (h.forks t)
  · rw [List.getElem?_map] at hp
    obtain ⟨q, hq, rfl⟩ := Option.map_eq_some_iff.mp hp
    obtain ⟨hq, hholds⟩ := h.process t i q hq
    have hlast : q.lastTicks ≤ ticks := hproper.last_le hq
    have hother := hq.other (e := .collect ticks) hlast fun tick => rfl
    refine ⟨⟨hother.start_le, hother.called, hother.state, hother.counter⟩, ?_⟩
    rw [samples_concat_collect]
    have hpush := (hproper.holds hholds).push (x := q.counterAt ticks) (v := ticks) fun s => by
      rw [spent_concat (le_refl ticks), hq.counterAt hlast s]
    rwa [q.size] at hpush

theorem Collector.Follows.update {t : ProcessType} {num : ℕ} {state : ProcessState}
    (hproper : Proper f start (es ++ [.update (some t) num ticks state]))
    (h : c.Follows f es start) :
  ∃ c', updateSelfmonCounter c (some t) num ticks state = some c' ∧
    c'.Follows f (es ++ [.update (some t) num ticks state]) start
  := by
  obtain ⟨hone, hnum⟩ : 1 ≤ num ∧ num ≤ f.forks t :=
    hproper.known _ (List.mem_append_right _ List.mem_cons_self)
  obtain ⟨q, hq⟩ : ∃ q, (c.process t)[num - 1]? = some q :=
    ⟨_, List.getElem?_eq_getElem (by rw [h.forks]; omega)⟩
  let q' : StatProcess :=
    { q with counter := q.counterAt ticks, lastTicks := ticks, lastState := state }
  refine ⟨{ c with process := Function.update c.process t ((c.process t).set (num - 1) q') }, ?_,
    ?_, fun t' => ?_, fun t' i p hp => ?_⟩
  · simp only [updateSelfmonCounter, if_neg (Nat.ne_of_gt hone), hq, Option.bind_eq_bind,
      Option.bind_some]
    rfl
  · rw [samples_concat_update]
    exact h.fits
  · obtain rfl | ht := eq_or_ne t' t
    · exact (congrArg List.length (Function.update_self t' _ _)).trans
        (List.length_set.trans (h.forks t'))
    · exact (congrArg List.length (Function.update_of_ne ht _ _)).trans (h.forks t')
  · rw [samples_concat_update]
    have hother : ∀ p', (c.process t')[i]? = some p' → ¬ (some t = some t' ∧ num = i + 1) →
        p'.Follows (es ++ [.update (some t) num ticks state]) t' (i + 1) start ∧
          Holds (Sampled (es ++ [.update (some t) num ticks state]) t' (i + 1) start) c.cursor
            p'.hCounter (samples es) := by
      intro p' hp' hdiffer
      obtain ⟨hfollows, hholds⟩ := h.process t' i p' hp'
      exact ⟨hfollows.other (hproper.last_le hfollows) fun tick => told_of_ne hdiffer,
        hproper.holds hholds⟩
    dsimp only at hp ⊢
    obtain rfl | ht := eq_or_ne t' t
    · rw [Function.update_self, List.getElem?_set] at hp
      split_ifs at hp with hi hin
      · obtain rfl : num = i + 1 := by omega
        obtain ⟨hfollows, hholds⟩ := h.process t' i q hq
        obtain rfl := Option.some.inj hp
        exact ⟨hfollows.update (hproper.last_le hfollows) state, hproper.holds hholds⟩
      · exact hother p hp fun hsame => hi (by omega)
    · rw [Function.update_of_ne ht] at hp
      exact hother p hp fun hsame => ht (Option.some.inj hsame.1).symm

/-- A call keeps the collector in step with the run. -/
theorem Collector.Follows.step (hproper : Proper f start (es ++ [e])) (h : c.Follows f es start) :
  ∃ c', step c e = some c' ∧ c'.Follows f (es ++ [e]) start
  := by
  cases e with
  | collect ticks => exact h.collect hproper
  | update processType num ticks state =>
    cases processType with
    | some t => exact h.update hproper
    | none =>
      refine ⟨c, rfl, ?_, h.forks, fun t i p hp => ?_⟩
      · rw [samples_concat_update]
        exact h.fits
      · obtain ⟨hp, hholds⟩ := h.process t i p hp
        rw [samples_concat_update]
        exact ⟨hp.other (hproper.last_le hp) fun tick => told_of_ne fun hsame => (nomatch hsame.1),
          hproper.holds hholds⟩

theorem Proper.of_concat (hproper : Proper f start (es ++ [e])) :
  Proper f start es
  where
  known e' he' := hproper.known e' (List.mem_append_left _ he')
  start_le e' he' := hproper.start_le e' (List.mem_append_left _ he')
  ordered := (List.pairwise_append.mp hproper.ordered).1

theorem Collector.follows_run (hproper : Proper f start es) :
  ∃ c, es.foldlM Selfmon.step (initSelfmonCollector f start) = some c ∧ c.Follows f es start
  := by
  induction es using List.reverseRecOn with
  | nil => exact ⟨_, rfl, Collector.follows_init f start⟩
  | append_singleton es e ih =>
    obtain ⟨c, hrun, hfollows⟩ := ih hproper.of_concat
    obtain ⟨c', hstep, hfollows'⟩ := hfollows.step hproper
    refine ⟨c', ?_, hfollows'⟩
    rw [List.foldlM_append, hrun]
    simpa using hstep

end Collector

/-! ### Statistics -/

/-- The samples that are kept. -/
def kept (es : List Event) : List ℤ := (samples es).drop ((samples es).length - maxHistory)

/-- The share of the ticks between two samples that some processes of a type have spent in a
state, in per cent. -/
def share (es : List Event) (t : ProcessType) (nums : List ℕ) (s : ProcessState)
    (oldest newest : ℤ) : ℚ :=
  ratio (nums.map fun num => spent es t num s oldest newest).sum
    (nums.map fun _ => (newest - oldest).toNat).sum

/-- The share between the oldest and the newest sample that are kept. -/
def utilisation (es : List Event) (t : ProcessType) (nums : List ℕ) (s : ProcessState) : ℚ :=
  match (kept es).head? with
  | none => 0
  | some oldest => ((kept es).getLast?.map (share es t nums s oldest)).getD 0

section Statistics

variable {c : Collector} {f : Forks} {es : List Event} {start oldest newest : ℤ}

/-- With fewer than two samples there is nothing to share. -/
theorem utilisation_of_lt_two (h : (samples es).length < 2) (t : ProcessType) (nums : List ℕ)
    (s : ProcessState) :
  utilisation es t nums s = 0
  := by
  have hkept : kept es = samples es := by
    rw [kept, show (samples es).length - maxHistory = 0 by unfold maxHistory; omega, List.drop_zero]
  unfold utilisation
  obtain hnone | hone : (samples es).length = 0 ∨ (samples es).length = 1 := by omega
  · rw [hkept, List.length_eq_zero_iff.mp hnone, List.head?_nil]
  · obtain ⟨tick, htick⟩ := List.length_eq_one_iff.mp hone
    have hnothing : share es t nums s tick tick = 0 := if_pos (by simp)
    rw [hkept, htick, List.head?_cons, List.getLast?_singleton]
    exact hnothing

theorem Proper.sorted_samples (hproper : Proper f start es) :
  (samples es).Pairwise (· ≤ ·)
  := by
  refine hproper.ordered.filterMap _ fun e e' hle ticks hticks ticks' hticks' => ?_
  cases e with
  | update processType num ticks' state => nomatch hticks
  | collect =>
    cases e' with
    | update processType num ticks' state => nomatch hticks'
    | collect =>
      cases hticks
      cases hticks'
      exact hle

theorem Proper.start_le_sample (hproper : Proper f start es) {ticks : ℤ}
    (h : ticks ∈ samples es) :
  start ≤ ticks
  := by
  obtain ⟨e, he, hsome⟩ := List.mem_filterMap.mp h
  have hle := hproper.start_le e he
  cases e with
  | update processType num ticks' state => nomatch hsome
  | collect ticks' =>
    cases hsome
    exact hle

theorem Proper.oldest_le_newest (hproper : Proper f start es)
    (holdest : (kept es).head? = some oldest) (hnewest : (kept es).getLast? = some newest) :
  oldest ≤ newest
  := by
  have hsorted : (kept es).Pairwise (· ≤ ·) :=
    hproper.sorted_samples.sublist (List.drop_sublist _ _)
  obtain ⟨before, hbefore⟩ := List.getLast?_eq_some_iff.mp hnewest
  rw [hbefore] at holdest hsorted
  cases before with
  | nil => exact le_of_eq (Option.some.inj holdest).symm
  | cons tick before =>
    obtain rfl := Option.some.inj holdest
    exact List.rel_of_pairwise_cons hsorted (List.mem_append_right _ List.mem_cons_self)

/-- The counters of a process in the oldest and the newest kept sample. -/
theorem Collector.Follows.slots (h : c.Follows f es start) (hcount : 0 < c.cursor.count)
    (holdest : (kept es).head? = some oldest) (hnewest : (kept es).getLast? = some newest)
    {t : ProcessType} {i : ℕ} {p : StatProcess} (hp : (c.process t)[i]? = some p) :
  ∃ first current, p.hCounter[c.cursor.first]? = some first ∧
    p.hCounter[c.cursor.current maxHistory]? = some current ∧
    Sampled es t (i + 1) start first oldest ∧ Sampled es t (i + 1) start current newest
  := by
  obtain ⟨-, hholds⟩ := h.process t i p hp
  have hfits := hholds.count_eq
  obtain ⟨first, v, hfirst, hv, hsampled⟩ := hholds.slot 0 hcount
  obtain ⟨current, w, hcurrent, hw, hsampled'⟩ := hholds.newest hcount
  rw [p.size] at hfirst hcurrent hfits
  have hzero : ringSlot maxHistory c.cursor.first 0 = c.cursor.first := if_pos h.fits.first_lt
  rw [hzero] at hfirst
  have hv' : (kept es).head? = some v := by
    rw [kept, List.head?_drop, ← hv]
    congr 1
    omega
  have hw' : (kept es).getLast? = some w := by
    rw [kept, List.getLast?_drop, if_neg ?_, hw]
    omega
  obtain rfl := Option.some.inj (hv'.symm.trans holdest)
  obtain rfl := Option.some.inj (hw'.symm.trans hnewest)
  exact ⟨first, current, hfirst, hcurrent, hsampled, hsampled'⟩

/-- What a turn of the loop adds, when fewer than 2^16 ticks lie between the samples. -/
theorem Collector.Follows.aggregate (hproper : Proper f start es) (h : c.Follows f es start)
    (hcount : 0 < c.cursor.count) (holdest : (kept es).head? = some oldest)
    (hnewest : (kept es).getLast? = some newest) (hspan : newest - oldest < 65536)
    {t : ProcessType} {i : ℕ} (hi : i < f.forks t) {aggrFunc : AggrFunc}
    (haggr : aggrFunc = .one ∨ aggrFunc = .avg) (s : ProcessState) (total counter : UInt32) :
  aggregate c t aggrFunc s (c.cursor.current maxHistory) (total, counter) i
    = some (total + UInt32.ofNat (newest - oldest).toNat,
        counter + UInt32.ofNat (spent es t (i + 1) s oldest newest))
  := by
  obtain ⟨p, hp⟩ : ∃ p, (c.process t)[i]? = some p :=
    ⟨_, List.getElem?_eq_getElem (by rwa [h.forks])⟩
  obtain ⟨first, current, hfirst, hcurrent, hsampled, hsampled'⟩ :=
    h.slots hcount holdest hnewest hp
  have hle := hproper.oldest_le_newest holdest hnewest
  have hstart : start ≤ oldest :=
    hproper.start_le_sample (List.mem_of_mem_drop (List.mem_of_head? holdest))
  have hgrowth : ∀ s, current s - first s
      = UInt16.ofNat (spent es t (i + 1) s oldest newest) := by
    intro s
    rw [hsampled s, hsampled' s, ← spent_add hstart hle, Nat.add_comm, UInt16.ofNat_add,
      UInt16.add_sub_cancel]
  have htotal : [ProcessState.idle, .busy].foldl
      (fun oneTotal s => oneTotal + (current s - first s)) 0
      = UInt16.ofNat (newest - oldest).toNat := by
    rw [← spent_idle_add_busy, UInt16.ofNat_add, ← hgrowth, ← hgrowth, List.foldl_cons,
      List.foldl_cons, List.foldl_nil, UInt16.zero_add]
  have hone : (UInt16.ofNat (newest - oldest).toNat).toUInt32
      = UInt32.ofNat (newest - oldest).toNat := UInt16.toUInt32_ofNat' (by change _ < 65536; omega)
  have hspent : spent es t (i + 1) s oldest newest ≤ (newest - oldest).toNat := spent_le
  have hpart : (UInt16.ofNat (spent es t (i + 1) s oldest newest)).toUInt32
      = UInt32.ofNat (spent es t (i + 1) s oldest newest) :=
    UInt16.toUInt32_ofNat' (by change _ < 65536; omega)
  simp only [Selfmon.aggregate, hp, hfirst, hcurrent, Option.bind_eq_bind, Option.bind_some, htotal]
  rw [hgrowth, hone, hpart]
  obtain rfl | rfl := haggr
  · rfl
  · rfl

/-- The loop over some processes of a type. -/
theorem Collector.Follows.aggregates (hproper : Proper f start es) (h : c.Follows f es start)
    (hcount : 0 < c.cursor.count) (holdest : (kept es).head? = some oldest)
    (hnewest : (kept es).getLast? = some newest) (hspan : newest - oldest < 65536)
    {t : ProcessType} {aggrFunc : AggrFunc} (haggr : aggrFunc = .one ∨ aggrFunc = .avg)
    (s : ProcessState) {i n : ℕ} (hi : i + n ≤ f.forks t) (total counter : UInt32) :
  (List.range' i n).foldlM (Selfmon.aggregate c t aggrFunc s (c.cursor.current maxHistory))
      (total, counter)
    = some (total + UInt32.ofNat ((List.range' (i + 1) n).map fun _ => (newest - oldest).toNat).sum,
        counter + UInt32.ofNat
          ((List.range' (i + 1) n).map fun num => spent es t num s oldest newest).sum)
  := by
  induction n generalizing i total counter with
  | zero =>
    have hzero : UInt32.ofNat 0 = 0 := rfl
    simp [hzero]
  | succ n ih =>
    rw [List.range'_succ, List.foldlM_cons,
      h.aggregate hproper hcount holdest hnewest hspan (by omega) haggr, Option.bind_eq_bind,
      Option.bind_some, ih (by omega), List.range'_succ, List.map_cons, List.map_cons,
      List.sum_cons, List.sum_cons, UInt32.ofNat_add, UInt32.ofNat_add, UInt32.add_assoc,
      UInt32.add_assoc]

/-- What is added up is what is asked for, when it fits the sums. -/
theorem percentage_ofNat {part whole : ℕ} (hpart : part < 2 ^ 32) (hwhole : whole < 2 ^ 32) :
  percentage (UInt32.ofNat part) (UInt32.ofNat whole) = ratio part whole
  := by
  have hzero : UInt32.ofNat whole = 0 ↔ whole = 0 := by
    rw [← UInt32.toNat_inj, UInt32.toNat_ofNat_of_lt' hwhole]
    rfl
  rw [percentage, ratio, UInt32.toNat_ofNat_of_lt' hpart, UInt32.toNat_ofNat_of_lt' hwhole]
  simp only [hzero]

/-- The loop ends with the share of the processes. -/
theorem Collector.Follows.percentage (hproper : Proper f start es) (h : c.Follows f es start)
    (hcount : 0 < c.cursor.count) (holdest : (kept es).head? = some oldest)
    (hnewest : (kept es).getLast? = some newest) (hspan : newest - oldest < 65536)
    {t : ProcessType} {aggrFunc : AggrFunc} (haggr : aggrFunc = .one ∨ aggrFunc = .avg)
    (s : ProcessState) {i n : ℕ} (hi : i + n ≤ f.forks t) :
  ∃ total counter, (List.range' i n).foldlM
      (Selfmon.aggregate c t aggrFunc s (c.cursor.current maxHistory)) (0, 0)
        = some (total, counter) ∧
    Selfmon.percentage counter total = utilisation es t (List.range' (i + 1) n) s
  := by
  refine ⟨_, _, h.aggregates hproper hcount holdest hnewest hspan haggr s hi 0 0, ?_⟩
  have hforks := f.le t
  have hwhole : ((List.range' (i + 1) n).map fun _ => (newest - oldest).toNat).sum < 2 ^ 32 := by
    rw [List.map_const', List.sum_replicate, List.length_range', Nat.nsmul_eq_mul]
    calc n * (newest - oldest).toNat
      _ ≤ 1000 * 65536 := Nat.mul_le_mul (by omega) (by omega)
      _ < 2 ^ 32 := by decide
  have hpart : ((List.range' (i + 1) n).map fun num => spent es t num s oldest newest).sum
      < 2 ^ 32 := lt_of_le_of_lt (List.sum_le_sum fun num _ => spent_le) hwhole
  unfold utilisation
  rw [UInt32.zero_add, UInt32.zero_add, percentage_ofNat hpart hwhole, holdest, hnewest]
  rfl

theorem Collector.Follows.statistics (hproper : Proper f start es) (h : c.Follows f es start)
    (hspan : ∀ oldest newest, (kept es).head? = some oldest → (kept es).getLast? = some newest →
      newest - oldest < 65536) {t : ProcessType} {aggrFunc : AggrFunc}
    (haggr : aggrFunc = .one ∨ aggrFunc = .avg) (s : ProcessState) {i n : ℕ}
    (hi : i + n ≤ f.forks t) :
  (1 ≥ c.cursor.count ∧ utilisation es t (List.range' (i + 1) n) s = 0) ∨
    ¬ 1 ≥ c.cursor.count ∧ ∃ total counter, (List.range' i n).foldlM
        (Selfmon.aggregate c t aggrFunc s (c.cursor.current maxHistory)) (0, 0)
          = some (total, counter) ∧
      Selfmon.percentage counter total = utilisation es t (List.range' (i + 1) n) s
  := by
  have hcount := h.fits.count_eq
  have hhistory : maxHistory = 60 := rfl
  by_cases hfew : (samples es).length < 2
  · exact .inl ⟨by omega, utilisation_of_lt_two hfew _ _ _⟩
  have hlength : 0 < (kept es).length := by
    rw [kept, List.length_drop]
    omega
  have hne : kept es ≠ [] := List.length_pos_iff.mp hlength
  have holdest := List.head?_eq_some_head hne
  have hnewest := List.getLast?_eq_some_getLast hne
  exact .inr ⟨by omega, h.percentage hproper (by omega) holdest hnewest
    (hspan _ _ holdest hnewest) haggr s hi⟩

/-- The statistics after any calls: the share of one process, and that of the processes of a type
together. -/
theorem getSelfmonStats_run (hproper : Proper f start es)
    (hspan : ∀ oldest newest, (kept es).head? = some oldest → (kept es).getLast? = some newest →
      newest - oldest < 65536) :
  ∃ c, es.foldlM step (initSelfmonCollector f start) = some c ∧
    ∀ (t : ProcessType) (s : ProcessState),
      (∀ num, 1 ≤ num → num ≤ f.forks t →
        getSelfmonStats f c t .one num s = some (utilisation es t [num] s)) ∧
      (0 < f.forks t →
        getSelfmonStats f c t .avg 0 s = some (utilisation es t (List.range' 1 (f.forks t)) s)) ∧
      ((samples es).length < 2 → ∀ nums, utilisation es t nums s = 0)
  := by
  obtain ⟨c, hrun, hfollows⟩ := Collector.follows_run hproper
  refine ⟨c, hrun, fun t s => ⟨fun num hone hnum => ?_, fun hforks => ?_, fun hfew nums =>
    utilisation_of_lt_two hfew t nums s⟩⟩
  · have hstats := hfollows.statistics hproper hspan (.inl rfl) s
      (show num - 1 + 1 ≤ f.forks t by omega)
    rw [Nat.sub_add_cancel hone, List.range'_one] at hstats
    simp only [getSelfmonStats, if_pos (show 0 < num ∧ num ≤ f.forks t from ⟨hone, hnum⟩),
      Option.bind_eq_bind, Option.bind_some, Nat.sub_sub_self hone]
    obtain ⟨hfew, hshare⟩ | ⟨hmore, total, counter, hloop, hshare⟩ := hstats
    · rw [if_pos hfew, hshare]
      rfl
    · rw [if_neg hmore, hloop, Option.bind_some, hshare]
      rfl
  · have hstats := hfollows.statistics hproper hspan (.inr rfl) s
      (show 0 + f.forks t ≤ f.forks t by omega)
    rw [Nat.zero_add] at hstats
    simp only [getSelfmonStats, true_and, if_pos hforks, Option.bind_eq_bind, Option.bind_some,
      Nat.sub_zero]
    obtain ⟨hfew, hshare⟩ | ⟨hmore, total, counter, hloop, hshare⟩ := hstats
    · rw [if_pos hfew, hshare]
      rfl
    · rw [if_neg hmore, hloop, Option.bind_some, hshare]
      rfl

end Statistics

/-- One process of each type. -/
def oneOfEach : Forks where
  forks _ := 1
  le _ := by decide

/-- A poller that is idle between two samples for half of the time. -/
def idlePoller : List Event :=
  [.update (some .poller) 1 10 .idle, .collect 20, .update (some .poller) 1 30 .busy, .collect 40]

theorem getSelfmonStats_idlePoller :
  ∃ c, idlePoller.foldlM step (initSelfmonCollector oneOfEach 0) = some c ∧
    getSelfmonStats oneOfEach c .poller .one 1 .idle
      = some (utilisation idlePoller .poller [1] .idle)
  := by
  have hproper : Proper oneOfEach 0 idlePoller := by
    refine ⟨?_, ?_, ?_⟩
    · simp [idlePoller, Event.Known, oneOfEach]
    · simp [idlePoller, Event.ticks]
    · simp [idlePoller, Event.ticks]
  have hspan : ∀ oldest newest, (kept idlePoller).head? = some oldest →
      (kept idlePoller).getLast? = some newest → newest - oldest < 65536 := by
    intro oldest newest holdest hnewest
    cases holdest
    cases hnewest
    decide
  obtain ⟨c, hrun, hstats⟩ := getSelfmonStats_run hproper hspan
  exact ⟨c, hrun, (hstats .poller .idle).1 1 le_rfl le_rfl⟩

end Selfmon
