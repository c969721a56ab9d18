import Mathlib.Data.List.Chain
import Mathlib.Data.List.Nodup
import Mathlib.Tactic.Common
import Zabbix.Trigger.Process

/-!
# Trigger values are not reverted

While the configuration syncer copies only rows that are still current, the cached
trigger has the value, state and last change that the database has once the running
transaction is committed. Then a trigger event is queued only for a change of that
value, so that consecutive events have different values. A row that was selected before a
change and copied after it reverts the cached trigger, and the next evaluation repeats
the event.
-/

namespace Trigger

/-- What processing decides on and writes. -/
structure Status where
  value : TriggerValue
  state : TriggerState
  lastchange : ℤ
deriving DecidableEq, Repr

def TriggerRow.status (row : TriggerRow) : Status :=
  ⟨row.value, row.state, row.lastchange⟩

/-- The database once the running transaction is committed. -/
def Server.committed (s : Server) : Triggers :=
  match s.syncer with
  | .processed updates => updates.foldl executeUpdate s.db
  | _ => s.db

/-- The values of the trigger events of a trigger, in the order they were queued. -/
def eventValues (triggerid : UInt64) (events : List Event) : List TriggerValue :=
  events.filterMap fun event =>
    match event.source with
    | .triggers value => if event.objectid = triggerid then some value else none
    | .internal _ => none

/-- Consecutive trigger events of the trigger have different values. -/
def EventsAlternate (triggerid : UInt64) (s : Server) : Prop :=
  (eventValues triggerid s.events).IsChain (· ≠ ·)

/-- When all commits are done, the cached trigger is as in the database. -/
def CacheAgrees (triggerid : UInt64) (s : Server) : Prop :=
  (∀ updates, s.syncer ≠ .processed updates) → ∀ cached ∈ s.cache triggerid,
    ∀ row ∈ s.db triggerid, cached.status = row.status

/-- The condition on a step: evaluations have a time, and a copied row is current. -/
def Meets (triggerid : UInt64) (s : Server) : Action → Prop
  | .evaluate evaluations =>
    ∀ evaluation ∈ evaluations, evaluation.triggerid = triggerid → evaluation.timespec.sec ≠ 0
  | .syncTriggers =>
    ∀ rows ∈ s.selected, ∀ selected ∈ rows, selected.triggerid = triggerid →
      ∀ row ∈ s.committed triggerid, selected.status = row.status
  | _ => True

/-! ### Tables -/

/-- Rows are found under their own id. -/
def Keyed (table : Triggers) : Prop :=
  ∀ triggerid, ∀ row ∈ table triggerid, row.triggerid = triggerid

theorem executeUpdate_of_ne {table : Triggers} {update : Update} {triggerid : UInt64}
    (h : update.triggerid ≠ triggerid) :
  executeUpdate table update triggerid = table triggerid
  := Function.update_of_ne h.symm _ _

theorem executeUpdate_self (table : Triggers) (update : Update) :
  executeUpdate table update update.triggerid = (table update.triggerid).map update.apply
  := Function.update_self _ _ _

theorem Keyed.executeUpdate {table : Triggers} (h : Keyed table) (update : Update) :
  Keyed (executeUpdate table update)
  := by
  intro triggerid row hrow
  by_cases heq : update.triggerid = triggerid
  · subst heq
    rw [executeUpdate_self] at hrow
    obtain ⟨row', hrow', rfl⟩ := Option.map_eq_some_iff.mp hrow
    exact h _ row' hrow'
  · rw [executeUpdate_of_ne heq] at hrow
    exact h triggerid row hrow

theorem Keyed.executeUpdates {table : Triggers} (h : Keyed table) (updates : List Update) :
  Keyed (updates.foldl Trigger.executeUpdate table)
  := by
  induction updates generalizing table with
  | nil => exact h
  | cons update updates ih => exact ih (h.executeUpdate update)

theorem setTriggerValue_of_ne {cache : Triggers} {triggerid other : UInt64}
    {value : TriggerValue} {state : TriggerState} {error : String} {lastchange : Option ℤ}
    (h : other ≠ triggerid) :
  setTriggerValue cache other value state error lastchange triggerid = cache triggerid
  := by
  unfold setTriggerValue
  cases cache other with
  | none => rfl
  | some trigger => exact Function.update_of_ne h.symm _ _

/-- The cached trigger after its value has been set. -/
theorem setTriggerValue_self {cache : Triggers} {triggerid : UInt64}
    {value : TriggerValue} {state : TriggerState} {error : String} {lastchange : Option ℤ}
    {cached : TriggerRow}
    (h : cached ∈ setTriggerValue cache triggerid value state error lastchange triggerid) :
  ∃ before ∈ cache triggerid, cached =
    { before with
      error := error
      value := value
      state := state
      lastchange := lastchange.getD before.lastchange }
  := by
  unfold setTriggerValue at h
  cases hcache : cache triggerid with
  | none =>
    rw [hcache] at h
    dsimp only at h
    rw [hcache] at h
    simp at h
  | some before =>
    rw [hcache] at h
    dsimp only at h
    rw [Function.update_self, Option.mem_some_iff] at h
    exact ⟨before, rfl, h.symm⟩

theorem Keyed.setTriggerValue {cache : Triggers} (h : Keyed cache) (triggerid : UInt64)
    (value : TriggerValue) (state : TriggerState) (error : String) (lastchange : Option ℤ) :
  Keyed (setTriggerValue cache triggerid value state error lastchange)
  := by
  intro other row hrow
  by_cases heq : triggerid = other
  · subst heq
    obtain ⟨before, hbefore, rfl⟩ := setTriggerValue_self hrow
    exact h _ before hbefore
  · rw [setTriggerValue_of_ne heq] at hrow
    exact h other row hrow

theorem eventValues_append (triggerid : UInt64) (events events' : List Event) :
  eventValues triggerid (events ++ events')
    = eventValues triggerid events ++ eventValues triggerid events'
  := List.filterMap_append

theorem eventValues_eq_nil {triggerid : UInt64} {events : List Event}
    (h : ∀ event ∈ events, event.objectid ≠ triggerid) :
  eventValues triggerid events = []
  := by
  apply List.filterMap_eq_nil_iff.mpr
  intro event hevent
  split
  · exact if_neg (h event hevent)
  · rfl

/-! ### Processing triggers -/

variable {triggerid : UInt64} {trigdeps : UInt64 → List UInt64}

/-- What holds of a trigger while the triggers are processed: the row that the updates so
far make is normal, has the status of the cached trigger, and is where the events so far
have left it. -/
structure Tracks (triggerid : UInt64) (cache updated : Triggers) (events : List Event)
    (row : TriggerRow) : Prop where
  row_mem : row ∈ updated triggerid
  type : row.type = .normal
  cached : ∀ cached ∈ cache triggerid, cached.status = row.status ∧ cached.type = .normal
  chain : (eventValues triggerid events).IsChain (· ≠ ·)
  last : ∀ value ∈ (eventValues triggerid events).getLast?,
    value = row.value ∧ row.lastchange ≠ 0

/-- The events that processing a trigger queues. -/
def newEvents (trigger : DcTrigger) (touched changed : Bool) : List Event :=
  (if touched then [trigger.event (.triggers trigger.nextValue)] else [])
    ++ (if changed then [trigger.event (.internal trigger.newState)] else [])

theorem objectid_of_mem_newEvents {trigger : DcTrigger} {touched changed : Bool} {event : Event}
    (h : event ∈ newEvents trigger touched changed) :
  event.objectid = trigger.triggerid
  := by
  rcases List.mem_append.mp h with h | h
  all_goals
    split at h
    · rw [List.mem_singleton.mp h]
      rfl
    · simp at h

theorem eventValues_newEvents_of_ne {trigger : DcTrigger} {touched changed : Bool}
    (h : trigger.triggerid ≠ triggerid) :
  eventValues triggerid (newEvents trigger touched changed) = []
  := by
  apply eventValues_eq_nil
  intro event hevent
  rw [objectid_of_mem_newEvents hevent]
  exact h

/-- Another trigger is processed. -/
theorem processTrigger_other (trigdeps : UInt64 → List UInt64) (progress : Progress)
    {trigger : DcTrigger} (table : Triggers)
    (h : trigger.triggerid ≠ triggerid) :
  (processTrigger trigdeps progress trigger).cache triggerid = progress.cache triggerid ∧
    (processTrigger trigdeps progress trigger).updates.foldl executeUpdate table triggerid
      = progress.updates.foldl executeUpdate table triggerid ∧
    eventValues triggerid (processTrigger trigdeps progress trigger).events
      = eventValues triggerid progress.events
  := by
  unfold processTrigger
  split
  · split
    · dsimp only
      refine ⟨setTriggerValue_of_ne h, ?_, ?_⟩
      · rw [List.foldl_append, List.foldl_cons, List.foldl_nil]
        exact executeUpdate_of_ne h
      · rw [List.append_assoc, eventValues_append, ← newEvents, eventValues_newEvents_of_ne h,
          List.append_nil]
    · exact ⟨rfl, rfl, rfl⟩
  · exact ⟨rfl, rfl, rfl⟩

theorem checkTriggerDependencies_of_nil (cache : Triggers) (h : trigdeps triggerid = []) :
  checkTriggerDependencies cache trigdeps triggerid = true
  := by
  simp [checkTriggerDependencies, checkTriggerDependenciesRec, h]

theorem eventValues_newEvents (trigger : DcTrigger) (touched changed : Bool) :
  eventValues trigger.triggerid (newEvents trigger touched changed)
    = if touched then [trigger.nextValue] else []
  := by
  cases touched <;> cases changed <;> simp [newEvents, eventValues, DcTrigger.event]

/-- The update of a trigger whose copy has the status of its row. -/
theorem status_apply {trigger : DcTrigger} {row : TriggerRow}
    (hstatus : trigger.status = row.status) (error : Option String) :
  (Update.apply ⟨trigger.triggerid,
      if trigger.valueChanged then some trigger.timespec.sec else none,
      if trigger.valueChanged then some trigger.nextValue else none,
      if trigger.stateChanged then some trigger.newState else none, error⟩ row).status
    = ⟨trigger.nextValue, trigger.newState,
        if trigger.valueChanged then trigger.timespec.sec else row.lastchange⟩
  := by
  have hvalue : trigger.value = row.value := congrArg Status.value hstatus
  have hstate : trigger.state = row.state := congrArg Status.state hstatus
  unfold TriggerRow.status Update.apply
  congr 1
  · cases hchanged : trigger.valueChanged with
    | true => rfl
    | false =>
      simp only [DcTrigger.valueChanged, decide_eq_false_iff_not, not_or, not_not] at hchanged
      simp [← hvalue, hchanged.1]
  · cases hchanged : trigger.stateChanged with
    | true => rfl
    | false =>
      simp only [DcTrigger.stateChanged, decide_eq_false_iff_not, not_not] at hchanged
      simp [← hstate, hchanged]
  · cases trigger.valueChanged <;> rfl

/-- The trigger event of a changed value is for another value than the last one. -/
theorem Tracks.chain_append {trigger : DcTrigger} {cache updated : Triggers}
    {events : List Event} {row : TriggerRow}
    (htracks : Tracks trigger.triggerid cache updated events row)
    (hstatus : trigger.status = row.status) :
  (eventValues trigger.triggerid events
    ++ if trigger.valueChanged then [trigger.nextValue] else []).IsChain (· ≠ ·)
  := by
  have hvalue : trigger.value = row.value := congrArg Status.value hstatus
  have hlastchange : trigger.lastchange = row.lastchange := congrArg Status.lastchange hstatus
  cases hchanged : trigger.valueChanged with
  | false =>
    simp only [Bool.false_eq_true, if_false, List.append_nil]
    exact htracks.chain
  | true =>
    simp only [if_true]
    rw [List.isChain_append]
    refine ⟨htracks.chain, List.IsChain.singleton _, ?_⟩
    intro value hlast next hnext
    rw [List.head?_cons, Option.mem_some_iff] at hnext
    obtain ⟨rfl, hnonzero⟩ := htracks.last value hlast
    rw [← hnext, ← hvalue]
    simp only [DcTrigger.valueChanged, decide_eq_true_eq] at hchanged
    rcases hchanged with hne | ⟨hzero, -⟩
    · exact hne
    · rw [hlastchange] at hzero
      exact absurd hzero hnonzero

/-- The last trigger event has the new value, and there is a time of its change. -/
theorem Tracks.last_append {trigger : DcTrigger} {cache updated : Triggers}
    {events : List Event} {row : TriggerRow}
    (htracks : Tracks trigger.triggerid cache updated events row)
    (hstatus : trigger.status = row.status) (htime : trigger.timespec.sec ≠ 0) :
  ∀ value ∈ (eventValues trigger.triggerid events
      ++ if trigger.valueChanged then [trigger.nextValue] else []).getLast?,
    value = trigger.nextValue ∧
      (if trigger.valueChanged then trigger.timespec.sec else row.lastchange) ≠ 0
  := by
  have hvalue : trigger.value = row.value := congrArg Status.value hstatus
  cases hchanged : trigger.valueChanged with
  | false =>
    simp only [Bool.false_eq_true, if_false, List.append_nil]
    intro value hlast
    obtain ⟨rfl, hnonzero⟩ := htracks.last value hlast
    simp only [DcTrigger.valueChanged, decide_eq_false_iff_not, not_or, not_not] at hchanged
    exact ⟨by rw [← hvalue, hchanged.1], hnonzero⟩
  | true =>
    simp only [if_true, List.getLast?_concat]
    intro value hlast
    rw [Option.mem_some_iff] at hlast
    exact ⟨hlast.symm, htime⟩

/-- A trigger whose copy has the status of its row is processed. -/
theorem processTrigger_own {progress : Progress} {trigger : DcTrigger} {table : Triggers}
    {row : TriggerRow} (hdeps : trigdeps trigger.triggerid = [])
    (htracks : Tracks trigger.triggerid progress.cache
      (progress.updates.foldl executeUpdate table) progress.events row)
    (hstatus : trigger.status = row.status) (htype : trigger.type = .normal)
    (htime : trigger.timespec.sec ≠ 0) :
  ∃ row', Tracks trigger.triggerid (processTrigger trigdeps progress trigger).cache
    ((processTrigger trigdeps progress trigger).updates.foldl executeUpdate table)
    (processTrigger trigdeps progress trigger).events row'
  := by
  have hmultiple : trigger.multipleProblem = false := by
    simp [DcTrigger.multipleProblem, htype]
  unfold processTrigger
  split
  · rw [if_pos (checkTriggerDependencies_of_nil _ hdeps)]
    dsimp only
    rw [hmultiple, Bool.or_false]
    -- the update and the cached trigger agree in value, state and last change
    have hrow : ∀ update : Update, update.triggerid = trigger.triggerid →
        update.apply row ∈ (progress.updates ++ [update]).foldl executeUpdate table
          trigger.triggerid := by
      intro update htriggerid
      rw [List.foldl_append, List.foldl_cons, List.foldl_nil, ← htriggerid, executeUpdate_self,
        htriggerid]
      exact Option.map_eq_some_iff.mpr ⟨row, htracks.row_mem, rfl⟩
    have hstatus' := fun error => status_apply hstatus error
    refine ⟨_, hrow _ rfl, htracks.type, ?_, ?_, ?_⟩
    · intro cached hcached
      obtain ⟨before, hbefore, rfl⟩ := setTriggerValue_self hcached
      obtain ⟨hsame, hnormal⟩ := htracks.cached before hbefore
      refine ⟨?_, hnormal⟩
      rw [hstatus']
      have hbeforelast : before.lastchange = row.lastchange := congrArg Status.lastchange hsame
      unfold TriggerRow.status
      dsimp only
      congr 1
      cases trigger.valueChanged with
      | true => rfl
      | false => exact hbeforelast
    · rw [List.append_assoc, eventValues_append, ← newEvents, eventValues_newEvents]
      exact htracks.chain_append hstatus
    · rw [List.append_assoc, eventValues_append, ← newEvents, eventValues_newEvents]
      intro value hlast
      obtain ⟨hnext, hnonzero⟩ := htracks.last_append hstatus htime value hlast
      exact ⟨hnext.trans (congrArg Status.value (hstatus' _)).symm,
        fun hzero => hnonzero ((congrArg Status.lastchange (hstatus' _)).symm.trans hzero)⟩
  · exact ⟨row, htracks⟩

theorem processTrigger_keyed {progress : Progress} {trigger : DcTrigger}
    (h : Keyed progress.cache) :
  Keyed (processTrigger trigdeps progress trigger).cache
  := by
  unfold processTrigger
  split
  · split
    · exact h.setTriggerValue _ _ _ _ _
    · exact h
  · exact h

theorem processTriggers_keyed {progress : Progress} {triggers : List DcTrigger}
    (h : Keyed progress.cache) :
  Keyed (processTriggers trigdeps progress triggers).cache
  := by
  unfold processTriggers
  induction triggers generalizing progress with
  | nil => exact h
  | cons trigger triggers ih => exact ih (processTrigger_keyed h)

/-- Copies of other triggers are processed. -/
theorem processTriggers_others {progress : Progress} {triggers : List DcTrigger}
    {table : Triggers} {row : TriggerRow}
    (hothers : ∀ trigger ∈ triggers, trigger.triggerid ≠ triggerid)
    (htracks : Tracks triggerid progress.cache
      (progress.updates.foldl executeUpdate table) progress.events row) :
  Tracks triggerid (processTriggers trigdeps progress triggers).cache
    ((processTriggers trigdeps progress triggers).updates.foldl executeUpdate table)
    (processTriggers trigdeps progress triggers).events row
  := by
  unfold processTriggers
  induction triggers generalizing progress with
  | nil => exact htracks
  | cons trigger triggers ih =>
    obtain ⟨hcache, hupdated, hevents⟩ := processTrigger_other trigdeps progress table
      (hothers trigger List.mem_cons_self)
    apply ih (fun other hother => hothers other (List.mem_cons_of_mem _ hother))
    refine ⟨?_, htracks.type, ?_, ?_, ?_⟩
    · rw [hupdated]
      exact htracks.row_mem
    · rw [hcache]
      exact htracks.cached
    · rw [hevents]
      exact htracks.chain
    · rw [hevents]
      exact htracks.last

/-- The copies of a list of different triggers are processed. -/
theorem processTriggers_tracks (progress : Progress) {triggers : List DcTrigger}
    (table : Triggers) {row : TriggerRow} (hdeps : trigdeps triggerid = [])
    (hnodup : (triggers.map fun trigger => trigger.triggerid).Nodup)
    (hcopies : ∀ trigger ∈ triggers, trigger.triggerid = triggerid →
      trigger.status = row.status ∧ trigger.type = .normal ∧ trigger.timespec.sec ≠ 0)
    (htracks : Tracks triggerid progress.cache
      (progress.updates.foldl executeUpdate table) progress.events row) :
  ∃ row', Tracks triggerid (processTriggers trigdeps progress triggers).cache
    ((processTriggers trigdeps progress triggers).updates.foldl executeUpdate table)
    (processTriggers trigdeps progress triggers).events row'
  := by
  by_cases hown : ∃ trigger ∈ triggers, trigger.triggerid = triggerid
  · obtain ⟨trigger, hmem, rfl⟩ := hown
    obtain ⟨before, behind, rfl⟩ := List.append_of_mem hmem
    rw [List.map_append, List.map_cons, List.nodup_append, List.nodup_cons] at hnodup
    obtain ⟨-, ⟨hbehind, -⟩, hbefore⟩ := hnodup
    obtain ⟨hstatus, htype, htime⟩ := hcopies trigger (by simp) rfl
    have htracks₁ : Tracks trigger.triggerid (processTriggers trigdeps progress before).cache
        ((processTriggers trigdeps progress before).updates.foldl executeUpdate table)
        (processTriggers trigdeps progress before).events row := by
      apply processTriggers_others _ htracks
      intro other hother
      exact hbefore _ (List.mem_map_of_mem hother) _ List.mem_cons_self
    obtain ⟨row', htracks₂⟩ := processTrigger_own hdeps htracks₁ hstatus htype htime
    use row'
    have hsplit : processTriggers trigdeps progress (before ++ trigger :: behind)
        = processTriggers trigdeps
          (processTrigger trigdeps (processTriggers trigdeps progress before) trigger) behind := by
      unfold processTriggers
      rw [List.foldl_append, List.foldl_cons]
    rw [hsplit]
    apply processTriggers_others _ htracks₂
    intro other hother heq
    apply hbehind
    rw [← heq]
    exact List.mem_map_of_mem hother
  · use row
    apply processTriggers_others _ htracks
    intro other hother heq
    exact hown ⟨other, hother, heq⟩

/-! ### Copying rows -/

theorem foldl_update_mem (cache : Triggers) (rows : List TriggerRow) {cached : TriggerRow}
    (h : cached ∈ rows.foldl (fun (cache : Triggers) row =>
      Function.update cache row.triggerid (some row)) cache triggerid) :
  cached ∈ cache triggerid ∧ triggerid ∉ rows.map (·.triggerid) ∨
    cached ∈ rows ∧ cached.triggerid = triggerid
  := by
  induction rows using List.reverseRecOn with
  | nil => exact Or.inl ⟨h, by simp⟩
  | append_singleton rows row ih =>
    rw [List.foldl_append, List.foldl_cons, List.foldl_nil] at h
    by_cases heq : row.triggerid = triggerid
    · subst heq
      rw [Function.update_self, Option.mem_some_iff] at h
      exact Or.inr ⟨by simp [h], by rw [h]⟩
    · rw [Function.update_of_ne (Ne.symm heq)] at h
      rcases ih h with ⟨hcached, hnot⟩ | ⟨hmem, hid⟩
      · left
        refine ⟨hcached, ?_⟩
        rw [List.map_append, List.mem_append]
        rintro (hid | hid)
        · exact hnot hid
        · rw [List.map_singleton, List.mem_singleton] at hid
          exact heq hid.symm
      · exact Or.inr ⟨List.mem_append_left _ hmem, hid⟩

/-- After the copy every cached trigger is one of the rows. -/
theorem syncTriggers_mem {cache : Triggers} {rows : List TriggerRow} {cached : TriggerRow}
    (h : cached ∈ syncTriggers cache rows triggerid) :
  cached ∈ rows ∧ cached.triggerid = triggerid
  := by
  unfold syncTriggers at h
  split at h
  · rename_i hid
    rcases foldl_update_mem cache rows h with ⟨-, hnot⟩ | hrow
    · exact absurd hid hnot
    · exact hrow
  · simp at h

/-! ### Runs -/

/-- The invariant of the runs that meet the condition. -/
structure Consistent (triggerid : UInt64) (s : Server) : Prop where
  keyedDb : Keyed s.db
  keyedCache : Keyed s.cache
  deps : s.trigdeps triggerid = []
  tracks : ∃ row, Tracks triggerid s.cache s.committed s.events row ∧
    ∀ triggers, s.syncer = .evaluated triggers →
      (triggers.map fun trigger => trigger.triggerid).Nodup ∧
      ∀ trigger ∈ triggers, trigger.triggerid = triggerid →
        trigger.status = row.status ∧ trigger.type = .normal ∧ trigger.timespec.sec ≠ 0
  type : ∀ row ∈ s.db triggerid, row.type = .normal
  selected : ∀ rows ∈ s.selected, ∀ selected ∈ rows, selected.triggerid = triggerid →
    selected.type = .normal

/-- The copies are keyed by the evaluated triggers. -/
theorem getTriggers_mem {cache : Triggers} (hkeyed : Keyed cache) {evaluations : List Evaluation}
    {trigger : DcTrigger} (h : trigger ∈ getTriggers cache evaluations) :
  ∃ evaluation ∈ evaluations, trigger.triggerid = evaluation.triggerid ∧
    trigger.timespec = evaluation.timespec ∧ trigger.toTriggerRow ∈ cache evaluation.triggerid
  := by
  obtain ⟨evaluation, hmem, htrigger⟩ := List.mem_filterMap.mp h
  obtain ⟨row, hrow, rfl⟩ := Option.map_eq_some_iff.mp htrigger
  exact ⟨evaluation, hmem, hkeyed _ row hrow, rfl, hrow⟩

theorem getTriggers_nodup {cache : Triggers} (hkeyed : Keyed cache)
    {evaluations : List Evaluation} (h : (evaluations.map (·.triggerid)).Nodup) :
  ((getTriggers cache evaluations).map fun trigger => trigger.triggerid).Nodup
  := by
  induction evaluations with
  | nil => simp [getTriggers]
  | cons evaluation evaluations ih =>
    rw [List.map_cons, List.nodup_cons] at h
    have ih := ih h.2
    unfold getTriggers at ih ⊢
    cases hcache : cache evaluation.triggerid with
    | none =>
      rw [List.filterMap_cons_none (by rw [hcache]; rfl)]
      exact ih
    | some row =>
      rw [List.filterMap_cons_some (by rw [hcache]; rfl), List.map_cons, List.nodup_cons]
      refine ⟨?_, ih⟩
      intro hmem
      obtain ⟨trigger, htrigger, hid⟩ := List.mem_map.mp hmem
      obtain ⟨other, hother, hid', -⟩ := getTriggers_mem hkeyed htrigger
      apply h.1
      have hrow : row.triggerid = evaluation.triggerid := hkeyed _ row hcache
      change trigger.triggerid = row.triggerid at hid
      rw [← hrow, ← hid, hid']
      exact List.mem_map_of_mem hother

theorem Consistent.step {s s' : Server} {action : Action} (h : Consistent triggerid s)
    (hmeets : Meets triggerid s action) (hstep : StepOf step s action s') :
  Consistent triggerid s'
  := by
  obtain ⟨hdb, hcache, hdeps, ⟨row, htracks, hcopies⟩, htype, hselected⟩ := h
  unfold StepOf Trigger.step at hstep
  cases action with
  | evaluate evaluations =>
    cases hsyncer : s.syncer with
    | evaluated => simp [hsyncer] at hstep
    | processed => simp [hsyncer] at hstep
    | idle =>
      simp only [hsyncer] at hstep
      split at hstep
      · rename_i hnodup
        obtain rfl := Option.some.inj hstep
        have hcommitted : s.committed = s.db := by
          unfold Server.committed
          rw [hsyncer]
        rw [hcommitted] at htracks
        refine ⟨hdb, hcache, hdeps, ⟨row, htracks, ?_⟩, htype, hselected⟩
        intro triggers htriggers
        obtain rfl := SyncerPhase.evaluated.inj htriggers
        refine ⟨getTriggers_nodup hcache hnodup, ?_⟩
        intro trigger htrigger hid
        obtain ⟨evaluation, hmem, hid', htime, hcached⟩ := getTriggers_mem hcache htrigger
        have hown : evaluation.triggerid = triggerid := hid'.symm.trans hid
        rw [hown] at hcached
        obtain ⟨hstatus, hnormal⟩ := htracks.cached _ hcached
        refine ⟨hstatus, hnormal, ?_⟩
        rw [htime]
        exact hmeets evaluation hmem hown
      · simp at hstep
  | processTriggers =>
    cases hsyncer : s.syncer with
    | idle => simp [hsyncer] at hstep
    | processed => simp [hsyncer] at hstep
    | evaluated triggers =>
      simp only [hsyncer] at hstep
      obtain rfl := Option.some.inj hstep
      obtain ⟨hnodup, hcopies⟩ := hcopies triggers hsyncer
      have hcommitted : s.committed = s.db := by
        unfold Server.committed
        rw [hsyncer]
      rw [hcommitted] at htracks
      obtain ⟨row', htracks'⟩ :=
        processTriggers_tracks ⟨s.cache, [], s.events⟩ s.db hdeps hnodup hcopies htracks
      refine ⟨hdb, processTriggers_keyed hcache, hdeps, ⟨row', htracks', ?_⟩, htype, hselected⟩
      intro triggers' htriggers'
      simp at htriggers'
  | commit =>
    cases hsyncer : s.syncer with
    | idle => simp [hsyncer] at hstep
    | evaluated => simp [hsyncer] at hstep
    | processed updates =>
      simp only [hsyncer] at hstep
      obtain rfl := Option.some.inj hstep
      have hcommitted : s.committed = updates.foldl executeUpdate s.db := by
        unfold Server.committed
        rw [hsyncer]
      rw [hcommitted] at htracks
      refine ⟨hdb.executeUpdates updates, hcache, hdeps, ⟨row, htracks, ?_⟩, ?_, hselected⟩
      · intro triggers htriggers
        simp at htriggers
      · intro row' hrow'
        rw [Option.mem_unique hrow' htracks.row_mem]
        exact htracks.type
  | select triggerids =>
    cases hsel : s.selected with
    | some => simp [hsel] at hstep
    | none =>
      simp only [hsel] at hstep
      obtain rfl := Option.some.inj hstep
      refine ⟨hdb, hcache, hdeps, ⟨row, htracks, hcopies⟩, htype, ?_⟩
      intro rows hrows selected hmem hid
      rw [Option.mem_some_iff] at hrows
      rw [← hrows] at hmem
      obtain ⟨other, -, hother⟩ := List.mem_filterMap.mp hmem
      obtain rfl : other = triggerid := (hdb other selected hother).symm.trans hid
      exact htype selected hother
  | syncTriggers =>
    cases hsel : s.selected with
    | none => simp [hsel] at hstep
    | some rows =>
      simp only [hsel] at hstep
      obtain rfl := Option.some.inj hstep
      refine ⟨hdb, ?_, hdeps, ⟨row, ⟨htracks.row_mem, htracks.type, ?_, htracks.chain,
        htracks.last⟩, hcopies⟩, htype, by simp⟩
      · intro other cached hcached
        exact (syncTriggers_mem hcached).2
      · intro cached hcached
        obtain ⟨hmem, hid⟩ := syncTriggers_mem hcached
        exact ⟨hmeets rows hsel cached hmem hid row htracks.row_mem,
          hselected rows hsel cached hmem hid⟩

/-- The server after its first configuration sync. -/
def Server.start (db : Triggers) (triggerids : List UInt64)
    (trigdeps : UInt64 → List UInt64) : Server where
  db := db
  cache := syncTriggers (fun _ => none) (triggerids.filterMap db)
  syncer := .idle
  selected := none
  events := []
  trigdeps := trigdeps

theorem Server.start_consistent {db : Triggers} {triggerids : List UInt64} (hkeyed : Keyed db)
    {row : TriggerRow} (hrow : row ∈ db triggerid) (htype : row.type = .normal)
    (hdeps : trigdeps triggerid = []) :
  Consistent triggerid (Server.start db triggerids trigdeps)
  := by
  have hcached : ∀ other, ∀ cached ∈ (Server.start db triggerids trigdeps).cache other,
      cached ∈ db other := by
    intro other cached hcached
    obtain ⟨hmem, hid⟩ := syncTriggers_mem hcached
    obtain ⟨id, -, hid'⟩ := List.mem_filterMap.mp hmem
    obtain rfl : id = other := (hkeyed id cached hid').symm.trans hid
    exact hid'
  refine ⟨hkeyed, ?_, hdeps, ⟨row, ⟨hrow, htype, ?_, List.IsChain.nil, ?_⟩, ?_⟩, ?_, ?_⟩
  · intro other cached h
    exact hkeyed other cached (hcached other cached h)
  · intro cached h
    rw [Option.mem_unique (hcached triggerid cached h) hrow]
    exact ⟨rfl, htype⟩
  · intro value hvalue
    simp [Server.start, eventValues] at hvalue
  · intro triggers htriggers
    simp [Server.start] at htriggers
  · intro row' hrow'
    rw [Option.mem_unique hrow' hrow]
    exact htype
  · intro rows hrows
    simp [Server.start] at hrows

/-- In a run whose evaluations have a time and whose copied rows are current, consecutive
trigger events of a trigger without dependencies have different values, and the cached
trigger agrees with the database when all commits are done. -/
theorem run_consistent {db : Triggers} {triggerids : List UInt64} {row : TriggerRow}
    {actions : List Action} {s : Server} (hkeyed : Keyed db) (hrow : row ∈ db triggerid)
    (htype : row.type = .normal) (hdeps : trigdeps triggerid = [])
    (run : Run (StepOf step) (Meets triggerid) (Server.start db triggerids trigdeps) actions s) :
  EventsAlternate triggerid s ∧ CacheAgrees triggerid s
  := by
  have hconsistent : Consistent triggerid s :=
    run.invariant (Server.start_consistent hkeyed hrow htype hdeps)
      (fun _ _ _ h hmeets hstep => h.step hmeets hstep)
  obtain ⟨row', htracks, -⟩ := hconsistent.tracks
  refine ⟨htracks.chain, ?_⟩
  intro hdone cached hcached row'' hrow''
  have hcommitted : s.committed = s.db := by
    unfold Server.committed
    split
    · rename_i updates hsyncer
      exact absurd hsyncer (hdone updates)
    · rfl
  rw [(htracks.cached cached hcached).1]
  have hmem := htracks.row_mem
  rw [hcommitted] at hmem
  rw [Option.mem_unique hmem hrow'']

instance (triggerid : UInt64) (s : Server) : ∀ action, Decidable (Meets triggerid s action)
  | .evaluate evaluations => inferInstanceAs (Decidable (∀ evaluation ∈ evaluations,
      evaluation.triggerid = triggerid → evaluation.timespec.sec ≠ 0))
  | .processTriggers => inferInstanceAs (Decidable True)
  | .commit => inferInstanceAs (Decidable True)
  | .select _ => inferInstanceAs (Decidable True)
  | .syncTriggers => inferInstanceAs (Decidable (∀ rows ∈ s.selected, ∀ selected ∈ rows,
      selected.triggerid = triggerid → ∀ row ∈ s.committed triggerid,
        selected.status = row.status))

/-- A trigger whose value is OK. -/
def sampleRow : TriggerRow where
  triggerid := 1
  description := "load"
  expression := "1"
  error := ""
  priority := 3
  type := .normal
  value := .ok
  state := .normal
  lastchange := 100

def sampleDb : Triggers := fun triggerid => if triggerid = 1 then some sampleRow else none

def sampleStart : Server := Server.start sampleDb [1] fun _ => []

theorem sampleDb_keyed :
  Keyed sampleDb
  := by
  intro triggerid row hrow
  unfold sampleDb at hrow
  split at hrow
  · rename_i hid
    rw [Option.mem_some_iff] at hrow
    rw [← hrow, hid]
    rfl
  · simp at hrow

/-- The trigger becomes a problem, between two configuration syncs. -/
def sampleActions : List Action :=
  [.select [1], .syncTriggers, .evaluate [⟨1, ⟨200, 0⟩, .problem, none⟩], .processTriggers,
    .commit, .select [1], .syncTriggers]

def sampleEnd : Server := (execute step sampleStart sampleActions).getD sampleStart

theorem sampleEnd_consistent :
  EventsAlternate 1 sampleEnd ∧ CacheAgrees 1 sampleEnd ∧
    eventValues 1 sampleEnd.events = [.problem]
  := by
  have hexecute : execute step sampleStart sampleActions = some sampleEnd := rfl
  have hrun := Run.of_execute hexecute (show MeetsAll step (Meets 1) _ _ by decide)
  obtain ⟨halternate, hagrees⟩ := run_consistent sampleDb_keyed
    (show sampleRow ∈ sampleDb 1 from rfl) rfl rfl hrun
  exact ⟨halternate, hagrees, by decide⟩

/-- The rows are selected before the trigger becomes a problem and copied after that. -/
def staleActions : List Action :=
  [.select [1], .evaluate [⟨1, ⟨200, 0⟩, .problem, none⟩], .processTriggers, .commit,
    .syncTriggers]

def staleState : Server := (execute step sampleStart staleActions).getD sampleStart

/-- The trigger is evaluated to a problem again. -/
def staleEnd : Server :=
  (execute step staleState
    [.evaluate [⟨1, ⟨260, 0⟩, .problem, none⟩], .processTriggers]).getD sampleStart

/-- A stale row reverts the cached value, and the next evaluation repeats the event. -/
theorem staleRow_reverts :
  Run (StepOf step) (fun _ _ => True) sampleStart staleActions staleState ∧
    ¬ CacheAgrees 1 staleState ∧
    Run (StepOf step) (fun _ _ => True) staleState
      [.evaluate [⟨1, ⟨260, 0⟩, .problem, none⟩], .processTriggers] staleEnd ∧
    ¬ EventsAlternate 1 staleEnd
  := by
  refine ⟨Run.of_execute rfl (by decide), ?_, Run.of_execute rfl (by decide), ?_⟩
  · intro h
    have hidle : staleState.syncer = .idle := rfl
    have hcached : staleState.cache 1 = some sampleRow := rfl
    have hdb : (staleState.db 1).map TriggerRow.status = some ⟨.problem, .normal, 200⟩ := by
      decide
    obtain ⟨row, hrow, hstatus⟩ := Option.map_eq_some_iff.mp hdb
    have hagrees := h (by simp [hidle]) sampleRow hcached row hrow
    rw [hstatus] at hagrees
    exact absurd hagrees (by decide)
  · have hevents : eventValues 1 staleEnd.events = [.problem, .problem] := by decide
    unfold EventsAlternate
    rw [hevents]
    simp

end Trigger
