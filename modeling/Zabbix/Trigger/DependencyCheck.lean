import Mathlib.Data.List.MinMax
import Zabbix.Library.Reachability
import Zabbix.Trigger.DependencySync

/-!
# Checking trigger dependencies

In every run the check of a trigger follows only pointers to memory in use, and it fails
exactly when a trigger with a problem can be reached along the dependencies that were loaded
last.
-/

namespace Trigger

/-- A dependency row. -/
def DependsOn (rows : List (UInt64 × UInt64)) (down up : UInt64) : Prop := (down, up) ∈ rows

instance (rows : List (UInt64 × UInt64)) (down up : UInt64) : Decidable (DependsOn rows down up) :=
  inferInstanceAs (Decidable ((down, up) ∈ rows))

theorem edge_upsOf (rows : List (UInt64 × UInt64)) :
  Edge (upsOf rows) = DependsOn rows
  := by
  funext down up
  exact propext mem_upsOf

/-- The snapshot before the first one is loaded. -/
def Snapshot.empty : Snapshot := ⟨[], [], List.Pairwise.nil, nofun⟩

/-- The snapshot that was loaded last. -/
def lastSnapshot (steps : List CacheStep) : Snapshot :=
  steps.foldl (fun last step =>
    match step with
    | .sync _ snapshot => snapshot
    | .setValue .. => last) .empty

namespace DependencyCache

/-- No list has a pointer to a trigger or to a list that was removed: pointers are to the
trigger of the list, and to the lists of triggers it depends on. -/
def NoDangling (c : DependencyCache) (rows : List (UInt64 × UInt64)) : Prop :=
  ∀ a d, c.trigdeps.memory.search a = some d →
    (∀ b ∈ d.trigger, ∃ trigger, c.triggers.memory.search b = some trigger
      ∧ trigger.triggerid = d.triggerid)
    ∧ ∀ pointers ∈ d.dependencies, ∀ b ∈ pointers, ∃ d', c.trigdeps.memory.search b = some d'
      ∧ DependsOn rows d.triggerid d'.triggerid

/-- The cache has the triggers of a snapshot, and the lists of its dependencies. -/
structure Consistent (c : DependencyCache) (snapshot : Snapshot) : Prop where
  triggers : c.triggers.Valid (·.triggerid)
  present : ∀ id, (c.triggers.value id).isSome ↔ id ∈ snapshot.triggers.map (·.triggerid)
  linked : Linked c.triggers c.trigdeps snapshot.dependencies

variable {c : DependencyCache} {snapshot : Snapshot}

theorem consistent_empty :
  Consistent ⟨.empty, .empty⟩ .empty
  where
  triggers := Entries.valid_empty
  present := by simp [Entries.value, Entries.empty, Snapshot.empty]
  linked := {
    valid := Entries.valid_empty
    listed := by simp [Entries.value, Entries.empty]
    unlisted := fun _ _ => rfl }

theorem foldl_update_isSome (rows : List TriggerRow) (cache : Triggers) (id : UInt64) :
  ((rows.foldl (fun (cache : Triggers) row =>
      Function.update cache row.triggerid (some row)) cache) id).isSome
    ↔ id ∈ rows.map (·.triggerid) ∨ (cache id).isSome
  := by
  induction rows generalizing cache with
  | nil => simp
  | cons row rows ih =>
    rw [List.foldl_cons, ih, List.map_cons, List.mem_cons]
    by_cases hid : id = row.triggerid
    · simp [hid]
    · simp [hid]

theorem Consistent.sync (h : c.Consistent snapshot) (surroundings : Surroundings)
    (next : Snapshot) :
  (c.sync surroundings next).Consistent next
  := by
  obtain ⟨hvalid, hvalue⟩ := syncTriggers_spec surroundings.triggers
    surroundings.visit h.triggers next.triggers
  refine ⟨hvalid, fun id => ?_, syncTrigdeps_linked h.linked.valid next.ordered next.positive⟩
  change ((syncTriggers _ _ _ _).value id).isSome ↔ _
  rw [hvalue, Trigger.syncTriggers]
  dsimp only
  split_ifs with hid
  · rw [foldl_update_isSome]
    simp only [hid, true_or]
  · simp [hid]

/-- `DCconfig_set_trigger_value` changes the trigger at its address. -/
theorem setValue_value (h : c.triggers.Valid (·.triggerid)) (triggerid : UInt64)
    (value : TriggerValue) (state : TriggerState) (error : String) (lastchange : Option ℤ) :
  (c.setValue triggerid value state error lastchange).triggers.value
    = setTriggerValue c.triggers.value triggerid value state error lastchange
  := by
  unfold setValue setTriggerValue
  cases hindex : c.triggers.index.search triggerid with
  | none =>
    have hnone : c.triggers.value triggerid = none := by
      rw [Entries.value, hindex, Option.bind_none]
    rw [hnone]
  | some a =>
    obtain ⟨trigger, -, -, hvalue⟩ := h.read hindex
    rw [hvalue]
    funext id
    dsimp only
    rw [h.value_modify hindex]
    by_cases hid : id = triggerid
    · rw [if_pos hid, hid, Function.update_self, hvalue, Option.map_some]
    · rw [if_neg hid, Function.update_of_ne hid]

theorem setValue_index (triggerid : UInt64) (value : TriggerValue) (state : TriggerState)
    (error : String) (lastchange : Option ℤ) :
  (c.setValue triggerid value state error lastchange).triggers.index = c.triggers.index
    ∧ (c.setValue triggerid value state error lastchange).trigdeps = c.trigdeps
  := by
  unfold setValue
  split
  · exact ⟨rfl, rfl⟩
  · exact ⟨Entries.index_modify _, rfl⟩

theorem Linked.of_index {triggers triggers' : Entries UInt64 TriggerRow}
    {e : Entries UInt64 TriggerDeplist} {rows : List (UInt64 × UInt64)}
    (h : Linked triggers e rows) (hindex : triggers'.index = triggers.index) :
  Linked triggers' e rows
  := by
  refine ⟨h.valid, fun id hid => ?_, h.unlisted⟩
  unfold Listed
  rw [hindex]
  exact h.listed id hid

theorem Consistent.setValue (h : c.Consistent snapshot) (triggerid : UInt64)
    (value : TriggerValue) (state : TriggerState) (error : String) (lastchange : Option ℤ) :
  (c.setValue triggerid value state error lastchange).Consistent snapshot
  := by
  obtain ⟨hindex, htrigdeps⟩ := c.setValue_index triggerid value state error lastchange
  have hvalid : (c.setValue triggerid value state error lastchange).triggers.Valid
      (·.triggerid) := by
    unfold DependencyCache.setValue
    split
    · exact h.triggers
    · exact h.triggers.modify _ fun _ => rfl
  refine ⟨hvalid, fun id => ?_, ?_⟩
  · rw [hvalid.value_isSome_iff, hindex, ← h.triggers.value_isSome_iff, h.present id]
  · rw [htrigdeps]
    exact Linked.of_index h.linked hindex

theorem consistent_run (steps : List CacheStep) :
  (run steps).Consistent (lastSnapshot steps)
  := by
  induction steps using List.reverseRecOn with
  | nil => exact consistent_empty
  | append_singleton steps step ih =>
    rw [run, lastSnapshot, List.foldl_concat, List.foldl_concat]
    cases step with
    | sync surroundings next => exact ih.sync surroundings next
    | setValue triggerid value state error lastchange =>
      exact ih.setValue triggerid value state error lastchange

theorem Consistent.noDangling (h : c.Consistent snapshot) :
  c.NoDangling snapshot.dependencies
  := by
  intro a d hd
  have hindex := h.linked.valid.index_of_memory hd
  obtain ⟨d', hd', -, hvalue⟩ := h.linked.valid.read hindex
  obtain rfl := Option.some.inj (hd.symm.trans hd')
  obtain ⟨d', hd', htrigger, hleads⟩ := h.linked.listed d.triggerid (by rw [hvalue]; rfl)
  obtain rfl := Option.some.inj (hvalue.symm.trans hd')
  constructor
  · intro b hb
    rw [htrigger] at hb
    exact (h.triggers d.triggerid b).mp hb
  · intro pointers hpointers b hb
    obtain ⟨up, hup, hsearch⟩ := hleads.pointer (by rw [hpointers]; exact hb)
    obtain ⟨d', hd', hid⟩ := (h.linked.valid up b).mp hsearch
    exact ⟨d', hd', by rw [hid]; exact mem_upsOf.mp hup⟩

/-! ### Following pointers -/

/-- Whether a trigger has a problem. -/
def problem (cache : Triggers) (id : UInt64) : Bool :=
  (cache id).any fun trigger => trigger.value = .problem ∧ trigger.state = .normal

theorem hasProblem_eq (h : c.triggers.Valid (·.triggerid)) (id : UInt64) :
  c.hasProblem (c.triggers.index.search id) = some (problem c.triggers.value id)
  := by
  unfold problem
  cases hindex : c.triggers.index.search id with
  | none => rw [Entries.value, hindex]; rfl
  | some a =>
    obtain ⟨trigger, htrigger, -, hvalue⟩ := h.read hindex
    rw [hasProblem, htrigger, hvalue]
    rfl

theorem checkDependencies_eq (h : c.Consistent snapshot) {check : ℕ → Option Bool}
    {good : UInt64 → Bool}
    (hcheck : ∀ up a, c.trigdeps.index.search up = some a → check a = some (good up))
    {pointers : List ℕ} {ups : List UInt64} (hleads : Leads c.trigdeps pointers ups) :
  c.checkDependencies check pointers
    = some (ups.all fun up => !problem c.triggers.value up && good up)
  := by
  induction pointers generalizing ups with
  | nil =>
    obtain rfl : ups = [] := by simpa [Leads] using hleads
    rfl
  | cons a pointers ih =>
    obtain _ | ⟨up, ups⟩ := ups
    · simp [Leads] at hleads
    obtain ⟨hup, hleads⟩ := List.cons.inj hleads
    obtain ⟨d, hd, -, hvalue⟩ := h.linked.valid.read hup.symm
    obtain ⟨d', hd', htrigger, -⟩ := h.linked.listed up (by rw [hvalue]; rfl)
    obtain rfl := Option.some.inj (hvalue.symm.trans hd')
    rw [checkDependencies, hd]
    simp only [Option.bind_eq_bind, Option.bind_some, htrigger, hasProblem_eq h.triggers,
      hcheck up a hup.symm, ih hleads, List.all_cons]
    cases problem c.triggers.value up
    · cases good up <;> rfl
    · rfl

/-- Following the pointers is following the dependencies. -/
theorem checkRec_eq (h : c.Consistent snapshot) (levels : ℕ) {id : UInt64} {a : ℕ}
    (ha : c.trigdeps.index.search id = some a) :
  c.checkRec levels a
    = some (checkTriggerDependenciesRec c.triggers.value (upsOf snapshot.dependencies) levels id)
  := by
  induction levels generalizing id a with
  | zero =>
    obtain ⟨d, hd, -⟩ := h.linked.valid.read ha
    rw [checkRec, hd]
    rfl
  | succ levels ih =>
    obtain ⟨d, hd, -, hvalue⟩ := h.linked.valid.read ha
    obtain ⟨d', hd', -, hleads⟩ := h.linked.listed id (by rw [hvalue]; rfl)
    obtain rfl := Option.some.inj (hvalue.symm.trans hd')
    rw [checkRec, hd, checkTriggerDependenciesRec]
    cases hdependencies : d.dependencies with
    | none =>
      have hnil : upsOf snapshot.dependencies id = [] := by
        simpa [Leads, hdependencies] using hleads
      simp [hdependencies, hnil]
    | some pointers =>
      rw [hdependencies, Option.getD_some] at hleads
      have hall := checkDependencies_eq h (fun up b hb => ih hb) hleads
      simpa [hdependencies, problem] using hall

theorem check_eq (h : c.Consistent snapshot) (id : UInt64) :
  c.check id
    = some (checkTriggerDependencies c.triggers.value (upsOf snapshot.dependencies) id)
  := by
  unfold check
  cases ha : c.trigdeps.index.search id with
  | none =>
    rw [checkTriggerDependencies, checkTriggerDependenciesRec, h.linked.unlisted id ha]
    rfl
  | some a => exact checkRec_eq h 33 ha

end DependencyCache

theorem checkTriggerDependenciesRec_eq_allWithin (cache : Triggers)
    (trigdeps : UInt64 → List UInt64) (levels : ℕ) (id : UInt64) :
  checkTriggerDependenciesRec cache trigdeps levels id
    = allWithin trigdeps (fun up => !DependencyCache.problem cache up) levels id
  := by
  induction levels generalizing id with
  | zero => rfl
  | succ levels ih =>
    rw [checkTriggerDependenciesRec, allWithin]
    simp only [ih]
    rfl

namespace DependencyCache

/-- In every run the check of a trigger gives a result, and fails exactly when a trigger with
a problem can be reached along the dependencies loaded last; no pointer is to something that
was removed. -/
theorem check_correct (steps : List CacheStep) (triggerid : UInt64)
    (hpaths : ∀ path, (triggerid :: path).IsChain (DependsOn (lastSnapshot steps).dependencies) →
      path.length ≤ 32) :
  ((run steps).check triggerid = some false
      ↔ ∃ id trigger, Relation.TransGen (DependsOn (lastSnapshot steps).dependencies) triggerid id
        ∧ id ∈ (lastSnapshot steps).triggers.map (·.triggerid)
        ∧ (run steps).triggers.value id = some trigger
        ∧ trigger.value = .problem ∧ trigger.state = .normal)
    ∧ ((run steps).check triggerid).isSome
    ∧ (run steps).NoDangling (lastSnapshot steps).dependencies
  := by
  have h := consistent_run steps
  have hcheck := check_eq h triggerid
  refine ⟨?_, by rw [hcheck]; rfl, h.noDangling⟩
  rw [hcheck, Option.some_inj, checkTriggerDependencies,
    checkTriggerDependenciesRec_eq_allWithin, ← Bool.not_eq_true, allWithin_iff, edge_upsOf]
  · simp only [Bool.not_eq_true', not_forall, Bool.not_eq_false]
    constructor
    · rintro ⟨id, hreach, hproblem⟩
      unfold problem at hproblem
      cases hvalue : (run steps).triggers.value id with
      | none => simp [hvalue] at hproblem
      | some trigger =>
        have hpresent := (h.present id).mp (by rw [hvalue]; rfl)
        rw [hvalue, Option.any_some, decide_eq_true_eq] at hproblem
        exact ⟨id, trigger, hreach, hpresent, hvalue, hproblem⟩
    · rintro ⟨id, trigger, hreach, -, hvalue, hproblem⟩
      refine ⟨id, hreach, ?_⟩
      rw [problem, hvalue, Option.any_some, decide_eq_true_eq]
      exact hproblem
  · intro path hpath
    rw [edge_upsOf] at hpath
    exact (hpaths path hpath).trans (by decide)

/-- An address above all that are in use is free. -/
theorem foldr_max_fresh (used : List ℕ) :
  used.foldr max 0 + 1 ∉ used
  := fun hmem => absurd (List.le_max_of_le' 0 hmem le_rfl) (Nat.not_succ_le_self _)

def sampleRow (triggerid : UInt64) (value : TriggerValue) : TriggerRow :=
  ⟨triggerid, "load", "1", "", 3, .normal, value, .normal, 100⟩

/-- Memory with something in it. -/
def sampleSurroundings : Surroundings where
  triggers := ⟨fun used => used.foldr max 0 + 1, foldr_max_fresh, fun _ => sampleRow 9 .problem⟩
  trigdeps := ⟨fun used => used.foldr max 0 + 1, foldr_max_fresh,
    fun _ => ⟨9, some 77, some [78]⟩⟩
  visit := .inOrder

/-- Trigger 3 is removed, and trigger 2, which depended on it, becomes one that trigger 4
depends on; then trigger 2 has a problem. -/
def sampleSteps : List CacheStep :=
  [.sync sampleSurroundings ⟨[sampleRow 1 .ok, sampleRow 2 .ok, sampleRow 3 .problem],
      [(1, 2), (2, 3)], by decide, by simp⟩,
    .sync sampleSurroundings ⟨[sampleRow 1 .ok, sampleRow 2 .ok, sampleRow 4 .ok],
      [(1, 4), (4, 2)], by decide, by simp⟩,
    .setValue 2 .problem .normal "" none]

theorem check_correct_roles :
  (run sampleSteps).check 1 = some false
  := by
  have hedge : ∀ down up, DependsOn (lastSnapshot sampleSteps).dependencies down up →
      [2, 4, 1].idxOf up < [2, 4, 1].idxOf down := by
    intro down up h
    have hrows : ∀ row ∈ (lastSnapshot sampleSteps).dependencies,
        [2, 4, 1].idxOf row.2 < [2, 4, 1].idxOf row.1 :=
      List.forall_iff_forall_mem.mp (by decide)
    exact hrows (down, up) h
  refine (check_correct sampleSteps 1 fun path hpath => ?_).1.mpr ?_
  · exact (length_le_of_rank _ hedge hpath).trans (by decide)
  · exact ⟨2, sampleRow 2 .problem, .tail (b := 4) (.single (by decide)) (by decide),
      by decide, by decide, rfl, rfl⟩

end DependencyCache

end Trigger
