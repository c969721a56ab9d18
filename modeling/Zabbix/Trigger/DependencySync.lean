import Mathlib.Data.List.Basic
import Zabbix.Trigger.Dependencies

/-!
# Loading triggers and their dependencies

After the triggers and their dependencies are loaded, exactly the selected triggers are in
the cache, and every list points to its trigger and to the lists of the triggers it depends
on, whatever the cache had before: the lists of earlier dependencies are updated in place,
and those that are not used any more are removed together with all pointers to them.
-/

namespace Trigger

/-- The triggers a trigger depends on. -/
def upsOf (rows : List (UInt64 × UInt64)) (id : UInt64) : List UInt64 :=
  (rows.filter fun row => row.1 = id).map (·.2)

theorem mem_upsOf {rows : List (UInt64 × UInt64)} {id up : UInt64} :
  up ∈ upsOf rows id ↔ (id, up) ∈ rows
  := by
  simp [upsOf]

theorem upsOf_eq_nil_iff {rows : List (UInt64 × UInt64)} {id : UInt64} :
  upsOf rows id = [] ↔ ∀ row ∈ rows, row.1 ≠ id
  := by
  simp [upsOf]

theorem upsOf_concat_self (rows : List (UInt64 × UInt64)) (row : UInt64 × UInt64) :
  upsOf (rows ++ [row]) row.1 = upsOf rows row.1 ++ [row.2]
  := by
  simp [upsOf]

theorem upsOf_concat_of_ne {rows : List (UInt64 × UInt64)} {row : UInt64 × UInt64} {id : UInt64}
    (hid : id ≠ row.1) :
  upsOf (rows ++ [row]) id = upsOf rows id
  := by
  simp [upsOf, hid.symm]

section FindId

variable {ω : Type*} {key : ω → UInt64} {m : Allocator ω} {setId : UInt64 → ω → ω}
  {e : Entries UInt64 ω} {id : UInt64}

variable (m setId) in
theorem findId_grows (h : e.Valid key) (hset : ∀ w, key (setId id w) = id) :
  e.Grows key (findId m setId e id).1
  := by
  unfold findId
  cases hid : e.index.search id with
  | some a => exact h.grows_refl
  | none => exact h.grows_insert m hset hid

variable (m setId e id) in
theorem findId_index :
  (findId m setId e id).1.index.search id = some (findId m setId e id).2.1
  := by
  unfold findId
  cases hid : e.index.search id with
  | some a => exact hid
  | none => rw [Entries.index_insert, if_pos rfl]

theorem findId_index_of_ne {k : UInt64} (hk : k ≠ id) :
  (findId m setId e id).1.index.search k = e.index.search k
  := by
  unfold findId
  cases hid : e.index.search id with
  | some a => rfl
  | none => rw [Entries.index_insert, if_neg hk]

theorem findId_found :
  (findId m setId e id).2.2 = (e.index.search id).isSome
  := by
  unfold findId
  cases e.index.search id <;> rfl

/-- The entry of another id is not touched. -/
theorem findId_value_of_ne (h : e.Valid key) (hset : ∀ w, key (setId id w) = id) {k : UInt64}
    (hk : k ≠ id) :
  (findId m setId e id).1.value k = e.value k
  := by
  have hgrows := findId_grows m setId h hset
  cases hv : e.value k with
  | some w => exact hgrows.value k w hv
  | none =>
    have hold : e.index.search k = none := by
      rw [← Option.not_isSome_iff_eq_none, ← h.value_isSome_iff, hv]
      simp
    rw [Entries.value, findId_index_of_ne hk, hold, Option.bind_none]

end FindId

/-! ### Triggers -/

theorem loadTrigger_spec {m : Allocator TriggerRow} {e : Entries UInt64 TriggerRow}
    (h : e.Valid (·.triggerid)) (row : TriggerRow) :
  (loadTrigger m e row).Valid (·.triggerid)
    ∧ (loadTrigger m e row).value = Function.update e.value row.triggerid (some row)
  := by
  have hset : ∀ trigger : TriggerRow,
      ({ trigger with triggerid := row.triggerid } : TriggerRow).triggerid = row.triggerid :=
    fun _ => rfl
  have hgrows := findId_grows m (fun id trigger => { trigger with triggerid := id }) h hset
  have hindex := findId_index m (fun id trigger => { trigger with triggerid := id }) e
    row.triggerid
  refine ⟨hgrows.valid.modify _ fun _ => rfl, funext fun id => ?_⟩
  rw [loadTrigger, hgrows.valid.value_modify hindex]
  by_cases hid : id = row.triggerid
  · obtain ⟨trigger, -, hkey, hvalue⟩ := hgrows.valid.read hindex
    rw [if_pos hid, hid, Function.update_self, hvalue, Option.map_some, hkey]
  · rw [if_neg hid, Function.update_of_ne hid, findId_value_of_ne h hset hid]

theorem foldl_loadTrigger {m : Allocator TriggerRow} (rows : List TriggerRow)
    {e : Entries UInt64 TriggerRow} (h : e.Valid (·.triggerid)) :
  (rows.foldl (loadTrigger m) e).Valid (·.triggerid)
    ∧ (rows.foldl (loadTrigger m) e).value
      = rows.foldl (fun (cache : Triggers) row =>
          Function.update cache row.triggerid (some row)) e.value
  := by
  induction rows generalizing e with
  | nil => exact ⟨h, rfl⟩
  | cons row rows ih =>
    obtain ⟨hvalid, hvalue⟩ := loadTrigger_spec (m := m) h row
    obtain ⟨hvalid', hvalue'⟩ := ih hvalid
    refine ⟨hvalid', ?_⟩
    rw [List.foldl_cons, hvalue', hvalue, List.foldl_cons]

namespace DependencyCache

/-- The cached triggers are the selected ones. -/
theorem syncTriggers_spec (m : Allocator TriggerRow) (visit : Visit UInt64)
    {e : Entries UInt64 TriggerRow} (h : e.Valid (·.triggerid)) (rows : List TriggerRow) :
  (syncTriggers m visit e rows).Valid (·.triggerid)
    ∧ (syncTriggers m visit e rows).value = Trigger.syncTriggers e.value rows
  := by
  obtain ⟨hvalid, hvalue⟩ := foldl_loadTrigger (m := m) rows h
  obtain ⟨hnodup, hkeys⟩ := Entries.visit_keys visit (rows.foldl (loadTrigger m) e)
  have hsweep := Entries.foldl_pointwise
    Entries.value
    (fun e id => if bsearch (sortIds (rows.map (·.triggerid))) id then e else e.remove id)
    (f := fun id v => if bsearch (sortIds (rows.map (·.triggerid))) id then v else none)
    (fun e : Entries UInt64 TriggerRow => e.Valid (·.triggerid))
    (fun e id he => by
      split_ifs
      · exact he
      · exact he.remove id)
    (fun e id j he => by
      split_ifs with hfound hj hj
      · rw [hj]
      · rfl
      · rw [he.value_remove, if_pos hj]
      · rw [he.value_remove, if_neg hj])
    hnodup hvalid
  refine ⟨(hsweep 0).1, funext fun id => ?_⟩
  rw [syncTriggers, (hsweep id).2]
  simp only [Trigger.syncTriggers, ← hvalue, bsearch_sortIds]
  split_ifs with hthere hid hid
  · rfl
  · rfl
  · rfl
  · rw [hkeys, ← hvalid.value_isSome_iff] at hthere
    exact Option.not_isSome_iff_eq_none.mp hthere

end DependencyCache

/-! ### Dependencies -/

/-- Pointers lead to the lists of the given triggers. -/
def Leads (e : Entries UInt64 TriggerDeplist) (pointers : List ℕ) (ups : List UInt64) : Prop :=
  pointers.map some = ups.map e.index.search

/-- The list of a trigger points to it and to the lists of the given triggers. -/
def Listed (triggers : Entries UInt64 TriggerRow) (e : Entries UInt64 TriggerDeplist)
    (ups : List UInt64) (id : UInt64) : Prop :=
  ∃ d, e.value id = some d ∧ d.trigger = triggers.index.search id
    ∧ Leads e (d.dependencies.getD []) ups

section

variable {triggers : Entries UInt64 TriggerRow} {e e' : Entries UInt64 TriggerDeplist}
  {pointers : List ℕ} {ups : List UInt64} {id : UInt64}

/-- Pointers still lead to the lists when only other lists are moved. -/
theorem Leads.of_index (h : Leads e pointers ups)
    (hindex : ∀ up ∈ ups, ∀ a, e.index.search up = some a → e'.index.search up = some a) :
  Leads e' pointers ups
  := by
  refine Eq.trans h (List.map_congr_left fun up hup => ?_)
  have hmem : e.index.search up ∈ pointers.map some := by
    rw [h]
    exact List.mem_map_of_mem hup
  obtain ⟨a, -, ha⟩ := List.mem_map.mp hmem
  rw [← ha, hindex up hup a ha.symm]

theorem Leads.pointer (h : Leads e pointers ups) {a : ℕ} (ha : a ∈ pointers) :
  ∃ up ∈ ups, e.index.search up = some a
  := by
  have hmem : some a ∈ ups.map e.index.search := by
    rw [← h]
    exact List.mem_map_of_mem ha
  exact List.mem_map.mp hmem

theorem Leads.concat (h : Leads e pointers ups) {up : UInt64} {a : ℕ}
    (ha : e.index.search up = some a) :
  Leads e (pointers ++ [a]) (ups ++ [up])
  := by
  unfold Leads at h ⊢
  rw [List.map_append, List.map_append, h, List.map_singleton, List.map_singleton, ha]

theorem Listed.grows (h : Listed triggers e ups id)
    (hgrows : e.Grows TriggerDeplist.triggerid e') :
  Listed triggers e' ups id
  := by
  obtain ⟨d, hd, htrigger, hleads⟩ := h
  exact ⟨d, hgrows.value id d hd, htrigger, hleads.of_index fun up _ => hgrows.index up⟩

end

/-- What has been loaded of the rows done so far, apart from the dependencies that are not
stored yet. -/
structure TrigdepLoop.Progressing (done : List (UInt64 × UInt64)) (s : TrigdepLoop) : Prop where
  valid : s.trigdeps.Valid TriggerDeplist.triggerid
  increasing : s.idsDown.Pairwise (· < ·)
  below : ∀ id ∈ s.idsDown, id ≤ s.triggerid
  downs : ∀ row ∈ done, row.1 ∈ s.idsDown
  ups : s.idsUp = done.map (·.2)
  known : ∀ id ∈ s.idsUp, (s.trigdeps.index.search id).isSome

/-- The loop collects the dependencies of a trigger. -/
structure TrigdepLoop.Collecting (triggers : Entries UInt64 TriggerRow)
    (done : List (UInt64 × UInt64)) (s : TrigdepLoop) : Prop extends s.Progressing done where
  /-- There is no trigger only at the start. -/
  start : s.trigdepDown = none → s.triggerid = 0 ∧ s.idsDown = [] ∧ s.dependencies = []
  current : ∀ a, s.trigdepDown = some a → s.trigdeps.index.search s.triggerid = some a
    ∧ ∃ d, s.trigdeps.value s.triggerid = some d ∧ d.trigger = triggers.index.search s.triggerid
  collected : Leads s.trigdeps s.dependencies (upsOf done s.triggerid)
  closed : ∀ id ∈ s.idsDown, id ≠ s.triggerid → Listed triggers s.trigdeps (upsOf done id) id

/-- The dependencies of all triggers are stored. -/
structure TrigdepLoop.Stored (triggers : Entries UInt64 TriggerRow)
    (done : List (UInt64 × UInt64)) (s : TrigdepLoop) : Prop extends s.Progressing done where
  empty : s.dependencies = []
  listed : ∀ id ∈ s.idsDown, Listed triggers s.trigdeps (upsOf done id) id

namespace TrigdepLoop

variable {triggers : Entries UInt64 TriggerRow} {done : List (UInt64 × UInt64)} {s : TrigdepLoop}
  {m : Allocator TriggerDeplist}

theorem Collecting.store (h : s.Collecting triggers done) :
  s.store.Stored triggers done
  := by
  unfold TrigdepLoop.store
  cases hdown : s.trigdepDown with
  | none =>
    obtain ⟨-, hnil, hempty⟩ := h.start hdown
    exact { h.toProgressing with
      empty := hempty
      listed := fun id hid => by simp [hnil] at hid }
  | some a =>
    obtain ⟨hindex, d, hd, htrigger⟩ := h.current a hdown
    have hvalue := h.valid.value_modify hindex
      fun d => { d with dependencies := some s.dependencies }
    have hsame : ∀ {pointers ups}, Leads s.trigdeps pointers ups →
        Leads (s.trigdeps.modify a fun d => { d with dependencies := some s.dependencies })
          pointers ups :=
      fun hleads => hleads.of_index fun up _ b hb => by rwa [Entries.index_modify]
    exact {
      valid := h.valid.modify a fun _ => rfl
      increasing := h.increasing
      below := h.below
      downs := h.downs
      ups := h.ups
      known := fun id hid => by
        rw [Entries.index_modify]
        exact h.known id hid
      empty := rfl
      listed := fun id hid => by
        by_cases hcurrent : id = s.triggerid
        · subst hcurrent
          refine ⟨{ d with dependencies := some s.dependencies }, ?_, htrigger,
            hsame h.collected⟩
          rw [hvalue, if_pos rfl, hd, Option.map_some]
        · obtain ⟨d', hd', htrigger', hleads⟩ := h.closed id hid hcurrent
          refine ⟨d', ?_, htrigger', hsame hleads⟩
          rw [hvalue, if_neg hcurrent, hd'] }

theorem setDeplistId_triggerid (id : UInt64) (d : TriggerDeplist) :
  (setDeplistId id d).triggerid = id
  := rfl

section Enter

variable {down : UInt64}

theorem enter_valid (h : s.trigdeps.Valid TriggerDeplist.triggerid) :
  (s.enter m triggers down).trigdeps.Valid TriggerDeplist.triggerid
  := (findId_grows m setDeplistId h (setDeplistId_triggerid down)).valid.modify _ fun _ => rfl

theorem enter_index (h : s.trigdeps.Valid TriggerDeplist.triggerid) {id : UInt64} {a : ℕ}
    (ha : s.trigdeps.index.search id = some a) :
  (s.enter m triggers down).trigdeps.index.search id = some a
  := by
  simp only [enter, Entries.index_modify]
  exact (findId_grows m setDeplistId h (setDeplistId_triggerid down)).index id a ha

theorem enter_value_of_ne (h : s.trigdeps.Valid TriggerDeplist.triggerid) {id : UInt64}
    (hid : id ≠ down) :
  (s.enter m triggers down).trigdeps.value id = s.trigdeps.value id
  := by
  have hgrows := findId_grows m setDeplistId h (setDeplistId_triggerid down)
  simp only [enter]
  rw [hgrows.valid.value_modify (findId_index ..), if_neg hid,
    findId_value_of_ne h (setDeplistId_triggerid down) hid]

/-- The list of the trigger is there and points to the trigger. -/
theorem enter_current (m : Allocator TriggerDeplist) (triggers : Entries UInt64 TriggerRow)
    (down : UInt64) (h : s.trigdeps.Valid TriggerDeplist.triggerid) :
  (s.enter m triggers down).trigdeps.index.search down = (s.enter m triggers down).trigdepDown
    ∧ ∃ d, (s.enter m triggers down).trigdeps.value down = some d
      ∧ d.trigger = triggers.index.search down
  := by
  have hgrows := findId_grows m setDeplistId h (setDeplistId_triggerid down)
  have hindex := findId_index m setDeplistId s.trigdeps down
  obtain ⟨d, -, -, hd⟩ := hgrows.valid.read hindex
  simp only [enter, Entries.index_modify]
  rw [hgrows.valid.value_modify hindex, if_pos rfl, hd, Option.map_some]
  exact ⟨hindex, _, rfl, rfl⟩

end Enter

theorem Stored.enter (h : s.Stored triggers done) {down : UInt64}
    (hnew : ∀ id ∈ s.idsDown, id < down) :
  (s.enter m triggers down).Collecting triggers done
  := by
  have hfresh : down ∉ s.idsDown := fun hmem => lt_irrefl _ (hnew down hmem)
  obtain ⟨hindex, hcurrent⟩ := enter_current m triggers down h.valid
  exact {
    valid := enter_valid h.valid
    increasing := by
      refine List.pairwise_append.mpr ⟨h.increasing, List.pairwise_singleton .., ?_⟩
      rintro id hid _ (_ | ⟨_, ⟨⟩⟩)
      exact hnew id hid
    below := fun id hid => by
      obtain hid | hid := List.mem_append.mp hid
      · exact (hnew id hid).le
      · exact (List.mem_singleton.mp hid).le
    downs := fun row hrow => List.mem_append_left _ (h.downs row hrow)
    ups := h.ups
    known := fun id hid => by
      obtain ⟨a, ha⟩ := Option.isSome_iff_exists.mp (h.known id hid)
      rw [enter_index h.valid ha, Option.isSome_some]
    start := nofun
    current := fun a ha => ⟨hindex.trans ha, hcurrent⟩
    collected := by
      have hnone : upsOf done down = [] := by
        rw [upsOf_eq_nil_iff]
        rintro row hrow rfl
        exact hfresh (h.downs row hrow)
      change Leads _ s.dependencies (upsOf done down)
      rw [h.empty, hnone]
      rfl
    closed := fun id hid hne => by
      have hother : id ≠ down := hne
      have hold : id ∈ s.idsDown := by
        obtain hid | hid := List.mem_append.mp hid
        · exact hid
        · exact absurd (List.mem_singleton.mp hid) hother
      obtain ⟨d, hd, htrigger, hleads⟩ := h.listed id hold
      refine ⟨d, ?_, htrigger, hleads.of_index fun up _ b => enter_index h.valid⟩
      rw [enter_value_of_ne h.valid hother, hd] }

/-! #### Collecting -/

theorem collect_grows (h : s.trigdeps.Valid TriggerDeplist.triggerid) (up : UInt64) :
  s.trigdeps.Grows TriggerDeplist.triggerid (s.collect m up).trigdeps
  := by
  have hgrows := findId_grows m setDeplistId h (setDeplistId_triggerid up)
  simp only [collect, findId_found]
  split_ifs with hfound
  · exact hgrows
  · refine ⟨hgrows.valid.modify _ fun _ => rfl, fun k a hk => ?_, fun k d hk => ?_⟩
    · rw [Entries.index_modify]
      exact hgrows.index k a hk
    · have hne : k ≠ up := by
        rintro rfl
        rw [← h.value_isSome_iff, hk] at hfound
        exact hfound rfl
      rw [hgrows.valid.value_modify (findId_index ..), if_neg hne, hgrows.value k d hk]

theorem collect_pointer (up : UInt64) :
  ∃ a, (s.collect m up).dependencies = s.dependencies ++ [a]
    ∧ (s.collect m up).trigdeps.index.search up = some a
  := by
  refine ⟨_, rfl, ?_⟩
  simp only [collect]
  split_ifs
  · exact findId_index ..
  · rw [Entries.index_modify]
    exact findId_index ..

theorem Collecting.collect (h : s.Collecting triggers done) {row : UInt64 × UInt64}
    (hrow : s.triggerid = row.1) (hmem : row.1 ∈ s.idsDown) :
  (s.collect m row.2).Collecting triggers (done ++ [row])
  := by
  have hgrows := collect_grows (m := m) h.valid row.2
  obtain ⟨a, hdependencies, ha⟩ := s.collect_pointer (m := m) row.2
  exact {
    valid := hgrows.valid
    increasing := h.increasing
    below := h.below
    downs := fun row' hrow' => by
      obtain hrow' | hrow' := List.mem_append.mp hrow'
      · exact h.downs row' hrow'
      · rw [List.mem_singleton.mp hrow']
        exact hmem
    ups := by
      rw [List.map_append, ← h.ups]
      rfl
    known := fun id hid => by
      obtain hid | hid := List.mem_append.mp hid
      · obtain ⟨b, hb⟩ := Option.isSome_iff_exists.mp (h.known id hid)
        rw [hgrows.index id b hb, Option.isSome_some]
      · rw [List.mem_singleton.mp hid, ha, Option.isSome_some]
    start := fun hnone => by
      obtain ⟨-, hnil, -⟩ := h.start hnone
      rw [hnil] at hmem
      cases hmem
    current := fun b hb => by
      obtain ⟨hindex, d, hd, htrigger⟩ := h.current b hb
      exact ⟨hgrows.index _ b hindex, d, hgrows.value _ d hd, htrigger⟩
    collected := by
      change Leads _ _ (upsOf (done ++ [row]) s.triggerid)
      rw [hdependencies, hrow, upsOf_concat_self, ← hrow]
      exact (h.collected.of_index fun up _ => hgrows.index up).concat ha
    closed := fun id hid hne => by
      have hother : id ≠ row.1 := fun heq => hne (heq.trans hrow.symm)
      rw [upsOf_concat_of_ne hother]
      exact (h.closed id hid hne).grows hgrows }

@[simp]
theorem store_idsDown :
  s.store.idsDown = s.idsDown
  := by
  unfold store
  split <;> rfl

/-- A row whose first id is not below that of the row before it is loaded. -/
theorem Collecting.next (h : s.Collecting triggers done) {row : UInt64 × UInt64}
    (hbelow : s.triggerid ≤ row.1) (hpositive : row.1 ≠ 0)
    (hcurrent : s.triggerid ≠ 0 → s.triggerid ∈ s.idsDown) :
  (s.next m triggers row).Collecting triggers (done ++ [row])
    ∧ (s.next m triggers row).triggerid = row.1 ∧ row.1 ∈ (s.next m triggers row).idsDown
  := by
  unfold TrigdepLoop.next
  by_cases hsame : s.triggerid = row.1
  · rw [if_neg (not_not.mpr hsame)]
    have hmem : row.1 ∈ s.idsDown := hsame ▸ hcurrent (hsame ▸ hpositive)
    exact ⟨h.collect hsame hmem, hsame, hmem⟩
  · rw [if_pos hsame]
    have hmem : row.1 ∈ (s.store.enter m triggers row.1).idsDown :=
      List.mem_append_right _ (List.mem_singleton_self _)
    refine ⟨(h.store.enter fun id hid => ?_).collect rfl hmem, rfl, hmem⟩
    rw [store_idsDown] at hid
    exact (h.below id hid).trans_lt (lt_of_le_of_ne hbelow hsame)

/-- All rows are loaded. -/
theorem Collecting.foldl_next {rows : List (UInt64 × UInt64)} (h : s.Collecting triggers done)
    (hordered : rows.Pairwise fun row row' => row.1 ≤ row'.1)
    (hbelow : ∀ row ∈ rows, s.triggerid ≤ row.1) (hpositive : ∀ row ∈ rows, row.1 ≠ 0)
    (hcurrent : s.triggerid ≠ 0 → s.triggerid ∈ s.idsDown) :
  (rows.foldl (TrigdepLoop.next m triggers) s).Collecting triggers (done ++ rows)
  := by
  induction rows generalizing done s with
  | nil => simpa using h
  | cons row rows ih =>
    obtain ⟨hfirst, hordered⟩ := List.pairwise_cons.mp hordered
    obtain ⟨hbelow, -⟩ := List.forall_mem_cons.mp hbelow
    obtain ⟨hpositive, hpositives⟩ := List.forall_mem_cons.mp hpositive
    obtain ⟨hnext, htriggerid, hmem⟩ := h.next (m := m) hbelow hpositive hcurrent
    rw [List.append_cons]
    apply ih hnext hordered _ hpositives
    · rw [htriggerid]
      exact fun _ => hmem
    · rw [htriggerid]
      exact hfirst

end TrigdepLoop

/-! ### Removing lists -/

section Sweep

variable {triggers : Entries UInt64 TriggerRow} {idsDown idsUp : List UInt64}
  {e : Entries UInt64 TriggerDeplist} {id : UInt64}

theorem sweepTrigdep_valid (h : e.Valid TriggerDeplist.triggerid) :
  (sweepTrigdep triggers idsDown idsUp e id).Valid TriggerDeplist.triggerid
  := by
  unfold sweepTrigdep
  split_ifs
  · exact h
  · split
    · exact h
    · exact h.modify _ fun _ => rfl
  · exact h.remove id

/-- Where the entry of an id is, and the entry. -/
def look (e : Entries UInt64 TriggerDeplist) (id : UInt64) : Option ℕ × Option TriggerDeplist :=
  (e.index.search id, e.value id)

/-- The list of a trigger that depends on no other. -/
def TriggerDeplist.independent (triggers : Entries UInt64 TriggerRow) (id : UInt64)
    (d : TriggerDeplist) : TriggerDeplist :=
  { d with trigger := triggers.index.search id, dependencies := none }

/-- What the sweep makes of an entry. -/
def swept (triggers : Entries UInt64 TriggerRow) (idsDown idsUp : List UInt64) (id : UInt64)
    (entry : Option ℕ × Option TriggerDeplist) : Option ℕ × Option TriggerDeplist :=
  if bsearch idsDown id then entry
  else if bsearch idsUp id then (entry.1, entry.2.map (·.independent triggers id))
  else (none, none)

theorem look_sweepTrigdep (h : e.Valid TriggerDeplist.triggerid) (j : UInt64) :
  look (sweepTrigdep triggers idsDown idsUp e id) j
    = if j = id then swept triggers idsDown idsUp id (look e id) else look e j
  := by
  unfold sweepTrigdep swept look
  by_cases hdown : bsearch idsDown id
  · rw [if_pos hdown, if_pos hdown]
    split_ifs with hj
    · rw [hj]
    · rfl
  rw [if_neg hdown, if_neg hdown]
  by_cases hup : bsearch idsUp id
  · rw [if_pos hup, if_pos hup]
    cases hindex : e.index.search id with
    | none =>
      have hvalue : e.value id = none := by rw [Entries.value, hindex, Option.bind_none]
      split_ifs with hj
      · rw [hj, hindex, hvalue, Option.map_none]
      · rfl
    | some a =>
      dsimp only
      rw [Entries.index_modify, h.value_modify hindex]
      split_ifs with hj
      · rw [hj, hindex]
        rfl
      · rfl
  · rw [if_neg hup, if_neg hup, Entries.index_remove, h.value_remove]
    split_ifs <;> rfl

end Sweep

/-- Every list is of a trigger in the dependencies, and points to its trigger and to the lists
of the triggers it depends on. -/
structure Linked (triggers : Entries UInt64 TriggerRow) (e : Entries UInt64 TriggerDeplist)
    (rows : List (UInt64 × UInt64)) : Prop where
  valid : e.Valid TriggerDeplist.triggerid
  listed : ∀ id, (e.value id).isSome → Listed triggers e (upsOf rows id) id
  unlisted : ∀ id, e.index.search id = none → upsOf rows id = []

namespace TrigdepLoop.Stored

variable {triggers : Entries UInt64 TriggerRow} {rows : List (UInt64 × UInt64)} {s : TrigdepLoop}
  {e : Entries UInt64 TriggerDeplist} {id : UInt64}

/-- The sweep comes to all entries. -/
theorem sweep (h : s.Stored triggers rows) (visit : Visit UInt64) :
  let e := (visit.arrange s.trigdeps.index.keys).foldl
    (sweepTrigdep triggers s.idsDown (sortIds s.idsUp)) s.trigdeps
  e.Valid TriggerDeplist.triggerid
    ∧ ∀ id, look e id = swept triggers s.idsDown (sortIds s.idsUp) id (look s.trigdeps id)
  := by
  obtain ⟨hnodup, hkeys⟩ := Entries.visit_keys visit s.trigdeps
  have hsweep := Entries.foldl_pointwise look
    (sweepTrigdep triggers s.idsDown (sortIds s.idsUp))
    (fun e => e.Valid TriggerDeplist.triggerid)
    (fun e id => sweepTrigdep_valid) (fun e id j he => look_sweepTrigdep he j)
    hnodup h.valid
  refine ⟨(hsweep 0).1, fun id => ?_⟩
  rw [(hsweep id).2]
  split_ifs with hid
  · rfl
  · rw [hkeys, Option.not_isSome_iff_eq_none] at hid
    have hnone : look s.trigdeps id = (none, none) := by
      rw [look, Entries.value, hid, Option.bind_none]
    rw [hnone]
    unfold swept
    split_ifs <;> rfl

theorem bsearch_idsDown (h : s.Stored triggers rows) :
  bsearch s.idsDown id ↔ id ∈ s.idsDown
  := bsearch_iff (h.increasing.imp le_of_lt) id

theorem swept_down (h : s.Stored triggers rows) (hid : id ∈ s.idsDown)
    (entry : Option ℕ × Option TriggerDeplist) :
  swept triggers s.idsDown (sortIds s.idsUp) id entry = entry
  := if_pos (h.bsearch_idsDown.mpr hid)

theorem swept_up (h : s.Stored triggers rows) (hdown : id ∉ s.idsDown) (hid : id ∈ s.idsUp)
    (entry : Option ℕ × Option TriggerDeplist) :
  swept triggers s.idsDown (sortIds s.idsUp) id entry
    = (entry.1, entry.2.map (·.independent triggers id))
  := by
  rw [swept, if_neg (mt h.bsearch_idsDown.mp hdown), if_pos ((bsearch_sortIds _ _).mpr hid)]

theorem swept_other (h : s.Stored triggers rows) (hdown : id ∉ s.idsDown) (hid : id ∉ s.idsUp)
    (entry : Option ℕ × Option TriggerDeplist) :
  swept triggers s.idsDown (sortIds s.idsUp) id entry = (none, none)
  := by
  rw [swept, if_neg (mt h.bsearch_idsDown.mp hdown), if_neg (mt (bsearch_sortIds _ _).mp hid)]

theorem linked (h : s.Stored triggers rows) (hvalid : e.Valid TriggerDeplist.triggerid)
    (hlook : ∀ id, look e id = swept triggers s.idsDown (sortIds s.idsUp) id
      (look s.trigdeps id)) :
  Linked triggers e rows
  := by
  have hups : ∀ up ∈ s.idsUp, e.index.search up = s.trigdeps.index.search up := by
    intro up hup
    have hentry := hlook up
    by_cases hdown : up ∈ s.idsDown
    · rw [h.swept_down hdown] at hentry
      exact congrArg Prod.fst hentry
    · rw [h.swept_up hdown hup] at hentry
      exact congrArg Prod.fst hentry
  have hnone : ∀ id ∉ s.idsDown, upsOf rows id = [] := by
    intro id hid
    rw [upsOf_eq_nil_iff]
    rintro row hrow rfl
    exact hid (h.downs row hrow)
  have hlisted : ∀ id ∈ s.idsDown, Listed triggers e (upsOf rows id) id := by
    intro id hid
    obtain ⟨d, hd, htrigger, hleads⟩ := h.listed id hid
    have hentry := hlook id
    rw [h.swept_down hid] at hentry
    refine ⟨d, (congrArg Prod.snd hentry).trans hd, htrigger, hleads.of_index fun up hup a ha => ?_⟩
    rw [hups up, ha]
    rw [h.ups]
    exact List.mem_map_of_mem (f := Prod.snd) (mem_upsOf.mp hup)
  refine ⟨hvalid, fun id hid => ?_, fun id hid => ?_⟩
  · by_cases hdown : id ∈ s.idsDown
    · exact hlisted id hdown
    · have hvalue := congrArg Prod.snd (hlook id)
      by_cases hup : id ∈ s.idsUp
      · rw [h.swept_up hdown hup] at hvalue
        obtain ⟨d, hd⟩ := Option.isSome_iff_exists.mp hid
        obtain ⟨d', -, rfl⟩ := Option.map_eq_some_iff.mp (hvalue.symm.trans hd)
        exact ⟨_, hd, rfl, by rw [hnone id hdown]; rfl⟩
      · rw [h.swept_other hdown hup] at hvalue
        change e.value id = none at hvalue
        simp [hvalue] at hid
  · apply hnone
    intro hdown
    obtain ⟨d, hd, -⟩ := hlisted id hdown
    rw [Entries.value, hid] at hd
    cases hd

end TrigdepLoop.Stored

namespace DependencyCache

/-- The lists are those of the dependencies in the rows. -/
theorem syncTrigdeps_linked {m : Allocator TriggerDeplist} {visit : Visit UInt64}
    {triggers : Entries UInt64 TriggerRow} {e : Entries UInt64 TriggerDeplist}
    (h : e.Valid TriggerDeplist.triggerid) {rows : List (UInt64 × UInt64)}
    (hordered : rows.Pairwise fun row row' => row.1 ≤ row'.1)
    (hpositive : ∀ row ∈ rows, row.1 ≠ 0) :
  Linked triggers (syncTrigdeps m visit triggers e rows) rows
  := by
  have hstart : TrigdepLoop.Collecting triggers [] ⟨e, 0, none, [], [], []⟩ := {
    valid := h
    increasing := List.Pairwise.nil
    below := nofun
    downs := nofun
    ups := rfl
    known := nofun
    start := fun _ => ⟨rfl, rfl, rfl⟩
    current := nofun
    collected := rfl
    closed := nofun }
  have hloaded := (hstart.foldl_next (m := m) hordered (fun _ _ => UInt64.zero_le) hpositive
    (absurd rfl)).store
  unfold syncTrigdeps
  generalize (rows.foldl (TrigdepLoop.next m triggers) ⟨e, 0, none, [], [], []⟩).store = s
    at hloaded ⊢
  rw [List.nil_append] at hloaded
  obtain ⟨hvalid, hlook⟩ := hloaded.sweep visit
  exact hloaded.linked hvalid hlook

end DependencyCache

end Trigger