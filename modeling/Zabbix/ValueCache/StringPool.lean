import Zabbix.Library.Run
import Zabbix.ValueCache.RecordCount
import Zabbix.ValueCache.ReleaseSafety

/-!
# The string pool

While an operation works on an item, the pool counts the strings of the items together with
those that the operation has copied and not yet stored. Each function of the value cache is
described by what it does to this assertion. A request for space that drops the item it is
made for breaks it; if no request does, every operation comes to its end, the pool counts
exactly the strings of the cached records, and every item counts its records.
-/

namespace ValueCache

/-- Every string is in the pool with the number of the fields of cached records that point
to it, and only if there are any; every item counts its records. -/
structure Cache.Exact (cache : Cache) : Prop where
  pool : ∀ s n, cache.strpool.search s = some n ↔ 0 < n ∧ n = cache.strings.count s
  totals : ∀ itemid item, cache.items.search itemid = some item →
    item.valuesTotal = item.values.length

/-- The invariant of the cache between operations. -/
structure Cache.Consistent (cache : Cache) : Prop where
  counts : cache.Counts fun _ => 0
  items : ∀ itemid item, cache.items.search itemid = some item → item.Counted

theorem Cache.Consistent.exact {cache : Cache} (h : cache.Consistent) :
  cache.Exact
  where
  pool := by
    intro s n
    have hcount := h.counts.count s
    have hpositive := h.counts.positive s
    rw [poolCount, add_zero] at hcount
    cases hsearch : cache.strpool.search s with
    | none =>
      rw [hsearch] at hcount
      rw [← hcount]
      simp only [Option.getD_none, reduceCtorEq, false_iff]
      omega
    | some m =>
      rw [hsearch] at hcount hpositive
      rw [← hcount, Option.getD_some, Option.some_inj]
      have hne : m ≠ 0 := fun hzero => hpositive (by rw [hzero])
      omega
  totals := fun itemid item hsearch => (h.items itemid item hsearch).total

/-- The request leaves the item it is made for in the cache: it releases no space, or somebody
accesses the item, or enough is freed before the turn of the item comes. -/
def Demand.Harmless {W : Type*} [LinearOrder W] (e : Eviction W) (d : Demand) : Prop :=
  d.request.Releases d.first d.cache →
    ∀ item, d.cache.items.search d.source = some item → item.refcount = 0 →
      EnoughBefore e d.source d.now (d.request.space e.sizes) d.cache

instance (first : Bool) (cache : Cache) :
    (request : SpaceRequest) → Decidable (request.Releases first cache)
  | .malloc _ => inferInstanceAs (Decidable (_ = _))
  | .strdup _ => inferInstanceAs (Decidable (_ ∧ _))

instance {W : Type*} [LinearOrder W] (e : Eviction W) (source : UInt64) (now : ℤ) (space : ℕ)
    (cache : Cache) : Decidable (EnoughBefore e source now space cache) :=
  inferInstanceAs (Decidable (_ ≤ _))

instance {W : Type*} [LinearOrder W] (e : Eviction W) (d : Demand) : Decidable (d.Harmless e) :=
  inferInstanceAs (Decidable (d.request.Releases d.first d.cache →
    ∀ item ∈ d.cache.items.search d.source, item.refcount = 0 →
      EnoughBefore e d.source d.now (d.request.space e.sizes) d.cache))

/-! ### Counting strings -/

theorem Item.SameStore.strings {item item' : Item HistoryValue} (h : item.SameStore item') :
  item'.strings = item.strings
  := by rw [Item.strings, Item.strings, Item.values, Item.values, h.chunks, h.valueType]

section Counts

variable {cache : Cache} {held held' : Bytes → ℕ} {itemid : UInt64}
  {item item' : Item HistoryValue}

theorem Cache.Counts.setItem (h : cache.Counts held)
    (hsearch : cache.items.search itemid = some item)
    (hstrings : ∀ t, item'.strings.count t + held' t = item.strings.count t + held t) :
  ({ cache with items := cache.items.set itemid item' } : Cache).Counts held'
  where
  count := by
    intro t
    have hcount := h.count t
    have hperm : cache.strings.Perm
        (item.strings ++ (cache.items.remove itemid).entries.flatMap fun e => e.2.strings) :=
      (Table.entries_perm hsearch).flatMap_right _
    rw [hperm.count_eq, List.count_append] at hcount
    have hstrings' := hstrings t
    change poolCount cache.strpool t = List.count t (item'.strings ++
      (cache.items.remove itemid).entries.flatMap fun e => e.2.strings) + held' t
    rw [List.count_append]
    omega
  positive := h.positive

theorem Cache.Counts.insertItem (h : cache.Counts held)
    (hsearch : cache.items.search itemid = none) (hstrings : item'.strings = []) :
  ({ cache with items := cache.items.set itemid item' } : Cache).Counts held
  where
  count := by
    intro t
    have hkeys := Table.search_eq_none_iff.mp hsearch
    have hsame : (cache.items.remove itemid).entries = cache.items.entries := by
      apply List.filter_eq_self.mpr
      intro entry hentry
      rw [decide_eq_true_iff]
      rintro rfl
      exact hkeys (List.mem_map_of_mem hentry)
    change poolCount cache.strpool t = List.count t (item'.strings ++
      (cache.items.remove itemid).entries.flatMap fun e => e.2.strings) + held t
    rw [hstrings, hsame]
    exact h.count t
  positive := h.positive

theorem Cache.Counts.free (sizes : Sizes) (h : cache.Counts held) {strings : List Bytes}
    (hheld : ∀ t, held t = held' t + strings.count t) :
  ({ cache with strpool := unreference sizes cache.strpool strings } : Cache).Counts held'
  where
  count := by
    intro t
    have hcount := h.count t
    have hheld' := hheld t
    change poolCount (unreference sizes cache.strpool strings) t = cache.strings.count t + held' t
    rw [poolCount_unreference]
    omega
  positive := positive_unreference h.positive strings

end Counts

namespace Session

/-! ### Working on an item -/

/-- An operation works on an item with the property `R` and has the strings `held` copied to
the pool and not stored yet. The other items count their records. -/
structure Holds (itemid : UInt64) (held : List Bytes) (R : Item HistoryValue → Prop)
    (s : Session) : Prop where
  counts : s.cache.Counts fun t => held.count t
  found : ∃ item, s.cache.items.search itemid = some item ∧ R item
  others : ∀ k item, k ≠ itemid → s.cache.items.search k = some item → item.Counted

variable {W : Type*} [LinearOrder W] {e : Eviction W} {p : Platform HistoryValue} {now : ℤ}
  {itemid : UInt64} {held held' : List Bytes} {R R' : Item HistoryValue → Prop}

theorem Holds.mono {s : Session} (h : Holds itemid held R s) (hR : ∀ item, R item → R' item) :
  Holds itemid held R' s
  where
  counts := h.counts
  found := by
    obtain ⟨item, hsearch, hitem⟩ := h.found
    exact ⟨item, hsearch, hR item hitem⟩
  others := h.others

/-- The assertion about a whole operation is that of the item it works on. -/
theorem Holds.consistent {s : Session} (h : Holds itemid [] Item.Counted s) :
  s.cache.Consistent
  where
  counts := h.counts
  items := by
    intro k item hsearch
    by_cases hk : k = itemid
    · obtain ⟨item', hsearch', hitem⟩ := h.found
      rw [hk, hsearch'] at hsearch
      obtain rfl := Option.some.inj hsearch
      exact hitem
    · exact h.others k item hk hsearch

theorem Holds.of_consistent {s : Session} (h : s.cache.Consistent)
    (hfound : (s.cache.items.search itemid).isSome) :
  Holds itemid [] Item.Counted s
  where
  counts := h.counts
  found := by
    obtain ⟨item, hsearch⟩ := Option.isSome_iff_exists.mp hfound
    exact ⟨item, hsearch, h.items itemid item hsearch⟩
  others := fun k item _ hsearch => h.items k item hsearch

theorem readItem_eq {s : Session} {item : Item HistoryValue}
    (h : s.cache.items.search itemid = some item) :
  readItem itemid s = ⟨[], s, some item⟩
  := by
  simp only [readItem, bind, Procedure.andThen, Procedure.get, h]
  rfl

/-- What is done may depend on the item as it is. -/
theorem forItem {α : Type} {m : Procedure Session Demand α} {Q : α → Session → Prop}
    {good : Demand → Prop}
    (h : ∀ item, R item → Procedure.Triple good (Holds itemid held (· = item)) m Q) :
  Procedure.Triple good (Holds itemid held R) m Q
  := by
  intro s hs hgood
  obtain ⟨item, hsearch, hitem⟩ := hs.found
  exact h item hitem s ⟨hs.counts, ⟨item, hsearch, rfl⟩, hs.others⟩ hgood

/-- What is done after an item was read may depend on the item. -/
theorem readItem_spec {α : Type} {f : Item HistoryValue → Procedure Session Demand α}
    {Q : α → Session → Prop} {good : Demand → Prop}
    (h : ∀ item, R item →
      Procedure.Triple good (Holds itemid held (· = item)) (f item) Q) :
  Procedure.Triple good (Holds itemid held R) (readItem itemid >>= f) Q
  := by
  apply forItem
  intro item hitem s hs hgood
  obtain ⟨_, hsearch, heq⟩ := hs.found
  have hrun : (readItem itemid >>= f) s = f item s := by
    change Procedure.andThen (readItem itemid) f s = _
    simp only [Procedure.andThen, readItem_eq hsearch, List.nil_append, heq]
  rw [hrun] at hgood ⊢
  exact h item hitem s hs hgood

/-- Changing an item may move strings between the operation and the item. -/
theorem updateItem_spec {f : Item HistoryValue → Item HistoryValue} {good : Demand → Prop}
    (h : ∀ item, R item → R' (f item) ∧
      ∀ t, (f item).strings.count t + held'.count t = item.strings.count t + held.count t) :
  Procedure.Triple good (Holds itemid held R) (updateItem itemid f)
    fun _ => Holds itemid held' R'
  := by
  apply readItem_spec
  rintro item hitem s hs -
  obtain ⟨hR, hstrings⟩ := h item hitem
  obtain ⟨item', hsearch, rfl⟩ := hs.found
  refine ⟨⟨⟩, rfl, hs.counts.setItem hsearch hstrings, ⟨f item', ?_, hR⟩, ?_⟩
  · exact Table.search_set_self _ _ _
  · intro k other hk hother
    have hsame := Table.search_set_of_ne s.cache.items (f item') hk
    exact hs.others k other hk (hsame ▸ hother)

/-- The operation keeps the assertion about an item that counts its records. -/
abbrev Keeps {α : Type} (e : Eviction W) (itemid : UInt64) (m : Procedure Session Demand α) :
    Prop :=
  Procedure.Triple (Demand.Harmless e) (Holds itemid [] Item.Counted) m
    fun _ => Holds itemid [] Item.Counted

/-- A change that leaves the records alone. -/
theorem updateItem_keeps {f : Item HistoryValue → Item HistoryValue}
    (h : ∀ item : Item HistoryValue, item.SameStore (f item)) :
  Keeps e itemid (updateItem itemid f)
  := by
  apply updateItem_spec
  intro item hcounted
  refine ⟨(h item).counted hcounted, fun t => ?_⟩
  rw [(h item).strings]

theorem Keeps.of_item {α : Type} {m : Procedure Session Demand α} (h : Keeps e itemid m)
    {item : Item HistoryValue} (hcounted : item.Counted) :
  Procedure.Triple (Demand.Harmless e) (Holds itemid [] (· = item)) m
    fun _ => Holds itemid [] Item.Counted
  := h.before fun _ hs => hs.mono fun _ hitem => hitem ▸ hcounted

/-- The values that an item loses are freed. -/
theorem loseValues_spec {f : Item HistoryValue → Item HistoryValue}
    {lost : List (Record HistoryValue)} {good : Demand → Prop}
    (h : ∀ item, R item → R' (f item) ∧ item.strings.Perm
      ((f item).strings ++ lost.flatMap fun r => valueStrings item.valueType r.value)) :
  Procedure.Triple good (Holds itemid held R) (loseValues e itemid f lost)
    fun _ => Holds itemid held R'
  := by
  apply readItem_spec
  rintro item hitem s hs -
  obtain ⟨hR, hperm⟩ := h item hitem
  obtain ⟨item', hsearch, rfl⟩ := hs.found
  -- the strings of the lost values are in the hands of the operation, which frees them
  have hset : ({ s.cache with items := s.cache.items.set itemid (f item') } : Cache).Counts
      fun t => held.count t + (lost.flatMap fun r =>
        valueStrings item'.valueType r.value).count t := by
    apply hs.counts.setItem hsearch
    intro t
    rw [hperm.count_eq, List.count_append]
    omega
  have hfree := hset.free e.sizes fun t => rfl
  rw [← itemFreeValues_pool] at hfree
  refine ⟨⟨⟩, rfl, hfree, ⟨f item', ?_, hR⟩, ?_⟩
  · exact Table.search_set_self _ _ _
  · intro k other hk hother
    have hsame := Table.search_set_of_ne s.cache.items (f item') hk
    exact hs.others k other hk (hsame ▸ hother)

theorem strfreeAll_pool {sizes : Sizes} (pool : Table Bytes ℕ) (strings : List Bytes) :
  (strfreeAll sizes pool strings).1 = unreference sizes pool strings
  := foldl_fst (itemStrfree sizes) strings pool 0

/-- Strings that were copied are freed again. -/
theorem strfree_spec {strings : List Bytes} {good : Demand → Prop} :
  Procedure.Triple good (Holds itemid (held ++ strings) R) (strfree e strings)
    fun _ => Holds itemid held R
  := by
  rintro s hs -
  refine ⟨⟨⟩, rfl, ?_, hs.found, hs.others⟩
  have hfree := hs.counts.free e.sizes fun t => List.count_append
  rw [← strfreeAll_pool] at hfree
  exact hfree

/-! ### Requests for space -/

/-- A harmless request keeps the item it is made for, and what is left of the others. -/
theorem itemRequest_keeps {first : Bool} (second : Bool) {cache : Cache} {request : SpaceRequest}
    (hharmless : Demand.Harmless e ⟨itemid, now, first, cache, request⟩) :
  (ValueCache.itemRequest e itemid now first second cache request).1.items.search itemid =
      cache.items.search itemid ∧
    ∀ k, (ValueCache.itemRequest e itemid now first second cache request).1.items.search k =
        cache.items.search k ∨
      (ValueCache.itemRequest e itemid now first second cache request).1.items.search k = none
  := by
  obtain ⟨⟨-, hitems⟩ | ⟨hreleases, hitems⟩, -⟩ :=
    itemRequest_cases e itemid now first second cache request
  · rw [hitems]
    exact ⟨rfl, fun k => .inl rfl⟩
  · rw [hitems]
    exact ⟨(source_kept_iff _ cache).mpr (hharmless hreleases),
      (shrinks_releaseSpace e itemid now _ cache).others⟩

theorem itemRequest_spec (request : SpaceRequest) :
  Procedure.Triple (Demand.Harmless e) (Holds itemid held R) (itemRequest e now itemid request)
    fun granted s => (s.cache.Counts fun t => held.count t + request.granted granted t) ∧
      (∃ item, s.cache.items.search itemid = some item ∧ R item) ∧
      ∀ k item, k ≠ itemid → s.cache.items.search k = some item → item.Counted
  := by
  intro s hs hgood
  have hkeeps := itemRequest_keeps (s.memory.headD (true, true)).2
    (hgood ⟨itemid, now, (s.memory.headD (true, true)).1, s.cache, request⟩ List.mem_cons_self)
  obtain ⟨-, hcounts⟩ := itemRequest_cases e itemid now (s.memory.headD (true, true)).1
    (s.memory.headD (true, true)).2 s.cache request
  refine ⟨_, rfl, hcounts _ hs.counts, ?_, ?_⟩
  · obtain ⟨item, hsearch, hitem⟩ := hs.found
    exact ⟨item, hkeeps.1.trans hsearch, hitem⟩
  · intro k item hk hsearch
    obtain hsame | hnone := hkeeps.2 k
    · exact hs.others k item hk (hsame.symm.trans hsearch)
    · cases hnone.symm.trans hsearch

theorem itemMalloc_spec (size : ℕ) :
  Procedure.Triple (Demand.Harmless e) (Holds itemid held R) (itemMalloc e now itemid size)
    fun _ => Holds itemid held R
  := by
  apply (itemRequest_spec _).after
  rintro granted s ⟨hcounts, hfound, hothers⟩
  exact ⟨hcounts, hfound, hothers⟩

theorem itemStrdup_spec (str : Bytes) :
  Procedure.Triple (Demand.Harmless e) (Holds itemid held R) (itemStrdup e now itemid str)
    fun copied => Holds itemid (held ++ if copied then [str] else []) R
  := by
  apply (itemRequest_spec _).after
  rintro granted s ⟨hcounts, hfound, hothers⟩
  refine ⟨?_, hfound, hothers⟩
  have heq : (fun t => held.count t + (SpaceRequest.strdup str).granted granted t) =
      fun t => (held ++ if granted = true then [str] else []).count t := by
    funext t
    cases granted <;> simp [SpaceRequest.granted, List.count_singleton]
  rw [← heq]
  exact hcounts

/-! ### Copying values -/

theorem copySource_spec (source : Option Bytes) :
  Procedure.Triple (Demand.Harmless e) (Holds itemid held R) (copySource e now itemid source)
    fun copied => Holds itemid (held ++ if copied then source.toList else []) R
  := by
  cases source with
  | none =>
    refine .pure fun s hs => ?_
    rw [if_pos rfl, Option.toList_none, List.append_nil]
    exact hs
  | some source => exact itemStrdup_spec source

/-- Either both strings of a log value are copied or none of them. -/
theorem itemLogdup_spec (source : Option Bytes) (value : Bytes) :
  Procedure.Triple (Demand.Harmless e) (Holds itemid held R)
    (itemLogdup e now itemid source value)
    fun copied => Holds itemid (held ++ if copied then source.toList ++ [value] else []) R
  := by
  have hfail : ∀ s, Holds itemid held R s →
      Holds itemid (held ++ if false = true then source.toList ++ [value] else []) R s := by
    intro s hs
    rw [if_neg Bool.false_ne_true, List.append_nil]
    exact hs
  unfold itemLogdup
  refine (itemMalloc_spec _).bind fun found => .ite (fun _ => ?_) fun _ => .pure hfail
  refine (copySource_spec source).bind fun copied => .ite (fun hcopied => ?_) fun hcopied => ?_
  · rw [hcopied, if_pos rfl]
    refine (itemStrdup_spec value).bind fun copied' => .ite (fun hcopied' => ?_) fun hcopied' => ?_
    · rw [hcopied', if_pos rfl]
      refine .pure fun s hs => ?_
      rw [if_pos rfl, ← List.append_assoc]
      exact hs
    · rw [if_neg hcopied', List.append_nil]
      exact strfree_spec.bind fun _ => .pure hfail
  · rw [if_neg hcopied, List.append_nil]
    exact .pure hfail

theorem copyStrings_spec (valueType : UInt8) (value : HistoryValue) :
  Procedure.Triple (Demand.Harmless e) (Holds itemid held R)
    (copyStrings e now itemid valueType value)
    fun copied => Holds itemid (held ++ if copied then valueStrings valueType value else []) R
  := by
  have hnone : valueStrings valueType value = [] →
      Procedure.Triple (Demand.Harmless e) (Holds itemid held R) (pure true)
        fun copied => Holds itemid
          (held ++ if copied then valueStrings valueType value else []) R := by
    intro hempty
    refine .pure fun s hs => ?_
    rw [hempty, ite_self, List.append_nil]
    exact hs
  unfold copyStrings
  refine .ite (fun htext => ?_) fun htext => .ite (fun hlog => ?_) fun hlog => ?_
  · cases value with
    | str s =>
      rw [valueStrings, if_pos htext]
      exact itemStrdup_spec s
    | number bits => exact hnone (by simp [valueStrings])
    | log source value => exact hnone (by simp [valueStrings, htext])
  · cases value with
    | log source value =>
      rw [valueStrings, if_neg htext, if_pos hlog]
      exact itemLogdup_spec source value
    | number bits => exact hnone (by simp [valueStrings])
    | str s => exact hnone (by simp [valueStrings, htext])
  · exact hnone (by simp [valueStrings, htext, hlog])

/-- The copying loop, for a way to store a value that uses up one of the places `left`. -/
theorem copyLoop_spec {valueType : UInt8}
    {store : Item HistoryValue → Record HistoryValue → Item HistoryValue}
    {R : ℕ → Item HistoryValue → Prop}
    (hstore : ∀ left item value, R (left + 1) item → R left (store item value) ∧
      (store item value).strings.Perm (item.strings ++ valueStrings valueType value.value))
    (values : List (Record HistoryValue)) :
  Procedure.Triple (Demand.Harmless e) (Holds itemid [] (R values.length))
    (copyLoop e now itemid valueType store values)
    fun _ => Holds itemid [] fun item => ∃ left, R left item
  := by
  induction values with
  | nil => exact .pure fun s hs => hs.mono fun item hitem => ⟨0, hitem⟩
  | cons value values ih =>
    refine (copyStrings_spec valueType value.value).bind fun copied =>
      .ite (fun hcopied => ?_) fun hcopied => ?_
    · rw [hcopied, if_pos rfl, List.nil_append]
      refine (updateItem_spec fun item hitem => ?_).bind fun _ => ih
      obtain ⟨hleft, hperm⟩ := hstore values.length item value hitem
      refine ⟨hleft, fun t => ?_⟩
      rw [hperm.count_eq, List.count_append, List.count_nil, Nat.add_zero]
    · rw [if_neg hcopied, List.append_nil]
      exact .pure fun s hs => hs.mono fun item hitem => ⟨_, hitem⟩

/-- A stored value adds its strings to those of the item. -/
theorem strings_perm {item item' : Item HistoryValue} {value : Record HistoryValue}
    (htype : item'.valueType = item.valueType) (hvalues : item'.values.Perm (item.values ++ [value])) :
  item'.strings.Perm (item.strings ++ valueStrings item.valueType value.value)
  := by
  rw [Item.strings, Item.strings, htype]
  have hperm := hvalues.flatMap_right fun r => valueStrings item.valueType r.value
  rw [List.flatMap_append, List.flatMap_singleton] at hperm
  exact hperm

/-- The copied values are counted, also when a copy fails. -/
theorem itemCopyValues_spec {store : Item HistoryValue → Record HistoryValue → Item HistoryValue}
    {copied : Item HistoryValue → Item HistoryValue → ℤ} {start : Item HistoryValue}
    {values : List (Record HistoryValue)} (R : ℕ → Item HistoryValue → Prop)
    (hstart : R values.length start)
    (hstore : ∀ left item value, R (left + 1) item → R left (store item value) ∧
      (store item value).strings.Perm (item.strings ++ valueStrings start.valueType value.value))
    (hcounted : ∀ left item, R left item →
      Item.Counted { item with valuesTotal := item.valuesTotal + copied start item }) :
  Procedure.Triple (Demand.Harmless e) (Holds itemid [] (· = start))
    (itemCopyValues e now store copied itemid values) fun _ => Holds itemid [] Item.Counted
  := by
  apply readItem_spec
  rintro _ rfl
  have hloop : Procedure.Triple (Demand.Harmless e) (Holds itemid [] (R values.length))
      (copyLoop e now itemid _ store values)
      fun _ => Holds itemid [] fun item => ∃ left, R left item := copyLoop_spec hstore values
  refine (hloop.before fun s hs => hs.mono fun item hitem => hitem ▸ hstart).bind fun complete => ?_
  refine (updateItem_spec fun item hitem => ?_).bind fun _ => .pure fun s hs => hs
  obtain ⟨left, hleft⟩ := hitem
  exact ⟨hcounted left item hleft, fun t => rfl⟩

theorem itemCopyValuesAtEnd_spec {start : Item HistoryValue} {values : List (Record HistoryValue)}
    (hcounted : start.Counted) (hvalues : values ≠ []) (hroom : values.length ≤ headSlots start) :
  Procedure.Triple (Demand.Harmless e) (Holds itemid [] (· = start))
    (itemCopyValuesAtEnd e now itemid values) fun _ => Holds itemid [] Item.Counted
  := by
  apply itemCopyValues_spec (CopiesAtEnd start.valueType (headLastValue start))
  · exact copiesAtEnd_start hcounted (List.length_pos_iff.mpr hvalues) hroom
  · intro left item value h
    obtain ⟨hleft, heq⟩ := h.store value
    have hperm := strings_perm (hleft.valueType.trans h.valueType.symm) (.of_eq heq)
    rw [h.valueType] at hperm
    exact ⟨hleft, hperm⟩
  · exact fun left item hleft => hleft.counted

theorem itemCopyValuesAtBeginning_spec {start : Item HistoryValue}
    {values : List (Record HistoryValue)} (hcounted : start.Counted) (hvalues : values ≠ [])
    (hroom : values.length ≤ tailFirstValue start) :
  Procedure.Triple (Demand.Harmless e) (Holds itemid [] (· = start))
    (itemCopyValuesAtBeginning e now itemid values) fun _ => Holds itemid [] Item.Counted
  := by
  apply itemCopyValues_spec (CopiesAtBeginning start.valueType (tailFirstValue start))
  · rw [List.length_reverse]
    exact copiesAtBeginning_start hcounted (List.length_pos_iff.mpr hvalues) hroom
  · intro left item value h
    obtain ⟨hleft, heq⟩ := h.store value
    have hperm := strings_perm (hleft.valueType.trans h.valueType.symm)
      (heq ▸ (List.perm_append_singleton value item.values).symm)
    rw [h.valueType] at hperm
    exact ⟨hleft, hperm⟩
  · exact fun left item hleft => hleft.counted

/-! ### Making room -/

theorem itemAddChunk_spec {nslots : ℕ} {link : Item HistoryValue → Item HistoryValue}
    (h : ∀ item, R item → R' (link item) ∧ (link item).strings = item.strings) :
  Procedure.Triple (Demand.Harmless e) (Holds itemid [] R) (itemAddChunk e now itemid nslots link)
    fun added => Holds itemid [] (if added then R' else R)
  := by
  refine (itemMalloc_spec _).bind fun found => .ite (fun _ => ?_) fun _ => .pure fun s hs => hs
  refine (updateItem_spec fun item hitem => ?_).bind fun _ => .pure fun s hs => hs
  obtain ⟨hR, hstrings⟩ := h item hitem
  exact ⟨hR, fun t => by rw [hstrings]⟩

/-- The item counts its records and has as many slots as were found, if any were. -/
def HasRoom (slots : Item HistoryValue → ℕ) (room : Option ℕ) (item : Item HistoryValue) :
    Prop :=
  item.Counted ∧ ∀ nslots ∈ room, slots item = nslots ∧ 0 < nslots

/-- Room is made by linking a chunk, unless there are free slots. -/
theorem makeRoom_spec {slots : Item HistoryValue → ℕ} {nslots : ℕ} (hpos : 0 < nslots)
    {link : Item HistoryValue → Item HistoryValue} {item : Item HistoryValue}
    (hcounted : item.Counted)
    (hlink : slots item = 0 → (link item).Counted ∧ slots (link item) = nslots ∧
      (link item).strings = item.strings) :
  Procedure.Triple (Demand.Harmless e) (Holds itemid [] (· = item))
    (if slots item = 0 then do
      if ← itemAddChunk e now itemid nslots link then pure (some nslots) else pure none
    else pure (some (slots item)))
    fun room => Holds itemid [] (HasRoom slots room)
  := by
  refine .ite (fun hfull => ?_) fun hfree => ?_
  · obtain ⟨hlinked, hslots, hstrings⟩ := hlink hfull
    have hadd : ∀ item', item' = item → (link item').Counted ∧ slots (link item') = nslots ∧
        (link item').strings = item'.strings := by
      rintro _ rfl
      exact ⟨hlinked, hslots, hstrings⟩
    refine Procedure.Triple.bind (Q := fun added => Holds itemid []
      (if added then fun item' => item'.Counted ∧ slots item' = nslots else (· = item)))
      (itemAddChunk_spec fun item' hitem' => ?_) fun added => .ite (fun hadded => ?_) fun hadded => ?_
    · obtain ⟨h1, h2, h3⟩ := hadd item' hitem'
      exact ⟨⟨h1, h2⟩, h3⟩
    · rw [if_pos hadded]
      refine .pure fun s hs => hs.mono ?_
      rintro item' ⟨hitem', hslots'⟩
      refine ⟨hitem', fun n hn => ?_⟩
      obtain rfl := Option.some.inj hn
      exact ⟨hslots', hpos⟩
    · rw [if_neg hadded]
      refine .pure fun s hs => hs.mono ?_
      rintro _ rfl
      exact ⟨hcounted, nofun⟩
  · refine .pure fun s hs => hs.mono ?_
    rintro _ rfl
    refine ⟨hcounted, fun n hn => ?_⟩
    obtain rfl := Option.some.inj hn
    exact ⟨rfl, Nat.pos_of_ne_zero hfree⟩

theorem makeHeadRoom_spec :
  Procedure.Triple (Demand.Harmless e) (Holds itemid [] Item.Counted)
    (makeHeadRoom e p now itemid) fun room => Holds itemid [] (HasRoom headSlots room)
  := by
  apply readItem_spec
  intro item hcounted
  apply makeRoom_spec (getNewChunkSlotCount_pos _) hcounted
  intro _
  obtain ⟨hlinked, hvalues, hslots⟩ := linkHead_spec p _ hcounted
  exact ⟨hlinked, hslots, by rw [Item.strings, hvalues]; rfl⟩

theorem makeTailRoom_spec (count : ℕ) :
  Procedure.Triple (Demand.Harmless e) (Holds itemid [] Item.Counted)
    (makeTailRoom e p now itemid count) fun room => Holds itemid [] (HasRoom tailFirstValue room)
  := by
  apply readItem_spec
  intro item hcounted
  apply makeRoom_spec (getNewChunkSlotCount_pos _) hcounted
  intro hfull
  obtain ⟨hlinked, hvalues, hslots⟩ := linkTail_spec p _ hcounted hfull
  exact ⟨hlinked, hslots, by rw [Item.strings, hvalues]; rfl⟩

/-! ### Adding values -/

/-- Every round copies at least one value, so the rounds suffice. -/
theorem fillLoop_keeps {makeRoom : ℕ → Procedure Session Demand (Option ℕ)}
    {copyValues : List (Record HistoryValue) → Procedure Session Demand Bool}
    {split : ℕ → List (Record HistoryValue) →
      List (Record HistoryValue) × List (Record HistoryValue)}
    {slots : Item HistoryValue → ℕ}
    (hroom : ∀ count, Procedure.Triple (Demand.Harmless e) (Holds itemid [] Item.Counted)
      (makeRoom count) fun room => Holds itemid [] (HasRoom slots room))
    (hcopy : ∀ item values, item.Counted → values ≠ [] → values.length ≤ slots item →
      Procedure.Triple (Demand.Harmless e) (Holds itemid [] (· = item)) (copyValues values)
        fun _ => Holds itemid [] Item.Counted)
    (hsplit : ∀ copySlots values, copySlots ≤ values.length →
      (split copySlots values).1.length = copySlots ∧
        (split copySlots values).2.length = values.length - copySlots)
    (rounds : ℕ) {values : List (Record HistoryValue)} (hrounds : values.length ≤ rounds) :
  Keeps e itemid (fillLoop makeRoom copyValues split rounds values)
  := by
  induction rounds generalizing values with
  | zero =>
    obtain rfl := List.eq_nil_of_length_eq_zero (Nat.le_zero.mp hrounds)
    exact .pure fun s hs => hs
  | succ rounds ih =>
    cases values with
    | nil => exact .pure fun s hs => hs
    | cons value values =>
      refine (hroom _).bind fun room => ?_
      cases room with
      | none => exact .pure fun s hs => hs.mono fun item hitem => hitem.1
      | some nslots =>
        apply forItem
        rintro item ⟨hcounted, hslots⟩
        obtain ⟨hslots, hpos⟩ := hslots nslots rfl
        obtain ⟨hpart, hrest⟩ := hsplit _ (value :: values) (min_le_right nslots _)
        dsimp only
        generalize hcopySlots : min nslots (value :: values).length = copySlots at hpart hrest ⊢
        rw [List.length_cons] at hrounds hcopySlots hrest
        have hne : (split copySlots (value :: values)).1 ≠ [] := by
          rw [← List.length_pos_iff, hpart]
          omega
        refine (hcopy item _ hcounted hne ?_).bind fun complete =>
          .ite (fun _ => ih ?_) fun _ => .pure fun s hs => hs
        · rw [hpart, hslots]
          omega
        · rw [hrest]
          omega

theorem appendValues_keeps (values : List (Record HistoryValue)) :
  Keeps e itemid (appendValues e p now itemid values)
  := by
  apply fillLoop_keeps (fun _ => makeHeadRoom_spec) _ _ _ le_rfl
  · exact fun item values hcounted hvalues hroom =>
      itemCopyValuesAtEnd_spec hcounted hvalues hroom
  · intro copySlots values hle
    rw [List.splitAt_eq, List.length_take, List.length_drop]
    exact ⟨min_eq_left hle, rfl⟩

theorem prependValues_keeps (values : List (Record HistoryValue)) :
  Keeps e itemid (prependValues e p now itemid values)
  := by
  apply fillLoop_keeps makeTailRoom_spec _ _ _ le_rfl
  · exact fun item values hcounted hvalues hroom =>
      itemCopyValuesAtBeginning_spec hcounted hvalues hroom
  · intro copySlots values hle
    rw [List.splitAt_eq, Prod.swap_prod_mk, List.length_take, List.length_drop]
    omega

theorem appendMark_keeps (headKept reused : Bool) (values : List (Record HistoryValue)) :
  Keeps e itemid (appendMark e p now itemid headKept reused values)
  := by
  apply readItem_spec
  intro start hcounted
  refine ((appendValues_keeps values).of_item hcounted).bind fun complete =>
    .ite (fun _ => ?_) fun _ => .pure fun s hs => hs
  exact .bind (updateItem_keeps fun item => ⟨rfl, rfl, rfl⟩) fun _ => .pure fun s hs => hs

theorem itemRemoveValuesFrom_spec {item : Item HistoryValue} (hcounted : item.Counted)
    {cur : Cursor HistoryValue} (hcur : cur.Within item.chunks) :
  Procedure.Triple (Demand.Harmless e) (Holds itemid [] (· = item))
    (itemRemoveValuesFrom e itemid cur) fun _ => Holds itemid [] Item.Counted
  := by
  apply loseValues_spec
  rintro _ rfl
  obtain ⟨hleft, hvalues⟩ := itemRemoveValuesFrom_counted hcounted hcur
  refine ⟨hleft, .of_eq ?_⟩
  rw [Item.strings, hvalues, List.flatMap_append]
  congr 1
  rw [Item.strings]
  congr 2
  unfold ValueCache.itemRemoveValuesFrom
  dsimp only
  split
  · split <;> rfl
  · rfl

theorem itemAddValuesAtEnd_keeps (reused : Bool) (values : List (Record HistoryValue)) :
  Keeps e itemid (itemAddValuesAtEnd e p now itemid reused values)
  := by
  apply readItem_spec
  intro item hcounted
  split
  · rename_i tail rest head value others hchunks hlast
    refine .ite (fun hlate => ?_) fun hnew => (appendMark_keeps _ _ _).of_item hcounted
    dsimp only
    generalize (value :: others).takeWhile _ = skipped
    have hskip := itemSkipValues_sameStore now item skipped
    have hskipped : Procedure.Triple (Demand.Harmless e) (Holds itemid [] (· = item))
        (updateItem itemid fun item => itemSkipValues now item skipped)
        fun _ => Holds itemid [] (· = itemSkipValues now item skipped) := by
      apply updateItem_spec
      rintro _ rfl
      exact ⟨rfl, fun t => by rw [hskip.strings]⟩
    refine hskipped.bind fun _ => ?_
    have hcounted' := hskip.counted hcounted
    split
    · exact .pure fun s hs => hs.mono fun item' hitem' => hitem' ▸ hcounted'
    · have hwithin := itemSplicePlace_within now hcounted.chunks hchunks value
      rw [← hskip.chunks] at hwithin
      exact (itemRemoveValuesFrom_spec hcounted' hwithin).bind fun _ => appendMark_keeps _ _ _
  · exact (appendMark_keeps _ _ _).of_item hcounted

theorem itemAddValuesAtBeginning_keeps (values : List (Record HistoryValue)) :
  Keeps e itemid (itemAddValuesAtBeginning e p now itemid values)
  := by
  apply readItem_spec
  intro item hcounted
  split
  · exact (prependValues_keeps _).of_item hcounted
  · exact (prependValues_keeps _).of_item hcounted

/-! ### Clean-up -/

theorem itemCleanCache_keeps :
  Keeps e itemid (itemCleanCache e now itemid)
  := by
  apply readItem_spec
  intro item hcounted
  apply loseValues_spec
  rintro item' rfl
  obtain ⟨hleft, htype, hperm⟩ := itemCleanCache_counted now hcounted
  refine ⟨hleft, ?_⟩
  have hstrings := hperm.flatMap_right fun r => valueStrings item'.valueType r.value
  rw [List.flatMap_append] at hstrings
  rw [Item.strings, Item.strings, htype]
  exact hstrings

theorem itemChangeValueType_keeps (valueType : UInt8) :
  Keeps e itemid (itemChangeValueType e itemid valueType)
  := by
  apply readItem_spec
  intro item hcounted
  apply loseValues_spec
  rintro _ rfl
  exact ⟨itemNew_counted _ _, .refl _⟩

theorem prepareItem_keeps (valueType : UInt8) :
  Keeps e itemid (prepareItem e itemid valueType)
  := by
  apply readItem_spec
  intro item hcounted
  apply Keeps.of_item _ hcounted
  refine .ite (fun _ => .pure fun s hs => hs) fun _ => ?_
  exact .bind (.when (fun _ => itemChangeValueType_keeps valueType) fun _ s hs => hs)
    fun _ => .pure fun s hs => hs

/-- Removing an item takes its strings out of the pool. -/
theorem removeItem_spec :
  Procedure.Triple (Demand.Harmless e) (Holds itemid [] Item.Counted) (removeItem e itemid)
    fun _ s => s.cache.Consistent
  := by
  apply readItem_spec
  rintro item - s hs -
  obtain ⟨item', hsearch, rfl⟩ := hs.found
  have hshrinks : Shrinks s.cache (dropItem e.sizes s.cache itemid item').1 :=
    shrinks_dropItem hsearch
  refine ⟨⟨⟩, rfl, hshrinks.counts _ hs.counts, ?_⟩
  intro k item hk
  obtain hsame | hnone := hshrinks.others k
  · have hne : k ≠ itemid := by
      rintro rfl
      change (s.cache.items.remove k).search k = some item at hk
      rw [Table.search_remove_self] at hk
      cases hk
    exact hs.others k item hne (hsame.symm.trans hk)
  · cases hnone.symm.trans hk

/-- An item whose last reference is released may be removed. -/
theorem itemRelease_spec :
  Procedure.Triple (Demand.Harmless e) (Holds itemid [] Item.Counted) (itemRelease e now itemid)
    fun _ s => s.cache.Consistent
  := by
  refine .bind (updateItem_keeps fun item => ⟨rfl, rfl, rfl⟩) fun _ => readItem_spec ?_
  intro item hcounted
  have hend : ∀ (s : Session), Holds itemid [] Item.Counted s → s.cache.Consistent :=
    fun s hs => hs.consistent
  refine .ite (fun _ => .before (.ite (fun _ => removeItem_spec) fun _ => ?_)
    fun s hs => hs.mono fun item' hitem' => hitem' ▸ hcounted) fun _ => ?_
  · refine .bind (.when (fun _ => itemCleanCache_keeps) fun _ s hs => hs) fun _ => ?_
    exact .after (updateItem_keeps fun item => ⟨rfl, rfl, rfl⟩) fun _ => hend
  · exact .pure fun s hs => hend s (hs.mono fun item' hitem' => hitem' ▸ hcounted)

/-! ### Requests for history -/

variable {rows : List (Record HistoryValue)}

/-- Reading from the database leaves the cache alone. -/
theorem readDatabase_spec {good : Demand → Prop} {P : Cache → Prop}
    (values : List (Record HistoryValue)) :
  Procedure.Triple good (fun s => P s.cache) (readDatabase values) fun _ s => P s.cache
  := fun _ hs _ => ⟨_, rfl, hs⟩

theorem readDatabase_keeps (values : List (Record HistoryValue)) :
  Keeps e itemid (readDatabase values)
  := fun _ hs _ => ⟨_, rfl, hs.counts, hs.found, hs.others⟩

theorem itemAddRecords_keeps (records : List (Record HistoryValue)) :
  Keeps e itemid (itemAddRecords e p now itemid records)
  := by
  refine (readDatabase_keeps records).bind fun answer => ?_
  cases answer with
  | none => exact .pure fun s hs => hs
  | some records =>
    refine .ite (fun _ => ?_) fun _ => .pure fun s hs => hs
    exact (itemAddValuesAtBeginning_keeps _).bind fun added =>
      .ite (fun _ => .pure fun s hs => hs) fun _ => .pure fun s hs => hs

theorem itemCacheValuesByTime_keeps (seconds timestamp : ℤ) :
  Keeps e itemid (itemCacheValuesByTime e p now rows itemid seconds timestamp)
  := by
  apply readItem_spec
  intro item hcounted
  apply Keeps.of_item _ hcounted
  exact .ite (fun _ => itemAddRecords_keeps _) fun _ => .pure fun s hs => hs

theorem itemCacheValuesByCount_keeps (count : ℤ) (timestamp : Timespec) :
  Keeps e itemid (itemCacheValuesByCount e p now rows itemid count timestamp)
  := by
  apply readItem_spec
  intro item hcounted
  apply Keeps.of_item _ hcounted
  exact .ite (fun _ => itemAddRecords_keeps _) fun _ => .pure fun s hs => hs

theorem answerFrom_keeps {misses : ℕ → ℕ}
    {answer : Item HistoryValue → Item HistoryValue × List (Record HistoryValue)}
    (h : ∀ item : Item HistoryValue, item.SameStore (answer item).1) :
  Keeps e itemid (answerFrom itemid misses answer)
  := by
  apply readItem_spec
  intro item hcounted
  apply Keeps.of_item _ hcounted
  refine .bind (updateItem_keeps fun item' => ?_) fun _ => .pure fun s hs => hs
  obtain ⟨htype, hchunks, htotal⟩ := h item'
  exact ⟨htype, hchunks, htotal⟩

theorem itemGetValueRange_keeps (seconds : ℤ) (count : ℕ) (timestamp : ℤ) :
  Keeps e itemid (itemGetValueRange e p now rows itemid seconds count timestamp)
  := by
  have hanswer : ∀ (misses : ℕ → ℕ)
      (answer : Item HistoryValue → Item HistoryValue × List (Record HistoryValue)),
      (∀ item : Item HistoryValue, item.SameStore (answer item).1) →
      Keeps e itemid (answerFrom itemid misses answer >>= fun values => pure (some values)) :=
    fun misses answer h => (answerFrom_keeps h).bind fun _ => .pure fun s hs => hs
  refine .ite (fun _ => ?_) fun _ => ?_
  · refine (itemCacheValuesByTime_keeps seconds timestamp).bind fun read => ?_
    cases read with
    | none => exact .pure fun s hs => hs
    | some recordsRead =>
      exact hanswer _ _ fun item => itemGetValuesByTime_sameStore now item seconds timestamp
  · refine (itemCacheValuesByCount_keeps count _).bind fun read => ?_
    cases read with
    | none => exact .pure fun s hs => hs
    | some recordsRead =>
      exact hanswer _ _ fun item => itemGetValuesByCount_sameStore now item count timestamp

theorem itemGetValue_keeps (ts : Timespec) :
  Keeps e itemid (itemGetValue e p now rows itemid ts)
  := by
  apply readItem_spec
  intro item hcounted
  apply Keeps.of_item _ hcounted
  have hcache : Keeps e itemid (cacheUnless e p now rows itemid (startsBefore ts item) ts) :=
    .ite (fun _ => .pure fun s hs => hs) fun _ => itemCacheValuesByCount_keeps _ _
  refine hcache.bind fun read => ?_
  cases read with
  | none =>
    exact .bind (updateItem_keeps fun item => ⟨rfl, rfl, rfl⟩) fun _ => .pure fun s hs => hs
  | some recordsRead =>
    apply readItem_spec
    intro item hcounted
    apply Keeps.of_item _ hcounted
    split
    · exact .bind (updateItem_keeps fun item => ⟨rfl, rfl, rfl⟩) fun _ => .pure fun s hs => hs
    · exact .bind (updateItem_keeps fun item => ⟨rfl, rfl, rfl⟩) fun _ => .pure fun s hs => hs

/-! ### The functions of the interface -/

/-- Started in a consistent cache, the operation ends in one. -/
abbrev Sound {α : Type} (e : Eviction W) (m : Procedure Session Demand α) : Prop :=
  Procedure.Triple (Demand.Harmless e) (fun s => s.cache.Consistent) m
    fun _ s => s.cache.Consistent

theorem Sound.of_found {α : Type} {m m' : Procedure Session Demand α}
    (hm : Procedure.Triple (Demand.Harmless e) (Holds itemid [] Item.Counted) m
      fun _ s => s.cache.Consistent)
    (hm' : Procedure.Triple (Demand.Harmless e)
      (fun s => s.cache.Consistent ∧ s.cache.items.search itemid = none) m'
      fun _ s => s.cache.Consistent) :
  Sound e (Procedure.get >>= fun s =>
    if (s.cache.items.search itemid).isSome then m else m')
  := by
  apply Procedure.Triple.inspect
  intro s hs
  refine .ite (fun hfound => hm.before ?_) fun hnone => hm'.before ?_
  · rintro _ rfl
    exact .of_consistent hs hfound
  · rintro _ rfl
    exact ⟨hs, by simpa using hnone⟩

theorem addValue_sound (valueType : UInt8) (reused : Bool) (value : Record HistoryValue) :
  Sound e (addValue e p now itemid valueType reused value)
  := by
  apply Sound.of_found _ (.pure fun s hs => hs.1)
  refine .bind (updateItem_keeps fun item => ⟨rfl, rfl, rfl⟩) fun _ => readItem_spec ?_
  intro item hcounted
  refine Procedure.Triple.before ?_ fun s hs => hs.mono fun item' hitem' => hitem' ▸ hcounted
  refine .bind (.when (fun _ => itemChangeValueType_keeps valueType) fun _ s hs => hs) fun _ => ?_
  refine (itemAddValuesAtEnd_keeps reused [value]).bind fun added => ?_
  refine .bind (.when (fun _ => updateItem_keeps fun item => ⟨rfl, rfl, rfl⟩) fun _ s hs => hs)
    fun _ => ?_
  exact itemRelease_spec.bind fun _ => .pure fun s hs => hs

/-- There is an item now, or the cache is as good as before. -/
def Added (itemid : UInt64) (present : Bool) (s : Session) : Prop :=
  if present then Holds itemid [] Item.Counted s else s.cache.Consistent

theorem insertItem_spec (valueType : UInt8) :
  Procedure.Triple (Demand.Harmless e)
    (fun s => s.cache.Consistent ∧ s.cache.items.search itemid = none)
    (insertItem itemid valueType) (Added itemid)
  := by
  apply Procedure.Triple.inspect
  rintro s ⟨hs, hnone⟩
  refine .ite (fun _ => ?_) fun _ => ?_
  · rintro _ - -
    refine ⟨true, rfl, ?_⟩
    change Holds itemid [] Item.Counted _
    refine ⟨hs.counts.insertItem hnone rfl, ⟨_, Table.search_set_self _ _ _, itemNew_counted _ _⟩, ?_⟩
    intro k item hk hsearch
    have hsame := Table.search_set_of_ne s.cache.items
      (itemNew itemid valueType : Item HistoryValue) hk
    exact hs.items k item (hsame ▸ hsearch)
  · rintro _ - -
    exact ⟨false, rfl, hs⟩

theorem addItem_spec (valueType : UInt8) (request : HistoryRequest) :
  Procedure.Triple (Demand.Harmless e) (fun s => s.cache.Consistent)
    (addItem e p now rows itemid valueType request) fun added s => Added itemid added.1 s
  := by
  refine (readDatabase_spec _).bind fun answer => ?_
  cases answer with
  | none => exact .pure fun s hs => hs
  | some records =>
    apply Procedure.Triple.inspect
    intro s hs
    refine .ite (fun hfound => ?_) fun hfound => .ite (fun _ => ?_) fun _ => ?_
    · have hadd : Keeps e itemid (itemAddValuesAtBeginning e p now itemid (p.sortAsc records)) :=
        itemAddValuesAtBeginning_keeps _
      refine (hadd.before ?_).bind fun _ => .pure fun s hs => hs
      rintro _ rfl
      exact .of_consistent hs hfound
    · apply Procedure.Triple.pure
      rintro _ rfl
      exact hs
    · refine ((insertItem_spec valueType).before ?_).bind fun inserted =>
        .ite (fun hinserted => ?_) fun hinserted => ?_
      · rintro _ rfl
        exact ⟨hs, by simpa using hfound⟩
      · rw [hinserted]
        refine .bind (updateItem_keeps fun item => ?_) fun _ =>
          (itemAddValuesAtBeginning_keeps _).bind fun _ => .pure fun s hs => hs
        unfold initItem
        split <;> exact ⟨rfl, rfl, rfl⟩
      · rw [Bool.not_eq_true] at hinserted
        rw [hinserted]
        exact .pure fun s hs => hs

theorem tryValueRange_keeps (valueType : UInt8) (seconds : ℤ) (count : ℕ) (timestamp : ℤ) :
  Keeps e itemid (tryValueRange e p now rows itemid valueType seconds count timestamp)
  := (prepareItem_keeps valueType).bind fun _ =>
    .ite (fun _ => itemGetValueRange_keeps seconds count timestamp) fun _ => .pure fun _ hs => hs

theorem tryValue_keeps (valueType : UInt8) (ts : Timespec) :
  Keeps e itemid (tryValue e p now rows itemid valueType ts)
  := (prepareItem_keeps valueType).bind fun _ =>
    .ite (fun _ => itemGetValue_keeps ts) fun _ => .pure fun _ hs => hs

theorem getValueRange_sound (valueType : UInt8) (seconds : ℤ) (count : ℕ) (timestamp : ℤ) :
  Sound e (getValueRange e p now rows itemid valueType seconds count timestamp)
  := by
  apply Sound.of_found
  · refine .bind (updateItem_keeps fun item => ⟨rfl, rfl, rfl⟩) fun _ =>
      (tryValueRange_keeps valueType seconds count timestamp).bind fun values => ?_
    cases values with
    | none =>
      exact .bind (updateItem_keeps fun item => ⟨rfl, rfl, rfl⟩) fun _ =>
        (readDatabase_keeps _).bind fun _ => itemRelease_spec.bind fun _ => .pure fun s hs => hs
    | some values =>
      exact .bind (updateItem_keeps fun item => ⟨rfl, rfl, rfl⟩) fun _ =>
        itemRelease_spec.bind fun _ => .pure fun s hs => hs
  · refine ((addItem_spec valueType _).before fun s hs => hs.1).bind fun added =>
      .bind (.when (fun hpresent => ?_) fun hpresent s hs => ?_) fun _ => .pure fun s hs => hs
    · rw [hpresent]
      exact .bind (updateItem_keeps fun item => ⟨rfl, rfl, rfl⟩) fun _ =>
        .bind (updateItem_keeps fun item => ⟨rfl, rfl, rfl⟩) fun _ => itemRelease_spec
    · rw [Added, if_neg hpresent] at hs
      exact hs

theorem getValue_sound (valueType : UInt8) (ts : Timespec) :
  Sound e (getValue e p now rows itemid valueType ts)
  := by
  apply Sound.of_found
  · refine .bind (updateItem_keeps fun item => ⟨rfl, rfl, rfl⟩) fun _ =>
      (tryValue_keeps valueType ts).bind fun value => ?_
    cases value with
    | none =>
      exact .bind (updateItem_keeps fun item => ⟨rfl, rfl, rfl⟩) fun _ =>
        (readDatabase_keeps _).bind fun _ => itemRelease_spec.bind fun _ => .pure fun s hs => hs
    | some value =>
      exact .bind (updateItem_keeps fun item => ⟨rfl, rfl, rfl⟩) fun _ =>
        itemRelease_spec.bind fun _ => .pure fun s hs => hs
  · refine ((addItem_spec valueType _).before fun s hs => hs.1).bind fun added =>
      .bind (.when (fun hpresent => ?_) fun hpresent s hs => ?_) fun _ => .pure fun s hs => hs
    · rw [hpresent]
      exact .bind (updateItem_keeps fun item => ⟨rfl, rfl, rfl⟩) fun _ => itemRelease_spec
    · rw [Added, if_neg hpresent] at hs
      exact hs

end Session

/-! ### Runs -/

variable {W : Type*} [LinearOrder W] {e : Eviction W} {p : Platform HistoryValue}

/-- Every request for space of the call is harmless. -/
def Cache.StaysHarmless (e : Eviction W) (p : Platform HistoryValue) (cache : Cache)
    (action : CacheAction) : Prop :=
  ∀ d ∈ (cache.perform e p action).events, d.Harmless e

instance (cache : Cache) (action : CacheAction) :
    Decidable (cache.StaysHarmless e p action) :=
  inferInstanceAs (Decidable (∀ d ∈ _, _))

/-- A call without harmful requests comes to its end and leaves a consistent cache. -/
theorem Cache.Consistent.perform {cache : Cache} (h : cache.Consistent) {action : CacheAction}
    (hharmless : cache.StaysHarmless e p action) :
  (cache.perform e p action).result.isSome ∧ (cache.perform e p action).state.cache.Consistent
  := by
  have hsound : Session.Sound e (action.call.operation e p action.now) := by
    cases action.call with
    | addValue itemid valueType reused value =>
      exact (Session.addValue_sound valueType reused value).bind fun _ => .pure fun s hs => hs
    | getValueRange itemid valueType seconds count timestamp rows =>
      exact (Session.getValueRange_sound valueType seconds count timestamp).bind fun _ =>
        .pure fun s hs => hs
    | getValue itemid valueType ts rows =>
      exact (Session.getValue_sound valueType ts).bind fun _ => .pure fun s hs => hs
  obtain ⟨⟨⟩, hresult, hconsistent⟩ :=
    hsound ⟨cache, action.memory, action.queries⟩ h hharmless
  exact ⟨Option.isSome_iff_exists.mpr ⟨_, hresult⟩, hconsistent⟩

instance : Inhabited HistoryValue := ⟨.number 0⟩

end ValueCache
