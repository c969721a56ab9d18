import Mathlib.Algebra.Order.Ring.Rat
import Mathlib.Data.List.Sort
import Zabbix.ValueCache.ReleaseSpace

/-!
# Safety of the release of space

Dropping an item leaves the other items as they are, and takes its strings out of the pool.
The item that requests the space and the items that are accessed survive exactly when no
other accessed item is old and, if nobody accesses the requesting item, enough is freed
before its turn comes.
-/

namespace ValueCache

/-! ### The string pool -/

/-- The strings of the values of an item. -/
def Item.strings (item : Item HistoryValue) : List Bytes :=
  item.values.flatMap fun r => valueStrings item.valueType r.value

/-- The strings of the values of all items. -/
def Cache.strings (cache : Cache) : List Bytes :=
  cache.items.entries.flatMap fun e => e.2.strings

/-- The number of references to a string. -/
def poolCount (pool : Table Bytes ℕ) (s : Bytes) : ℕ := (pool.search s).getD 0

/-- The pool counts the strings of the items and those that are held elsewhere. -/
structure Cache.Counts (cache : Cache) (held : Bytes → ℕ) : Prop where
  count : ∀ s, poolCount cache.strpool s = cache.strings.count s + held s
  positive : ∀ s, cache.strpool.search s ≠ some 0

variable {sizes : Sizes} {pool : Table Bytes ℕ}

theorem poolCount_strfree (s t : Bytes) :
  poolCount (itemStrfree sizes pool s).1 t = poolCount pool t - [s].count t
  := by
  rw [itemStrfree, poolCount, poolCount]
  cases hs : pool.search s with
  | none =>
    by_cases hts : t = s
    · subst hts
      simp [hs]
    · have hno : [s].count t = 0 := by simp [List.count_eq_zero, hts]
      rw [hno, Nat.sub_zero]
  | some count =>
    by_cases hts : t = s
    · subst hts
      rw [List.count_singleton_self, hs]
      by_cases hone : count - 1 = 0
      · simp [hone]
      · simp [hone]
    · have hno : [s].count t = 0 := by simp [List.count_eq_zero, hts]
      rw [hno, Nat.sub_zero]
      by_cases hone : count - 1 = 0
      · simp [hone, Table.search_remove_of_ne _ hts]
      · simp [hone, Table.search_set_of_ne _ _ hts]

theorem positive_strfree (h : ∀ t, pool.search t ≠ some 0) (s t : Bytes) :
  (itemStrfree sizes pool s).1.search t ≠ some 0
  := by
  rw [itemStrfree]
  cases hs : pool.search s with
  | none => exact h t
  | some count =>
    by_cases hone : count - 1 = 0
    · simp only [hone, if_true]
      by_cases hts : t = s
      · subst hts
        simp
      · rw [Table.search_remove_of_ne _ hts]
        exact h t
    · simp only [hone, if_false]
      by_cases hts : t = s
      · subst hts
        simpa using hone
      · rw [Table.search_set_of_ne _ _ hts]
        exact h t

/-- The pool without some references. -/
def unreference (sizes : Sizes) (pool : Table Bytes ℕ) (strings : List Bytes) : Table Bytes ℕ :=
  strings.foldl (fun pool s => (itemStrfree sizes pool s).1) pool

theorem poolCount_unreference (strings : List Bytes) (t : Bytes) :
  poolCount (unreference sizes pool strings) t = poolCount pool t - strings.count t
  := by
  induction strings generalizing pool with
  | nil => rfl
  | cons s strings ih =>
    rw [unreference, List.foldl_cons]
    change poolCount (unreference sizes _ strings) t = _
    have hcons : (s :: strings).count t = [s].count t + strings.count t := by
      rw [← List.count_append, List.singleton_append]
    rw [ih, poolCount_strfree, hcons, Nat.sub_sub]

theorem positive_unreference (h : ∀ t, pool.search t ≠ some 0) (strings : List Bytes) :
  ∀ t, (unreference sizes pool strings).search t ≠ some 0
  := by
  induction strings generalizing pool with
  | nil => exact h
  | cons s strings ih => exact ih (positive_strfree h s)

/-- Of two accumulators the first one does not depend on the second one. -/
theorem foldl_fst {α β γ : Type*} [Add γ] (f : β → α → β × γ) (xs : List α) (b : β) (c : γ) :
  (xs.foldl (fun s x => ((f s.1 x).1, s.2 + (f s.1 x).2)) (b, c)).1 =
    xs.foldl (fun b x => (f b x).1) b
  := by
  induction xs generalizing b c with
  | nil => rfl
  | cons x xs ih =>
    rw [List.foldl_cons, List.foldl_cons]
    exact ih _ _

theorem itemFreeValues_pool (pool : Table Bytes ℕ) (valueType : UInt8)
    (values : List (Record HistoryValue)) :
  (itemFreeValues sizes pool valueType values).1 =
    unreference sizes pool (values.flatMap fun r => valueStrings valueType r.value)
  := by
  have hfst := foldl_fst (fun pool (r : Record HistoryValue) =>
    ((strfreeAll sizes pool (valueStrings valueType r.value)).1,
      (strfreeAll sizes pool (valueStrings valueType r.value)).2 +
        logBytes sizes valueType)) values pool 0
  simp only [← add_assoc] at hfst
  rw [itemFreeValues, hfst, unreference, List.foldl_flatMap]
  congr 1
  funext pool r
  exact foldl_fst (itemStrfree sizes) _ pool 0

theorem itemFreeCache_pool (item : Item HistoryValue) :
  (itemFreeCache sizes pool item).1 = unreference sizes pool item.strings
  := by
  have hchunks := foldl_fst (fun pool chunk => itemFreeChunk sizes pool item.valueType chunk)
    item.chunks pool 0
  rw [itemFreeCache, hchunks, unreference, Item.strings, Item.values, chunkValues,
    List.flatMap_assoc, List.foldl_flatMap]
  congr 1
  funext pool chunk
  exact itemFreeValues_pool pool item.valueType chunk.values

/-! ### Dropping items -/

/-- Every item stays as it is or is dropped, the pool goes on to count the strings of the
items, and no references are added. -/
structure Shrinks (cache cache' : Cache) : Prop where
  others : ∀ itemid, cache'.items.search itemid = cache.items.search itemid ∨
    cache'.items.search itemid = none
  counts : ∀ held, cache.Counts held → cache'.Counts held
  pool_le : ∀ s, poolCount cache'.strpool s ≤ poolCount cache.strpool s

theorem Shrinks.refl (cache : Cache) :
  Shrinks cache cache
  where
  others := fun _ => .inl rfl
  counts := fun _ h => h
  pool_le := fun _ => le_refl _

theorem Shrinks.trans {cache cache' cache'' : Cache} (h : Shrinks cache cache')
    (h' : Shrinks cache' cache'') :
  Shrinks cache cache''
  where
  others := by
    intro itemid
    obtain h1 | h1 := h'.others itemid
    · rw [h1]
      exact h.others itemid
    · exact .inr h1
  counts := fun held hcounts => h'.counts held (h.counts held hcounts)
  pool_le := fun s => (h'.pool_le s).trans (h.pool_le s)

/-- An item that is gone stays gone. -/
theorem Shrinks.none {cache cache' : Cache} (h : Shrinks cache cache') {itemid : UInt64}
    (hnone : cache.items.search itemid = none) :
  cache'.items.search itemid = none
  := by
  obtain heq | heq := h.others itemid
  · rw [heq, hnone]
  · exact heq

theorem shrinks_dropItem {cache : Cache} {itemid : UInt64} {item : Item HistoryValue}
    (h : cache.items.search itemid = some item) :
  Shrinks cache (dropItem sizes cache itemid item).1
  where
  others := by
    intro k
    by_cases hk : k = itemid
    · subst hk
      exact .inr (Table.search_remove_self _ _)
    · exact .inl (Table.search_remove_of_ne _ hk)
  counts := by
    intro held hcounts
    have hperm : cache.strings.Perm
        (item.strings ++ (dropItem sizes cache itemid item).1.strings) :=
      (Table.entries_perm h).flatMap_right _
    constructor
    · intro s
      have hcount := hcounts.count s
      rw [hperm.count_eq, List.count_append] at hcount
      change poolCount (itemFreeCache sizes cache.strpool item).1 s = _
      rw [itemFreeCache_pool, poolCount_unreference, hcount]
      omega
    · change ∀ s, (itemFreeCache sizes cache.strpool item).1.search s ≠ some 0
      rw [itemFreeCache_pool]
      exact positive_unreference hcounts.positive _
  pool_le := by
    intro s
    change poolCount (itemFreeCache sizes cache.strpool item).1 s ≤ _
    rw [itemFreeCache_pool, poolCount_unreference]
    exact Nat.sub_le _ _

/-! ### Old items -/

variable {source : UInt64} {now : ℤ}

theorem shrinks_dropOld (s : Cache × ℤ) (itemid : UInt64) :
  Shrinks s.1 (dropOld sizes source now s itemid).1
  := by
  rw [dropOld]
  cases hsearch : s.1.items.search itemid with
  | none => exact .refl _
  | some item =>
    dsimp only
    split
    · exact shrinks_dropItem hsearch
    · exact .refl _

/-- What the first loop does to an item. -/
theorem search_dropOld (s : Cache × ℤ) (itemid k : UInt64) :
  (dropOld sizes source now s itemid).1.items.search k =
    (s.1.items.search k).filter fun item => ¬ (k = itemid ∧ source ≠ k ∧ item.IsOld now)
  := by
  rw [dropOld]
  by_cases hk : k = itemid
  · subst hk
    cases hsearch : s.1.items.search k with
    | none => simp [hsearch]
    | some item =>
      by_cases hold : source ≠ k ∧ item.IsOld now
      · simp [hold, dropItem, Option.filter]
      · simp [hold, hsearch, Option.filter]
  · have hkeep : ∀ o : Option (Item HistoryValue),
        o.filter (fun item => ¬ (k = itemid ∧ source ≠ k ∧ item.IsOld now)) = o := by
      intro o
      cases o <;> simp [hk]
    rw [hkeep]
    cases hsearch : s.1.items.search itemid with
    | none => rfl
    | some item =>
      dsimp only
      split
      · exact Table.search_remove_of_ne _ hk
      · rfl

theorem foldl_dropOld (itemids : List UInt64) (s : Cache × ℤ) :
  Shrinks s.1 (itemids.foldl (dropOld sizes source now) s).1 ∧
    ∀ k, (itemids.foldl (dropOld sizes source now) s).1.items.search k =
      (s.1.items.search k).filter fun item => ¬ (k ∈ itemids ∧ source ≠ k ∧ item.IsOld now)
  := by
  induction itemids generalizing s with
  | nil =>
    refine ⟨.refl _, fun k => ?_⟩
    cases hsearch : s.1.items.search k <;> simp [hsearch, Option.filter]
  | cons itemid itemids ih =>
    obtain ⟨hshrinks, hsearch⟩ := ih (dropOld sizes source now s itemid)
    refine ⟨(shrinks_dropOld s itemid).trans hshrinks, fun k => ?_⟩
    rw [List.foldl_cons, hsearch, search_dropOld, Option.filter_filter]
    congr 1
    funext item
    simp only [List.mem_cons, Bool.and_eq_decide, decide_eq_decide]
    simp
    tauto

variable {W : Type*} [LinearOrder W] {e : Eviction W}

/-- The first loop drops the old items, except for the one that requests the space. -/
theorem search_releaseOld (cache : Cache) (k : UInt64) :
  (releaseOld e source now cache).1.items.search k =
    (cache.items.search k).filter fun item => ¬ (source ≠ k ∧ item.IsOld now)
  := by
  rw [releaseOld, (foldl_dropOld _ _).2]
  cases hsearch : cache.items.search k with
  | none => simp
  | some item =>
    have hmem : k ∈ e.visit.arrange cache.items.keys :=
      (e.visit.perm _).mem_iff.mpr (Table.mem_keys_of_search hsearch)
    simp [hmem]

theorem shrinks_releaseOld (cache : Cache) :
  Shrinks cache (releaseOld e source now cache).1
  := (foldl_dropOld (e.visit.arrange cache.items.keys) (cache, 0)).1

/-! ### Items that nobody accesses -/

theorem shrinks_releaseLight (sizes : Sizes) (space : ℤ) (itemids : List UInt64) (s : Cache × ℤ) :
  Shrinks s.1 (releaseLight sizes space itemids s).1
  := by
  induction itemids generalizing s with
  | nil => exact .refl _
  | cons itemid itemids ih =>
    rw [releaseLight]
    split
    · cases hsearch : s.1.items.search itemid with
      | none => exact ih s
      | some item =>
        exact (shrinks_dropItem hsearch).trans
          (ih ((dropItem sizes s.1 itemid item).1, s.2 + (dropItem sizes s.1 itemid item).2))
    · exact .refl _

/-- When enough has been freed, nothing more is dropped. -/
theorem releaseLight_enough {space : ℤ} {s : Cache × ℤ} (h : space ≤ s.2)
    (itemids : List UInt64) :
  releaseLight sizes space itemids s = s
  := by
  cases itemids with
  | nil => rfl
  | cons itemid itemids => rw [releaseLight, if_neg (not_lt.mpr h)]

theorem releaseLight_append (space : ℤ) (itemids itemids' : List UInt64) (s : Cache × ℤ) :
  releaseLight sizes space (itemids ++ itemids') s =
    releaseLight sizes space itemids' (releaseLight sizes space itemids s)
  := by
  induction itemids generalizing s with
  | nil => rfl
  | cons itemid itemids ih =>
    rw [List.cons_append, releaseLight, releaseLight]
    split
    · cases hsearch : s.1.items.search itemid with
      | none => exact ih s
      | some item => exact ih _
    · rename_i henough
      rw [releaseLight_enough (not_lt.mp henough)]

/-- Items that are not in the list are not dropped. -/
theorem search_releaseLight (sizes : Sizes) (space : ℤ) {itemids : List UInt64} {k : UInt64}
    (hk : k ∉ itemids) (s : Cache × ℤ) :
  (releaseLight sizes space itemids s).1.items.search k = s.1.items.search k
  := by
  induction itemids generalizing s with
  | nil => rfl
  | cons itemid itemids ih =>
    obtain ⟨hne, hrest⟩ := not_or.mp (mt List.mem_cons.mpr hk)
    rw [releaseLight]
    split
    · cases hsearch : s.1.items.search itemid with
      | none => exact ih hrest s
      | some item => exact (ih hrest _).trans (Table.search_remove_of_ne _ hne)
    · rfl

/-- An item whose turn comes is dropped. -/
theorem releaseLight_drop {space : ℤ} {s : Cache × ℤ} (h : s.2 < space) {itemid : UInt64}
    {item : Item HistoryValue} (hsearch : s.1.items.search itemid = some item)
    (rest : List UInt64) :
  (releaseLight sizes space (itemid :: rest) s).1.items.search itemid = none
  := by
  rw [releaseLight, if_pos h, hsearch]
  exact (shrinks_releaseLight sizes space rest _).none (Table.search_remove_self _ _)

/-- The items that may be dropped are those that nobody accesses. -/
theorem mem_byWeight (cache : Cache) (k : UInt64) :
  k ∈ byWeight e cache ↔ ∃ item, cache.items.search k = some item ∧ item.refcount = 0
  := by
  have hperm : (byWeight e cache).Perm ((unreferenced e cache).map Prod.fst) :=
    (e.sort_perm _).map _
  rw [hperm.mem_iff, List.mem_map]
  constructor
  · rintro ⟨⟨itemid, w⟩, hmem, rfl⟩
    obtain ⟨k, hk, hsome⟩ := List.mem_filterMap.mp hmem
    cases hsearch : cache.items.search k with
    | none =>
      rw [hsearch] at hsome
      cases hsome
    | some item =>
      rw [hsearch] at hsome
      dsimp only at hsome
      split at hsome
      · obtain ⟨rfl, -⟩ := Prod.mk.inj (Option.some.inj hsome)
        exact ⟨item, hsearch, ‹_›⟩
      · cases hsome
  · rintro ⟨item, hsearch, hzero⟩
    refine ⟨(k, e.weight item), List.mem_filterMap.mpr ⟨k, ?_, ?_⟩, rfl⟩
    · exact (e.visit.perm _).mem_iff.mpr (Table.mem_keys_of_search hsearch)
    · simp [hsearch, hzero]

/-! ### The release of space -/

/-- The cache behind the first loop, in low memory mode. -/
def lowCache (e : Eviction W) (source : UInt64) (now : ℤ) (cache : Cache) : Cache :=
  { (releaseOld e source now cache).1 with lowMemory := true }

/-- Enough is freed by dropping the old items and then the items that nobody accesses and
whose turn comes before that of the source. -/
def EnoughBefore (e : Eviction W) (source : UInt64) (now : ℤ) (space : ℕ) (cache : Cache) :
    Prop :=
  cache.needed space ≤
    (releaseLight e.sizes (cache.needed space)
      ((byWeight e (lowCache e source now cache)).takeWhile (· ≠ source))
      (lowCache e source now cache, (releaseOld e source now cache).2)).2

theorem releaseSpace_eq (e : Eviction W) (source : UInt64) (now : ℤ) (space : ℕ)
    (cache : Cache) :
  (releaseSpace e source now space cache).items =
      (releaseLight e.sizes (cache.needed space) (byWeight e (lowCache e source now cache))
        (lowCache e source now cache, (releaseOld e source now cache).2)).1.items ∧
    (releaseSpace e source now space cache).strpool =
      (releaseLight e.sizes (cache.needed space) (byWeight e (lowCache e source now cache))
        (lowCache e source now cache, (releaseOld e source now cache).2)).1.strpool
  := by
  by_cases henough : cache.needed space ≤ (releaseOld e source now cache).2
  · rw [releaseSpace, if_pos henough,
      releaseLight_enough (s := (lowCache e source now cache, _)) henough]
    exact ⟨rfl, rfl⟩
  · rw [releaseSpace, if_neg henough]
    exact ⟨rfl, rfl⟩

theorem shrinks_lowCache (e : Eviction W) (source : UInt64) (now : ℤ) (cache : Cache) :
  Shrinks cache (lowCache e source now cache)
  := by
  have h : Shrinks cache (releaseOld e source now cache).1 := shrinks_releaseOld cache
  exact ⟨h.others, fun held hcounts => ⟨(h.counts held hcounts).count,
    (h.counts held hcounts).positive⟩, h.pool_le⟩

theorem shrinks_releaseSpace (e : Eviction W) (source : UInt64) (now : ℤ) (space : ℕ)
    (cache : Cache) :
  Shrinks cache (releaseSpace e source now space cache)
  := by
  have hall := (shrinks_lowCache e source now cache).trans
    (shrinks_releaseLight e.sizes (cache.needed space)
      (byWeight e (lowCache e source now cache))
      (lowCache e source now cache, (releaseOld e source now cache).2))
  obtain ⟨hitems, hpool⟩ := releaseSpace_eq e source now space cache
  constructor
  · rw [hitems]
    exact hall.others
  · intro held hcounts
    have hcounts' := hall.counts held hcounts
    constructor
    · rw [hpool, Cache.strings, hitems]
      exact hcounts'.count
    · rw [hpool]
      exact hcounts'.positive
  · rw [hpool]
    exact hall.pool_le

/-! ### The bytes that are freed -/

/-- The bytes of the strings in the pool. -/
def poolBytes (sizes : Sizes) (pool : Table Bytes ℕ) : ℤ :=
  (pool.entries.map fun entry => (entry.1.length + sizes.refcountField + 1 : ℤ)).sum

/-- The bytes of a chunk, which has room for one record, and of the log structures of its
values. -/
def chunkBytes (sizes : Sizes) (valueType : UInt8) (chunk : Chunk HistoryValue) : ℤ :=
  chunk.values.length * logBytes sizes valueType + sizes.chunk +
    (chunk.lastValue - chunk.firstValue) * sizes.record

/-- The bytes of an item and its chunks. -/
def itemBytes (sizes : Sizes) (item : Item HistoryValue) : ℤ :=
  (item.chunks.map (chunkBytes sizes item.valueType)).sum + sizes.item

/-- The bytes of all items and strings of a cache. -/
def Cache.bytes (sizes : Sizes) (cache : Cache) : ℤ :=
  (cache.items.entries.map fun entry => itemBytes sizes entry.2).sum +
    poolBytes sizes cache.strpool

/-- What every step of a loop adds. -/
theorem foldl_adds {α β : Type*} (f : α → β → α) (total : α → ℤ) (added : β → ℤ)
    (h : ∀ s b, total (f s b) = total s + added b) (l : List β) (s : α) :
  total (l.foldl f s) = total s + (l.map added).sum
  := by
  induction l generalizing s with
  | nil => simp
  | cons b l ih =>
    rw [List.foldl_cons, ih, h, List.map_cons, List.sum_cons, add_assoc]

theorem itemStrfree_bytes (sizes : Sizes) (pool : Table Bytes ℕ) (s : Bytes) :
  (itemStrfree sizes pool s).2 + poolBytes sizes (itemStrfree sizes pool s).1 =
    poolBytes sizes pool
  := by
  rw [itemStrfree]
  cases hsearch : pool.search s with
  | none => exact zero_add _
  | some count =>
    have hperm := (Table.entries_perm hsearch).map
      fun entry => (entry.1.length + sizes.refcountField + 1 : ℤ)
    dsimp only
    split
    · rw [poolBytes, poolBytes, hperm.sum_eq, List.map_cons, List.sum_cons]
    · rw [zero_add, poolBytes, poolBytes, hperm.sum_eq]
      rfl

theorem strfreeAll_bytes (sizes : Sizes) (pool : Table Bytes ℕ) (strings : List Bytes) :
  (strfreeAll sizes pool strings).2 + poolBytes sizes (strfreeAll sizes pool strings).1 =
    poolBytes sizes pool
  := by
  have h := foldl_adds
    (fun s string => ((itemStrfree sizes s.1 string).1, s.2 + (itemStrfree sizes s.1 string).2))
    (fun s : Table Bytes ℕ × ℤ => s.2 + poolBytes sizes s.1) (fun _ => 0) (fun s string => by
      have := itemStrfree_bytes sizes s.1 string
      dsimp only
      omega) strings (pool, 0)
  simpa [strfreeAll] using h

theorem itemFreeValues_bytes (sizes : Sizes) (pool : Table Bytes ℕ) (valueType : UInt8)
    (values : List (Record HistoryValue)) :
  (itemFreeValues sizes pool valueType values).2 +
      poolBytes sizes (itemFreeValues sizes pool valueType values).1 =
    poolBytes sizes pool + values.length * logBytes sizes valueType
  := by
  have h := foldl_adds
    (fun s (record : Record HistoryValue) =>
      ((strfreeAll sizes s.1 (valueStrings valueType record.value)).1,
        s.2 + (strfreeAll sizes s.1 (valueStrings valueType record.value)).2 +
          logBytes sizes valueType))
    (fun s : Table Bytes ℕ × ℤ => s.2 + poolBytes sizes s.1)
    (fun _ => logBytes sizes valueType) (fun s record => by
      have := strfreeAll_bytes sizes s.1 (valueStrings valueType record.value)
      dsimp only
      omega) values (pool, 0)
  simpa [itemFreeValues] using h

theorem itemFreeChunk_bytes (sizes : Sizes) (pool : Table Bytes ℕ) (valueType : UInt8)
    (chunk : Chunk HistoryValue) :
  (itemFreeChunk sizes pool valueType chunk).2 +
      poolBytes sizes (itemFreeChunk sizes pool valueType chunk).1 =
    poolBytes sizes pool + chunkBytes sizes valueType chunk
  := by
  have h := itemFreeValues_bytes sizes pool valueType chunk.values
  unfold itemFreeChunk chunkBytes
  dsimp only
  omega

theorem itemFreeCache_bytes (sizes : Sizes) (pool : Table Bytes ℕ) (item : Item HistoryValue) :
  (itemFreeCache sizes pool item).2 + poolBytes sizes (itemFreeCache sizes pool item).1 =
    poolBytes sizes pool + (item.chunks.map (chunkBytes sizes item.valueType)).sum
  := by
  have h := foldl_adds
    (fun s chunk => ((itemFreeChunk sizes s.1 item.valueType chunk).1,
      s.2 + (itemFreeChunk sizes s.1 item.valueType chunk).2))
    (fun s : Table Bytes ℕ × ℤ => s.2 + poolBytes sizes s.1)
    (chunkBytes sizes item.valueType) (fun s chunk => by
      have := itemFreeChunk_bytes sizes s.1 item.valueType chunk
      dsimp only
      omega) item.chunks (pool, 0)
  simpa [itemFreeCache] using h

/-- Dropping an item frees its bytes and those of the strings that go with it. -/
theorem dropItem_bytes (sizes : Sizes) {cache : Cache} {itemid : UInt64}
    {item : Item HistoryValue} (h : cache.items.search itemid = some item) :
  (dropItem sizes cache itemid item).2 + (dropItem sizes cache itemid item).1.bytes sizes =
    cache.bytes sizes
  := by
  have hfree := itemFreeCache_bytes sizes cache.strpool item
  have hperm := (Table.entries_perm h).map fun entry => itemBytes sizes entry.2
  unfold dropItem Cache.bytes
  rw [hperm.sum_eq, List.map_cons, List.sum_cons, itemBytes]
  dsimp only
  omega

theorem dropOld_bytes (sizes : Sizes) (source : UInt64) (now : ℤ) (s : Cache × ℤ)
    (itemid : UInt64) :
  (dropOld sizes source now s itemid).2 + (dropOld sizes source now s itemid).1.bytes sizes =
    s.2 + s.1.bytes sizes
  := by
  rw [dropOld]
  cases hsearch : s.1.items.search itemid with
  | none => rfl
  | some item =>
    have hdrop := dropItem_bytes sizes hsearch
    dsimp only
    split
    · dsimp only
      omega
    · rfl

theorem releaseOld_bytes (e : Eviction W) (source : UInt64) (now : ℤ) (cache : Cache) :
  (releaseOld e source now cache).2 + (releaseOld e source now cache).1.bytes e.sizes =
    cache.bytes e.sizes
  := by
  have h := foldl_adds (dropOld e.sizes source now)
    (fun s : Cache × ℤ => s.2 + s.1.bytes e.sizes) (fun _ => 0)
    (fun s itemid => by rw [dropOld_bytes, add_zero])
    (e.visit.arrange cache.items.keys) (cache, 0)
  simpa [releaseOld] using h

theorem releaseLight_bytes (sizes : Sizes) (space : ℤ) (itemids : List UInt64) (s : Cache × ℤ) :
  (releaseLight sizes space itemids s).2 + (releaseLight sizes space itemids s).1.bytes sizes =
    s.2 + s.1.bytes sizes
  := by
  induction itemids generalizing s with
  | nil => rfl
  | cons itemid itemids ih =>
    rw [releaseLight]
    split
    · cases hsearch : s.1.items.search itemid with
      | none => exact ih s
      | some item =>
        have hdrop := dropItem_bytes sizes hsearch
        dsimp only
        rw [ih]
        dsimp only
        omega
    · rfl

/-- Enough is freed when the items that are dropped before the turn of the source, with their
chunks and the strings that nobody else refers to, take that many bytes. -/
theorem enoughBefore_iff (e : Eviction W) (source : UInt64) (now : ℤ) (space : ℕ)
    (cache : Cache) :
  EnoughBefore e source now space cache ↔
    cache.needed space ≤ cache.bytes e.sizes -
      (releaseLight e.sizes (cache.needed space)
        ((byWeight e (lowCache e source now cache)).takeWhile (· ≠ source))
        (lowCache e source now cache, (releaseOld e source now cache).2)).1.bytes e.sizes
  := by
  have hlight := releaseLight_bytes e.sizes (cache.needed space)
    ((byWeight e (lowCache e source now cache)).takeWhile (· ≠ source))
    (lowCache e source now cache, (releaseOld e source now cache).2)
  have hold := releaseOld_bytes e source now cache
  have hlow : (lowCache e source now cache).bytes e.sizes =
      (releaseOld e source now cache).1.bytes e.sizes := rfl
  dsimp only at hlight
  rw [EnoughBefore]
  omega

/-! ### The item that requests the space -/

/-- The first loop keeps the source. -/
theorem search_lowCache_source (cache : Cache) :
  (lowCache e source now cache).items.search source = cache.items.search source
  := by
  change (releaseOld e source now cache).1.items.search source = _
  rw [search_releaseOld]
  cases cache.items.search source <;> simp [Option.filter]

/-- The source survives exactly when somebody accesses it or enough is freed before its
turn. -/
theorem source_kept_iff (space : ℕ) (cache : Cache) :
  (releaseSpace e source now space cache).items.search source = cache.items.search source ↔
    ∀ item, cache.items.search source = some item → item.refcount = 0 →
      EnoughBefore e source now space cache
  := by
  rw [(releaseSpace_eq e source now space cache).1]
  by_cases hmem : source ∈ byWeight e (lowCache e source now cache)
  · obtain ⟨item, hsearch, hzero⟩ := (mem_byWeight _ _).mp hmem
    rw [search_lowCache_source] at hsearch
    -- the items before the source
    obtain ⟨rest, hsplit⟩ : ∃ rest, byWeight e (lowCache e source now cache) =
        (byWeight e (lowCache e source now cache)).takeWhile (· ≠ source) ++ source :: rest := by
      have hdrop : (byWeight e (lowCache e source now cache)).dropWhile (· ≠ source) ≠ [] := by
        intro hnil
        rw [List.dropWhile_eq_nil_iff] at hnil
        simpa using hnil source hmem
      obtain ⟨first, rest, hcons⟩ := List.exists_cons_of_ne_nil hdrop
      have hfirst : first = source := by
        have hhead := List.head?_dropWhile_not (fun x => decide (x ≠ source))
          (byWeight e (lowCache e source now cache))
        rw [hcons] at hhead
        simpa using hhead
      refine ⟨rest, ?_⟩
      rw [hfirst] at hcons
      rw [← hcons]
      exact List.takeWhile_append_dropWhile.symm
    have hbefore : source ∉
        (byWeight e (lowCache e source now cache)).takeWhile (· ≠ source) := by
      intro hin
      simpa using List.mem_takeWhile_imp hin
    have hkept := (search_releaseLight e.sizes (cache.needed space) hbefore
      (lowCache e source now cache, (releaseOld e source now cache).2)).trans
        (search_lowCache_source cache)
    rw [hsearch] at hkept
    constructor
    · intro hsurvives _ _ _
      by_contra hturn
      rw [hsplit, releaseLight_append, releaseLight_drop (not_le.mp hturn) hkept,
        hsearch] at hsurvives
      cases hsurvives
    · intro henough
      have henough' := henough item hsearch hzero
      rw [hsplit, releaseLight_append, releaseLight_enough henough', hkept, hsearch]
  · rw [search_releaseLight _ _ hmem]
    refine iff_of_true (search_lowCache_source cache) ?_
    intro item hsearch hzero
    exfalso
    apply hmem
    exact (mem_byWeight _ _).mpr ⟨item, (search_lowCache_source cache).trans hsearch, hzero⟩

/-- No item but the source is accessed and old. -/
def NoneOldInUse (source : UInt64) (now : ℤ) (cache : Cache) : Prop :=
  ∀ itemid item, itemid ≠ source → cache.items.search itemid = some item → 0 < item.refcount →
    ¬ item.IsOld now

/-- The other items that somebody accesses survive exactly when none of them is old. -/
theorem used_kept_iff (space : ℕ) (cache : Cache) :
  (∀ itemid item, itemid ≠ source → cache.items.search itemid = some item → 0 < item.refcount →
    (releaseSpace e source now space cache).items.search itemid = some item) ↔
    NoneOldInUse source now cache
  := by
  rw [(releaseSpace_eq e source now space cache).1]
  have hlow : ∀ itemid, (lowCache e source now cache).items.search itemid =
      (cache.items.search itemid).filter fun item => ¬ (source ≠ itemid ∧ item.IsOld now) :=
    search_releaseOld cache
  constructor
  · intro h itemid item hne hsearch hused hold
    have hgone : (lowCache e source now cache).items.search itemid = none := by
      rw [hlow, hsearch]
      simp [Option.filter, hne.symm, hold]
    have hkept := h itemid item hne hsearch hused
    have hnone := (shrinks_releaseLight e.sizes (cache.needed space)
      (byWeight e (lowCache e source now cache))
      (lowCache e source now cache, (releaseOld e source now cache).2)).none hgone
    rw [hnone] at hkept
    cases hkept
  · intro h itemid item hne hsearch hused
    have hkept : (lowCache e source now cache).items.search itemid = some item := by
      rw [hlow, hsearch]
      simp [Option.filter, h itemid item hne hsearch hused]
    rw [search_releaseLight, hkept]
    rw [mem_byWeight]
    rintro ⟨item', hsearch', hzero⟩
    rw [hkept] at hsearch'
    obtain rfl := Option.some.inj hsearch'
    omega

/-! ### Requests -/

/-- The request releases space: there is no memory at the first attempt, and a string is not
in the pool. -/
def SpaceRequest.Releases (first : Bool) (cache : Cache) : SpaceRequest → Prop
  | .malloc _ => first = false
  | .strdup s => first = false ∧ cache.strpool.search s = none

/-- The number of bytes a request asks for. -/
def SpaceRequest.space (sizes : Sizes) : SpaceRequest → ℕ
  | .malloc size => size
  | .strdup s => s.length + 1 + sizes.refcountField + sizes.hashsetEntry

/-- The references that a request adds to a string when it succeeds. -/
def SpaceRequest.granted (success : Bool) (t : Bytes) : SpaceRequest → ℕ
  | .malloc _ => 0
  | .strdup s => if success = true ∧ s = t then 1 else 0

/-- The request keeps the item it is made for and the items that somebody accesses; every
other item stays as it is or is dropped with its values and its strings. -/
structure KeepsItems (source : UInt64) (cache cache' : Cache) (granted : Bytes → ℕ) : Prop where
  source_kept : cache'.items.search source = cache.items.search source
  used_kept : ∀ itemid item, cache.items.search itemid = some item → 0 < item.refcount →
    cache'.items.search itemid = some item
  others : ∀ itemid, cache'.items.search itemid = cache.items.search itemid ∨
    cache'.items.search itemid = none
  counts : ∀ held, cache.Counts held → cache'.Counts fun s => held s + granted s

/-- Adding a reference to a string. -/
theorem counts_set {cache : Cache} {held : Bytes → ℕ} (h : cache.Counts held) {s : Bytes}
    {count : ℕ} (hcount : poolCount cache.strpool s = count) :
  ({ cache with strpool := cache.strpool.set s (count + 1) } : Cache).Counts
    fun t => held t + if s = t then 1 else 0
  := by
  constructor
  · intro t
    by_cases hst : s = t
    · subst hst
      have hs := h.count s
      simp only [poolCount, Table.search_set_self, Option.getD_some, if_true]
      rw [hcount] at hs
      change count + 1 = cache.strings.count s + (held s + 1)
      omega
    · simp only [poolCount, Table.search_set_of_ne _ _ (Ne.symm hst), if_neg hst, add_zero]
      exact h.count t
  · intro t
    by_cases hst : t = s
    · subst hst
      simp
    · simp only [Table.search_set_of_ne _ _ hst]
      exact h.positive t

/-- A request that releases no space keeps all items. -/
theorem keepsItems_of_items {cache cache' : Cache} {granted : Bytes → ℕ}
    (hitems : cache'.items = cache.items)
    (hcounts : ∀ held, cache.Counts held → cache'.Counts fun s => held s + granted s) :
  KeepsItems source cache cache' granted
  where
  source_kept := by rw [hitems]
  used_kept := by
    intro itemid item hsearch _
    rw [hitems, hsearch]
  others := fun itemid => .inl (by rw [hitems])
  counts := hcounts

/-- When space is released, the item it is released for and the items that somebody accesses
are kept under the two conditions only. -/
theorem keepsItems_iff {cache cache' : Cache} {space : ℕ} {granted : Bytes → ℕ}
    (hitems : cache'.items = (releaseSpace e source now space cache).items)
    (hcounts : ∀ held, cache.Counts held → cache'.Counts fun s => held s + granted s) :
  KeepsItems source cache cache' granted ↔
    NoneOldInUse source now cache ∧
      ∀ item, cache.items.search source = some item → item.refcount = 0 →
        EnoughBefore e source now space cache
  := by
  rw [← source_kept_iff, ← used_kept_iff (e := e) space, ← hitems]
  constructor
  · intro h
    exact ⟨fun itemid item _ => h.used_kept itemid item, h.source_kept⟩
  · rintro ⟨hused, hsource⟩
    refine ⟨hsource, ?_, ?_, hcounts⟩
    · intro itemid item hsearch hpos
      by_cases hne : itemid = source
      · rw [hne, hsource, ← hne, hsearch]
      · exact hused itemid item hne hsearch hpos
    · rw [hitems]
      exact (shrinks_releaseSpace e source now space cache).others

theorem counts_grantNothing {cache : Cache} {held : Bytes → ℕ} (h : cache.Counts held)
    {granted : Bytes → ℕ} (hgranted : ∀ t, granted t = 0) :
  cache.Counts fun t => held t + granted t
  := by
  have heq : (fun t => held t + granted t) = held := by
    funext t
    rw [hgranted, add_zero]
  rw [heq]
  exact h

theorem counts_grantString {cache : Cache} {held : Bytes → ℕ} (h : cache.Counts held)
    {s : Bytes} {count : ℕ} (hcount : poolCount cache.strpool s = count) :
  ({ cache with strpool := cache.strpool.set s (count + 1) } : Cache).Counts
    fun t => held t + (SpaceRequest.strdup s).granted true t
  := by
  have heq : (fun t => held t + (SpaceRequest.strdup s).granted true t) =
      fun t => held t + if s = t then 1 else 0 := by
    funext t
    simp [SpaceRequest.granted]
  rw [heq]
  exact counts_set h hcount

/-- A request either leaves the items alone or releases space; its reference is counted. -/
theorem itemRequest_cases (e : Eviction W) (source : UInt64) (now : ℤ) (first second : Bool)
    (cache : Cache) (request : SpaceRequest) :
  (¬ request.Releases first cache ∧
      (itemRequest e source now first second cache request).1.items = cache.items ∨
    request.Releases first cache ∧
      (itemRequest e source now first second cache request).1.items =
        (releaseSpace e source now (request.space e.sizes) cache).items) ∧
    ∀ held, cache.Counts held →
      (itemRequest e source now first second cache request).1.Counts fun t =>
        held t + request.granted (itemRequest e source now first second cache request).2 t
  := by
  have hshrinks := shrinks_releaseSpace e source now (request.space e.sizes) cache
  cases request with
  | malloc size =>
    cases first with
    | true =>
      exact ⟨.inl ⟨fun h => absurd h Bool.false_ne_true.symm, rfl⟩,
        fun held h => counts_grantNothing h fun _ => rfl⟩
    | false =>
      exact ⟨.inr ⟨rfl, rfl⟩,
        fun held h => counts_grantNothing (hshrinks.counts held h) fun _ => rfl⟩
  | strdup s =>
    cases hsearch : cache.strpool.search s with
    | some count =>
      simp only [itemRequest, hsearch]
      refine ⟨.inl ⟨fun h => ?_, trivial⟩, ?_⟩
      · rw [h.2] at hsearch
        cases hsearch
      · exact fun held h => counts_grantString h (by simp [poolCount, hsearch])
    | none =>
      have hzero : poolCount cache.strpool s = 0 := by simp [poolCount, hsearch]
      cases first with
      | true =>
        simp only [itemRequest, hsearch]
        exact ⟨.inl ⟨fun h => absurd h.1 Bool.false_ne_true.symm, rfl⟩,
          fun held h => counts_grantString h hzero⟩
      | false =>
        have hreleased := Nat.le_zero.mp (hzero ▸ hshrinks.pool_le s)
        simp only [itemRequest, hsearch]
        cases second with
        | true =>
          exact ⟨.inr ⟨⟨rfl, hsearch⟩, rfl⟩,
            fun held h => counts_grantString (hshrinks.counts held h) hreleased⟩
        | false =>
          exact ⟨.inr ⟨⟨rfl, hsearch⟩, rfl⟩,
            fun held h => counts_grantNothing (hshrinks.counts held h) fun t => by
              simp [SpaceRequest.granted]⟩

/-- A request for space keeps the item it is made for and the items that somebody accesses
exactly when it releases no space, or no other accessed item was left alone for a day and,
if nobody accesses the item it is made for, enough is freed before the turn of this item
comes. -/
theorem request_keeps_iff (e : Eviction W) (source : UInt64) (now : ℤ) (first second : Bool)
    (cache : Cache) (request : SpaceRequest) :
  KeepsItems source cache (itemRequest e source now first second cache request).1
      (fun t => request.granted (itemRequest e source now first second cache request).2 t) ↔
    (request.Releases first cache →
      NoneOldInUse source now cache ∧
        ∀ item, cache.items.search source = some item → item.refcount = 0 →
          EnoughBefore e source now (request.space e.sizes) cache)
  := by
  obtain ⟨⟨hno, hitems⟩ | ⟨hreleases, hitems⟩, hcounts⟩ :=
    itemRequest_cases e source now first second cache request
  · exact iff_of_true (keepsItems_of_items hitems hcounts) fun h => absurd h hno
  · rw [keepsItems_iff hitems hcounts]
    exact ⟨fun h _ => h, fun h => h hreleases⟩

/-- Sizes of a platform with pointers of eight bytes, hash sets visited in the order of
their lists, and weights that are compared exactly. -/
def listEviction : Eviction ℚ where
  sizes := ⟨64, 56, 16, 32, 4, 24⟩
  visit := .inOrder
  zero := 0
  quotient := fun hits total => hits / total
  sort := List.insertionSort fun a b => a.2 ≤ b.2
  sort_perm := List.perm_insertionSort _
  sort_ascending := by
    intro items
    have htotal : Std.Total fun a b : UInt64 × ℚ => a.2 ≤ b.2 := ⟨fun a b => le_total a.2 b.2⟩
    have htrans : IsTrans (UInt64 × ℚ) fun a b => a.2 ≤ b.2 := ⟨fun a b c => le_trans⟩
    exact List.pairwise_insertionSort _ items

/-- A cache with one new item, which nobody accesses yet. -/
def newItemCache : Cache where
  items := Table.empty.set 1 (itemNew 1 itemValueTypeStr)
  strpool := Table.empty
  lowMemory := false
  minFreeRequest := 0

/-- The item is dropped by the request for its own first chunk. -/
theorem newItem_dropped :
  ((itemRequest listEviction 1 100000 false true newItemCache (.malloc 100)).1.items.search
      1).isNone = true ∧
    ¬ KeepsItems 1 newItemCache
      (itemRequest listEviction 1 100000 false true newItemCache (.malloc 100)).1 fun _ => 0
  := by
  have hgone : ((itemRequest listEviction 1 100000 false true newItemCache
      (.malloc 100)).1.items.search 1).isNone = true := by
    decide
  refine ⟨hgone, fun h => ?_⟩
  rw [h.source_kept, newItemCache, Table.search_set_self] at hgone
  cases hgone

end ValueCache
