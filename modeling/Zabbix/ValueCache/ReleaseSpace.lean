import Zabbix.Library.Ascii
import Zabbix.Library.Identifiers
import Zabbix.Library.Table
import Zabbix.ValueCache.AddValue

/-!
# Releasing space

The whole cache with its string pool, and how space is released when memory for an item
cannot be found: items that were not accessed for a day are dropped first, then items that
nobody accesses, those of the least weight first. The order in which a hash set is visited,
the quotient of two numbers as a `double` and the way the weights are sorted are left open.
-/

namespace ValueCache

/-- `history_value_t`: a number, a string or a log value. Of a log value only the strings
matter here. -/
inductive HistoryValue where
  | number (bits : UInt64)
  | str (s : Bytes)
  | log (source : Option Bytes) (value : Bytes)
deriving DecidableEq

/-- `ITEM_VALUE_TYPE_STR`. -/
def itemValueTypeStr : UInt8 := 1

/-- `ITEM_VALUE_TYPE_LOG`. -/
def itemValueTypeLog : UInt8 := 2

/-- `ITEM_VALUE_TYPE_TEXT`. -/
def itemValueTypeText : UInt8 := 4

/-- `zbx_vc_cache_t`. The string pool holds the number of references to a string. -/
structure Cache where
  items : Table UInt64 (Item HistoryValue)
  strpool : Table Bytes ℕ
  lowMemory : Bool
  minFreeRequest : ℕ

/-- Sizes of the structures, in bytes: `zbx_vc_item_t`, `zbx_vc_chunk_t`,
`zbx_history_record_t`, `zbx_log_value_t`, `REFCOUNT_FIELD_SIZE` and
`ZBX_HASHSET_ENTRY_T`. -/
structure Sizes where
  item : ℕ
  chunk : ℕ
  record : ℕ
  log : ℕ
  refcountField : ℕ
  hashsetEntry : ℕ

/-- What the release of space depends on, apart from the cache. -/
structure Eviction (W : Type*) [LinearOrder W] where
  sizes : Sizes
  visit : Visit UInt64
  zero : W
  quotient : ℕ → ℤ → W
  sort : List (UInt64 × W) → List (UInt64 × W)
  sort_perm : ∀ items, (sort items).Perm items
  sort_ascending : ∀ items, (sort items).Pairwise fun a b => a.2 ≤ b.2

/-! ### Freeing items -/

/-- `vc_item_strfree`: the pool and the number of bytes freed. -/
def itemStrfree (sizes : Sizes) (pool : Table Bytes ℕ) (s : Bytes) : Table Bytes ℕ × ℤ :=
  match pool.search s with
  | none => (pool, 0)
  | some count =>
    if count - 1 = 0 then (pool.remove s, s.length + sizes.refcountField + 1)
    else (pool.set s (count - 1), 0)

/-- Frees strings one after another. -/
def strfreeAll (sizes : Sizes) (pool : Table Bytes ℕ) (strings : List Bytes) :
    Table Bytes ℕ × ℤ :=
  strings.foldl (fun s string =>
    let freed := itemStrfree sizes s.1 string
    (freed.1, s.2 + freed.2)) (pool, 0)

/-- The strings of a value, as the value type of its item says. -/
def valueStrings (valueType : UInt8) (value : HistoryValue) : List Bytes :=
  if valueType = itemValueTypeStr ∨ valueType = itemValueTypeText then
    match value with
    | .str s => [s]
    | _ => []
  else if valueType = itemValueTypeLog then
    match value with
    | .log source value => source.toList ++ [value]
    | _ => []
  else []

/-- The bytes of the log structures of a value. -/
def logBytes (sizes : Sizes) (valueType : UInt8) : ℤ :=
  if valueType = itemValueTypeLog then sizes.log else 0

/-- `vc_item_free_values`, for all values of a chunk. -/
def itemFreeValues (sizes : Sizes) (pool : Table Bytes ℕ) (valueType : UInt8)
    (values : List (Record HistoryValue)) : Table Bytes ℕ × ℤ :=
  values.foldl (fun s record =>
    let freed := strfreeAll sizes s.1 (valueStrings valueType record.value)
    (freed.1, s.2 + freed.2 + logBytes sizes valueType)) (pool, 0)

/-- `vch_item_free_chunk`. -/
def itemFreeChunk (sizes : Sizes) (pool : Table Bytes ℕ) (valueType : UInt8)
    (chunk : Chunk HistoryValue) : Table Bytes ℕ × ℤ :=
  let freed := itemFreeValues sizes pool valueType chunk.values
  (freed.1, freed.2 + sizes.chunk + (chunk.lastValue - chunk.firstValue) * sizes.record)

/-- `vch_item_free_cache`. -/
def itemFreeCache (sizes : Sizes) (pool : Table Bytes ℕ) (item : Item HistoryValue) :
    Table Bytes ℕ × ℤ :=
  item.chunks.foldl (fun s chunk =>
    let freed := itemFreeChunk sizes s.1 item.valueType chunk
    (freed.1, s.2 + freed.2)) (pool, 0)

/-- Frees an item and removes it from the cache. -/
def dropItem (sizes : Sizes) (cache : Cache) (itemid : UInt64) (item : Item HistoryValue) :
    Cache × ℤ :=
  let freed := itemFreeCache sizes cache.strpool item
  ({ cache with items := cache.items.remove itemid, strpool := freed.1 },
    freed.2 + sizes.item)

/-! ### Releasing space -/

variable {W : Type*} [LinearOrder W]

/-- The item was not accessed for a day. -/
def Item.IsOld (item : Item HistoryValue) (now : ℤ) : Prop := item.lastAccessed < now - secPerDay

instance (item : Item HistoryValue) (now : ℤ) : Decidable (item.IsOld now) :=
  inferInstanceAs (Decidable (_ < _))

/-- A round of the first loop of `vc_release_space`. -/
def dropOld (sizes : Sizes) (source : UInt64) (now : ℤ) (s : Cache × ℤ) (itemid : UInt64) :
    Cache × ℤ :=
  match s.1.items.search itemid with
  | none => s
  | some item =>
    if source ≠ itemid ∧ item.IsOld now then
      let dropped := dropItem sizes s.1 itemid item
      (dropped.1, s.2 + dropped.2)
    else s

/-- The first loop of `vc_release_space`: the cache and the number of bytes freed. -/
def releaseOld (e : Eviction W) (source : UInt64) (now : ℤ) (cache : Cache) : Cache × ℤ :=
  (e.visit.arrange cache.items.keys).foldl (dropOld e.sizes source now) (cache, 0)

/-- The weight of an item. -/
def Eviction.weight (e : Eviction W) (item : Item HistoryValue) : W :=
  if 0 < item.valuesTotal then e.quotient item.hits item.valuesTotal else e.zero

/-- The items that nobody accesses, with their weights. -/
def unreferenced (e : Eviction W) (cache : Cache) : List (UInt64 × W) :=
  (e.visit.arrange cache.items.keys).filterMap fun itemid =>
    match cache.items.search itemid with
    | none => none
    | some item => if item.refcount = 0 then some (itemid, e.weight item) else none

/-- The last loop of `vc_release_space`. -/
def releaseLight (sizes : Sizes) (space : ℤ) : List UInt64 → Cache × ℤ → Cache × ℤ
  | [], s => s
  | itemid :: items, s =>
    if s.2 < space then
      match s.1.items.search itemid with
      | none => releaseLight sizes space items s
      | some item =>
        let dropped := dropItem sizes s.1 itemid item
        releaseLight sizes space items (dropped.1, s.2 + dropped.2)
    else s

/-- The items that may be dropped, in the order of their weights. -/
def byWeight (e : Eviction W) (cache : Cache) : List UInt64 :=
  (e.sort (unreferenced e cache)).map Prod.fst

/-- The number of bytes to free: not less than the least number. -/
def Cache.needed (cache : Cache) (space : ℕ) : ℤ :=
  if space < cache.minFreeRequest then cache.minFreeRequest else space

/-- `vc_release_space`. -/
def releaseSpace (e : Eviction W) (source : UInt64) (now : ℤ) (space : ℕ) (cache : Cache) :
    Cache :=
  let old := releaseOld e source now cache
  if cache.needed space ≤ old.2 then old.1
  else
    let low := { old.1 with lowMemory := true }
    (releaseLight e.sizes (cache.needed space) (byWeight e low) (low, old.2)).1

/-! ### Requests -/

/-- A call of `vc_item_malloc` or of `vc_item_strdup`. -/
inductive SpaceRequest where
  | malloc (size : ℕ)
  | strdup (s : Bytes)
deriving DecidableEq

/-- `vc_item_malloc` and `vc_item_strdup`, where `first` and `second` say whether there is
memory at the first and at the second attempt: the cache, and whether the request succeeds. -/
def itemRequest (e : Eviction W) (source : UInt64) (now : ℤ) (first second : Bool)
    (cache : Cache) : SpaceRequest → Cache × Bool
  | .malloc size => if first then (cache, true) else (releaseSpace e source now size cache, second)
  | .strdup s =>
    match cache.strpool.search s with
    | some count => ({ cache with strpool := cache.strpool.set s (count + 1) }, true)
    | none =>
      if first then ({ cache with strpool := cache.strpool.set s 1 }, true)
      else
        let released := releaseSpace e source now
          (s.length + 1 + e.sizes.refcountField + e.sizes.hashsetEntry) cache
        if second then ({ released with strpool := released.strpool.set s 1 }, true)
        else (released, false)

end ValueCache
