import Zabbix.Library.Procedure
import Zabbix.ValueCache.ReadValue
import Zabbix.ValueCache.ReleaseSpace

/-!
# Operations on the whole cache

The functions of the value cache as they work on the cache with its string pool, where an
allocation may fail. Every request for space is reported, together with the cache as it was.
An item is worked on in its place in the cache; when a request for space has dropped it, its
memory is gone and the operation breaks off there.

Whether memory is found, and whether the database answers, is given by lists. What is in a
slot that was never written is left open. Statistics counters of the whole cache and the
low memory warning are left out.
-/

namespace ValueCache

/-- A request for space, with the item it is made for, the time, whether there is memory at
the first attempt, and the cache before it. -/
structure Demand where
  source : UInt64
  now : ℤ
  first : Bool
  cache : Cache
  request : SpaceRequest

/-- The cache in the hands of an operation. For each allocation to come `memory` says
whether there is memory at the first and at the second attempt, and `queries` says for each
read from the database whether it succeeds; beyond the ends of the lists they succeed. -/
structure Session where
  cache : Cache
  memory : List (Bool × Bool)
  queries : List Bool

/-- The history that is requested of an item: the values of a period or a number of values
(`count` is not 0), or the last value not after a time stamp. -/
inductive HistoryRequest where
  | range (seconds : ℤ) (count : ℕ) (timestamp : ℤ)
  | value (ts : Timespec)

namespace Session

variable {W : Type*} [LinearOrder W] (e : Eviction W) (p : Platform HistoryValue) (now : ℤ)

/-! ### Memory and items -/

/-- Asks for space for an item. -/
def itemRequest (itemid : UInt64) (request : SpaceRequest) : Procedure Session Demand Bool := do
  let s ← Procedure.get
  let found := s.memory.headD (true, true)
  Procedure.report ⟨itemid, now, found.1, s.cache, request⟩
  let granted := ValueCache.itemRequest e itemid now found.1 found.2 s.cache request
  Procedure.put { s with cache := granted.1, memory := s.memory.tail }
  pure granted.2

/-- `vc_item_malloc`. -/
def itemMalloc (itemid : UInt64) (size : ℕ) : Procedure Session Demand Bool :=
  itemRequest e now itemid (.malloc size)

/-- `vc_item_strdup`. -/
def itemStrdup (itemid : UInt64) (str : Bytes) : Procedure Session Demand Bool :=
  itemRequest e now itemid (.strdup str)

/-- Frees strings of the pool. -/
def strfree (strings : List Bytes) : Procedure Session Demand PUnit := do
  let s ← Procedure.get
  Procedure.put { s with
    cache := { s.cache with strpool := (strfreeAll e.sizes s.cache.strpool strings).1 } }

/-- Reads an item in its place. -/
def readItem (itemid : UInt64) : Procedure Session Demand (Item HistoryValue) := do
  let s ← Procedure.get
  match s.cache.items.search itemid with
  | none => Procedure.breakOff
  | some item => pure item

/-- Changes an item in its place and frees values that it had. -/
def loseValues (itemid : UInt64) (f : Item HistoryValue → Item HistoryValue)
    (lost : List (Record HistoryValue)) : Procedure Session Demand PUnit := do
  let item ← readItem itemid
  let s ← Procedure.get
  Procedure.put { s with
    cache := { s.cache with
      items := s.cache.items.set itemid (f item)
      strpool := (itemFreeValues e.sizes s.cache.strpool item.valueType lost).1 } }

/-- Changes an item in its place. -/
def updateItem (itemid : UInt64) (f : Item HistoryValue → Item HistoryValue) :
    Procedure Session Demand PUnit := do
  let item ← readItem itemid
  let s ← Procedure.get
  Procedure.put { s with cache := { s.cache with items := s.cache.items.set itemid (f item) } }

/-- `vc_remove_item`. -/
def removeItem (itemid : UInt64) : Procedure Session Demand PUnit := do
  let item ← readItem itemid
  let s ← Procedure.get
  Procedure.put { s with cache := (dropItem e.sizes s.cache itemid item).1 }

/-! ### Copying values -/

/-- Copies the source of a log value, which may be missing. -/
def copySource (itemid : UInt64) : Option Bytes → Procedure Session Demand Bool
  | none => pure true
  | some source => itemStrdup e now itemid source

/-- `vc_item_logdup`. -/
def itemLogdup (itemid : UInt64) (source : Option Bytes) (value : Bytes) :
    Procedure Session Demand Bool := do
  if ← itemMalloc e now itemid e.sizes.log then
    if ← copySource e now itemid source then
      if ← itemStrdup e now itemid value then pure true
      else
        strfree e source.toList
        pure false
    else pure false
  else pure false

/-- Copies the strings of a value to the cache. -/
def copyStrings (itemid : UInt64) (valueType : UInt8) (value : HistoryValue) :
    Procedure Session Demand Bool :=
  if valueType = itemValueTypeStr ∨ valueType = itemValueTypeText then
    match value with
    | .str s => itemStrdup e now itemid s
    | _ => pure true
  else if valueType = itemValueTypeLog then
    match value with
    | .log source value => itemLogdup e now itemid source value
    | _ => pure true
  else pure true

/-- The loop that copies values one after another until a copy fails. Numbers are copied at
once in the source. -/
def copyLoop (itemid : UInt64) (valueType : UInt8)
    (store : Item HistoryValue → Record HistoryValue → Item HistoryValue) :
    List (Record HistoryValue) → Procedure Session Demand Bool
  | [] => pure true
  | value :: values => do
    if ← copyStrings e now itemid valueType value.value then
      updateItem itemid fun item => store item value
      copyLoop itemid valueType store values
    else pure false

/-- Writes a value behind the used slots of the head chunk. -/
def storeAtEnd (item : Item HistoryValue) (value : Record HistoryValue) : Item HistoryValue :=
  { item with
    chunks := item.chunks.modifyLast fun head =>
      { head with
        slots := Function.update head.slots (head.lastValue + 1) value
        lastValue := head.lastValue + 1 } }

/-- Writes a value before the used slots of the tail chunk. -/
def storeAtBeginning (item : Item HistoryValue) (value : Record HistoryValue) :
    Item HistoryValue :=
  { item with
    chunks := item.chunks.modifyHead fun tail =>
      { tail with
        slots := Function.update tail.slots ((tail.firstValue : ℤ) - 1) value
        firstValue := tail.firstValue - 1 } }

/-- `item->head->last_value`. -/
def headLastValue (item : Item HistoryValue) : ℤ :=
  match item.chunks.getLast? with
  | none => 0
  | some head => head.lastValue

/-- `item->tail->first_value`. -/
def tailFirstValue (item : Item HistoryValue) : ℕ :=
  match item.chunks with
  | [] => 0
  | tail :: _ => tail.firstValue

/-- Copies values to an item, in the order given, and adds the number of the values copied to
the total of the item, also when not all of them could be copied. -/
def itemCopyValues (store : Item HistoryValue → Record HistoryValue → Item HistoryValue)
    (copied : Item HistoryValue → Item HistoryValue → ℤ) (itemid : UInt64)
    (values : List (Record HistoryValue)) : Procedure Session Demand Bool := do
  let start ← readItem itemid
  let complete ← copyLoop e now itemid start.valueType store values
  updateItem itemid fun item => { item with valuesTotal := item.valuesTotal + copied start item }
  pure complete

/-- `vch_item_copy_values_at_end`. -/
def itemCopyValuesAtEnd (itemid : UInt64) (values : List (Record HistoryValue)) :
    Procedure Session Demand Bool :=
  itemCopyValues e now storeAtEnd (fun start item => headLastValue item - headLastValue start)
    itemid values

/-- `vch_item_copy_values_at_beginning`. -/
def itemCopyValuesAtBeginning (itemid : UInt64) (values : List (Record HistoryValue)) :
    Procedure Session Demand Bool :=
  itemCopyValues e now storeAtBeginning
    (fun start item => (tailFirstValue start : ℤ) - tailFirstValue item) itemid values.reverse

/-! ### Chunks -/

/-- `vch_item_add_chunk`; `link` puts the chunk into the list of the item, with the indices
that the caller gives it. -/
def itemAddChunk (itemid : UInt64) (nslots : ℕ) (link : Item HistoryValue → Item HistoryValue) :
    Procedure Session Demand Bool := do
  if ← itemMalloc e now itemid (e.sizes.chunk + e.sizes.record * (nslots - 1)) then
    updateItem itemid link
    pure true
  else pure false

/-- A new head chunk with all slots free. -/
def linkHead (nslots : ℕ) (item : Item HistoryValue) : Item HistoryValue :=
  let item := ValueCache.itemAddChunk p item nslots none
  { item with
    chunks := item.chunks.modifyLast fun head =>
      { head with firstValue := 0, lastValue := -1 } }

/-- A new tail chunk with all slots free. -/
def linkTail (nslots : ℕ) (item : Item HistoryValue) : Item HistoryValue :=
  let item := ValueCache.itemAddChunk p item nslots
    (match item.chunks with | [] => none | _ :: _ => some 0)
  { item with
    chunks := item.chunks.modifyHead fun tail =>
      { tail with lastValue := (nslots : ℤ) - 1, firstValue := nslots } }

/-- The number of free slots on the right side of the head chunk. -/
def headSlots (item : Item HistoryValue) : ℕ :=
  match item.chunks.getLast? with
  | none => 0
  | some head => ((head.slotsNum : ℤ) - head.lastValue - 1).toNat

/-- The free slots at the end of an item, which gets a new head chunk when there are none. -/
def makeHeadRoom (itemid : UInt64) : Procedure Session Demand (Option ℕ) := do
  let item ← readItem itemid
  if headSlots item = 0 then
    let nslots := getNewChunkSlotCount (item.valuesTotal.tdiv 2 + 1).toNat
    if ← itemAddChunk e now itemid nslots (linkHead p nslots) then pure (some nslots)
    else pure none
  else pure (some (headSlots item))

/-- The free slots at the beginning of an item, which gets a new tail chunk when there are
none. -/
def makeTailRoom (itemid : UInt64) (count : ℕ) : Procedure Session Demand (Option ℕ) := do
  let item ← readItem itemid
  if tailFirstValue item = 0 then
    let nslots := getNewChunkSlotCount count
    if ← itemAddChunk e now itemid nslots (linkTail p nslots) then pure (some nslots)
    else pure none
  else pure (some (tailFirstValue item))

/-! ### Adding values -/

/-- The loop that makes room for values and copies as many of them, for at most the given number
of rounds. `split` gives the values that are copied next and the values left after them. -/
def fillLoop (makeRoom : ℕ → Procedure Session Demand (Option ℕ))
    (copyValues : List (Record HistoryValue) → Procedure Session Demand Bool)
    (split : ℕ → List (Record HistoryValue) →
      List (Record HistoryValue) × List (Record HistoryValue)) :
    (rounds : ℕ) → List (Record HistoryValue) → Procedure Session Demand Bool
  | _, [] => pure true
  | 0, _ :: _ => Procedure.breakOff
  | rounds + 1, values => do
    match ← makeRoom values.length with
    | none => pure false
    | some nslots =>
      let parts := split (min nslots values.length) values
      if ← copyValues parts.1 then fillLoop makeRoom copyValues split rounds parts.2
      else pure false

/-- The loop of `vch_item_add_values_at_end`. -/
def appendValues (itemid : UInt64) (values : List (Record HistoryValue)) :
    Procedure Session Demand Bool :=
  fillLoop (fun _ => makeHeadRoom e p now itemid) (itemCopyValuesAtEnd e now itemid)
    (fun copySlots values => values.splitAt copySlots) values.length values

/-- The loop of `vch_item_add_values_at_beginning`. -/
def prependValues (itemid : UInt64) (values : List (Record HistoryValue)) :
    Procedure Session Demand Bool :=
  fillLoop (makeTailRoom e p now itemid) (itemCopyValuesAtBeginning e now itemid)
    (fun copySlots values => (values.splitAt (values.length - copySlots)).swap)
    values.length values

/-- Appends values, and asks for a clean-up when the item has got another head chunk.
`headKept` tells that the head chunk it had at first is still there, `reused` that a new head
chunk has the address of the freed one. -/
def appendMark (itemid : UInt64) (headKept reused : Bool)
    (values : List (Record HistoryValue)) : Procedure Session Demand Bool := do
  let start ← readItem itemid
  if ← appendValues e p now itemid values then
    updateItem itemid fun item =>
      let grown : Bool := start.chunks.length < item.chunks.length
      { item with
        cleanPending := item.cleanPending || if headKept then grown else !(reused && grown) }
    pure true
  else pure false

/-- The values that are freed by removing those from a place on. When the place is the start
of a chunk, the whole chunk goes. -/
def removedValues (cur : Cursor HistoryValue) : List (Record HistoryValue) :=
  (if cur.index - 1 < cur.chunk.firstValue then cur.chunk.values
    else slice cur.chunk.slots cur.index (cur.chunk.lastValue + 1)) ++ chunkValues cur.newer

/-- `vch_item_remove_values_from`. -/
def itemRemoveValuesFrom (itemid : UInt64) (cur : Cursor HistoryValue) :
    Procedure Session Demand PUnit :=
  loseValues e itemid (fun item => ValueCache.itemRemoveValuesFrom item cur) (removedValues cur)

/-- `vch_item_add_values_at_end`. -/
def itemAddValuesAtEnd (itemid : UInt64) (reused : Bool) (values : List (Record HistoryValue)) :
    Procedure Session Demand Bool := do
  let item ← readItem itemid
  match item.chunks, item.chunks.getLast?, values with
  | tail :: rest, some head, value :: _ =>
    if 0 < recordCompareAsc (head.slots head.lastValue) value then
      let first := tail.slots tail.firstValue
      let skipped := values.takeWhile fun v => 0 < recordCompareAsc first v
      updateItem itemid fun item => itemSkipValues now item skipped
      match values.drop skipped.length with
      | [] => pure true
      | v :: vs =>
        let cur := itemSplicePlace now item tail rest value
        itemRemoveValuesFrom e itemid cur
        appendMark e p now itemid
          (cur.newer.isEmpty && decide (cur.chunk.firstValue ≤ cur.index - 1)) reused
          (p.sortAsc (v :: vs ++ itemGetValuesFrom cur))
    else appendMark e p now itemid true reused values
  | _, _, _ => appendMark e p now itemid true reused values

/-- `vch_item_add_values_at_beginning`. -/
def itemAddValuesAtBeginning (itemid : UInt64) (values : List (Record HistoryValue)) :
    Procedure Session Demand Bool := do
  let item ← readItem itemid
  match item.chunks with
  | [] => prependValues e p now itemid values
  | tail :: _ =>
    let sec := (tail.slots tail.firstValue).sec
    prependValues e p now itemid (values.rdropWhile fun r => sec ≤ r.sec)

/-! ### Clean-up -/

/-- The values that `cleanChunks` frees. -/
def cleanedFrom (timestamp : ℤ) : Chunk HistoryValue → List (Chunk HistoryValue) →
    List (Record HistoryValue)
  | chunk, [] => if (chunk.slots chunk.lastValue).sec < timestamp then chunk.values else []
  | chunk, next :: rest =>
    if (chunk.slots chunk.lastValue).sec < timestamp then
      let trimmed := trimChunk (chunk.slots chunk.lastValue).sec next
      slice next.slots next.firstValue trimmed.firstValue ++ chunk.values ++
        cleanedFrom timestamp trimmed rest
    else []

/-- The values that `vch_item_clean_cache` frees. -/
def cleanedValues (item : Item HistoryValue) : List (Record HistoryValue) :=
  if item.range ≠ 0 then
    match item.chunks with
    | [] => []
    | tail :: rest => cleanedFrom (now - item.range - secPerMin) tail rest
  else []

/-- `vch_item_clean_cache`. -/
def itemCleanCache (itemid : UInt64) : Procedure Session Demand PUnit := do
  let item ← readItem itemid
  loseValues e itemid (ValueCache.itemCleanCache now) (cleanedValues now item)

/-- `vc_item_release`. -/
def itemRelease (itemid : UInt64) : Procedure Session Demand PUnit := do
  updateItem itemid fun item => { item with refcount := item.refcount - 1 }
  let item ← readItem itemid
  if item.refcount = 0 then
    if item.removePending then removeItem e itemid
    else
      Procedure.when (itemCleanCache e now itemid) item.cleanPending
      updateItem itemid fun item => { item with cleanPending := false, removePending := false }

/-- `vc_item_change_value_type`. -/
def itemChangeValueType (itemid : UInt64) (valueType : UInt8) :
    Procedure Session Demand PUnit := do
  let item ← readItem itemid
  loseValues e itemid (fun item => ValueCache.itemChangeValueType item valueType) item.values

/-- `vc_prepare_item`. -/
def prepareItem (itemid : UInt64) (valueType : UInt8) : Procedure Session Demand Bool := do
  let item ← readItem itemid
  if item.removePending then pure false
  else
    Procedure.when (itemChangeValueType e itemid valueType) (item.valueType ≠ valueType)
    pure true

/-! ### Requests for history -/

/-- Reads from the database, which may fail. -/
def readDatabase (values : List (Record HistoryValue)) :
    Procedure Session Demand (Option (List (Record HistoryValue))) := do
  let s ← Procedure.get
  Procedure.put { s with queries := s.queries.tail }
  pure (if s.queries.headD true then some values else none)

variable (rows : List (Record HistoryValue))

/-- Adds records read from the database; returns their number, or `none` on failure. -/
def itemAddRecords (itemid : UInt64) (records : List (Record HistoryValue)) :
    Procedure Session Demand (Option ℕ) := do
  match ← readDatabase records with
  | none => pure none
  | some records =>
    if 0 < records.length then
      if ← itemAddValuesAtBeginning e p now itemid (p.sortAsc records) then
        pure (some records.length)
      else pure none
    else pure (some 0)

/-- `vch_item_cache_values_by_time`. -/
def itemCacheValuesByTime (itemid : UInt64) (seconds timestamp : ℤ) :
    Procedure Session Demand (Option ℕ) := do
  let item ← readItem itemid
  let (updateSeconds, updateEnd) := timeUpdate now item seconds timestamp
  if 0 < updateSeconds ∧ item.cachedAll = false then
    itemAddRecords e p now itemid (dbReadValuesByTime p rows updateSeconds updateEnd)
  else pure (some 0)

/-- `vch_item_cache_values_by_count`. -/
def itemCacheValuesByCount (itemid : UInt64) (count : ℤ) (timestamp : Timespec) :
    Procedure Session Demand (Option ℕ) := do
  let item ← readItem itemid
  let (cacheRecords, updateEnd) := countUpdate now item count timestamp
  if item.cachedAll = false ∧ cacheRecords < count then
    itemAddRecords e p now itemid
      (dbReadValuesByCount p rows [] (count - cacheRecords) updateEnd timestamp false)
  else pure (some 0)

/-- Reads the answer from the item as the given function does, and adds the hits, that is the
values found without the misses, to the statistics of the item. -/
def answerFrom (itemid : UInt64) (misses : ℕ → ℕ)
    (answer : Item HistoryValue → Item HistoryValue × List (Record HistoryValue)) :
    Procedure Session Demand (List (Record HistoryValue)) := do
  let item ← readItem itemid
  let values := (answer item).2
  updateItem itemid fun item =>
    updateStatistics (answer item).1 (values.length - misses values.length)
  pure values

/-- `vch_item_get_value_range`: the values found, `none` on failure. -/
def itemGetValueRange (itemid : UInt64) (seconds : ℤ) (count : ℕ) (timestamp : ℤ) :
    Procedure Session Demand (Option (List (Record HistoryValue))) := do
  if count = 0 then
    match ← itemCacheValuesByTime e p now rows itemid seconds timestamp with
    | none => pure none
    | some recordsRead =>
      let values ← answerFrom itemid (min recordsRead) fun item =>
        itemGetValuesByTime now item seconds timestamp
      pure (some values)
  else
    match ← itemCacheValuesByCount e p now rows itemid count ⟨timestamp, maxNanoseconds⟩ with
    | none => pure none
    | some recordsRead =>
      let values ← answerFrom itemid (fun _ => min recordsRead count) fun item =>
        itemGetValuesByCount now item count timestamp
      pure (some values)

/-- The first cached value is not after the time stamp. -/
def startsBefore (ts : Timespec) (item : Item HistoryValue) : Bool :=
  match item.chunks with
  | [] => false
  | tail :: _ => timespecCompare (tail.slots tail.firstValue).timestamp ts ≤ 0

/-- Makes the cache cover a request for one value, unless it does so already. -/
def cacheUnless (itemid : UInt64) (cached : Bool) (ts : Timespec) :
    Procedure Session Demand (Option ℕ) :=
  if cached then pure (some 0) else itemCacheValuesByCount e p now rows itemid 1 ts

/-- `vch_item_get_value`: the value found, if there is one; `none` on failure. -/
def itemGetValue (itemid : UInt64) (ts : Timespec) :
    Procedure Session Demand (Option (Option (Record HistoryValue))) := do
  let item ← readItem itemid
  let cached := startsBefore ts item
  match ← cacheUnless e p now rows itemid cached ts with
  | none =>
    updateItem itemid fun item => { item with cachedAll := true }
    pure none
  | some _ =>
    let item ← readItem itemid
    match itemGetLastValueByTimespec now item ts with
    | none =>
      updateItem itemid fun item => { item with cachedAll := true }
      pure (some none)
    | some cur =>
      let value := cur.chunk.slots cur.index
      updateItem itemid fun item =>
        let item := updateStatistics item (if cached then 1 else 0)
        let period := CInt.wrap (now - value.sec)
        { item with range := if item.range < period then period else item.range }
      pure (some (some value))

/-! ### New items -/

/-- The records that `vc_add_item` reads: at least two when it reads by count. -/
def readForItem : HistoryRequest → List (Record HistoryValue)
  | .value ts => dbReadValuesByCount p rows [] 2 now ts false
  | .range seconds count timestamp =>
    if count = 0 then dbReadValuesByTime p rows (CInt.wrap (now - timestamp + seconds)) now
    else
      dbReadValuesByCount p rows [] (if count = 1 then 2 else count) now
        ⟨timestamp, maxNanoseconds⟩ false

/-- Whether the records read for a new item are all there are. -/
def readsAll (values : List (Record HistoryValue)) (first : Record HistoryValue) :
    HistoryRequest → Bool
  | .value ts => 0 < timespecCompare first.timestamp ts
  | .range _ count timestamp =>
    count ≠ 0 ∧ (values.takeWhile fun v => v.sec ≤ timestamp).length <
      if count = 1 then 2 else count

/-- The first part of `vch_init`: what is promised of a new item. -/
def initItem (values : List (Record HistoryValue)) (request : HistoryRequest)
    (item : Item HistoryValue) : Item HistoryValue :=
  match values with
  | [] => item
  | first :: _ =>
    let cachedAll := item.cachedAll || readsAll values first request
    let unbounded := if cachedAll then item.range else CInt.wrap (now - first.sec)
    { item with
      cachedAll := cachedAll
      range := match request with
        | .value _ => unbounded
        | .range seconds _ timestamp =>
          if seconds ≠ 0 then CInt.wrap (now - timestamp + seconds) else unbounded }

/-- Inserts a new item into the hash set of items, if there is memory. -/
def insertItem (itemid : UInt64) (valueType : UInt8) : Procedure Session Demand Bool := do
  let s ← Procedure.get
  if (s.memory.headD (true, true)).1 then
    Procedure.put { s with
      cache := { s.cache with items := s.cache.items.set itemid (itemNew itemid valueType) }
      memory := s.memory.tail }
    pure true
  else
    Procedure.put { s with memory := s.memory.tail }
    pure false

/-- `vc_add_item`: whether there is an item now, and the records read. A failure of `vch_init`
is ignored. -/
def addItem (itemid : UInt64) (valueType : UInt8) (request : HistoryRequest) :
    Procedure Session Demand (Bool × List (Record HistoryValue)) := do
  match ← readDatabase (readForItem p now rows request) with
  | none => pure (false, [])
  | some records =>
    let values := p.sortAsc records
    let s ← Procedure.get
    if (s.cache.items.search itemid).isSome then
      let _ ← itemAddValuesAtBeginning e p now itemid values
      pure (true, values)
    else if s.cache.lowMemory then pure (false, values)
    else
      if ← insertItem itemid valueType then
        updateItem itemid (initItem now values request)
        let _ ← itemAddValuesAtBeginning e p now itemid values
        pure (true, values)
      else pure (false, values)

/-! ### The functions of the interface -/

/-- `zbx_vc_add_value`: whether the value was added. -/
def addValue (itemid : UInt64) (valueType : UInt8) (reused : Bool)
    (value : Record HistoryValue) : Procedure Session Demand Bool := do
  let s ← Procedure.get
  if (s.cache.items.search itemid).isSome then
    updateItem itemid itemAddref
    let item ← readItem itemid
    Procedure.when (itemChangeValueType e itemid valueType) (item.valueType ≠ valueType)
    let added ← itemAddValuesAtEnd e p now itemid reused [value]
    Procedure.when (updateItem itemid fun item => { item with removePending := true }) (!added)
    itemRelease e now itemid
    pure added
  else pure false

/-- The part of the records read for a new item that answers the request: those not newer
than its end, and of a request by count as many as it asks for. -/
def cutRange (count : ℕ) (timestamp : ℤ) (values : List (Record HistoryValue)) :
    List (Record HistoryValue) :=
  let values := values.dropWhile fun v => timestamp < v.sec
  if count = 0 then values else values.take count

/-- Prepares an item and reads the answer from it. -/
def tryValueRange (itemid : UInt64) (valueType : UInt8) (seconds : ℤ) (count : ℕ)
    (timestamp : ℤ) : Procedure Session Demand (Option (List (Record HistoryValue))) := do
  if ← prepareItem e itemid valueType then
    itemGetValueRange e p now rows itemid seconds count timestamp
  else pure none

/-- Takes a reference to a new item that was accessed, and releases it. -/
def touchItem (itemid : UInt64) : Procedure Session Demand PUnit := do
  updateItem itemid itemAddref
  updateItem itemid fun item => { item with lastAccessed := now }
  itemRelease e now itemid

/-- `zbx_vc_get_value_range`: the values found, `none` on failure. -/
def getValueRange (itemid : UInt64) (valueType : UInt8) (seconds : ℤ) (count : ℕ)
    (timestamp : ℤ) : Procedure Session Demand (Option (List (Record HistoryValue))) := do
  let s ← Procedure.get
  if (s.cache.items.search itemid).isSome then
    updateItem itemid itemAddref
    match ← tryValueRange e p now rows itemid valueType seconds count timestamp with
    | none =>
      updateItem itemid fun item => { item with removePending := true }
      let values ← readDatabase
        (if count = 0 then dbReadValuesByTime p rows seconds timestamp
          else dbReadValuesByCount p rows [] count timestamp ⟨timestamp, maxNanoseconds⟩ true)
      itemRelease e now itemid
      pure (values.map p.sortDesc)
    | some values =>
      updateItem itemid fun item => { item with lastAccessed := now }
      itemRelease e now itemid
      pure (some values)
  else
    let (present, values) ←
      addItem e p now rows itemid valueType (.range seconds count timestamp)
    Procedure.when (touchItem e now itemid) present
    pure (some (cutRange count timestamp (p.sortDesc values)))

/-- Prepares an item and reads the value from it. -/
def tryValue (itemid : UInt64) (valueType : UInt8) (ts : Timespec) :
    Procedure Session Demand (Option (Option (Record HistoryValue))) := do
  if ← prepareItem e itemid valueType then itemGetValue e p now rows itemid ts
  else pure none

/-- Takes a reference to a new item and releases it. -/
def holdItem (itemid : UInt64) : Procedure Session Demand PUnit := do
  updateItem itemid itemAddref
  itemRelease e now itemid

/-- `zbx_vc_get_value`: the value found, if there is one; `none` on failure. -/
def getValue (itemid : UInt64) (valueType : UInt8) (ts : Timespec) :
    Procedure Session Demand (Option (Option (Record HistoryValue))) := do
  let s ← Procedure.get
  if (s.cache.items.search itemid).isSome then
    updateItem itemid itemAddref
    match ← tryValue e p now rows itemid valueType ts with
    | none =>
      updateItem itemid fun item => { item with removePending := true }
      let found ← readDatabase (dbReadValue p rows ts).toList
      itemRelease e now itemid
      pure (found.bind fun values => values.head?.map some)
    | some value =>
      updateItem itemid fun item => { item with lastAccessed := now }
      itemRelease e now itemid
      pure (some value)
  else
    let (present, values) ← addItem e p now rows itemid valueType (.value ts)
    Procedure.when (holdItem e now itemid) present
    pure (some (values.reverse.find? fun v => timespecCompare v.timestamp ts ≤ 0))

end Session

/-! ### Calls -/

/-- A call of a function of the interface. `rows` is the history of the item as it is in the
database. -/
inductive CacheCall where
  | addValue (itemid : UInt64) (valueType : UInt8) (reused : Bool) (value : Record HistoryValue)
  | getValueRange (itemid : UInt64) (valueType : UInt8) (seconds : ℤ) (count : ℕ)
      (timestamp : ℤ) (rows : List (Record HistoryValue))
  | getValue (itemid : UInt64) (valueType : UInt8) (ts : Timespec)
      (rows : List (Record HistoryValue))

/-- A call at a time, with what happens to its allocations and its reads. -/
structure CacheAction where
  call : CacheCall
  now : ℤ
  memory : List (Bool × Bool)
  queries : List Bool

variable {W : Type*} [LinearOrder W] (e : Eviction W) (p : Platform HistoryValue)

/-- The operation behind a call. -/
def CacheCall.operation (now : ℤ) : CacheCall → Procedure Session Demand PUnit
  | .addValue itemid valueType reused value => do
    let _ ← Session.addValue e p now itemid valueType reused value
  | .getValueRange itemid valueType seconds count timestamp rows => do
    let _ ← Session.getValueRange e p now rows itemid valueType seconds count timestamp
  | .getValue itemid valueType ts rows => do
    let _ ← Session.getValue e p now rows itemid valueType ts

/-- What a call leaves behind. -/
def Cache.perform (cache : Cache) (action : CacheAction) : Outcome Session Demand PUnit :=
  action.call.operation e p action.now ⟨cache, action.memory, action.queries⟩

/-- A step of the cache: to where a call ends or breaks off. -/
def Cache.step (cache : Cache) (action : CacheAction) : Option Cache :=
  some (cache.perform e p action).state.cache

/-- The cache that `zbx_vc_init` creates. -/
def Cache.initial (minFreeRequest : ℕ) : Cache where
  items := Table.empty
  strpool := Table.empty
  lowMemory := false
  minFreeRequest := minFreeRequest

end ValueCache
