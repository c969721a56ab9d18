import Mathlib.Data.List.DropRight
import Zabbix.Library.CInt
import Zabbix.ValueCache.Item

/-!
# Requests for cached values

Requests extend the cached part of an item backwards from the database when it does not
reach far enough, and then read the answer from the cache. `range` and `cachedAll` record
how much of the past later requests may take as cached. Times and periods are numbers of
`int`, and their differences wrap. Statistics counters of the whole cache are left out.
-/

namespace ValueCache

variable {V : Type*}

/-- `ZBX_VC_MAX_CHUNK_RECORDS`, for chunks of 48 and records of 16 bytes. -/
def maxChunkRecords : ℕ := (64 * 1024 - 48) / 16 + 1

/-- `ZBX_VC_MIN_CHUNK_RECORDS`. -/
def minChunkRecords : ℕ := 2

/-- The number of slots of a new chunk. -/
def getNewChunkSlotCount (nslots : ℕ) : ℕ :=
  let nslots := if nslots > maxChunkRecords then maxChunkRecords else nslots
  if nslots < minChunkRecords then minChunkRecords else nslots

theorem getNewChunkSlotCount_pos (nslots : ℕ) :
  0 < getNewChunkSlotCount nslots
  := by
  unfold getNewChunkSlotCount minChunkRecords
  dsimp only
  generalize (if nslots > maxChunkRecords then maxChunkRecords else nslots) = n
  split <;> omega

/-- Adds a chunk before the chunk at a position of the list, or as the new head. -/
def itemAddChunk (p : Platform V) (item : Item V) (nslots : ℕ) (insertBefore : Option ℕ) :
    Item V :=
  let chunk : Chunk V := ⟨p.uninit item.chunks.length, 0, 0, nslots⟩
  { item with
    chunks := match insertBefore with
      | none => item.chunks ++ [chunk]
      | some k => item.chunks.insertIdx k chunk }

/-- Writes the values before the used slots of the tail chunk. -/
def itemCopyValuesAtBeginning (item : Item V) (values : List (Record V)) : Item V :=
  { item with
    chunks := item.chunks.modifyHead fun tail =>
      { tail with
        slots := writeAt tail.slots (tail.firstValue - values.length) values
        firstValue := tail.firstValue - values.length }
    valuesTotal := item.valuesTotal + values.length }

/-- The free slots on the left side of the tail chunk; a full tail gets a new one. -/
def itemTailRoom (p : Platform V) (item : Item V) (count : ℕ) : Item V × ℕ :=
  let nslots := match item.chunks with
    | [] => 0
    | tail :: _ => tail.firstValue
  if nslots = 0 then
    let nslots := getNewChunkSlotCount count
    let item := itemAddChunk p item nslots
      (match item.chunks with | [] => none | _ :: _ => some 0)
    ({ item with
      chunks := item.chunks.modifyHead fun tail =>
        { tail with lastValue := nslots - 1, firstValue := nslots } }, nslots)
  else (item, nslots)

theorem itemTailRoom_pos (p : Platform V) (item : Item V) (count : ℕ) :
  0 < (itemTailRoom p item count).2
  := by
  unfold itemTailRoom
  dsimp only
  generalize (match item.chunks with | [] => 0 | tail :: _ => tail.firstValue) = nslots
  by_cases h : nslots = 0
  · rw [if_pos h]
    exact getNewChunkSlotCount_pos count
  · rw [if_neg h]
    exact Nat.pos_of_ne_zero h

/-- Copies values before the cached ones, chunk by chunk from the newest value back. -/
def itemPrependValues (p : Platform V) (item : Item V) (values : List (Record V)) : Item V :=
  if _h : values = [] then item
  else
    let room := itemTailRoom p item values.length
    let copySlots := min room.2 values.length
    let count := values.length - copySlots
    itemPrependValues p (itemCopyValuesAtBeginning room.1 (values.drop count))
      (values.take count)
termination_by values.length
decreasing_by
  have := List.length_pos_iff.mpr _h
  have := itemTailRoom_pos p item values.length
  rw [List.length_take]
  omega

/-- Adds values before the cached ones. Values of the first cached second or later are
already there and are skipped. -/
def itemAddValuesAtBeginning (p : Platform V) (item : Item V) (values : List (Record V)) :
    Item V :=
  match item.chunks with
  | [] => itemPrependValues p item values
  | tail :: _ =>
    let sec := (tail.slots tail.firstValue).sec
    itemPrependValues p item (values.rdropWhile fun r => sec ≤ r.sec)

variable (p : Platform V) (rows : List (Record V)) (now : ℤ)

/-- Adds records read from the database to the cached ones; returns their number. -/
def itemAddRecords (item : Item V) (records : List (Record V)) : Item V × ℕ :=
  if 0 < records.length then
    (itemAddValuesAtBeginning p item (p.sortAsc records), records.length)
  else (item, 0)

/-- The number of seconds to read and their end, when the cache does not cover a request
by time. -/
def timeUpdate (item : Item V) (seconds timestamp : ℤ) : ℤ × ℤ :=
  let start := CInt.wrap (timestamp - seconds)
  match item.chunks with
  | [] => (CInt.wrap (now - timestamp + seconds), now)
  | tail :: _ =>
    if start < CInt.wrap (now - item.range) then
      let updateEnd := CInt.wrap ((tail.slots tail.firstValue).sec - 1)
      (CInt.wrap (updateEnd - start), updateEnd)
    else (0, 0)

/-- Makes the cache cover a request by time; returns the number of records read. -/
def itemCacheValuesByTime (item : Item V) (seconds timestamp : ℤ) : Item V × ℕ :=
  let (updateSeconds, updateEnd) := timeUpdate now item seconds timestamp
  if 0 < updateSeconds ∧ item.cachedAll = false then
    itemAddRecords p item (dbReadValuesByTime p rows updateSeconds updateEnd)
  else (item, 0)

/-- The cached values up to a cursor, as the loop of a request by count counts them: it
stops at `count`. -/
def countCached (count : ℤ) : ℤ → List (Chunk V) → ℤ
  | cacheRecords, [] => cacheRecords
  | cacheRecords, prev :: older =>
    if cacheRecords < count then
      countCached count (cacheRecords + (prev.lastValue - prev.firstValue + 1)) older
    else cacheRecords

/-- The number of cached records that count, and the end of the part to read. -/
def countUpdate (item : Item V) (count : ℤ) (timestamp : Timespec) : ℤ × ℤ :=
  match item.chunks with
  | [] => (0, now)
  | tail :: _ =>
    let cacheRecords := match itemGetLastValueByTimespec now item timestamp with
      | none => 0
      | some cur => countCached count (cur.index - cur.chunk.firstValue + 1) cur.older
    (cacheRecords, (tail.slots tail.firstValue).sec - 1)

/-- Makes the cache cover a request by count; returns the number of records read. -/
def itemCacheValuesByCount (item : Item V) (count : ℤ) (timestamp : Timespec) :
    Item V × ℕ :=
  let (cacheRecords, updateEnd) := countUpdate now item count timestamp
  if item.cachedAll = false ∧ cacheRecords < count then
    itemAddRecords p item
      (dbReadValuesByCount p rows [] (count - cacheRecords) updateEnd timestamp false)
  else (item, 0)

/-- The values of a chunk from `index` back while they are after `start`. -/
def takeAfter (chunk : Chunk V) (start index : ℤ) : List (Record V) :=
  if chunk.firstValue ≤ index ∧ (chunk.slots index).sec > start then
    chunk.slots index :: takeAfter chunk start (index - 1)
  else []
termination_by (index + 1 - chunk.firstValue).toNat
decreasing_by omega

/-- The loop over the chunks of a request by time. -/
def takeChunksAfter (start : ℤ) : Chunk V → List (Chunk V) → ℤ → List (Record V)
  | chunk, older, index =>
    if (chunk.slots chunk.lastValue).sec > start then
      takeAfter chunk start index ++
        match older with
        | [] => []
        | prev :: rest => takeChunksAfter start prev rest prev.lastValue
    else []

/-- Reads the answer to a request by time from the cache. -/
def itemGetValuesByTime (item : Item V) (seconds timestamp : ℤ) :
    Item V × List (Record V) :=
  let start := CInt.wrap (timestamp - seconds)
  let period := CInt.wrap (seconds + now - timestamp)
  let range :=
    if item.range ≠ 0 ∨ item.cachedAll = false then
      if item.range < period then period else item.range
    else item.range
  let item := { item with range := range }
  match itemGetLastValue now item timestamp with
  | none => (item, [])
  | some cur => (item, takeChunksAfter start cur.chunk cur.older cur.index)

/-- The values of a chunk from `index` back, at most `count` of them. -/
def takeCount (chunk : Chunk V) : ℕ → ℤ → List (Record V)
  | 0, _ => []
  | count + 1, index =>
    if chunk.firstValue ≤ index then chunk.slots index :: takeCount chunk count (index - 1)
    else []

/-- The loop over the chunks of a request by count. -/
def takeChunksCount (count : ℕ) : Chunk V → List (Chunk V) → ℤ → List (Record V)
  | chunk, older, index =>
    if 0 < count then
      let taken := takeCount chunk count index
      taken ++
        match older with
        | [] => []
        | prev :: rest => takeChunksCount (count - taken.length) prev rest prev.lastValue
    else []

/-- Reads the answer to a request by count from the cache. -/
def itemGetValuesByCount (item : Item V) (count : ℕ) (timestamp : ℤ) :
    Item V × List (Record V) :=
  let values := match itemGetLastValue now item timestamp with
    | none => []
    | some cur => takeChunksCount count cur.chunk cur.older cur.index
  let range := match itemGetLastValue now item timestamp, values.getLast? with
    | some _, some last =>
      let period := CInt.wrap (now - last.sec)
      if values.length = count ∧ item.range < period then period else item.range
    | _, _ => item.range
  if values.length < count then ({ item with range := 0, cachedAll := true }, values)
  else ({ item with range := range }, values)

/-- Adds to the hit counter of an item, a 64-bit number. -/
def updateStatistics (item : Item V) (hits : ℤ) : Item V :=
  { item with hits := ((item.hits + hits) % 2 ^ 64).toNat }

/-- `vch_item_get_value_range`: a request by count, or by time when `count` is 0. -/
def itemGetValueRange (item : Item V) (seconds : ℤ) (count : ℕ) (timestamp : ℤ) :
    Item V × List (Record V) :=
  if count = 0 then
    let (item, recordsRead) := itemCacheValuesByTime p rows now item seconds timestamp
    let (item, values) := itemGetValuesByTime now item seconds timestamp
    let recordsRead := if recordsRead > values.length then values.length else recordsRead
    (updateStatistics item (values.length - recordsRead), values)
  else
    let (item, recordsRead) :=
      itemCacheValuesByCount p rows now item count ⟨timestamp, maxNanoseconds⟩
    let (item, values) := itemGetValuesByCount now item count timestamp
    let recordsRead := if recordsRead > count then count else recordsRead
    (updateStatistics item (values.length - recordsRead), values)

/-- The first part of `vch_item_get_value`: the cache is extended when its first value
is after the time stamp. Returns the hits of the request. -/
def itemCacheValue (item : Item V) (ts : Timespec) : Item V × ℤ :=
  match item.chunks with
  | [] => ((itemCacheValuesByCount p rows now item 1 ts).1, 0)
  | tail :: _ =>
    if 0 < timespecCompare (tail.slots tail.firstValue).timestamp ts then
      ((itemCacheValuesByCount p rows now item 1 ts).1, 0)
    else (item, 1)

/-- `vch_item_get_value`: the last value that is not after the time stamp. -/
def itemGetValue (item : Item V) (ts : Timespec) : Item V × Option (Record V) :=
  let (item, hits) := itemCacheValue p rows now item ts
  match itemGetLastValueByTimespec now item ts with
  | none => ({ item with cachedAll := true }, none)
  | some cur =>
    let item := updateStatistics item hits
    let value := cur.chunk.slots cur.index
    let period := CInt.wrap (now - value.sec)
    let range := if item.range < period then period else item.range
    ({ item with range := range }, some value)

end ValueCache
