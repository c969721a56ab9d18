import Zabbix.ValueCache.Request

/-!
# Adding a new value

When an item receives a value that is newer than the cached ones, it is appended. A late
value is spliced in: the cached values after it are taken out, sorted together with it
and appended again. A value before the first cached one is skipped, and `range` and
`cachedAll` are lowered accordingly. Pending operations run when the last reference to
the item is released.
-/

namespace ValueCache

variable {V : Type*}

/-- The search for the place of a late value: goes back from value to value while they
are after `timestamp`; `index` is the last place visited. -/
def spliceBack (timestamp : Timespec) (newer : List (Chunk V)) (chunk : Chunk V)
    (older : List (Chunk V)) (iindex index : ℤ) : Cursor V :=
  if 0 < timespecCompare (chunk.slots iindex).timestamp timestamp then
    if iindex - 1 < chunk.firstValue then
      match older with
      | [] => ⟨newer, chunk, [], iindex⟩
      | prev :: rest => spliceBack timestamp (chunk :: newer) prev rest prev.lastValue iindex
    else spliceBack timestamp newer chunk older (iindex - 1) iindex
  else ⟨newer, chunk, older, index⟩
termination_by stepsBack chunk older iindex
decreasing_by
  · simp only [stepsBack, List.map_cons, List.sum_cons]
    omega
  · simp only [stepsBack]
    omega

/-- The values from a place on. -/
def itemGetValuesFrom (cur : Cursor V) : List (Record V) :=
  slice cur.chunk.slots cur.index (cur.chunk.lastValue + 1) ++ chunkValues cur.newer

/-- The number of values in a chunk, as the item's total counts them. -/
def Chunk.valuesNum (c : Chunk V) : ℤ := c.lastValue - c.firstValue + 1

/-- Removes the values from a place on. -/
def itemRemoveValuesFrom (item : Item V) (cur : Cursor V) : Item V :=
  let freed := (cur.newer.map Chunk.valuesNum).sum
  if cur.index - 1 < cur.chunk.firstValue then
    match cur.older with
    | [] => { item with chunks := [], valuesTotal := 0 }
    | prev :: rest =>
      { item with
        chunks := (prev :: rest).reverse
        valuesTotal := item.valuesTotal - cur.chunk.valuesNum - freed }
  else
    { item with
      chunks := cur.older.reverse ++ [{ cur.chunk with lastValue := cur.index - 1 }]
      valuesTotal := item.valuesTotal - (cur.chunk.lastValue - cur.index + 1) - freed }

/-- Writes the values behind the used slots of the head chunk. -/
def itemCopyValuesAtEnd (item : Item V) (values : List (Record V)) : Item V :=
  { item with
    chunks := item.chunks.modifyLast fun head =>
      { head with
        slots := writeAt head.slots (head.lastValue + 1) values
        lastValue := head.lastValue + values.length }
    valuesTotal := item.valuesTotal + values.length }

/-- The free slots on the right side of the head chunk; a full head gets a new one. -/
def itemHeadRoom (p : Platform V) (item : Item V) : Item V × ℕ :=
  let nslots := match item.chunks.getLast? with
    | none => 0
    | some head => ((head.slotsNum : ℤ) - head.lastValue - 1).toNat
  if nslots = 0 then
    let nslots := getNewChunkSlotCount (item.valuesTotal.tdiv 2 + 1).toNat
    let item := itemAddChunk p item nslots none
    ({ item with
      chunks := item.chunks.modifyLast fun head =>
        { head with firstValue := 0, lastValue := -1 } }, nslots)
  else (item, nslots)

theorem itemHeadRoom_pos (p : Platform V) (item : Item V) :
  0 < (itemHeadRoom p item).2
  := by
  unfold itemHeadRoom
  dsimp only
  generalize (match item.chunks.getLast? with
    | none => 0
    | some head => ((head.slotsNum : ℤ) - head.lastValue - 1).toNat) = nslots
  by_cases h : nslots = 0
  · rw [if_pos h]
    exact getNewChunkSlotCount_pos _
  · rw [if_neg h]
    exact Nat.pos_of_ne_zero h

/-- Copies values behind the cached ones, chunk by chunk. -/
def itemAppendValues (p : Platform V) (item : Item V) (values : List (Record V)) : Item V :=
  if _h : values = [] then item
  else
    let room := itemHeadRoom p item
    let copySlots := min room.2 values.length
    itemAppendValues p (itemCopyValuesAtEnd room.1 (values.take copySlots))
      (values.drop copySlots)
termination_by values.length
decreasing_by
  have := List.length_pos_iff.mpr _h
  have := itemHeadRoom_pos p item
  rw [List.length_drop]
  omega

/-- The cache no longer holds everything and must not promise the skipped values. -/
def itemSkipValues (now : ℤ) (item : Item V) (skipped : List (Record V)) : Item V :=
  match skipped.getLast? with
  | none => item
  | some value =>
    { item with
      cachedAll := false
      range := if now - value.sec ≤ item.range then now - value.sec - 1 else item.range }

/-- The loop that appends values, and the request for a clean-up when the item has got
another head chunk. `headKept` tells that the head chunk it had at first is still there,
`reused` that a new head chunk has the address of the freed one. -/
def itemAppendMark (p : Platform V) (headKept reused : Bool) (item : Item V)
    (values : List (Record V)) : Item V :=
  let item' := itemAppendValues p item values
  let grown : Bool := item.chunks.length < item'.chunks.length
  { item' with
    cleanPending := item'.cleanPending || if headKept then grown else !(reused && grown) }

/-- The place from which the cached values are sorted together with a late value. -/
def itemSplicePlace (now : ℤ) (item : Item V) (tail : Chunk V) (rest : List (Chunk V))
    (value : Record V) : Cursor V :=
  match itemGetLastValue now item value.sec with
  | none => ⟨rest, tail, [], tail.firstValue⟩
  | some cur =>
    spliceBack value.timestamp cur.newer cur.chunk cur.older cur.index cur.index

/-- `vch_item_add_values_at_end`. -/
def itemAddValuesAtEnd (p : Platform V) (reused : Bool) (now : ℤ) (item : Item V)
    (values : List (Record V)) : Item V :=
  match item.chunks, item.chunks.getLast?, values with
  | tail :: rest, some head, value :: _ =>
    if 0 < recordCompareAsc (head.slots head.lastValue) value then
      let first := tail.slots tail.firstValue
      let skipped := values.takeWhile fun v => 0 < recordCompareAsc first v
      let item := itemSkipValues now item skipped
      match values.drop skipped.length with
      | [] => item
      | v :: vs =>
        let cur := itemSplicePlace now item tail rest value
        itemAppendMark p (cur.newer.isEmpty && decide (cur.chunk.firstValue ≤ cur.index - 1))
          reused (itemRemoveValuesFrom item cur)
          (p.sortAsc (v :: vs ++ itemGetValuesFrom cur))
    else itemAppendMark p true reused item values
  | _, _, _ => itemAppendMark p true reused item values

/-! ### Clean-up -/

/-- Moves the first value of a chunk past the values of a second, for at most the given
number of rounds. -/
def trimLoop (slots : ℤ → Record V) (sec : ℤ) : ℕ → ℕ → ℕ
  | 0, firstValue => firstValue
  | rounds + 1, firstValue =>
    if (slots firstValue).sec = sec then trimLoop slots sec rounds (firstValue + 1)
    else firstValue

/-- Trims the chunk after a removed one: values of one second go together. -/
def trimChunk (sec : ℤ) (next : Chunk V) : Chunk V :=
  if (next.slots next.firstValue).sec ≠ (next.slots next.lastValue).sec then
    { next with
      firstValue := trimLoop next.slots sec (next.lastValue - next.firstValue).toNat
        next.firstValue }
  else next

/-- Removes chunks from the tail while all their values are before `timestamp`; returns
the chunks left and the total of their values. -/
def cleanChunks (timestamp : ℤ) : Chunk V → List (Chunk V) → ℤ → List (Chunk V) × ℤ
  | chunk, [], total =>
    if (chunk.slots chunk.lastValue).sec < timestamp then ([], total - chunk.valuesNum)
    else ([chunk], total)
  | chunk, next :: rest, total =>
    if (chunk.slots chunk.lastValue).sec < timestamp then
      let trimmed := trimChunk (chunk.slots chunk.lastValue).sec next
      cleanChunks timestamp trimmed rest
        (total - (trimmed.firstValue - next.firstValue) - chunk.valuesNum)
    else (chunk :: next :: rest, total)

/-- `vch_item_clean_cache`: removes values that are outside the maximum request range. -/
def itemCleanCache (now : ℤ) (item : Item V) : Item V :=
  if item.range ≠ 0 then
    match item.chunks with
    | [] => item
    | tail :: rest =>
      let cleaned := cleanChunks (now - item.range - secPerMin) tail rest item.valuesTotal
      { item with
        chunks := cleaned.1
        valuesTotal := cleaned.2
        cachedAll := item.cachedAll && decide (cleaned.1.length = item.chunks.length) }
  else item

/-- `vc_item_addref`. -/
def itemAddref (item : Item V) : Item V :=
  { item with refcount := item.refcount + 1 }

/-- `vc_item_release`: runs the pending operations when no reference is left; `none` is an
item removed from the cache. -/
def itemRelease (now : ℤ) (item : Item V) : Option (Item V) :=
  let item := { item with refcount := item.refcount - 1 }
  if item.refcount = 0 then
    if item.removePending then none
    else
      let item := if item.cleanPending then itemCleanCache now item else item
      some { item with cleanPending := false, removePending := false }
  else some item

/-- A new item: all fields after the first two are zero. -/
def itemNew (itemid : UInt64) (valueType : UInt8) : Item V where
  itemid := itemid
  valueType := valueType
  cleanPending := false
  removePending := false
  cachedAll := false
  valuesTotal := 0
  lastAccessed := 0
  refcount := 0
  hits := 0
  range := 0
  chunks := []

/-- `vc_item_change_value_type`: everything but the item id is reset, the reference
counter with it. -/
def itemChangeValueType (item : Item V) (valueType : UInt8) : Item V :=
  itemNew item.itemid valueType

end ValueCache
