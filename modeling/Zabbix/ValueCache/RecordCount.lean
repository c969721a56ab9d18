import Zabbix.ValueCache.Answers
import Zabbix.ValueCache.CacheOperations
import Zabbix.ValueCache.Splice

/-!
# The records of an item

The total of an item is the number of the records in its chunks. The order of the records
plays no role, and a copy that failed may have left a chunk without records, so what is known
of a chunk here is only that its indices lie within its slots. The functions that work on
one item keep the count, and the records they drop are those they free.
-/

namespace ValueCache

variable {V : Type*}

/-- The used slots of a chunk lie within its slots; there may be none. -/
structure Chunk.Bounded (c : Chunk V) : Prop where
  first_le : (c.firstValue : ℤ) ≤ c.lastValue + 1
  within : c.lastValue < c.slotsNum

/-- All chunks are bounded, and only the tail chunk may have free slots on its left side. -/
structure ChunksBounded (chunks : List (Chunk V)) : Prop where
  bounded : ∀ c ∈ chunks, c.Bounded
  leftmost : ∀ c ∈ chunks.tail, c.firstValue = 0

/-- The total of the item is the number of its records. -/
structure Item.Counted (item : Item V) : Prop where
  chunks : ChunksBounded item.chunks
  total : item.valuesTotal = item.values.length

variable {item item' : Item V} {chunks front newer older : List (Chunk V)} {c : Chunk V}

/-! ### Chunks -/

theorem Chunk.Bounded.length (h : c.Bounded) :
  (c.values.length : ℤ) = c.valuesNum
  := by
  have := h.first_le
  rw [Chunk.values, Slice.length_slice, Chunk.valuesNum]
  omega

theorem ChunksBounded.length (h : ∀ c ∈ chunks, c.Bounded) :
  ((chunkValues chunks).length : ℤ) = (chunks.map Chunk.valuesNum).sum
  := by
  induction chunks with
  | nil => rfl
  | cons c chunks ih =>
    have hc := (h c List.mem_cons_self).length
    have hrest := ih fun d hd => h d (List.mem_cons_of_mem _ hd)
    rw [chunkValues_cons, List.length_append, List.map_cons, List.sum_cons]
    push_cast
    omega

theorem ChunksBounded.nil :
  ChunksBounded ([] : List (Chunk V))
  where
  bounded := by simp
  leftmost := by simp

/-- The chunks before a chunk, with another chunk in its place that starts where it does. -/
theorem ChunksBounded.replaceLast (h : ChunksBounded (front ++ c :: newer)) {d : Chunk V}
    (hd : d.Bounded) (hfirst : d.firstValue = c.firstValue) :
  ChunksBounded (front ++ [d])
  where
  bounded := by
    intro b hb
    obtain hb | hb := List.mem_append.mp hb
    · exact h.bounded b (List.mem_append_left _ hb)
    · rw [List.mem_singleton.mp hb]
      exact hd
  leftmost := by
    intro b hb
    have hleft := h.leftmost
    cases front with
    | nil => simp at hb
    | cons a front =>
      simp only [List.cons_append, List.tail_cons, List.mem_append, List.mem_cons,
        List.not_mem_nil, or_false] at hb hleft
      obtain hb | rfl := hb
      · exact hleft b (.inl hb)
      · rw [hfirst]
        exact hleft c (.inr (.inl rfl))

/-- The chunks before a chunk. -/
theorem ChunksBounded.of_append (h : ChunksBounded (front ++ newer)) :
  ChunksBounded front
  where
  bounded := fun b hb => h.bounded b (List.mem_append_left _ hb)
  leftmost := by
    intro b hb
    have hleft := h.leftmost
    cases front with
    | nil => simp at hb
    | cons a front => exact hleft b (List.mem_append_left _ hb)

/-- The chunks with another head chunk, which starts at the first slot. -/
theorem ChunksBounded.snoc (h : ChunksBounded chunks) (hc : c.Bounded)
    (hfirst : c.firstValue = 0) :
  ChunksBounded (chunks ++ [c])
  where
  bounded := by
    intro b hb
    obtain hb | hb := List.mem_append.mp hb
    · exact h.bounded b hb
    · rw [List.mem_singleton.mp hb]
      exact hc
  leftmost := by
    intro b hb
    have hleft := h.leftmost
    cases chunks with
    | nil => simp at hb
    | cons a chunks =>
      obtain hb | hb := List.mem_append.mp hb
      · exact hleft b hb
      · rw [List.mem_singleton.mp hb]
        exact hfirst

/-- The chunks with another chunk in front of those that start at their first slot. -/
theorem ChunksBounded.cons (hc : c.Bounded) (hbounded : ∀ d ∈ chunks, d.Bounded)
    (hleft : ∀ d ∈ chunks, d.firstValue = 0) :
  ChunksBounded (c :: chunks)
  where
  bounded := List.forall_mem_cons.mpr ⟨hc, hbounded⟩
  leftmost := hleft

/-! ### Items with the same records -/

/-- The item has the same records of the same type, and counts them in the same way. -/
structure Item.SameStore (item item' : Item V) : Prop where
  valueType : item'.valueType = item.valueType
  chunks : item'.chunks = item.chunks
  total : item'.valuesTotal = item.valuesTotal

theorem Item.SameStore.counted (h : item.SameStore item') (hcounted : item.Counted) :
  item'.Counted
  where
  chunks := by
    rw [h.chunks]
    exact hcounted.chunks
  total := by
    rw [h.total, Item.values, h.chunks]
    exact hcounted.total

theorem itemSkipValues_sameStore (now : ℤ) (item : Item V) (skipped : List (Record V)) :
  item.SameStore (itemSkipValues now item skipped)
  := by
  unfold itemSkipValues
  cases skipped.getLast? <;> exact ⟨rfl, rfl, rfl⟩

theorem itemGetValuesByTime_sameStore (now : ℤ) (item : Item V) (seconds timestamp : ℤ) :
  item.SameStore (itemGetValuesByTime now item seconds timestamp).1
  := by
  obtain ⟨range, heq, -⟩ := itemGetValuesByTime_item now item seconds timestamp
  rw [heq]
  exact ⟨rfl, rfl, rfl⟩

theorem itemGetValuesByCount_sameStore (now : ℤ) (item : Item V) (count : ℕ) (timestamp : ℤ) :
  item.SameStore (itemGetValuesByCount now item count timestamp).1
  := by
  obtain ⟨-, heq⟩ | ⟨range, heq, -⟩ := itemGetValuesByCount_item now item count timestamp
  · rw [heq]
    exact ⟨rfl, rfl, rfl⟩
  · rw [heq]
    exact ⟨rfl, rfl, rfl⟩

/-! ### Places of values -/

/-- The cursor points to a chunk of the list, at most to the slot behind the used ones. -/
structure Cursor.Within (cur : Cursor V) (chunks : List (Chunk V)) : Prop where
  chunks : chunks = cur.older.reverse ++ cur.chunk :: cur.newer
  le_last : cur.index ≤ cur.chunk.lastValue + 1

theorem chunkFindLoop_le {timestamp : ℤ} (rounds : ℕ) {start last k : ℤ} (hle : start ≤ last)
    (h : chunkFindLoop c timestamp rounds start last = some k) :
  k = -1 ∨ k ≤ last
  := by
  induction rounds generalizing start last with
  | zero => cases h
  | succ rounds ih =>
    rw [chunkFindLoop] at h
    dsimp only at h
    split at h
    · exact .inl (Option.some.inj h).symm
    · split at h
      · obtain hk | hk := ih (by omega) h
        · exact .inl hk
        · exact .inr (by omega)
      · split at h
        · exact ih (by omega) h
        · have hk := Option.some.inj h
          exact .inr (by omega)

theorem chunkFindLastValueBefore_le (hc : c.Bounded) (timestamp : ℤ) :
  chunkFindLastValueBefore c timestamp ≤ c.lastValue
  := by
  have hfirst := hc.first_le
  unfold chunkFindLastValueBefore
  split
  · exact le_rfl
  · split
    · omega
    · cases hloop : chunkFindLoop c timestamp (c.lastValue - c.firstValue + 1).toNat
          c.firstValue c.lastValue with
      | none =>
        rw [Option.getD_none]
        omega
      | some k =>
        rw [Option.getD_some]
        by_cases hempty : c.lastValue < c.firstValue
        · rw [show (c.lastValue - c.firstValue + 1).toNat = 0 by omega] at hloop
          cases hloop
        · obtain hk | hk := chunkFindLoop_le _ (not_lt.mp hempty) hloop <;> omega

theorem itemGetLastValue_within (now : ℤ) (h : ChunksBounded item.chunks) (timestamp : ℤ)
    {cur : Cursor V} (hcur : itemGetLastValue now item timestamp = some cur) :
  item.chunks = cur.older.reverse ++ cur.chunk :: cur.newer ∧ cur.index ≤ cur.chunk.lastValue
  := by
  unfold itemGetLastValue at hcur
  cases hreverse : item.chunks.reverse with
  | nil =>
    rw [hreverse] at hcur
    cases hcur
  | cons head older =>
    have hchunks : item.chunks = older.reverse ++ [head] := by
      rw [← List.reverse_cons, ← hreverse, List.reverse_reverse]
    rw [hreverse] at hcur
    dsimp only at hcur
    generalize (if timestamp = 0 then now else timestamp) = endTimestamp at hcur
    split at hcur
    · -- the chunk that the seek ends at
      have hseek := seekChunk_spec endTimestamp [] (head :: older)
      cases hs : seekChunk endTimestamp [] (head :: older) with
      | none =>
        rw [hs] at hcur
        cases hcur
      | some found =>
        obtain ⟨newer, chunk, older'⟩ := found
        rw [hs] at hcur hseek
        obtain rfl := Option.some.inj hcur
        obtain ⟨-, skipped, hsplit, rfl, -⟩ := hseek
        have hall : item.chunks = older'.reverse ++ chunk :: (skipped.reverse ++ []) := by
          have hreversed := congrArg List.reverse hreverse
          rw [List.reverse_reverse, hsplit] at hreversed
          simpa using hreversed
        exact ⟨hall, chunkFindLastValueBefore_le (h.bounded chunk (by rw [hall]; simp)) _⟩
    · obtain rfl := Option.some.inj hcur
      exact ⟨hchunks, le_rfl⟩

/-- The search for the place of a late value stays within the chunks. The place may be the
slot before a chunk, or the first slot of the chunk behind one. -/
theorem spliceBack_within {timestamp : Timespec} {chunk : Chunk V} {iindex index : ℤ}
    (h : ChunksBounded chunks) (hchunks : chunks = older.reverse ++ chunk :: newer)
    (hiindex : iindex ≤ chunk.lastValue) (hindex : index ≤ chunk.lastValue + 1) :
  (spliceBack timestamp newer chunk older iindex index).Within chunks
  := by
  fun_induction spliceBack timestamp newer chunk older iindex index with
  | case1 newer chunk iindex index =>
    exact ⟨hchunks, by dsimp only; omega⟩
  | case2 newer chunk iindex index hlate hlow prev rest ih =>
    have hprev := (h.bounded prev (by rw [hchunks]; simp)).first_le
    have hleft : chunk.firstValue = 0 := by
      apply h.leftmost
      rw [hchunks]
      cases hrest : (prev :: rest).reverse with
      | nil => simp at hrest
      | cons first others => simp
    apply ih
    · rw [hchunks]
      simp
    · exact le_rfl
    · omega
  | case3 newer chunk older iindex index hlate hhigh ih =>
    exact ih hchunks (by omega) (by omega)
  | case4 newer chunk older iindex index hearly =>
    exact ⟨hchunks, hindex⟩

theorem itemSplicePlace_within (now : ℤ) (h : ChunksBounded item.chunks) {tail : Chunk V}
    {rest : List (Chunk V)} (hchunks : item.chunks = tail :: rest) (value : Record V) :
  (itemSplicePlace now item tail rest value).Within item.chunks
  := by
  unfold itemSplicePlace
  cases hlast : itemGetLastValue now item value.sec with
  | none => exact ⟨hchunks, (h.bounded tail (by rw [hchunks]; simp)).first_le⟩
  | some cur =>
    obtain ⟨hsplit, hindex⟩ := itemGetLastValue_within now h value.sec hlast
    exact spliceBack_within h hsplit hindex (by omega)

/-! ### Storing a value -/

namespace Session

/-- While values are copied behind the used slots of the head chunk, there is room for `left`
more, and the total lags behind by the values copied since the head ended at `start`. -/
structure CopiesAtEnd (valueType : UInt8) (start : ℤ) (left : ℕ) (item : Item HistoryValue) :
    Prop where
  valueType : item.valueType = valueType
  chunks : ChunksBounded item.chunks
  room : ∃ head ∈ item.chunks.getLast?, head.lastValue + left < head.slotsNum
  total : item.valuesTotal + (headLastValue item - start) = item.values.length

/-- While values are copied before the used slots of the tail chunk, there is room for `left`
more, and the total lags behind by the values copied since the tail began at `start`. -/
structure CopiesAtBeginning (valueType : UInt8) (start : ℕ) (left : ℕ)
    (item : Item HistoryValue) : Prop where
  valueType : item.valueType = valueType
  chunks : ChunksBounded item.chunks
  room : ∃ tail ∈ item.chunks.head?, left ≤ tail.firstValue
  total : item.valuesTotal + ((start : ℤ) - tailFirstValue item) = item.values.length

variable {valueType : UInt8} {start : ℤ} {left : ℕ} {item : Item HistoryValue}

theorem storeAtEnd_chunks {front : List (Chunk HistoryValue)} {head : Chunk HistoryValue}
    (h : item.chunks = front ++ [head]) (value : Record HistoryValue) :
  (storeAtEnd item value).chunks = front ++ [head.append [value]]
  := by
  rw [storeAtEnd, h, List.modifyLast_concat]
  rfl

theorem CopiesAtEnd.store (h : CopiesAtEnd valueType start (left + 1) item)
    (value : Record HistoryValue) :
  CopiesAtEnd valueType start left (storeAtEnd item value) ∧
    (storeAtEnd item value).values = item.values ++ [value]
  := by
  obtain ⟨head, hlast, hroom⟩ := h.room
  obtain ⟨front, hchunks⟩ := List.getLast?_eq_some_iff.mp hlast
  have hbounded := h.chunks
  rw [hchunks] at hbounded
  have hhead := hbounded.bounded head (by simp)
  have hfirst := hhead.first_le
  have hstored := storeAtEnd_chunks hchunks value
  have hvalues : (storeAtEnd item value).values = item.values ++ [value] := by
    rw [Item.values, Item.values, hstored, hchunks, chunkValues_append, chunkValues_append,
      chunkValues_cons, Chunk.values_append hfirst, chunkValues_cons]
    simp
  refine ⟨⟨h.valueType, ?_, ?_, ?_⟩, hvalues⟩
  · rw [hstored]
    have hfirst' : (head.append [value]).firstValue = head.firstValue := rfl
    refine hbounded.replaceLast ?_ hfirst'
    constructor
    · change (head.firstValue : ℤ) ≤ head.lastValue + 1 + 1
      omega
    · change head.lastValue + 1 < head.slotsNum
      push_cast at hroom
      omega
  · rw [hstored]
    refine ⟨head.append [value], by simp, ?_⟩
    change head.lastValue + 1 + left < head.slotsNum
    push_cast at hroom
    omega
  · have htotal := h.total
    rw [headLastValue, hlast] at htotal
    rw [headLastValue, hstored, hvalues, List.length_append]
    simp only [List.getLast?_append_of_ne_nil, ne_eq, List.cons_ne_self, not_false_eq_true,
      List.getLast?_singleton, List.length_singleton]
    change item.valuesTotal + (head.lastValue + 1 - start) = _
    push_cast
    dsimp only at htotal
    omega

/-- When the copies are counted, the item counts its records again. -/
theorem CopiesAtEnd.counted (h : CopiesAtEnd valueType start left item) :
  Item.Counted
    { item with valuesTotal := item.valuesTotal + (headLastValue item - start) }
  := ⟨h.chunks, h.total⟩

theorem copiesAtEnd_start (h : item.Counted) (hpos : 0 < left) (hroom : left ≤ headSlots item) :
  CopiesAtEnd item.valueType (headLastValue item) left item
  where
  valueType := rfl
  chunks := h.chunks
  room := by
    rw [headSlots] at hroom
    cases hlast : item.chunks.getLast? with
    | none =>
      rw [hlast] at hroom
      dsimp only at hroom
      omega
    | some head =>
      rw [hlast] at hroom
      dsimp only at hroom
      exact ⟨head, rfl, by omega⟩
  total := by
    rw [sub_self, add_zero]
    exact h.total

theorem storeAtBeginning_chunks {tail : Chunk HistoryValue} {rest : List (Chunk HistoryValue)}
    (h : item.chunks = tail :: rest) (value : Record HistoryValue) :
  (storeAtBeginning item value).chunks = tail.prepend [value] :: rest
  := by
  rw [storeAtBeginning, h]
  rfl

theorem CopiesAtBeginning.store {start : ℕ}
    (h : CopiesAtBeginning valueType start (left + 1) item) (value : Record HistoryValue) :
  CopiesAtBeginning valueType start left (storeAtBeginning item value) ∧
    (storeAtBeginning item value).values = value :: item.values
  := by
  obtain ⟨tail, hhead, hroom⟩ := h.room
  obtain ⟨rest, hchunks⟩ := List.head?_eq_some_iff.mp hhead
  have hbounded := h.chunks
  rw [hchunks] at hbounded
  have htail := hbounded.bounded tail List.mem_cons_self
  have hfirst := htail.first_le
  have hwithin := htail.within
  have hstored := storeAtBeginning_chunks hchunks value
  have hvalues : (storeAtBeginning item value).values = value :: item.values := by
    have hlength : [value].length ≤ tail.firstValue := by
      rw [List.length_singleton]
      omega
    rw [Item.values, Item.values, hstored, hchunks, chunkValues_cons,
      Chunk.values_prepend hlength hfirst, chunkValues_cons]
    rfl
  have hfirst' : (tail.prepend [value]).firstValue = tail.firstValue - 1 := rfl
  refine ⟨⟨h.valueType, ?_, ?_, ?_⟩, hvalues⟩
  · rw [hstored]
    have hrest : ∀ d ∈ rest, d.Bounded := fun d hd =>
      hbounded.bounded d (List.mem_cons_of_mem _ hd)
    refine .cons ⟨?_, hwithin⟩ hrest hbounded.leftmost
    rw [hfirst']
    change ((tail.firstValue - 1 : ℕ) : ℤ) ≤ tail.lastValue + 1
    omega
  · rw [hstored]
    refine ⟨tail.prepend [value], rfl, ?_⟩
    rw [hfirst']
    omega
  · have htotal := h.total
    rw [tailFirstValue, hchunks] at htotal
    rw [tailFirstValue, hstored, hvalues, List.length_cons]
    dsimp only at htotal ⊢
    rw [hfirst']
    change item.valuesTotal + _ = _
    push_cast
    omega

theorem CopiesAtBeginning.counted {start : ℕ}
    (h : CopiesAtBeginning valueType start left item) :
  Item.Counted
    { item with valuesTotal := item.valuesTotal + ((start : ℤ) - tailFirstValue item) }
  := ⟨h.chunks, h.total⟩

theorem copiesAtBeginning_start (h : item.Counted) (hpos : 0 < left)
    (hroom : left ≤ tailFirstValue item) :
  CopiesAtBeginning item.valueType (tailFirstValue item) left item
  where
  valueType := rfl
  chunks := h.chunks
  room := by
    rw [tailFirstValue] at hroom
    cases hchunks : item.chunks with
    | nil =>
      rw [hchunks] at hroom
      dsimp only at hroom
      omega
    | cons tail rest =>
      rw [hchunks] at hroom
      exact ⟨tail, rfl, hroom⟩
  total := by
    rw [sub_self, add_zero]
    exact h.total

/-! ### New chunks -/

variable (p : Platform HistoryValue) (nslots : ℕ)

theorem linkHead_chunks (item : Item HistoryValue) :
  (linkHead p nslots item).chunks =
    item.chunks ++ [⟨p.uninit item.chunks.length, 0, -1, nslots⟩]
  := List.modifyLast_concat _ _ _

theorem linkTail_chunks (item : Item HistoryValue) :
  (linkTail p nslots item).chunks =
    ⟨p.uninit item.chunks.length, nslots, (nslots : ℤ) - 1, nslots⟩ :: item.chunks
  := by
  unfold linkTail ValueCache.itemAddChunk
  cases item.chunks <;> rfl

/-- A chunk without values. -/
theorem values_fresh (slots : ℤ → Record HistoryValue) (firstValue slotsNum : ℕ) :
  (⟨slots, firstValue, (firstValue : ℤ) - 1, slotsNum⟩ : Chunk HistoryValue).values = []
  := by
  apply Slice.slice_of_le
  dsimp only
  omega

/-- A new head chunk adds no records and has all its slots free. -/
theorem linkHead_spec (h : item.Counted) :
  (linkHead p nslots item).Counted ∧ (linkHead p nslots item).values = item.values ∧
    headSlots (linkHead p nslots item) = nslots
  := by
  have hchunks := linkHead_chunks p nslots item
  have hvalues : (linkHead p nslots item).values = item.values := by
    rw [Item.values, hchunks, chunkValues_append, chunkValues_cons]
    have hfresh := values_fresh (p.uninit item.chunks.length) 0 nslots
    rw [show ((0 : ℕ) : ℤ) - 1 = -1 by rfl] at hfresh
    rw [hfresh]
    simp [Item.values]
  refine ⟨⟨?_, ?_⟩, hvalues, ?_⟩
  · rw [hchunks]
    refine h.chunks.snoc ⟨?_, ?_⟩ rfl
    · change ((0 : ℕ) : ℤ) ≤ -1 + 1
      omega
    · change (-1 : ℤ) < nslots
      omega
  · rw [hvalues]
    exact h.total
  · rw [headSlots, hchunks]
    simp

/-- A new tail chunk adds no records and has all its slots free. -/
theorem linkTail_spec (h : item.Counted) (hleft : tailFirstValue item = 0) :
  (linkTail p nslots item).Counted ∧ (linkTail p nslots item).values = item.values ∧
    tailFirstValue (linkTail p nslots item) = nslots
  := by
  have hchunks := linkTail_chunks p nslots item
  have hvalues : (linkTail p nslots item).values = item.values := by
    rw [Item.values, hchunks, chunkValues_cons, values_fresh]
    rfl
  refine ⟨⟨?_, ?_⟩, hvalues, ?_⟩
  · rw [hchunks]
    refine .cons ⟨?_, ?_⟩ h.chunks.bounded ?_
    · dsimp only
      omega
    · dsimp only
      omega
    · intro d hd
      have hleftmost := h.chunks.leftmost
      cases hlist : item.chunks with
      | nil =>
        rw [hlist] at hd
        cases hd
      | cons tail rest =>
        rw [tailFirstValue, hlist] at hleft
        rw [hlist] at hd hleftmost
        obtain rfl | hd := List.mem_cons.mp hd
        · exact hleft
        · exact hleftmost d hd
  · rw [hvalues]
    exact h.total
  · rw [tailFirstValue, hchunks]

/-! ### Dropping values -/

/-- What an item loses by the removal of the values from a place on are the values freed. -/
theorem itemRemoveValuesFrom_counted (h : item.Counted) {cur : Cursor HistoryValue}
    (hcur : cur.Within item.chunks) :
  (ValueCache.itemRemoveValuesFrom item cur).Counted ∧
    item.values = (ValueCache.itemRemoveValuesFrom item cur).values ++ removedValues cur
  := by
  have hindex := hcur.le_last
  have hbounded := h.chunks
  have htotal := h.total
  rw [Item.values, hcur.chunks] at htotal
  rw [hcur.chunks] at hbounded
  have hchunk := hbounded.bounded cur.chunk (by simp)
  have hfirst := hchunk.first_le
  have hnewer : ((chunkValues cur.newer).length : ℤ) = (cur.newer.map Chunk.valuesNum).sum :=
    ChunksBounded.length fun c hc => hbounded.bounded c (by simp [hc])
  have hlength := hchunk.length
  rw [chunkValues_append, chunkValues_cons, List.length_append, List.length_append] at htotal
  push_cast at htotal
  rw [Item.values, hcur.chunks, chunkValues_append, chunkValues_cons]
  unfold ValueCache.itemRemoveValuesFrom removedValues
  dsimp only
  by_cases hdrop : cur.index - 1 < cur.chunk.firstValue
  · simp only [if_pos hdrop]
    cases holder : cur.older with
    | nil => exact ⟨⟨.nil, rfl⟩, rfl⟩
    | cons prev rest =>
      rw [holder] at hbounded htotal
      refine ⟨⟨hbounded.of_append, ?_⟩, rfl⟩
      rw [Item.values]
      dsimp only
      omega
  · simp only [if_neg hdrop]
    have hsplit := Slice.slice_append (a := cur.chunk.slots)
      (by omega : (cur.chunk.firstValue : ℤ) ≤ cur.index) hindex
    have hkept : chunkValues (cur.older.reverse ++ [{ cur.chunk with lastValue := cur.index - 1 }])
        = chunkValues cur.older.reverse ++ slice cur.chunk.slots cur.chunk.firstValue cur.index := by
      rw [chunkValues_append, chunkValues_cons, Chunk.values]
      simp
    refine ⟨⟨hbounded.replaceLast ⟨?_, ?_⟩ rfl, ?_⟩, ?_⟩
    · dsimp only
      omega
    · have hwithin := hchunk.within
      dsimp only
      omega
    · rw [Item.values, hkept, List.length_append, Slice.length_slice]
      rw [Chunk.valuesNum] at hlength
      push_cast
      omega
    · rw [Item.values, hkept, Chunk.values, ← hsplit]
      simp only [List.append_assoc]

/-- A chunk is trimmed by moving its first value. -/
theorem trimChunk_eq (sec : ℤ) {next : Chunk HistoryValue} (h : next.Bounded) :
  ∃ k : ℕ, trimChunk sec next = { next with firstValue := k } ∧ next.firstValue ≤ k ∧
    (k : ℤ) ≤ next.lastValue + 1
  := by
  have hfirst := h.first_le
  unfold trimChunk
  split
  · obtain ⟨hle, hup, -, -⟩ := trimLoop_spec next.slots sec
      (next.lastValue - next.firstValue).toNat next.firstValue
    exact ⟨_, rfl, hle, by omega⟩
  · exact ⟨next.firstValue, rfl, le_rfl, hfirst⟩

/-- What a clean-up drops is what it frees. -/
theorem cleanChunks_counted (timestamp : ℤ) {chunk : Chunk HistoryValue}
    {rest : List (Chunk HistoryValue)} (total : ℤ) (h : ChunksBounded (chunk :: rest)) :
  ChunksBounded (cleanChunks timestamp chunk rest total).1 ∧
    (chunkValues (chunk :: rest)).Perm (cleanedFrom timestamp chunk rest ++
      chunkValues (cleanChunks timestamp chunk rest total).1) ∧
    (cleanChunks timestamp chunk rest total).2 =
      total - (cleanedFrom timestamp chunk rest).length
  := by
  have hlength := (h.bounded chunk List.mem_cons_self).length
  induction rest generalizing chunk total with
  | nil =>
    rw [cleanChunks, cleanedFrom]
    split
    · exact ⟨.nil, by simp, by rw [hlength]⟩
    · exact ⟨h, by simp, by simp⟩
  | cons next rest ih =>
    rw [cleanChunks, cleanedFrom]
    split
    · have hnext := h.bounded next (by simp)
      have hwithin := hnext.within
      obtain ⟨k, htrim, hle, hup⟩ := trimChunk_eq (chunk.slots chunk.lastValue).sec hnext
      dsimp only
      rw [htrim]
      have htrimmed : Chunk.Bounded { next with firstValue := k } := ⟨hup, hwithin⟩
      have hrest : ChunksBounded ({ next with firstValue := k } :: rest) :=
        .cons htrimmed (fun d hd => h.bounded d (by simp [hd]))
          fun d hd => h.leftmost d (by simp [hd])
      obtain ⟨hbounded, hperm, htotal⟩ := ih
        (total - (((k : ℕ) : ℤ) - next.firstValue) - chunk.valuesNum) hrest htrimmed.length
      refine ⟨hbounded, ?_, ?_⟩
      · have hsplit := Slice.slice_append (a := next.slots)
          (by omega : (next.firstValue : ℤ) ≤ k) hup
        rw [chunkValues_cons] at hperm
        rw [chunkValues_cons, chunkValues_cons, Chunk.values.eq_def next, ← hsplit]
        generalize hcut : slice next.slots next.firstValue k = cut
        have hkept : slice next.slots k (next.lastValue + 1) =
            Chunk.values { next with firstValue := k } := rfl
        rw [hkept]
        calc (chunk.values ++ ((cut ++ Chunk.values { next with firstValue := k })
                ++ chunkValues rest))
            = (chunk.values ++ cut) ++
                (Chunk.values { next with firstValue := k } ++ chunkValues rest) := by
              simp only [List.append_assoc]
          _ |>.Perm ((cut ++ chunk.values) ++ _) := List.perm_append_comm.append hperm
          _ = _ := by simp only [List.append_assoc]
      · rw [htotal, List.length_append, List.length_append, Slice.length_slice]
        push_cast
        omega
    · exact ⟨h, by simp, by simp⟩

theorem itemCleanCache_counted (now : ℤ) (h : item.Counted) :
  (ValueCache.itemCleanCache now item).Counted ∧
    (ValueCache.itemCleanCache now item).valueType = item.valueType ∧
    item.values.Perm
      ((ValueCache.itemCleanCache now item).values ++ cleanedValues now item)
  := by
  unfold ValueCache.itemCleanCache cleanedValues
  by_cases hrange : item.range ≠ 0
  · rw [if_pos hrange, if_pos hrange]
    cases hchunks : item.chunks with
    | nil => exact ⟨h, rfl, by simp⟩
    | cons tail rest =>
      have hbounded := h.chunks
      have hitem := h.total
      rw [Item.values, hchunks] at hitem
      rw [hchunks] at hbounded
      obtain ⟨hleft, hperm, htotal⟩ := cleanChunks_counted (now - item.range - secPerMin)
        item.valuesTotal hbounded
      refine ⟨⟨hleft, ?_⟩, rfl, ?_⟩
      · have hlength := hperm.length_eq
        rw [List.length_append] at hlength
        dsimp only
        rw [htotal, Item.values]
        dsimp only
        omega
      · rw [Item.values, hchunks]
        exact hperm.trans List.perm_append_comm
  · rw [if_neg hrange, if_neg hrange]
    exact ⟨h, rfl, by simp⟩

theorem itemNew_counted (itemid : UInt64) (valueType : UInt8) :
  (itemNew itemid valueType : Item HistoryValue).Counted
  := ⟨.nil, rfl⟩

end Session

end ValueCache
