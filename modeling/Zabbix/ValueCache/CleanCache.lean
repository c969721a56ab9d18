import Zabbix.ValueCache.ReleaseSafety
import Zabbix.ValueCache.Splice

/-!
# Cleaning the chunks in memory

`vch_item_clean_cache` as it works on the chunks in memory, which are linked in both
directions, and on the string pool. The list of an item is related to the memory by
`Linked`, and the loop in memory does to this list what `cleanChunks` does. An access to
memory that holds no chunk, or a loop that does not end within the given rounds, gives no
result.
-/

namespace ValueCache

/-- `zbx_vc_chunk_t` with its links; `none` is `NULL`. -/
structure LinkedChunk where
  prev : Option ℕ
  next : Option ℕ
  chunk : Chunk HistoryValue

/-- The chunk with another first value. -/
def LinkedChunk.startAt (c : LinkedChunk) (firstValue : ℕ) : LinkedChunk :=
  { c with chunk := { c.chunk with firstValue } }

/-- The fields of an item that its clean-up reads and writes, the memory of the chunks and
the string pool. -/
structure LinkedItem where
  valueType : UInt8
  cachedAll : Bool
  valuesTotal : ℤ
  range : ℤ
  head : Option ℕ
  tail : Option ℕ
  memory : ℕ → Option LinkedChunk
  strpool : Table Bytes ℕ

namespace LinkedItem

/-- Writes a chunk. -/
def write (s : LinkedItem) (a : ℕ) (c : LinkedChunk) : LinkedItem :=
  { s with memory := Function.update s.memory a (some c) }

/-- `vc_item_free_values`. -/
def freeValues (sizes : Sizes) (s : LinkedItem) (slots : ℤ → Record HistoryValue)
    (first last : ℤ) : LinkedItem :=
  { s with
    strpool := (itemFreeValues sizes s.strpool s.valueType (slice slots first (last + 1))).1
    valuesTotal := s.valuesTotal - (last - first + 1) }

/-- `vch_item_free_chunk`. -/
def freeChunk (sizes : Sizes) (s : LinkedItem) (a : ℕ) (c : LinkedChunk) : LinkedItem :=
  let s := s.freeValues sizes c.chunk.slots c.chunk.firstValue c.chunk.lastValue
  { s with memory := Function.update s.memory a none }

/-- `chunk->prev = prev`, where `chunk` is not `NULL`. -/
def setPrev (s : LinkedItem) (chunk : Option ℕ) (prev : Option ℕ) : Option LinkedItem :=
  match chunk with
  | none => some s
  | some a => (s.memory a).map fun c => s.write a { c with prev }

/-- `chunk->next = next`, where `chunk` is not `NULL`. -/
def setNext (s : LinkedItem) (chunk : Option ℕ) (next : Option ℕ) : Option LinkedItem :=
  match chunk with
  | none => some s
  | some a => (s.memory a).map fun c => s.write a { c with next }

/-- `vch_item_remove_chunk`. -/
def removeChunk (sizes : Sizes) (s : LinkedItem) (a : ℕ) : Option LinkedItem := do
  let c ← s.memory a
  let s ← s.setPrev c.next c.prev
  let s ← s.setNext c.prev c.next
  let s := if some a = s.head then { s with head := c.prev } else s
  let s := if some a = s.tail then { s with tail := c.next } else s
  some (s.freeChunk sizes a c)

/-- The loop that frees the values of a second at the front of a chunk. -/
def drain (sizes : Sizes) (sec : ℤ) (a : ℕ) : (rounds : ℕ) → LinkedItem → Option LinkedItem
  | 0, _ => none
  | rounds + 1, s => do
    let c ← s.memory a
    if (c.chunk.slots c.chunk.firstValue).sec = sec then
      let s := s.freeValues sizes c.chunk.slots c.chunk.firstValue c.chunk.firstValue
      drain sizes sec a rounds
        (s.write a (c.startAt (c.chunk.firstValue + 1)))
    else some s

/-- Frees the values of a second at the front of the next chunk, unless that chunk is of one
second. -/
def drainNext (sizes : Sizes) (sec : ℤ) (rounds : ℕ) (s : LinkedItem) :
    (next : Option ℕ) → Option LinkedItem
  | none => some s
  | some b => do
    let d ← s.memory b
    if (d.chunk.slots d.chunk.firstValue).sec ≠ (d.chunk.slots d.chunk.lastValue).sec then
      drain sizes sec b rounds s
    else some s

/-- The loop of `vch_item_clean_cache`, from a chunk on. -/
def cleanFrom (sizes : Sizes) (timestamp : ℤ) :
    (rounds : ℕ) → LinkedItem → Option ℕ → Option LinkedItem
  | 0, _, _ => none
  | _ + 1, s, none => some s
  | rounds + 1, s, some a => do
    let c ← s.memory a
    let last := (c.chunk.slots c.chunk.lastValue).sec
    if last < timestamp then
      let s ← s.drainNext sizes last rounds c.next
      let s ← s.removeChunk sizes a
      cleanFrom sizes timestamp rounds s c.next
    else some s

/-- `vch_item_clean_cache`. -/
def cleanCache (sizes : Sizes) (now : ℤ) (rounds : ℕ) (s : LinkedItem) : Option LinkedItem :=
  if s.range ≠ 0 then do
    let s' ← cleanFrom sizes (now - s.range - secPerMin) rounds s s.tail
    some (if s.tail ≠ s'.tail then { s' with cachedAll := false } else s')
  else some s

/-! ### Lists of chunks in memory -/

/-- The chunks of the list in memory, behind the chunk `prev`. -/
def Segment (memory : ℕ → Option LinkedChunk) :
    (prev : Option ℕ) → List (ℕ × Chunk HistoryValue) → Prop
  | _, [] => True
  | prev, (a, c) :: nodes =>
    memory a = some ⟨prev, nodes.head?.map (·.1), c⟩ ∧ Segment memory (some a) nodes

/-- The head, the tail and the links are those of the list. -/
structure Linked (s : LinkedItem) (nodes : List (ℕ × Chunk HistoryValue)) : Prop where
  segment : Segment s.memory none nodes
  nodup : (nodes.map (·.1)).Nodup
  tail : s.tail = nodes.head?.map (·.1)
  head : s.head = nodes.getLast?.map (·.1)

theorem Segment.congr {memory memory' : ℕ → Option LinkedChunk} {prev : Option ℕ}
    {nodes : List (ℕ × Chunk HistoryValue)} (h : Segment memory prev nodes)
    (hmemory : ∀ a ∈ nodes.map (·.1), memory' a = memory a) :
  Segment memory' prev nodes
  := by
  induction nodes generalizing prev with
  | nil => trivial
  | cons node nodes ih =>
    obtain ⟨a, c⟩ := node
    obtain ⟨ha, hnodes⟩ := h
    rw [List.map_cons, List.forall_mem_cons] at hmemory
    exact ⟨hmemory.1.trans ha, ih hnodes hmemory.2⟩

/-- A write to another address. -/
theorem Segment.update {memory : ℕ → Option LinkedChunk} {prev : Option ℕ}
    {nodes : List (ℕ × Chunk HistoryValue)} (h : Segment memory prev nodes) {a : ℕ}
    (ha : a ∉ nodes.map (·.1)) (c : Option LinkedChunk) :
  Segment (Function.update memory a c) prev nodes
  := by
  apply h.congr
  intro b hb
  obtain hne : b ≠ a := fun hba => ha (hba ▸ hb)
  exact Function.update_of_ne hne ..

/-! ### The resources of the values -/

/-- The strings of some values. -/
def stringsOf (valueType : UInt8) (values : List (Record HistoryValue)) : List Bytes :=
  values.flatMap fun r => valueStrings valueType r.value

/-- The total counts the values, and the pool counts their strings and those that are held
elsewhere. -/
structure Holding (s : LinkedItem) (values : List (Record HistoryValue)) (held : Bytes → ℕ) :
    Prop where
  total : s.valuesTotal = values.length
  count : ∀ t, poolCount s.strpool t = (stringsOf s.valueType values).count t + held t
  positive : ∀ t, s.strpool.search t ≠ some 0

variable (sizes : Sizes) {s : LinkedItem} {held : Bytes → ℕ}

/-- Freeing values leaves the resources of the others. -/
theorem Holding.freeValues {values others : List (Record HistoryValue)}
    (h : s.Holding values held) {slots : ℤ → Record HistoryValue} {first last : ℤ}
    (hfirst : first ≤ last + 1)
    (hperm : values.Perm (slice slots first (last + 1) ++ others)) :
  (s.freeValues sizes slots first last).Holding others held
  := by
  obtain ⟨htotal, hcount, hpositive⟩ := h
  have hlength := hperm.length_eq
  rw [List.length_append, Slice.length_slice] at hlength
  refine ⟨?_, fun t => ?_, ?_⟩
  · change s.valuesTotal - (last - first + 1) = others.length
    omega
  · have hstrings := (hperm.flatMap_right fun r => valueStrings s.valueType r.value).count_eq t
    rw [List.flatMap_append, List.count_append] at hstrings
    have ht := hcount t
    rw [stringsOf, hstrings] at ht
    simp only [LinkedItem.freeValues, itemFreeValues_pool, poolCount_unreference, stringsOf]
    omega
  · simp only [LinkedItem.freeValues, itemFreeValues_pool]
    exact positive_unreference hpositive _

theorem Holding.perm {values values' : List (Record HistoryValue)} (h : s.Holding values held)
    (hperm : values.Perm values') :
  s.Holding values' held
  where
  total := by rw [h.total, hperm.length_eq]
  count := by
    intro t
    rw [h.count t, stringsOf, stringsOf, (hperm.flatMap_right _).count_eq t]
  positive := h.positive

/-- The fields of the item that cleaning its chunks leaves alone. -/
structure SameItem (s s' : LinkedItem) : Prop where
  valueType : s'.valueType = s.valueType
  cachedAll : s'.cachedAll = s.cachedAll
  range : s'.range = s.range

theorem SameItem.trans {s s' s'' : LinkedItem} (h : SameItem s s') (h' : SameItem s' s'') :
  SameItem s s''
  := ⟨h'.valueType.trans h.valueType, h'.cachedAll.trans h.cachedAll, h'.range.trans h.range⟩

/-- The chunk at an address is another one, and the links of the item are the same. -/
structure Replaces (s s' : LinkedItem) (a : ℕ) (c : LinkedChunk) : Prop where
  memory : s'.memory = Function.update s.memory a (some c)
  head : s'.head = s.head
  tail : s'.tail = s.tail
  same : SameItem s s'

theorem Holding.write {values : List (Record HistoryValue)} (h : s.Holding values held) (a : ℕ)
    (c : LinkedChunk) :
  (s.write a c).Holding values held
  := ⟨h.total, h.count, h.positive⟩

/-- The drain loop trims the chunk. -/
theorem drain_spec {sec : ℤ} {a : ℕ} {others : List (Record HistoryValue)} (n : ℕ)
    {s : LinkedItem} {c : LinkedChunk} (hmemory : s.memory a = some c)
    (hn : c.chunk.lastValue = c.chunk.firstValue + n)
    (hlast : (c.chunk.slots c.chunk.lastValue).sec ≠ sec)
    (hholding : s.Holding (c.chunk.values ++ others) held) {rounds : ℕ} (hrounds : n < rounds) :
  ∃ s', drain sizes sec a rounds s = some s' ∧
    Replaces s s' a (c.startAt (trimLoop c.chunk.slots sec n c.chunk.firstValue)) ∧
    s'.Holding ((c.startAt (trimLoop c.chunk.slots sec n c.chunk.firstValue)).chunk.values
      ++ others) held
  := by
  induction n generalizing rounds s c with
  | zero =>
    obtain ⟨rounds, rfl⟩ := Nat.exists_eq_add_of_lt hrounds
    have hsec : (c.chunk.slots c.chunk.firstValue).sec ≠ sec := by simpa [hn] using hlast
    refine ⟨s, ?_, ⟨?_, rfl, rfl, rfl, rfl, rfl⟩, hholding⟩
    · rw [drain, hmemory]
      simp [hsec]
    · rw [trimLoop, LinkedChunk.startAt, ← hmemory, Function.update_eq_self]
  | succ n ih =>
    obtain ⟨rounds, rfl⟩ : ∃ m, rounds = m + 1 := ⟨rounds - 1, by omega⟩
    rw [drain, hmemory, trimLoop]
    simp only [Option.bind_eq_bind, Option.bind_some]
    by_cases hsec : (c.chunk.slots c.chunk.firstValue).sec = sec
    · have hvalues : c.chunk.values ++ others =
          slice c.chunk.slots c.chunk.firstValue (c.chunk.firstValue + 1)
            ++ ((c.startAt (c.chunk.firstValue + 1)).chunk.values ++ others) := by
        rw [← List.append_assoc]
        congr 1
        exact (Slice.slice_append (by omega) (by omega)).symm
      have hfreed := hholding.freeValues sizes (by omega) (.of_eq hvalues)
      obtain ⟨s', hdrain, hreplaces, hholding'⟩ := ih
        (s := (s.freeValues sizes c.chunk.slots c.chunk.firstValue c.chunk.firstValue).write a
          (c.startAt (c.chunk.firstValue + 1)))
        (Function.update_self ..) (by simp [LinkedChunk.startAt, hn]; omega) hlast
        (hfreed.write a _)
        (Nat.lt_of_succ_lt_succ hrounds)
      rw [if_pos hsec, if_pos hsec]
      obtain ⟨hmemory', hhead, htail, hvalueType, hcachedAll, hrange⟩ := hreplaces
      refine ⟨s', hdrain, ⟨?_, hhead, htail, hvalueType, hcachedAll, hrange⟩, hholding'⟩
      rw [hmemory']
      exact Function.update_idem ..
    · rw [if_neg hsec, if_neg hsec]
      refine ⟨s, rfl, ⟨?_, rfl, rfl, rfl, rfl, rfl⟩, hholding⟩
      rw [LinkedChunk.startAt, ← hmemory, Function.update_eq_self]

/-! ### The loop over the chunks -/

/-- The values of the chunks of a list. -/
def nodeValues (nodes : List (ℕ × Chunk HistoryValue)) : List (Record HistoryValue) :=
  chunkValues (nodes.map (·.2))

/-- The list is cut to a part at its end, and the chunks before are freed. -/
structure Cleans (s s' : LinkedItem) (nodes nodes' : List (ℕ × Chunk HistoryValue))
    (held : Bytes → ℕ) : Prop where
  linked : s'.Linked nodes'
  holding : s'.Holding (nodeValues nodes') held
  suffix : nodes'.map (·.1) <:+ nodes.map (·.1)
  freed : ∀ a ∈ nodes.map (·.1), a ∉ nodes'.map (·.1) → s'.memory a = none
  others : ∀ a ∉ nodes.map (·.1), s'.memory a = s.memory a
  same : SameItem s s'

theorem Cleans.refl {nodes : List (ℕ × Chunk HistoryValue)} (hlinked : s.Linked nodes)
    (hholding : s.Holding (nodeValues nodes) held) :
  Cleans s s nodes nodes held
  where
  linked := hlinked
  holding := hholding
  suffix := List.suffix_refl _
  freed := fun _ ha hna => absurd ha hna
  others := fun _ _ => rfl
  same := ⟨rfl, rfl, rfl⟩

theorem Cleans.trans {s s' s'' : LinkedItem} {nodes nodes' nodes'' : List (ℕ × Chunk HistoryValue)}
    (h : Cleans s s' nodes nodes' held) (h' : Cleans s' s'' nodes' nodes'' held) :
  Cleans s s'' nodes nodes'' held
  where
  linked := h'.linked
  holding := h'.holding
  suffix := h'.suffix.trans h.suffix
  freed := by
    intro a ha hna
    by_cases ha' : a ∈ nodes'.map (·.1)
    · exact h'.freed a ha' hna
    · rw [h'.others a ha', h.freed a ha ha']
  others := by
    intro a ha
    rw [h'.others a (fun ha' => ha (h.suffix.subset ha')), h.others a ha]
  same := h.same.trans h'.same

/-- Another chunk in the place of the second one. -/
theorem Linked.replace {s s' : LinkedItem} {a b : ℕ} {c d d' : Chunk HistoryValue}
    {nodes : List (ℕ × Chunk HistoryValue)} (h : s.Linked ((a, c) :: (b, d) :: nodes))
    (hreplaces : Replaces s s' b ⟨some a, nodes.head?.map (·.1), d'⟩) :
  s'.Linked ((a, c) :: (b, d') :: nodes)
  := by
  obtain ⟨⟨ha, hb, hnodes⟩, hnodup, htail, hhead⟩ := h
  have hkeys := hnodup
  rw [List.map_cons, List.map_cons, List.nodup_cons, List.nodup_cons, List.mem_cons,
    not_or] at hkeys
  refine ⟨⟨?_, ?_, ?_⟩, hnodup, ?_, ?_⟩
  · rw [hreplaces.memory, Function.update_of_ne hkeys.1.1]
    exact ha
  · rw [hreplaces.memory]
    exact Function.update_self ..
  · rw [hreplaces.memory]
    exact hnodes.update hkeys.2.1 _
  · rw [hreplaces.tail, htail]
    rfl
  · rw [hreplaces.head, hhead]
    cases nodes <;> simp

/-- Freeing a chunk leaves the resources of the values behind it. -/
theorem Holding.freeChunk {a : ℕ} {c : LinkedChunk} {others : List (Record HistoryValue)}
    (hwf : c.chunk.WellFormed) (h : s.Holding (c.chunk.values ++ others) held) :
  (s.freeChunk sizes a c).Holding others held
  := by
  have hfreed := h.freeValues sizes (by have := hwf.nonempty; omega) (.refl _)
  exact ⟨hfreed.total, hfreed.count, hfreed.positive⟩

/-- The only chunk of a list is removed. -/
theorem removeChunk_single {a : ℕ} {c : Chunk HistoryValue} (h : s.Linked [(a, c)])
    (hwf : c.WellFormed) (hholding : s.Holding (nodeValues [(a, c)]) held) :
  ∃ s', removeChunk sizes s a = some s' ∧ Cleans s s' [(a, c)] [] held
  := by
  obtain ⟨⟨ha, -⟩, -, htail, hhead⟩ := h
  have hmemory : s.memory a = some ⟨none, none, c⟩ := ha
  refine ⟨{ (s.freeChunk sizes a ⟨none, none, c⟩) with head := none, tail := none }, ?_, ?_⟩
  · have hhead' : s.head = some a := hhead
    have htail' : s.tail = some a := htail
    simp [removeChunk, hmemory, setPrev, setNext, hhead', htail', freeChunk, freeValues]
  · have hfreed := hholding.freeChunk sizes (a := a) (c := ⟨none, none, c⟩) hwf
    refine ⟨⟨trivial, List.nodup_nil, rfl, rfl⟩, ⟨hfreed.total, hfreed.count, hfreed.positive⟩,
      List.nil_suffix, ?_, ?_, rfl, rfl, rfl⟩
    · intro b hb _
      obtain rfl := List.mem_singleton.mp hb
      exact Function.update_self ..
    · intro b hb
      exact Function.update_of_ne (by simpa using hb) ..

/-- The first chunk of a longer list is removed. -/
theorem removeChunk_first {a b : ℕ} {c d : Chunk HistoryValue}
    {nodes : List (ℕ × Chunk HistoryValue)} (h : s.Linked ((a, c) :: (b, d) :: nodes))
    (hwf : c.WellFormed) (hholding : s.Holding (nodeValues ((a, c) :: (b, d) :: nodes)) held) :
  ∃ s', removeChunk sizes s a = some s' ∧
    Cleans s s' ((a, c) :: (b, d) :: nodes) ((b, d) :: nodes) held
  := by
  obtain ⟨⟨ha, hb, hnodes⟩, hnodup, htail, hhead⟩ := h
  have hmemory : s.memory a = some ⟨none, some b, c⟩ := ha
  rw [List.map_cons] at hnodup
  obtain ⟨hfresh, hnodup⟩ := List.nodup_cons.mp hnodup
  have hab : a ≠ b := fun hab => hfresh (hab ▸ List.mem_cons_self)
  have hhead' : some a ≠ s.head := by
    rw [hhead, List.getLast?_cons_cons]
    intro hlast
    apply hfresh
    rw [← List.getLast?_map] at hlast
    exact List.mem_of_getLast? hlast.symm
  let linked := s.write b ⟨none, nodes.head?.map (·.1), d⟩
  refine ⟨{ (linked.freeChunk sizes a ⟨none, some b, c⟩) with tail := some b }, ?_, ?_⟩
  · have htail' : s.tail = some a := htail
    simp [removeChunk, hmemory, setPrev, setNext, hb, linked, hhead', htail', freeChunk,
      freeValues, write]
  · have hfreed := (hholding.write b ⟨none, nodes.head?.map (·.1), d⟩).freeChunk sizes
      (a := a) (c := ⟨none, some b, c⟩) hwf
    have hsegment : Segment linked.memory none ((b, d) :: nodes) := by
      refine ⟨Function.update_self .., ?_⟩
      exact hnodes.update (List.nodup_cons.mp hnodup).1 _
    refine ⟨⟨hsegment.update hfresh none, hnodup, rfl, ?_⟩,
      ⟨hfreed.total, hfreed.count, hfreed.positive⟩, List.suffix_cons .., ?_, ?_, rfl, rfl, rfl⟩
    · exact hhead
    · intro x hx hnx
      obtain rfl | hx := List.mem_cons.mp hx
      · exact Function.update_self ..
      · exact absurd hx hnx
    · intro x hx
      simp only [List.map_cons, List.mem_cons, not_or] at hx
      exact (Function.update_of_ne hx.1 ..).trans (Function.update_of_ne hx.2.1 ..)

theorem removeChunk_spec {a : ℕ} {c : Chunk HistoryValue}
    {nodes : List (ℕ × Chunk HistoryValue)} (h : s.Linked ((a, c) :: nodes))
    (hwf : c.WellFormed) (hholding : s.Holding (nodeValues ((a, c) :: nodes)) held) :
  ∃ s', removeChunk sizes s a = some s' ∧ Cleans s s' ((a, c) :: nodes) nodes held
  := by
  cases nodes with
  | nil => exact removeChunk_single sizes h hwf hholding
  | cons node nodes => exact removeChunk_first sizes h hwf hholding

/-- The second chunk is trimmed, unless it is of one second. -/
theorem drainNext_spec {a b : ℕ} {c d : Chunk HistoryValue} {sec : ℤ}
    {nodes : List (ℕ × Chunk HistoryValue)} (h : s.Linked ((a, c) :: (b, d) :: nodes))
    (hwf : d.WellFormed) (hasc : Ascending d.values) (hsec : sec ≤ (d.slots d.firstValue).sec)
    (hholding : s.Holding (nodeValues ((a, c) :: (b, d) :: nodes)) held) {rounds : ℕ}
    (hrounds : d.values.length < rounds) :
  ∃ s', s.drainNext sizes sec rounds (some b) = some s' ∧
    Cleans s s' ((a, c) :: (b, d) :: nodes) ((a, c) :: (b, trimChunk sec d) :: nodes) held
  := by
  rw [trimChunk, drainNext, h.segment.2.1]
  simp only [Option.bind_eq_bind, Option.bind_some]
  by_cases hdiff : (d.slots d.firstValue).sec ≠ (d.slots d.lastValue).sec
  · rw [if_pos hdiff, if_pos hdiff]
    have hne := hwf.nonempty
    have hmono := sec_mono hasc le_rfl hne le_rfl
    have hlast : (d.slots d.lastValue).sec ≠ sec := by
      unfold Record.sec at *
      omega
    rw [Chunk.values, Slice.length_slice] at hrounds
    have hperm : (nodeValues ((a, c) :: (b, d) :: nodes)).Perm
        (d.values ++ (c.values ++ nodeValues nodes)) := List.perm_append_comm_assoc ..
    obtain ⟨s', hdrain, hreplaces, hholding'⟩ := drain_spec sizes
      (d.lastValue - d.firstValue).toNat (c := ⟨some a, nodes.head?.map (·.1), d⟩)
      h.segment.2.1 (by dsimp only; omega) hlast (hholding.perm hperm)
      (show (d.lastValue - d.firstValue).toNat < rounds by omega)
    refine ⟨s', hdrain, h.replace hreplaces, hholding'.perm (List.perm_append_comm_assoc ..),
      List.suffix_refl _, fun x hx hnx => absurd hx hnx, ?_, hreplaces.same⟩
    intro x hx
    simp only [List.map_cons, List.mem_cons, not_or] at hx
    rw [hreplaces.memory, Function.update_of_ne hx.2.1]
  · rw [if_neg hdiff, if_neg hdiff]
    exact ⟨s, rfl, Cleans.refl h hholding⟩

/-- A round at a chunk that does not end before the limit. -/
theorem cleanFrom_keep {timestamp : ℤ} {a : ℕ} {c : LinkedChunk} (hmemory : s.memory a = some c)
    (hlast : ¬ (c.chunk.slots c.chunk.lastValue).sec < timestamp) (rounds : ℕ) :
  cleanFrom sizes timestamp (rounds + 1) s (some a) = some s
  := by
  rw [cleanFrom, hmemory]
  simp [hlast]

/-- The loop in memory ends, and does to the list what `cleanChunks` does. -/
theorem cleanFrom_spec (timestamp : ℤ) {a : ℕ} {c : Chunk HistoryValue}
    {nodes : List (ℕ × Chunk HistoryValue)} {s : LinkedItem}
    (hlinked : s.Linked ((a, c) :: nodes)) (hwf : ChunksWellFormed (c :: nodes.map (·.2)))
    (hasc : Ascending (nodeValues ((a, c) :: nodes)))
    (hholding : s.Holding (nodeValues ((a, c) :: nodes)) held) {rounds : ℕ}
    (hrounds : (nodeValues nodes).length + nodes.length + 1 < rounds) (total : ℤ) :
  ∃ s' nodes', cleanFrom sizes timestamp rounds s (some a) = some s' ∧
    nodes'.map (·.2) = (cleanChunks timestamp c (nodes.map (·.2)) total).1 ∧
    Cleans s s' ((a, c) :: nodes) nodes' held
  := by
  obtain ⟨rounds, rfl⟩ : ∃ m, rounds = m + 1 := ⟨rounds - 1, by omega⟩
  have hmemory := hlinked.segment.1
  have hc := hwf c List.mem_cons_self
  induction nodes generalizing a c s rounds total with
  | nil =>
    rw [List.map_nil, cleanChunks]
    by_cases hlast : (c.slots c.lastValue).sec < timestamp
    · rw [if_pos hlast]
      obtain ⟨s', hremove, hcleans⟩ := removeChunk_spec sizes hlinked hc hholding
      refine ⟨s', [], ?_, rfl, hcleans⟩
      obtain ⟨rounds, rfl⟩ : ∃ m, rounds = m + 1 := ⟨rounds - 1, by omega⟩
      rw [cleanFrom, hmemory]
      simp [hlast, hremove, cleanFrom, drainNext]
    · rw [if_neg hlast]
      exact ⟨s, _, cleanFrom_keep sizes hmemory hlast rounds, rfl, Cleans.refl hlinked hholding⟩
  | cons node nodes ih =>
    obtain ⟨b, d⟩ := node
    rw [List.map_cons] at hwf ⊢
    rw [cleanChunks]
    by_cases hlast : (c.slots c.lastValue).sec < timestamp
    · rw [if_pos hlast]
      have hd := hwf d (by simp)
      have htrims := trimChunk_trims hwf hasc
      rw [nodeValues, List.map_cons, chunkValues_cons, ascending_append] at hasc
      obtain ⟨-, hasc, hcross⟩ := hasc
      rw [List.map_cons, chunkValues_cons, ascending_append] at hasc
      have hsec : (c.slots c.lastValue).sec ≤ (d.slots d.firstValue).sec := by
        apply Timespec.sec_le
        apply hcross _ hc.mem_last
        exact List.mem_append_left _ hd.mem_first
      have hlength : (nodeValues ((b, d) :: nodes)).length
          = d.values.length + (nodeValues nodes).length := List.length_append
      have hdrains : d.values.length < rounds := by
        rw [List.length_cons] at hrounds
        omega
      obtain ⟨s₁, htrim, hcleans₁⟩ := drainNext_spec sizes hlinked hd hasc.1 hsec
        hholding hdrains
      obtain ⟨s₂, hremove, hcleans₂⟩ := removeChunk_spec sizes hcleans₁.linked hc
        hcleans₁.holding
      obtain ⟨rounds, rfl⟩ : ∃ m, rounds = m + 1 := ⟨rounds - 1, by omega⟩
      obtain ⟨s', nodes', hclean, hmap, hcleans⟩ := ih hcleans₂.linked htrims.wellFormed
        htrims.ascending hcleans₂.holding _ rounds (by rw [List.length_cons] at hrounds; omega)
        hcleans₂.linked.segment.1 (htrims.wellFormed _ List.mem_cons_self)
      refine ⟨s', nodes', ?_, hmap, (hcleans₁.trans hcleans₂).trans hcleans⟩
      rw [cleanFrom, hmemory]
      simp only [Option.bind_eq_bind, Option.bind_some, hlast, if_true, List.head?_cons,
        Option.map_some, htrim, hremove]
      exact hclean
    · rw [if_neg hlast]
      exact ⟨s, _, cleanFrom_keep sizes hmemory hlast rounds, rfl, Cleans.refl hlinked hholding⟩

/-! ### The whole clean-up -/

/-- The chunks are linked and in order, and the resources are those of their values and of
what is held elsewhere. -/
structure WellFormed (s : LinkedItem) (nodes : List (ℕ × Chunk HistoryValue))
    (held : Bytes → ℕ) : Prop where
  linked : s.Linked nodes
  chunks : ChunksWellFormed (nodes.map (·.2))
  ascending : Ascending (nodeValues nodes)
  holding : s.Holding (nodeValues nodes) held

/-- The tail moves exactly when chunks are removed. -/
theorem Cleans.tail_eq_iff {s s' : LinkedItem} {nodes nodes' : List (ℕ × Chunk HistoryValue)}
    (h : Cleans s s' nodes nodes' held) (hlinked : s.Linked nodes) :
  s.tail = s'.tail ↔ nodes'.length = nodes.length
  := by
  rw [hlinked.tail, h.linked.tail]
  have hsuffix := h.suffix
  have hnodup := hlinked.nodup
  constructor
  · intro htail
    cases nodes with
    | nil =>
      have hnil : nodes'.map (·.1) = [] := List.suffix_nil.mp hsuffix
      simpa using congrArg List.length hnil
    | cons node nodes =>
      rw [List.map_cons] at hsuffix hnodup
      obtain heq | hsuffix := List.suffix_cons_iff.mp hsuffix
      · simpa using congrArg List.length heq
      · have hmem : node.1 ∈ nodes'.map (·.1) := by
          cases nodes' with
          | nil => simp at htail
          | cons node' nodes' =>
            have hfirst : node.1 = node'.1 := by simpa using htail
            exact hfirst ▸ List.mem_cons_self
        exact absurd (hsuffix.subset hmem) (List.nodup_cons.mp hnodup).1
  · intro hlength
    have heq : nodes'.map (·.1) = nodes.map (·.1) :=
      hsuffix.eq_of_length (by rw [List.length_map, List.length_map, hlength])
    rw [← List.head?_map, ← List.head?_map, heq]

theorem cleanChunks_total (timestamp : ℤ) (chunk : Chunk HistoryValue)
    (rest : List (Chunk HistoryValue)) (total : ℤ) (hwf : ChunksWellFormed (chunk :: rest))
    (hasc : Ascending (chunkValues (chunk :: rest))) :
  (cleanChunks timestamp chunk rest total).2 = total - (chunkValues (chunk :: rest)).length
    + (chunkValues (cleanChunks timestamp chunk rest total).1).length
  := by
  have hlength : ∀ c : Chunk HistoryValue, c.WellFormed → (c.values.length : ℤ) = c.valuesNum := by
    intro c hc
    have hne := hc.nonempty
    rw [Chunk.values, Slice.length_slice, Chunk.valuesNum]
    omega
  have hchunk := hlength chunk (hwf chunk List.mem_cons_self)
  induction rest generalizing chunk total with
  | nil =>
    rw [cleanChunks]
    split <;> simp [hchunk]
  | cons next rest ih =>
    rw [cleanChunks]
    split
    · have htrims := trimChunk_trims hwf hasc
      have hnext := hlength next (hwf next (by simp))
      have htrimmed := hlength _ (htrims.wellFormed _ List.mem_cons_self)
      have hlastv := htrims.lastValue
      dsimp only
      rw [ih _ _ htrims.wellFormed htrims.ascending htrimmed]
      simp only [chunkValues_cons, List.length_append, Nat.cast_add, hchunk, hnext, htrimmed]
      simp only [Chunk.valuesNum, hlastv]
      omega
    · dsimp only
      omega

/-- The chunks that are left. -/
def cleanedChunks (now range total : ℤ) (chunks : List (Chunk HistoryValue)) :
    List (Chunk HistoryValue) :=
  match chunks with
  | [] => []
  | chunk :: rest =>
    if range ≠ 0 then (cleanChunks (now - range - secPerMin) chunk rest total).1
    else chunk :: rest

/-- The clean-up ends. It frees chunks at the tail and the values at the front of the next
one, and no longer says that the item is cached as a whole when chunks are gone. -/
theorem cleanCache_spec (sizes : Sizes) (now : ℤ) {nodes : List (ℕ × Chunk HistoryValue)}
    (h : s.WellFormed nodes held) (total : ℤ) {rounds : ℕ}
    (hrounds : (nodeValues nodes).length + nodes.length < rounds) :
  ∃ s₁ nodes', Cleans s s₁ nodes nodes' held ∧
    cleanCache sizes now rounds s = some { s₁ with
      cachedAll := s.cachedAll && decide (nodes'.length = nodes.length) } ∧
    nodes'.map (·.2) = cleanedChunks now s.range total (nodes.map (·.2))
  := by
  rw [cleanCache]
  by_cases hrange : s.range ≠ 0
  · have hloop : ∃ s₁ nodes',
        cleanFrom sizes (now - s.range - secPerMin) rounds s s.tail = some s₁ ∧
        nodes'.map (·.2) = cleanedChunks now s.range total (nodes.map (·.2)) ∧
        Cleans s s₁ nodes nodes' held := by
      rw [h.linked.tail]
      cases nodes with
      | nil =>
        obtain ⟨rounds, rfl⟩ := Nat.exists_eq_add_of_lt hrounds
        exact ⟨s, [], by simp [cleanFrom], rfl, Cleans.refl h.linked h.holding⟩
      | cons node nodes =>
        have hpos := (h.chunks node.2 List.mem_cons_self).mem_first
        have hlength : (nodeValues (node :: nodes)).length
            = node.2.values.length + (nodeValues nodes).length := List.length_append
        have hvalues := List.length_pos_of_mem hpos
        rw [List.map_cons, cleanedChunks, if_pos hrange]
        exact cleanFrom_spec sizes _ h.linked h.chunks h.ascending h.holding
          (by rw [List.length_cons] at hrounds; omega) total
    obtain ⟨s₁, nodes', hclean, hmap, hcleans⟩ := hloop
    refine ⟨s₁, nodes', hcleans, ?_, hmap⟩
    have htail := hcleans.tail_eq_iff h.linked
    rw [if_pos hrange, hclean]
    simp only [Option.bind_eq_bind, Option.bind_some, ← hcleans.same.cachedAll]
    by_cases hsame : s.tail = s₁.tail
    · rw [if_neg (not_not.mpr hsame), decide_eq_true (htail.mp hsame), Bool.and_true]
    · rw [if_pos hsame, decide_eq_false (mt htail.mpr hsame), Bool.and_false]
  · rw [if_neg hrange]
    refine ⟨s, nodes, Cleans.refl h.linked h.holding, by simp, ?_⟩
    cases nodes with
    | nil => rfl
    | cons node nodes => rw [List.map_cons, cleanedChunks, if_neg hrange]

/-- The item that is stored in memory. -/
structure Represents (s : LinkedItem) (item : Item HistoryValue)
    (nodes : List (ℕ × Chunk HistoryValue)) : Prop where
  chunks : item.chunks = nodes.map (·.2)
  valueType : item.valueType = s.valueType
  valuesTotal : item.valuesTotal = s.valuesTotal
  range : item.range = s.range
  cachedAll : item.cachedAll = s.cachedAll

theorem itemCleanCache_eq (now : ℤ) {item : Item HistoryValue}
    (hwf : ChunksWellFormed item.chunks) (hasc : Ascending item.values)
    (htotal : item.valuesTotal = item.values.length) :
  itemCleanCache now item = { item with
    chunks := cleanedChunks now item.range item.valuesTotal item.chunks
    valuesTotal :=
      (chunkValues (cleanedChunks now item.range item.valuesTotal item.chunks)).length
    cachedAll := item.cachedAll &&
      decide ((cleanedChunks now item.range item.valuesTotal item.chunks).length
        = item.chunks.length) }
  := by
  obtain ⟨itemid, valueType, cleanPending, removePending, cachedAll, total, lastAccessed,
    refcount, hits, range, chunks⟩ := item
  obtain rfl : total = (chunkValues chunks).length := htotal
  rw [itemCleanCache]
  cases chunks with
  | nil => simp [cleanedChunks]
  | cons chunk rest =>
    by_cases hrange : range ≠ 0
    · simp only [cleanedChunks, if_pos hrange, cleanChunks_total _ _ _ _ hwf hasc, sub_self,
        zero_add]
    · simp only [cleanedChunks, if_neg hrange, decide_true, Bool.and_true]

/-- The clean-up in memory does what `itemCleanCache` does to the item. -/
theorem cleanCache_refines (sizes : Sizes) (now : ℤ) {nodes : List (ℕ × Chunk HistoryValue)}
    (h : s.WellFormed nodes held) {item : Item HistoryValue} (hitem : s.Represents item nodes)
    {rounds : ℕ} (hrounds : (nodeValues nodes).length + nodes.length < rounds) :
  ∃ s' nodes', cleanCache sizes now rounds s = some s' ∧ s'.Linked nodes' ∧
    s'.Represents (itemCleanCache now item) nodes'
  := by
  obtain ⟨s₁, nodes', hcleans, hclean, hmap⟩ :=
    cleanCache_spec sizes now h item.valuesTotal hrounds
  refine ⟨_, nodes', hclean, ⟨hcleans.linked.segment, hcleans.linked.nodup,
    hcleans.linked.tail, hcleans.linked.head⟩, ?_⟩
  have hvalues : item.values = nodeValues nodes := by rw [Item.values, hitem.chunks, nodeValues]
  rw [itemCleanCache_eq now (by rw [hitem.chunks]; exact h.chunks)
    (by rw [hvalues]; exact h.ascending)
    (by rw [hvalues, hitem.valuesTotal]; exact h.holding.total), hitem.chunks, hitem.range,
    hitem.cachedAll, ← hmap, List.length_map, List.length_map]
  exact {
    chunks := rfl
    valueType := hitem.valueType.trans hcleans.same.valueType.symm
    valuesTotal := hcleans.holding.total.symm
    range := hcleans.same.range.symm
    cachedAll := rfl }

/-- The values are the records of the history from the second of the first value on. -/
def CachedFrom (history values : List (Record HistoryValue)) : Prop :=
  ∀ first ∈ values.head?, values.Perm (history.filter fun r => first.sec ≤ r.sec)

/-- The values after some second are still all records from their first second on. -/
theorem CachedFrom.filter {history values : List (Record HistoryValue)}
    (h : CachedFrom history values) (hasc : Ascending values) (cut : ℤ) :
  CachedFrom history (values.filter fun r => cut < r.sec)
  := by
  intro first' hfirst'
  have hmem' := List.mem_of_mem_head? hfirst'
  obtain ⟨hmem, hcut⟩ := List.mem_filter.mp hmem'
  obtain ⟨first, rest, rfl⟩ := List.exists_cons_of_ne_nil (List.ne_nil_of_mem hmem)
  have hperm := h first rfl
  have hle : first.sec ≤ first'.sec := by
    obtain rfl | hrest := List.mem_cons.mp hmem
    · exact le_rfl
    · exact Timespec.sec_le ((List.pairwise_cons.mp hasc).1 first' hrest)
  have hleast : ∀ r ∈ (first :: rest).filter (fun r => cut < r.sec), first'.sec ≤ r.sec := by
    have hasc' : Ascending ((first :: rest).filter fun r => cut < r.sec) :=
      List.Pairwise.sublist List.filter_sublist hasc
    obtain ⟨rest', hcons⟩ := List.head?_eq_some_iff.mp hfirst'
    rw [hcons] at hasc' ⊢
    intro r hr
    obtain rfl | hr := List.mem_cons.mp hr
    · exact le_rfl
    · exact Timespec.sec_le ((List.pairwise_cons.mp hasc').1 r hr)
  refine (hperm.filter _).trans (.of_eq ?_)
  rw [List.filter_filter]
  apply List.filter_congr
  intro r hr
  rw [decide_eq_true_eq] at hcut
  rw [Bool.eq_iff_iff, Bool.and_eq_true, decide_eq_true_eq, decide_eq_true_eq, decide_eq_true_eq]
  constructor
  · rintro ⟨hafter, hfrom⟩
    apply hleast
    apply List.mem_filter.mpr
    refine ⟨hperm.mem_iff.mpr (List.mem_filter.mpr ⟨hr, ?_⟩), ?_⟩ <;> simpa
  · intro hfrom
    unfold Record.sec at *
    omega

/-- The chunks left hold the values after some second before the limit. -/
theorem cleanedChunks_values (now range total : ℤ) {chunks : List (Chunk HistoryValue)}
    (hwf : ChunksWellFormed chunks) (hasc : Ascending (chunkValues chunks)) :
  ∃ cut < now - range - secPerMin,
    chunkValues (cleanedChunks now range total chunks)
        = (chunkValues chunks).filter (fun r => cut < r.sec) ∧
      ChunksWellFormed (cleanedChunks now range total chunks)
  := by
  cases chunks with
  | nil => exact ⟨now - range - secPerMin - 1, by omega, rfl, hwf⟩
  | cons chunk rest =>
    rw [cleanedChunks]
    by_cases hrange : range ≠ 0
    · rw [if_pos hrange]
      obtain ⟨cut, hdrops⟩ := cleanChunks_drops (now - range - secPerMin) chunk rest total hwf hasc
      exact ⟨cut, hdrops.lt, hdrops.values, hdrops.wellFormed⟩
    · rw [if_neg hrange]
      refine ⟨min (now - range - secPerMin) (chunk.slots chunk.firstValue).sec - 1, by omega, ?_,
        hwf⟩
      symm
      apply List.filter_eq_self.mpr
      intro r hr
      have hle := Timespec.sec_le (first_le_of_mem (hwf chunk List.mem_cons_self) hasc r hr)
      simp only [decide_eq_true_eq]
      unfold Record.sec at *
      omega

/-- The clean-up of a well-formed item ends after at most as many rounds as there are values
and chunks. It removes the values up to a second that is before the limit and keeps the
others in their order; the chunks removed are freed, the links, the number of values and the
references to strings are those of the values left, and these are still all records of the
history from their first second on. -/
theorem cleanCache_correct (sizes : Sizes) (now : ℤ) {nodes : List (ℕ × Chunk HistoryValue)}
    (h : s.WellFormed nodes held) {history : List (Record HistoryValue)}
    (hhistory : CachedFrom history (nodeValues nodes)) {rounds : ℕ}
    (hrounds : (nodeValues nodes).length + nodes.length < rounds) :
  ∃ s' nodes' cut, cleanCache sizes now rounds s = some s' ∧ s'.WellFormed nodes' held ∧
    cut < now - s.range - 60 ∧
    nodeValues nodes' = (nodeValues nodes).filter (fun r => cut < r.sec) ∧
    nodes'.map (·.1) <:+ nodes.map (·.1) ∧
    (∀ a ∈ nodes.map (·.1), a ∉ nodes'.map (·.1) → s'.memory a = none) ∧
    (∀ a ∉ nodes.map (·.1), s'.memory a = s.memory a) ∧
    s'.valueType = s.valueType ∧ s'.range = s.range ∧
    s'.cachedAll = (s.cachedAll && decide (nodes'.length = nodes.length)) ∧
    CachedFrom history (nodeValues nodes')
  := by
  obtain ⟨s₁, nodes', hcleans, hclean, hmap⟩ := cleanCache_spec sizes now h 0 hrounds
  obtain ⟨cut, hcut, hvalues, hwf⟩ := cleanedChunks_values now s.range 0 h.chunks h.ascending
  rw [← hmap] at hvalues hwf
  have hkept : nodeValues nodes' = (nodeValues nodes).filter fun r => cut < r.sec := hvalues
  refine ⟨_, nodes', cut, hclean, ?_, hcut, hkept, hcleans.suffix, hcleans.freed,
    hcleans.others, hcleans.same.valueType, hcleans.same.range, rfl, ?_⟩
  · have hlinked := hcleans.linked
    have hholding := hcleans.holding
    refine ⟨⟨hlinked.segment, hlinked.nodup, hlinked.tail, hlinked.head⟩, hwf, ?_,
      ⟨hholding.total, hholding.count, hholding.positive⟩⟩
    rw [hkept]
    exact List.Pairwise.sublist List.filter_sublist h.ascending
  · rw [hkept]
    exact hhistory.filter h.ascending cut

/-- A string value of a second. -/
def stringAt (sec : ℤ) : Record HistoryValue := ⟨⟨sec, 0⟩, .str [0x61]⟩

/-- A chunk with two values. -/
def twoValues (sec sec' : ℤ) : Chunk HistoryValue where
  slots := fun i => stringAt (if i = 0 then sec else sec')
  firstValue := 0
  lastValue := 1
  slotsNum := 2

/-- An item whose second chunk starts with the second that the first one ends with. -/
def straddling : LinkedItem where
  valueType := itemValueTypeStr
  cachedAll := true
  valuesTotal := 4
  range := 110
  head := some 2
  tail := some 1
  memory := fun a =>
    if a = 1 then some ⟨none, some 2, twoValues 10 20⟩
    else if a = 2 then some ⟨some 1, none, twoValues 20 30⟩ else none
  strpool := Table.empty.set [0x61] 4

theorem straddling_wellFormed :
  straddling.WellFormed [(1, twoValues 10 20), (2, twoValues 20 30)] fun _ => 0
  where
  linked := ⟨⟨rfl, rfl, trivial⟩, by decide, rfl, rfl⟩
  chunks := by
    intro c hc
    obtain rfl | rfl : c = twoValues 10 20 ∨ c = twoValues 20 30 := by simpa using hc
    all_goals exact ⟨by decide, by decide⟩
  ascending := by
    have hvalues : nodeValues [(1, twoValues 10 20), (2, twoValues 20 30)]
        = [stringAt 10, stringAt 20, stringAt 20, stringAt 30] := by
      decide
    rw [hvalues]
    simp [Ascending, Timespec.le_iff, stringAt]
  holding := by
    refine ⟨by decide, fun t => ?_, fun t => ?_⟩
    · by_cases ht : t = [0x61]
      · subst ht
        decide
      · have hstrings : stringsOf straddling.valueType
            (nodeValues [(1, twoValues 10 20), (2, twoValues 20 30)])
              = [[0x61], [0x61], [0x61], [0x61]] := by
          decide
        rw [hstrings, poolCount, straddling, Table.search_set_of_ne _ _ ht]
        exact (List.count_eq_zero.mpr (by simpa using ht)).symm
    · by_cases ht : t = [0x61]
      · subst ht
        decide
      · rw [straddling, Table.search_set_of_ne _ _ ht]
        intro hzero
        cases hzero

/-- The clean-up of this item at the limit of 30 seconds. -/
theorem cleanCache_straddling :
  ∃ s' nodes' cut, cleanCache listEviction.sizes 200 7 straddling = some s' ∧
    s'.WellFormed nodes' (fun _ => 0) ∧ cut < 200 - 110 - 60 ∧
    nodeValues nodes' = [stringAt 10, stringAt 20, stringAt 20, stringAt 30].filter
      fun r => cut < r.sec
  := by
  have hhistory : CachedFrom [stringAt 10, stringAt 20, stringAt 20, stringAt 30]
      (nodeValues [(1, twoValues 10 20), (2, twoValues 20 30)]) := by
    rintro first hfirst
    obtain rfl := Option.some.inj hfirst
    exact .of_eq (by decide)
  obtain ⟨s', nodes', cut, hclean, hwf, hcut, hvalues, -⟩ :=
    cleanCache_correct listEviction.sizes 200 straddling_wellFormed hhistory
      (show _ < 7 by decide)
  exact ⟨s', nodes', cut, hclean, hwf, hcut, hvalues⟩

end LinkedItem

end ValueCache
