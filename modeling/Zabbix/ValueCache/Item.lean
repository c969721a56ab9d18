import Zabbix.Library.Slice
import Zabbix.ValueCache.Database

/-!
# Cached items and look-ups

An item of the cache holds its records in chunks. A chunk has `slotsNum` slots, of which
those from `firstValue` to `lastValue` are used; the others hold whatever was in memory.
The chunks form a list linked in both directions: `chunks` is the list from the tail, the
oldest chunk, along `next` to the head. A `Cursor` is a pointer to a chunk together with
an index into it, in the form the loops move it: the chunks newer than the chunk, the
nearest first, and those older, the nearest first.

Memory for new chunks and for copied values is always found here.
-/

namespace ValueCache

/-- `zbx_vc_chunk_t`. -/
structure Chunk (V : Type*) where
  slots : ℤ → Record V
  firstValue : ℕ
  lastValue : ℤ
  slotsNum : ℕ

/-- `zbx_vc_item_t`. The flags `ZBX_ITEM_STATE_CLEAN_PENDING` and
`ZBX_ITEM_STATE_REMOVE_PENDING` of its state are `cleanPending` and `removePending`. -/
structure Item (V : Type*) where
  itemid : UInt64
  valueType : UInt8
  cleanPending : Bool
  removePending : Bool
  cachedAll : Bool
  valuesTotal : ℤ
  lastAccessed : ℤ
  refcount : ℤ
  hits : ℕ
  range : ℤ
  chunks : List (Chunk V)

variable {V : Type*}

/-- The used slots of a chunk. -/
def Chunk.values (c : Chunk V) : List (Record V) :=
  slice c.slots c.firstValue (c.lastValue + 1)

/-- The records in a list of chunks, oldest first. -/
def chunkValues (chunks : List (Chunk V)) : List (Record V) :=
  chunks.flatMap Chunk.values

/-- The cached records of an item, oldest first. -/
def Item.values (item : Item V) : List (Record V) :=
  chunkValues item.chunks

/-- A chunk and an index into it. -/
structure Cursor (V : Type*) where
  newer : List (Chunk V)
  chunk : Chunk V
  older : List (Chunk V)
  index : ℤ

/-- The indices of a chunk lie within its slots, and a value is there. -/
structure Chunk.WellFormed (c : Chunk V) : Prop where
  nonempty : (c.firstValue : ℤ) ≤ c.lastValue
  within : c.lastValue < c.slotsNum

/-! ### Look-ups -/

/-- The binary search loop of `vch_chunk_find_last_value_before`, for at most the given
number of rounds. -/
def chunkFindLoop (chunk : Chunk V) (timestamp : ℤ) : ℕ → ℤ → ℤ → Option ℤ
  | 0, _, _ => none
  | rounds + 1, start, last =>
    if start = last then some (-1)
    else
      let middle := start + (last - start) / 2
      if (chunk.slots middle).sec > timestamp then
        chunkFindLoop chunk timestamp rounds start middle
      else if (chunk.slots (middle + 1)).sec ≤ timestamp then
        chunkFindLoop chunk timestamp rounds middle last
      else some middle

/-- The index of the last value of the chunk that is not after `timestamp`, or -1. -/
def chunkFindLastValueBefore (chunk : Chunk V) (timestamp : ℤ) : ℤ :=
  if (chunk.slots chunk.lastValue).sec ≤ timestamp then chunk.lastValue
  else if (chunk.firstValue : ℤ) = chunk.lastValue then -1
  else
    (chunkFindLoop chunk timestamp (chunk.lastValue - chunk.firstValue + 1).toNat
      chunk.firstValue chunk.lastValue).getD (-1)

/-- Goes back from chunk to chunk while the first value is after `endTimestamp`. -/
def seekChunk (endTimestamp : ℤ) : List (Chunk V) → List (Chunk V) →
    Option (List (Chunk V) × Chunk V × List (Chunk V))
  | _, [] => none
  | newer, chunk :: older =>
    if (chunk.slots chunk.firstValue).sec > endTimestamp then
      seekChunk endTimestamp (chunk :: newer) older
    else some (newer, chunk, older)

/-- The place of the last value that is not after `endTimestamp`, where 0 stands for the
current time `now`. -/
def itemGetLastValue (now : ℤ) (item : Item V) (endTimestamp : ℤ) : Option (Cursor V) :=
  match item.chunks.reverse with
  | [] => none
  | head :: older =>
    let index := head.lastValue
    let endTimestamp := if endTimestamp = 0 then now else endTimestamp
    if (head.slots index).sec > endTimestamp then
      match seekChunk endTimestamp [] (head :: older) with
      | none => none
      | some (newer, chunk, older) =>
        some ⟨newer, chunk, older, chunkFindLastValueBefore chunk endTimestamp⟩
    else some ⟨[], head, older, index⟩

/-- The number of steps back from a place to the start of the item. -/
def stepsBack (chunk : Chunk V) (older : List (Chunk V)) (index : ℤ) : ℕ :=
  (index + 1 - chunk.firstValue).toNat +
    (older.map fun c => (c.lastValue + 1 - c.firstValue).toNat + 1).sum

/-- Goes back from value to value while they are after `timestamp`. -/
def stepBack (timestamp : Timespec) (newer : List (Chunk V)) (chunk : Chunk V)
    (older : List (Chunk V)) (index : ℤ) : Option (Cursor V) :=
  if 0 < timespecCompare (chunk.slots index).timestamp timestamp then
    if index - 1 < chunk.firstValue then
      match older with
      | [] => none
      | prev :: rest => stepBack timestamp (chunk :: newer) prev rest prev.lastValue
    else stepBack timestamp newer chunk older (index - 1)
  else some ⟨newer, chunk, older, index⟩
termination_by stepsBack chunk older index
decreasing_by
  · simp only [stepsBack, List.map_cons, List.sum_cons]
    omega
  · simp only [stepsBack]
    omega

/-- The place of the last value that is not after the time stamp. -/
def itemGetLastValueByTimespec (now : ℤ) (item : Item V) (timestamp : Timespec) :
    Option (Cursor V) :=
  match itemGetLastValue now item timestamp.sec with
  | none => none
  | some cur => stepBack timestamp cur.newer cur.chunk cur.older cur.index

/-! ### The records before a cursor -/

/-- The records of the item up to the cursor. -/
def Cursor.upTo (cur : Cursor V) : List (Record V) :=
  chunkValues cur.older.reverse ++ slice cur.chunk.slots cur.chunk.firstValue (cur.index + 1)

/-- The records of the item after the cursor. -/
def Cursor.after (cur : Cursor V) : List (Record V) :=
  slice cur.chunk.slots (cur.index + 1) (cur.chunk.lastValue + 1) ++ chunkValues cur.newer

/-- The cursor points to a used slot of a chunk of the list. -/
structure Cursor.In (cur : Cursor V) (chunks : List (Chunk V)) : Prop where
  chunks : chunks = cur.older.reverse ++ cur.chunk :: cur.newer
  first_le : (cur.chunk.firstValue : ℤ) ≤ cur.index
  le_last : cur.index ≤ cur.chunk.lastValue

@[simp]
theorem chunkValues_nil :
  chunkValues ([] : List (Chunk V)) = []
  := rfl

@[simp]
theorem chunkValues_cons (c : Chunk V) (chunks : List (Chunk V)) :
  chunkValues (c :: chunks) = c.values ++ chunkValues chunks
  := rfl

@[simp]
theorem chunkValues_append (chunks chunks' : List (Chunk V)) :
  chunkValues (chunks ++ chunks') = chunkValues chunks ++ chunkValues chunks'
  := List.flatMap_append

/-- A cursor splits the records of the item. -/
theorem Cursor.In.values_eq {cur : Cursor V} {chunks : List (Chunk V)}
    (h : cur.In chunks) :
  chunkValues chunks = cur.upTo ++ cur.after
  := by
  have hf := h.first_le
  have hl := h.le_last
  have hsplit := Slice.slice_append (a := cur.chunk.slots)
    (by omega : (cur.chunk.firstValue : ℤ) ≤ cur.index + 1)
    (by omega : cur.index + 1 ≤ cur.chunk.lastValue + 1)
  rw [h.chunks, chunkValues_append, chunkValues_cons, Chunk.values, ← hsplit, upTo, after]
  simp only [List.append_assoc]

theorem Chunk.WellFormed.mem_first {c : Chunk V} (h : c.WellFormed) :
  c.slots c.firstValue ∈ c.values
  := Slice.mem_slice.mpr ⟨_, le_rfl, by have := h.nonempty; omega, rfl⟩

theorem Chunk.WellFormed.mem_last {c : Chunk V} (h : c.WellFormed) :
  c.slots c.lastValue ∈ c.values
  := Slice.mem_slice.mpr ⟨_, h.nonempty, by omega, rfl⟩

theorem Chunk.WellFormed.values_cons {c : Chunk V} (h : c.WellFormed) :
  c.values = c.slots c.firstValue :: slice c.slots (c.firstValue + 1) (c.lastValue + 1)
  := Slice.slice_cons (by have := h.nonempty; omega)

/-- Every chunk of the list is well formed. -/
def ChunksWellFormed (chunks : List (Chunk V)) : Prop :=
  ∀ c ∈ chunks, c.WellFormed

/-! ### What the look-ups find -/

theorem ascending_append {l l' : List (Record V)} :
  Ascending (l ++ l') ↔ Ascending l ∧ Ascending l' ∧
    ∀ a ∈ l, ∀ b ∈ l', a.timestamp ≤ b.timestamp
  := List.pairwise_append

/-- In a chunk in order the seconds do not decrease along the used slots. -/
theorem sec_mono {c : Chunk V} (h : Ascending c.values) {i j : ℤ}
    (hi : (c.firstValue : ℤ) ≤ i) (hij : i ≤ j) (hj : j ≤ c.lastValue) :
  (c.slots i).sec ≤ (c.slots j).sec
  := by
  by_cases heq : i = j
  · rw [heq]
  · apply Timespec.sec_le
    exact Slice.pairwise_slice h hi (by omega) (by omega)

/-- The binary search ends within the number of rounds given by its interval. -/
theorem chunkFindLoop_spec {c : Chunk V} {timestamp : ℤ} (rounds : ℕ) {start last : ℤ}
    (hstart : (c.slots start).sec ≤ timestamp) (hlast : timestamp < (c.slots last).sec)
    (hlt : start < last) (hrounds : last - start ≤ rounds) :
  ∃ k, chunkFindLoop c timestamp rounds start last = some k ∧ start ≤ k ∧ k < last ∧
    (c.slots k).sec ≤ timestamp ∧ timestamp < (c.slots (k + 1)).sec
  := by
  induction rounds generalizing start last with
  | zero => omega
  | succ rounds ih =>
    rw [chunkFindLoop, if_neg (by omega)]
    dsimp only
    by_cases hmid : (c.slots (start + (last - start) / 2)).sec > timestamp
    · rw [if_pos hmid]
      have hne : start + (last - start) / 2 ≠ start := by
        intro heq
        rw [heq] at hmid
        omega
      obtain ⟨k, hk, h1, h2, h3⟩ := ih hstart hmid (by omega) (by omega)
      exact ⟨k, hk, h1, by omega, h3⟩
    · rw [if_neg hmid]
      by_cases hnext : (c.slots (start + (last - start) / 2 + 1)).sec ≤ timestamp
      · rw [if_pos hnext]
        have hne : start + (last - start) / 2 + 1 ≠ last := by
          intro heq
          rw [heq] at hnext
          omega
        obtain ⟨k, hk, h1, h2, h3⟩ := ih (not_lt.mp hmid) hlast (by omega) (by omega)
        exact ⟨k, hk, by omega, h2, h3⟩
      · rw [if_neg hnext]
        exact ⟨_, rfl, by omega, by omega, not_lt.mp hmid, not_le.mp hnext⟩

/-- In a chunk in order that does not start after the time, the search finds the last
value that is not after it. -/
theorem chunkFindLastValueBefore_spec {c : Chunk V} {timestamp : ℤ} (hwf : c.WellFormed)
    (hfirst : (c.slots c.firstValue).sec ≤ timestamp) :
  ∃ k, chunkFindLastValueBefore c timestamp = k ∧ (c.firstValue : ℤ) ≤ k ∧
    k ≤ c.lastValue ∧ (c.slots k).sec ≤ timestamp ∧
    (k < c.lastValue → timestamp < (c.slots (k + 1)).sec)
  := by
  have hne := hwf.nonempty
  unfold chunkFindLastValueBefore
  by_cases hlast : (c.slots c.lastValue).sec ≤ timestamp
  · rw [if_pos hlast]
    exact ⟨_, rfl, hne, le_rfl, hlast, fun h => absurd h (lt_irrefl _)⟩
  · rw [if_neg hlast]
    have hlt : (c.firstValue : ℤ) ≠ c.lastValue := by
      intro heq
      rw [← heq] at hlast
      exact hlast hfirst
    rw [if_neg hlt]
    obtain ⟨k, hk, h1, h2, h3, h4⟩ := chunkFindLoop_spec
      (c.lastValue - c.firstValue + 1).toNat hfirst (not_le.mp hlast) (by omega) (by omega)
    rw [hk]
    exact ⟨k, rfl, h1, by omega, h3, fun _ => h4⟩

/-- The chunk the seek ends at: the newest one that does not start after the time. -/
theorem seekChunk_spec (endTimestamp : ℤ) (newer chunks : List (Chunk V)) :
  match seekChunk endTimestamp newer chunks with
  | none => ∀ c ∈ chunks, endTimestamp < (c.slots c.firstValue).sec
  | some (newer', c, older) =>
    (c.slots c.firstValue).sec ≤ endTimestamp ∧
      ∃ skipped, chunks = skipped ++ c :: older ∧ newer' = skipped.reverse ++ newer ∧
        ∀ c' ∈ skipped, endTimestamp < (c'.slots c'.firstValue).sec
  := by
  induction chunks generalizing newer with
  | nil => simp [seekChunk]
  | cons chunk chunks ih =>
    rw [seekChunk]
    by_cases hc : (chunk.slots chunk.firstValue).sec > endTimestamp
    · rw [if_pos hc]
      have ih := ih (chunk :: newer)
      cases hs : seekChunk endTimestamp (chunk :: newer) chunks with
      | none =>
        rw [hs] at ih
        intro c hcm
        rcases List.mem_cons.mp hcm with rfl | hcm
        · exact hc
        · exact ih c hcm
      | some t =>
        obtain ⟨newer', c, older⟩ := t
        rw [hs] at ih
        obtain ⟨hle, skipped, rfl, rfl, hskip⟩ := ih
        refine ⟨hle, chunk :: skipped, rfl, by simp, ?_⟩
        intro c' hc'
        rcases List.mem_cons.mp hc' with rfl | hc'
        · exact hc
        · exact hskip c' hc'
    · rw [if_neg hc]
      exact ⟨not_lt.mp hc, [], rfl, rfl, by simp⟩

/-- The first value of a list of chunks in order is the oldest. -/
theorem first_le_of_mem {c : Chunk V} {chunks : List (Chunk V)} (hwf : c.WellFormed)
    (hasc : Ascending (chunkValues (c :: chunks))) :
  ∀ r ∈ chunkValues (c :: chunks), (c.slots c.firstValue).timestamp ≤ r.timestamp
  := by
  intro r hr
  rw [chunkValues_cons, hwf.values_cons, List.cons_append] at hasc hr
  rcases List.mem_cons.mp hr with rfl | hr
  · exact le_rfl
  · exact (List.pairwise_cons.mp hasc).1 r hr

theorem Cursor.In.upTo_eq_concat {cur : Cursor V} {chunks : List (Chunk V)}
    (h : cur.In chunks) :
  cur.upTo = (chunkValues cur.older.reverse ++
    slice cur.chunk.slots cur.chunk.firstValue cur.index) ++ [cur.chunk.slots cur.index]
  := by
  rw [upTo, Slice.slice_succ h.first_le, List.append_assoc]

/-- The value at the cursor is the newest up to it. -/
theorem Cursor.In.le_of_mem_upTo {cur : Cursor V} {chunks : List (Chunk V)}
    (h : cur.In chunks) (hasc : Ascending (chunkValues chunks)) :
  ∀ r ∈ cur.upTo, r.timestamp ≤ (cur.chunk.slots cur.index).timestamp
  := by
  intro r hr
  rw [h.values_eq, ascending_append] at hasc
  have hup := hasc.1
  rw [h.upTo_eq_concat] at hup hr
  rcases List.mem_append.mp hr with hr | hr
  · exact (ascending_append.mp hup).2.2 r hr _ (by simp)
  · simp only [List.mem_singleton] at hr
    rw [hr]

/-- A property that passes to newer records holds of all that follows the cursor if it
holds of the first. -/
theorem Cursor.In.forall_after {cur : Cursor V} {chunks : List (Chunk V)}
    {P : Record V → Prop} (h : cur.In chunks) (hwf : ChunksWellFormed chunks)
    (hasc : Ascending (chunkValues chunks))
    (hmono : ∀ a b, a.timestamp ≤ b.timestamp → P a → P b)
    (hnext : cur.index < cur.chunk.lastValue → P (cur.chunk.slots (cur.index + 1)))
    (hnewer : ∀ c ∈ cur.newer, P (c.slots c.firstValue)) :
  ∀ r ∈ cur.after, P r
  := by
  intro r hr
  rw [h.values_eq, ascending_append] at hasc
  have hafter := hasc.2.1
  have hl := h.le_last
  rw [Cursor.after] at hafter hr
  by_cases hlt : cur.index < cur.chunk.lastValue
  · rw [Slice.slice_cons (by omega), List.cons_append] at hafter hr
    rcases List.mem_cons.mp hr with rfl | hr
    · exact hnext hlt
    · exact hmono _ r ((List.pairwise_cons.mp hafter).1 r hr) (hnext hlt)
  · rw [Slice.slice_of_le (by omega), List.nil_append] at hafter hr
    cases hn : cur.newer with
    | nil =>
      rw [hn] at hr
      simp at hr
    | cons d ds =>
      rw [hn] at hr hafter hnewer
      have hd : d.WellFormed := by
        apply hwf
        rw [h.chunks, hn]
        simp
      exact hmono _ r (first_le_of_mem hd hafter r hr) (hnewer d List.mem_cons_self)

/-- The end of the period a look-up by second is about: 0 stands for the current time. -/
def periodEnd (now timestamp : ℤ) : ℤ :=
  if timestamp = 0 then now else timestamp

/-- The look-up by second, with the current time in place of 0, splits the records of
an item in order at the given second. -/
theorem itemGetLastValue_spec (now endTimestamp : ℤ) {item : Item V}
    (hwf : ChunksWellFormed item.chunks) (hasc : Ascending item.values) :
  match itemGetLastValue now item endTimestamp with
  | none => ∀ r ∈ item.values, periodEnd now endTimestamp < r.sec
  | some cur => cur.In item.chunks ∧ (∀ r ∈ cur.upTo, r.sec ≤ periodEnd now endTimestamp) ∧
    (∀ r ∈ cur.after, periodEnd now endTimestamp < r.sec)
  := by
  unfold itemGetLastValue
  cases hrev : item.chunks.reverse with
  | nil =>
    rw [List.reverse_eq_nil_iff] at hrev
    simp [Item.values, hrev]
  | cons head older =>
    dsimp only
    unfold periodEnd
    generalize (if endTimestamp = 0 then now else endTimestamp) = t
    have hchunks : item.chunks = older.reverse ++ [head] := by
      rw [← List.reverse_reverse item.chunks, hrev, List.reverse_cons]
    unfold Item.values at hasc
    by_cases hlast : (head.slots head.lastValue).sec > t
    · rw [if_pos hlast]
      have hseek := seekChunk_spec t [] (head :: older)
      cases hs : seekChunk t [] (head :: older) with
      | none =>
        rw [hs] at hseek
        dsimp only at hseek ⊢
        intro r hr
        -- the chunk that holds `r` starts after the time
        obtain ⟨c, hc, hrc⟩ := List.mem_flatMap.mp hr
        have hcr : c ∈ head :: older := by
          rw [← hrev]
          exact List.mem_reverse.mpr hc
        obtain ⟨before, behind, hsplit⟩ := List.append_of_mem hc
        have hasc' := hasc
        rw [hsplit, chunkValues_append, ascending_append] at hasc'
        have := Timespec.sec_le (first_le_of_mem (hwf c hc) hasc'.2.1 r (by simp [hrc]))
        have := hseek c hcr
        unfold Record.sec at *
        omega
      | some s =>
        obtain ⟨newer, c, rest⟩ := s
        rw [hs] at hseek
        obtain ⟨hcfirst, skipped, hsplit, hnewer, hskip⟩ := hseek
        have hin : item.chunks = rest.reverse ++ c :: newer := by
          rw [← List.reverse_reverse item.chunks, hrev, hsplit, hnewer]
          simp
        have hcwf : c.WellFormed := by
          apply hwf
          rw [hin]
          simp
        obtain ⟨k, hk, h1, h2, h3, h4⟩ := chunkFindLastValueBefore_spec hcwf hcfirst
        dsimp only
        rw [hk]
        have hcur : Cursor.In ⟨newer, c, rest, k⟩ item.chunks := ⟨hin, h1, h2⟩
        refine ⟨hcur, ?_, ?_⟩
        · intro r hr
          have := Timespec.sec_le (hcur.le_of_mem_upTo hasc r hr)
          unfold Record.sec at *
          dsimp only at this
          omega
        · apply hcur.forall_after (P := fun r => t < r.sec) hwf hasc
          · intro a b hab ha
            have := Timespec.sec_le hab
            unfold Record.sec at *
            omega
          · exact h4
          · intro c' hc'
            apply hskip
            rw [hnewer] at hc'
            simpa using hc'
    · rw [if_neg hlast]
      have hheadwf : head.WellFormed := by
        apply hwf
        rw [hchunks]
        simp
      have hcur : Cursor.In ⟨[], head, older, head.lastValue⟩ item.chunks :=
        ⟨hchunks, hheadwf.nonempty, le_rfl⟩
      refine ⟨hcur, ?_, ?_⟩
      · intro r hr
        have := Timespec.sec_le (hcur.le_of_mem_upTo hasc r hr)
        unfold Record.sec at *
        dsimp only at this
        omega
      · intro r hr
        simp [Cursor.after, Slice.slice_of_le] at hr

/-- A cursor with a smaller index in the same chunk, or at the end of an older one. -/
theorem Cursor.In.step {newer : List (Chunk V)} {chunk prev : Chunk V}
    {older chunks : List (Chunk V)} {index : ℤ}
    (h : Cursor.In ⟨newer, chunk, prev :: older, index⟩ chunks) (hwf : ChunksWellFormed chunks) :
  Cursor.In ⟨chunk :: newer, prev, older, prev.lastValue⟩ chunks
  := by
  have hchunks := h.chunks
  simp only [List.reverse_cons, List.append_assoc, List.cons_append, List.nil_append]
    at hchunks
  have hprev : prev.WellFormed := by
    apply hwf
    rw [hchunks]
    simp
  exact ⟨hchunks, hprev.nonempty, le_rfl⟩

/-- Going back splits the records of an item in order at the time stamp, provided
everything after the start is newer than it. -/
theorem stepBack_spec {timestamp : Timespec} {newer : List (Chunk V)} {chunk : Chunk V}
    {older chunks : List (Chunk V)} {index : ℤ} (hwf : ChunksWellFormed chunks)
    (hasc : Ascending (chunkValues chunks))
    (h : Cursor.In ⟨newer, chunk, older, index⟩ chunks)
    (hafter : ∀ r ∈ Cursor.after ⟨newer, chunk, older, index⟩, timestamp < r.timestamp) :
  match stepBack timestamp newer chunk older index with
  | none => ∀ r ∈ chunkValues chunks, timestamp < r.timestamp
  | some cur => cur.In chunks ∧ (∀ r ∈ cur.upTo, r.timestamp ≤ timestamp) ∧
    (∀ r ∈ cur.after, timestamp < r.timestamp)
  := by
  have hfirst := h.first_le
  have hlast := h.le_last
  dsimp only at hfirst hlast
  fun_induction stepBack timestamp newer chunk older index with
  | case1 newer chunk index hgt hlow =>
    -- the first value of the oldest chunk
    intro r hr
    rw [h.values_eq] at hr
    rcases List.mem_append.mp hr with hr | hr
    · rw [Cursor.upTo] at hr
      have heq : index = chunk.firstValue := by omega
      subst heq
      dsimp only at hr
      rw [List.reverse_nil, chunkValues_nil, List.nil_append, Slice.slice_cons (by omega),
        Slice.slice_of_le le_rfl, List.mem_singleton] at hr
      rw [hr]
      exact timespecCompare_pos.mp hgt
    · exact hafter r hr
  | case2 newer chunk index hgt hlow prev rest ih =>
    have hstep := h.step hwf
    apply ih hstep _ hstep.first_le hstep.le_last
    intro r hr
    rw [Cursor.after] at hr
    dsimp only at hr
    rw [Slice.slice_of_le le_rfl, List.nil_append, chunkValues_cons] at hr
    have heq : index = chunk.firstValue := by omega
    subst heq
    rw [Chunk.values, Slice.slice_cons (by omega), List.cons_append] at hr
    rcases List.mem_cons.mp hr with rfl | hr
    · exact timespecCompare_pos.mp hgt
    · exact hafter r hr
  | case3 newer chunk older index hgt hhigh ih =>
    have hstep : Cursor.In ⟨newer, chunk, older, index - 1⟩ chunks :=
      ⟨h.chunks, not_lt.mp hhigh, by dsimp only; omega⟩
    apply ih hstep _ (by omega) (by omega)
    intro r hr
    rw [Cursor.after] at hr
    dsimp only at hr
    rw [sub_add_cancel, Slice.slice_cons (by omega), List.cons_append] at hr
    rcases List.mem_cons.mp hr with rfl | hr
    · exact timespecCompare_pos.mp hgt
    · exact hafter r hr
  | case4 newer chunk older index hle =>
    refine ⟨h, ?_, hafter⟩
    intro r hr
    apply (h.le_of_mem_upTo hasc r hr).trans
    exact not_lt.mp (mt timespecCompare_pos.mpr hle)

/-- The look-up by time stamp splits the records of an item in order, none of which is
in the future. -/
theorem itemGetLastValueByTimespec_spec (now : ℤ) {item : Item V} (timestamp : Timespec)
    (hwf : ChunksWellFormed item.chunks) (hasc : Ascending item.values)
    (hnow : ∀ r ∈ item.values, r.sec ≤ now) :
  match itemGetLastValueByTimespec now item timestamp with
  | none => ∀ r ∈ item.values, timestamp < r.timestamp
  | some cur => cur.In item.chunks ∧ (∀ r ∈ cur.upTo, r.timestamp ≤ timestamp) ∧
    (∀ r ∈ cur.after, timestamp < r.timestamp)
  := by
  have hsec := itemGetLastValue_spec now timestamp.sec hwf hasc
  unfold itemGetLastValueByTimespec
  cases hlast : itemGetLastValue now item timestamp.sec with
  | none =>
    rw [hlast] at hsec
    dsimp only at hsec ⊢
    intro r hr
    have hr' := hsec r hr
    have := hnow r hr
    apply Timespec.lt_of_sec_lt
    unfold periodEnd Record.sec at *
    split at hr' <;> omega
  | some cur =>
    rw [hlast] at hsec
    obtain ⟨hcur, -, hafter⟩ := hsec
    apply stepBack_spec hwf hasc hcur
    intro r hr
    have hr' := hafter r hr
    have hmem : r ∈ item.values := by
      unfold Item.values
      rw [hcur.values_eq]
      exact List.mem_append_right _ hr
    have := hnow r hmem
    apply Timespec.lt_of_sec_lt
    unfold periodEnd Record.sec at *
    split at hr' <;> omega

end ValueCache
