import Mathlib.Data.List.Chain
import Zabbix.ValueCache.Request

/-!
# Coherence of a cached item

A coherent item caches exactly the records of the database from the second of its first
cached record on, and its `cachedAll` flag and `range` promise nothing that is not
cached. Extending the cache backwards with what a request reads from the database keeps
the item coherent and makes it cover the request.
-/

namespace ValueCache

variable {V : Type*}

/-- The cached records are exactly the database records from second `bound` on. -/
def CoversFrom (rows : List (Record V)) (item : Item V) (bound : ℤ) : Prop :=
  item.values.Perm (rows.filter fun r => bound ≤ r.sec)

/-- The cached records are exactly the database records whose second is not before that
of the first cached record. -/
def CachesExactly (rows : List (Record V)) (item : Item V) : Prop :=
  ∀ first ∈ item.values.head?, CoversFrom rows item first.sec

/-- What `cachedAll` and `range` promise is cached. -/
structure KeepsPromises (rows : List (Record V)) (now : ℤ) (item : Item V) : Prop where
  all : item.cachedAll = true → item.values.Perm rows
  range : 0 < item.range → ∀ r ∈ rows, now - item.range < r.sec → r ∈ item.values

/-- A coherent item. -/
structure Coherent (rows : List (Record V)) (now : ℤ) (item : Item V) : Prop where
  wellFormed : ChunksWellFormed item.chunks
  ascending : Ascending item.values
  exact : CachesExactly rows item
  promises : KeepsPromises rows now item

variable {rows : List (Record V)} {now : ℤ} {item : Item V}

theorem CoversFrom.mem {bound : ℤ} (h : CoversFrom rows item bound) {r : Record V} :
  r ∈ item.values ↔ r ∈ rows ∧ bound ≤ r.sec
  := by
  rw [h.mem_iff]
  simp

theorem CoversFrom.cachesExactly {bound : ℤ} (h : CoversFrom rows item bound)
    (hasc : Ascending item.values) :
  CachesExactly rows item
  := by
  intro first hfirst
  have hmem : first ∈ item.values := List.mem_of_mem_head? hfirst
  have hbound := (h.mem.mp hmem).2
  apply h.trans
  apply List.Perm.of_eq
  apply List.filter_congr
  intro r hr
  rw [decide_eq_decide]
  constructor
  · intro hb
    have hrmem := h.mem.mpr ⟨hr, hb⟩
    obtain ⟨rest, hrest⟩ : ∃ rest, item.values = first :: rest := by
      cases hv : item.values with
      | nil => simp [hv] at hfirst
      | cons x rest =>
        simp only [hv, List.head?_cons, Option.mem_def, Option.some.injEq] at hfirst
        exact ⟨rest, by rw [hfirst]⟩
    rw [hrest] at hrmem hasc
    rcases List.mem_cons.mp hrmem with rfl | hrmem
    · exact le_rfl
    · exact Timespec.sec_le ((List.pairwise_cons.mp hasc).1 r hrmem)
  · intro hb
    unfold Record.sec at *
    omega

/-- The second of the first cached record, or the second after `now`. -/
def coveredFrom (now : ℤ) (item : Item V) : ℤ :=
  match item.values.head? with
  | none => now + 1
  | some first => first.sec

/-- When no record is in the future, an item that caches exactly covers the database from
some second on. -/
theorem CachesExactly.coversFrom (h : CachesExactly rows item)
    (hnow : ∀ r ∈ rows, r.sec ≤ now) :
  CoversFrom rows item (coveredFrom now item)
  := by
  unfold coveredFrom
  cases hfirst : item.values.head? with
  | none =>
    rw [List.head?_eq_none_iff] at hfirst
    rw [CoversFrom, hfirst, List.filter_eq_nil_iff.mpr]
    intro r hr
    have := hnow r hr
    simp
    omega
  | some first => exact h first hfirst

theorem coveredFrom_of_chunks {chunks : List (Chunk V)} {tail : Chunk V} (now : ℤ)
    (hchunks : item.chunks = tail :: chunks) (hwf : ChunksWellFormed item.chunks) :
  coveredFrom now item = (tail.slots tail.firstValue).sec
  := by
  have htail : tail.WellFormed := hwf tail (by simp [hchunks])
  rw [coveredFrom, Item.values, hchunks, chunkValues_cons, htail.values_cons]
  rfl

theorem coveredFrom_of_nil (now : ℤ) (hchunks : item.chunks = []) :
  coveredFrom now item = now + 1
  := by
  simp [coveredFrom, Item.values, hchunks]

theorem coveredFrom_le (now : ℤ) (h : CachesExactly rows item) (hnow : ∀ r ∈ rows, r.sec ≤ now) :
  coveredFrom now item ≤ now + 1
  := by
  have hcov := h.coversFrom hnow
  unfold coveredFrom at hcov ⊢
  cases hfirst : item.values.head? with
  | none => exact le_rfl
  | some first =>
    rw [hfirst] at hcov
    have := hnow first (hcov.mem.mp (List.mem_of_head? hfirst)).1
    dsimp only
    omega

theorem exists_le_sec (rows : List (Record V)) :
  ∃ start, ∀ r ∈ rows, start ≤ r.sec
  := by
  induction rows with
  | nil => exact ⟨0, by simp⟩
  | cons row rows ih =>
    obtain ⟨start, hstart⟩ := ih
    use min start row.sec
    intro r hr
    rcases List.mem_cons.mp hr with rfl | hr
    · exact min_le_right _ _
    · exact (min_le_left _ _).trans (hstart r hr)

/-! ### Extending the cache -/

/-- The chunks of the list fill their slots from chunk to chunk: only the tail has free
slots on its left and only the head on its right. -/
def ChunksPacked (chunks : List (Chunk V)) : Prop :=
  chunks.IsChain fun c d => c.lastValue + 1 = (c.slotsNum : ℤ) ∧ d.firstValue = 0

/-- The chunk with values written before its used slots. -/
def Chunk.prepend (c : Chunk V) (values : List (Record V)) : Chunk V :=
  { c with
    slots := writeAt c.slots ((c.firstValue : ℤ) - values.length) values
    firstValue := c.firstValue - values.length }

theorem Chunk.values_prepend {c : Chunk V} {values : List (Record V)}
    (hroom : values.length ≤ c.firstValue) (hlast : (c.firstValue : ℤ) ≤ c.lastValue + 1) :
  (c.prepend values).values = values ++ c.values
  := by
  have := Slice.slice_writeAt_start (a := c.slots) values hlast
  simp only [prepend, Chunk.values, Nat.cast_sub hroom]
  exact this

/-- One round of the prepending loop. -/
theorem itemTailRoom_copy (p : Platform V) (values : List (Record V)) (count : ℕ)
    (hwf : ChunksWellFormed item.chunks) (hpos : values ≠ [])
    (hroom : values.length ≤ (itemTailRoom p item count).2) :
  ∃ chunks, itemCopyValuesAtBeginning (itemTailRoom p item count).1 values =
      { item with chunks := chunks, valuesTotal := item.valuesTotal + values.length } ∧
    ChunksWellFormed chunks ∧ chunkValues chunks = values ++ item.values ∧
    (ChunksPacked item.chunks → ChunksPacked chunks)
  := by
  have hlen := List.length_pos_iff.mpr hpos
  -- a full tail, or none, gets a new chunk; the values go into its rightmost slots
  have hnew : ∀ n : ℕ, values.length ≤ n → ∀ fresh : Chunk V,
      fresh.firstValue = n → fresh.lastValue = n - 1 → fresh.slotsNum = n →
      (∀ c ∈ item.chunks.head?, c.firstValue = 0) →
      ChunksWellFormed (fresh.prepend values :: item.chunks) ∧
      chunkValues (fresh.prepend values :: item.chunks) = values ++ item.values ∧
      (ChunksPacked item.chunks → ChunksPacked (fresh.prepend values :: item.chunks)) := by
    intro n hn fresh hf hl hs hhead
    have hvalues : (fresh.prepend values).values = values := by
      rw [Chunk.values_prepend (by omega) (by omega)]
      rw [Chunk.values, Slice.slice_of_le (by omega), List.append_nil]
    refine ⟨?_, ?_, ?_⟩
    · intro c hc
      rcases List.mem_cons.mp hc with rfl | hc
      · constructor
        · simp only [Chunk.prepend]
          omega
        · simp only [Chunk.prepend]
          omega
      · exact hwf c hc
    · rw [chunkValues_cons, hvalues]
      rfl
    · intro hpacked
      rw [ChunksPacked, List.isChain_cons]
      refine ⟨?_, hpacked⟩
      intro d hd
      refine ⟨?_, hhead d hd⟩
      simp only [Chunk.prepend]
      omega
  unfold itemTailRoom at hroom ⊢
  cases hchunks : item.chunks with
  | nil =>
    simp only [hchunks, if_true] at hroom ⊢
    have hhead : ∀ c ∈ item.chunks.head?, c.firstValue = 0 := by simp [hchunks]
    obtain ⟨h1, h2, h3⟩ := hnew (getNewChunkSlotCount count) hroom
      ⟨p.uninit 0, getNewChunkSlotCount count, getNewChunkSlotCount count - 1,
        getNewChunkSlotCount count⟩ rfl rfl rfl hhead
    rw [hchunks] at h1 h2 h3
    refine ⟨_, ?_, h1, h2, h3⟩
    simp [itemCopyValuesAtBeginning, itemAddChunk, hchunks, Chunk.prepend]
  | cons tail rest =>
    simp only [hchunks] at hroom ⊢
    by_cases hfull : tail.firstValue = 0
    · rw [if_pos hfull] at hroom ⊢
      have hhead : ∀ c ∈ item.chunks.head?, c.firstValue = 0 := by simp [hchunks, hfull]
      obtain ⟨h1, h2, h3⟩ := hnew (getNewChunkSlotCount count) hroom
        ⟨p.uninit item.chunks.length, getNewChunkSlotCount count,
          getNewChunkSlotCount count - 1, getNewChunkSlotCount count⟩ rfl rfl rfl hhead
      rw [hchunks] at h1 h2 h3
      refine ⟨_, ?_, h1, h2, h3⟩
      simp [itemCopyValuesAtBeginning, itemAddChunk, hchunks, Chunk.prepend]
    · rw [if_neg hfull] at hroom ⊢
      dsimp only at hroom ⊢
      have htail : tail.WellFormed := hwf tail (by simp [hchunks])
      have hne := htail.nonempty
      have hwithin := htail.within
      refine ⟨tail.prepend values :: rest, ?_, ?_, ?_, ?_⟩
      · simp [itemCopyValuesAtBeginning, hchunks, Chunk.prepend]
      · intro c hc
        rcases List.mem_cons.mp hc with rfl | hc
        · constructor
          · simp only [Chunk.prepend]
            omega
          · exact hwithin
        · exact hwf c (by simp [hchunks, hc])
      · rw [chunkValues_cons, Chunk.values_prepend hroom (by omega), Item.values, hchunks,
          chunkValues_cons, List.append_assoc]
      · intro hpacked
        cases rest with
        | nil =>
          rw [ChunksPacked]
          simp
        | cons d ds =>
          rw [ChunksPacked, List.isChain_cons_cons] at hpacked ⊢
          exact hpacked

/-- The prepending loop puts the values before the cached ones. -/
theorem itemPrependValues_spec (p : Platform V) (values : List (Record V)) (item : Item V)
    (hwf : ChunksWellFormed item.chunks) :
  ∃ chunks, itemPrependValues p item values =
      { item with chunks := chunks, valuesTotal := item.valuesTotal + values.length } ∧
    ChunksWellFormed chunks ∧ chunkValues chunks = values ++ item.values ∧
    (ChunksPacked item.chunks → ChunksPacked chunks)
  := by
  induction hn : values.length using Nat.strongRecOn generalizing values item with
  | _ n ih =>
    rw [itemPrependValues]
    by_cases hnil : values = []
    · rw [dif_pos hnil]
      refine ⟨item.chunks, ?_, hwf, by simp [hnil, Item.values], id⟩
      rw [← hn, hnil]
      simp
    · rw [dif_neg hnil]
      dsimp only
      have hlen := List.length_pos_iff.mpr hnil
      have hroom := itemTailRoom_pos p item values.length
      generalize hk : values.length - min (itemTailRoom p item values.length).2 values.length
        = k
      have hdrop : (values.drop k).length ≤ (itemTailRoom p item values.length).2 := by
        rw [List.length_drop]
        omega
      have hdropne : values.drop k ≠ [] := by
        rw [← List.length_pos_iff, List.length_drop]
        omega
      obtain ⟨chunks, heq, hwf', hvalues, hpacked⟩ :=
        itemTailRoom_copy p (values.drop k) values.length hwf hdropne hdrop
      rw [heq]
      obtain ⟨chunks', heq', hwf'', hvalues', hpacked'⟩ := ih (values.take k).length
        (by rw [List.length_take]; omega) (values.take k)
        { item with
          chunks := chunks, valuesTotal := item.valuesTotal + (values.drop k).length } hwf' rfl
      refine ⟨chunks', ?_, hwf'', ?_, fun h => hpacked' (hpacked h)⟩
      · rw [heq']
        have : item.valuesTotal + ((values.drop k).length : ℤ) + (values.take k).length
            = item.valuesTotal + n := by
          rw [List.length_drop, List.length_take]
          omega
        simp only [this]
      · rw [hvalues', Item.values]
        dsimp only
        rw [hvalues, ← List.append_assoc, List.take_append_drop]

/-- In ascending order the dropped part at the end is the part from a second on. -/
theorem rdropWhile_eq_filter {l : List (Record V)} (h : Ascending l) (sec : ℤ) :
  l.rdropWhile (fun r => sec ≤ r.sec) = l.filter (fun r => r.sec < sec)
  := by
  induction l using List.reverseRecOn with
  | nil => rfl
  | append_singleton l r ih =>
    obtain ⟨hl, -, hcross⟩ := ascending_append.mp h
    by_cases hr : sec ≤ r.sec
    · rw [List.rdropWhile_concat_pos _ _ _ (by simpa using hr), ih hl, List.filter_append,
        List.filter_cons_of_neg (by simpa using hr), List.filter_nil, List.append_nil]
    · rw [List.rdropWhile_concat_neg _ _ _ (by simpa using hr)]
      symm
      apply List.filter_eq_self.mpr
      intro a ha
      rcases List.mem_append.mp ha with ha | ha
      · have := Timespec.sec_le (hcross a ha r (by simp))
        unfold Record.sec at *
        simp
        omega
      · simp only [List.mem_singleton] at ha
        simp [ha]
        omega

/-- The record is of a second before the first cached one. -/
def Item.precededBy (item : Item V) (r : Record V) : Bool :=
  item.values.head?.all fun first => r.sec < first.sec

/-- What an item becomes when records are added before the cached ones. -/
structure Extends (item item' : Item V) (added : List (Record V)) : Prop where
  eq : ∃ chunks total, item' = { item with chunks := chunks, valuesTotal := total }
  wellFormed : ChunksWellFormed item'.chunks
  values : item'.values = added ++ item.values
  packed : ChunksPacked item.chunks → ChunksPacked item'.chunks

theorem Extends.refl (hwf : ChunksWellFormed item.chunks) :
  Extends item item []
  := ⟨⟨item.chunks, item.valuesTotal, rfl⟩, hwf, rfl, id⟩

/-- Sorted records are added up to the first cached second. -/
theorem itemAddValuesAtBeginning_spec (p : Platform V) {values : List (Record V)}
    (hwf : ChunksWellFormed item.chunks) (hasc : Ascending values) :
  Extends item (itemAddValuesAtBeginning p item values) (values.filter item.precededBy)
  := by
  unfold itemAddValuesAtBeginning
  cases hchunks : item.chunks with
  | nil =>
    dsimp only
    have hnil : item.values = [] := by simp [Item.values, hchunks]
    obtain ⟨chunks, heq, hwf', hvalues, hpacked⟩ := itemPrependValues_spec p values item hwf
    rw [heq]
    refine ⟨⟨chunks, _, rfl⟩, hwf', ?_, hpacked⟩
    rw [List.filter_eq_self.mpr (by simp [Item.precededBy, hnil])]
    exact hvalues
  | cons tail rest =>
    dsimp only
    have htail : tail.WellFormed := hwf tail (by simp [hchunks])
    have hhead : item.values.head? = some (tail.slots tail.firstValue) := by
      rw [Item.values, hchunks, chunkValues_cons, htail.values_cons]
      rfl
    obtain ⟨chunks, heq, hwf', hvalues, hpacked⟩ := itemPrependValues_spec p
      (values.rdropWhile fun r => (tail.slots tail.firstValue).sec ≤ r.sec) item hwf
    rw [heq]
    refine ⟨⟨chunks, _, rfl⟩, hwf', ?_, hpacked⟩
    have hfilter : values.filter item.precededBy
        = values.filter (fun r => r.sec < (tail.slots tail.firstValue).sec) := by
      apply List.filter_congr
      intro r _
      rw [Item.precededBy, hhead, Option.all_some]
    rw [hfilter, ← rdropWhile_eq_filter hasc]
    exact hvalues

/-- Records up to the second `bound` the cache covers from, all of them from the second
`start` on, extend the cached part. -/
theorem itemAddRecords_spec (p : Platform V) {bound start : ℤ} {records : List (Record V)}
    (hcoh : Coherent rows now item) (hcov : CoversFrom rows item bound)
    (hrecords : records.Perm (rows.filter fun r => start ≤ r.sec ∧ r.sec < bound)) :
  ∃ added, Extends item (itemAddRecords p item records).1 added ∧
    (itemAddRecords p item records).2 = records.length ∧ added.Perm records ∧
    Ascending (added ++ item.values) ∧
    CoversFrom rows (itemAddRecords p item records).1 (min start bound)
  := by
  have hsec : ∀ r ∈ records, r.sec < bound := by
    intro r hr
    have := (List.mem_filter.mp (hrecords.subset hr)).2
    simp only [decide_eq_true_eq] at this
    exact this.2
  have hcross : ∀ a ∈ records, ∀ b ∈ item.values, a.sec < b.sec := by
    intro a ha b hb
    have := hsec a ha
    have := (hcov.mem.mp hb).2
    omega
  have hcover : ∀ added item', added.Perm records → Extends item item' added →
      CoversFrom rows item' (min start bound) := by
    intro added item' hadded hext
    rw [CoversFrom, hext.values]
    apply ((hadded.trans hrecords).append hcov).trans
    apply ListFilter.filter_append_filter
    · intro r _
      rw [Bool.eq_iff_iff]
      simp
      omega
    · intro r _ hr
      simp at hr ⊢
      omega
  unfold itemAddRecords
  by_cases hpos : 0 < records.length
  · rw [if_pos hpos]
    have hsorted := p.sortAsc_perm records
    have hext := itemAddValuesAtBeginning_spec p hcoh.wellFormed (p.sortAsc_ascending records)
    rw [List.filter_eq_self.mpr] at hext
    · refine ⟨p.sortAsc records, hext, rfl, hsorted, ?_, hcover _ _ hsorted hext⟩
      rw [ascending_append]
      refine ⟨p.sortAsc_ascending records, hcoh.ascending, ?_⟩
      intro a ha b hb
      exact (Timespec.lt_of_sec_lt (hcross a (hsorted.subset ha) b hb)).le
    · intro r hr
      rw [Item.precededBy, Option.all_eq_true]
      intro first hfirst
      rw [decide_eq_true_eq]
      exact hcross r (hsorted.subset hr) first (List.mem_of_mem_head? hfirst)
  · rw [if_neg hpos]
    have hnil : records = [] := List.length_eq_zero_iff.mp (by omega)
    subst hnil
    have hext := Extends.refl hcoh.wellFormed
    exact ⟨[], hext, rfl, List.Perm.refl _, hcoh.ascending, hcover _ _ (List.Perm.refl _) hext⟩

/-- An item whose cached part has been extended to a second stays coherent. -/
theorem Coherent.extend {item' : Item V} {added : List (Record V)} {bound : ℤ}
    (hcoh : Coherent rows now item) (hext : Extends item item' added)
    (hasc : Ascending (added ++ item.values)) (hcov : CoversFrom rows item' bound) :
  Coherent rows now item'
  := by
  obtain ⟨chunks, total, heq⟩ := hext.eq
  have hasc' : Ascending item'.values := by
    rw [hext.values]
    exact hasc
  have hmem : ∀ r ∈ item.values, r ∈ item'.values := by
    intro r hr
    rw [hext.values]
    exact List.mem_append_right _ hr
  refine ⟨hext.wellFormed, hasc', hcov.cachesExactly hasc', ?_, ?_⟩
  · intro hall
    have hall' : item.cachedAll = true := by
      rw [← hall, heq]
    apply hcov.trans
    apply List.Perm.of_eq
    apply List.filter_eq_self.mpr
    intro r hr
    have := (hcov.mem.mp (hmem r ((hcoh.promises.all hall').mem_iff.mpr hr))).2
    simpa using this
  · have hrange : item'.range = item.range := by rw [heq]
    rw [hrange]
    intro hpos r hr hsec
    exact hmem r (hcoh.promises.range hpos r hr hsec)

end ValueCache
