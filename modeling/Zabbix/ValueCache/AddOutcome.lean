import Zabbix.ValueCache.Splice

/-!
# What adding a value does to an item

The outcomes of `itemAddValuesAtEnd` for one value, and of `itemRelease`, in terms of the
cached records: the value is put in its place, or skipped, or, when the splice goes
wrong, put in together with the contents of the tail chunk's free slots; the release
drops the front of the cache up to some second or removes the item.
-/

namespace ValueCache

variable {V : Type*} {rows : List (Record V)} {now : ℤ} {item : Item V}

/-- An item whose chunks are in shape and whose records are in order. -/
structure Item.Sound (item : Item V) : Prop where
  wellFormed : ChunksWellFormed item.chunks
  packed : ChunksPacked item.chunks
  ascending : Ascending item.values

/-- The item has got the records besides its own, and nothing else has changed but its
chunks and the request for a clean-up. -/
structure AddsRecords (item item' : Item V) (added : List (Record V)) : Prop where
  eq : ∃ chunks total pending, item' =
    { item with chunks := chunks, valuesTotal := total, cleanPending := pending }
  sound : item'.Sound
  perm : item'.values.Perm (added ++ item.values)

theorem Item.Sound.tail (h : item.Sound) {tail : Chunk V} {rest : List (Chunk V)}
    (hchunks : item.chunks = tail :: rest) :
  tail.WellFormed
  := h.wellFormed tail (by simp [hchunks])

/-- The first cached record. -/
theorem Item.Sound.first_le (h : item.Sound) {tail : Chunk V} {rest : List (Chunk V)}
    (hchunks : item.chunks = tail :: rest) :
  ∀ r ∈ item.values, (tail.slots tail.firstValue).timestamp ≤ r.timestamp
  := by
  have hasc := h.ascending
  unfold Item.values at hasc ⊢
  rw [hchunks] at hasc ⊢
  exact first_le_of_mem (h.tail hchunks) hasc

theorem Item.Sound.first_mem (h : item.Sound) {tail : Chunk V} {rest : List (Chunk V)}
    (hchunks : item.chunks = tail :: rest) :
  item.values.head? = some (tail.slots tail.firstValue)
  := by
  rw [Item.values, hchunks, chunkValues_cons, (h.tail hchunks).values_cons]
  rfl

/-- The last cached record. -/
theorem Item.Sound.le_last (h : item.Sound) {front : List (Chunk V)} {head : Chunk V}
    (hchunks : item.chunks = front ++ [head]) :
  head.slots head.lastValue ∈ item.values ∧
    ∀ r ∈ item.values, r.timestamp ≤ (head.slots head.lastValue).timestamp
  := by
  have hhead : head.WellFormed := h.wellFormed head (by simp [hchunks])
  have hin : Cursor.In ⟨[], head, front.reverse, head.lastValue⟩ item.chunks := by
    refine ⟨?_, hhead.nonempty, le_rfl⟩
    simpa using hchunks
  have hvalues : item.values = Cursor.upTo ⟨[], head, front.reverse, head.lastValue⟩ := by
    rw [Item.values, hin.values_eq, Cursor.after, Slice.slice_of_le le_rfl]
    simp
  constructor
  · rw [hvalues, hin.upTo_eq_concat]
    simp
  · rw [hvalues]
    exact hin.le_of_mem_upTo h.ascending

/-- The release of an item cleans up its tail chunk. -/
def ReleaseDropsTail (now : ℤ) (item : Item V) : Prop :=
  item.refcount = 1 ∧ item.cleanPending = true ∧ item.range ≠ 0 ∧
    ∃ tail ∈ item.chunks.head?,
      (tail.slots tail.lastValue).sec < now - item.range - secPerMin

/-- The item has lost its records up to a second, and `cachedAll` is no longer set if it
has lost any. -/
structure CleanedTo (now : ℤ) (item item' : Item V) (cut : ℤ) : Prop where
  values : item'.values = item.values.filter fun r => cut < r.sec
  lt : cut < now - item.range - secPerMin
  sound : item'.Sound
  valueType : item'.valueType = item.valueType
  range : item'.range = item.range
  all : item'.cachedAll = true → item.cachedAll = true ∧ item'.values = item.values
  removed : ReleaseDropsTail now item → ∀ tail ∈ item.chunks.head?,
    (tail.slots tail.lastValue).sec ≤ cut
  kept : ¬ ReleaseDropsTail now item → item'.values = item.values

/-- An item that is left as it is, but for its counter and flags. -/
theorem CleanedTo.of_kept (hsound : item.Sound) (hdrops : ¬ ReleaseDropsTail now item)
    (refcount : ℤ) (clean remove : Bool) :
  ∃ cut, CleanedTo now item
    { item with refcount := refcount, cleanPending := clean, removePending := remove } cut
  := by
  obtain ⟨start, hstart⟩ := exists_le_sec item.values
  use min (start - 1) (now - item.range - secPerMin - 1)
  refine ⟨?_, by omega, ⟨hsound.wellFormed, hsound.packed, hsound.ascending⟩, rfl, rfl,
    fun h => ⟨h, rfl⟩, fun h => absurd h hdrops, fun _ => rfl⟩
  symm
  apply List.filter_eq_self.mpr
  intro r hr
  have := hstart r hr
  simp only [decide_eq_true_eq]
  omega

/-- A released item is removed, or it has been cleaned up to some second. -/
theorem itemRelease_spec (now : ℤ) (hsound : item.Sound) :
  match itemRelease now item with
  | none => item.refcount = 1 ∧ item.removePending = true
  | some item' => ¬ (item.refcount = 1 ∧ item.removePending = true) ∧
    ∃ cut, CleanedTo now item item' cut
  := by
  unfold itemRelease
  dsimp only
  by_cases hcount : item.refcount - 1 = 0
  · rw [if_pos hcount]
    by_cases hremove : item.removePending = true
    · rw [if_pos hremove]
      exact ⟨by omega, hremove⟩
    · rw [if_neg hremove]
      refine ⟨fun h => hremove h.2, ?_⟩
      by_cases hclean : item.cleanPending = true
      · rw [if_pos hclean]
        unfold itemCleanCache
        dsimp only
        by_cases hrange : item.range ≠ 0
        · rw [if_pos hrange]
          cases hchunks : item.chunks with
          | nil =>
            have hdrops : ¬ ReleaseDropsTail now item := by
              rintro ⟨-, -, -, tail, htail, -⟩
              simp [hchunks] at htail
            have hkept := CleanedTo.of_kept hsound hdrops (item.refcount - 1) false false
            rw [hchunks] at hkept
            exact hkept
          | cons tail rest =>
            have hwf := hsound.wellFormed
            have hpacked := hsound.packed
            have hasc := hsound.ascending
            unfold Item.values at hasc
            rw [hchunks] at hwf hpacked hasc
            obtain ⟨cut, hcleans⟩ := cleanChunks_spec (now - item.range - secPerMin) tail rest
              item.valuesTotal hwf hpacked hasc
            dsimp only
            generalize cleanChunks (now - item.range - secPerMin) tail rest item.valuesTotal
              = cleaned at hcleans
            have hvalues : item.values = chunkValues (tail :: rest) := by
              rw [Item.values, hchunks]
            have hhead : ∀ t ∈ item.chunks.head?, t = tail := by
              intro t ht
              rw [hchunks, List.head?_cons, Option.mem_some_iff] at ht
              exact ht.symm
            have hfit : ReleaseDropsTail now item ↔
                (tail.slots tail.lastValue).sec < now - item.range - secPerMin := by
              constructor
              · rintro ⟨-, -, -, t, ht, hlt⟩
                rwa [hhead t ht] at hlt
              · intro hlt
                exact ⟨by omega, hclean, hrange, tail, by rw [hchunks]; rfl, hlt⟩
            refine ⟨cut, ?_, hcleans.lt, ⟨hcleans.wellFormed, hcleans.packed, ?_⟩, rfl, rfl,
              ?_, ?_, ?_⟩
            · rw [hvalues]
              exact hcleans.values
            · rw [Item.values]
              dsimp only
              rw [hcleans.values]
              exact hasc.filter _
            · intro hall
              simp only [Bool.and_eq_true, decide_eq_true_eq] at hall
              refine ⟨hall.1, ?_⟩
              rw [hvalues, Item.values]
              dsimp only
              rw [hcleans.kept]
              intro hlt
              have := (hcleans.removed hlt).2
              omega
            · intro hdrops t ht
              rw [hhead t ht]
              exact (hcleans.removed (hfit.mp hdrops)).1
            · intro hdrops
              rw [hvalues, Item.values]
              dsimp only
              rw [hcleans.kept (mt hfit.mpr hdrops)]
        · rw [if_neg hrange]
          apply CleanedTo.of_kept hsound
          rintro ⟨-, -, hne, -⟩
          exact hrange hne
      · rw [if_neg hclean]
        apply CleanedTo.of_kept hsound
        rintro ⟨-, hpending, -⟩
        exact hclean hpending
  · rw [if_neg hcount]
    refine ⟨fun h => hcount (by omega), ?_⟩
    apply CleanedTo.of_kept hsound
    rintro ⟨hone, -⟩
    omega

end ValueCache
