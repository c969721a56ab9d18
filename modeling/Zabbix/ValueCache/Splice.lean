import Mathlib.Data.List.ModifyLast
import Zabbix.ValueCache.AddValue
import Zabbix.ValueCache.Coherence

/-!
# Appending, splicing and cleaning

What the parts of `itemAddValuesAtEnd` do to the list of cached records: appending adds
records behind it, the splice cuts it in two at the late value, and the clean-up drops its
front up to some second. The cut goes wrong in one case, where the search leaves the
second chunk with the index it had there and ends in a tail chunk with free slots.
-/

namespace ValueCache

variable {V : Type*} {rows : List (Record V)} {now : ℤ} {item : Item V}

/-! ### Appending -/

/-- The chunk with values written behind its used slots. -/
def Chunk.append (c : Chunk V) (values : List (Record V)) : Chunk V :=
  { c with
    slots := writeAt c.slots (c.lastValue + 1) values
    lastValue := c.lastValue + values.length }

theorem Chunk.values_append {c : Chunk V} {values : List (Record V)}
    (hlast : (c.firstValue : ℤ) ≤ c.lastValue + 1) :
  (c.append values).values = c.values ++ values
  := by
  have := Slice.slice_writeAt_end (a := c.slots) hlast values
  rw [Chunk.values, append]
  dsimp only
  rw [show c.lastValue + values.length + 1 = c.lastValue + 1 + values.length by omega]
  exact this

theorem chunksPacked_append_singleton {chunks : List (Chunk V)} {c : Chunk V} :
  ChunksPacked (chunks ++ [c]) ↔ ChunksPacked chunks ∧
    ∀ d ∈ chunks.getLast?, d.lastValue + 1 = d.slotsNum ∧ c.firstValue = 0
  := by
  rw [ChunksPacked, List.isChain_append]
  simp [ChunksPacked]

/-- The records of the item before the cursor. -/
def Cursor.before (cur : Cursor V) : List (Record V) :=
  chunkValues cur.older.reverse ++ slice cur.chunk.slots cur.chunk.firstValue cur.index

/-- Removing the values from a cut on leaves those before it. -/
theorem itemRemoveValuesFrom_spec {cur : Cursor V} (hwf : ChunksWellFormed item.chunks)
    (hpacked : ChunksPacked item.chunks) (hcur : cur.In item.chunks) :
  ∃ chunks total, itemRemoveValuesFrom item cur
      = { item with chunks := chunks, valuesTotal := total } ∧
    ChunksWellFormed chunks ∧ chunkValues chunks = cur.before ∧ ChunksPacked chunks
  := by
  have hchunks := hcur.chunks
  have hfirst := hcur.first_le
  have hlast := hcur.le_last
  have hwfo : ChunksWellFormed cur.older.reverse := by
    intro c hc
    apply hwf
    rw [hchunks]
    exact List.mem_append_left _ hc
  have hpackedo : ChunksPacked cur.older.reverse := by
    rw [hchunks] at hpacked
    exact (List.isChain_append.mp hpacked).1
  unfold itemRemoveValuesFrom
  dsimp only
  by_cases hdrop : cur.index - 1 < cur.chunk.firstValue
  · have hbefore : cur.before = chunkValues cur.older.reverse := by
      rw [Cursor.before, Slice.slice_of_le (by omega), List.append_nil]
    rw [if_pos hdrop]
    cases holder : cur.older with
    | nil =>
      refine ⟨[], 0, rfl, by simp [ChunksWellFormed], ?_, by simp [ChunksPacked]⟩
      rw [hbefore, holder]
      rfl
    | cons prev rest =>
      dsimp only
      rw [← holder]
      exact ⟨_, _, rfl, hwfo, hbefore.symm, hpackedo⟩
  · rw [if_neg hdrop]
    refine ⟨_, _, rfl, ?_, ?_, ?_⟩
    · intro c hc
      rcases List.mem_append.mp hc with hc | hc
      · exact hwfo c hc
      · rw [List.mem_singleton.mp hc]
        have hchunk : cur.chunk.WellFormed := hwf _ (by rw [hchunks]; simp)
        have hwithin := hchunk.within
        constructor
        · dsimp only
          omega
        · dsimp only
          omega
    · rw [chunkValues_append, chunkValues_cons, Chunk.values, Cursor.before, chunkValues_nil]
      simp
    · rw [chunksPacked_append_singleton]
      refine ⟨hpackedo, ?_⟩
      intro d hd
      rw [hchunks, ChunksPacked, List.isChain_append] at hpacked
      exact hpacked.2.2 d hd cur.chunk (by simp)

/-! ### Clean-up -/

/-- The loop moves past values of the second and stops at another second. -/
theorem trimLoop_spec (slots : ℤ → Record V) (sec : ℤ) (rounds firstValue : ℕ) :
  firstValue ≤ trimLoop slots sec rounds firstValue ∧
    trimLoop slots sec rounds firstValue ≤ firstValue + rounds ∧
    (∀ k : ℤ, firstValue ≤ k → k < trimLoop slots sec rounds firstValue →
      (slots k).sec = sec) ∧
    (trimLoop slots sec rounds firstValue < firstValue + rounds →
      (slots (trimLoop slots sec rounds firstValue)).sec ≠ sec)
  := by
  induction rounds generalizing firstValue with
  | zero =>
    refine ⟨le_rfl, le_rfl, ?_, ?_⟩
    · intro k h1 h2
      rw [trimLoop] at h2
      omega
    · intro h
      rw [trimLoop] at h
      omega
  | succ rounds ih =>
    rw [trimLoop]
    by_cases hsec : (slots firstValue).sec = sec
    · rw [if_pos hsec]
      obtain ⟨h1, h2, h3, h4⟩ := ih (firstValue + 1)
      refine ⟨by omega, by omega, ?_, fun h => h4 (by omega)⟩
      intro k hk hlt
      by_cases heq : k = firstValue
      · rw [heq]
        exact hsec
      · exact h3 k (by push_cast; omega) hlt
    · rw [if_neg hsec]
      exact ⟨le_rfl, by omega, fun k h1 h2 => by omega, fun _ => hsec⟩

/-- The trimmed chunk keeps the values after the second, or it is of that second whole and
stays as it is. -/
theorem trimChunk_spec {next : Chunk V} {sec : ℤ} (hwf : next.WellFormed)
    (hasc : Ascending next.values) (hsec : sec ≤ (next.slots next.firstValue).sec) :
  (trimChunk sec next).WellFormed ∧ (trimChunk sec next).slots = next.slots ∧
    (trimChunk sec next).lastValue = next.lastValue ∧
    (trimChunk sec next).slotsNum = next.slotsNum ∧
    ((trimChunk sec next).values = next.values.filter (fun r => sec < r.sec) ∧
        sec < (next.slots next.lastValue).sec ∨
      trimChunk sec next = next ∧ (next.slots next.lastValue).sec = sec)
  := by
  have hne := hwf.nonempty
  have hmono := sec_mono hasc le_rfl hne le_rfl
  unfold trimChunk
  by_cases hdiff : (next.slots next.firstValue).sec ≠ (next.slots next.lastValue).sec
  · rw [if_pos hdiff]
    obtain ⟨h1, h2, h3, h4⟩ := trimLoop_spec next.slots sec
      (next.lastValue - next.firstValue).toNat next.firstValue
    generalize trimLoop next.slots sec (next.lastValue - next.firstValue).toNat
      next.firstValue = k at h1 h2 h3 h4
    have hk : (k : ℤ) ≤ next.lastValue := by omega
    have hlast : sec < (next.slots next.lastValue).sec := by
      unfold Record.sec at *
      omega
    have hksec : sec < (next.slots k).sec := by
      by_cases hklast : (k : ℤ) = next.lastValue
      · rw [hklast]
        exact hlast
      · have hne' := h4 (by omega)
        have := sec_mono hasc le_rfl (by omega : (next.firstValue : ℤ) ≤ k) hk
        unfold Record.sec at *
        omega
    refine ⟨⟨hk, hwf.within⟩, rfl, rfl, rfl, Or.inl ⟨?_, hlast⟩⟩
    rw [Chunk.values, Chunk.values, ← Slice.slice_append (a := next.slots)
      (by omega : (next.firstValue : ℤ) ≤ k) (by omega : (k : ℤ) ≤ next.lastValue + 1)]
    symm
    apply ListFilter.filter_append_eq_rest
    · intro r hr
      obtain ⟨i, hi, hik, rfl⟩ := Slice.mem_slice.mp hr
      have := h3 i hi hik
      simp only [decide_eq_true_eq]
      omega
    · intro r hr
      obtain ⟨i, hi, hik, rfl⟩ := Slice.mem_slice.mp hr
      have := sec_mono hasc (by omega : (next.firstValue : ℤ) ≤ k) hi (by omega)
      simp only [decide_eq_true_eq]
      unfold Record.sec at *
      omega
  · rw [if_neg hdiff]
    push Not at hdiff
    refine ⟨hwf, rfl, rfl, rfl, ?_⟩
    by_cases heq : (next.slots next.lastValue).sec = sec
    · exact Or.inr ⟨rfl, heq⟩
    · left
      have hlt : sec < (next.slots next.firstValue).sec := by omega
      refine ⟨?_, by omega⟩
      symm
      apply List.filter_eq_self.mpr
      intro r hr
      obtain ⟨i, hi, hilast, rfl⟩ := Slice.mem_slice.mp hr
      have := sec_mono hasc le_rfl hi (by omega)
      simp only [decide_eq_true_eq]
      unfold Record.sec at *
      omega

/-- The clean-up drops the records up to some second before the limit; it drops the tail
chunk if that ends before the limit, and nothing otherwise. -/
structure Drops (timestamp cut : ℤ) (chunk : Chunk V) (rest cleaned : List (Chunk V)) :
    Prop where
  values : chunkValues cleaned = (chunkValues (chunk :: rest)).filter fun r => cut < r.sec
  lt : cut < timestamp
  wellFormed : ChunksWellFormed cleaned
  removed : (chunk.slots chunk.lastValue).sec < timestamp →
    (chunk.slots chunk.lastValue).sec ≤ cut ∧ cleaned.length < (chunk :: rest).length
  kept : ¬ (chunk.slots chunk.lastValue).sec < timestamp → cleaned = chunk :: rest

/-- When the tail chunk does not end before the limit, nothing is dropped. -/
theorem Drops.kept_all {timestamp : ℤ} {chunk : Chunk V} {rest : List (Chunk V)}
    (hwf : ChunksWellFormed (chunk :: rest)) (hasc : Ascending (chunkValues (chunk :: rest)))
    (hlast : ¬ (chunk.slots chunk.lastValue).sec < timestamp) :
  Drops timestamp (min timestamp (chunk.slots chunk.firstValue).sec - 1) chunk rest
    (chunk :: rest)
  := by
  refine ⟨?_, by omega, hwf, fun h => absurd h hlast, fun _ => rfl⟩
  symm
  apply List.filter_eq_self.mpr
  intro r hr
  have := Timespec.sec_le (first_le_of_mem (hwf chunk List.mem_cons_self) hasc r hr)
  simp only [decide_eq_true_eq]
  unfold Record.sec at *
  omega

/-- No record of a chunk in order is after its last one. -/
theorem Chunk.sec_le_last {c : Chunk V} (h : Ascending c.values) :
  ∀ r ∈ c.values, r.sec ≤ (c.slots c.lastValue).sec
  := by
  intro r hr
  obtain ⟨i, hi, hilast, rfl⟩ := Slice.mem_slice.mp hr
  exact sec_mono h hi (by omega) le_rfl

/-- What trimming does to the chunks behind a removed one. -/
structure Trims (sec : ℤ) (next trimmed : Chunk V) (rest : List (Chunk V)) : Prop where
  wellFormed : ChunksWellFormed (trimmed :: rest)
  ascending : Ascending (chunkValues (trimmed :: rest))
  slots : trimmed.slots = next.slots
  lastValue : trimmed.lastValue = next.lastValue
  slotsNum : trimmed.slotsNum = next.slotsNum
  values : chunkValues (trimmed :: rest) = (chunkValues (next :: rest)).filter (sec < ·.sec) ∨
    trimmed = next ∧ (next.slots next.lastValue).sec = sec

theorem trimChunk_trims {chunk next : Chunk V} {rest : List (Chunk V)}
    (hwf : ChunksWellFormed (chunk :: next :: rest))
    (hasc : Ascending (chunkValues (chunk :: next :: rest))) :
  Trims (chunk.slots chunk.lastValue).sec next
    (trimChunk (chunk.slots chunk.lastValue).sec next) rest
  := by
  have hchunk := hwf chunk List.mem_cons_self
  have hnext := hwf next (by simp)
  rw [chunkValues_cons, ascending_append] at hasc
  obtain ⟨-, hasc, hcross⟩ := hasc
  have hfirst : (chunk.slots chunk.lastValue).sec ≤ (next.slots next.firstValue).sec := by
    apply Timespec.sec_le
    apply hcross _ hchunk.mem_last
    rw [chunkValues_cons]
    exact List.mem_append_left _ hnext.mem_first
  have hascn := hasc
  rw [chunkValues_cons, ascending_append] at hascn
  obtain ⟨htrimwf, hslots, hlastv, hslotsNum, htrim⟩ := trimChunk_spec hnext hascn.1 hfirst
  generalize trimChunk (chunk.slots chunk.lastValue).sec next = trimmed at *
  have hsublist : trimmed.values.Sublist next.values := by
    rcases htrim with ⟨heq, -⟩ | ⟨rfl, -⟩
    · rw [heq]
      exact List.filter_sublist
    · exact List.Sublist.refl _
  refine ⟨?_, List.Pairwise.sublist (hsublist.append_right (chunkValues rest)) hasc, hslots,
    hlastv, hslotsNum, ?_⟩
  · intro c hc
    rcases List.mem_cons.mp hc with rfl | hc
    · exact htrimwf
    · exact hwf c (by simp [hc])
  · rcases htrim with ⟨heq, hgt⟩ | ⟨rfl, heq⟩
    · -- the trimmed chunk and those behind are the records after the second
      left
      rw [chunkValues_cons, chunkValues_cons, List.filter_append, ← heq]
      congr 1
      symm
      apply List.filter_eq_self.mpr
      intro r hr
      have := Timespec.sec_le (hascn.2.2 _ hnext.mem_last r hr)
      simp only [decide_eq_true_eq]
      unfold Record.sec at *
      omega
    · exact Or.inr ⟨rfl, heq⟩

theorem cleanChunks_drops (timestamp : ℤ) (chunk : Chunk V) (rest : List (Chunk V)) (total : ℤ)
    (hwf : ChunksWellFormed (chunk :: rest)) (hasc : Ascending (chunkValues (chunk :: rest))) :
  ∃ cut, Drops timestamp cut chunk rest (cleanChunks timestamp chunk rest total).1
  := by
  induction rest generalizing chunk total with
  | nil =>
    rw [cleanChunks]
    by_cases hlast : (chunk.slots chunk.lastValue).sec < timestamp
    · rw [if_pos hlast]
      refine ⟨_, ?_, hlast, by simp [ChunksWellFormed], fun _ => ⟨le_rfl, by simp⟩,
        fun h => absurd hlast h⟩
      rw [chunkValues_cons, chunkValues_nil, List.append_nil] at hasc ⊢
      symm
      apply List.filter_eq_nil_iff.mpr
      intro r hr
      have := Chunk.sec_le_last hasc r hr
      simp only [decide_eq_true_eq]
      omega
    · rw [if_neg hlast]
      exact ⟨_, Drops.kept_all hwf hasc hlast⟩
  | cons next rest ih =>
    rw [cleanChunks]
    by_cases hlast : (chunk.slots chunk.lastValue).sec < timestamp
    · rw [if_pos hlast]
      dsimp only
      have htrims := trimChunk_trims hwf hasc
      generalize trimChunk (chunk.slots chunk.lastValue).sec next = trimmed at *
      obtain ⟨cut, hclean⟩ := ih trimmed
        (total - (trimmed.firstValue - next.firstValue) - chunk.valuesNum)
        htrims.wellFormed htrims.ascending
      refine ⟨max (chunk.slots chunk.lastValue).sec cut, ?_, max_lt hlast hclean.lt,
        hclean.wellFormed, ?_, ?_⟩
      · have hgone : chunk.values.filter
            (fun r => max (chunk.slots chunk.lastValue).sec cut < r.sec) = [] := by
          rw [chunkValues_cons, ascending_append] at hasc
          apply List.filter_eq_nil_iff.mpr
          intro r hr
          have := Chunk.sec_le_last hasc.1 r hr
          simp only [decide_eq_true_eq]
          omega
        rw [hclean.values, chunkValues_cons chunk, List.filter_append, hgone, List.nil_append]
        rcases htrims.values with hall | ⟨rfl, heq⟩
        · rw [hall, List.filter_filter]
          apply List.filter_congr
          intro r _
          rw [Bool.eq_iff_iff]
          simp
          omega
        · -- the next chunk is of one second and goes as well
          have hcut := (hclean.removed (by rw [heq]; exact hlast)).1
          rw [max_eq_right (by omega)]
      · intro _
        refine ⟨le_max_left _ _, ?_⟩
        by_cases hgone : (trimmed.slots trimmed.lastValue).sec < timestamp
        · have := (hclean.removed hgone).2
          simp only [List.length_cons] at this ⊢
          omega
        · rw [hclean.kept hgone]
          simp
      · intro h
        exact absurd hlast h
    · rw [if_neg hlast]
      exact ⟨_, Drops.kept_all hwf hasc hlast⟩

theorem trimChunk_lastValue (sec : ℤ) (next : Chunk V) :
  (trimChunk sec next).lastValue = next.lastValue ∧
    (trimChunk sec next).slotsNum = next.slotsNum
  := by
  rw [trimChunk]
  split <;> exact ⟨rfl, rfl⟩

theorem cleanChunks_packed (timestamp : ℤ) (chunk : Chunk V) (rest : List (Chunk V)) (total : ℤ)
    (hpacked : ChunksPacked (chunk :: rest)) :
  ChunksPacked (cleanChunks timestamp chunk rest total).1
  := by
  induction rest generalizing chunk total with
  | nil =>
    rw [cleanChunks]
    split
    · exact List.isChain_nil
    · exact hpacked
  | cons next rest ih =>
    rw [cleanChunks]
    split
    · apply ih
      have hrest : ChunksPacked (next :: rest) := (List.isChain_cons.mp hpacked).2
      obtain ⟨hlastv, hslotsNum⟩ := trimChunk_lastValue (chunk.slots chunk.lastValue).sec next
      rw [ChunksPacked, List.isChain_cons] at hrest ⊢
      rw [hlastv, hslotsNum]
      exact hrest
    · exact hpacked

/-- The clean-up keeps the chunks packed as well. -/
structure CleansUpTo (timestamp cut : ℤ) (chunk : Chunk V) (rest cleaned : List (Chunk V)) :
    Prop where
  values : chunkValues cleaned = (chunkValues (chunk :: rest)).filter fun r => cut < r.sec
  lt : cut < timestamp
  wellFormed : ChunksWellFormed cleaned
  packed : ChunksPacked cleaned
  removed : (chunk.slots chunk.lastValue).sec < timestamp →
    (chunk.slots chunk.lastValue).sec ≤ cut ∧ cleaned.length < (chunk :: rest).length
  kept : ¬ (chunk.slots chunk.lastValue).sec < timestamp → cleaned = chunk :: rest

theorem cleanChunks_spec (timestamp : ℤ) (chunk : Chunk V) (rest : List (Chunk V)) (total : ℤ)
    (hwf : ChunksWellFormed (chunk :: rest)) (hpacked : ChunksPacked (chunk :: rest))
    (hasc : Ascending (chunkValues (chunk :: rest))) :
  ∃ cut, CleansUpTo timestamp cut chunk rest (cleanChunks timestamp chunk rest total).1
  := by
  obtain ⟨cut, hdrops⟩ := cleanChunks_drops timestamp chunk rest total hwf hasc
  exact ⟨cut, hdrops.values, hdrops.lt, hdrops.wellFormed,
    cleanChunks_packed timestamp chunk rest total hpacked, hdrops.removed, hdrops.kept⟩

end ValueCache
