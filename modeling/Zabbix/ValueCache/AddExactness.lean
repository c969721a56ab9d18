import Zabbix.ValueCache.AddOutcome

/-!
# When adding a value keeps the cache exact

`zbx_vc_add_value` follows the database write of the value. Afterwards the cache is exact
again, except in three situations: the value goes into an empty cache although the
database holds records that are not older; it is skipped although it is of the second of
the first cached record, which later requests do not read again; or the search for its
place ends in the free slots of the tail chunk. The promises are kept in any case.
-/

namespace ValueCache

variable {V : Type*} {rows : List (Record V)} {now : ℤ} {item item' : Item V} {value : Record V}

/-! ### Exactness and promises through a clean-up -/

theorem CleanedTo.mem {cut : ℤ} (h : CleanedTo now item item' cut) {r : Record V} :
  r ∈ item'.values ↔ r ∈ item.values ∧ cut < r.sec
  := by
  rw [h.values]
  simp

/-- A clean-up keeps the cache exact. -/
theorem CleanedTo.cachesExactly {cut : ℤ} (h : CleanedTo now item item' cut)
    (hexact : CachesExactly rows item) :
  CachesExactly rows item'
  := by
  cases hfirst : item.values.head? with
  | none =>
    intro first hfirst'
    have hmem := (h.mem.mp (List.mem_of_mem_head? hfirst')).1
    simp [List.head?_eq_none_iff.mp hfirst] at hmem
  | some first =>
    have hcov := hexact first hfirst
    have hcov' : CoversFrom rows item' (max first.sec (cut + 1)) := by
      rw [CoversFrom, h.values]
      apply (hcov.filter _).trans
      rw [List.filter_filter]
      apply List.Perm.of_eq
      apply List.filter_congr
      intro r _
      rw [Bool.eq_iff_iff]
      simp
      omega
    exact hcov'.cachesExactly h.sound.ascending

/-- A value in its place, not before the first cached one, keeps the cache exact. -/
theorem AddsRecords.cachesExactly (h : AddsRecords item item' [value])
    (hexact : CachesExactly rows item) {first : Record V} (hfirst : first ∈ item.values.head?)
    (hle : first.timestamp ≤ value.timestamp) :
  CachesExactly (rows ++ [value]) item'
  := by
  have hsec := Timespec.sec_le hle
  have hcov : CoversFrom (rows ++ [value]) item' first.sec := by
    apply h.perm.trans
    apply ((hexact first hfirst).append_left [value]).trans
    rw [List.filter_append, List.filter_cons_of_pos (by simpa using hsec), List.filter_nil]
    exact List.perm_append_comm
  exact hcov.cachesExactly h.sound.ascending

variable {p : Platform V} {reused : Bool}

/-- Two chunks that differ in their unused slots only. -/
structure Chunk.SameUsed (c c' : Chunk V) : Prop where
  firstValue : c'.firstValue = c.firstValue
  lastValue : c'.lastValue = c.lastValue
  slotsNum : c'.slotsNum = c.slotsNum
  slots : ∀ i, (c.firstValue : ℤ) ≤ i → i ≤ c.lastValue → c'.slots i = c.slots i

/-- Two items that differ in the unused slots of their chunks only. -/
structure SameRecords (item item' : Item V) : Prop where
  eq : item' = { item with chunks := item'.chunks }
  chunks : List.Forall₂ Chunk.SameUsed item.chunks item'.chunks

theorem Chunk.SameUsed.refl (c : Chunk V) :
  c.SameUsed c
  := ⟨rfl, rfl, rfl, fun _ _ _ => rfl⟩

theorem SameRecords.refl (item : Item V) :
  SameRecords item item
  := by
  refine ⟨rfl, ?_⟩
  induction item.chunks with
  | nil => exact List.Forall₂.nil
  | cons c chunks ih => exact List.Forall₂.cons (Chunk.SameUsed.refl c) ih

theorem Chunk.SameUsed.values {c c' : Chunk V} (h : c.SameUsed c') :
  c'.values = c.values
  := by
  rw [Chunk.values, Chunk.values, h.firstValue, h.lastValue]
  apply Slice.slice_congr
  intro k hk hlt
  exact h.slots k hk (by omega)

theorem chunkValues_sameUsed {chunks chunks' : List (Chunk V)}
    (h : List.Forall₂ Chunk.SameUsed chunks chunks') :
  chunkValues chunks' = chunkValues chunks
  := by
  induction h with
  | nil => rfl
  | cons hc _ ih => rw [chunkValues_cons, chunkValues_cons, hc.values, ih]

theorem SameRecords.values (h : SameRecords item item') :
  item'.values = item.values
  := chunkValues_sameUsed h.chunks

theorem chunksPacked_sameUsed {chunks chunks' : List (Chunk V)}
    (h : List.Forall₂ Chunk.SameUsed chunks chunks') (hpacked : ChunksPacked chunks) :
  ChunksPacked chunks'
  := by
  induction h with
  | nil => exact hpacked
  | cons hc htail ih =>
    rw [ChunksPacked, List.isChain_cons] at hpacked ⊢
    refine ⟨?_, ih hpacked.2⟩
    intro d' hd'
    cases htail with
    | nil => simp at hd'
    | cons hd _ =>
      rw [List.head?_cons, Option.mem_some_iff] at hd'
      have hpair := hpacked.1 _ (by rw [List.head?_cons]; rfl)
      rw [hc.lastValue, hc.slotsNum, ← hd', hd.firstValue]
      exact hpair

theorem chunksWellFormed_sameUsed {chunks chunks' : List (Chunk V)}
    (h : List.Forall₂ Chunk.SameUsed chunks chunks') (hwf : ChunksWellFormed chunks) :
  ChunksWellFormed chunks'
  := by
  induction h with
  | nil => exact hwf
  | cons hc _ ih =>
    intro c' hc'
    rcases List.mem_cons.mp hc' with rfl | hc'
    · have hcwf := hwf _ List.mem_cons_self
      constructor
      · rw [hc.firstValue, hc.lastValue]
        exact hcwf.nonempty
      · rw [hc.lastValue, hc.slotsNum]
        exact hcwf.within
    · exact ih (fun d hd => hwf d (List.mem_cons_of_mem _ hd)) c' hc'

theorem SameRecords.sound (h : SameRecords item item') (hsound : item.Sound) :
  item'.Sound
  := by
  refine ⟨chunksWellFormed_sameUsed h.chunks hsound.wellFormed,
    chunksPacked_sameUsed h.chunks hsound.packed, ?_⟩
  rw [h.values]
  exact hsound.ascending

theorem Chunk.SameUsed.symm {c c' : Chunk V} (h : c.SameUsed c') :
  c'.SameUsed c
  := by
  refine ⟨h.firstValue.symm, h.lastValue.symm, h.slotsNum.symm, ?_⟩
  intro i hi hlast
  rw [h.firstValue] at hi
  rw [h.lastValue] at hlast
  exact (h.slots i hi hlast).symm

theorem SameRecords.symm (h : SameRecords item item') :
  SameRecords item' item
  := by
  refine ⟨?_, List.Forall₂.flip (List.Forall₂.imp (fun _ _ hc => hc.symm) h.chunks)⟩
  rw [h.eq]

end ValueCache
