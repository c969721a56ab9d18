import Zabbix.Memory.Operations

/-!
# Freeing in a layout

Freeing makes a chunk and its free neighbours one free chunk.
-/

namespace Memory

/-- A chunk is freed: what is before it, the chunk, what is after it, and what becomes of
all that. -/
inductive Freed : List Chunk → Chunk → List Chunk → List Chunk → Prop where
  | both {before after : List Chunk} {c p n : Chunk} (hp : p.kind = .free)
      (hn : n.kind = .free) :
      Freed (before ++ [p]) c (n :: after)
        (before ++ ⟨p.addr, c.size + 32 + p.size + n.size, .free⟩ :: after)
  | prev {before after : List Chunk} {c p : Chunk} (hp : p.kind = .free)
      (hafter : ∀ n ∈ after.head?, n.kind ≠ .free) :
      Freed (before ++ [p]) c after (before ++ ⟨p.addr, c.size + 16 + p.size, .free⟩ :: after)
  | next {before after : List Chunk} {c n : Chunk}
      (hbefore : ∀ p ∈ before.getLast?, p.kind ≠ .free) (hn : n.kind = .free) :
      Freed before c (n :: after) (before ++ ⟨c.addr, c.size + 16 + n.size, .free⟩ :: after)
  | alone {before after : List Chunk} {c : Chunk}
      (hbefore : ∀ p ∈ before.getLast?, p.kind ≠ .free)
      (hafter : ∀ n ∈ after.head?, n.kind ≠ .free) :
      Freed before c after (before ++ ⟨c.addr, c.size, .free⟩ :: after)

theorem Freed.sizeOf {before after chunks : List Chunk} {c : Chunk}
    (h : Freed before c after chunks) (hused : c.kind = .used) :
  sizeOf .used (before ++ c :: after) = sizeOf .used chunks + c.size ∧
  16 * (before ++ c :: after).length + sizeOf .free (before ++ c :: after) + c.size
    = 16 * chunks.length + sizeOf .free chunks
  := by
  cases h <;> simp [*] <;> omega

namespace Layout

variable {info : Info} {chunks before after : List Chunk} {lists : ℕ → List ℕ} {c : Chunk}

/-- Neighbouring chunks that are not free become one free chunk. -/
theorem coalesce {middle : List Chunk} {addr size : ℕ}
    (h : Layout info (before ++ (middle ++ after)) lists) (hmiddle : ∀ c ∈ middle, c.kind ≠ .free)
    (hsize : ProperSize size)
    (htiles : Tiles 16 info.loBound info.hiBound
      (before ++ (⟨addr, size, .loose⟩ :: after))) :
  (∃ lists', Layout ((info.memSetChunkSize addr size).memLinkChunk addr)
    (before ++ ⟨addr, size, .free⟩ :: after) lists') ∧
  ∀ d ∈ before ++ after, d.kind ≠ .free →
    Kept info.mem ((info.memSetChunkSize addr size).memLinkChunk addr).mem d
  := by
  have hloose : Layout info (before ++ ([⟨addr, size, .loose⟩] ++ after)) lists := by
    apply h.reshape hmiddle _ htiles
    simpa using hsize
  exact hloose.makeFree rfl

/-- A segment becomes another one by freeing a chunk. -/
def FreesTo (info info' : Info) (before : List Chunk) (c : Chunk) (after : List Chunk) : Prop :=
  ∃ chunks' lists', Freed before c after chunks' ∧ Layout info' chunks' lists' ∧
    (∀ d ∈ before ++ after, d.kind ≠ .free → Kept info.mem info'.mem d) ∧
    (Accounted info (before ++ c :: after) → Accounted info' chunks')

/-- The counters after a chunk has been merged with its free neighbours. -/
theorem accounted_of_freed {info' : Info} {chunks' : List Chunk} {lists' : ℕ → List ℕ}
    (merged : ℕ) (h : Layout info' chunks' lists') (hfreed : Freed before c after chunks')
    (hused : c.kind = .used)
    (hmerged : (before ++ c :: after).length = chunks'.length + merged)
    (hu : info'.usedSize = wrapSub info.usedSize c.size)
    (hf : info'.freeSize = wrapAdd (wrapAdd info.freeSize c.size) (16 * merged))
    (haccounted : Accounted info (before ++ c :: after)) :
  Accounted info' chunks'
  := by
  obtain ⟨hu', hf'⟩ := haccounted
  obtain ⟨hsum, hsum'⟩ := hfreed.sizeOf hused
  have hlt := h.sizes_lt
  unfold memFlgUsed at hlt
  rw [Accounted, hu, hf, hu', hf', wrapSub_of_le (by omega) (by omega),
    wrapAdd_of_lt (a := sizeOf .free _) (by omega), wrapAdd_of_lt (by omega)]
  omega

theorem freesTo_alone (h : Layout info (before ++ c :: after) lists) (hused : c.kind = .used)
    (hbefore : ∀ p ∈ before.getLast?, p.kind ≠ .free)
    (hafter : ∀ n ∈ after.head?, n.kind ≠ .free) :
  FreesTo info ((((info.subUsed c.size).addFree c.size).memSetChunkSize c.addr
    c.size).memLinkChunk c.addr) before c after
  := by
  have hfreed := Freed.alone (c := c) hbefore hafter
  have hcounted : Layout ((info.subUsed c.size).addFree c.size) (before ++ ([c] ++ after))
      lists := (h.subUsed _).addFree _
  obtain ⟨⟨lists', hfree⟩, hkept⟩ := hcounted.coalesce (by simp [hused])
    (h.sizes c (by simp)) (hcounted.tiles.setKind .loose)
  simp only [Info.addFree_mem, Info.subUsed_mem] at hkept
  refine ⟨_, lists', hfreed, hfree, hkept, ?_⟩
  apply accounted_of_freed 0 hfree hfreed hused
  · simp
  · simp
  · simp [wrapAdd]

/-- A chunk that is not free is another one than a free chunk. -/
theorem mem_of_not_free {d n : Chunk} (hd : d ∈ before ++ n :: after) (hn : n.kind = .free)
    (hkind : d.kind ≠ .free) :
  d ∈ before ++ after
  := by
  simp only [List.mem_append, List.mem_cons] at hd ⊢
  obtain hd | rfl | hd := hd
  · exact Or.inl hd
  · contradiction
  · exact Or.inr hd

theorem freesTo_next {n : Chunk} (h : Layout info (before ++ c :: n :: after) lists)
    (hused : c.kind = .used) (hbefore : ∀ p ∈ before.getLast?, p.kind ≠ .free)
    (hn : n.kind = .free) :
  FreesTo info ((((((info.subUsed c.size).addFree c.size).addFree 16).memUnlinkChunk
    n.addr).memSetChunkSize c.addr (c.size + 16 + n.size)).memLinkChunk c.addr)
    before c (n :: after)
  := by
  have hfreed : Freed before c (n :: after)
      (before ++ ⟨c.addr, c.size + 16 + n.size, .free⟩ :: after) := .next hbefore hn
  have hcounted : Layout (((info.subUsed c.size).addFree c.size).addFree 16)
      ((before ++ [c]) ++ n :: after) lists := by
    simpa using ((h.subUsed _).addFree _).addFree _
  obtain ⟨⟨lists₁, hunlinked⟩, hkept⟩ := hcounted.unlink hn
  rw [List.append_assoc] at hunlinked
  have hsize : ProperSize (c.size + 16 + n.size) := by
    have hc := h.sizes c (by simp)
    have hn := h.sizes n (by simp)
    unfold ProperSize memMinAlloc at *
    omega
  have hmiddle : Layout _ (before ++ ([c, ⟨n.addr, n.size, .loose⟩] ++ after)) lists₁ :=
    hunlinked
  obtain ⟨⟨lists', hfree⟩, hkept'⟩ := hmiddle.coalesce (by simp [hused]) hsize
    (Tiles.merge hunlinked.tiles .loose).2
  simp only [Info.addFree_mem, Info.subUsed_mem] at hkept
  refine ⟨_, lists', hfreed, hfree, ?_, ?_⟩
  · intro d hd hkind
    have hd' := mem_of_not_free hd hn hkind
    apply (hkept d _ hkind).trans (hkept' d hd' hkind)
    simp only [List.mem_append, List.mem_cons] at hd' ⊢
    tauto
  · apply accounted_of_freed 1 hfree hfreed hused
    · simp
      omega
    · simp
    · simp

theorem freesTo_prev {p : Chunk} (h : Layout info (before ++ [p] ++ c :: after) lists)
    (hused : c.kind = .used) (hp : p.kind = .free)
    (hafter : ∀ n ∈ after.head?, n.kind ≠ .free) :
  FreesTo info ((((((info.subUsed c.size).addFree c.size).addFree 16).memUnlinkChunk
    p.addr).memSetChunkSize p.addr (c.size + 16 + p.size)).memLinkChunk p.addr)
    (before ++ [p]) c after
  := by
  have hfreed : Freed (before ++ [p]) c after
      (before ++ ⟨p.addr, c.size + 16 + p.size, .free⟩ :: after) := .prev hp hafter
  have hcounted : Layout (((info.subUsed c.size).addFree c.size).addFree 16)
      (before ++ p :: c :: after) lists := by
    simpa using ((h.subUsed _).addFree _).addFree _
  obtain ⟨⟨lists₁, hunlinked⟩, hkept⟩ := hcounted.unlink hp
  have hsize : ProperSize (c.size + 16 + p.size) := by
    have hc := h.sizes c (by simp)
    have hp := h.sizes p (by simp)
    unfold ProperSize memMinAlloc at *
    omega
  have hmiddle : Layout _ (before ++ ([⟨p.addr, p.size, .loose⟩, c] ++ after)) lists₁ :=
    hunlinked
  have hmerged := (Tiles.merge hunlinked.tiles .loose).2
  dsimp only at hmerged
  rw [show p.size + 16 + c.size = c.size + 16 + p.size by omega] at hmerged
  obtain ⟨⟨lists', hfree⟩, hkept'⟩ := hmiddle.coalesce (by simp [hused]) hsize hmerged
  simp only [Info.addFree_mem, Info.subUsed_mem] at hkept
  refine ⟨_, lists', hfreed, hfree, ?_, ?_⟩
  · intro d hd hkind
    rw [List.append_assoc] at hd
    have hd' := mem_of_not_free hd hp hkind
    apply (hkept d _ hkind).trans (hkept' d hd' hkind)
    simp only [List.mem_append, List.mem_cons] at hd' ⊢
    tauto
  · apply accounted_of_freed 1 hfree hfreed hused
    · simp
      omega
    · simp
    · simp

theorem freesTo_both {p n : Chunk} (h : Layout info (before ++ [p] ++ c :: n :: after) lists)
    (hused : c.kind = .used) (hp : p.kind = .free) (hn : n.kind = .free) :
  FreesTo info (((((((info.subUsed c.size).addFree c.size).addFree 32).memUnlinkChunk
    p.addr).memUnlinkChunk n.addr).memSetChunkSize p.addr
    (c.size + 32 + p.size + n.size)).memLinkChunk p.addr) (before ++ [p]) c (n :: after)
  := by
  have hfreed : Freed (before ++ [p]) c (n :: after)
      (before ++ ⟨p.addr, c.size + 32 + p.size + n.size, .free⟩ :: after) := .both hp hn
  have hcounted : Layout (((info.subUsed c.size).addFree c.size).addFree 32)
      (before ++ p :: c :: n :: after) lists := by
    simpa using ((h.subUsed _).addFree _).addFree _
  obtain ⟨⟨lists₁, hunlinked⟩, hkept⟩ := hcounted.unlink hp
  have hparts : Layout ((((info.subUsed c.size).addFree c.size).addFree 32).memUnlinkChunk
      p.addr) ((before ++ [⟨p.addr, p.size, .loose⟩, c]) ++ n :: after) lists₁ := by
    simpa using hunlinked
  obtain ⟨⟨lists₂, hunlinked₂⟩, hkept₂⟩ := hparts.unlink hn
  rw [List.append_assoc] at hunlinked₂
  have hmiddle : Layout _ (before ++ ([⟨p.addr, p.size, .loose⟩, c,
      ⟨n.addr, n.size, .loose⟩] ++ after)) lists₂ := hunlinked₂
  have hsize : ProperSize (c.size + 32 + p.size + n.size) := by
    have hc := h.sizes c (by simp)
    have hp := h.sizes p (by simp)
    have hn := h.sizes n (by simp)
    unfold ProperSize memMinAlloc at *
    omega
  have hmerged := (Tiles.merge (Tiles.merge hunlinked₂.tiles .loose).2 .loose).2
  dsimp only at hmerged
  rw [show p.size + 16 + c.size + 16 + n.size = c.size + 32 + p.size + n.size by omega]
    at hmerged
  obtain ⟨⟨lists', hfree⟩, hkept'⟩ := hmiddle.coalesce (by simp [hused]) hsize hmerged
  simp only [Info.addFree_mem, Info.subUsed_mem] at hkept
  refine ⟨_, lists', hfreed, hfree, ?_, ?_⟩
  · intro d hd hkind
    rw [List.append_assoc] at hd
    have hd' := mem_of_not_free (mem_of_not_free hd hp hkind) hn hkind
    apply ((hkept d _ hkind).trans (hkept₂ d _ hkind)).trans (hkept' d hd' hkind)
    · simp only [List.mem_append, List.mem_cons] at hd' ⊢
      tauto
    · simp only [List.mem_append, List.mem_cons] at hd' ⊢
      tauto
  · apply accounted_of_freed 2 hfree hfreed hused
    · simp
      omega
    · simp
    · simp

/-- The sizes and the address that `__mem_free` finds on its left. -/
theorem prev_spec {p : Chunk} (h : Layout info (before ++ [p] ++ c :: after) lists)
    (hp : p.kind ≠ .loose) :
  chunkSize info.mem (c.addr - memSizeField) = p.size ∧
  c.addr - memSizeField - p.size - memSizeField = p.addr ∧
  chunkSize info.mem p.addr = p.size
  := by
  have hsizes := h.chunkSize_eq (by simp : p ∈ before ++ [p] ++ c :: after) hp
  have haddr := h.prev_addr
  have hleft : c.addr - memSizeField = p.addr + 8 + p.size := by
    unfold memSizeField
    omega
  refine ⟨hleft ▸ hsizes.2, ?_, hsizes.1⟩
  unfold memSizeField
  omega

/-- `__mem_free` of a chunk in use. -/
theorem memFree (h : Layout info (before ++ c :: after) lists) (hused : c.kind = .used)
    (hloose : ∀ d ∈ before ++ after, d.kind ≠ .loose) :
  FreesTo info (info.memFree (c.addr + 8)) before c after
  := by
  have hc : c ∈ before ++ c :: after := by simp
  have hsize := (h.chunkSize_eq hc (by simp [hused])).1
  have hptr : c.addr + 8 - memSizeField = c.addr := Nat.add_sub_cancel ..
  obtain ⟨hbefore, hafter⟩ := List.forall_mem_append.mp hloose
  have hprevFree : (info.loBound < c.addr ∧ freeChunk info.mem (c.addr - memSizeField)) ↔ _ :=
    h.prevFree_iff hbefore
  have hnextFree := h.nextFree_iff hafter
  simp only [Info.memFree, hptr, hsize, newChunk_eq, Info.addFree_mem, Info.subUsed_mem,
    hprevFree, hnextFree]
  split_ifs with hboth hprev hnext
  · obtain ⟨⟨p, hmem, hp⟩, n, hmem', hn⟩ := hboth
    obtain ⟨before, rfl⟩ := List.getLast?_eq_some_iff.mp hmem
    obtain ⟨after, rfl⟩ := List.head?_eq_some_iff.mp hmem'
    obtain ⟨hprevSize, hprevChunk, hprevChunkSize⟩ := h.prev_spec (by simp [hp])
    have hnextSize := (h.chunkSize_eq (by simp : n ∈ before ++ [p] ++ c :: n :: after)
      (by simp [hn])).1
    simp only [hprevSize, hprevChunk, hprevChunkSize, ← h.next_addr, hnextSize]
    exact h.freesTo_both hused hp hn
  · obtain ⟨p, hmem, hp⟩ := hprev
    obtain ⟨before, rfl⟩ := List.getLast?_eq_some_iff.mp hmem
    obtain ⟨hprevSize, hprevChunk, hprevChunkSize⟩ := h.prev_spec (by simp [hp])
    simp only [hprevSize, hprevChunk, hprevChunkSize]
    apply h.freesTo_prev hused hp
    exact fun n hn hfree => hboth ⟨⟨p, hmem, hp⟩, n, hn, hfree⟩
  · obtain ⟨n, hmem, hn⟩ := hnext
    obtain ⟨after, rfl⟩ := List.head?_eq_some_iff.mp hmem
    have hnextSize := (h.chunkSize_eq (by simp : n ∈ before ++ c :: n :: after)
      (by simp [hn])).1
    simp only [← h.next_addr, hnextSize]
    exact h.freesTo_next hused (fun p hp hfree => hprev ⟨p, hp, hfree⟩) hn
  · exact h.freesTo_alone hused (fun p hp hfree => hprev ⟨p, hp, hfree⟩)
      (fun n hn hfree => hnext ⟨n, hn, hfree⟩)

end Layout

end Memory
