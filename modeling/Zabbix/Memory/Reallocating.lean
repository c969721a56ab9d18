import Zabbix.Memory.Settled

/-!
# Reallocating

Reallocating leaves a block where it is and cuts off what it no longer needs or takes what
it needs of the free chunk after it, or it moves the data to another chunk.
-/

namespace Memory

/-- A shorter piece of data. -/
theorem Kept.shorten {mem mem' : ℕ → ℕ} {c : Chunk} (h : Kept mem mem' c) {size : ℕ} {kind : Kind}
    (hsize : size ≤ c.size) :
  Kept mem mem' ⟨c.addr, size, kind⟩
  := fun x hl hu => h x hl (Nat.lt_of_lt_of_le hu (Nat.add_le_add_left hsize _))

namespace Layout

variable {info : Info} {chunks before after : List Chunk} {lists : ℕ → List ℕ} {c : Chunk}

/-- Those who hold a chunk write to its data. -/
theorem write (h : Layout info chunks lists) (hc : c ∈ chunks) (hused : c.kind = .used)
    {mem' : ℕ → ℕ}
    (hmem : ∀ x, x < c.addr + 8 ∨ c.addr + 8 + c.size ≤ x → mem' x = info.mem x) :
  Layout { info with mem := mem' } chunks lists ∧
  ∀ d ∈ chunks, d ≠ c → Kept info.mem mem' d
  := by
  have hfield : ∀ x, LinkField chunks x → mem' x = info.mem x :=
    fun x hx => hmem x (h.linkField_outside hc (by simp [hused]) hx)
  refine ⟨⟨h.tiles, h.positive, h.small, h.sizes, ?_, ?_, h.nodup, h.listed⟩, ?_⟩
  · intro d hd
    have hmarked := h.marked d hd
    have hfar := h.far hc hd
    have hleft : mem' d.addr = info.mem d.addr := by
      apply hmem
      obtain rfl | hfar := hfar
      · omega
      · omega
    have hright : mem' (d.addr + 8 + d.size) = info.mem (d.addr + 8 + d.size) := by
      apply hmem
      obtain rfl | hfar := hfar
      · omega
      · omega
    change Marked mem' d
    unfold Marked at hmarked ⊢
    rwa [hleft, hright]
  · intro i
    apply (h.linked i).congr
    intro a ha
    obtain ⟨d, hd, rfl, hkind, -⟩ := h.free_of_mem ha
    exact ⟨hfield _ ⟨d, hd, hkind, Or.inl rfl⟩, hfield _ ⟨d, hd, hkind, Or.inr rfl⟩⟩
  · intro d hd hne x hl hu
    apply hmem
    have hfar := (h.far hc hd).resolve_left (Ne.symm hne)
    omega

/-- A chunk that is not free becomes loose. -/
theorem loosen (h : Layout info (before ++ c :: after) lists) (hc : c.kind ≠ .free) :
  Layout info (before ++ ⟨c.addr, c.size, .loose⟩ :: after) lists
  := by
  have hmiddle : Layout info (before ++ ([c] ++ after)) lists := h
  have hloose : Layout info (before ++ ([⟨c.addr, c.size, .loose⟩] ++ after)) lists := by
    apply hmiddle.reshape
    · simpa using hc
    · simpa using h.sizes c (by simp)
    · exact h.tiles.setKind .loose
  exact hloose

/-- The free chunk after a chunk is unlinked and merged with it. -/
theorem mergeNext {n : Chunk} (h : Layout info (before ++ c :: n :: after) lists)
    (hc : c.kind ≠ .free) (hn : n.kind = .free) :
  (∃ lists', Layout (info.memUnlinkChunk n.addr)
    (before ++ ⟨c.addr, c.size + 16 + n.size, .loose⟩ :: after) lists') ∧
  ∀ d ∈ before ++ c :: after, d.kind ≠ .free →
    Kept info.mem (info.memUnlinkChunk n.addr).mem d
  := by
  have hsize : ProperSize (c.size + 16 + n.size) := by
    have hc := h.sizes c (by simp)
    have hn := h.sizes n (by simp)
    unfold ProperSize memMinAlloc at *
    omega
  have hparts : Layout info ((before ++ [c]) ++ n :: after) lists := by simpa using h
  obtain ⟨⟨lists₁, hunlinked⟩, hkept⟩ := hparts.unlink hn
  rw [List.append_assoc] at hunlinked
  have hmiddle : Layout (info.memUnlinkChunk n.addr)
      (before ++ ([c, ⟨n.addr, n.size, .loose⟩] ++ after)) lists₁ := hunlinked
  have hmerged : Layout (info.memUnlinkChunk n.addr)
      (before ++ ([⟨c.addr, c.size + 16 + n.size, .loose⟩] ++ after)) lists₁ := by
    apply hmiddle.reshape
    · simpa using hc
    · simpa using hsize
    · exact (Tiles.merge hunlinked.tiles .loose).2
  refine ⟨⟨lists₁, hmerged⟩, ?_⟩
  intro d hd
  apply hkept
  simpa using hd

/-- `size` bytes of a loose chunk are taken into use and the rest is made free. -/
theorem shrink (h : Layout info (before ++ c :: after) lists) (hloose : c.kind = .loose)
    {size newChunk newChunkSize : ℕ} (hsize : ProperSize size) (hfit : size + 40 ≤ c.size)
    (hnew : newChunk = c.addr + size + 16) (hnewSize : newChunkSize = c.size - size - 16) :
  (∃ lists', Layout (((info.memSetChunkSize newChunk newChunkSize).memLinkChunk
      newChunk).memSetUsedChunkSize c.addr size) (before ++ (carve size c ++ after)) lists') ∧
  ∀ d ∈ before ++ ⟨c.addr, size, .loose⟩ :: after, d.kind ≠ .free →
    Kept info.mem (((info.memSetChunkSize newChunk newChunkSize).memLinkChunk
      newChunk).memSetUsedChunkSize c.addr size).mem d
  := by
  subst hnewSize
  obtain ⟨⟨lists', hsplit⟩, hkept⟩ := h.splitOff hloose hsize hfit hnew
  obtain ⟨hused, hkept'⟩ := hsplit.makeUsed rfl
  refine ⟨⟨lists', ?_⟩, ?_⟩
  · subst hnew
    unfold carve
    rw [if_neg (by omega)]
    exact hused
  · intro d hd hfree
    apply (hkept d hd hfree).trans
    apply hkept' d
    simp only [List.mem_append, List.mem_cons] at hd ⊢
    tauto

end Layout

/-- `__mem_realloc` takes memory from the free chunk after the block. -/
def Info.GrowsInPlace (info : Info) (old size : ℕ) : Prop :=
  let size := memProperAllocSize size
  let chunk := old - memSizeField
  let oldSize := chunkSize info.mem chunk
  let nextChunk := chunk + memSizeField + oldSize + memSizeField
  oldSize < size ∧ (nextChunk < info.hiBound ∧ freeChunk info.mem nextChunk) ∧
    size ≤ oldSize + 2 * memSizeField + chunkSize info.mem nextChunk

instance (info : Info) (old size : ℕ) : Decidable (info.GrowsInPlace old size) :=
  inferInstanceAs (Decidable (_ ∧ _))

/-- A block is reallocated: another chunk is in use for it, with its data. -/
def ReallocsTo (info : Info) (chunks : List Chunk) (c : Chunk) (size : ℕ)
    (result : Option ℕ × Info) : Prop :=
  ∃ new chunks' lists', result.1 = some new.addr ∧ new.kind = .used ∧ size ≤ new.size ∧
    Settled result.2 chunks' lists' ∧ Replaces info chunks result.2 chunks' [c] [new] ∧
    (∀ i < min c.size size, result.2.mem (new.addr + 8 + i) = info.mem (c.addr + 8 + i)) ∧
    (¬ info.GrowsInPlace (c.addr + 8) size → Accounted info chunks →
      Accounted result.2 chunks')

namespace Settled

variable {info info' : Info} {chunks before after : List Chunk} {lists lists' : ℕ → List ℕ}
  {c m : Chunk} {size : ℕ}

/-- A chunk in use, with a free chunk after it or not, is replaced by a chunk in use at the
same address. -/
theorem resized (h : Settled info chunks lists) (hused : c.kind = .used)
    (hold : chunks = before ++ c :: after ∨
      ∃ n, n.kind = .free ∧ chunks = before ++ c :: n :: after)
    (haddr : m.addr = c.addr)
    (hlayout : Layout info' (before ++ (carve size m ++ after)) lists')
    (hafter : ∀ n ∈ after.head?, n.kind ≠ .free)
    (hkept : ∀ d ∈ before ++ after, d.kind = .used → Kept info.mem info'.mem d) :
  Settled info' (before ++ (carve size m ++ after)) lists' ∧
  Replaces info chunks info' (before ++ (carve size m ++ after)) [c] [carved size m]
  := by
  obtain ⟨rest, hcarve, -, hrest⟩ := carve_eq size m
  have hother : ∀ {rest : List Chunk} {d : Chunk}, Layout info (before ++ c :: rest) lists →
      d ∈ before ++ rest → d ≠ c := by
    rintro rest d hrest hd rfl
    exact (hrest.mem_others_iff.mp hd).2 rfl
  -- the chunks in use are those at the sides, and the one that goes
  obtain ⟨hbefore, hafterChain, hloose, hmem⟩ : NoFreePair before ∧ NoFreePair after ∧
      (∀ d ∈ before ++ after, d.kind ≠ .loose ∧ d ≠ c) ∧
      ∀ d, d.kind = .used → (d ∈ chunks ↔ d = c ∨ d ∈ before ++ after) := by
    obtain rfl | ⟨n, hn, rfl⟩ := hold
    · obtain ⟨hbefore, hafterChain⟩ := (noFreePair_used (by simp [hused])).mp h.no_free_pair
      refine ⟨hbefore, hafterChain, ?_, ?_⟩
      · exact fun d hd => ⟨(forall_at.mp h.not_loose).2 d hd, hother h.toLayout hd⟩
      · intro d _
        simp only [List.mem_append, List.mem_cons]
        tauto
    · obtain ⟨hbefore, hrestChain⟩ := (noFreePair_used (by simp [hused])).mp h.no_free_pair
      obtain ⟨-, hafterChain, -⟩ := (noFreePair_free [] hn).mp hrestChain
      have hnot := (forall_at.mp h.not_loose).2
      refine ⟨hbefore, hafterChain, ?_, ?_⟩
      · exact fun d hd => ⟨(forall_at.mp hnot).2 d hd, 
          hother h.toLayout (by simp only [List.mem_append, List.mem_cons] at hd ⊢; tauto)⟩
      · intro d hd
        have hdn : d ≠ n := by
          rintro rfl
          rw [hd] at hn
          contradiction
        simp only [List.mem_append, List.mem_cons, hdn, false_or]
        tauto
  refine ⟨⟨hlayout, ?_, noFreePair_carve size m hbefore hafterChain hafter⟩, ⟨?_, ?_⟩⟩
  · obtain ⟨hl, hr⟩ := List.forall_mem_append.mp fun d hd => (hloose d hd).1
    rw [hcarve]
    simp only [List.forall_mem_append, List.forall_mem_cons]
    exact ⟨hl, ⟨by simp [carved], fun d hd => by simp [hrest d hd]⟩, hr⟩
  · intro d hd
    have hdr : d ∉ rest := by
      intro hdr
      rw [hrest d hdr] at hd
      contradiction
    have hne := hloose d
    rw [hmem d hd, hcarve]
    simp only [List.mem_append, List.mem_cons, hdr] at hne ⊢
    tauto
  · intro d hd hkind hgone
    exact hkept d (((hmem d hkind).mp hd).resolve_left (by simpa using hgone)) hkind

theorem reallocsTo_stays (h : Settled info chunks lists) (hc : c ∈ chunks)
    (hused : c.kind = .used) (hfit : size ≤ c.size) :
  ReallocsTo info chunks c size (some c.addr, info)
  := by
  refine ⟨c, chunks, lists, rfl, hused, hfit, h, ⟨?_, ?_⟩, fun _ _ => rfl, fun _ ha => ha⟩
  · intro d _
    rw [List.mem_singleton]
    constructor
    · intro hd
      by_cases heq : d = c
      · exact Or.inl heq
      · exact Or.inr ⟨hd, heq⟩
    · rintro (rfl | ⟨hd, -⟩)
      · exact hc
      · exact hd
  · exact fun _ _ _ _ _ _ _ => rfl

/-- What is left to show of a block that stays where it is. -/
theorem reallocsTo_resized (h : Settled info chunks lists) (hused : c.kind = .used)
    (hold : chunks = before ++ c :: after ∨
      ∃ n, n.kind = .free ∧ chunks = before ++ c :: n :: after)
    (haddr : m.addr = c.addr) (hfit : size ≤ m.size)
    (hlayout : Layout info' (before ++ (carve size m ++ after)) lists')
    (hafter : ∀ n ∈ after.head?, n.kind ≠ .free)
    (hkept : ∀ d ∈ before ++ ⟨c.addr, min c.size size, .loose⟩ :: after, d.kind ≠ .free →
      Kept info.mem info'.mem d)
    (haccounted : ¬ info.GrowsInPlace (c.addr + 8) size → Accounted info chunks →
      Accounted info' (before ++ (carve size m ++ after))) :
  ReallocsTo info chunks c size (some c.addr, info')
  := by
  obtain ⟨hdata, hothers⟩ := forall_at.mp hkept
  obtain ⟨hsettled, hreplaces⟩ := h.resized hused hold haddr hlayout hafter
    fun d hd hkind => hothers d hd (by simp [hkind])
  refine ⟨carved size m, _, lists', congrArg some haddr.symm, rfl, le_carved_size hfit,
    hsettled, hreplaces, ?_, haccounted⟩
  intro i hi
  change info'.mem (m.addr + 8 + i) = _
  rw [haddr]
  exact hdata (by simp) _ (by dsimp only; omega) (by dsimp only; omega)

/-- What a chunk gives up goes to the free chunk after it. -/
theorem reallocsTo_shrinkNext {n : Chunk} (h : Settled info (before ++ c :: n :: after) lists)
    (hused : c.kind = .used) (hn : n.kind = .free) (hsize : ProperSize size)
    (hfit : size ≤ c.size / 4) :
  ReallocsTo info (before ++ c :: n :: after) c size (some c.addr,
    (((((((info.subUsed c.size).addUsed size).addFree (c.size + 16)).subFree
      (size + 16)).memUnlinkChunk n.addr).memSetChunkSize (c.addr + size + 16)
      (n.size + (c.size - size))).memLinkChunk (c.addr + size + 16)).memSetUsedChunkSize
      c.addr size)
  := by
  have hmin := hsize.2
  unfold memMinAlloc at hmin
  have hcounted : Layout ((((info.subUsed c.size).addUsed size).addFree (c.size + 16)).subFree
      (size + 16)) (before ++ c :: n :: after) lists :=
    (((h.toLayout.subUsed _).addUsed _).addFree _).subFree _
  obtain ⟨⟨lists₁, hmerged⟩, hkept⟩ := hcounted.mergeNext (by simp [hused]) hn
  have hrest : n.size + (c.size - size) = c.size + 16 + n.size - size - 16 := by omega
  rw [hrest]
  obtain ⟨⟨lists', hlayout⟩, hkept'⟩ := hmerged.shrink rfl hsize
    (by dsimp only; omega) rfl rfl
  simp only [Info.subFree_mem, Info.addFree_mem, Info.addUsed_mem, Info.subUsed_mem] at hkept
  have hafter : ∀ d ∈ after.head?, d.kind ≠ .free := by
    obtain ⟨-, hchain⟩ := (noFreePair_used (by simp [hused])).mp h.no_free_pair
    exact ((noFreePair_free [] hn).mp hchain).2.2.2
  apply h.reallocsTo_resized (m := ⟨c.addr, c.size + 16 + n.size, .loose⟩) hused
    (Or.inr ⟨n, hn, rfl⟩) rfl _ hlayout hafter
  · rw [Nat.min_eq_right (by omega)]
    obtain ⟨hdata, hothers⟩ := forall_at.mp hkept
    obtain ⟨hdata', hothers'⟩ := forall_at.mp hkept'
    refine forall_at.mpr ⟨?_, ?_⟩
    · intro hkind
      apply Kept.trans _ (hdata' hkind)
      exact (hdata (by simp [hused])).shorten (by omega)
    · exact fun d hd hkind => (hothers d hd hkind).trans (hothers' d hd hkind)
  · rintro - ⟨hu, hf⟩
    have hlt := h.sizes_lt
    unfold memFlgUsed at hlt
    simp [hused, hn] at hu hf hlt
    have hcarve : ¬ c.size + 16 + n.size < size + 40 := by omega
    simp [Accounted, carve, hcarve, hu, hf]
    rw [wrapSub_of_le (by omega) (by omega), wrapAdd_of_lt (by omega),
      wrapAdd_of_lt (by omega), wrapSub_of_le (by omega) (by omega)]
    omega
  · dsimp only
    omega

/-- What a chunk gives up becomes a free chunk. -/
theorem reallocsTo_shrinkSplit (h : Settled info (before ++ c :: after) lists)
    (hused : c.kind = .used) (hafter : ∀ d ∈ after.head?, d.kind ≠ .free)
    (hsize : ProperSize size) (hfit : size ≤ c.size / 4) :
  ReallocsTo info (before ++ c :: after) c size (some c.addr,
    ((((((info.subUsed c.size).addUsed size).addFree c.size).subFree
      (size + 16)).memSetChunkSize (c.addr + size + 16) (c.size - size - 16)).memLinkChunk
      (c.addr + size + 16)).memSetUsedChunkSize c.addr size)
  := by
  have hmin := hsize.2
  unfold memMinAlloc at hmin
  have hcounted : Layout ((((info.subUsed c.size).addUsed size).addFree c.size).subFree
      (size + 16)) (before ++ c :: after) lists :=
    (((h.toLayout.subUsed _).addUsed _).addFree _).subFree _
  obtain ⟨⟨lists', hlayout⟩, hkept⟩ := (hcounted.loosen (by simp [hused])).shrink rfl hsize
    (by dsimp only; omega) rfl rfl
  simp only [Info.subFree_mem, Info.addFree_mem, Info.addUsed_mem, Info.subUsed_mem] at hkept
  apply h.reallocsTo_resized (m := ⟨c.addr, c.size, .loose⟩) hused (Or.inl rfl) rfl _ hlayout
    hafter
  · rwa [Nat.min_eq_right (by omega)]
  · rintro - ⟨hu, hf⟩
    have hlength := tiles_length h.tiles
    have hlt := h.small
    unfold memFlgUsed at hlt
    simp [hused] at hu hf hlength
    have hcarve : ¬ c.size < size + 40 := by omega
    simp [Accounted, carve, hcarve, hu, hf]
    rw [wrapSub_of_le (by omega) (by omega), wrapAdd_of_lt (by omega),
      wrapAdd_of_lt (by omega), wrapSub_of_le (by omega) (by omega)]
    omega
  · dsimp only
    omega

/-- A block takes what it needs of the free chunk after it. -/
theorem reallocsTo_grow {n : Chunk} (h : Settled info (before ++ c :: n :: after) lists)
    (hused : c.kind = .used) (hn : n.kind = .free) (hsize : ProperSize size)
    (hlt : c.size < size) (hfit : size ≤ c.size + 16 + n.size)
    (hgrows : info.GrowsInPlace (c.addr + 8) size) :
  ReallocsTo info (before ++ c :: n :: after) c size (some c.addr,
    (((info.subUsed c.size).addFree c.size).memUnlinkChunk n.addr).take c.addr
      (c.size + 16 + n.size) size)
  := by
  have hcounted : Layout ((info.subUsed c.size).addFree c.size) (before ++ c :: n :: after)
      lists := (h.toLayout.subUsed _).addFree _
  obtain ⟨⟨lists₁, hmerged⟩, hkept⟩ := hcounted.mergeNext (by simp [hused]) hn
  obtain ⟨⟨lists', hlayout⟩, hkept'⟩ := hmerged.take rfl hsize hfit
  simp only [Info.addFree_mem, Info.subUsed_mem] at hkept
  have hafter : ∀ d ∈ after.head?, d.kind ≠ .free := by
    obtain ⟨-, hchain⟩ := (noFreePair_used (by simp [hused])).mp h.no_free_pair
    exact ((noFreePair_free [] hn).mp hchain).2.2.2
  apply h.reallocsTo_resized (m := ⟨c.addr, c.size + 16 + n.size, .loose⟩) hused
    (Or.inr ⟨n, hn, rfl⟩) rfl hfit hlayout hafter
  · rw [Nat.min_eq_left (by omega)]
    obtain ⟨hdata, hothers⟩ := forall_at.mp hkept
    obtain ⟨hdata', hothers'⟩ := forall_at.mp hkept'
    refine forall_at.mpr ⟨?_, ?_⟩
    · intro hkind
      apply (hdata (by simp [hused])).trans
      exact (hdata' (by simp)).shorten (Nat.le_of_lt hlt)
    · exact fun d hd hkind => (hothers d hd hkind).trans (hothers' d hd hkind)
  · exact fun hnot => absurd hgrows hnot

theorem memMalloc_none (h : Settled info chunks lists)
    (hnone : info.memMalloc size = (none, info')) :
  info' = info
  := by
  obtain hsame | ⟨new, _, _, hresult, -⟩ := h.memMalloc size
  · rw [hsame] at hnone
    cases hnone
    rfl
  · rw [hnone] at hresult
    cases hresult

theorem write (h : Settled info chunks lists) (hc : c ∈ chunks) (hused : c.kind = .used)
    {mem' : ℕ → ℕ}
    (hmem : ∀ x, x < c.addr + 8 ∨ c.addr + 8 + c.size ≤ x → mem' x = info.mem x) :
  Settled { info with mem := mem' } chunks lists
  := ⟨(h.toLayout.write hc hused hmem).1, h.not_loose, h.no_free_pair⟩

/-- Data are copied to a chunk that has been taken into use. -/
theorem fill {info₁ : Info} {chunks₁ : List Chunk} (h : Settled info' chunks lists)
    (hreplaces : Replaces info₁ chunks₁ info' chunks [] [c]) (hused : c.kind = .used)
    (hfresh : c ∉ chunks₁) (srcMem : ℕ → ℕ) (src : ℕ) {n : ℕ} (hn : n ≤ c.size) :
  Settled (info'.memcpy (c.addr + memSizeField) srcMem src n) chunks lists ∧
  Replaces info₁ chunks₁ (info'.memcpy (c.addr + memSizeField) srcMem src n) chunks [] [c] ∧
  (∀ i < n, (info'.memcpy (c.addr + memSizeField) srcMem src n).mem (c.addr + 8 + i)
    = srcMem (src + i)) ∧
  (Accounted info' chunks → Accounted (info'.memcpy (c.addr + memSizeField) srcMem src n) chunks)
  := by
  have hc : c ∈ chunks := (hreplaces.mem_iff c hused).mpr (Or.inl (by simp))
  have hmem : ∀ x, x < c.addr + 8 ∨ c.addr + 8 + c.size ≤ x →
      (info'.memcpy (c.addr + memSizeField) srcMem src n).mem x = info'.mem x := by
    intro x hx
    unfold Info.memcpy memSizeField
    dsimp only
    rw [if_neg (by omega)]
  refine ⟨h.write hc hused hmem, ⟨hreplaces.mem_iff, ?_⟩, ?_, fun ha => ha⟩
  · intro d hd hkind hgone
    apply (hreplaces.kept d hd hkind hgone).trans
    apply (h.toLayout.write hc hused hmem).2 d
    · exact (hreplaces.mem_iff d hkind).mpr (Or.inr ⟨hd, hgone⟩)
    · rintro rfl
      exact hfresh hd
  · intro i hi
    unfold Info.memcpy memSizeField
    dsimp only
    rw [if_pos (by omega)]
    congr 1
    omega

/-- A new chunk is taken, the data are copied and the old chunk is freed. -/
theorem reallocsTo_move (h : Settled info chunks lists) (hc : c ∈ chunks)
    (hused : c.kind = .used) (hsize : ProperSize size) (hlt : c.size < size) {newChunk : ℕ}
    {info' : Info} (hmalloc : info.memMalloc size = (some newChunk, info')) :
  ReallocsTo info chunks c size (some newChunk,
    (info'.memcpy (newChunk + memSizeField) info'.mem (c.addr + memSizeField) c.size).memFree
      (c.addr + 8))
  := by
  obtain hnone | ⟨new, chunks₁, lists₁, hresult, hnew, hfit, hsettled, hreplaces, hfresh,
    haccounted⟩ := h.memMalloc size
  · rw [hmalloc] at hnone
    cases hnone
  rw [hmalloc] at hresult hsettled hreplaces haccounted
  rw [memProperAllocSize_of_proper hsize] at hfit
  obtain rfl : newChunk = new.addr := by simpa using hresult
  dsimp only at hsettled hreplaces haccounted
  have hne : new ≠ c := by
    rintro rfl
    exact hfresh hc
  have hcMem : c ∈ chunks₁ := (hreplaces.mem_iff c hused).mpr (Or.inr ⟨hc, by simp⟩)
  obtain ⟨hfilled, hreplaces₁, hdata, haccounted₁⟩ := hsettled.fill hreplaces hnew hfresh
    info'.mem (c.addr + memSizeField) (show c.size ≤ new.size by omega)
  obtain ⟨chunks', lists', hsettled', hfreed, haccounted'⟩ := hfilled.memFree hcMem hused
  refine ⟨new, chunks', lists', rfl, hnew, hfit, hsettled', hreplaces₁.takeThenGive hfreed hne,
    ?_, fun _ ha => haccounted' (haccounted₁ (haccounted ha))⟩
  intro i hi
  have hnewMem : new ∈ chunks₁ := (hreplaces₁.mem_iff new hnew).mpr (Or.inl (by simp))
  have hkeptNew := hfreed.kept new hnewMem hnew (by simpa using hne)
  calc _ = _ := hkeptNew _ (by omega) (by omega)
    _ = info'.mem (c.addr + 8 + i) := hdata i (by omega)
    _ = info.mem (c.addr + 8 + i) :=
      hreplaces.kept c hc hused (by simp) _ (by omega) (by omega)

/-- The data are copied aside, the chunk is freed and a new one is taken. -/
theorem reallocsTo_copy (h : Settled info chunks lists) (hc : c ∈ chunks)
    (hused : c.kind = .used) (hsize : ProperSize size) (hlt : c.size < size) {newChunk : ℕ}
    {info' : Info} (hmalloc : (info.memFree (c.addr + 8)).memMalloc size = (some newChunk, info')) :
  ReallocsTo info chunks c size (some newChunk,
    info'.memcpy (newChunk + memSizeField) info.mem (c.addr + memSizeField) c.size)
  := by
  obtain ⟨chunks₁, lists₁, hsettled₁, hfreed, haccounted₁⟩ := h.memFree hc hused
  obtain hnone | ⟨new, chunks', lists', hresult, hnew, hfit, hsettled, hreplaces, hfresh,
    haccounted⟩ := hsettled₁.memMalloc size
  · rw [hmalloc] at hnone
    cases hnone
  rw [hmalloc] at hresult hsettled hreplaces haccounted
  rw [memProperAllocSize_of_proper hsize] at hfit
  obtain rfl : newChunk = new.addr := by simpa using hresult
  dsimp only at hsettled hreplaces haccounted
  obtain ⟨hfilled, hreplaces₁, hdata, haccounted'⟩ := hsettled.fill hreplaces hnew hfresh
    info.mem (c.addr + memSizeField) (show c.size ≤ new.size by omega)
  refine ⟨new, chunks', lists', rfl, hnew, hfit, hfilled, hfreed.giveThenTake hreplaces₁,
    ?_, fun _ ha => haccounted' (haccounted (haccounted₁ ha))⟩
  intro i hi
  exact hdata i (by omega)

/-- `__mem_realloc` of a chunk in use fails or gives a block with the old data. -/
theorem memRealloc (h : Settled info chunks lists) (hc : c ∈ chunks) (hused : c.kind = .used)
    (size : ℕ) :
  ∀ result ∈ info.memRealloc (c.addr + 8) size,
    result.1 = none ∨ ReallocsTo info chunks c (memProperAllocSize size) result
  := by
  obtain ⟨before, after, rfl⟩ := List.append_of_mem hc
  have hsize := (memProperAllocSize_spec size).1
  have hchunkSize := (h.chunkSize_eq hc (by simp [hused])).1
  have hptr : c.addr + 8 - memSizeField = c.addr := Nat.add_sub_cancel ..
  have hnextFree := h.nextFree_iff (List.forall_mem_append.mp (forall_at.mp h.not_loose).2).2
  unfold Info.memRealloc
  generalize memProperAllocSize size = proper at *
  simp only [hptr, hchunkSize, newChunk_eq, hnextFree, threshold_eq, some_take]
  split_ifs with hle hkeep hnext hgrow
  · rintro _ ⟨⟩
    exact Or.inr (h.reallocsTo_stays hc hused hle)
  · rintro _ ⟨⟩
    right
    obtain ⟨n, hmem, hn⟩ := hnext
    obtain ⟨after, rfl⟩ := List.head?_eq_some_iff.mp hmem
    have hnextSize := (h.chunkSize_eq (by simp : n ∈ before ++ c :: n :: after)
      (by simp [hn])).1
    simp only [← h.next_addr, hnextSize]
    exact h.reallocsTo_shrinkNext hused hn hsize (by omega)
  · rintro _ ⟨⟩
    right
    apply h.reallocsTo_shrinkSplit hused _ hsize (by omega)
    exact fun n hn hfree => hnext ⟨n, hn, hfree⟩
  · rintro _ ⟨⟩
    right
    have hgrows : info.GrowsInPlace (c.addr + 8) proper := by
      unfold Info.GrowsInPlace
      simp only [hptr, hchunkSize, newChunk_eq, hnextFree, memProperAllocSize_of_proper hsize]
      exact ⟨Nat.lt_of_not_le hle, hgrow⟩
    obtain ⟨⟨n, hmem, hn⟩, hfit⟩ := hgrow
    obtain ⟨after, rfl⟩ := List.head?_eq_some_iff.mp hmem
    have hnextSize := (h.chunkSize_eq (by simp : n ∈ before ++ c :: n :: after)
      (by simp [hn])).1
    simp only [← h.next_addr, hnextSize] at hfit ⊢
    exact h.reallocsTo_grow hused hn hsize (Nat.lt_of_not_le hle) hfit hgrows
  · cases hmalloc : info.memMalloc proper with
    | mk chunk info' =>
      cases chunk with
      | some newChunk =>
        rintro _ ⟨⟩
        exact Or.inr (h.reallocsTo_move hc hused hsize (Nat.lt_of_not_le hle) hmalloc)
      | none =>
        obtain rfl : info' = info := h.memMalloc_none hmalloc
        cases hcopy : (info'.memFree (c.addr + 8)).memMalloc proper with
        | mk chunk info₂ =>
          cases chunk with
          | some newChunk =>
            simp only [hcopy]
            rintro _ ⟨⟩
            exact Or.inr (h.reallocsTo_copy hc hused hsize (Nat.lt_of_not_le hle) hcopy)
          | none =>
            simp only [hcopy]
            intro result hresult
            obtain ⟨info₃, -, rfl⟩ := Option.map_eq_some_iff.mp hresult
            exact Or.inl rfl

end Settled

end Memory
