import Zabbix.Memory.Layout

/-!
# Allocating in a layout

Allocating takes a free chunk into use and divides it when the rest is big enough for a
chunk.
-/

namespace Memory

/-! ### Accounting -/

/-- The number of bytes in the chunks of a kind. -/
def sizeOf (kind : Kind) (chunks : List Chunk) : ℕ :=
  (chunks.map fun c => if c.kind = kind then c.size else 0).sum

@[simp]
theorem sizeOf_nil (kind : Kind) :
  sizeOf kind [] = 0
  := rfl

@[simp]
theorem sizeOf_cons (kind : Kind) (c : Chunk) (chunks : List Chunk) :
  sizeOf kind (c :: chunks) = (if c.kind = kind then c.size else 0) + sizeOf kind chunks
  := by
  simp [sizeOf]

@[simp]
theorem sizeOf_append (kind : Kind) (chunks chunks' : List Chunk) :
  sizeOf kind (chunks ++ chunks') = sizeOf kind chunks + sizeOf kind chunks'
  := by
  simp [sizeOf]

/-- The counters are the numbers of bytes in use and free. -/
def Accounted (info : Info) (chunks : List Chunk) : Prop :=
  info.usedSize = sizeOf .used chunks ∧ info.freeSize = sizeOf .free chunks

/-- The sizes of the chunks and the gaps after them add up to the length of the segment. -/
theorem tiles_length {lo hi : ℕ} {chunks : List Chunk} (h : Tiles 16 lo hi chunks) :
  lo + (sizeOf .used chunks + sizeOf .free chunks + sizeOf .loose chunks
    + 16 * chunks.length) = hi
  := by
  induction chunks generalizing lo with
  | nil => exact h
  | cons c chunks ih =>
    have hrest := ih h.2
    simp only [sizeOf_cons, List.length_cons]
    cases hk : c.kind <;> simp <;> omega

/-- The chunks that replace a chunk when `size` bytes of it are taken into use. -/
def carve (size : ℕ) (c : Chunk) : List Chunk :=
  if c.size < size + 40 then [⟨c.addr, c.size, .used⟩]
  else [⟨c.addr, size, .used⟩, ⟨c.addr + size + 16, c.size - size - 16, .free⟩]

/-! ### Sizes and buckets -/

theorem newChunk_eq (chunk size : ℕ) :
  chunk + memSizeField + size + memSizeField = chunk + size + 16
  := by
  unfold memSizeField
  omega

theorem threshold_eq (size : ℕ) :
  size + 2 * memSizeField + memMinAlloc = size + 40
  := rfl

theorem memProperAllocSize_spec (size : ℕ) :
  ProperSize (memProperAllocSize size) ∧ size ≤ memProperAllocSize size
  := by
  unfold ProperSize memProperAllocSize memMinAlloc
  split_ifs <;> omega

theorem memProperAllocSize_of_proper {size : ℕ} (h : ProperSize size) :
  memProperAllocSize size = size
  := by
  unfold ProperSize memMinAlloc at h
  unfold memProperAllocSize memMinAlloc
  rw [if_pos h.2]
  omega

/-- A bucket before the last has chunks of one size. -/
theorem le_of_bucket_le {size size' : ℕ} (h : ProperSize size) (h' : ProperSize size')
    (hle : memBucketBySize size ≤ memBucketBySize size')
    (hlt : memBucketBySize size' < memBucketCount - 1) :
  size ≤ size'
  := by
  unfold ProperSize memMinAlloc at h h'
  unfold memBucketBySize memBucketCount memMaxBucketSize memMinAlloc at *
  split_ifs at * <;> omega

theorem memBucketBySize_le (size : ℕ) :
  memBucketBySize size ≤ memBucketCount - 1
  := by
  unfold memBucketBySize memBucketCount memMaxBucketSize memMinAlloc
  split_ifs <;> omega

theorem findBucket_spec (buckets : ℕ → ℕ) (rounds : ℕ) {index : ℕ}
    (hindex : index ≤ memBucketCount - 1) :
  index ≤ Info.findBucket buckets rounds index ∧
    Info.findBucket buckets rounds index ≤ memBucketCount - 1
  := by
  induction rounds generalizing index with
  | zero => exact ⟨Nat.le_refl _, hindex⟩
  | succ rounds ih =>
    unfold Info.findBucket
    split_ifs with h
    · have hnext := ih (show index + 1 ≤ memBucketCount - 1 by omega)
      exact ⟨by omega, hnext.2⟩
    · exact ⟨Nat.le_refl _, hindex⟩

theorem firstFit_spec {mem : ℕ → ℕ} {nodes : List ℕ} {prev first last : ℕ} (size rounds : ℕ)
    (h : LinkedList.Segment 8 16 mem prev first nodes last 0) :
  Info.firstFit mem size rounds first = 0 ∨
    Info.firstFit mem size rounds first ∈ nodes ∧
      size ≤ chunkSize mem (Info.firstFit mem size rounds first)
  := by
  induction rounds generalizing prev first nodes with
  | zero => exact Or.inl rfl
  | succ rounds ih =>
    unfold Info.firstFit
    split_ifs with hskip
    · obtain ⟨-, -, hzero⟩ | ⟨rest, rfl, -⟩ := h.first_eq
      · exact absurd hzero hskip.1
      · obtain hnone | ⟨hmem, hsize⟩ := ih h.2.2.2
        · exact Or.inl hnone
        · exact Or.inr ⟨List.mem_cons_of_mem _ hmem, hsize⟩
    · obtain ⟨-, -, hzero⟩ | ⟨rest, rfl, hne⟩ := h.first_eq
      · exact Or.inl hzero
      · exact Or.inr ⟨List.mem_cons_self, by omega⟩

namespace Layout

variable {info : Info} {chunks before after : List Chunk} {lists : ℕ → List ℕ} {c : Chunk}

/-- A chunk that is found is free and big enough. -/
theorem findChunk_spec (h : Layout info chunks lists) {size : ℕ} (hsize : ProperSize size) :
  info.findChunk size = 0 ∨
    ∃ c ∈ chunks, c.kind = .free ∧ c.addr = info.findChunk size ∧ size ≤ c.size
  := by
  obtain ⟨hle, hmax⟩ := findBucket_spec info.buckets memBucketCount (memBucketBySize_le size)
  unfold Info.findChunk
  set index := Info.findBucket info.buckets memBucketCount (memBucketBySize size)
  dsimp only
  split_ifs with hlast
  · obtain ⟨last, hlinked⟩ := h.linked index
    obtain hnone | ⟨hmem, hfit⟩ := firstFit_spec size info.hiBound hlinked
    · exact Or.inl hnone
    · obtain ⟨c, hc, hca, hkind, -⟩ := h.free_of_mem hmem
      rw [← hca, (h.chunkSize_eq hc (by simp [hkind])).1] at hfit
      exact Or.inr ⟨c, hc, hkind, hca, hfit⟩
  · by_cases hzero : info.buckets index = 0
    · exact Or.inl hzero
    · obtain ⟨c, hc, hca, hkind, hbucket⟩ := h.free_of_mem ((h.linked index).first_mem hzero)
      refine Or.inr ⟨c, hc, hkind, hca, ?_⟩
      apply le_of_bucket_le hsize (h.sizes c hc)
      · omega
      · omega

/-! ### Taking a chunk into use -/

theorem addUsed (h : Layout info chunks lists) (n : ℕ) :
  Layout (info.addUsed n) chunks lists
  := h.setCounters _ _

theorem subUsed (h : Layout info chunks lists) (n : ℕ) :
  Layout (info.subUsed n) chunks lists
  := h.setCounters _ _

theorem addFree (h : Layout info chunks lists) (n : ℕ) :
  Layout (info.addFree n) chunks lists
  := h.setCounters _ _

theorem subFree (h : Layout info chunks lists) (n : ℕ) :
  Layout (info.subFree n) chunks lists
  := h.setCounters _ _

/-- The right part of a loose chunk is made free. -/
theorem splitOff (h : Layout info (before ++ c :: after) lists) (hloose : c.kind = .loose)
    {size newChunk : ℕ} (hsize : ProperSize size) (hfit : size + 40 ≤ c.size)
    (hnew : newChunk = c.addr + size + 16) :
  (∃ lists', Layout ((info.memSetChunkSize newChunk (c.size - size - 16)).memLinkChunk newChunk)
    (before ++ ⟨c.addr, size, .loose⟩ :: ⟨newChunk, c.size - size - 16, .free⟩ :: after)
    lists') ∧
  ∀ d ∈ before ++ ⟨c.addr, size, .loose⟩ :: after, d.kind ≠ .free →
    Kept info.mem ((info.memSetChunkSize newChunk (c.size - size - 16)).memLinkChunk
      newChunk).mem d
  := by
  subst hnew
  have hc := h.sizes c (by simp)
  have hrest : ProperSize (c.size - size - 16) := by
    unfold ProperSize memMinAlloc at *
    omega
  have hparts : Layout info (before ++ ([⟨c.addr, size, .loose⟩,
      ⟨c.addr + size + 16, c.size - size - 16, .loose⟩] ++ after)) lists := by
    have h' : Layout info (before ++ ([c] ++ after)) lists := h
    apply h'.reshape
    · simp [hloose]
    · simp [hsize, hrest]
    · exact h.tiles.split .loose .loose (by omega)
  have hparts' : Layout info ((before ++ [⟨c.addr, size, .loose⟩]) ++
      ⟨c.addr + size + 16, c.size - size - 16, .loose⟩ :: after) lists := by
    simpa using hparts
  have hfree := hparts'.makeFree rfl
  simpa only [List.append_assoc, List.singleton_append] using hfree

/-- The counters do not exceed the length of the segment. -/
theorem sizes_lt (h : Layout info chunks lists) :
  sizeOf .used chunks + sizeOf .free chunks < memFlgUsed
  := by
  have hlength := tiles_length h.tiles
  have hsmall := h.small
  omega

end Layout

/-- `size` bytes of an unlinked chunk are taken into use. -/
def Info.take (info : Info) (chunk chunkSize size : ℕ) : Info :=
  if chunkSize < size + 40 then
    ((info.addUsed chunkSize).subFree chunkSize).memSetUsedChunkSize chunk chunkSize
  else
    let newChunk := chunk + size + 16
    let newChunkSize := chunkSize - size - 16
    let info := (info.memSetChunkSize newChunk newChunkSize).memLinkChunk newChunk
    let info := ((info.addUsed size).subFree chunkSize).addFree newChunkSize
    info.memSetUsedChunkSize chunk size

/-- The two ways in which the operations do so. -/
theorem some_take (info : Info) (chunk chunkSize size : ℕ) :
  (if chunkSize < size + 40 then
    (some chunk, ((info.addUsed chunkSize).subFree chunkSize).memSetUsedChunkSize chunk chunkSize)
  else (some chunk,
    ((((((info.memSetChunkSize (chunk + size + 16) (chunkSize - size - 2 * memSizeField)
      ).memLinkChunk (chunk + size + 16)).addUsed size).subFree chunkSize).addFree
      (chunkSize - size - 2 * memSizeField)).memSetUsedChunkSize chunk size)))
    = (some chunk, info.take chunk chunkSize size)
  := by
  unfold Info.take
  split_ifs <;> rfl

namespace Layout

variable {info : Info} {chunks before after : List Chunk} {lists : ℕ → List ℕ} {c : Chunk}

theorem take (h : Layout info (before ++ c :: after) lists) (hloose : c.kind = .loose)
    {size : ℕ} (hsize : ProperSize size) (hfit : size ≤ c.size) :
  (∃ lists', Layout (info.take c.addr c.size size) (before ++ (carve size c ++ after)) lists') ∧
  ∀ d ∈ before ++ ⟨c.addr, size, .loose⟩ :: after, d.kind ≠ .free →
    Kept info.mem (info.take c.addr c.size size).mem d
  := by
  unfold Info.take carve
  by_cases hfull : c.size < size + 40
  · simp only [if_pos hfull]
    obtain ⟨hused, hkept⟩ := ((h.addUsed c.size).subFree c.size).makeUsed hloose
    simp only [Info.subFree_mem, Info.addUsed_mem] at hkept
    obtain ⟨hkeptSelf, hkeptOthers⟩ := forall_at.mp hkept
    refine ⟨⟨lists, hused⟩, forall_at.mpr ⟨?_, ?_⟩⟩
    · intro _ x hl hu
      dsimp only at hl hu
      exact hkeptSelf x hl (by omega)
    · exact fun d hd _ => hkeptOthers d hd
  · simp only [if_neg hfull]
    obtain ⟨⟨lists', hsplit⟩, hkept⟩ := h.splitOff hloose hsize (Nat.le_of_not_lt hfull) rfl
    obtain ⟨hused, hkept'⟩ := (((hsplit.addUsed size).subFree c.size).addFree
      (c.size - size - 16)).makeUsed rfl
    simp only [Info.subFree_mem, Info.addUsed_mem, Info.addFree_mem] at hkept'
    refine ⟨⟨lists', hused⟩, ?_⟩
    intro d hd hfree
    apply (hkept d hd hfree).trans
    apply hkept' d
    simp only [List.mem_append, List.mem_cons] at hd ⊢
    tauto

/-- The counters when a chunk is taken into use. -/
theorem take_counters (info : Info) (c : Chunk) (size : ℕ)
    (hu : info.usedSize + c.size < 2 ^ 64) (hf : c.size ≤ info.freeSize)
    (hlt : info.freeSize < 2 ^ 64) :
  (info.take c.addr c.size size).usedSize = info.usedSize + sizeOf .used (carve size c) ∧
  (info.take c.addr c.size size).freeSize + c.size
    = info.freeSize + sizeOf .free (carve size c)
  := by
  unfold Info.take carve
  by_cases hfull : c.size < size + 40
  · simp only [if_pos hfull, Info.memSetUsedChunkSize_usedSize,
      Info.memSetUsedChunkSize_freeSize, Info.subFree_usedSize, Info.subFree_freeSize,
      Info.addUsed_usedSize, Info.addUsed_freeSize]
    rw [wrapAdd_of_lt hu, wrapSub_of_le hf hlt]
    simp
    omega
  · simp only [if_neg hfull, Info.memSetUsedChunkSize_usedSize,
      Info.memSetUsedChunkSize_freeSize, Info.addFree_usedSize, Info.addFree_freeSize,
      Info.subFree_usedSize, Info.subFree_freeSize, Info.addUsed_usedSize,
      Info.addUsed_freeSize, Info.memLinkChunk_usedSize, Info.memLinkChunk_freeSize,
      Info.memSetChunkSize_usedSize, Info.memSetChunkSize_freeSize]
    rw [wrapAdd_of_lt (by omega), wrapSub_of_le hf hlt, wrapAdd_of_lt (by omega)]
    simp
    omega

/-! ### Allocating -/

theorem memMalloc_eq (size : ℕ) :
  info.memMalloc size =
    let chunk := info.findChunk (memProperAllocSize size)
    if chunk = 0 then (none, info)
    else (some chunk, (info.memUnlinkChunk chunk).take chunk (chunkSize info.mem chunk)
      (memProperAllocSize size))
  := by
  unfold Info.memMalloc
  simp only [newChunk_eq, threshold_eq, some_take]

/-- Allocating takes a free chunk that is big enough into use, or changes nothing. -/
theorem memMalloc (h : Layout info chunks lists) (size : ℕ) :
  info.memMalloc size = (none, info) ∨
  ∃ before c after lists', chunks = before ++ c :: after ∧ c.kind = .free ∧
    memProperAllocSize size ≤ c.size ∧
    (info.memMalloc size).1 = some c.addr ∧
    Layout (info.memMalloc size).2
      (before ++ (carve (memProperAllocSize size) c ++ after)) lists' ∧
    (∀ d ∈ before ++ after, d.kind ≠ .free → Kept info.mem (info.memMalloc size).2.mem d) ∧
    (Accounted info chunks → Accounted (info.memMalloc size).2
      (before ++ (carve (memProperAllocSize size) c ++ after)))
  := by
  obtain ⟨hproper, -⟩ := memProperAllocSize_spec size
  rw [memMalloc_eq]
  obtain hnone | ⟨c, hc, hkind, haddr, hfit⟩ := h.findChunk_spec hproper
  · left
    simp only [hnone, if_pos]
  right
  obtain ⟨before, after, rfl⟩ := List.append_of_mem hc
  have hne : info.findChunk (memProperAllocSize size) ≠ 0 := by
    have := (h.tiles.bounds hc).1
    have := h.positive
    omega
  have hsizes := h.sizes_lt
  unfold memFlgUsed at hsizes
  have hchunkSize := (h.chunkSize_eq hc (by simp [hkind])).1
  obtain ⟨⟨lists₁, hloose⟩, hkept⟩ := h.unlink hkind
  simp only [if_neg hne]
  rw [← haddr, hchunkSize]
  generalize memProperAllocSize size = proper at *
  obtain ⟨⟨lists', htaken⟩, hkept'⟩ := hloose.take rfl hproper hfit
  refine ⟨before, c, after, lists', rfl, hkind, hfit, rfl, htaken, ?_, ?_⟩
  · intro d hd hfree
    apply (hkept d hd hfree).trans
    apply hkept' d _ hfree
    simp only [List.mem_append, List.mem_cons] at hd ⊢
    tauto
  · rintro ⟨hu, hf⟩
    simp [hkind] at hu hf hsizes
    obtain ⟨hu', hf'⟩ := take_counters (info.memUnlinkChunk c.addr) c proper (by simp; omega)
      (by simp; omega) (by simp; omega)
    simp only [Info.memUnlinkChunk_usedSize, Info.memUnlinkChunk_freeSize] at hu' hf'
    unfold Accounted
    simp only [sizeOf_append]
    omega

/-! ### Neighbours -/

/-- The next chunk, where there is one. -/
theorem next_addr {n : Chunk} (h : Layout info (before ++ c :: n :: after) lists) :
  n.addr = c.addr + c.size + 16
  := (Tiles.at_iff.mp h.tiles).2.1

/-- The previous chunk, where there is one. -/
theorem prev_addr {p : Chunk} (h : Layout info ((before ++ [p]) ++ c :: after) lists) :
  p.addr + p.size + 16 = c.addr
  := (Tiles.concat_iff.mp (Tiles.at_iff.mp h.tiles).1).2

/-- The test for a free chunk after a chunk. -/
theorem nextFree_iff (h : Layout info (before ++ c :: after) lists)
    (hloose : ∀ d ∈ after, d.kind ≠ .loose) :
  (c.addr + c.size + 16 < info.hiBound ∧ freeChunk info.mem (c.addr + c.size + 16)) ↔
    ∃ n ∈ after.head?, n.kind = .free
  := by
  cases after with
  | nil =>
    have hend : c.addr + c.size + 16 = info.hiBound := (Tiles.at_iff.mp h.tiles).2
    simp [hend]
  | cons n after =>
    have hn : n ∈ before ++ c :: n :: after := by simp
    have hbounds := h.tiles.bounds hn
    rw [← h.next_addr, (h.freeChunk_iff hn (hloose n List.mem_cons_self)).1]
    simp only [List.head?_cons, Option.mem_some_iff, exists_eq_left', and_iff_right_iff_imp]
    omega

/-- The test for a free chunk before a chunk. -/
theorem prevFree_iff (h : Layout info (before ++ c :: after) lists)
    (hloose : ∀ d ∈ before, d.kind ≠ .loose) :
  (info.loBound < c.addr ∧ freeChunk info.mem (c.addr - 8)) ↔
    ∃ p ∈ before.getLast?, p.kind = .free
  := by
  obtain rfl | ⟨before, p, rfl⟩ := List.eq_nil_or_concat before
  · have hstart : info.loBound = c.addr := (Tiles.at_iff.mp h.tiles).1
    simp [hstart]
  · rw [List.concat_eq_append] at h hloose ⊢
    have hp : p ∈ before ++ [p] ++ c :: after := by simp
    have hbounds := h.tiles.bounds hp
    have haddr := h.prev_addr
    rw [show c.addr - 8 = p.addr + 8 + p.size by omega,
      (h.freeChunk_iff hp (hloose p (by simp))).2]
    simp only [List.getLast?_concat, Option.mem_some_iff, exists_eq_left', and_iff_right_iff_imp]
    omega

end Layout

end Memory
