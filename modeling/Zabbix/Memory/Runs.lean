import Zabbix.Memory.Client

/-!
# Runs of a segment

From its creation on a segment is in order after every sequence of calls.
-/

namespace Memory

/-! ### What no operation changes -/

namespace Info

variable (info : Info) (n m chunk size : ℕ)

/-- The bounds and the total size. -/
def limits : ℕ × ℕ × ℕ := (info.loBound, info.hiBound, info.totalSize)

theorem limits_eq (mem buckets : ℕ → ℕ) :
  { info with mem := mem, buckets := buckets }.limits = info.limits
  := rfl

@[simp]
theorem limits_setCounters : (info.setCounters n m).limits = info.limits
  := by
  unfold setCounters
  rfl

@[simp] theorem limits_addUsed : (info.addUsed n).limits = info.limits := limits_setCounters ..
@[simp] theorem limits_subUsed : (info.subUsed n).limits = info.limits := limits_setCounters ..
@[simp] theorem limits_addFree : (info.addFree n).limits = info.limits := limits_setCounters ..
@[simp] theorem limits_subFree : (info.subFree n).limits = info.limits := limits_setCounters ..

@[simp]
theorem limits_memSetChunkSize : (info.memSetChunkSize chunk size).limits = info.limits
  := limits_eq ..

@[simp]
theorem limits_memSetUsedChunkSize : (info.memSetUsedChunkSize chunk size).limits = info.limits
  := limits_eq ..

@[simp]
theorem limits_memLinkChunk : (info.memLinkChunk chunk).limits = info.limits := limits_eq ..

@[simp]
theorem limits_memUnlinkChunk : (info.memUnlinkChunk chunk).limits = info.limits := limits_eq ..

@[simp]
theorem limits_memcpy (srcMem : ℕ → ℕ) (src : ℕ) :
  (info.memcpy chunk srcMem src size).limits = info.limits
  := limits_eq ..

@[simp]
theorem limits_memMalloc : (info.memMalloc size).2.limits = info.limits
  := by
  rw [Layout.memMalloc_eq]
  unfold take
  dsimp only
  split_ifs <;> simp

@[simp]
theorem limits_memFree (ptr : ℕ) : (info.memFree ptr).limits = info.limits
  := by
  unfold memFree
  dsimp only
  split_ifs <;> simp

theorem limits_memRestore (tmp : ℕ → ℕ) :
  ∀ info' ∈ info.memRestore chunk size tmp, info'.limits = info.limits
  := by
  unfold memRestore
  dsimp only
  split_ifs
  · simp
  · rintro _ ⟨⟩
    simp
  · rintro _ ⟨⟩
    simp

theorem limits_memRealloc (old : ℕ) :
  ∀ result ∈ info.memRealloc old size, result.2.limits = info.limits
  := by
  have hmalloc := info.limits_memMalloc (memProperAllocSize size)
  unfold memRealloc
  dsimp only
  generalize memProperAllocSize size = proper at *
  cases hresult : info.memMalloc proper with
  | mk chunk info' =>
  rw [hresult] at hmalloc
  have hcopy := (info'.memFree old).limits_memMalloc proper
  cases hresult' : (info'.memFree old).memMalloc proper with
  | mk chunk' info₂ =>
  rw [hresult', limits_memFree] at hcopy
  split_ifs
  iterate 5
    rintro _ ⟨⟩
    simp
  cases chunk with
  | some newChunk =>
    rintro _ ⟨⟩
    simpa using hmalloc
  | none =>
    simp only [hresult']
    cases chunk' with
    | some newChunk =>
      rintro _ ⟨⟩
      rw [limits_memcpy]
      exact hcopy.trans hmalloc
    | none =>
      intro result hmem
      obtain ⟨info₃, hrestore, rfl⟩ := Option.map_eq_some_iff.mp hmem
      exact (info₂.limits_memRestore _ _ _ info₃ hrestore).trans (hcopy.trans hmalloc)

end Info

theorem State.step_limits {s s' : State} {call : Call} (hstep : s.step call = some s') :
  s'.info.limits = s.info.limits
  := by
  cases call with
  | malloc size =>
    obtain ⟨⟨result, info'⟩, hcall, hrest⟩ := Option.bind_eq_some_iff.mp hstep
    obtain ⟨-, -, rfl⟩ := zbxMemMalloc_eq_some hcall
    cases result with
    | some ptr =>
      obtain rfl := Option.some.inj hrest
      exact s.info.limits_memMalloc size
    | none =>
      obtain rfl := Option.some.inj hrest
      exact s.info.limits_memMalloc size
  | realloc old size =>
    by_cases hold : old = 0
    · simp only [State.step, if_pos hold] at hstep
      obtain ⟨⟨result, info'⟩, hcall, hrest⟩ := Option.bind_eq_some_iff.mp hstep
      obtain ⟨ptr, -, hdone⟩ := Option.bind_eq_some_iff.mp hrest
      obtain rfl := Option.some.inj hdone
      obtain ⟨-, chunk, hmalloc, -⟩ := zbxMemRealloc_eq_some hcall
      rw [if_pos rfl] at hmalloc
      have hlimits := s.info.limits_memMalloc size
      rwa [Option.some.inj hmalloc] at hlimits
    · simp only [State.step, if_neg hold] at hstep
      obtain ⟨b, -, hstep⟩ := Option.bind_eq_some_iff.mp hstep
      obtain ⟨⟨result, info'⟩, hcall, hrest⟩ := Option.bind_eq_some_iff.mp hstep
      obtain ⟨ptr, -, hdone⟩ := Option.bind_eq_some_iff.mp hrest
      obtain rfl := Option.some.inj hdone
      obtain ⟨-, chunk, hrealloc, -⟩ := zbxMemRealloc_eq_some hcall
      rw [if_neg hold] at hrealloc
      exact s.info.limits_memRealloc size old _ hrealloc
  | free ptr =>
    obtain ⟨b, -, hstep⟩ := Option.bind_eq_some_iff.mp hstep
    obtain ⟨info', hcall, hdone⟩ := Option.bind_eq_some_iff.mp hstep
    obtain rfl := Option.some.inj hdone
    unfold zbxMemFree at hcall
    split_ifs at hcall
    obtain rfl := Option.some.inj hcall
    exact s.info.limits_memFree ptr
  | write ptr offset word =>
    obtain ⟨b, -, hstep⟩ := Option.bind_eq_some_iff.mp hstep
    split_ifs at hstep
    obtain rfl := Option.some.inj hstep
    exact s.info.limits_eq _ s.info.buckets

/-! ### The segment when it is created -/

section Create

variable {mem : ℕ → ℕ} {base size descrLen paramLen : ℕ} {info : Info}

/-- The bounds of a segment that has been created. -/
theorem zbxMemCreate_limits (h : zbxMemCreate mem base size descrLen paramLen = some info)
    (hroom : info.loBound + 40 ≤ info.hiBound) :
  0 < info.loBound ∧ info.hiBound < info.loBound + memFlgUsed ∧
  info.totalSize = info.hiBound - info.loBound - 16 ∧ ProperSize info.totalSize
  := by
  unfold zbxMemCreate at h
  split_ifs at h with hsize
  obtain rfl := Option.some.inj h
  dsimp only at hroom ⊢
  unfold memMinSize memMaxSize at hsize
  unfold ProperSize memFlgUsed memMinAlloc
  generalize hlo : align8 (align8 (align8 base + memInfoSize) + memBucketCount * 8
    + (descrLen + 1) + (paramLen + 1)) = lo at *
  generalize hhi : align8 (base + size - 8) = hi at *
  have htotal : wrapSub hi (lo + 2 * memSizeField) = hi - lo - 16 := by
    unfold wrapSub memSizeField
    unfold align8 memInfoSize memBucketCount memMaxBucketSize memMinAlloc at hlo
    unfold align8 at hhi
    omega
  rw [htotal]
  unfold align8 memInfoSize memBucketCount memMaxBucketSize memMinAlloc at hlo
  unfold align8 at hhi
  omega

/-- The contents of a segment that has been created. -/
theorem zbxMemCreate_contents (h : zbxMemCreate mem base size descrLen paramLen = some info) :
  info.mem = Function.update (Function.update
    (setSizeFields mem info.loBound info.totalSize info.totalSize) (info.loBound + 8) 0)
    (info.loBound + 16) 0 ∧
  info.buckets = Function.update (fun _ => 0) (memBucketBySize info.totalSize) info.loBound ∧
  info.usedSize = 0 ∧ info.freeSize = info.totalSize
  := by
  unfold zbxMemCreate at h
  split_ifs at h with hsize
  obtain rfl := Option.some.inj h
  exact ⟨rfl, rfl, rfl, rfl⟩

/-- A segment that has been created is one free chunk. -/
theorem zbxMemCreate_valid (h : zbxMemCreate mem base size descrLen paramLen = some info)
    (hroom : info.loBound + 40 ≤ info.hiBound) :
  ∃ lists, Valid ⟨info, .empty⟩ [⟨info.loBound, info.totalSize, .free⟩] lists ∧
    Accounted info [⟨info.loBound, info.totalSize, .free⟩]
  := by
  obtain ⟨hpositive, hsmall, htotal, hproper⟩ := zbxMemCreate_limits h hroom
  obtain ⟨hmem, hbuckets, hu, hf⟩ := zbxMemCreate_contents h
  set lo := info.loBound
  set index := memBucketBySize info.totalSize with hindex
  have hmin := hproper.2
  unfold memMinAlloc at hmin
  have hword : ∀ x, x ≠ lo + 8 → x ≠ lo + 16 →
      info.mem x = setSizeFields mem lo info.totalSize info.totalSize x := by
    intro x h8 h16
    rw [hmem, Function.update_of_ne h16, Function.update_of_ne h8]
  have hprev : info.mem (lo + 8) = 0 := by
    rw [hmem, Function.update_of_ne (by omega), Function.update_self]
  have hnext : info.mem (lo + 16) = 0 := by
    rw [hmem, Function.update_self]
  refine ⟨Function.update (fun _ => []) index [lo], ?_, ?_⟩
  · refine ⟨⟨⟨⟨rfl, ?_⟩, hpositive, hsmall, by simpa using hproper, ?_, ?_, ?_, ?_⟩,
      by simp, List.isChain_singleton _⟩, ?_, ?_⟩
    · change lo + info.totalSize + 16 = info.hiBound
      omega
    · simp only [List.mem_singleton, forall_eq]
      constructor
      · exact (hword lo (by omega) (by omega)).trans (setSizeFields_left ..)
      · refine (hword _ ?_ ?_).trans (setSizeFields_right ..)
        · dsimp only
          omega
        · dsimp only
          omega
    · intro i
      rw [hbuckets]
      by_cases hi : i = index
      · rw [hi, Function.update_self, Function.update_self]
        exact ⟨lo, rfl, by omega, hprev, rfl, hnext⟩
      · rw [Function.update_of_ne hi, Function.update_of_ne hi]
        exact ⟨0, rfl, rfl⟩
    · intro i
      by_cases hi : i = index
      · rw [hi, Function.update_self]
        exact List.nodup_singleton lo
      · rw [Function.update_of_ne hi]
        exact List.nodup_nil
    · intro i a
      simp only [List.mem_singleton, exists_eq_left, true_and, ← hindex]
      by_cases hi : i = index
      · rw [hi, Function.update_self]
        simp [eq_comm]
      · rw [Function.update_of_ne hi]
        simp [Ne.symm hi]
    · simp
    · simp
  · simp [Accounted, hu, hf]

end Create

/-! ### The chunks of a segment -/

/-- The chunks from an address on, one after the other. -/
def chunksFrom (mem : ℕ → ℕ) (hiBound : ℕ) : (rounds chunk : ℕ) → List Chunk
  | 0, _ => []
  | rounds + 1, chunk =>
    if chunk < hiBound then
      ⟨chunk, chunkSize mem chunk, if freeChunk mem chunk then .free else .used⟩
        :: chunksFrom mem hiBound rounds (chunk + chunkSize mem chunk + 16)
    else []

/-- The chunks of a segment by their left size fields. -/
def Info.chunks (info : Info) : List Chunk :=
  chunksFrom info.mem info.hiBound info.hiBound info.loBound

theorem chunksFrom_eq {mem : ℕ → ℕ} {lo hi rounds : ℕ} {chunks : List Chunk}
    (h : Tiles 16 lo hi chunks) (hrounds : hi ≤ lo + rounds)
    (hchunks : ∀ c ∈ chunks, chunkSize mem c.addr = c.size ∧
      (freeChunk mem c.addr ↔ c.kind = .free) ∧ c.kind ≠ .loose) :
  chunksFrom mem hi rounds lo = chunks
  := by
  induction chunks generalizing lo rounds with
  | nil =>
    have hend : lo = hi := h
    cases rounds with
    | zero => rfl
    | succ rounds =>
      unfold chunksFrom
      rw [if_neg (by omega)]
  | cons c chunks ih =>
    obtain ⟨rfl, hrest⟩ := h
    obtain ⟨⟨hsize, hfree, hloose⟩, htail⟩ := List.forall_mem_cons.mp hchunks
    have hle := hrest.le
    cases rounds with
    | zero => omega
    | succ rounds =>
      have hkind : (if freeChunk mem c.addr then Kind.free else Kind.used) = c.kind := by
        cases hk : c.kind with
        | used => rw [if_neg (by simp [hfree, hk])]
        | free => rw [if_pos (by simp [hfree, hk])]
        | loose => exact absurd hk hloose
      unfold chunksFrom
      rw [if_pos (by omega), hsize, hkind, ih hrest (by omega) htail]

/-- Between operations the size fields tell all chunks. -/
theorem Settled.chunks_eq {info : Info} {chunks : List Chunk} {lists : ℕ → List ℕ}
    (h : Settled info chunks lists) :
  info.chunks = chunks
  := by
  apply chunksFrom_eq h.tiles (Nat.le_add_left ..)
  intro c hc
  have hloose := h.not_loose c hc
  exact ⟨(h.chunkSize_eq hc hloose).1, (h.freeChunk_iff hc hloose).1, hloose⟩

/-! ### Runs -/

/-- The segment of a state is in order, with the bounds of the segment that was created. -/
def InOrder (info : Info) (s : State) : Prop :=
  s.info.limits = info.limits ∧ ∃ lists, Valid s s.info.chunks lists

theorem InOrder.of_valid {info : Info} {s : State} {chunks : List Chunk} {lists : ℕ → List ℕ}
    (hlimits : s.info.limits = info.limits) (h : Valid s chunks lists) :
  InOrder info s
  := ⟨hlimits, lists, h.toSettled.chunks_eq.symm ▸ h⟩

section Runs

variable {mem : ℕ → ℕ} {base size descrLen paramLen : ℕ} {info : Info} {s s' : State}
  {meets : State → Call → Prop} {calls : List Call}

/-- Every call keeps the segment in order, and the counters unless a block grows. -/
theorem InOrder.step (h : InOrder info s) {call : Call} (hstep : s.step call = some s') :
  InOrder info s' ∧
  (NoGrowth s call → Accounted s.info s.info.chunks → Accounted s'.info s'.info.chunks)
  := by
  obtain ⟨hlimits, lists, hvalid⟩ := h
  obtain ⟨chunks', lists', hvalid', haccounted⟩ := hvalid.step hstep
  have heq := hvalid'.toSettled.chunks_eq
  exact ⟨.of_valid ((State.step_limits hstep).trans hlimits) hvalid', heq.symm ▸ haccounted⟩

/-- A segment that has been created is in order and accounted for. -/
theorem created (hcreate : zbxMemCreate mem base size descrLen paramLen = some info)
    (hroom : info.loBound + 40 ≤ info.hiBound) :
  InOrder info ⟨info, .empty⟩ ∧ Accounted info info.chunks
  := by
  obtain ⟨lists, hvalid, haccounted⟩ := zbxMemCreate_valid hcreate hroom
  exact ⟨.of_valid rfl hvalid, hvalid.toSettled.chunks_eq.symm ▸ haccounted⟩

/-- From its creation on a segment is in order. -/
theorem run_inOrder (hcreate : zbxMemCreate mem base size descrLen paramLen = some info)
    (hroom : info.loBound + 40 ≤ info.hiBound)
    (run : Run (StepOf State.step) meets ⟨info, .empty⟩ calls s) :
  InOrder info s
  := by
  apply run.invariant (created hcreate hroom).1
  intro s call s' h _ hstep
  exact (h.step hstep).1

end Runs

/-! ### Integrity -/

/-- A segment whose chunks tile the region that was created, are marked on both sides and
listed in the right buckets, and whose blocks have room of their own and what was written
to them. -/
structure Intact (info : Info) (s : State) : Prop where
  tiles : Tiles 16 info.loBound info.hiBound s.info.chunks
  marked : ∀ c ∈ s.info.chunks, c.kind ≠ .loose ∧ Marked s.info.mem c
  sizes : ∀ c ∈ s.info.chunks, c.size % 8 = 0 ∧ memMinAlloc ≤ c.size
  no_free_pair : NoFreePair s.info.chunks
  listed : ∃ lists : ℕ → List ℕ, ∀ i,
    LinkedList.Linked 8 16 s.info.mem (s.info.buckets i) (lists i) ∧ (lists i).Nodup ∧
    ∀ a, a ∈ lists i ↔
      ∃ c ∈ s.info.chunks, c.addr = a ∧ c.kind = .free ∧ memBucketBySize c.size = i
  held : ∀ c ∈ s.info.chunks, c.kind = .used → ∃ b, s.blocks.search (c.addr + 8) = some b
  room : ∀ ptr b, s.blocks.search ptr = some b →
    ∃ c ∈ s.info.chunks, c.kind = .used ∧ c.addr + 8 = ptr ∧ b.requested ≤ c.size
  apart : ∀ ptr b ptr' b', s.blocks.search ptr = some b → s.blocks.search ptr' = some b' →
    ptr ≠ ptr' → ptr + b.requested ≤ ptr' ∨ ptr' + b'.requested ≤ ptr
  contents : ∀ ptr b, s.blocks.search ptr = some b →
    ∀ i < b.requested, s.info.mem (ptr + i) = b.words i

theorem InOrder.intact {info : Info} {s : State} (h : InOrder info s) :
  Intact info s
  := by
  obtain ⟨hlimits, lists, hvalid⟩ := h
  obtain ⟨hlo, hhi, -⟩ : s.info.loBound = info.loBound ∧ s.info.hiBound = info.hiBound ∧
      s.info.totalSize = info.totalSize := by
    simpa [Info.limits] using hlimits
  have hblock : ∀ ptr b, s.blocks.search ptr = some b → ∃ c ∈ s.info.chunks, c.kind = .used ∧
      c.addr + 8 = ptr ∧ b.requested ≤ c.size ∧
      ∀ i < b.requested, s.info.mem (ptr + i) = b.words i := by
    intro ptr b hsearch
    obtain ⟨c, hc, hused, rfl⟩ := hvalid.chunk ptr b hsearch
    obtain ⟨b', hsearch', hsize, hwords⟩ := hvalid.block c hc hused
    obtain rfl := Option.some.inj (hsearch.symm.trans hsearch')
    exact ⟨c, hc, hused, rfl, hsize, hwords⟩
  refine ⟨hlo ▸ hhi ▸ hvalid.tiles, fun c hc => ⟨hvalid.not_loose c hc, hvalid.marked c hc⟩,
    hvalid.sizes, hvalid.no_free_pair,
    ⟨lists, fun i => ⟨hvalid.linked i, hvalid.nodup i, hvalid.listed i⟩⟩, ?_, ?_, ?_, ?_⟩
  · intro c hc hused
    obtain ⟨b, hsearch, -⟩ := hvalid.block c hc hused
    exact ⟨b, hsearch⟩
  · intro ptr b hsearch
    obtain ⟨c, hc, hused, haddr, hsize, -⟩ := hblock ptr b hsearch
    exact ⟨c, hc, hused, haddr, hsize⟩
  · intro ptr b ptr' b' hsearch hsearch' hne
    obtain ⟨c, hc, -, rfl, hsize, -⟩ := hblock ptr b hsearch
    obtain ⟨c', hc', -, rfl, hsize', -⟩ := hblock ptr' b' hsearch'
    obtain rfl | hfar := hvalid.far hc hc'
    · contradiction
    · omega
  · intro ptr b hsearch
    obtain ⟨-, -, -, -, -, hwords⟩ := hblock ptr b hsearch
    exact hwords

/-- From its creation on a segment is intact after every sequence of calls. -/
theorem run_intact {mem : ℕ → ℕ} {base size descrLen paramLen : ℕ} {info : Info} {s : State}
    {calls : List Call} (hcreate : zbxMemCreate mem base size descrLen paramLen = some info)
    (hroom : info.loBound + 40 ≤ info.hiBound)
    (run : Run (StepOf State.step) (fun _ _ => True) ⟨info, .empty⟩ calls s) :
  Intact info s
  := (run_inOrder hcreate hroom run).intact

/-- The calls of a run from the creation of a small segment. -/
def runSmall (calls : List Call) : Option State :=
  (zbxMemCreate (fun _ => 0) 8 1024 0 0).bind fun info =>
    execute State.step ⟨info, .empty⟩ calls

/-- A block grows into the chunk after it, another one is moved and one is cut off. -/
def sampleCalls : List Call :=
  [.malloc 100, .write 352 96 7, .malloc 24, .malloc 200, .free 472, .realloc 352 120,
    .realloc 512 20, .realloc 352 300]

theorem sampleCalls_intact :
  (runSmall sampleCalls).isSome ∧ ∀ s ∈ runSmall sampleCalls,
    ∀ info ∈ zbxMemCreate (fun _ => 0) 8 1024 0 0, Intact info s
  := by
  refine ⟨by decide +kernel, ?_⟩
  intro s hs info hinfo
  obtain ⟨info', hinfo', hexecute⟩ := Option.bind_eq_some_iff.mp hs
  obtain rfl := Option.some.inj (hinfo.symm.trans hinfo')
  have hroom : ∀ info ∈ zbxMemCreate (fun _ => 0) 8 1024 0 0,
      info.loBound + 40 ≤ info.hiBound := by
    decide
  exact run_intact hinfo (hroom info hinfo) (Run.of_execute hexecute (.trivial _ _))

end Memory
