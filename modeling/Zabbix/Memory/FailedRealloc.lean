import Zabbix.Memory.Runs

/-!
# A reallocation that fails

When there is no memory for the new size, `__mem_realloc` frees the block, tries once more
and then restores the block. The counters are not restored, so that it never leaves the
segment as it was.
-/

namespace Memory

namespace Info

variable (info : Info)

@[simp]
theorem memcpy_usedSize (dst : ℕ) (srcMem : ℕ → ℕ) (src size : ℕ) :
  (info.memcpy dst srcMem src size).usedSize = info.usedSize
  := (info.counters_eq _ info.buckets).1

theorem memFree_usedSize (ptr : ℕ) :
  (info.memFree ptr).usedSize
    = wrapSub info.usedSize (chunkSize info.mem (ptr - memSizeField))
  := by
  unfold memFree
  dsimp only
  split_ifs <;> simp

theorem memRestore_usedSize (chunk size : ℕ) (tmp : ℕ → ℕ) :
  ∀ info' ∈ info.memRestore chunk size tmp, info'.usedSize = info.usedSize
  := by
  unfold memRestore
  dsimp only
  split_ifs
  · simp
  · rintro _ ⟨⟩
    simp
  · rintro _ ⟨⟩
    simp

theorem memMalloc_of_none {size : ℕ} {info' : Info}
    (h : info.memMalloc size = (none, info')) :
  info' = info
  := by
  rw [Layout.memMalloc_eq] at h
  dsimp only at h
  split_ifs at h
  · exact (Prod.mk.inj h).2.symm
  · cases (Prod.mk.inj h).1

/-- The bytes of the block are not counted any more. -/
theorem memRealloc_usedSize {old size : ℕ} {info' : Info}
    (h : info.memRealloc old size = some (none, info')) :
  info'.usedSize = wrapSub info.usedSize (chunkSize info.mem (old - memSizeField))
  := by
  unfold memRealloc at h
  dsimp only at h
  generalize memProperAllocSize size = proper at h
  cases hmalloc : info.memMalloc proper with
  | mk chunk info₁ =>
  rw [hmalloc] at h
  cases chunk with
  | some newChunk => split_ifs at h <;> cases h
  | none =>
    obtain rfl := info.memMalloc_of_none hmalloc
    cases hcopy : (info₁.memFree old).memMalloc proper with
    | mk chunk info₂ =>
    simp only [hcopy] at h
    cases chunk with
    | some newChunk => split_ifs at h <;> cases h
    | none =>
      obtain rfl := Info.memMalloc_of_none _ hcopy
      split_ifs at h
      iterate 5 cases h
      obtain ⟨info₃, hrestore, heq⟩ := Option.map_eq_some_iff.mp h
      obtain rfl := (Prod.mk.inj heq).2
      rw [memRestore_usedSize _ _ _ _ _ hrestore, memFree_usedSize]

end Info

theorem wrapSub_ne {a b : ℕ} (hb : 0 < b) (hlt : b < 2 ^ 64) :
  wrapSub a b ≠ a
  := by
  unfold wrapSub
  omega

namespace State

variable (s : State)

/-- The segment after `zbx_mem_realloc` has returned `NULL` for a block in use. -/
def failedRealloc (old size : ℕ) : Option Info := do
  let _ ← s.blocks.search old
  match zbxMemRealloc s.info old size with
  | some (none, info) => some info
  | _ => none

/-- One call, where the block is still in use after a `zbx_mem_realloc` that returns
`NULL`. -/
def attempt (s : State) : Call → Option State
  | .realloc old size =>
    match s.failedRealloc old size with
    | some info => some ⟨info, s.blocks⟩
    | none => s.step (.realloc old size)
  | call => s.step call

end State

/-- A segment is as it was: its chunks, its lists, the data of all blocks and the
counters. -/
structure Unchanged (s : State) (info' : Info) : Prop where
  chunks : info'.chunks = s.info.chunks
  lists : ∀ lists : ℕ → List ℕ,
    (∀ i, LinkedList.Linked 8 16 s.info.mem (s.info.buckets i) (lists i)) →
    ∀ i, LinkedList.Linked 8 16 info'.mem (info'.buckets i) (lists i)
  contents : ∀ ptr b, s.blocks.search ptr = some b →
    ∀ i < b.requested, info'.mem (ptr + i) = s.info.mem (ptr + i)
  counters : info'.usedSize = s.info.usedSize ∧ info'.freeSize = s.info.freeSize

/-- A call that reallocates a block leaves the segment as it was when it fails. -/
def Atomic (s : State) : Call → Prop
  | .realloc old size => ∀ info' ∈ s.failedRealloc old size, Unchanged s info'
  | .malloc _ | .free _ | .write _ _ _ => True

/-- The call is not one that fails to reallocate a block. -/
def NoFailure (s : State) : Call → Prop
  | .realloc old size => (s.failedRealloc old size).isNone
  | .malloc _ | .free _ | .write _ _ _ => True

instance (s : State) : ∀ call, Decidable (NoFailure s call)
  | .realloc old size => inferInstanceAs (Decidable ((s.failedRealloc old size).isNone = true))
  | .malloc _ | .free _ | .write _ _ _ => inferInstanceAs (Decidable True)

section

variable {mem : ℕ → ℕ} {base size descrLen paramLen : ℕ} {info : Info} {s s' : State}

/-- A failure is never without effect. -/
theorem InOrder.failedRealloc_changes (h : InOrder info s) {old size : ℕ} {info' : Info}
    (hfailed : s.failedRealloc old size = some info') :
  ¬ Unchanged s info'
  := by
  intro hunchanged
  obtain ⟨b, hsearch, hfailed⟩ := Option.bind_eq_some_iff.mp hfailed
  split at hfailed
  case h_2 => cases hfailed
  case h_1 info₁ hcall =>
    obtain rfl := Option.some.inj hfailed
    obtain ⟨-, lists, hvalid⟩ := h
    obtain ⟨c, hc, hused, rfl⟩ := hvalid.chunk old b hsearch
    obtain ⟨-, chunk, hrealloc, hnone⟩ := zbxMemRealloc_eq_some hcall
    rw [if_neg (by omega)] at hrealloc
    obtain rfl : chunk = none := by simpa using hnone.symm
    have heq := s.info.memRealloc_usedSize hrealloc
    have hptr : c.addr + 8 - memSizeField = c.addr := Nat.add_sub_cancel ..
    rw [hptr, (hvalid.chunkSize_eq hc (by simp [hused])).1, hunchanged.counters.1] at heq
    have hmin := (hvalid.sizes c hc).2
    have hlt := hvalid.size_lt hc
    unfold memMinAlloc at hmin
    unfold memFlgUsed at hlt
    exact wrapSub_ne (by omega) (by omega) heq.symm

/-- A call is atomic only when it does not fail. -/
theorem InOrder.atomic_iff (h : InOrder info s) (call : Call) :
  Atomic s call ↔ NoFailure s call
  := by
  cases call with
  | realloc old size =>
    simp only [Atomic, NoFailure]
    rw [Option.isNone_iff_eq_none, Option.eq_none_iff_forall_ne_some]
    constructor
    · exact fun hatomic info' hfailed => h.failedRealloc_changes hfailed (hatomic info' hfailed)
    · exact fun hno info' hfailed => absurd hfailed (hno info')
  | malloc _ | free _ | write _ _ _ => exact Iff.rfl

/-- A call that does not fail is one of the calls between which a segment is in order. -/
theorem attempt_eq_step {call : Call} (h : NoFailure s call) :
  s.attempt call = s.step call
  := by
  cases call with
  | realloc old size =>
    unfold NoFailure at h
    simp only [State.attempt]
    rw [Option.isNone_iff_eq_none.mp h]
  | malloc _ | free _ | write _ _ _ => rfl

theorem InOrder.meetsAll_atomic_iff (h : InOrder info s) (calls : List Call) :
  MeetsAll State.attempt Atomic s calls ↔ MeetsAll State.attempt NoFailure s calls
  := by
  induction calls generalizing s with
  | nil => exact Iff.rfl
  | cons call calls ih =>
    unfold MeetsAll
    rw [h.atomic_iff]
    apply and_congr_right
    intro hno
    rw [attempt_eq_step hno]
    apply forall₂_congr
    intro s' hstep
    exact ih (h.step hstep).1

/-- The failures of a run leave the segment as it was only when there are none. -/
theorem run_atomic_iff (hcreate : zbxMemCreate mem base size descrLen paramLen = some info)
    (hroom : info.loBound + 40 ≤ info.hiBound) (calls : List Call) :
  MeetsAll State.attempt Atomic ⟨info, .empty⟩ calls ↔
    MeetsAll State.attempt NoFailure ⟨info, .empty⟩ calls
  := (created hcreate hroom).1.meetsAll_atomic_iff calls

end

/-- Three blocks are allocated, and the second one is reallocated. -/
def reallocCalls (size : ℕ) : List Call :=
  [.malloc 100, .malloc 300, .malloc 100, .realloc 472 size]

theorem reallocCalls_atomic :
  (zbxMemCreate (fun _ => 0) 8 1024 0 0).isSome ∧
  ∀ info ∈ zbxMemCreate (fun _ => 0) 8 1024 0 0,
    MeetsAll State.attempt Atomic ⟨info, .empty⟩ (reallocCalls 50)
  := by
  have hsmall : ∀ info ∈ zbxMemCreate (fun _ => 0) 8 1024 0 0,
      info.loBound + 40 ≤ info.hiBound ∧
        MeetsAll State.attempt NoFailure ⟨info, .empty⟩ (reallocCalls 50) := by
    decide +kernel
  refine ⟨by decide +kernel, ?_⟩
  intro info hcreate
  obtain ⟨hroom, hno⟩ := hsmall info hcreate
  exact (run_atomic_iff hcreate hroom _).mpr hno

/-- After the failure the block is not counted, and its chunk is free. -/
theorem reallocCalls_notAtomic :
  ((zbxMemCreate (fun _ => 0) 8 1024 0 0).bind fun info =>
    (execute State.attempt ⟨info, .empty⟩ (reallocCalls 2000)).map fun s =>
      (s.info.usedSize, s.info.chunks.map Piece.kind, s.blocks.keys))
    = some (208, [.used, .free, .used, .free], [792, 472, 352]) ∧
  ¬ ∀ (info : Info) (calls : List Call), zbxMemCreate (fun _ => 0) 8 1024 0 0 = some info →
    MeetsAll State.attempt Atomic ⟨info, .empty⟩ calls
  := by
  constructor
  · decide +kernel
  · intro hall
    have hsmall : ∀ info ∈ zbxMemCreate (fun _ => 0) 8 1024 0 0,
        info.loBound + 40 ≤ info.hiBound ∧
          ¬ MeetsAll State.attempt NoFailure ⟨info, .empty⟩ (reallocCalls 2000) := by
      decide +kernel
    have hsome : (zbxMemCreate (fun _ => 0) 8 1024 0 0).isSome := by decide +kernel
    obtain ⟨info, hcreate⟩ := Option.isSome_iff_exists.mp hsome
    obtain ⟨hroom, hfails⟩ := hsmall info hcreate
    have horder := (created hcreate hroom).1
    exact hfails ((horder.meetsAll_atomic_iff _).mp (hall info _ hcreate))

end Memory
