import Zabbix.Memory.Runs

/-!
# The counters of a segment

The counters `used_size` and `free_size` are the numbers of bytes in the chunks in use and
in the free chunks, as long as no block grows into the free chunk after it. When one does,
the two size fields between the chunks become data, but are not counted as such.
-/

namespace Memory

theorem sizeOf_eq_zero {chunks : List Chunk} {kind : Kind} (h : ∀ c ∈ chunks, c.kind ≠ kind) :
  sizeOf kind chunks = 0
  := by
  induction chunks with
  | nil => rfl
  | cons c chunks ih =>
    obtain ⟨hc, hchunks⟩ := List.forall_mem_cons.mp h
    rw [sizeOf_cons, if_neg hc, ih hchunks]

section

variable {mem : ℕ → ℕ} {base size descrLen paramLen : ℕ} {info : Info} {s : State}
  {calls : List Call}

/-- The chunks of a segment in order and the size fields between them make up the total
size. -/
theorem InOrder.total (hcreate : zbxMemCreate mem base size descrLen paramLen = some info)
    (hroom : info.loBound + 40 ≤ info.hiBound) (h : InOrder info s) :
  sizeOf .used s.info.chunks + sizeOf .free s.info.chunks
    + 2 * memSizeField * (s.info.chunks.length - 1) = s.info.totalSize
  := by
  obtain ⟨-, -, htotal, -⟩ := zbxMemCreate_limits hcreate hroom
  obtain ⟨hlimits, lists, hvalid⟩ := h
  obtain ⟨hlo, hhi, htotal'⟩ : s.info.loBound = info.loBound ∧ s.info.hiBound = info.hiBound ∧
      s.info.totalSize = info.totalSize := by
    simpa [Info.limits] using hlimits
  have hlength := tiles_length hvalid.tiles
  rw [sizeOf_eq_zero hvalid.not_loose] at hlength
  have hsome : s.info.chunks.length ≠ 0 := by
    intro hnil
    rw [List.length_eq_zero_iff.mp hnil] at hlength
    simp only [sizeOf_nil, List.length_nil] at hlength
    omega
  unfold memSizeField
  omega

/-- In a run in which no block grows into the free chunk after it the counters are right. -/
theorem run_accounted (hcreate : zbxMemCreate mem base size descrLen paramLen = some info)
    (hroom : info.loBound + 40 ≤ info.hiBound)
    (run : Run (StepOf State.step) NoGrowth ⟨info, .empty⟩ calls s) :
  s.info.usedSize = sizeOf .used s.info.chunks ∧
  s.info.freeSize = sizeOf .free s.info.chunks ∧
  s.info.usedSize + s.info.freeSize + 2 * memSizeField * (s.info.chunks.length - 1)
    = s.info.totalSize
  := by
  obtain ⟨horder, hu, hf⟩ : InOrder info s ∧ Accounted s.info s.info.chunks := by
    apply run.invariant (created hcreate hroom)
    rintro s call s' ⟨h, haccounted⟩ hno hstep
    exact ⟨(h.step hstep).1, (h.step hstep).2 hno haccounted⟩
  refine ⟨hu, hf, ?_⟩
  rw [hu, hf]
  exact horder.total hcreate hroom

end

/-- Blocks are allocated, moved, cut off and freed, and none of them grows. -/
def calmCalls : List Call :=
  [.malloc 100, .malloc 100, .malloc 24, .realloc 352 200, .realloc 472 20, .free 592]

theorem calmCalls_accounted :
  (runSmall calmCalls).isSome ∧ ∀ s ∈ runSmall calmCalls,
    s.info.usedSize = sizeOf .used s.info.chunks ∧
    s.info.freeSize = sizeOf .free s.info.chunks ∧
    s.info.usedSize + s.info.freeSize + 2 * memSizeField * (s.info.chunks.length - 1)
      = s.info.totalSize
  := by
  constructor
  · decide +kernel
  · intro s hs
    obtain ⟨info, hinfo, hexecute⟩ := Option.bind_eq_some_iff.mp hs
    have hroom : ∀ info ∈ zbxMemCreate (fun _ => 0) 8 1024 0 0,
        info.loBound + 40 ≤ info.hiBound ∧
          MeetsAll State.step NoGrowth ⟨info, .empty⟩ calmCalls := by
      decide +kernel
    obtain ⟨hle, hmeets⟩ := hroom info hinfo
    exact run_accounted hinfo hle (Run.of_execute hexecute hmeets)

/-- A block grows until there is no free chunk. -/
def growingCalls : List Call := [.malloc 600, .realloc 352 660]

/-- The counter of the free bytes has wrapped below zero. -/
theorem growingCalls_notAccounted :
  (runSmall growingCalls).map (fun s => (sizeOf .free s.info.chunks, s.info.freeSize))
    = some (0, 2 ^ 64 - 16) ∧
  ¬ ∀ (info : Info) (calls : List Call) (s : State),
    zbxMemCreate (fun _ => 0) 8 1024 0 0 = some info →
    Run (StepOf State.step) (fun _ _ => True) ⟨info, .empty⟩ calls s →
    s.info.freeSize = sizeOf .free s.info.chunks
  := by
  have hend : (runSmall growingCalls).map
      (fun s => (sizeOf .free s.info.chunks, s.info.freeSize)) = some (0, 2 ^ 64 - 16) := by
    decide +kernel
  refine ⟨hend, ?_⟩
  intro hall
  obtain ⟨s, hs, hsizes⟩ := Option.map_eq_some_iff.mp hend
  obtain ⟨info, hinfo, hexecute⟩ := Option.bind_eq_some_iff.mp hs
  have heq := hall info _ s hinfo (Run.of_execute hexecute (.trivial _ _))
  rw [(Prod.mk.inj hsizes).1, (Prod.mk.inj hsizes).2] at heq
  exact absurd heq (by decide)

end Memory
