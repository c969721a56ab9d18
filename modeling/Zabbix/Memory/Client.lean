import Zabbix.Library.Run
import Zabbix.Library.Table
import Zabbix.Memory.Reallocating

/-!
# Those who hold blocks

The processes that share a segment call the public interface and write to the blocks they
hold. Every call holds the mutex of the segment, so the calls of all processes are one
sequence. What is known of a block is how many bytes were asked for and what was last
written to them.
-/

namespace Memory

/-- A block as its holder knows it. -/
structure Block where
  requested : ℕ
  words : ℕ → ℕ

/-- The segment and the blocks in use, by the pointers to them. -/
structure State where
  info : Info
  blocks : Table ℕ Block

/-- A call of the interface, or a word that is written to a block at a distance from its
start. -/
inductive Call where
  | malloc (size : ℕ)
  | realloc (old size : ℕ)
  | free (ptr : ℕ)
  | write (ptr offset word : ℕ)
deriving DecidableEq, Repr

namespace State

variable (s : State)

/-- What `zbx_mem_malloc` has returned. -/
def malloc (size : ℕ) : Option State := do
  let (result, info) ← zbxMemMalloc s.info size
  match result with
  | some ptr => some ⟨info, s.blocks.set ptr ⟨size, fun i => info.mem (ptr + i)⟩⟩
  | none => some ⟨info, s.blocks⟩

/-- What `zbx_mem_realloc` has returned for a block in use. -/
def realloc (old size : ℕ) : Option State := do
  let block ← s.blocks.search old
  let (result, info) ← zbxMemRealloc s.info old size
  let ptr ← result
  let words := fun i => if i < block.requested then block.words i else info.mem (ptr + i)
  some ⟨info, (s.blocks.remove old).set ptr ⟨size, words⟩⟩

/-- A block is given back. -/
def free (ptr : ℕ) : Option State := do
  let _ ← s.blocks.search ptr
  let info ← zbxMemFree s.info ptr
  some ⟨info, s.blocks.remove ptr⟩

/-- A word of a block is written. -/
def write (ptr offset word : ℕ) : Option State := do
  let block ← s.blocks.search ptr
  if offset < block.requested ∧ offset % 8 = 0 then
    some ⟨{ s.info with mem := Function.update s.info.mem (ptr + offset) word },
      s.blocks.set ptr { block with words := Function.update block.words offset word }⟩
  else none

/-- One call. A call with a pointer that is not in use, one that ends the process and a
`zbx_mem_realloc` that returns `NULL` are none. A `zbx_mem_realloc` of a null pointer
allocates. -/
def step (s : State) : Call → Option State
  | .malloc size => s.malloc size
  | .realloc old size =>
    if old = 0 then do
      let (result, info) ← zbxMemRealloc s.info 0 size
      let ptr ← result
      some ⟨info, s.blocks.set ptr ⟨size, fun i => info.mem (ptr + i)⟩⟩
    else s.realloc old size
  | .free ptr => s.free ptr
  | .write ptr offset word => s.write ptr offset word

end State

/-- The blocks in use are the chunks in use. A block has the bytes that were asked for and
what was written to them. -/
structure Holds (s : State) (chunks : List Chunk) : Prop where
  block : ∀ c ∈ chunks, c.kind = .used → ∃ b, s.blocks.search (c.addr + 8) = some b ∧
    b.requested ≤ c.size ∧ ∀ i < b.requested, s.info.mem (c.addr + 8 + i) = b.words i
  chunk : ∀ ptr b, s.blocks.search ptr = some b →
    ∃ c ∈ chunks, c.kind = .used ∧ c.addr + 8 = ptr

section Calls

variable {info info' : Info} {chunks chunks' : List Chunk} {lists : ℕ → List ℕ} {size old : ℕ}
  {result : Option ℕ}

theorem zbxMemMalloc_eq_some (h : zbxMemMalloc info size = some (result, info')) :
  size ≠ 0 ∧ result = (info.memMalloc size).1.map (· + memSizeField) ∧
  info' = (info.memMalloc size).2
  := by
  unfold zbxMemMalloc at h
  split_ifs at h with hbad
  refine ⟨fun h0 => hbad (Or.inl h0), ?_⟩
  cases hm : info.memMalloc size with
  | mk r i =>
    rw [hm] at h
    cases r with
    | some chunk =>
      cases h
      exact ⟨rfl, rfl⟩
    | none =>
      cases h
      exact ⟨rfl, rfl⟩

theorem zbxMemRealloc_eq_some (h : zbxMemRealloc info old size = some (result, info')) :
  size ≠ 0 ∧ ∃ chunk,
    (if old = 0 then some (info.memMalloc size) else info.memRealloc old size)
      = some (chunk, info') ∧ result = chunk.map (· + memSizeField)
  := by
  unfold zbxMemRealloc at h
  by_cases hbad : size = 0 ∨ memMaxSize < size
  · rw [if_pos hbad] at h
    cases h
  · rw [if_neg hbad] at h
    obtain ⟨⟨chunk, info₁⟩, hcall, hdone⟩ := Option.map_eq_some_iff.mp h
    obtain ⟨rfl, rfl⟩ := Prod.mk.inj hdone
    exact ⟨fun h0 => hbad (Or.inl h0), chunk, hcall, rfl⟩

end Calls

namespace Holds

variable {s : State} {info' : Info} {chunks chunks' gone new : List Chunk}
  {lists : ℕ → List ℕ}

/-- The blocks after chunks in use are replaced by others. -/
theorem replace (h : Holds s chunks) (hreplaces : Replaces s.info chunks info' chunks' gone new)
    (hsettled : Settled s.info chunks lists) (hgone : ∀ d ∈ gone, d ∈ chunks)
    {lists' : ℕ → List ℕ} (hsettled' : Settled info' chunks' lists') {blocks : Table ℕ Block}
    (hnew : ∀ d ∈ new, d.kind = .used ∧ ∃ b, blocks.search (d.addr + 8) = some b ∧
      b.requested ≤ d.size ∧ ∀ i < b.requested, info'.mem (d.addr + 8 + i) = b.words i)
    (hrest : ∀ ptr, (∀ d ∈ new, d.addr + 8 ≠ ptr) → blocks.search ptr =
      if ∃ d ∈ gone, d.addr + 8 = ptr then none else s.blocks.search ptr) :
  Holds ⟨info', blocks⟩ chunks'
  := by
  have hnewMem : ∀ d ∈ new, d ∈ chunks' :=
    fun d hd => (hreplaces.mem_iff d (hnew d hd).1).mpr (Or.inl hd)
  constructor
  · intro c hc hused
    by_cases hcn : c ∈ new
    · exact (hnew c hcn).2
    · obtain ⟨hold, hcg⟩ := ((hreplaces.mem_iff c hused).mp hc).resolve_left hcn
      obtain ⟨b, hsearch, hsize, hwords⟩ := h.block c hold hused
      refine ⟨b, ?_, hsize, ?_⟩
      · rw [hrest, if_neg, hsearch]
        · rintro ⟨d, hd, heq⟩
          have heq := hsettled.tiles.eq_of_addr_eq (by omega) (hgone d hd) hold (by omega)
          exact hcg (heq ▸ hd)
        · intro d hd heq
          have heq := hsettled'.tiles.eq_of_addr_eq (by omega) (hnewMem d hd) hc (by omega)
          exact hcn (heq ▸ hd)
      · intro i hi
        rw [← hwords i hi]
        exact hreplaces.kept c hold hused hcg _ (by omega) (by omega)
  · intro ptr b hsearch
    by_cases hptr : ∃ d ∈ new, d.addr + 8 = ptr
    · obtain ⟨d, hd, rfl⟩ := hptr
      exact ⟨d, hnewMem d hd, (hnew d hd).1, rfl⟩
    · have hnone : ∀ d ∈ new, d.addr + 8 ≠ ptr := fun d hd heq => hptr ⟨d, hd, heq⟩
      dsimp only at hsearch
      rw [hrest ptr hnone] at hsearch
      split_ifs at hsearch with hg
      obtain ⟨c, hc, hused, rfl⟩ := h.chunk ptr b hsearch
      refine ⟨c, (hreplaces.mem_iff c hused).mpr (Or.inr ⟨hc, ?_⟩), hused, rfl⟩
      exact fun hcg => hg ⟨c, hcg, rfl⟩

end Holds

/-- A segment between calls, with its blocks. -/
structure Valid (s : State) (chunks : List Chunk) (lists : ℕ → List ℕ) : Prop
    extends Settled s.info chunks lists, Holds s chunks

/-- The call is not one that lets a block grow into the free chunk after it. -/
def NoGrowth (s : State) : Call → Prop
  | .realloc old size => old ≠ 0 → ¬ s.info.GrowsInPlace old size
  | .malloc _ | .free _ | .write _ _ _ => True

instance (s : State) : ∀ call, Decidable (NoGrowth s call)
  | .realloc old size => inferInstanceAs (Decidable (old ≠ 0 → ¬ s.info.GrowsInPlace old size))
  | .malloc _ | .free _ | .write _ _ _ => inferInstanceAs (Decidable True)

namespace Valid

variable {s s' : State} {info' : Info} {chunks : List Chunk} {lists : ℕ → List ℕ} {size : ℕ}

/-- A new block. -/
theorem alloc (h : Valid s chunks lists) {chunk : ℕ}
    (hmalloc : s.info.memMalloc size = (some chunk, info')) :
  ∃ chunks' lists', Valid ⟨info', s.blocks.set (chunk + memSizeField)
      ⟨size, fun i => info'.mem (chunk + memSizeField + i)⟩⟩ chunks' lists' ∧
    (Accounted s.info chunks → Accounted info' chunks')
  := by
  obtain hnone | ⟨new, chunks', lists', hresult, hnew, hfit, hsettled, hreplaces, -,
    haccounted⟩ := h.toSettled.memMalloc size
  · rw [hmalloc] at hnone
    cases hnone
  rw [hmalloc] at hresult hsettled hreplaces haccounted
  obtain rfl : chunk = new.addr := by simpa using hresult
  dsimp only at hsettled hreplaces haccounted
  have hrequested := (memProperAllocSize_spec size).2
  refine ⟨chunks', lists', ⟨hsettled, ?_⟩, haccounted⟩
  apply h.toHolds.replace hreplaces h.toSettled (by simp) hsettled
  · intro d hd
    obtain rfl := List.mem_singleton.mp hd
    exact ⟨hnew, _, Table.search_set_self .., by dsimp only; omega, fun _ _ => rfl⟩
  · intro ptr hptr
    have hne : ptr ≠ new.addr + memSizeField := (hptr new (by simp)).symm
    rw [Table.search_set_of_ne _ _ hne]
    simp

/-- A block is reallocated. -/
theorem realloc (h : Valid s chunks lists) {old : ℕ} (hold : old ≠ 0)
    (hstep : s.realloc old size = some s') :
  ∃ chunks' lists', Valid s' chunks' lists' ∧
    (¬ s.info.GrowsInPlace old size → Accounted s.info chunks → Accounted s'.info chunks')
  := by
  unfold State.realloc at hstep
  obtain ⟨b, hsearch, hstep⟩ := Option.bind_eq_some_iff.mp hstep
  obtain ⟨⟨result, info'⟩, hcall, hrest⟩ := Option.bind_eq_some_iff.mp hstep
  obtain ⟨ptr, hptr, hdone⟩ := Option.bind_eq_some_iff.mp hrest
  obtain rfl := Option.some.inj hdone
  obtain ⟨-, chunk, hresult, rfl⟩ := zbxMemRealloc_eq_some hcall
  rw [if_neg hold] at hresult
  obtain ⟨c, hc, hused, rfl⟩ := h.chunk old b hsearch
  obtain ⟨b', hsearch', hsize, hwords⟩ := h.block c hc hused
  obtain rfl : b = b' := Option.some.inj (hsearch.symm.trans hsearch')
  obtain hnone | ⟨new, chunks', lists', hnewPtr, hnew, hfit, hsettled, hreplaces, hdata,
    haccounted⟩ := h.toSettled.memRealloc hc hused size _ hresult
  · rw [show chunk = none from hnone] at hptr
    cases hptr
  rw [show chunk = some new.addr from hnewPtr] at hptr
  obtain rfl : new.addr + memSizeField = ptr := by simpa using hptr
  have hrequested := (memProperAllocSize_spec size).2
  refine ⟨chunks', lists', ⟨hsettled, ?_⟩, ?_⟩
  · apply h.toHolds.replace hreplaces h.toSettled (by simpa using hc) hsettled
    · intro d hd
      obtain rfl := List.mem_singleton.mp hd
      refine ⟨hnew, _, Table.search_set_self .., by dsimp only; omega, ?_⟩
      intro i hi
      dsimp only
      split_ifs with hlt
      · rw [← hwords i hlt]
        dsimp only at hi
        exact hdata i (by omega)
      · rfl
    · intro ptr hptr
      have hne : ptr ≠ new.addr + memSizeField := (hptr new (by simp)).symm
      rw [Table.search_set_of_ne _ _ hne, Table.search_remove]
      simp only [List.mem_singleton, exists_eq_left]
      split_ifs with heq
      · rw [← heq, Function.update_self]
      · rw [Function.update_of_ne (Ne.symm heq)]
  · intro hgrows
    apply haccounted
    unfold Info.GrowsInPlace at hgrows ⊢
    rwa [memProperAllocSize_of_proper (memProperAllocSize_spec size).1]

/-- A block is given back. -/
theorem free (h : Valid s chunks lists) {ptr : ℕ} (hstep : s.free ptr = some s') :
  ∃ chunks' lists', Valid s' chunks' lists' ∧
    (Accounted s.info chunks → Accounted s'.info chunks')
  := by
  unfold State.free at hstep
  obtain ⟨b, hsearch, hstep⟩ := Option.bind_eq_some_iff.mp hstep
  obtain ⟨info', hcall, hstep⟩ := Option.bind_eq_some_iff.mp hstep
  unfold zbxMemFree at hcall
  split_ifs at hcall
  cases hcall
  cases hstep
  obtain ⟨c, hc, hused, rfl⟩ := h.chunk ptr b hsearch
  obtain ⟨chunks', lists', hsettled, hreplaces, haccounted⟩ := h.toSettled.memFree hc hused
  refine ⟨chunks', lists', ⟨hsettled, ?_⟩, haccounted⟩
  apply h.toHolds.replace hreplaces h.toSettled (by simpa using hc) hsettled (by simp)
  intro ptr hptr
  rw [Table.search_remove]
  simp only [List.mem_singleton, exists_eq_left]
  split_ifs with heq
  · rw [← heq, Function.update_self]
  · rw [Function.update_of_ne (Ne.symm heq)]

/-- A holder writes to a block. -/
theorem write (h : Valid s chunks lists) {ptr offset word : ℕ}
    (hstep : s.write ptr offset word = some s') :
  Valid s' chunks lists ∧ (Accounted s.info chunks → Accounted s'.info chunks)
  := by
  unfold State.write at hstep
  obtain ⟨b, hsearch, hstep⟩ := Option.bind_eq_some_iff.mp hstep
  split_ifs at hstep with hin
  cases hstep
  obtain ⟨c, hc, hused, rfl⟩ := h.chunk ptr b hsearch
  obtain ⟨b', hsearch', hsize, hwords⟩ := h.block c hc hused
  obtain rfl : b = b' := Option.some.inj (hsearch.symm.trans hsearch')
  have hmem : ∀ x, x < c.addr + 8 ∨ c.addr + 8 + c.size ≤ x →
      Function.update s.info.mem (c.addr + 8 + offset) word x = s.info.mem x := by
    intro x hx
    apply Function.update_of_ne
    omega
  have hkept := (h.toLayout.write hc hused hmem).2
  refine ⟨⟨h.toSettled.write hc hused hmem, ?_, ?_⟩, fun ha => ha⟩
  · intro d hd hkind
    by_cases hdc : d = c
    · subst hdc
      refine ⟨_, Table.search_set_self .., hsize, ?_⟩
      intro i hi
      dsimp only
      by_cases hio : i = offset
      · rw [hio, Function.update_self, Function.update_self]
      · rw [Function.update_of_ne hio, Function.update_of_ne (by omega)]
        exact hwords i hi
    · obtain ⟨b₁, hsearch₁, hsize₁, hwords₁⟩ := h.block d hd hkind
      refine ⟨b₁, ?_, hsize₁, ?_⟩
      · rw [Table.search_set_of_ne, hsearch₁]
        intro heq
        exact hdc (h.tiles.eq_of_addr_eq (by omega) hd hc (by omega))
      · intro i hi
        rw [← hwords₁ i hi]
        exact hkept d hd hdc _ (by omega) (by omega)
  · intro ptr b₁ hsearch₁
    dsimp only at hsearch₁
    by_cases hptr : ptr = c.addr + 8
    · exact ⟨c, hc, hused, hptr.symm⟩
    · rw [Table.search_set_of_ne _ _ hptr] at hsearch₁
      exact h.chunk ptr b₁ hsearch₁

/-- Every call keeps the segment and the blocks in order, and the counters as well unless
a block grows into the free chunk after it. -/
theorem step (h : Valid s chunks lists) {call : Call} (hstep : s.step call = some s') :
  ∃ chunks' lists', Valid s' chunks' lists' ∧
    (NoGrowth s call → Accounted s.info chunks → Accounted s'.info chunks')
  := by
  cases call with
  | malloc size =>
    change s.malloc size = some s' at hstep
    obtain ⟨⟨result, info'⟩, hcall, hstep⟩ := Option.bind_eq_some_iff.mp hstep
    obtain ⟨-, rfl, rfl⟩ := zbxMemMalloc_eq_some hcall
    cases hmalloc : s.info.memMalloc size with
    | mk chunk info' =>
      rw [hmalloc] at hstep
      cases chunk with
      | some chunk =>
        cases hstep
        obtain ⟨chunks', lists', hvalid, haccounted⟩ := h.alloc hmalloc
        exact ⟨chunks', lists', hvalid, fun _ => haccounted⟩
      | none =>
        cases hstep
        obtain rfl := h.toSettled.memMalloc_none hmalloc
        exact ⟨chunks, lists, h, fun _ ha => ha⟩
  | realloc old size =>
    by_cases hold : old = 0
    · simp only [State.step, if_pos hold] at hstep
      obtain ⟨⟨result, info'⟩, hcall, hstep⟩ := Option.bind_eq_some_iff.mp hstep
      obtain ⟨ptr, hptr, hstep⟩ := Option.bind_eq_some_iff.mp hstep
      obtain ⟨-, chunk, hmalloc, rfl⟩ := zbxMemRealloc_eq_some hcall
      rw [if_pos rfl] at hmalloc
      cases chunk with
      | some chunk =>
        cases hptr
        cases hstep
        obtain ⟨chunks', lists', hvalid, haccounted⟩ := h.alloc (Option.some.inj hmalloc)
        exact ⟨chunks', lists', hvalid, fun _ => haccounted⟩
      | none => cases hptr
    · simp only [State.step, if_neg hold] at hstep
      obtain ⟨chunks', lists', hvalid, haccounted⟩ := h.realloc hold hstep
      exact ⟨chunks', lists', hvalid, fun hno => haccounted (hno hold)⟩
  | free ptr =>
    obtain ⟨chunks', lists', hvalid, haccounted⟩ := h.free hstep
    exact ⟨chunks', lists', hvalid, fun _ => haccounted⟩
  | write ptr offset word =>
    obtain ⟨hvalid, haccounted⟩ := h.write hstep
    exact ⟨chunks, lists, hvalid, fun _ => haccounted⟩

end Valid

end Memory
