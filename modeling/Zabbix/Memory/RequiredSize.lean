import Mathlib.Algebra.BigOperators.Group.List.Basic
import Mathlib.Algebra.GroupWithZero.Nat
import Zabbix.Memory.Runs

/-!
# How large a segment has to be

`zbx_mem_required_size` says by how much a segment has to be larger than the memory that is
asked for in a number of pieces. A fresh segment is one free chunk, and every request cuts
its chunk off the front of it, so that there is room as long as the free chunk is as large
as what is still to be cut off. The product of the number of pieces with an `int` constant
is an `int`, and wraps for a large number.
-/

namespace Memory

/-- A number converted to `int`. -/
def toInt32 (n : ℤ) : ℤ := n.bmod (2 ^ 32)

/-- `zbx_mem_required_size`, where `descrLen` and `paramLen` are the lengths of the texts. The
last product is one of two `int`s; all else is counted in 64 bits without sign. -/
def zbxMemRequiredSize (chunksNum descrLen paramLen : ℕ) : ℕ :=
  let size := 7 + memInfoSize
  let size := size + (8 - 1) + 8 * memBucketCount
  let size := size + (descrLen + 1) + (paramLen + 1)
  let size := size + ((memSizeField - 1) + 8) + ((memSizeField - 1) + 8)
  let size := size + (chunksNum - 1) * memSizeField * 2
  (((size : ℤ) + toInt32 (chunksNum * (memMinAlloc - 1 : ℕ))) % 2 ^ 64).toNat

/-- The calls of `zbx_mem_malloc` for the sizes, one after the other, all return memory. -/
def mallocsSucceed (info : Info) : List ℕ → Prop
  | [] => True
  | size :: sizes => ∃ ptr info', zbxMemMalloc info size = some (some ptr, info') ∧
    mallocsSucceed info' sizes

/-- For every segment with room for its header, for the texts and for a chunk, the requests
succeed that are by the required size smaller than the segment. -/
def Promise (chunksNum descrLen paramLen : ℕ) : Prop :=
  ∀ (mem : ℕ → ℕ) (base size : ℕ) (info : Info), base % 4096 = 0 →
    zbxMemCreate mem base size descrLen paramLen = some info →
    info.loBound + 40 ≤ info.hiBound →
    ∀ sizes : List ℕ, sizes.length = chunksNum → (∀ r ∈ sizes, 1 ≤ r) →
      sizes.sum + zbxMemRequiredSize chunksNum descrLen paramLen ≤ size →
      mallocsSucceed info sizes

/-! ### A request finds the chunk that is big enough -/

theorem memBucketBySize_mono {size size' : ℕ} (h : size ≤ size') :
  memBucketBySize size ≤ memBucketBySize size'
  := by
  unfold memBucketBySize memBucketCount memMaxBucketSize memMinAlloc
  split_ifs <;> omega

/-- The search for a bucket stops at one that is not empty. -/
theorem findBucket_le (buckets : ℕ → ℕ) (rounds : ℕ) {index target : ℕ} (hle : index ≤ target)
    (htarget : buckets target ≠ 0) :
  Info.findBucket buckets rounds index ≤ target
  := by
  induction rounds generalizing index with
  | zero => exact hle
  | succ rounds ih =>
    unfold Info.findBucket
    split_ifs with h
    · apply ih
      obtain hlt | rfl := Nat.lt_or_eq_of_le hle
      · exact hlt
      · exact absurd h.2 htarget
    · exact hle

theorem findBucket_stops (buckets : ℕ → ℕ) {rounds index : ℕ}
    (hrounds : memBucketCount - 1 < index + rounds) :
  buckets (Info.findBucket buckets rounds index) ≠ 0 ∨
    memBucketCount - 1 ≤ Info.findBucket buckets rounds index
  := by
  induction rounds generalizing index with
  | zero =>
    right
    exact Nat.le_of_lt hrounds
  | succ rounds ih =>
    unfold Info.findBucket
    split_ifs with h
    · exact ih (by omega)
    · rw [not_and_or, Nat.not_lt] at h
      tauto

/-- A list with a chunk that is big enough has a first one. -/
theorem firstFit_ne_zero {mem : ℕ → ℕ} {nodes : List ℕ} {prev first last : ℕ} {size : ℕ}
    (h : LinkedList.Segment 8 16 mem prev first nodes last 0) {a : ℕ} (ha : a ∈ nodes)
    (hfit : size ≤ chunkSize mem a) {rounds : ℕ} (hrounds : nodes.length ≤ rounds) :
  Info.firstFit mem size rounds first ≠ 0
  := by
  induction rounds generalizing prev first nodes with
  | zero =>
    rw [List.length_eq_zero_iff.mp (Nat.le_zero.mp hrounds)] at ha
    simp at ha
  | succ rounds ih =>
    cases nodes with
    | nil => simp at ha
    | cons node nodes =>
      obtain ⟨rfl, hne, -, hrest⟩ := h
      unfold Info.firstFit
      split_ifs with hskip
      · obtain rfl | ha := List.mem_cons.mp ha
        · omega
        · exact ih hrest ha (Nat.le_of_succ_le_succ hrounds)
      · exact hne

section Serve

variable {info : Info} {chunks : List Chunk} {lists : ℕ → List ℕ}

theorem Layout.lists_length (h : Layout info chunks lists) (i : ℕ) :
  (lists i).length ≤ info.hiBound
  := by
  have hsubset : lists i ⊆ List.range info.hiBound := by
    intro a ha
    obtain ⟨c, hc, rfl, -⟩ := (h.listed i a).mp ha
    have hbounds := h.tiles.bounds hc
    exact List.mem_range.mpr (by omega)
  simpa using (List.subperm_of_subset (h.nodup i) hsubset).length_le

/-- When there is a free chunk that is big enough, one is found. -/
theorem Layout.findChunk_ne_zero (h : Layout info chunks lists) {size : ℕ} {c : Chunk}
    (hc : c ∈ chunks) (hfree : c.kind = .free) (hfit : size ≤ c.size) :
  info.findChunk size ≠ 0
  := by
  have hlisted : c.addr ∈ lists (memBucketBySize c.size) :=
    (h.listed _ _).mpr ⟨c, hc, rfl, hfree, rfl⟩
  have hfirst : info.buckets (memBucketBySize c.size) ≠ 0 := by
    obtain ⟨last, hsegment⟩ := h.linked (memBucketBySize c.size)
    obtain ⟨node, nodes, hnodes⟩ := List.exists_cons_of_ne_nil (List.ne_nil_of_mem hlisted)
    rw [hnodes] at hsegment
    exact hsegment.1 ▸ hsegment.2.1
  have hle := findBucket_le info.buckets memBucketCount (memBucketBySize_mono hfit) hfirst
  have hmax := memBucketBySize_le c.size
  unfold Info.findChunk
  dsimp only
  split_ifs with hlast
  · have hbucket : memBucketBySize c.size
        = Info.findBucket info.buckets memBucketCount (memBucketBySize size) := by omega
    rw [hbucket] at hlisted
    obtain ⟨last, hsegment⟩ := h.linked
      (Info.findBucket info.buckets memBucketCount (memBucketBySize size))
    apply firstFit_ne_zero hsegment hlisted
    · rwa [(h.chunkSize_eq hc (by simp [hfree])).1]
    · exact h.lists_length _
  · obtain hfound | hend := findBucket_stops info.buckets
      (show memBucketCount - 1 < memBucketBySize size + memBucketCount by omega)
    · exact hfound
    · omega

/-! ### Requests on one free chunk -/

/-- All chunks are in use but one at the end, of the given size. -/
def OneFree (info : Info) (size : ℕ) : Prop :=
  ∃ before lists addr, Layout info (before ++ [⟨addr, size, .free⟩]) lists ∧
    ∀ c ∈ before, c.kind = .used

/-- A request that fits in the free chunk succeeds, and leaves the rest of it free when that
is big enough for a chunk. -/
theorem OneFree.malloc {free r : ℕ} (h : OneFree info free) (hr : 1 ≤ r) (hmax : r ≤ memMaxSize)
    (hfit : memProperAllocSize r ≤ free) :
  ∃ ptr info', zbxMemMalloc info r = some (some ptr, info') ∧
    (memProperAllocSize r + 40 ≤ free → OneFree info' (free - memProperAllocSize r - 16))
  := by
  obtain ⟨before, lists, addr, hlayout, hused⟩ := h
  have hfound := hlayout.findChunk_ne_zero
    (List.mem_append_right _ (List.mem_singleton_self _)) rfl hfit
  have hbad : ¬ (r = 0 ∨ memMaxSize < r) := by omega
  obtain hnone | ⟨before', c, after, lists', hchunks, hfree, -, hptr, hlayout', -⟩ :=
    hlayout.memMalloc r
  · rw [Layout.memMalloc_eq, if_neg hfound] at hnone
    cases hnone
  have hnotMem : ⟨addr, free, .free⟩ ∉ before := fun hmem => nomatch hused _ hmem
  obtain rfl : c = ⟨addr, free, .free⟩ := by
    have hc : c ∈ before ++ [⟨addr, free, .free⟩] :=
      hchunks ▸ List.mem_append_right _ List.mem_cons_self
    obtain hc | hc := List.mem_append.mp hc
    · exact nomatch (hused c hc).symm.trans hfree
    · exact List.mem_singleton.mp hc
  obtain ⟨rfl, rfl⟩ : before = before' ∧ [] = after := by
    have hsplit := (List.append_cons_inj_of_notMem hnotMem List.not_mem_nil).mp hchunks
    exact ⟨hsplit.1, hsplit.2.2⟩
  cases hmalloc : info.memMalloc r with
  | mk result info' =>
  rw [hmalloc] at hptr hlayout'
  obtain rfl : result = some addr := hptr
  refine ⟨addr + memSizeField, info', ?_, ?_⟩
  · rw [zbxMemMalloc, if_neg hbad, hmalloc]
  · intro hrest
    rw [carve, if_neg (Nat.not_lt.mpr hrest), List.append_nil] at hlayout'
    refine ⟨before ++ [⟨addr, memProperAllocSize r, .used⟩], lists',
      addr + memProperAllocSize r + 16, ?_, ?_⟩
    · rw [List.append_assoc]
      exact hlayout'
    · intro d hd
      obtain hd | hd := List.mem_append.mp hd
      · exact hused d hd
      · rw [List.mem_singleton.mp hd]

/-- What is cut off for the requests: every one needs its proper size, and all but the last
one the size fields of the chunk that is left. -/
def need (sizes : List ℕ) : ℕ :=
  (sizes.map memProperAllocSize).sum + 16 * (sizes.length - 1)

theorem need_le {sizes : List ℕ} (h : ∀ r ∈ sizes, 1 ≤ r) :
  need sizes ≤ sizes.sum + 23 * sizes.length + 16 * (sizes.length - 1)
  := by
  have hproper : ∀ r, 1 ≤ r → memProperAllocSize r ≤ r + 23 := by
    intro r hr
    unfold memProperAllocSize memMinAlloc
    split_ifs <;> omega
  have hsum : (sizes.map memProperAllocSize).sum ≤ sizes.sum + 23 * sizes.length := by
    induction sizes with
    | nil => simp
    | cons r sizes ih =>
      obtain ⟨hr, hsizes⟩ := List.forall_mem_cons.mp h
      have hle := hproper r hr
      have hrest := ih hsizes
      simp only [List.map_cons, List.sum_cons, List.length_cons]
      omega
  unfold need
  omega

/-- The requests succeed on a free chunk that is as large as what they need. -/
theorem OneFree.mallocsSucceed {free : ℕ} {sizes : List ℕ} (h : OneFree info free)
    (hsizes : ∀ r ∈ sizes, 1 ≤ r) (hmax : sizes.sum ≤ memMaxSize) (hneed : need sizes ≤ free) :
  mallocsSucceed info sizes
  := by
  induction sizes generalizing info free with
  | nil => trivial
  | cons r sizes ih =>
    obtain ⟨hr, hrest⟩ := List.forall_mem_cons.mp hsizes
    rw [List.sum_cons] at hmax
    have hneed' : need (r :: sizes) = memProperAllocSize r + (sizes.map memProperAllocSize).sum
        + 16 * sizes.length := by
      simp [need]
    obtain ⟨ptr, info', hmalloc, hfree⟩ := h.malloc hr (by omega) (by omega)
    refine ⟨ptr, info', hmalloc, ?_⟩
    cases sizes with
    | nil => trivial
    | cons r' sizes =>
      have hproper := (memProperAllocSize_spec r').1.2
      unfold memMinAlloc at hproper
      simp only [List.map_cons, List.sum_cons, List.length_cons] at hneed'
      have hlength : need (r' :: sizes) = memProperAllocSize r'
          + (sizes.map memProperAllocSize).sum + 16 * sizes.length := by
        simp [need]
      exact ih (hfree (by omega)) hrest (by omega) (by omega)

/-- Every chunk takes at least 40 bytes, so that there is no room for too many requests. -/
theorem mallocsSucceed_room {sizes : List ℕ} (h : Layout info chunks lists)
    (hsucceed : mallocsSucceed info sizes) :
  info.loBound + 40 * (chunks.countP (·.kind = .used) + sizes.length) ≤ info.hiBound
  := by
  induction sizes generalizing info chunks lists with
  | nil =>
    have hlength : ∀ {lo hi : ℕ} {chunks : List Chunk}, Tiles 16 lo hi chunks →
        (∀ c ∈ chunks, ProperSize c.size) → lo + 40 * chunks.length ≤ hi := by
      intro lo hi chunks htiles hsizes
      induction chunks generalizing lo with
      | nil => exact Nat.le_of_eq htiles
      | cons c chunks ih =>
        obtain ⟨hc, hchunks⟩ := List.forall_mem_cons.mp hsizes
        have hrest := ih htiles.2 hchunks
        have hmin := hc.2
        unfold memMinAlloc at hmin
        rw [List.length_cons]
        omega
    have hall := hlength h.tiles h.sizes
    have hcount := List.countP_le_length (p := (·.kind = Kind.used)) (l := chunks)
    rw [List.length_nil]
    omega
  | cons r sizes ih =>
    obtain ⟨ptr, info', hmalloc, hsucceed⟩ := hsucceed
    obtain ⟨-, hresult, rfl⟩ := zbxMemMalloc_eq_some hmalloc
    have hlimits := info.limits_memMalloc r
    simp only [Info.limits, Prod.mk.injEq] at hlimits
    obtain hnone | ⟨before, c, after, lists', rfl, hfree, -, -, hlayout', -⟩ := h.memMalloc r
    · rw [hnone] at hresult
      cases hresult
    have hroom := ih hlayout' hsucceed
    have hcarve : (carve (memProperAllocSize r) c).countP (·.kind = .used) = 1 := by
      unfold carve
      split_ifs <;> rfl
    simp only [List.countP_append, hcarve, hlimits.1, hlimits.2.1] at hroom
    simp only [List.countP_append, List.countP_cons, hfree, List.length_cons]
    simp
    omega

end Serve

/-! ### When the promise is kept -/

section Promise

variable {mem : ℕ → ℕ} {base size descrLen paramLen n : ℕ} {info : Info}

/-- How often the product with the `int` constant wraps. -/
def wraps (n : ℕ) : ℕ := (23 * n + 2 ^ 31) / 2 ^ 32

theorem toInt32_product (n : ℕ) :
  toInt32 (n * (memMinAlloc - 1 : ℕ)) = 23 * n - wraps n * 2 ^ 32
  := by
  have hconst : ((memMinAlloc - 1 : ℕ) : ℤ) = 23 := rfl
  rw [toInt32, hconst, Int.bmod_def, wraps]
  split_ifs <;> omega

theorem zbxMemRequiredSize_eq (hn : 1 ≤ n) (descrLen paramLen : ℕ) :
  zbxMemRequiredSize n descrLen paramLen
    = (((39 * n + 358 + descrLen + paramLen : ℕ) - wraps n * 2 ^ 32 : ℤ) % 2 ^ 64).toNat
  := by
  rw [zbxMemRequiredSize, toInt32_product]
  have hfixed : 7 + memInfoSize + (8 - 1) + 8 * memBucketCount + (descrLen + 1 + (paramLen + 1))
      + ((memSizeField - 1) + 8 + ((memSizeField - 1) + 8)) = 374 + descrLen + paramLen := by
    unfold memInfoSize memBucketCount memMaxBucketSize memMinAlloc memSizeField
    omega
  unfold memSizeField at *
  congr 2
  omega

theorem wraps_le (hint : n < 2 ^ 31) :
  wraps n ≤ 12
  := by
  unfold wraps
  omega

/-- The bounds of a segment that has been created at an aligned address. -/
theorem zbxMemCreate_room (halign : base % 4096 = 0)
    (hcreate : zbxMemCreate mem base size descrLen paramLen = some info)
    (hroom : info.loBound + 40 ≤ info.hiBound) :
  size ≤ info.totalSize + 361 + descrLen + paramLen ∧
    info.hiBound + 331 + descrLen + paramLen ≤ info.loBound + size ∧ size ≤ 2 ^ 36 ∧
    378 + descrLen + paramLen ≤ 2 ^ 36
  := by
  obtain ⟨-, -, htotal, -⟩ := zbxMemCreate_limits hcreate hroom
  unfold zbxMemCreate at hcreate
  split_ifs at hcreate with hsize
  obtain rfl := Option.some.inj hcreate
  dsimp only at hroom htotal ⊢
  rw [htotal]
  unfold memMinSize memMaxSize at hsize
  unfold align8 memInfoSize memBucketCount memMaxBucketSize memMinAlloc at *
  omega

/-- A segment has room when it is large enough for its header, the texts and a chunk. -/
theorem exists_zbxMemCreate (hsize : 378 + descrLen + paramLen ≤ size) (hmax : size ≤ 2 ^ 36) :
  ∃ info, zbxMemCreate mem 4096 size descrLen paramLen = some info ∧
    info.loBound + 40 ≤ info.hiBound
  := by
  have hbounds : memMinSize ≤ size ∧ size ≤ memMaxSize := by
    unfold memMinSize memMaxSize
    omega
  refine ⟨_, if_pos hbounds, ?_⟩
  dsimp only
  unfold align8 memInfoSize memBucketCount memMaxBucketSize memMinAlloc
  omega

/-- The required size is out of reach, or less than it should be by what has been lost when
the product wrapped. -/
theorem zbxMemRequiredSize_cases (hn : 1 ≤ n) (hint : n < 2 ^ 31)
    (htexts : 378 + descrLen + paramLen ≤ 2 ^ 36) :
  39 * n + 358 + descrLen + paramLen < wraps n * 2 ^ 32 ∧
      2 ^ 36 < zbxMemRequiredSize n descrLen paramLen ∨
    zbxMemRequiredSize n descrLen paramLen + wraps n * 2 ^ 32
      = 39 * n + 358 + descrLen + paramLen
  := by
  have hwraps := wraps_le hint
  rw [zbxMemRequiredSize_eq hn]
  omega

/-- As long as the product does not wrap, or no segment has the required size, the promise is
kept. -/
theorem promise_of (hn : 1 ≤ n) (hint : n < 2 ^ 31)
    (h : wraps n = 0 ∨ 39 * n + 358 + descrLen + paramLen < wraps n * 2 ^ 32 ∨
      wraps n * 2 ^ 32 + 2 ^ 36 < 40 * n + 358 + descrLen + paramLen ∨
      2 ^ 36 < 378 + descrLen + paramLen) :
  Promise n descrLen paramLen
  := by
  intro mem base size info halign hcreate hroom sizes hlength hsizes hsum
  obtain ⟨htotal, -, hmax, htexts⟩ := zbxMemCreate_room halign hcreate hroom
  obtain ⟨lists, hvalid, -⟩ := zbxMemCreate_valid hcreate hroom
  have hfree : OneFree info info.totalSize := ⟨[], lists, info.loBound, hvalid.toLayout, by simp⟩
  have hcount := List.length_le_sum_of_one_le sizes hsizes
  have hneed := need_le hsizes
  apply hfree.mallocsSucceed hsizes
  · unfold memMaxSize
    omega
  · obtain ⟨-, hlarge⟩ | hrequired := zbxMemRequiredSize_cases hn hint htexts <;> omega

/-- When the product wraps, and a segment of the required size exists, there is no room for
the smallest requests. -/
theorem not_promise_of (hn : 1 ≤ n) (hint : n < 2 ^ 31) (hwraps : wraps n ≠ 0)
    (hle : wraps n * 2 ^ 32 ≤ 39 * n + 358 + descrLen + paramLen)
    (hmax : 40 * n + 358 + descrLen + paramLen ≤ wraps n * 2 ^ 32 + 2 ^ 36)
    (htexts : 378 + descrLen + paramLen ≤ 2 ^ 36) :
  ¬ Promise n descrLen paramLen
  := by
  intro hpromise
  obtain ⟨hsmall, -⟩ | hrequired := zbxMemRequiredSize_cases hn hint htexts
  · omega
  have hmany : 1 < n := by
    unfold wraps at hwraps
    omega
  obtain ⟨size, hsize⟩ : ∃ size, size =
      max (378 + descrLen + paramLen) (zbxMemRequiredSize n descrLen paramLen + n) := ⟨_, rfl⟩
  obtain ⟨info, hcreate, hroom⟩ : ∃ info,
      zbxMemCreate (fun _ => 0) 4096 size descrLen paramLen = some info ∧
        info.loBound + 40 ≤ info.hiBound :=
    exists_zbxMemCreate (by omega) (by omega)
  have hsucceed := hpromise _ _ _ info (by decide) hcreate hroom (List.replicate n 1)
    List.length_replicate (by simp) (by simp; omega)
  obtain ⟨-, hbounds, -⟩ := zbxMemCreate_room (by decide) hcreate hroom
  obtain ⟨lists, hvalid, -⟩ := zbxMemCreate_valid hcreate hroom
  have hneeded := mallocsSucceed_room hvalid.toLayout hsucceed
  rw [List.length_replicate] at hneeded
  dsimp only at hneeded
  omega

/-- The promise is kept exactly when the product of the number of pieces with an `int` does
not wrap, or when there is no segment in which the requests have room: when what is left
after the wraps is negative or too large, or when the texts fill the largest segment. -/
theorem promise_iff (hn : 1 ≤ n) (hint : n < 2 ^ 31) (descrLen paramLen : ℕ) :
  Promise n descrLen paramLen ↔
    (23 * n + 2 ^ 31) / 2 ^ 32 = 0 ∨
    39 * n + 358 + descrLen + paramLen < (23 * n + 2 ^ 31) / 2 ^ 32 * 2 ^ 32 ∨
    (23 * n + 2 ^ 31) / 2 ^ 32 * 2 ^ 32 + 2 ^ 36 < 40 * n + 358 + descrLen + paramLen ∨
    2 ^ 36 < 378 + descrLen + paramLen
  := by
  constructor
  · intro hpromise
    by_contra h
    simp only [not_or, Nat.not_lt] at h
    exact not_promise_of hn hint h.1 h.2.1 h.2.2.1 h.2.2.2 hpromise
  · exact promise_of hn hint

/-- Four pieces, with texts of 20 and 15 characters. -/
theorem promise_iff_four :
  1 ≤ 4 ∧ 4 < 2 ^ 31 ∧ (Promise 4 20 15 ↔ (23 * 4 + 2 ^ 31) / 2 ^ 32 = 0 ∨
    39 * 4 + 358 + 20 + 15 < (23 * 4 + 2 ^ 31) / 2 ^ 32 * 2 ^ 32 ∨
    (23 * 4 + 2 ^ 31) / 2 ^ 32 * 2 ^ 32 + 2 ^ 36 < 40 * 4 + 358 + 20 + 15 ∨
    2 ^ 36 < 378 + 20 + 15) ∧ Promise 4 20 15
  := by
  have hiff := promise_iff (show 1 ≤ 4 by decide) (show 4 < 2 ^ 31 by decide) 20 15
  exact ⟨by decide, by decide, hiff, hiff.mpr (Or.inl (by decide))⟩

/-- The required size for 112000000 pieces is by 2³² too small. -/
theorem manyPieces_not_promise :
  zbxMemRequiredSize 112000000 0 0 = 73033062 ∧ ¬ Promise 112000000 0 0
  := by
  constructor
  · decide
  · exact not_promise_of (by decide) (by decide) (by decide) (by decide) (by decide) (by decide)

end Promise

end Memory
