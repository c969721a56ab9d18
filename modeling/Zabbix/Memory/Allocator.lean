import Zabbix.Library.LinkedList

/-!
# The shared memory allocator

A segment of shared memory is divided into chunks. A chunk has its size in the word before
its data and in the word after it, with a flag when it is in use. Free chunks are linked
through the first two words of their data, in a list for each size; the chunks from a
certain size on are all in one list.

The memory is modelled by words of eight bytes at addresses divisible by eight: these are
all that the allocator touches. A pointer takes one word, and `0` is the null pointer.
-/

namespace Memory

/-- `MEM_SIZE_FIELD` -/
def memSizeField : ℕ := 8

/-- `MEM_FLG_USED` -/
def memFlgUsed : ℕ := 2 ^ 63

/-- `MEM_MIN_SIZE` -/
def memMinSize : ℕ := 128

/-- `MEM_MAX_SIZE` -/
def memMaxSize : ℕ := 0x1000000000

/-- `MEM_MIN_ALLOC`, which is also `MEM_MIN_BUCKET_SIZE` -/
def memMinAlloc : ℕ := 24

/-- `MEM_MAX_BUCKET_SIZE` -/
def memMaxBucketSize : ℕ := 256

/-- `MEM_BUCKET_COUNT` -/
def memBucketCount : ℕ := (memMaxBucketSize - memMinAlloc) / 8 + 1

/-- `zbx_mem_info_t` and the contents of the segment. The sizes are numbers of 64 bits. -/
structure Info where
  mem : ℕ → ℕ
  buckets : ℕ → ℕ
  loBound : ℕ
  hiBound : ℕ
  freeSize : ℕ
  usedSize : ℕ
  totalSize : ℕ

/-! ### Helper functions -/

/-- The sum of two numbers of 64 bits. -/
def wrapAdd (a b : ℕ) : ℕ := (a + b) % 2 ^ 64

/-- The difference of two numbers of 64 bits. -/
def wrapSub (a b : ℕ) : ℕ := (a + 2 ^ 64 - b % 2 ^ 64) % 2 ^ 64

theorem wrapAdd_of_lt {a b : ℕ} (h : a + b < 2 ^ 64) :
  wrapAdd a b = a + b
  := Nat.mod_eq_of_lt h

theorem wrapSub_of_le {a b : ℕ} (h : b ≤ a) (ha : a < 2 ^ 64) :
  wrapSub a b = a - b
  := by
  unfold wrapSub
  omega

/-- `ALIGN8` -/
def align8 (ptr : ℕ) : ℕ := (ptr + 7) / 8 * 8

/-- `CHUNK_SIZE` -/
def chunkSize (mem : ℕ → ℕ) (chunk : ℕ) : ℕ := mem chunk % memFlgUsed

/-- `FREE_CHUNK` -/
def freeChunk (mem : ℕ → ℕ) (chunk : ℕ) : Prop := mem chunk / memFlgUsed % 2 = 0

instance (mem : ℕ → ℕ) (chunk : ℕ) : Decidable (freeChunk mem chunk) :=
  inferInstanceAs (Decidable (_ = _))

/-- `mem_proper_alloc_size` -/
def memProperAllocSize (size : ℕ) : ℕ :=
  if memMinAlloc ≤ size then size + (8 - size % 8) % 8 else memMinAlloc

/-- `mem_bucket_by_size` -/
def memBucketBySize (size : ℕ) : ℕ :=
  if size < memMinAlloc then 0
  else if size < memMaxBucketSize then (size - memMinAlloc) / 8
  else memBucketCount - 1

/-- A word at the left end and at the right end of a chunk of a size. Addresses are not wrapped
modulo 2^64: the segment lies below that bound. -/
def setSizeFields (mem : ℕ → ℕ) (chunk size word : ℕ) : ℕ → ℕ :=
  Function.update (Function.update mem chunk word) (chunk + memSizeField + size) word

namespace Info

variable (info : Info)

/-- `mem_set_chunk_size` -/
def memSetChunkSize (chunk size : ℕ) : Info :=
  { info with mem := setSizeFields info.mem chunk size size }

/-- `mem_set_used_chunk_size` -/
def memSetUsedChunkSize (chunk size : ℕ) : Info :=
  { info with mem := setSizeFields info.mem chunk size (memFlgUsed + size) }

/-- `mem_link_chunk` -/
def memLinkChunk (chunk : ℕ) : Info :=
  let index := memBucketBySize (chunkSize info.mem chunk)
  { info with
    mem := LinkedList.link 8 16 info.mem (info.buckets index) chunk
    buckets := Function.update info.buckets index chunk }

/-- `mem_unlink_chunk` -/
def memUnlinkChunk (chunk : ℕ) : Info :=
  let index := memBucketBySize (chunkSize info.mem chunk)
  let (mem, first) := LinkedList.unlink 8 16 info.mem (info.buckets index) chunk
  { info with
    mem := mem
    buckets := Function.update info.buckets index first }

/-- The counters are written. -/
@[irreducible]
def setCounters (usedSize freeSize : ℕ) : Info :=
  { info with usedSize := usedSize, freeSize := freeSize }

/-- `info->used_size += n` -/
def addUsed (n : ℕ) : Info := info.setCounters (wrapAdd info.usedSize n) info.freeSize

/-- `info->used_size -= n` -/
def subUsed (n : ℕ) : Info := info.setCounters (wrapSub info.usedSize n) info.freeSize

/-- `info->free_size += n` -/
def addFree (n : ℕ) : Info := info.setCounters info.usedSize (wrapAdd info.freeSize n)

/-- `info->free_size -= n` -/
def subFree (n : ℕ) : Info := info.setCounters info.usedSize (wrapSub info.freeSize n)

section Counters

variable (n m chunk size : ℕ)

-- What the counters are is never asked when a segment is compared with another.
@[simp]
theorem setCounters_mem : (info.setCounters n m).mem = info.mem := by unfold setCounters; rfl

@[simp]
theorem setCounters_usedSize : (info.setCounters n m).usedSize = n := by unfold setCounters; rfl

@[simp]
theorem setCounters_freeSize : (info.setCounters n m).freeSize = m := by unfold setCounters; rfl

@[simp] theorem addUsed_mem : (info.addUsed n).mem = info.mem := setCounters_mem ..
@[simp] theorem subUsed_mem : (info.subUsed n).mem = info.mem := setCounters_mem ..
@[simp] theorem addFree_mem : (info.addFree n).mem = info.mem := setCounters_mem ..
@[simp] theorem subFree_mem : (info.subFree n).mem = info.mem := setCounters_mem ..

@[simp]
theorem addUsed_usedSize : (info.addUsed n).usedSize = wrapAdd info.usedSize n
  := setCounters_usedSize ..

@[simp]
theorem subUsed_usedSize : (info.subUsed n).usedSize = wrapSub info.usedSize n
  := setCounters_usedSize ..

@[simp]
theorem addFree_usedSize : (info.addFree n).usedSize = info.usedSize
  := setCounters_usedSize ..

@[simp]
theorem subFree_usedSize : (info.subFree n).usedSize = info.usedSize
  := setCounters_usedSize ..

@[simp]
theorem addUsed_freeSize : (info.addUsed n).freeSize = info.freeSize
  := setCounters_freeSize ..

@[simp]
theorem subUsed_freeSize : (info.subUsed n).freeSize = info.freeSize
  := setCounters_freeSize ..

@[simp]
theorem addFree_freeSize : (info.addFree n).freeSize = wrapAdd info.freeSize n
  := setCounters_freeSize ..

@[simp]
theorem subFree_freeSize : (info.subFree n).freeSize = wrapSub info.freeSize n
  := setCounters_freeSize ..

/-- The counters do not depend on the memory and the buckets. -/
theorem counters_eq (mem buckets : ℕ → ℕ) :
  { info with mem := mem, buckets := buckets }.usedSize = info.usedSize ∧
  { info with mem := mem, buckets := buckets }.freeSize = info.freeSize
  := ⟨rfl, rfl⟩

@[simp]
theorem memSetChunkSize_usedSize : (info.memSetChunkSize chunk size).usedSize = info.usedSize
  := (info.counters_eq _ _).1

@[simp]
theorem memSetChunkSize_freeSize : (info.memSetChunkSize chunk size).freeSize = info.freeSize
  := (info.counters_eq _ _).2

@[simp]
theorem memSetUsedChunkSize_usedSize :
  (info.memSetUsedChunkSize chunk size).usedSize = info.usedSize
  := (info.counters_eq _ _).1

@[simp]
theorem memSetUsedChunkSize_freeSize :
  (info.memSetUsedChunkSize chunk size).freeSize = info.freeSize
  := (info.counters_eq _ _).2

@[simp]
theorem memLinkChunk_usedSize : (info.memLinkChunk chunk).usedSize = info.usedSize
  := (info.counters_eq _ _).1

@[simp]
theorem memLinkChunk_freeSize : (info.memLinkChunk chunk).freeSize = info.freeSize
  := (info.counters_eq _ _).2

@[simp]
theorem memUnlinkChunk_usedSize : (info.memUnlinkChunk chunk).usedSize = info.usedSize
  := (info.counters_eq _ _).1

@[simp]
theorem memUnlinkChunk_freeSize : (info.memUnlinkChunk chunk).freeSize = info.freeSize
  := (info.counters_eq _ _).2

end Counters

/-! ### Private memory functions -/

/-- The first bucket from `index` on that is not empty, or the last one. -/
def findBucket (buckets : ℕ → ℕ) : (rounds index : ℕ) → ℕ
  | 0, index => index
  | rounds + 1, index =>
    if index < memBucketCount - 1 ∧ buckets index = 0 then
      findBucket buckets rounds (index + 1)
    else index

/-- The first chunk of a list that is big enough. -/
def firstFit (mem : ℕ → ℕ) (size : ℕ) : (rounds chunk : ℕ) → ℕ
  | 0, _ => 0
  | rounds + 1, chunk =>
    if chunk ≠ 0 ∧ chunkSize mem chunk < size then
      firstFit mem size rounds (mem (chunk + 16))
    else chunk

/-- The chunk that `__mem_malloc` takes for `size` bytes. A list has fewer chunks than
there are addresses in the segment. -/
def findChunk (size : ℕ) : ℕ :=
  let index := findBucket info.buckets memBucketCount (memBucketBySize size)
  if index = memBucketCount - 1 then
    firstFit info.mem size info.hiBound (info.buckets index)
  else info.buckets index

/-- `__mem_malloc` -/
def memMalloc (size : ℕ) : Option ℕ × Info :=
  let size := memProperAllocSize size
  let chunk := info.findChunk size
  if chunk = 0 then (none, info)
  else
    let chunkSize := chunkSize info.mem chunk
    let info := info.memUnlinkChunk chunk
    if chunkSize < size + 2 * memSizeField + memMinAlloc then
      let info := (info.addUsed chunkSize).subFree chunkSize
      (some chunk, info.memSetUsedChunkSize chunk chunkSize)
    else
      let newChunk := chunk + memSizeField + size + memSizeField
      let newChunkSize := chunkSize - size - 2 * memSizeField
      let info := (info.memSetChunkSize newChunk newChunkSize).memLinkChunk newChunk
      let info := ((info.addUsed size).subFree chunkSize).addFree newChunkSize
      (some chunk, info.memSetUsedChunkSize chunk size)

/-- `__mem_free` -/
def memFree (ptr : ℕ) : Info :=
  let chunk := ptr - memSizeField
  let size := chunkSize info.mem chunk
  let nextChunk := chunk + memSizeField + size + memSizeField
  let prevSize := chunkSize info.mem (chunk - memSizeField)
  let prevChunk := chunk - memSizeField - prevSize - memSizeField
  let nextSize := chunkSize info.mem nextChunk
  let prevFree := info.loBound < chunk ∧ freeChunk info.mem (chunk - memSizeField)
  let nextFree := nextChunk < info.hiBound ∧ freeChunk info.mem nextChunk
  let info := (info.subUsed size).addFree size
  if prevFree ∧ nextFree then
    let info := info.addFree (4 * memSizeField)
    let size := size + 4 * memSizeField + chunkSize info.mem prevChunk + nextSize
    let info := (info.memUnlinkChunk prevChunk).memUnlinkChunk nextChunk
    (info.memSetChunkSize prevChunk size).memLinkChunk prevChunk
  else if prevFree then
    let info := info.addFree (2 * memSizeField)
    let size := size + 2 * memSizeField + chunkSize info.mem prevChunk
    let info := info.memUnlinkChunk prevChunk
    (info.memSetChunkSize prevChunk size).memLinkChunk prevChunk
  else if nextFree then
    let info := info.addFree (2 * memSizeField)
    let size := size + 2 * memSizeField + nextSize
    let info := info.memUnlinkChunk nextChunk
    (info.memSetChunkSize chunk size).memLinkChunk chunk
  else (info.memSetChunkSize chunk size).memLinkChunk chunk

/-- `memcpy` of `size` bytes at `src` in a memory to `dst`. -/
def memcpy (dst : ℕ) (srcMem : ℕ → ℕ) (src size : ℕ) : Info :=
  { info with
    mem := fun ptr =>
      if dst ≤ ptr ∧ ptr < dst + size then srcMem (ptr - dst + src) else info.mem ptr }

/-- What `__mem_realloc` does to restore the chunk when there is no memory. `tmp` has the
contents of the chunk at the same addresses, none of which reaches 2^64. The process is killed
when it follows a null pointer. -/
def memRestore (chunk size : ℕ) (tmp : ℕ → ℕ) : Option Info :=
  let lastChunk := info.buckets (memBucketBySize size)
  if lastChunk = 0 then none
  else
    let info := info.memUnlinkChunk lastChunk
    let info :=
      if chunk ≠ lastChunk then
        let leftSize := wrapSub (wrapSub chunk lastChunk) (2 * memSizeField)
        let size := wrapSub (wrapSub (chunkSize info.mem chunk) leftSize) (2 * memSizeField)
        let info := (info.memSetChunkSize chunk size).memSetChunkSize lastChunk leftSize
        info.memLinkChunk lastChunk
      else info
    some (info.memcpy (chunk + memSizeField) tmp (chunk + memSizeField) size)

/-- `__mem_realloc` -/
def memRealloc (old size : ℕ) : Option (Option ℕ × Info) :=
  let size := memProperAllocSize size
  let chunk := old - memSizeField
  let oldSize := chunkSize info.mem chunk
  let nextChunk := chunk + memSizeField + oldSize + memSizeField
  let nextFree := nextChunk < info.hiBound ∧ freeChunk info.mem nextChunk
  let nextSize := chunkSize info.mem nextChunk
  let newChunk := chunk + memSizeField + size + memSizeField
  if size ≤ oldSize then
    if oldSize / 4 < size then some (some chunk, info)
    else if nextFree then
      let info := (info.subUsed oldSize).addUsed size
      let info := (info.addFree (oldSize + 2 * memSizeField)).subFree (size + 2 * memSizeField)
      let newChunkSize := nextSize + (oldSize - size)
      let info := info.memUnlinkChunk nextChunk
      let info := (info.memSetChunkSize newChunk newChunkSize).memLinkChunk newChunk
      some (some chunk, info.memSetUsedChunkSize chunk size)
    else
      let info := (info.subUsed oldSize).addUsed size
      let info := (info.addFree oldSize).subFree (size + 2 * memSizeField)
      let newChunkSize := oldSize - size - 2 * memSizeField
      let info := (info.memSetChunkSize newChunk newChunkSize).memLinkChunk newChunk
      some (some chunk, info.memSetUsedChunkSize chunk size)
  else if nextFree ∧ size ≤ oldSize + 2 * memSizeField + nextSize then
    let info := (info.subUsed oldSize).addFree oldSize
    let oldSize := oldSize + 2 * memSizeField + nextSize
    let info := info.memUnlinkChunk nextChunk
    some <|
      if oldSize < size + 2 * memSizeField + memMinAlloc then
        let info := (info.addUsed oldSize).subFree oldSize
        (some chunk, info.memSetUsedChunkSize chunk oldSize)
      else
        let newChunkSize := oldSize - size - 2 * memSizeField
        let info := (info.memSetChunkSize newChunk newChunkSize).memLinkChunk newChunk
        let info := ((info.addUsed size).subFree oldSize).addFree newChunkSize
        (some chunk, info.memSetUsedChunkSize chunk size)
  else
    match info.memMalloc size with
    | (some newChunk, info) =>
      let info := info.memcpy (newChunk + memSizeField) info.mem (chunk + memSizeField) oldSize
      some (some newChunk, info.memFree old)
    | (none, info) =>
      let tmp := info.mem
      match (info.memFree old).memMalloc size with
      | (some newChunk, info) =>
        some (some newChunk,
          info.memcpy (newChunk + memSizeField) tmp (chunk + memSizeField) oldSize)
      | (none, info) => (info.memRestore chunk oldSize tmp).map fun info => (none, info)

end Info

/-! ### Public memory interface -/

/-- The size of `zbx_mem_info_t`. -/
def memInfoSize : ℕ := 88

/-- `zbx_mem_create` on a segment at `base` with contents `mem`; `descrLen` and `paramLen`
are the lengths of the two texts. The process exits when the size is out of bounds. -/
def zbxMemCreate (mem : ℕ → ℕ) (base size descrLen paramLen : ℕ) : Option Info :=
  if memMinSize ≤ size ∧ size ≤ memMaxSize then
    let info := align8 base
    let buckets := align8 (info + memInfoSize)
    let texts := buckets + memBucketCount * 8
    let loBound := align8 (texts + (descrLen + 1) + (paramLen + 1))
    let hiBound := align8 (base + size - 8)
    let totalSize := wrapSub hiBound (loBound + 2 * memSizeField)
    let mem := setSizeFields mem loBound totalSize totalSize
    some
      { mem := Function.update (Function.update mem (loBound + 8) 0) (loBound + 16) 0
        buckets := Function.update (fun _ => 0) (memBucketBySize totalSize) loBound
        loBound := loBound
        hiBound := hiBound
        freeSize := totalSize
        usedSize := 0
        totalSize := totalSize }
  else none

/-- `zbx_mem_malloc` on a segment that may run out of memory; the process exits when asked
for a bad number of bytes. -/
def zbxMemMalloc (info : Info) (size : ℕ) : Option (Option ℕ × Info) :=
  if size = 0 ∨ memMaxSize < size then none
  else
    match info.memMalloc size with
    | (some chunk, info) => some (some (chunk + memSizeField), info)
    | (none, info) => some (none, info)

/-- `zbx_mem_realloc` on a segment that may run out of memory. -/
def zbxMemRealloc (info : Info) (old size : ℕ) : Option (Option ℕ × Info) :=
  if size = 0 ∨ memMaxSize < size then none
  else
    let result := if old = 0 then some (info.memMalloc size) else info.memRealloc old size
    result.map fun (chunk, info) => (chunk.map (· + memSizeField), info)

/-- `zbx_mem_free`; the process exits when asked to free a null pointer. -/
def zbxMemFree (info : Info) (ptr : ℕ) : Option Info :=
  if ptr = 0 then none else some (info.memFree ptr)

end Memory
