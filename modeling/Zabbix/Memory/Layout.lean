import Zabbix.Library.Tiling
import Zabbix.Memory.Allocator

/-!
# The layout of a segment

A segment is tiled by chunks. While an operation is under way some chunks are loose: they
are neither in use nor free, and nothing is said of the words in them. An operation takes
chunks loose, divides and merges loose chunks without touching the memory, and makes the
loose chunks that result free or used. Each of these steps leaves the data of all other
chunks alone.
-/

namespace Memory

/-- What a chunk is. -/
inductive Kind where
  | used
  | free
  | loose
deriving DecidableEq, Repr

/-- A chunk: its size field is at `addr`, its data after that. -/
abbrev Chunk := Piece Kind

/-- The two size fields of a chunk are what its kind says. -/
def Marked (mem : ℕ → ℕ) (c : Chunk) : Prop :=
  match c.kind with
  | .used => mem c.addr = memFlgUsed + c.size ∧ mem (c.addr + 8 + c.size) = memFlgUsed + c.size
  | .free => mem c.addr = c.size ∧ mem (c.addr + 8 + c.size) = c.size
  | .loose => True

/-- The size of a chunk is one that the allocator makes. -/
def ProperSize (size : ℕ) : Prop := size % 8 = 0 ∧ memMinAlloc ≤ size

/-- The chunks of a segment, and the lists of the free ones by buckets. -/
structure Layout (info : Info) (chunks : List Chunk) (lists : ℕ → List ℕ) : Prop where
  tiles : Tiles 16 info.loBound info.hiBound chunks
  positive : 0 < info.loBound
  small : info.hiBound < info.loBound + memFlgUsed
  sizes : ∀ c ∈ chunks, ProperSize c.size
  marked : ∀ c ∈ chunks, Marked info.mem c
  linked : ∀ i, LinkedList.Linked 8 16 info.mem (info.buckets i) (lists i)
  nodup : ∀ i, (lists i).Nodup
  listed : ∀ i a, a ∈ lists i ↔
    ∃ c ∈ chunks, c.addr = a ∧ c.kind = .free ∧ memBucketBySize c.size = i

/-- The data of a chunk are the same in two memories. -/
def Kept (mem mem' : ℕ → ℕ) (c : Chunk) : Prop :=
  ∀ x, c.addr + 8 ≤ x → x < c.addr + 8 + c.size → mem' x = mem x

theorem Kept.trans {mem mem' mem'' : ℕ → ℕ} {c : Chunk} (h : Kept mem mem' c)
    (h' : Kept mem' mem'' c) :
  Kept mem mem'' c
  := fun x hl hu => (h' x hl hu).trans (h x hl hu)

theorem setSizeFields_left (mem : ℕ → ℕ) (chunk size word : ℕ) :
  setSizeFields mem chunk size word chunk = word
  := by
  have hne : chunk ≠ chunk + memSizeField + size := by
    unfold memSizeField
    omega
  rw [setSizeFields, Function.update_of_ne hne, Function.update_self]

theorem setSizeFields_right (mem : ℕ → ℕ) (chunk size word : ℕ) :
  setSizeFields mem chunk size word (chunk + 8 + size) = word
  := Function.update_self ..

theorem setSizeFields_of_ne {mem : ℕ → ℕ} {chunk size word x : ℕ} (hl : x ≠ chunk)
    (hr : x ≠ chunk + 8 + size) :
  setSizeFields mem chunk size word x = mem x
  := (Function.update_of_ne hr ..).trans (Function.update_of_ne hl ..)

/-- All chunks, and the one at a known place. -/
theorem forall_at {before after : List Chunk} {c : Chunk} {P : Chunk → Prop} :
  (∀ d ∈ before ++ c :: after, P d) ↔ P c ∧ ∀ d ∈ before ++ after, P d
  := by
  simp only [List.mem_append, List.mem_cons]
  constructor
  · intro h
    exact ⟨h c (Or.inr (Or.inl rfl)), fun d hd => h d (hd.imp_right Or.inr)⟩
  · rintro ⟨hc, h⟩ d (hd | rfl | hd)
    · exact h d (Or.inl hd)
    · exact hc
    · exact h d (Or.inr hd)

namespace Layout

variable {info : Info} {chunks before after : List Chunk} {lists : ℕ → List ℕ} {c : Chunk}

/-- The nodes of all lists are chunks. -/
theorem free_of_mem (h : Layout info chunks lists) {i a : ℕ} (ha : a ∈ lists i) :
  ∃ c ∈ chunks, c.addr = a ∧ c.kind = .free ∧ memBucketBySize c.size = i
  := (h.listed i a).mp ha

/-- Addresses of chunks are the same or far apart. -/
theorem far (h : Layout info chunks lists) {c d : Chunk} (hc : c ∈ chunks) (hd : d ∈ chunks) :
  c = d ∨ c.addr + c.size + 16 ≤ d.addr ∨ d.addr + d.size + 16 ≤ c.addr
  := h.tiles.apart hc hd

/-- The link fields of any two chunks do not overlap. -/
theorem fields_ne (h : Layout info chunks lists) {c d : Chunk} (hc : c ∈ chunks)
    (hd : d ∈ chunks) :
  c.addr + 8 ≠ d.addr + 16
  := by
  have hsize := (h.sizes d hd).2
  unfold memMinAlloc at hsize
  obtain rfl | hle | hle := h.far hc hd
  · omega
  · omega
  · omega

theorem separate (h : Layout info chunks lists) (i : ℕ) :
  LinkedList.Separate 8 16 (lists i)
  := by
  refine ⟨h.nodup i, ?_⟩
  intro a ha b hb
  obtain ⟨c, hc, rfl, -⟩ := h.free_of_mem ha
  obtain ⟨d, hd, rfl, -⟩ := h.free_of_mem hb
  exact h.fields_ne hc hd

theorem size_lt (h : Layout info chunks lists) (hc : c ∈ chunks) :
  c.size < memFlgUsed
  := by
  have hbounds := h.tiles.bounds hc
  have hsmall := h.small
  omega

/-- A node is in one list only. -/
theorem bucket_unique (h : Layout info chunks lists) {i j a : ℕ} (hi : a ∈ lists i)
    (hj : a ∈ lists j) :
  i = j
  := by
  obtain ⟨c, hc, hca, -, rfl⟩ := h.free_of_mem hi
  obtain ⟨d, hd, hda, -, rfl⟩ := h.free_of_mem hj
  rw [h.tiles.eq_of_addr_eq (by omega) hc hd (hca.trans hda.symm)]

theorem chunkSize_eq (h : Layout info chunks lists) (hc : c ∈ chunks)
    (hkind : c.kind ≠ .loose) :
  chunkSize info.mem c.addr = c.size ∧ chunkSize info.mem (c.addr + 8 + c.size) = c.size
  := by
  have hlt := h.size_lt hc
  have hmarked := h.marked c hc
  unfold chunkSize
  unfold Marked at hmarked
  cases hk : c.kind with
  | used =>
    rw [hk] at hmarked
    rw [hmarked.1, hmarked.2, Nat.add_mod_left, Nat.mod_eq_of_lt hlt]
    exact ⟨rfl, rfl⟩
  | free =>
    rw [hk] at hmarked
    rw [hmarked.1, hmarked.2, Nat.mod_eq_of_lt hlt]
    exact ⟨rfl, rfl⟩
  | loose => exact absurd hk hkind

theorem freeChunk_iff (h : Layout info chunks lists) (hc : c ∈ chunks)
    (hkind : c.kind ≠ .loose) :
  (freeChunk info.mem c.addr ↔ c.kind = .free) ∧
  (freeChunk info.mem (c.addr + 8 + c.size) ↔ c.kind = .free)
  := by
  have hlt := h.size_lt hc
  have hmarked := h.marked c hc
  unfold freeChunk
  unfold Marked at hmarked
  unfold memFlgUsed at *
  cases hk : c.kind with
  | used =>
    rw [hk] at hmarked
    rw [hmarked.1, hmarked.2]
    simp only [reduceCtorEq, iff_false]
    omega
  | free =>
    rw [hk] at hmarked
    rw [hmarked.1, hmarked.2]
    simp only [iff_true]
    omega
  | loose => exact absurd hk hkind

/-! ### Words of the allocator -/

/-- A word of a link field of a free chunk. -/
def LinkField (chunks : List Chunk) (x : ℕ) : Prop :=
  ∃ c ∈ chunks, c.kind = .free ∧ (x = c.addr + 8 ∨ x = c.addr + 16)

/-- A link field is not a size field. -/
theorem linkField_ne (h : Layout info chunks lists) (hc : c ∈ chunks) {x : ℕ}
    (hx : LinkField chunks x) :
  x ≠ c.addr ∧ x ≠ c.addr + 8 + c.size
  := by
  obtain ⟨d, hd, -, hx⟩ := hx
  have hsize := (h.sizes d hd).2
  unfold memMinAlloc at hsize
  obtain rfl | hle | hle := h.far hc hd
  · omega
  · omega
  · omega

/-- A link field is not in the data of a chunk that is not free. -/
theorem linkField_outside (h : Layout info chunks lists) (hc : c ∈ chunks)
    (hkind : c.kind ≠ .free) {x : ℕ} (hx : LinkField chunks x) :
  x < c.addr + 8 ∨ c.addr + 8 + c.size ≤ x
  := by
  obtain ⟨d, hd, hfree, hx⟩ := hx
  have hsize := (h.sizes d hd).2
  unfold memMinAlloc at hsize
  obtain rfl | hle | hle := h.far hc hd
  · contradiction
  · omega
  · omega

/-- When only link fields change, the chunks are marked as before. -/
theorem marked_of_links (h : Layout info chunks lists) {mem' : ℕ → ℕ}
    (hmem : ∀ x, ¬ LinkField chunks x → mem' x = info.mem x) :
  ∀ c ∈ chunks, Marked mem' c
  := by
  intro c hc
  have hleft : mem' c.addr = info.mem c.addr :=
    hmem _ fun hx => (h.linkField_ne hc hx).1 rfl
  have hright : mem' (c.addr + 8 + c.size) = info.mem (c.addr + 8 + c.size) :=
    hmem _ fun hx => (h.linkField_ne hc hx).2 rfl
  have hmarked := h.marked c hc
  unfold Marked at hmarked ⊢
  rwa [hleft, hright]

/-- The link fields of nodes of any two lists do not overlap. -/
theorem nodes_ne (h : Layout info chunks lists) {i j a b : ℕ} (ha : a ∈ lists i)
    (hb : b ∈ lists j) :
  a + 8 ≠ b + 16
  := by
  obtain ⟨c, hc, rfl, -⟩ := h.free_of_mem ha
  obtain ⟨d, hd, rfl, -⟩ := h.free_of_mem hb
  exact h.fields_ne hc hd

/-- The chunks other than one at a known place are those that do not have its address. -/
theorem mem_others_iff (h : Layout info (before ++ c :: after) lists) {d : Chunk} :
  d ∈ before ++ after ↔ d ∈ before ++ c :: after ∧ d.addr ≠ c.addr
  := by
  constructor
  · intro hd
    refine ⟨?_, ?_⟩
    · simp only [List.mem_append, List.mem_cons] at hd ⊢
      tauto
    · have hfar := h.tiles.apart_of_mem hd
      omega
  · rintro ⟨hd, hne⟩
    simp only [List.mem_append, List.mem_cons] at hd ⊢
    obtain hd | rfl | hd := hd
    · exact Or.inl hd
    · contradiction
    · exact Or.inr hd

/-- A layout says nothing of the counters. -/
theorem setCounters (h : Layout info chunks lists) (usedSize freeSize : ℕ) :
  Layout (info.setCounters usedSize freeSize) chunks lists
  := by
  unfold Info.setCounters
  exact ⟨h.tiles, h.positive, h.small, h.sizes, h.marked, h.linked, h.nodup, h.listed⟩

/-- When only link fields and the words of one chunk change, the data of the other chunks
that are not free are kept. -/
theorem kept_others (h : Layout info (before ++ c :: after) lists) {mem' : ℕ → ℕ}
    (hmem : ∀ x, ¬ LinkField (before ++ after) x →
      x < c.addr ∨ c.addr + c.size + 16 ≤ x → mem' x = info.mem x) :
  ∀ d ∈ before ++ after, d.kind ≠ .free → Kept info.mem mem' d
  := by
  intro d hd hkind x hl hu
  have hapart := h.tiles.apart_of_mem hd
  apply hmem
  · rintro ⟨e, he, hfield⟩
    have hout := h.linkField_outside (h.mem_others_iff.mp hd).1 hkind
      ⟨e, (h.mem_others_iff.mp he).1, hfield⟩
    omega
  · omega

/-- A free chunk at a known place, among all of the chunks. -/
theorem exists_free_iff {a i : ℕ} (kind : Kind) :
  (∃ d ∈ before ++ ⟨c.addr, c.size, kind⟩ :: after, d.addr = a ∧ d.kind = .free ∧
      memBucketBySize d.size = i) ↔
    (c.addr = a ∧ kind = .free ∧ memBucketBySize c.size = i) ∨
    ∃ d ∈ before ++ after, d.addr = a ∧ d.kind = .free ∧ memBucketBySize d.size = i
  := by
  simp only [List.mem_append, List.mem_cons]
  constructor
  · rintro ⟨d, hd | rfl | hd, hrest⟩
    · exact Or.inr ⟨d, Or.inl hd, hrest⟩
    · exact Or.inl hrest
    · exact Or.inr ⟨d, Or.inr hd, hrest⟩
  · rintro (hrest | ⟨d, hd, hrest⟩)
    · exact ⟨_, Or.inr (Or.inl rfl), hrest⟩
    · exact ⟨d, hd.imp_right Or.inr, hrest⟩

/-- The nodes of the lists other than one chunk are the other free chunks. -/
theorem listed_others (h : Layout info (before ++ c :: after) lists) {a i : ℕ} :
  (∃ d ∈ before ++ after, d.addr = a ∧ d.kind = .free ∧ memBucketBySize d.size = i) ↔
    a ∈ lists i ∧ a ≠ c.addr
  := by
  rw [h.listed]
  constructor
  · rintro ⟨d, hd, rfl, hrest⟩
    obtain ⟨hd, hne⟩ := h.mem_others_iff.mp hd
    exact ⟨⟨d, hd, rfl, hrest⟩, hne⟩
  · rintro ⟨⟨d, hd, rfl, hrest⟩, hne⟩
    exact ⟨d, h.mem_others_iff.mpr ⟨hd, hne⟩, rfl, hrest⟩

/-- A layout of the same segment, where one list has changed. -/
theorem of_update {chunks' : List Chunk} {info' : Info} {index first : ℕ} {list : List ℕ}
    (h : Layout info chunks lists) (htiles : Tiles 16 info'.loBound info'.hiBound chunks')
    (hbounds : info'.loBound = info.loBound ∧ info'.hiBound = info.hiBound)
    (hbuckets : info'.buckets = Function.update info.buckets index first)
    (hsizes : ∀ c ∈ chunks', ProperSize c.size) (hmarked : ∀ c ∈ chunks', Marked info'.mem c)
    (hlinked : LinkedList.Linked 8 16 info'.mem first list) (hnodup : list.Nodup)
    (hothers : ∀ i, i ≠ index → ∀ a ∈ lists i,
      info'.mem (a + 8) = info.mem (a + 8) ∧ info'.mem (a + 16) = info.mem (a + 16))
    (hlisted : ∀ i a, a ∈ Function.update lists index list i ↔
      ∃ c ∈ chunks', c.addr = a ∧ c.kind = .free ∧ memBucketBySize c.size = i) :
  Layout info' chunks' (Function.update lists index list)
  := by
  obtain ⟨hlo, hhi⟩ := hbounds
  refine ⟨htiles, hlo ▸ h.positive, ?_, hsizes, hmarked, ?_, ?_, hlisted⟩
  · rw [hlo, hhi]
    exact h.small
  · intro i
    rw [hbuckets]
    by_cases hi : i = index
    · subst hi
      rwa [Function.update_self, Function.update_self]
    · rw [Function.update_of_ne hi, Function.update_of_ne hi]
      exact (h.linked i).congr (hothers i hi)
  · intro i
    by_cases hi : i = index
    · subst hi
      rwa [Function.update_self]
    · rw [Function.update_of_ne hi]
      exact h.nodup i

/-! ### Steps -/

/-- Unlinking a free chunk changes link fields of its list only. -/
theorem unlink_frame (h : Layout info (before ++ c :: after) lists) {index : ℕ}
    {l₁ l₂ : List ℕ} (hlist : lists index = l₁ ++ c.addr :: l₂) :
  (∀ x, ¬ LinkField (before ++ after) x →
    (LinkedList.unlink 8 16 info.mem (info.buckets index) c.addr).1 x = info.mem x) ∧
  ∀ i, i ≠ index → ∀ a ∈ lists i,
    (LinkedList.unlink 8 16 info.mem (info.buckets index) c.addr).1 (a + 8) = info.mem (a + 8) ∧
    (LinkedList.unlink 8 16 info.mem (info.buckets index) c.addr).1 (a + 16) = info.mem (a + 16)
  := by
  have hlinked := h.linked index
  have hnodup := h.nodup index
  rw [hlist] at hlinked hnodup
  obtain ⟨hprev, hnext⟩ := hlinked.neighbours
  obtain ⟨hfresh, -⟩ := List.nodup_cons.mp (List.nodup_middle.mp hnodup)
  have hothers : ∀ a ∈ l₁ ++ l₂, a ∈ lists index ∧ a ≠ c.addr := by
    intro a ha
    refine ⟨?_, fun heq => hfresh (heq ▸ ha)⟩
    rw [hlist]
    simp only [List.mem_append, List.mem_cons] at ha ⊢
    tauto
  have hp : info.mem (c.addr + 8) ≠ 0 →
      info.mem (c.addr + 8) ∈ lists index ∧ info.mem (c.addr + 8) ≠ c.addr :=
    fun h0 => hothers _ (List.mem_append_left _ (hprev.resolve_left h0))
  have hn : info.mem (c.addr + 16) ≠ 0 →
      info.mem (c.addr + 16) ∈ lists index ∧ info.mem (c.addr + 16) ≠ c.addr :=
    fun h0 => hothers _ (List.mem_append_right _ (hnext.resolve_left h0))
  constructor
  · intro x hx
    apply LinkedList.unlink_of_ne
    · intro h0 heq
      obtain ⟨d, hd, haddr, hkind, -⟩ := h.listed_others.mpr (hp h0)
      exact hx ⟨d, hd, hkind, Or.inr (by omega)⟩
    · intro h0 heq
      obtain ⟨d, hd, haddr, hkind, -⟩ := h.listed_others.mpr (hn h0)
      exact hx ⟨d, hd, hkind, Or.inl (by omega)⟩
  · intro i hi a ha
    -- the nodes of two lists are different, and their link fields do not overlap
    have hne : ∀ b ∈ lists index, a ≠ b := fun b hb heq => hi (h.bucket_unique ha (heq ▸ hb))
    constructor
    · apply LinkedList.unlink_of_ne
      · exact fun h0 => h.nodes_ne ha (hp h0).1
      · intro h0
        have hab := hne _ (hn h0).1
        omega
    · apply LinkedList.unlink_of_ne
      · intro h0
        have hab := hne _ (hp h0).1
        omega
      · exact fun h0 => (h.nodes_ne (hn h0).1 ha).symm

/-- A free chunk is unlinked. -/
theorem unlink (h : Layout info (before ++ c :: after) lists) (hfree : c.kind = .free) :
  (∃ lists', Layout (info.memUnlinkChunk c.addr)
    (before ++ ⟨c.addr, c.size, .loose⟩ :: after) lists') ∧
  ∀ d ∈ before ++ after, d.kind ≠ .free → Kept info.mem (info.memUnlinkChunk c.addr).mem d
  := by
  have hc : c ∈ before ++ c :: after := by simp
  set index := memBucketBySize c.size with hindex
  have hcl : c.addr ∈ lists index := (h.listed index c.addr).mpr ⟨c, hc, rfl, hfree, rfl⟩
  obtain ⟨l₁, l₂, hlist⟩ := List.append_of_mem hcl
  have hsize : chunkSize info.mem c.addr = c.size := (h.chunkSize_eq hc (by simp [hfree])).1
  have hmem : (info.memUnlinkChunk c.addr).mem
      = (LinkedList.unlink 8 16 info.mem (info.buckets index) c.addr).1 := by
    unfold Info.memUnlinkChunk
    rw [hsize]
  have hbuckets : (info.memUnlinkChunk c.addr).buckets = Function.update info.buckets index
      (LinkedList.unlink 8 16 info.mem (info.buckets index) c.addr).2 := by
    unfold Info.memUnlinkChunk
    rw [hsize]
  obtain ⟨hframe, hrest⟩ := h.unlink_frame hlist
  rw [← hmem] at hframe hrest
  have hlinked := h.linked index
  have hseparate := h.separate index
  rw [hlist] at hlinked hseparate
  obtain ⟨hfresh, hnodup⟩ := List.nodup_cons.mp (List.nodup_middle.mp hseparate.1)
  refine ⟨⟨Function.update lists index (l₁ ++ l₂), ?_⟩,
    h.kept_others fun x hx _ => hframe x hx⟩
  refine h.of_update (h.tiles.setKind .loose) ⟨rfl, rfl⟩ hbuckets
    (forall_at.mpr (forall_at.mp h.sizes)) ?_ ?_ hnodup hrest ?_
  · have hmarked := h.marked_of_links fun x hx => hframe x fun hx' => hx (by
      obtain ⟨d, hd, hkind⟩ := hx'
      exact ⟨d, (h.mem_others_iff.mp hd).1, hkind⟩)
    exact forall_at.mpr ⟨trivial, (forall_at.mp hmarked).2⟩
  · rw [hmem]
    exact hlinked.unlink hseparate
  · intro i a
    rw [exists_free_iff, h.listed_others]
    by_cases hi : i = index
    · subst hi
      rw [Function.update_self, hlist]
      constructor
      · intro ha
        refine Or.inr ⟨?_, fun heq => hfresh (heq ▸ ha)⟩
        simp only [List.mem_append, List.mem_cons] at ha ⊢
        tauto
      · rintro (⟨-, hkind, -⟩ | ⟨ha, hne⟩)
        · contradiction
        · simp only [List.mem_append, List.mem_cons] at ha ⊢
          tauto
    · have hne : a ∈ lists i → a ≠ c.addr := fun ha heq => hi (h.bucket_unique ha (heq ▸ hcl))
      rw [Function.update_of_ne hi]
      simp only [reduceCtorEq, false_and, and_false, false_or]
      exact ⟨fun ha => ⟨ha, hne ha⟩, And.left⟩

/-- The nodes of the lists are far from a chunk that is not free. -/
theorem nodes_far (h : Layout info (before ++ c :: after) lists) (hkind : c.kind ≠ .free)
    {i a : ℕ} (ha : a ∈ lists i) :
  (∃ d ∈ before ++ after, d.kind = .free ∧ d.addr = a) ∧
    (a + 40 ≤ c.addr ∨ c.addr + c.size + 16 ≤ a)
  := by
  have hc : c ∈ before ++ c :: after := by simp
  obtain ⟨d, hd, rfl, hfree, -⟩ := h.free_of_mem ha
  have hne : d.addr ≠ c.addr := by
    intro heq
    rw [h.tiles.eq_of_addr_eq (by omega) hd hc heq] at hfree
    contradiction
  have hothers := h.mem_others_iff.mpr ⟨hd, hne⟩
  have hapart := h.tiles.apart_of_mem hothers
  have hmin := (h.sizes d hd).2
  unfold memMinAlloc at hmin
  exact ⟨⟨d, hothers, hfree, rfl⟩, by omega⟩

/-- What linking a chunk that is not free changes: link fields of its list, and words of the
chunk other than its size fields. -/
theorem link_frame (h : Layout info (before ++ c :: after) lists) (hkind : c.kind ≠ .free)
    (mem₁ : ℕ → ℕ) (index : ℕ) :
  (∀ x, ¬ LinkField (before ++ after) x → x < c.addr ∨ c.addr + c.size + 16 ≤ x →
    LinkedList.link 8 16 mem₁ (info.buckets index) c.addr x = mem₁ x) ∧
  (∀ x, x = c.addr ∨ x = c.addr + 8 + c.size →
    LinkedList.link 8 16 mem₁ (info.buckets index) c.addr x = mem₁ x) ∧
  ∀ i, i ≠ index → ∀ a ∈ lists i,
    LinkedList.link 8 16 mem₁ (info.buckets index) c.addr (a + 8) = mem₁ (a + 8) ∧
    LinkedList.link 8 16 mem₁ (info.buckets index) c.addr (a + 16) = mem₁ (a + 16)
  := by
  have hmin := (h.sizes c (by simp)).2
  unfold memMinAlloc at hmin
  have hfirst : info.buckets index ≠ 0 → info.buckets index ∈ lists index :=
    (h.linked index).first_mem
  refine ⟨?_, ?_, ?_⟩
  · intro x hx hout
    apply LinkedList.link_of_ne
    · intro h0 heq
      obtain ⟨⟨d, hd, hfree, haddr⟩, -⟩ := h.nodes_far hkind (hfirst h0)
      exact hx ⟨d, hd, hfree, Or.inl (by omega)⟩
    · omega
    · omega
  · intro x hx
    apply LinkedList.link_of_ne
    · intro h0
      have hfar := (h.nodes_far hkind (hfirst h0)).2
      omega
    · omega
    · omega
  · intro i hi a ha
    have hfar := (h.nodes_far hkind ha).2
    have hne : info.buckets index ≠ 0 → a ≠ info.buckets index :=
      fun h0 heq => hi (h.bucket_unique ha (heq ▸ hfirst h0))
    constructor
    · apply LinkedList.link_of_ne
      · intro h0
        have hab := hne h0
        omega
      · omega
      · omega
    · apply LinkedList.link_of_ne
      · exact fun h0 => (h.nodes_ne (hfirst h0) ha).symm
      · omega
      · omega

/-- A chunk that is not free can be put in front of a list. -/
theorem separate_cons (h : Layout info (before ++ c :: after) lists) (hkind : c.kind ≠ .free)
    (index : ℕ) :
  LinkedList.Separate 8 16 (c.addr :: lists index)
  := by
  refine ⟨List.nodup_cons.mpr ⟨?_, h.nodup index⟩, ?_⟩
  · intro ha
    have hfar := (h.nodes_far hkind ha).2
    omega
  · have haddr : ∀ a ∈ c.addr :: lists index, ∃ d ∈ before ++ c :: after, d.addr = a := by
      intro a ha
      obtain rfl | ha := List.mem_cons.mp ha
      · exact ⟨c, by simp, rfl⟩
      · obtain ⟨d, hd, hda, -⟩ := h.free_of_mem ha
        exact ⟨d, hd, hda⟩
    intro a ha b hb
    obtain ⟨d, hd, rfl⟩ := haddr a ha
    obtain ⟨e, he, rfl⟩ := haddr b hb
    exact h.fields_ne hd he

/-- When only link fields and the words of one chunk change, the other chunks are marked as
before. -/
theorem marked_others (h : Layout info (before ++ c :: after) lists) {mem' : ℕ → ℕ}
    (hmem : ∀ x, ¬ LinkField (before ++ after) x →
      x < c.addr ∨ c.addr + c.size + 16 ≤ x → mem' x = info.mem x) :
  ∀ d ∈ before ++ after, Marked mem' d
  := by
  intro d hd
  have hd' := (h.mem_others_iff.mp hd).1
  have hapart := h.tiles.apart_of_mem hd
  have hfield : ∀ x, x = d.addr ∨ x = d.addr + 8 + d.size → ¬ LinkField (before ++ after) x := by
    rintro x hx ⟨e, he, hkind⟩
    have hne := h.linkField_ne hd' ⟨e, (h.mem_others_iff.mp he).1, hkind⟩
    omega
  have hmarked := h.marked d hd'
  unfold Marked at hmarked ⊢
  rwa [hmem _ (hfield _ (Or.inl rfl)) (by omega), hmem _ (hfield _ (Or.inr rfl)) (by omega)]

/-- A loose chunk is made free. -/
theorem makeFree (h : Layout info (before ++ c :: after) lists) (hloose : c.kind = .loose) :
  (∃ lists', Layout ((info.memSetChunkSize c.addr c.size).memLinkChunk c.addr)
    (before ++ ⟨c.addr, c.size, .free⟩ :: after) lists') ∧
  ∀ d ∈ before ++ after, d.kind ≠ .free →
    Kept info.mem ((info.memSetChunkSize c.addr c.size).memLinkChunk c.addr).mem d
  := by
  have hc : c ∈ before ++ c :: after := by simp
  have hkind : c.kind ≠ .free := by simp [hloose]
  set mem₁ := setSizeFields info.mem c.addr c.size c.size with hmem₁
  have hleft : mem₁ c.addr = c.size := setSizeFields_left ..
  have hright : mem₁ (c.addr + 8 + c.size) = c.size := setSizeFields_right ..
  have hother : ∀ x, x < c.addr ∨ c.addr + c.size + 16 ≤ x → mem₁ x = info.mem x :=
    fun x hx => setSizeFields_of_ne (by omega) (by omega)
  set index := memBucketBySize c.size with hindex
  have hsize : memBucketBySize (chunkSize mem₁ c.addr) = index := by
    rw [chunkSize, hleft, Nat.mod_eq_of_lt (h.size_lt hc)]
  have hmem : ((info.memSetChunkSize c.addr c.size).memLinkChunk c.addr).mem
      = LinkedList.link 8 16 mem₁ (info.buckets index) c.addr := by
    unfold Info.memLinkChunk Info.memSetChunkSize
    rw [hsize]
  have hbuckets : ((info.memSetChunkSize c.addr c.size).memLinkChunk c.addr).buckets
      = Function.update info.buckets index c.addr := by
    unfold Info.memLinkChunk Info.memSetChunkSize
    rw [hsize]
  obtain ⟨hframe, hself, hrest⟩ := h.link_frame hkind mem₁ index
  rw [← hmem] at hframe hself hrest
  have houtside : ∀ x, ¬ LinkField (before ++ after) x →
      x < c.addr ∨ c.addr + c.size + 16 ≤ x →
      ((info.memSetChunkSize c.addr c.size).memLinkChunk c.addr).mem x = info.mem x :=
    fun x hx hout => (hframe x hx hout).trans (hother x hout)
  -- the link fields of a node, which is far from the chunk, are those from before
  have hnode : ∀ i, ∀ a ∈ lists i, mem₁ (a + 8) = info.mem (a + 8) ∧
      mem₁ (a + 16) = info.mem (a + 16) := by
    intro i a ha
    have hfar := (h.nodes_far hkind ha).2
    exact ⟨hother _ (by omega), hother _ (by omega)⟩
  have hseparate := h.separate_cons hkind index
  refine ⟨⟨Function.update lists index (c.addr :: lists index), ?_⟩, h.kept_others houtside⟩
  refine h.of_update (h.tiles.setKind .free) ⟨rfl, rfl⟩ hbuckets
    (forall_at.mpr (forall_at.mp h.sizes)) ?_ ?_ hseparate.1 ?_ ?_
  · refine forall_at.mpr ⟨?_, h.marked_others houtside⟩
    exact ⟨(hself _ (Or.inl rfl)).trans hleft, (hself _ (Or.inr rfl)).trans hright⟩
  · rw [hmem]
    refine LinkedList.Linked.link ((h.linked index).congr (hnode index)) ?_ hseparate
    have hlow := (h.tiles.bounds hc).1
    have hpositive := h.positive
    omega
  · intro i hi a ha
    obtain ⟨hnext, hprev⟩ := hrest i hi a ha
    obtain ⟨hnext', hprev'⟩ := hnode i a ha
    exact ⟨hnext.trans hnext', hprev.trans hprev'⟩
  · intro i a
    have hold : a ∈ lists i ↔
        ∃ d ∈ before ++ after, d.addr = a ∧ d.kind = .free ∧ memBucketBySize d.size = i := by
      rw [h.listed, show c = ⟨c.addr, c.size, c.kind⟩ from rfl, exists_free_iff, hloose]
      simp
    rw [exists_free_iff, ← hold]
    by_cases hi : i = index
    · subst hi
      rw [Function.update_self, List.mem_cons]
      simp [eq_comm, hindex]
    · rw [Function.update_of_ne hi]
      simp [Ne.symm hi, ← hindex]

/-- A loose chunk is taken into use. -/
theorem makeUsed (h : Layout info (before ++ c :: after) lists) (hloose : c.kind = .loose) :
  Layout (info.memSetUsedChunkSize c.addr c.size)
    (before ++ ⟨c.addr, c.size, .used⟩ :: after) lists ∧
  ∀ d ∈ before ++ c :: after, Kept info.mem (info.memSetUsedChunkSize c.addr c.size).mem d
  := by
  have hframe : ∀ x, x ≠ c.addr → x ≠ c.addr + 8 + c.size →
      (info.memSetUsedChunkSize c.addr c.size).mem x = info.mem x :=
    fun x hl hr => setSizeFields_of_ne hl hr
  have hc : c ∈ before ++ c :: after := by simp
  refine ⟨⟨h.tiles.setKind .used, h.positive, h.small, ?_, ?_, ?_, h.nodup, ?_⟩, ?_⟩
  · exact forall_at.mpr (forall_at.mp h.sizes)
  · refine forall_at.mpr ⟨?_, ?_⟩
    · exact ⟨setSizeFields_left .., setSizeFields_right ..⟩
    · intro d hd
      have hapart := h.tiles.apart_of_mem hd
      have hmarked := h.marked d (h.mem_others_iff.mp hd).1
      unfold Marked at hmarked ⊢
      rwa [hframe _ (by omega) (by omega), hframe _ (by omega) (by omega)]
  · intro i
    apply (h.linked i).congr
    intro a ha
    obtain ⟨d, hd, rfl, hkind, -⟩ := h.free_of_mem ha
    have hne := h.linkField_ne hc ⟨d, hd, hkind, Or.inl rfl⟩
    have hne' := h.linkField_ne hc ⟨d, hd, hkind, Or.inr rfl⟩
    exact ⟨hframe _ hne.1 hne.2, hframe _ hne'.1 hne'.2⟩
  · intro i a
    rw [h.listed, exists_free_iff, show c = ⟨c.addr, c.size, c.kind⟩ from rfl, exists_free_iff,
      hloose]
    simp
  · intro d hd x hl hu
    have hfar := h.far hc hd
    obtain rfl | hfar := hfar
    · exact hframe x (by omega) (by omega)
    · exact hframe x (by omega) (by omega)

/-- Chunks that are not free become loose, and loose chunks are divided or merged. -/
theorem reshape {middle middle' : List Chunk}
    (h : Layout info (before ++ (middle ++ after)) lists) (hmiddle : ∀ c ∈ middle, c.kind ≠ .free)
    (hmiddle' : ∀ c ∈ middle', c.kind = .loose ∧ ProperSize c.size)
    (htiles : Tiles 16 info.loBound info.hiBound (before ++ (middle' ++ after))) :
  Layout info (before ++ (middle' ++ after)) lists
  := by
  have hcases : ∀ {P : Chunk → Prop} {l : List Chunk}, (∀ c ∈ before ++ (l ++ after), P c) ↔
      (∀ c ∈ before, P c) ∧ (∀ c ∈ l, P c) ∧ ∀ c ∈ after, P c := by
    intro P l
    simp only [List.forall_mem_append]
  refine ⟨htiles, h.positive, h.small, ?_, ?_, h.linked, h.nodup, ?_⟩
  · obtain ⟨hbefore, -, hafter⟩ := hcases.mp h.sizes
    exact hcases.mpr ⟨hbefore, fun c hc => (hmiddle' c hc).2, hafter⟩
  · obtain ⟨hbefore, -, hafter⟩ := hcases.mp h.marked
    refine hcases.mpr ⟨hbefore, ?_, hafter⟩
    intro c hc
    unfold Marked
    rw [(hmiddle' c hc).1]
    trivial
  · intro i a
    rw [h.listed]
    simp only [List.mem_append]
    constructor
    · rintro ⟨d, hd | hd | hd, hda, hkind, hi⟩
      · exact ⟨d, Or.inl hd, hda, hkind, hi⟩
      · exact absurd hkind (hmiddle d hd)
      · exact ⟨d, Or.inr (Or.inr hd), hda, hkind, hi⟩
    · rintro ⟨d, hd | hd | hd, hda, hkind, hi⟩
      · exact ⟨d, Or.inl hd, hda, hkind, hi⟩
      · rw [(hmiddle' d hd).1] at hkind
        contradiction
      · exact ⟨d, Or.inr (Or.inr hd), hda, hkind, hi⟩

end Layout

end Memory
