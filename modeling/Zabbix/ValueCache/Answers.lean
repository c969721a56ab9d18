import Zabbix.ValueCache.Coherence

/-!
# Answers to requests

A request first makes the cache cover what it asks for and then reads the answer from the
cached records. The answer is the one the database would give, and the item stays
coherent: what a request adds to `range` and `cachedAll` is what it has cached.
-/

namespace ValueCache

variable {V : Type*} {rows : List (Record V)} {now : ℤ} {item : Item V}

/-- What caching for a request leaves behind: a coherent item with the promises of the
item before. -/
structure Cached (rows : List (Record V)) (now : ℤ) (item item' : Item V) : Prop where
  coherent : Coherent rows now item'
  range : item'.range = item.range
  cachedAll : item'.cachedAll = item.cachedAll

theorem Cached.refl (hcoh : Coherent rows now item) :
  Cached rows now item item
  := ⟨hcoh, rfl, rfl⟩

theorem Cached.of_extends {item' : Item V} {added : List (Record V)} {bound : ℤ}
    (hcoh : Coherent rows now item) (hext : Extends item item' added)
    (hasc : Ascending (added ++ item.values)) (hcov : CoversFrom rows item' bound) :
  Cached rows now item item'
  := by
  obtain ⟨chunks, total, heq⟩ := hext.eq
  exact ⟨hcoh.extend hext hasc hcov, by rw [heq], by rw [heq]⟩

/-- The times that requests to an item with a promised range compute with are numbers of `int`.
The time stamps and the current time are not before 1970. -/
structure TimesFit (rows : List (Record V)) (now range : ℤ) : Prop where
  now_nonneg : 0 ≤ now
  now_fits : CInt.Fits now
  sec_nonneg : ∀ r ∈ rows, 0 ≤ r.sec
  range_fits : CInt.Fits (now - range)

theorem TimesFit.range {range range' : ℤ} (hfits : TimesFit rows now range)
    (hrange : CInt.Fits (now - range')) :
  TimesFit rows now range'
  := ⟨hfits.now_nonneg, hfits.now_fits, hfits.sec_nonneg, hrange⟩

/-- The time since a record is a number of `int`. -/
theorem TimesFit.wrap_since {range : ℤ} (hfits : TimesFit rows now range) {r : Record V}
    (hr : r ∈ rows) (hnow : r.sec ≤ now) :
  CInt.wrap (now - r.sec) = now - r.sec
  := by
  have hsec := hfits.sec_nonneg r hr
  exact CInt.wrap_of_fits (CInt.Fits.of_le hfits.now_fits (by omega) (by omega))

theorem TimesFit.coveredFrom_nonneg {range : ℤ} (hfits : TimesFit rows now range)
    (hcov : CoversFrom rows item (coveredFrom now item)) :
  0 ≤ coveredFrom now item
  := by
  have hnow := hfits.now_nonneg
  unfold coveredFrom at hcov ⊢
  cases hfirst : item.values.head? with
  | none =>
    dsimp only
    omega
  | some first =>
    rw [hfirst] at hcov
    exact hfits.sec_nonneg first (hcov.mem.mp (List.mem_of_head? hfirst)).1

/-! ### Requests by time -/

/-- Either the part to read ends where the cached part starts and reaches back to the
start of the request, or the cache covers the request already. -/
theorem timeUpdate_spec (hcoh : Coherent rows now item) (hnow : ∀ r ∈ rows, r.sec ≤ now)
    (hfits : TimesFit rows now item.range) {seconds timestamp : ℤ}
    (hstart : CInt.Fits (timestamp - seconds))
    (hperiod : CInt.Fits (seconds + now - timestamp)) :
  (timeUpdate now item seconds timestamp).2 = coveredFrom now item - 1 ∧
      (timeUpdate now item seconds timestamp).1 =
        (timeUpdate now item seconds timestamp).2 - (timestamp - seconds) ∨
    (timeUpdate now item seconds timestamp).1 = 0 ∧
      ∀ r ∈ rows, timestamp - seconds < r.sec → r ∈ item.values
  := by
  unfold timeUpdate
  rw [CInt.wrap_of_fits hstart, CInt.wrap_of_fits hfits.range_fits]
  cases hchunks : item.chunks with
  | nil =>
    left
    have hperiod' : now - timestamp + seconds = seconds + now - timestamp := by omega
    rw [coveredFrom_of_nil now hchunks, hperiod', CInt.wrap_of_fits hperiod]
    dsimp only
    omega
  | cons tail rest =>
    have hfirst := coveredFrom_of_chunks now hchunks hcoh.wellFormed
    have hpos := hfits.coveredFrom_nonneg (hcoh.exact.coversFrom hnow)
    rw [hfirst] at hpos ⊢
    dsimp only
    generalize (tail.slots tail.firstValue).sec = first at hfirst hpos ⊢
    by_cases hcached : timestamp - seconds < now - item.range
    · -- what is before the first cached record is not before the start of the request by
      -- more than an `int`
      left
      have hle := coveredFrom_le now hcoh.exact hnow
      have hend : CInt.Fits (first - 1) := by
        have := hfits.now_fits.2
        constructor <;> omega
      have hseconds : CInt.Fits (first - 1 - (timestamp - seconds)) := by
        have := hstart.2
        have := hperiod.2
        constructor <;> omega
      rw [if_pos hcached, CInt.wrap_of_fits hend, CInt.wrap_of_fits hseconds]
      exact ⟨rfl, rfl⟩
    · right
      rw [if_neg hcached]
      refine ⟨rfl, ?_⟩
      intro r hr hsec
      have := hnow r hr
      apply hcoh.promises.range (by omega) r hr
      omega

/-- Afterwards every record after the start of the request is cached. -/
theorem itemCacheValuesByTime_spec (p : Platform V) (hcoh : Coherent rows now item)
    (hnow : ∀ r ∈ rows, r.sec ≤ now) (hfits : TimesFit rows now item.range) {seconds timestamp : ℤ}
    (hstart : CInt.Fits (timestamp - seconds))
    (hperiod : CInt.Fits (seconds + now - timestamp)) :
  Cached rows now item (itemCacheValuesByTime p rows now item seconds timestamp).1 ∧
    ∀ r ∈ rows, timestamp - seconds < r.sec →
      r ∈ (itemCacheValuesByTime p rows now item seconds timestamp).1.values
  := by
  have hcov := hcoh.exact.coversFrom hnow
  have hupdate := timeUpdate_spec hcoh hnow hfits hstart hperiod
  unfold itemCacheValuesByTime
  generalize timeUpdate now item seconds timestamp = update at hupdate
  obtain ⟨updateSeconds, updateEnd⟩ := update
  dsimp only at hupdate ⊢
  by_cases hread : 0 < updateSeconds ∧ item.cachedAll = false
  · rw [if_pos hread]
    obtain ⟨hend, hseconds⟩ | ⟨hzero, -⟩ := hupdate
    · have hrecords : (dbReadValuesByTime p rows updateSeconds updateEnd).Perm
          (rows.filter fun r =>
            timestamp - seconds + 1 ≤ r.sec ∧ r.sec < coveredFrom now item) := by
        apply (p.select_perm _ _ _).trans
        apply List.Perm.of_eq
        apply List.filter_congr
        intro r _
        rw [decide_eq_decide]
        omega
      obtain ⟨added, hext, -, -, hasc, hcov'⟩ := itemAddRecords_spec p hcoh hcov hrecords
      refine ⟨Cached.of_extends hcoh hext hasc hcov', ?_⟩
      intro r hr hsec
      exact hcov'.mem.mpr ⟨hr, by omega⟩
    · omega
  · rw [if_neg hread]
    refine ⟨Cached.refl hcoh, ?_⟩
    intro r hr hsec
    by_cases hall : item.cachedAll = true
    · exact (hcoh.promises.all hall).mem_iff.mpr hr
    · obtain ⟨hend, hseconds⟩ | ⟨-, hcovered⟩ := hupdate
      · have hle : updateSeconds ≤ 0 := by
          by_contra hlt
          exact hread ⟨not_le.mp hlt, by simpa using hall⟩
        exact hcov.mem.mpr ⟨hr, by omega⟩
      · exact hcovered r hr hsec

theorem takeAfter_eq {c : Chunk V} (start index : ℤ) (hasc : Ascending c.values)
    (hlast : index ≤ c.lastValue) :
  takeAfter c start index
    = ((slice c.slots c.firstValue (index + 1)).filter fun r => start < r.sec).reverse
  := by
  fun_induction takeAfter c start index with
  | case1 index h ih =>
    rw [ih (by omega), sub_add_cancel, Slice.slice_succ h.1, List.filter_append,
      List.filter_cons_of_pos (by simpa using h.2), List.filter_nil, List.reverse_append]
    rfl
  | case2 index h =>
    symm
    rw [List.reverse_eq_nil_iff, List.filter_eq_nil_iff]
    intro r hr
    obtain ⟨k, h1, h2, rfl⟩ := Slice.mem_slice.mp hr
    have hle : (c.slots index).sec ≤ start := by
      by_contra hgt
      exact h ⟨by omega, not_le.mp hgt⟩
    have := sec_mono hasc h1 (by omega : k ≤ index) hlast
    unfold Record.sec at *
    simp
    omega

theorem Cursor.upTo_nil {newer : List (Chunk V)} {chunk : Chunk V} {index : ℤ} :
  Cursor.upTo ⟨newer, chunk, [], index⟩ = slice chunk.slots chunk.firstValue (index + 1)
  := rfl

theorem Cursor.upTo_cons {newer older : List (Chunk V)} {chunk prev : Chunk V} {index : ℤ} :
  Cursor.upTo ⟨newer, chunk, prev :: older, index⟩
    = Cursor.upTo ⟨chunk :: newer, prev, older, prev.lastValue⟩
      ++ slice chunk.slots chunk.firstValue (index + 1)
  := by
  simp [Cursor.upTo, Chunk.values]

theorem Cursor.In.ascending_chunk {cur : Cursor V} {chunks : List (Chunk V)}
    (h : cur.In chunks) (hasc : Ascending (chunkValues chunks)) :
  Ascending cur.chunk.values
  := by
  rw [h.chunks, chunkValues_append, chunkValues_cons] at hasc
  exact (ascending_append.mp (ascending_append.mp hasc).2.1).1

/-- The records up to a cursor are not after the last one of its chunk. -/
theorem Cursor.In.sec_le_last {cur : Cursor V} {chunks : List (Chunk V)} (h : cur.In chunks)
    (hasc : Ascending (chunkValues chunks)) :
  ∀ r ∈ cur.upTo, r.sec ≤ (cur.chunk.slots cur.chunk.lastValue).sec
  := by
  intro r hr
  have h1 := Timespec.sec_le (h.le_of_mem_upTo hasc r hr)
  have h2 := sec_mono (h.ascending_chunk hasc) h.first_le h.le_last le_rfl
  unfold Record.sec at *
  omega

/-- The loop of a request by time reads the records after its start. -/
theorem takeChunksAfter_eq (start : ℤ) {chunk : Chunk V} {older newer chunks : List (Chunk V)}
    {index : ℤ} (hwf : ChunksWellFormed chunks) (hasc : Ascending (chunkValues chunks))
    (h : Cursor.In ⟨newer, chunk, older, index⟩ chunks) :
  takeChunksAfter start chunk older index
    = ((Cursor.upTo ⟨newer, chunk, older, index⟩).filter fun r => start < r.sec).reverse
  := by
  have hchunk := takeAfter_eq start index (h.ascending_chunk hasc) h.le_last
  dsimp only at hchunk
  induction older generalizing newer chunk index with
  | nil =>
    rw [takeChunksAfter]
    by_cases hlast : (chunk.slots chunk.lastValue).sec > start
    · rw [if_pos hlast, Cursor.upTo_nil, hchunk, List.append_nil]
    · rw [if_neg hlast]
      symm
      rw [List.reverse_eq_nil_iff, List.filter_eq_nil_iff]
      intro r hr
      have := h.sec_le_last hasc r hr
      dsimp only at this
      simp only [decide_eq_true_eq]
      omega
  | cons prev rest ih =>
    rw [takeChunksAfter]
    by_cases hlast : (chunk.slots chunk.lastValue).sec > start
    · have hstep := h.step hwf
      have hprev := ih hstep (takeAfter_eq start _ (hstep.ascending_chunk hasc) hstep.le_last)
      rw [if_pos hlast, Cursor.upTo_cons, List.filter_append, List.reverse_append, hchunk,
        hprev]
    · rw [if_neg hlast]
      symm
      rw [List.reverse_eq_nil_iff, List.filter_eq_nil_iff]
      intro r hr
      have := h.sec_le_last hasc r hr
      dsimp only at this
      simp only [decide_eq_true_eq]
      omega

/-- What the look-up by second splits off the cached records. -/
theorem itemGetLastValue_filter (now timestamp : ℤ) (hwf : ChunksWellFormed item.chunks)
    (hasc : Ascending item.values) :
  match itemGetLastValue now item timestamp with
  | none => item.values.filter (fun r => r.sec ≤ periodEnd now timestamp) = []
  | some cur => cur.In item.chunks ∧
    item.values.filter (fun r => r.sec ≤ periodEnd now timestamp) = cur.upTo
  := by
  have hspec := itemGetLastValue_spec now timestamp hwf hasc
  cases hcur : itemGetLastValue now item timestamp with
  | none =>
    rw [hcur] at hspec
    dsimp only at hspec ⊢
    rw [List.filter_eq_nil_iff]
    intro r hr
    simp only [decide_eq_true_eq, not_le]
    exact hspec r hr
  | some cur =>
    rw [hcur] at hspec
    obtain ⟨hin, hupto, hafter⟩ := hspec
    refine ⟨hin, ?_⟩
    rw [Item.values, hin.values_eq]
    apply ListFilter.filter_append_eq_front
    · intro r hr
      rw [decide_eq_true_eq]
      exact hupto r hr
    · intro r hr
      simp only [decide_eq_true_eq, not_le]
      exact hafter r hr

/-- A request by time answers with the records of its period, the newest first. -/
theorem itemGetValuesByTime_answer {seconds timestamp : ℤ}
    (hstart : CInt.Fits (timestamp - seconds))
    (hwf : ChunksWellFormed item.chunks) (hasc : Ascending item.values) :
  (itemGetValuesByTime now item seconds timestamp).2
    = (item.values.filter fun r =>
        timestamp - seconds < r.sec ∧ r.sec ≤ periodEnd now timestamp).reverse
  := by
  have hlast := itemGetLastValue_filter now timestamp hwf hasc
  have hfilter : (item.values.filter fun r =>
        timestamp - seconds < r.sec ∧ r.sec ≤ periodEnd now timestamp)
      = (item.values.filter fun r => r.sec ≤ periodEnd now timestamp).filter
        fun r => timestamp - seconds < r.sec := by
    rw [List.filter_filter]
    apply List.filter_congr
    intro r _
    rw [Bool.decide_and]
  rw [hfilter]
  unfold itemGetValuesByTime
  rw [CInt.wrap_of_fits hstart]
  have hsame : ∀ range, itemGetLastValue now { item with range := range } timestamp
      = itemGetLastValue now item timestamp := fun _ => rfl
  dsimp only
  rw [hsame]
  cases hcur : itemGetLastValue now item timestamp with
  | none =>
    rw [hcur] at hlast
    rw [hlast]
    rfl
  | some cur =>
    rw [hcur] at hlast
    obtain ⟨hin, hupto⟩ := hlast
    rw [hupto]
    exact takeChunksAfter_eq _ hwf hasc hin

/-- Reading the answer to a request by time changes the item in its range only. -/
theorem itemGetValuesByTime_item (now : ℤ) (item : Item V) (seconds timestamp : ℤ) :
  ∃ range, (itemGetValuesByTime now item seconds timestamp).1 = { item with range := range } ∧
    (range = item.range ∨ range = CInt.wrap (seconds + now - timestamp))
  := by
  unfold itemGetValuesByTime
  generalize CInt.wrap (seconds + now - timestamp) = period
  dsimp only
  have hrange : ∀ c d : Prop, ∀ [Decidable c] [Decidable d],
      (if c then if d then period else item.range else item.range) = item.range ∨
      (if c then if d then period else item.range else item.range) = period := by
    intro c d _ _
    by_cases hc : c <;> by_cases hd : d <;> simp [hc, hd]
  split <;> exact ⟨_, rfl, hrange _ _⟩

/-! ### Requests by count -/

/-- What the look-up by time stamp splits off the cached records. -/
theorem itemGetLastValueByTimespec_filter (timestamp : Timespec)
    (hwf : ChunksWellFormed item.chunks) (hasc : Ascending item.values)
    (hnow : ∀ r ∈ item.values, r.sec ≤ now) :
  match itemGetLastValueByTimespec now item timestamp with
  | none => item.values.filter (fun r => r.timestamp ≤ timestamp) = []
  | some cur => cur.In item.chunks ∧
    item.values.filter (fun r => r.timestamp ≤ timestamp) = cur.upTo
  := by
  have hspec := itemGetLastValueByTimespec_spec now timestamp hwf hasc hnow
  cases hcur : itemGetLastValueByTimespec now item timestamp with
  | none =>
    rw [hcur] at hspec
    dsimp only at hspec ⊢
    rw [List.filter_eq_nil_iff]
    intro r hr
    simpa using hspec r hr
  | some cur =>
    rw [hcur] at hspec
    obtain ⟨hin, hupto, hafter⟩ := hspec
    refine ⟨hin, ?_⟩
    rw [Item.values, hin.values_eq]
    apply ListFilter.filter_append_eq_front
    · intro r hr
      simpa using hupto r hr
    · intro r hr
      simpa using hafter r hr

/-- The loop counts no more than there are. -/
theorem countCached_le (count cacheRecords : ℤ) {older : List (Chunk V)}
    (hwf : ChunksWellFormed older) :
  countCached count cacheRecords older ≤ cacheRecords + (chunkValues older).length
  := by
  induction older generalizing cacheRecords with
  | nil => simp [countCached]
  | cons prev rest ih =>
    have hprev := (hwf prev List.mem_cons_self).nonempty
    have ih := ih (cacheRecords + (prev.lastValue - prev.firstValue + 1))
      (fun c hc => hwf c (List.mem_cons_of_mem _ hc))
    rw [countCached, chunkValues_cons, List.length_append, Chunk.values, Slice.length_slice]
    split <;> omega

/-- The cached records a request by count starts from, and the end of the part to read. -/
theorem countUpdate_spec (hcoh : Coherent rows now item) (hnow : ∀ r ∈ rows, r.sec ≤ now)
    (count : ℤ) (timestamp : Timespec) :
  (countUpdate now item count timestamp).1
      ≤ item.values.countP (fun r => r.timestamp ≤ timestamp) ∧
    (countUpdate now item count timestamp).2 = coveredFrom now item - 1
  := by
  have hnow' : ∀ r ∈ item.values, r.sec ≤ now := by
    intro r hr
    exact hnow r ((hcoh.exact.coversFrom hnow).mem.mp hr).1
  have hfilter := itemGetLastValueByTimespec_filter timestamp
    hcoh.wellFormed hcoh.ascending hnow'
  unfold countUpdate
  cases hchunks : item.chunks with
  | nil =>
    rw [coveredFrom_of_nil now hchunks]
    simp
  | cons tail rest =>
    rw [coveredFrom_of_chunks now hchunks hcoh.wellFormed]
    refine ⟨?_, rfl⟩
    rw [List.countP_eq_length_filter]
    dsimp only
    cases hcur : itemGetLastValueByTimespec now item timestamp with
    | none => exact Int.natCast_nonneg _
    | some cur =>
      rw [hcur] at hfilter
      obtain ⟨hin, hupto⟩ := hfilter
      have hwf : ChunksWellFormed cur.older := by
        intro c hc
        apply hcoh.wellFormed
        rw [hin.chunks]
        simp [hc]
      have hle := countCached_le count (cur.index - cur.chunk.firstValue + 1) hwf
      have hlen : (chunkValues cur.older.reverse).length = (chunkValues cur.older).length := by
        apply List.Perm.length_eq
        exact List.Perm.flatMap_right _ (List.reverse_perm _)
      have hfirst := hin.first_le
      rw [hupto, Cursor.upTo, List.length_append, Slice.length_slice, hlen]
      dsimp only
      omega

/-- Afterwards `count` of the records that are not after the time stamp are cached, or
all records are. -/
theorem itemCacheValuesByCount_spec (p : Platform V) (hcoh : Coherent rows now item)
    (hnow : ∀ r ∈ rows, r.sec ≤ now) (count : ℤ) (timestamp : Timespec) :
  Cached rows now item (itemCacheValuesByCount p rows now item count timestamp).1 ∧
    (count ≤ (itemCacheValuesByCount p rows now item count timestamp).1.values.countP
        (fun r => r.timestamp ≤ timestamp) ∨
      (itemCacheValuesByCount p rows now item count timestamp).1.values.Perm rows)
  := by
  have hcov := hcoh.exact.coversFrom hnow
  obtain ⟨hcount, hend⟩ := countUpdate_spec hcoh hnow count timestamp
  unfold itemCacheValuesByCount
  generalize countUpdate now item count timestamp = update at hcount hend
  obtain ⟨cacheRecords, updateEnd⟩ := update
  dsimp only at hcount hend ⊢
  by_cases hread : item.cachedAll = false ∧ cacheRecords < count
  · rw [if_pos hread, hend]
    rcases dbReadValuesByCount_spec p rows (count - cacheRecords) (coveredFrom now item - 1)
      timestamp with hreads | ⟨start, hreads, henough⟩
    · -- everything before the cached part was read
      obtain ⟨start, hstart⟩ := exists_le_sec rows
      have hrecords := hreads.trans (List.Perm.of_eq (List.filter_congr
        (q := fun r => start ≤ r.sec ∧ r.sec < coveredFrom now item) (by
          intro r hr
          have := hstart r hr
          rw [decide_eq_decide]
          omega)))
      obtain ⟨added, hext, -, -, hasc, hcov'⟩ := itemAddRecords_spec p hcoh hcov hrecords
      refine ⟨Cached.of_extends hcoh hext hasc hcov', Or.inr ?_⟩
      apply hcov'.trans
      apply List.Perm.of_eq
      apply List.filter_eq_self.mpr
      intro r hr
      have := hstart r hr
      rw [decide_eq_true_eq]
      omega
    · have hrecords := hreads.trans (List.Perm.of_eq (List.filter_congr
        (q := fun r => start ≤ r.sec ∧ r.sec < coveredFrom now item) (by
          intro r _
          rw [decide_eq_decide]
          omega)))
      obtain ⟨added, hext, -, hadded, hasc, hcov'⟩ := itemAddRecords_spec p hcoh hcov hrecords
      refine ⟨Cached.of_extends hcoh hext hasc hcov', Or.inl ?_⟩
      have := hadded.countP_eq (fun r => decide (r.timestamp ≤ timestamp))
      rw [hext.values, List.countP_append]
      push_cast
      omega
  · rw [if_neg hread]
    refine ⟨Cached.refl hcoh, ?_⟩
    by_cases hall : item.cachedAll = true
    · exact Or.inr (hcoh.promises.all hall)
    · left
      have : ¬ cacheRecords < count := fun hlt => hread ⟨by simpa using hall, hlt⟩
      dsimp only
      omega

theorem takeCount_eq (c : Chunk V) (count : ℕ) (index : ℤ) :
  takeCount c count index = (slice c.slots c.firstValue (index + 1)).reverse.take count
  := by
  induction count generalizing index with
  | zero => simp [takeCount]
  | succ count ih =>
    rw [takeCount]
    by_cases hindex : (c.firstValue : ℤ) ≤ index
    · rw [if_pos hindex, ih, sub_add_cancel, Slice.slice_succ hindex, List.reverse_append]
      rfl
    · rw [if_neg hindex, Slice.slice_of_le (by omega)]
      rfl

/-- The loop of a request by count reads the records back from the cursor. -/
theorem takeChunksCount_eq (count : ℕ) (newer : List (Chunk V)) (chunk : Chunk V)
    (older : List (Chunk V)) (index : ℤ) :
  takeChunksCount count chunk older index
    = (Cursor.upTo ⟨newer, chunk, older, index⟩).reverse.take count
  := by
  induction older generalizing newer chunk index count with
  | nil =>
    rw [takeChunksCount, Cursor.upTo_nil, takeCount_eq]
    by_cases hcount : 0 < count
    · rw [if_pos hcount, List.append_nil]
    · rw [if_neg hcount, Nat.eq_zero_of_not_pos hcount, List.take_zero]
  | cons prev rest ih =>
    rw [takeChunksCount, Cursor.upTo_cons, takeCount_eq, List.reverse_append]
    by_cases hcount : 0 < count
    · rw [if_pos hcount]
      dsimp only
      rw [ih _ (chunk :: newer), List.length_take, List.take_append]
      congr 2
      omega
    · rw [if_neg hcount, Nat.eq_zero_of_not_pos hcount, List.take_zero]

/-- The values a request by count reads from the cached records. -/
theorem itemGetValuesByCount_answer (now : ℤ) (count : ℕ) (timestamp : ℤ)
    (hwf : ChunksWellFormed item.chunks) (hasc : Ascending item.values) :
  (itemGetValuesByCount now item count timestamp).2
    = (item.values.filter fun r => r.sec ≤ periodEnd now timestamp).reverse.take count
  := by
  have hlast := itemGetLastValue_filter now timestamp hwf hasc
  unfold itemGetValuesByCount
  cases hcur : itemGetLastValue now item timestamp with
  | none =>
    rw [hcur] at hlast
    rw [hlast]
    dsimp only
    split <;> simp
  | some cur =>
    rw [hcur] at hlast
    obtain ⟨hin, hupto⟩ := hlast
    rw [hupto, ← takeChunksCount_eq]
    dsimp only
    split <;> rfl

/-- Reading the answer to a request by count promises what the answer has shown: that the
cache holds everything, or everything from the last record of the answer on. -/
theorem itemGetValuesByCount_item (now : ℤ) (item : Item V) (count : ℕ) (timestamp : ℤ) :
  (itemGetValuesByCount now item count timestamp).2.length < count ∧
      (itemGetValuesByCount now item count timestamp).1
        = { item with range := 0, cachedAll := true } ∨
    ∃ range, (itemGetValuesByCount now item count timestamp).1 = { item with range := range } ∧
      (range = item.range ∨ ∃ last ∈ (itemGetValuesByCount now item count timestamp).2,
        range = CInt.wrap (now - last.sec))
  := by
  unfold itemGetValuesByCount
  cases itemGetLastValue now item timestamp with
  | none =>
    dsimp only
    by_cases hshort : ([] : List (Record V)).length < count
    · rw [if_pos hshort]
      exact Or.inl ⟨hshort, rfl⟩
    · rw [if_neg hshort]
      exact Or.inr ⟨_, rfl, Or.inl rfl⟩
  | some cur =>
    dsimp only
    generalize takeChunksCount count cur.chunk cur.older cur.index = values
    by_cases hshort : values.length < count
    · rw [if_pos hshort]
      exact Or.inl ⟨hshort, rfl⟩
    · rw [if_neg hshort]
      refine Or.inr ⟨_, rfl, ?_⟩
      cases hlast : values.getLast? with
      | none => exact Or.inl rfl
      | some last =>
        dsimp only
        split
        · exact Or.inr ⟨last, List.mem_of_getLast? hlast, rfl⟩
        · exact Or.inl rfl

/-! ### The promises after a request -/

/-- The item with other promises, when they are kept. -/
theorem Coherent.promise (hcoh : Coherent rows now item) {range : ℤ} {cachedAll : Bool}
    (hall : cachedAll = true → item.values.Perm rows)
    (hrange : 0 < range → ∀ r ∈ rows, now - range < r.sec → r ∈ item.values) :
  Coherent rows now { item with range := range, cachedAll := cachedAll }
  := ⟨hcoh.wellFormed, hcoh.ascending, hcoh.exact, hall, hrange⟩

theorem Coherent.statistics (hcoh : Coherent rows now item) (hits : ℤ) :
  Coherent rows now (updateStatistics item hits)
  := ⟨hcoh.wellFormed, hcoh.ascending, hcoh.exact, hcoh.promises.all, hcoh.promises.range⟩

/-- Every record from the second of a cached one on is cached. -/
theorem Coherent.mem_of_sec_le (hcoh : Coherent rows now item) {value r : Record V}
    (hvalue : value ∈ item.values) (hr : r ∈ rows) (hsec : value.sec ≤ r.sec) :
  r ∈ item.values
  := by
  cases hfirst : item.values.head? with
  | none => simp [List.head?_eq_none_iff.mp hfirst] at hvalue
  | some first =>
    have hcov := hcoh.exact first hfirst
    have := (hcov.mem.mp hvalue).2
    exact hcov.mem.mpr ⟨hr, by omega⟩

/-- The promise to have everything from the second of a cached record on. -/
theorem Coherent.promise_value (hcoh : Coherent rows now item) {value : Record V}
    (hvalue : value ∈ item.values) :
  Coherent rows now { item with range := now - value.sec }
  := by
  apply hcoh.promise hcoh.promises.all
  intro _ r hr hsec
  exact hcoh.mem_of_sec_le hvalue hr (by omega)

theorem TimesFit.promise_value {range : ℤ} (hfits : TimesFit rows now range)
    {value : Record V} (hvalue : value ∈ rows) (hnow : value.sec ≤ now) :
  TimesFit rows now (now - value.sec)
  := by
  apply hfits.range
  rw [sub_sub_cancel]
  exact hfits.now_fits.of_le (hfits.sec_nonneg value hvalue) hnow

theorem TimesFit.promise_none {range : ℤ} (hfits : TimesFit rows now range) :
  TimesFit rows now 0
  := by
  apply hfits.range
  rw [sub_zero]
  exact hfits.now_fits

/-! ### The answers -/

/-- The records of a period, the newest first. -/
def AnswersPeriod (rows : List (Record V)) (start timestamp : ℤ) (answer : List (Record V)) :
    Prop :=
  answer.Perm (rows.filter fun r => start < r.sec ∧ r.sec ≤ timestamp) ∧ Descending answer

/-- The newest `count` records up to a second, the newest first, or all of them if they
are fewer. -/
structure AnswersCount (rows : List (Record V)) (count : ℕ) (timestamp : ℤ)
    (answer : List (Record V)) : Prop where
  length : answer.length = min count (rows.countP fun r => r.sec ≤ timestamp)
  newest : ∃ rest, (answer ++ rest).Perm (rows.filter fun r => r.sec ≤ timestamp) ∧
    ∀ a ∈ answer, ∀ b ∈ rest, b.timestamp ≤ a.timestamp
  descending : Descending answer

/-- A newest record that is not after the time stamp, if there is one. -/
def AnswersValue (rows : List (Record V)) (ts : Timespec) : Option (Record V) → Prop
  | none => ∀ r ∈ rows, ts < r.timestamp
  | some value => value ∈ rows ∧ value.timestamp ≤ ts ∧
    ∀ r ∈ rows, r.timestamp ≤ ts → r.timestamp ≤ value.timestamp

/-- A request by time. -/
theorem itemGetValueRange_period (p : Platform V) (hcoh : Coherent rows now item)
    (hnow : ∀ r ∈ rows, r.sec ≤ now) (hfits : TimesFit rows now item.range) {seconds timestamp : ℤ}
    (hstart : CInt.Fits (timestamp - seconds))
    (hperiod : CInt.Fits (seconds + now - timestamp)) :
  AnswersPeriod rows (timestamp - seconds) (periodEnd now timestamp)
      (itemGetValueRange p rows now item seconds 0 timestamp).2 ∧
    Coherent rows now (itemGetValueRange p rows now item seconds 0 timestamp).1 ∧
    TimesFit rows now (itemGetValueRange p rows now item seconds 0 timestamp).1.range
  := by
  obtain ⟨hkept, hcached⟩ := itemCacheValuesByTime_spec p hcoh hnow hfits hstart hperiod
  have hcoh' := hkept.coherent
  have hfits' := hkept.range ▸ hfits
  unfold itemGetValueRange
  rw [if_pos rfl]
  dsimp only
  generalize (itemCacheValuesByTime p rows now item seconds timestamp).1 = item'
    at hcoh' hcached hfits'
  obtain ⟨range, heq, hrange⟩ := itemGetValuesByTime_item now item' seconds timestamp
  rw [CInt.wrap_of_fits hperiod] at hrange
  refine ⟨?_, ?_, ?_⟩
  · rw [itemGetValuesByTime_answer hstart hcoh'.wellFormed hcoh'.ascending]
    constructor
    · apply (List.reverse_perm _).trans
      have hcov := hcoh'.exact.coversFrom hnow
      apply (hcov.filter _).trans
      rw [List.filter_filter]
      apply List.Perm.of_eq
      apply List.filter_congr
      intro r hr
      by_cases hsec : timestamp - seconds < r.sec
      · have := (hcov.mem.mp (hcached r hr hsec)).2
        simp [this]
      · simp [hsec]
    · rw [descending_reverse]
      exact hcoh'.ascending.filter _
  · apply Coherent.statistics
    rw [heq]
    apply hcoh'.promise hcoh'.promises.all
    rcases hrange with rfl | rfl
    · exact hcoh'.promises.range
    · intro _ r hr hsec
      exact hcached r hr (by omega)
  · rw [heq]
    apply hfits'.range
    change CInt.Fits (now - range)
    rcases hrange with rfl | rfl
    · exact hfits'.range_fits
    · have hback : now - (seconds + now - timestamp) = timestamp - seconds := by omega
      rw [hback]
      exact hstart

/-- The front of a list in descending order is its newest part. -/
theorem answersCount_of_perm {l : List (Record V)} {count : ℕ} {timestamp : ℤ}
    (hasc : Ascending l) (older : List (Record V))
    (holder : ∀ a ∈ l, ∀ b ∈ older, b.timestamp ≤ a.timestamp)
    (hperm : (l ++ older).Perm (rows.filter fun r => r.sec ≤ timestamp))
    (hlen : count ≤ l.length ∨ older = []) :
  AnswersCount rows count timestamp (l.reverse.take count)
  := by
  have hdesc : Descending l.reverse := descending_reverse.mpr hasc
  refine ⟨?_, ⟨l.reverse.drop count ++ older, ?_, ?_⟩, ?_⟩
  · rw [List.countP_eq_length_filter, ← hperm.length_eq, List.length_append, List.length_take,
      List.length_reverse]
    rcases hlen with hlen | rfl
    · omega
    · simp
  · rw [← List.append_assoc, List.take_append_drop]
    exact ((List.reverse_perm l).append_right older).trans hperm
  · intro a ha b hb
    rw [List.mem_append] at hb
    rcases hb with hb | hb
    · rw [← List.take_append_drop count l.reverse] at hdesc
      exact (List.pairwise_append.mp hdesc).2.2 a ha b hb
    · exact holder a (List.mem_reverse.mp (List.mem_of_mem_take ha)) b hb
  · exact hdesc.sublist (List.take_sublist _ _)

/-- The newest records of a coherent item up to a second, when enough are cached. -/
theorem Coherent.answersCount (hcoh : Coherent rows now item) (hnow : ∀ r ∈ rows, r.sec ≤ now)
    {count : ℕ} {timestamp : ℤ}
    (hcached : count ≤ (item.values.filter fun r => r.sec ≤ timestamp).length ∨
      item.values.Perm rows) :
  AnswersCount rows count timestamp
    ((item.values.filter fun r => r.sec ≤ timestamp).reverse.take count)
  := by
  have hcov := hcoh.exact.coversFrom hnow
  have hasc : Ascending (item.values.filter fun r => r.sec ≤ timestamp) :=
    hcoh.ascending.filter _
  rcases hcached with hcount | hperm
  · -- what is not cached is older
    apply answersCount_of_perm hasc (rows.filter fun r =>
      r.sec < coveredFrom now item ∧ r.sec ≤ timestamp) _ _ (Or.inl hcount)
    · intro a ha b hb
      have := (hcov.mem.mp (List.mem_filter.mp ha).1).2
      have := (List.mem_filter.mp hb).2
      rw [decide_eq_true_eq] at this
      exact (Timespec.lt_of_sec_lt (by unfold Record.sec at *; omega)).le
    · apply ((hcov.filter _).append_right _).trans
      rw [List.filter_filter]
      apply ListFilter.filter_append_filter
      · intro r _
        rw [Bool.eq_iff_iff]
        simp
        omega
      · intro r _ hr
        simp at hr ⊢
        omega
  · apply answersCount_of_perm hasc [] (by simp) _ (Or.inr rfl)
    rw [List.append_nil]
    exact hperm.filter _

/-- A request by count. -/
theorem itemGetValueRange_count (p : Platform V) (hcoh : Coherent rows now item)
    (hnow : ∀ r ∈ rows, r.sec ≤ now) (hfits : TimesFit rows now item.range) (seconds : ℤ)
    {count : ℕ} (hcount : 0 < count) (timestamp : ℤ) :
  AnswersCount rows count (periodEnd now timestamp)
      (itemGetValueRange p rows now item seconds count timestamp).2 ∧
    Coherent rows now (itemGetValueRange p rows now item seconds count timestamp).1 ∧
    TimesFit rows now (itemGetValueRange p rows now item seconds count timestamp).1.range
  := by
  obtain ⟨hkept, hcached⟩ :=
    itemCacheValuesByCount_spec p hcoh hnow count ⟨timestamp, maxNanoseconds⟩
  have hcoh' := hkept.coherent
  have hfits' := hkept.range ▸ hfits
  unfold itemGetValueRange
  rw [if_neg (by omega)]
  dsimp only
  generalize (itemCacheValuesByCount p rows now item count ⟨timestamp, maxNanoseconds⟩).1
    = item' at hcoh' hcached hfits'
  have hcov := hcoh'.exact.coversFrom hnow
  have hcached' : count ≤ (item'.values.filter fun r =>
      r.sec ≤ periodEnd now timestamp).length ∨ item'.values.Perm rows := by
    rcases hcached with hcached | hperm
    · left
      rw [← List.countP_eq_length_filter]
      apply le_trans (Int.ofNat_le.mp hcached)
      apply List.countP_mono_left
      intro r hr hle
      have hsec := Timespec.sec_le (of_decide_eq_true hle)
      have := hnow r (hcov.mem.mp hr).1
      unfold periodEnd
      dsimp only at hsec
      rw [decide_eq_true_eq]
      split <;> unfold Record.sec at * <;> omega
    · exact Or.inr hperm
  have hanswer := itemGetValuesByCount_answer now count timestamp hcoh'.wellFormed
    hcoh'.ascending
  have hright := hcoh'.answersCount hnow hcached'
  rw [← hanswer] at hright
  refine ⟨hright, ?_⟩
  rcases itemGetValuesByCount_item now item' count timestamp with
    ⟨hshort, heq⟩ | ⟨range, heq, hrange⟩
  · rw [heq]
    refine ⟨Coherent.statistics ?_ _, hfits'.promise_none⟩
    have hlen := hright.length
    rcases hcached' with hcached' | hperm
    · -- enough were cached, so the answer is not short
      rw [hanswer, List.length_take, List.length_reverse] at hshort
      omega
    · exact hcoh'.promise (fun _ => hperm) (fun h => absurd h (lt_irrefl _))
  · rw [heq]
    rcases hrange with rfl | ⟨last, hlast, rfl⟩
    · exact ⟨hcoh'.statistics _, hfits'⟩
    · rw [hanswer] at hlast
      have hmem := (List.mem_filter.mp (List.mem_reverse.mp (List.mem_of_mem_take hlast))).1
      have hrow := (hcov.mem.mp hmem).1
      rw [hfits.wrap_since hrow (hnow last hrow)]
      exact ⟨(hcoh'.promise_value hmem).statistics _,
        hfits'.promise_value hrow (hnow last hrow)⟩

/-- After the first part of a request for one value the cache holds a record that is not
after the time stamp, or all records. -/
theorem itemCacheValue_spec (p : Platform V) (hcoh : Coherent rows now item)
    (hnow : ∀ r ∈ rows, r.sec ≤ now) (ts : Timespec) :
  Cached rows now item (itemCacheValue p rows now item ts).1 ∧
    ((∃ r ∈ (itemCacheValue p rows now item ts).1.values, r.timestamp ≤ ts) ∨
      (itemCacheValue p rows now item ts).1.values.Perm rows)
  := by
  obtain ⟨hkept, hcached⟩ := itemCacheValuesByCount_spec p hcoh hnow 1 ts
  have hone : (∃ r ∈ (itemCacheValuesByCount p rows now item 1 ts).1.values,
        r.timestamp ≤ ts) ∨
      (itemCacheValuesByCount p rows now item 1 ts).1.values.Perm rows := by
    rcases hcached with hcached | hperm
    · left
      have hpos := List.countP_pos_iff.mp (Int.ofNat_le.mp hcached)
      simpa using hpos
    · exact Or.inr hperm
  unfold itemCacheValue
  cases hchunks : item.chunks with
  | nil => exact ⟨hkept, hone⟩
  | cons tail rest =>
    dsimp only
    by_cases hnewer : 0 < timespecCompare (tail.slots tail.firstValue).timestamp ts
    · rw [if_pos hnewer]
      exact ⟨hkept, hone⟩
    · rw [if_neg hnewer]
      have htail : tail.WellFormed := hcoh.wellFormed tail (by simp [hchunks])
      refine ⟨Cached.refl hcoh, Or.inl ⟨tail.slots tail.firstValue, ?_, ?_⟩⟩
      · rw [Item.values, hchunks, chunkValues_cons, htail.values_cons]
        simp
      · exact not_lt.mp (mt timespecCompare_pos.mpr hnewer)

/-- A request for one value. -/
theorem itemGetValue_spec (p : Platform V) (hcoh : Coherent rows now item)
    (hnow : ∀ r ∈ rows, r.sec ≤ now) (hfits : TimesFit rows now item.range) (ts : Timespec) :
  AnswersValue rows ts (itemGetValue p rows now item ts).2 ∧
    Coherent rows now (itemGetValue p rows now item ts).1 ∧
    TimesFit rows now (itemGetValue p rows now item ts).1.range
  := by
  obtain ⟨hkept, hcached⟩ := itemCacheValue_spec p hcoh hnow ts
  have hcoh' := hkept.coherent
  have hfits' := hkept.range ▸ hfits
  unfold itemGetValue
  generalize itemCacheValue p rows now item ts = cached at hcoh' hcached hfits'
  obtain ⟨item', hits⟩ := cached
  dsimp only at hcoh' hcached hfits' ⊢
  have hcov := hcoh'.exact.coversFrom hnow
  have hnow' : ∀ r ∈ item'.values, r.sec ≤ now := fun r hr => hnow r (hcov.mem.mp hr).1
  have hspec := itemGetLastValueByTimespec_spec now ts hcoh'.wellFormed
    hcoh'.ascending hnow'
  cases hcur : itemGetLastValueByTimespec now item' ts with
  | none =>
    rw [hcur] at hspec
    dsimp only at hspec ⊢
    have hperm : item'.values.Perm rows := by
      rcases hcached with ⟨r, hr, hle⟩ | hperm
      · exact absurd hle (not_le.mpr (hspec r hr))
      · exact hperm
    refine ⟨?_, hcoh'.promise (fun _ => hperm) hcoh'.promises.range, hfits'⟩
    intro r hr
    exact hspec r (hperm.mem_iff.mpr hr)
  | some cur =>
    rw [hcur] at hspec
    obtain ⟨hin, hupto, hafter⟩ := hspec
    have hsplit : item'.values = cur.upTo ++ cur.after := hin.values_eq
    have hvalue : cur.chunk.slots cur.index ∈ cur.upTo := by
      rw [hin.upTo_eq_concat]
      simp
    have hmem : cur.chunk.slots cur.index ∈ item'.values := by
      rw [hsplit]
      exact List.mem_append_left _ hvalue
    have hrow := (hcov.mem.mp hmem).1
    constructor
    · refine ⟨hrow, hupto _ hvalue, ?_⟩
      intro r hr hle
      by_cases hrmem : r ∈ item'.values
      · rw [hsplit, List.mem_append] at hrmem
        rcases hrmem with hrmem | hrmem
        · exact hin.le_of_mem_upTo hcoh'.ascending r hrmem
        · exact absurd hle (not_le.mpr (hafter r hrmem))
      · -- a record that is not cached is older than the cached ones
        apply le_of_lt
        apply Timespec.lt_of_sec_lt
        by_contra hsec
        exact hrmem (hcoh'.mem_of_sec_le hmem hr (not_lt.mp hsec))
    · have hstat := hcoh'.statistics hits
      dsimp only
      rw [hfits.wrap_since hrow (hnow _ hrow)]
      split
      · exact ⟨hstat.promise_value hmem, hfits'.promise_value hrow (hnow _ hrow)⟩
      · exact ⟨hstat, hfits'⟩

/-- Every request to a coherent item whose times can be computed with in `int` is answered as
the database would answer it, with the time stamp 0 for the current time as the end of a period,
and leaves the item coherent and ready for the next request. The number of records to read grows
by the records that are newer than the time stamp, and the time stamps of the records are compared
with that of the request by their difference: these are numbers of `int` as well. -/
theorem requests_answered (p : Platform V) (hcoh : Coherent rows now item)
    (hnow : ∀ r ∈ rows, r.sec ≤ now) (hfits : TimesFit rows now item.range) :
  (∀ seconds timestamp, CInt.Fits (timestamp - seconds) →
    CInt.Fits (seconds + now - timestamp) →
      AnswersPeriod rows (timestamp - seconds) (periodEnd now timestamp)
          (itemGetValueRange p rows now item seconds 0 timestamp).2 ∧
        Coherent rows now (itemGetValueRange p rows now item seconds 0 timestamp).1 ∧
        TimesFit rows now (itemGetValueRange p rows now item seconds 0 timestamp).1.range) ∧
  (∀ seconds (count : ℕ) timestamp, 0 < count → CInt.Fits (count + rows.length) →
    CInt.Fits (now - timestamp) →
      AnswersCount rows count (periodEnd now timestamp)
          (itemGetValueRange p rows now item seconds count timestamp).2 ∧
        Coherent rows now (itemGetValueRange p rows now item seconds count timestamp).1 ∧
        TimesFit rows now (itemGetValueRange p rows now item seconds count timestamp).1.range) ∧
  (∀ ts : Timespec, CInt.Fits (now - ts.sec) →
      AnswersValue rows ts (itemGetValue p rows now item ts).2 ∧
        Coherent rows now (itemGetValue p rows now item ts).1 ∧
        TimesFit rows now (itemGetValue p rows now item ts).1.range)
  := by
  refine ⟨?_, ?_, ?_⟩
  · intro seconds timestamp hstart hperiod
    exact itemGetValueRange_period p hcoh hnow hfits hstart hperiod
  · intro seconds count timestamp hcount _ _
    exact itemGetValueRange_count p hcoh hnow hfits seconds hcount timestamp
  · intro ts _
    exact itemGetValue_spec p hcoh hnow hfits ts

/-- Three records, of which an item caches the last two. -/
def sampleRows : List (Record ℕ) := [⟨⟨5, 0⟩, 1⟩, ⟨⟨7, 0⟩, 2⟩, ⟨⟨9, 0⟩, 3⟩]

/-- An item that caches the last two of `sampleRows` and promises four seconds. -/
def sampleItem : Item ℕ where
  itemid := 1
  valueType := 3
  cleanPending := false
  removePending := false
  cachedAll := false
  valuesTotal := 2
  lastAccessed := 10
  refcount := 1
  hits := 0
  range := 4
  chunks := [⟨fun i => if i = 0 then ⟨⟨7, 0⟩, 2⟩ else ⟨⟨9, 0⟩, 3⟩, 0, 1, 2⟩]

theorem sampleItem_coherent :
  Coherent sampleRows 10 sampleItem
  := by
  have hvalues : sampleItem.values = [⟨⟨7, 0⟩, 2⟩, ⟨⟨9, 0⟩, 3⟩] := by decide
  refine ⟨?_, ?_, ?_, ?_, ?_⟩
  · intro c hc
    rw [List.mem_singleton.mp hc]
    constructor <;> decide
  · rw [hvalues]
    simp [Ascending, Timespec.le_iff]
  · rw [CachesExactly, hvalues]
    intro first hfirst
    obtain rfl : ⟨⟨7, 0⟩, 2⟩ = first := by simpa using hfirst
    rw [CoversFrom, hvalues]
    decide
  · decide
  · rw [hvalues]
    decide

/-- Requests to the sample item, one of which reads the record at second 5. -/
theorem sampleItem_answered :
  (itemGetValueRange listPlatform sampleRows 10 sampleItem 4 0 8).2
      = [⟨⟨7, 0⟩, 2⟩, ⟨⟨5, 0⟩, 1⟩] ∧
    AnswersPeriod sampleRows 4 8
      (itemGetValueRange listPlatform sampleRows 10 sampleItem 4 0 8).2 ∧
    AnswersCount sampleRows 1 8
      (itemGetValueRange listPlatform sampleRows 10 sampleItem 0 1 8).2 ∧
    AnswersValue sampleRows ⟨6, 0⟩
      (itemGetValue listPlatform sampleRows 10 sampleItem ⟨6, 0⟩).2
  := by
  obtain ⟨hperiod, hcount, hvalue⟩ := requests_answered listPlatform sampleItem_coherent
    (by decide) ⟨by decide, by decide, by decide, by decide⟩
  exact ⟨by decide +kernel, (hperiod 4 8 (by decide) (by decide)).1,
    (hcount 0 1 8 Nat.one_pos (by decide) (by decide)).1, (hvalue ⟨6, 0⟩ (by decide)).1⟩

/-- A period that ends at the time stamp 0 is not taken literally: the last ten seconds
before 0 are answered with the records up to now. -/
theorem zeroTimestamp_not_literal :
  ¬ ∀ (p : Platform ℕ) (rows : List (Record ℕ)) (now : ℤ) (item : Item ℕ),
      Coherent rows now item → (∀ r ∈ rows, r.sec ≤ now) → ∀ seconds timestamp,
        AnswersPeriod rows (timestamp - seconds) timestamp
          (itemGetValueRange p rows now item seconds 0 timestamp).2
  := by
  intro h
  have hanswer := (h listPlatform sampleRows 10 sampleItem sampleItem_coherent (by decide)
    10 0).1.length_eq
  revert hanswer
  decide +kernel

end ValueCache
