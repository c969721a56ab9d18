import Mathlib.Algebra.Order.Ring.Int
import Mathlib.Data.List.Sort
import Zabbix.Library.ListFilter
import Zabbix.ValueCache.Record

/-!
# Reading an item's history from the database

The history of an item is the list of the rows of its history table. What lies outside
the value cache enters through a `Platform`: the answers of the database server to the
three shapes of query the cache sends, the sorting function of the C library, and the
contents of freshly allocated memory. Queries without an `order by` and sorting leave
the order of records with one time stamp open.

`dbReadValuesByCount` reads backwards by growing periods until it has the requested
number of records. A read for the cache (`direct = false`) ends on a whole second.
-/

namespace ValueCache

variable {V : Type*}

theorem ascending_insertionSort (l : List (Record V)) :
  Ascending (l.insertionSort fun a b => a.timestamp ≤ b.timestamp)
  := by
  have htotal : Std.Total fun a b : Record V => a.timestamp ≤ b.timestamp :=
    ⟨fun a b => le_total a.timestamp b.timestamp⟩
  have htrans : IsTrans (Record V) fun a b => a.timestamp ≤ b.timestamp :=
    ⟨fun _ _ _ hab hbc => hab.trans hbc⟩
  exact List.pairwise_insertionSort _ _

theorem descending_insertionSort (l : List (Record V)) :
  Descending (l.insertionSort fun a b => b.timestamp ≤ a.timestamp)
  := by
  have htotal : Std.Total fun a b : Record V => b.timestamp ≤ a.timestamp :=
    ⟨fun a b => le_total b.timestamp a.timestamp⟩
  have htrans : IsTrans (Record V) fun a b => b.timestamp ≤ a.timestamp :=
    ⟨fun _ _ _ hab hbc => hbc.trans hab⟩
  exact List.pairwise_insertionSort _ _

/-- The database server, `qsort` and the allocator as the value cache uses them. -/
structure Platform (V : Type*) where
  /-- `where clock>from and clock<=to`. -/
  select : List (Record V) → ℤ → ℤ → List (Record V)
  select_perm : ∀ rows clockFrom clockTo, (select rows clockFrom clockTo).Perm
    (rows.filter fun r => clockFrom < r.sec ∧ r.sec ≤ clockTo)
  /-- `where clock<=to [and clock>from] order by clock desc, ns desc`. -/
  selectDesc : List (Record V) → Option ℤ → ℤ → List (Record V)
  selectDesc_perm : ∀ rows clockFrom clockTo, (selectDesc rows clockFrom clockTo).Perm
    (rows.filter fun r => r.sec ≤ clockTo ∧ clockFrom.all (· < r.sec))
  selectDesc_descending : ∀ rows clockFrom clockTo,
    Descending (selectDesc rows clockFrom clockTo)
  /-- `where clock=sec and ns=ns`. -/
  selectAt : List (Record V) → Timespec → List (Record V)
  selectAt_perm : ∀ rows ts, (selectAt rows ts).Perm (rows.filter (·.timestamp = ts))
  sortAsc : List (Record V) → List (Record V)
  sortAsc_perm : ∀ l, (sortAsc l).Perm l
  sortAsc_ascending : ∀ l, Ascending (sortAsc l)
  sortDesc : List (Record V) → List (Record V)
  sortDesc_perm : ∀ l, (sortDesc l).Perm l
  sortDesc_descending : ∀ l, Descending (sortDesc l)
  /-- The slots of a new chunk of an item that has the given number of chunks. -/
  uninit : ℕ → ℤ → Record V

/-- A platform whose server answers in the order of the rows where it may, whose sorting
is stable and whose fresh memory is zero. -/
def listPlatform [Inhabited V] : Platform V :=
  let ascending := List.insertionSort fun a b : Record V => a.timestamp ≤ b.timestamp
  let descending := List.insertionSort fun a b : Record V => b.timestamp ≤ a.timestamp
  { select := fun rows clockFrom clockTo =>
      rows.filter fun r => clockFrom < r.sec ∧ r.sec ≤ clockTo
    select_perm := fun _ _ _ => List.Perm.refl _
    selectDesc := fun rows clockFrom clockTo =>
      descending (rows.filter fun r => r.sec ≤ clockTo ∧ clockFrom.all (· < r.sec))
    selectDesc_perm := fun _ _ _ => List.perm_insertionSort _ _
    selectDesc_descending := fun _ _ _ => descending_insertionSort _
    selectAt := fun rows ts => rows.filter (·.timestamp = ts)
    selectAt_perm := fun _ _ => List.Perm.refl _
    sortAsc := ascending
    sortAsc_perm := fun _ => List.perm_insertionSort _ _
    sortAsc_ascending := ascending_insertionSort
    sortDesc := descending
    sortDesc_perm := fun _ => List.perm_insertionSort _ _
    sortDesc_descending := descending_insertionSort
    uninit := fun _ _ => ⟨⟨0, 0⟩, default⟩ }

variable (p : Platform V) (rows : List (Record V))

/-- Reads the records with `endTimestamp - seconds < sec ≤ endTimestamp`. -/
def dbReadValuesByTime (seconds endTimestamp : ℤ) : List (Record V) :=
  p.select rows (endTimestamp - seconds) endTimestamp

/-- The fetch loop of one query: the records read so far, the number to read, and the
second of the last one. Records newer than `countTs` raise the number to read. -/
def fetchRows (countTs : Timespec) (direct : Bool) :
    List (Record V) → List (Record V) × ℤ × ℤ → List (Record V) × ℤ × ℤ
  | [], s => s
  | row :: rest, (values, count, lastTimestamp) =>
    if count ≤ values.length ∧ row.sec ≠ lastTimestamp then (values, count, lastTimestamp)
    else
      fetchRows countTs direct rest
        (values ++ [row],
          if 0 < timespecCompare row.timestamp countTs then count + 1 else count,
          if direct then lastTimestamp else row.sec)

/-- The reading periods; the last one, 0, is not bounded below. -/
def readPeriods : List ℤ := [secPerHour, secPerDay, secPerWeek, secPerMonth, 0]

/-- The loop over the periods. -/
def readByPeriods (countTs : Timespec) (direct : Bool) :
    List ℤ → ℤ → List (Record V) × ℤ × ℤ → List (Record V)
  | [], _, (values, _, _) => values
  | period :: periods, clockTo, (values, count, lastTimestamp) =>
    if values.length < count then
      let clockFrom := clockTo - period
      let result := p.selectDesc rows
        (if clockFrom ≠ clockTo then some clockFrom else none) clockTo
      let result := if direct then result.take count.toNat else result
      readByPeriods countTs direct periods (clockTo - period)
        (fetchRows countTs direct result (values, count, lastTimestamp))
    else values

/-- Reads `count` records not newer than `countTs`, and all records between it and
`readTimestamp`. -/
def dbReadValuesByCount (values : List (Record V)) (count readTimestamp : ℤ)
    (countTs : Timespec) (direct : Bool) : List (Record V) :=
  readByPeriods p rows countTs direct readPeriods readTimestamp (values, count, 0)

/-! ### What a read by count finds -/

/-- The number of records newer than `countTs`. -/
def newerCount (countTs : Timespec) (l : List (Record V)) : ℕ :=
  l.countP fun r => countTs < r.timestamp

theorem newerCount_append (countTs : Timespec) (l l' : List (Record V)) :
  newerCount countTs (l ++ l') = newerCount countTs l + newerCount countTs l'
  := List.countP_append

/-- The fetch loop takes a front part of the rows. When it leaves rows behind it has
enough records, and the first row left is of another second than the last one taken. -/
theorem fetchRows_spec (countTs : Timespec) (l values : List (Record V)) (count last : ℤ) :
  ∃ taken left last', l = taken ++ left ∧
    fetchRows countTs false l (values, count, last)
      = (values ++ taken, count + newerCount countTs taken, last') ∧
    (∀ r ∈ taken.getLast?, last' = r.sec) ∧ (taken = [] → last' = last) ∧
    (∀ r ∈ left.head?,
      count + newerCount countTs taken ≤ (values ++ taken).length ∧ r.sec ≠ last')
  := by
  induction l generalizing values count last with
  | nil => exact ⟨[], [], last, by simp [fetchRows, newerCount]⟩
  | cons row rest ih =>
    by_cases hstop : count ≤ values.length ∧ row.sec ≠ last
    · refine ⟨[], row :: rest, last, rfl, ?_, by simp, by simp, ?_⟩
      · rw [fetchRows, if_pos hstop]
        simp [newerCount]
      · simpa [newerCount] using hstop
    · obtain ⟨taken, left, last', hl, hfetch, hlast, hnone, hleft⟩ := ih (values ++ [row])
        (if 0 < timespecCompare row.timestamp countTs then count + 1 else count) row.sec
      have hcount : (if 0 < timespecCompare row.timestamp countTs then count + 1 else count)
          + newerCount countTs taken = count + newerCount countTs (row :: taken) := by
        unfold newerCount
        rw [List.countP_cons]
        by_cases hnew : countTs < row.timestamp
        · rw [if_pos (timespecCompare_pos.mpr hnew)]
          simp only [hnew, decide_true, if_true]
          push_cast
          omega
        · rw [if_neg (mt timespecCompare_pos.mp hnew)]
          simp [hnew]
      refine ⟨row :: taken, left, last', by rw [hl]; rfl, ?_, ?_, by simp, ?_⟩
      · rw [fetchRows, if_neg hstop]
        simp only [Bool.false_eq_true, if_false]
        rw [hfetch, hcount]
        simp
      · intro r hr
        cases taken with
        | nil =>
          rw [hnone rfl]
          simp only [List.getLast?_singleton, Option.mem_def, Option.some.injEq] at hr
          rw [hr]
        | cons x taken =>
          apply hlast
          simpa using hr
      · intro r hr
        have := hleft r hr
        rw [hcount] at this
        simpa using this

/-- What one period reads, from rows in descending order when fewer records than needed
were there: everything, or enough records down to a whole second. -/
theorem fetchRows_whole (countTs : Timespec) (last : ℤ) {l values : List (Record V)}
    {count : ℤ} (hdesc : Descending l) (hneed : values.length < count) :
  ∃ taken last', fetchRows countTs false l (values, count, last)
      = (values ++ taken, count + newerCount countTs taken, last') ∧
    (taken = l ∨ count + newerCount countTs taken ≤ (values ++ taken).length ∧
      ∃ bound, (∃ r ∈ taken, r.sec = bound) ∧ taken = l.filter (bound ≤ ·.sec))
  := by
  obtain ⟨taken, left, last', hl, hfetch, hlast, -, hleft⟩ :=
    fetchRows_spec countTs l values count last
  refine ⟨taken, last', hfetch, ?_⟩
  cases hleftc : left with
  | nil =>
    left
    rw [hl, hleftc, List.append_nil]
  | cons row rest =>
    right
    obtain ⟨henough, hne⟩ := hleft row (by rw [hleftc]; rfl)
    refine ⟨henough, ?_⟩
    rcases List.eq_nil_or_concat taken with htaken | ⟨front, r, htaken⟩
    · -- with nothing taken there would still be too few records
      rw [htaken] at henough
      simp [newerCount] at henough
      omega
    · rw [List.concat_eq_append] at htaken
      have hr : last' = r.sec := hlast r (by rw [htaken]; simp)
      rw [hr] at hne
      rw [hl] at hdesc
      obtain ⟨hdt, hdl, hcross⟩ := List.pairwise_append.mp hdesc
      have hrmem : r ∈ taken := by rw [htaken]; simp
      use r.sec
      refine ⟨⟨r, hrmem, rfl⟩, ?_⟩
      have hkeep : taken.filter (r.sec ≤ ·.sec) = taken := by
        apply List.filter_eq_self.mpr
        intro x hx
        rw [htaken, List.mem_append] at hx
        rcases hx with hx | hx
        · have := (List.pairwise_append.mp (htaken ▸ hdt)).2.2 x hx r (by simp)
          simpa using Timespec.sec_le this
        · simp only [List.mem_singleton] at hx
          simp [hx]
      have hdrop : left.filter (r.sec ≤ ·.sec) = [] := by
        apply List.filter_eq_nil_iff.mpr
        intro x hx
        have hrow : row.sec < r.sec := by
          have := Timespec.sec_le (hcross r hrmem row (by rw [hleftc]; simp))
          unfold Record.sec at hne ⊢
          omega
        have hxrow : x.sec ≤ row.sec := by
          rw [hleftc] at hx hdl
          rcases List.mem_cons.mp hx with rfl | hx
          · exact le_rfl
          · exact Timespec.sec_le ((List.pairwise_cons.mp hdl).1 x hx)
        unfold Record.sec at *
        simp
        omega
      rw [hl, List.filter_append, hkeep, hdrop, List.append_nil]

/-- The records in `l` that are not newer than `countTs`. -/
theorem length_sub_newerCount (countTs : Timespec) (l : List (Record V)) :
  l.countP (fun r => r.timestamp ≤ countTs) + newerCount countTs l = l.length
  := by
  unfold newerCount
  rw [List.length_eq_countP_add_countP (fun r : Record V => r.timestamp ≤ countTs)]
  congr 1
  apply List.countP_congr
  intro r _
  simp

/-- The state of a read by count: every record newer than `clockTo` up to
`readTimestamp` is there, and `count` has grown by the records newer than `countTs`. -/
structure ReadDownTo (rows : List (Record V)) (countTs : Timespec)
    (count₀ readTimestamp clockTo : ℤ) (values : List (Record V)) (count : ℤ) : Prop where
  perm : values.Perm (rows.filter fun r => clockTo < r.sec ∧ r.sec ≤ readTimestamp)
  count : count = count₀ + newerCount countTs values

/-- The result of a read by count: all records up to `readTimestamp`, or all of them
from some second on and at least `count` among them not newer than `countTs`. -/
def ReadsCount (rows : List (Record V)) (countTs : Timespec) (count readTimestamp : ℤ)
    (values : List (Record V)) : Prop :=
  values.Perm (rows.filter fun r => r.sec ≤ readTimestamp) ∨
  (∃ bound, values.Perm (rows.filter fun r => bound ≤ r.sec ∧ r.sec ≤ readTimestamp) ∧
    count ≤ values.countP fun r => r.timestamp ≤ countTs)

variable {rows}

theorem ReadDownTo.readsCount {countTs : Timespec} {count₀ readTimestamp clockTo count : ℤ}
    {values : List (Record V)}
    (h : ReadDownTo rows countTs count₀ readTimestamp clockTo values count)
    (henough : count ≤ values.length) :
  ReadsCount rows countTs count₀ readTimestamp values
  := by
  right
  use clockTo + 1
  constructor
  · apply h.perm.trans
    apply List.Perm.of_eq
    apply List.filter_congr
    intro r _
    rw [decide_eq_decide]
    omega
  · have := length_sub_newerCount countTs values
    have := h.count
    omega

/-- One period: the loop ends with a full result, or everything down to the end of the
period has been read. -/
theorem period_spec {countTs : Timespec} {count₀ readTimestamp clockTo count : ℤ}
    {values : List (Record V)} (last : ℤ)
    (h : ReadDownTo rows countTs count₀ readTimestamp clockTo values count)
    (hto : clockTo ≤ readTimestamp) (hneed : values.length < count) (period : ℤ) :
  ∃ values' count' last',
    fetchRows countTs false (p.selectDesc rows
      (if clockTo - period ≠ clockTo then some (clockTo - period) else none) clockTo)
      (values, count, last) = (values', count', last') ∧
    (count' ≤ values'.length ∧ ReadsCount rows countTs count₀ readTimestamp values' ∨
      (0 < period → ReadDownTo rows countTs count₀ readTimestamp (clockTo - period)
        values' count') ∧
      (period = 0 → values'.Perm (rows.filter fun r => r.sec ≤ readTimestamp)))
  := by
  have hdesc := p.selectDesc_descending rows
    (if clockTo - period ≠ clockTo then some (clockTo - period) else none) clockTo
  have hperm := p.selectDesc_perm rows
    (if clockTo - period ≠ clockTo then some (clockTo - period) else none) clockTo
  generalize p.selectDesc rows
    (if clockTo - period ≠ clockTo then some (clockTo - period) else none) clockTo = l
    at hdesc hperm
  obtain ⟨taken, last', hfetch, htaken⟩ := fetchRows_whole countTs last hdesc hneed
  refine ⟨values ++ taken, _, last', hfetch, ?_⟩
  have hcount : count + newerCount countTs taken
      = count₀ + newerCount countTs (values ++ taken) := by
    rw [newerCount_append, h.count]
    push_cast
    omega
  rcases htaken with rfl | ⟨henough, bound, ⟨r, hr, hrb⟩, hbound⟩
  · right
    constructor
    · intro hpos
      refine ⟨?_, hcount⟩
      rw [if_pos (by omega)] at hperm
      apply (h.perm.append hperm).trans
      apply ListFilter.filter_append_filter
      · intro x _
        rw [Bool.eq_iff_iff]
        simp
        omega
      · intro x _ hx
        simp at hx ⊢
        omega
    · intro hzero
      rw [if_neg (by omega)] at hperm
      apply (h.perm.append hperm).trans
      apply ListFilter.filter_append_filter
      · intro x _
        rw [Bool.eq_iff_iff]
        simp
        omega
      · intro x _ hx
        simp at hx ⊢
        omega
  · left
    have hrf : r.sec ≤ clockTo ∧
        (if clockTo - period ≠ clockTo then some (clockTo - period) else none).all
          (· < r.sec) := by
      have hrl : r ∈ l := by
        rw [hbound] at hr
        exact (List.mem_filter.mp hr).1
      simpa using (List.mem_filter.mp (hperm.subset hrl)).2
    rw [hrb] at hrf
    refine ⟨henough, Or.inr ⟨bound, ?_, ?_⟩⟩
    · rw [hbound]
      apply (h.perm.append (hperm.filter _)).trans
      rw [List.filter_filter]
      apply ListFilter.filter_append_filter
      · intro x _
        rw [Bool.eq_iff_iff]
        obtain ⟨hto', hfrom⟩ := hrf
        by_cases hp : clockTo - period ≠ clockTo
        · simp only [if_pos hp] at hfrom ⊢
          simp at hfrom ⊢
          omega
        · simp only [if_neg hp]
          simp
          omega
      · intro x _ hx
        simp at hx ⊢
        omega
    · have := length_sub_newerCount countTs (values ++ taken)
      omega

theorem readByPeriods_spec {countTs : Timespec} {count₀ readTimestamp clockTo count : ℤ}
    (last : ℤ) {values : List (Record V)} {periods : List ℤ} (hpos : ∀ q ∈ periods, 0 < q)
    (h : ReadDownTo rows countTs count₀ readTimestamp clockTo values count)
    (hto : clockTo ≤ readTimestamp) :
  ReadsCount rows countTs count₀ readTimestamp
    (readByPeriods p rows countTs false (periods ++ [0]) clockTo (values, count, last))
  := by
  induction periods generalizing clockTo count last values with
  | nil =>
    rw [List.nil_append, readByPeriods]
    by_cases hneed : values.length < count
    · obtain ⟨values', count', last', hfetch, hend⟩ :=
        period_spec p last h hto hneed 0
      rw [if_pos hneed]
      simp only [Bool.false_eq_true, if_false]
      rw [hfetch, readByPeriods]
      rcases hend with ⟨-, hreads⟩ | ⟨-, hall⟩
      · exact hreads
      · exact Or.inl (hall rfl)
    · rw [if_neg hneed]
      exact h.readsCount (not_lt.mp hneed)
  | cons period periods ih =>
    rw [List.cons_append, readByPeriods]
    by_cases hneed : values.length < count
    · obtain ⟨values', count', last', hfetch, hend⟩ :=
        period_spec p last h hto hneed period
      have hperiod := hpos period List.mem_cons_self
      rw [if_pos hneed]
      simp only [Bool.false_eq_true, if_false]
      rw [hfetch]
      rcases hend with ⟨henough, hreads⟩ | ⟨hdown, -⟩
      · -- enough records: the loop over the periods ends here
        cases hrest : periods ++ [0] with
        | nil => simp at hrest
        | cons q qs =>
          rw [readByPeriods, if_neg (not_lt.mpr henough)]
          exact hreads
      · apply ih last' (fun q hq => hpos q (List.mem_cons_of_mem _ hq)) (hdown hperiod)
        omega
    · rw [if_neg hneed]
      exact h.readsCount (not_lt.mp hneed)

/-- A read by count for the cache finds what it promises. -/
theorem dbReadValuesByCount_spec (rows : List (Record V)) (count readTimestamp : ℤ)
    (countTs : Timespec) :
  ReadsCount rows countTs count readTimestamp
    (dbReadValuesByCount p rows [] count readTimestamp countTs false)
  := by
  have hperiods : readPeriods = [secPerHour, secPerDay, secPerWeek, secPerMonth] ++ [0] := rfl
  rw [dbReadValuesByCount, hperiods]
  apply readByPeriods_spec p
  · simp [secPerHour, secPerDay, secPerWeek, secPerMonth]
  · constructor
    · rw [List.filter_eq_nil_iff.mpr]
      intro r _
      simp
    · simp [newerCount]
  · exact le_rfl

end ValueCache
