import Mathlib.Logic.Function.Iterate
import Zabbix.Library.SqlCondition

/-!
# Conditions on lists of ids

`DBadd_condition_alloc` appends to a query the condition that a field has one of the given
values. Five or more consecutive values are compared with `BETWEEN`, the others are
collected in `IN` lists of at most 950 members each.
-/

namespace Db

open Ascii SqlCondition

/-- `MAX_EXPRESSIONS` -/
def maxExpressions : ℕ := 950

/-- `MIN_NUM_BETWEEN`, the least number of consecutive values for a `BETWEEN`. -/
def minNumBetween : ℕ := 5

/-! ### Sequences of consecutive values -/

/-- The variables of the loop that looks for consecutive values. -/
structure Sequences where
  value : UInt64
  len : ℕ
  seqLen : List ℕ
  betweenNum : ℕ
  inNum : ℕ
deriving DecidableEq

/-- Stores the length of a sequence. -/
def Sequences.close (s : Sequences) : Sequences :=
  if minNumBetween ≤ s.len then
    { s with seqLen := s.seqLen ++ [s.len], betweenNum := s.betweenNum + 1 }
  else { s with seqLen := s.seqLen ++ [s.len], inNum := s.inNum + s.len }

/-- A round of the loop over the values. -/
def Sequences.next (s : Sequences) (v : UInt64) : Sequences :=
  if v ≠ s.value + 1 then { s.close with len := 1, value := v }
  else { s with value := s.value + 1, len := s.len + 1 }

def sequences (first : UInt64) (rest : List UInt64) : Sequences :=
  (rest.foldl Sequences.next ⟨first, 1, [], 0, 0⟩).close

/-! ### Composing the text -/

def valueAt (values : List UInt64) (i : ℕ) : ℕ := (values.getD i 0).toNat

/-- The loop that composes the `BETWEEN`s. -/
def composeBetweens (fieldname : Bytes) (values : List UInt64) :
    List ℕ → (first : Bool) → (start : ℕ) → (sql : Bytes) → Bytes
  | [], _, _, sql => sql
  | len :: seqLen, first, start, sql =>
    if minNumBetween ≤ len then
      let sql := if first then sql else sql ++ bytes " or ".toList
      let sql := sql ++ fieldname ++ bytes " between ".toList ++ decimal (valueAt values start)
        ++ bytes " and ".toList ++ decimal (valueAt values (start + len - 1))
      composeBetweens fieldname values seqLen false (start + len) sql
    else composeBetweens fieldname values seqLen first (start + len) sql

/-- The variables of the loop that composes the `IN` lists. -/
structure InLists where
  inCnt : ℕ
  start : ℕ
  sql : Bytes

/-- Appends a member and a comma. A full list is closed before, in place of its last
comma. -/
def appendMember (fieldname : Bytes) (values : List UInt64) (s : InLists) : InLists :=
  let s := if maxExpressions = s.inCnt then
      { s with
        inCnt := 0
        sql := s.sql.dropLast ++ bytes ") or ".toList ++ fieldname ++ bytes " in (".toList }
    else s
  { inCnt := s.inCnt + 1
    start := s.start + 1
    sql := s.sql ++ decimal (valueAt values s.start) ++ [comma] }

/-- The loop that composes the `IN` lists. A sequence has at least one value, so that the
loop over its values runs as often as it is long. -/
def composeIns (fieldname : Bytes) (values : List UInt64) (inNum : ℕ) :
    List ℕ → InLists → InLists
  | [], s => s
  | len :: seqLen, s =>
    if len < minNumBetween then
      if inNum = 1 then
        { s with sql := s.sql ++ fieldname ++ [equalSign] ++ decimal (valueAt values s.start) }
      else composeIns fieldname values inNum seqLen ((appendMember fieldname values)^[len] s)
    else composeIns fieldname values inNum seqLen { s with start := s.start + len }

/-- Appends the conditions on the isolated values. The last comma is replaced by the
closing parenthesis. -/
def composeIsolated (fieldname : Bytes) (values : List UInt64) (inNum : ℕ) (seqLen : List ℕ)
    (sql : Bytes) : Bytes :=
  let sql := if 1 < inNum then sql ++ fieldname ++ bytes " in (".toList else sql
  let s := composeIns fieldname values inNum seqLen ⟨0, 0, sql⟩
  if 1 < inNum then s.sql.dropLast ++ [rightParen] else s.sql

/-- Whether the condition is put in parentheses. -/
def Sequences.parenthesised (s : Sequences) : Bool :=
  maxExpressions < s.inNum || 1 < s.betweenNum || (0 < s.inNum && 0 < s.betweenNum)

/-- `DBadd_condition_alloc` -/
def addCondition (sql fieldname : Bytes) (values : List UInt64) : Bytes :=
  match values with
  | [] => sql
  | first :: rest =>
    let s := sequences first rest
    let sql := sql ++ [space]
    let sql := if s.parenthesised then sql ++ [leftParen] else sql
    let sql := composeBetweens fieldname values s.seqLen true 0 sql
    let sql := if 0 < s.inNum ∧ 0 < s.betweenNum then sql ++ bytes " or ".toList else sql
    let sql := composeIsolated fieldname values s.inNum s.seqLen sql
    if s.parenthesised then sql ++ [rightParen] else sql

/-! ### The sequences are runs of consecutive values -/

/-- Consecutive values, at least one. -/
def IsRun (run : List UInt64) : Prop :=
  ∃ first len, 0 < len ∧ run.map (·.toNat) = List.range' first len

/-- The values of the runs that are too short for a `BETWEEN`. -/
def isolated (runs : List (List UInt64)) : List UInt64 :=
  (runs.filter (·.length < minNumBetween)).flatten

/-- The runs that are compared with `BETWEEN`. -/
def longRuns (runs : List (List UInt64)) : List (List UInt64) :=
  runs.filter (minNumBetween ≤ ·.length)

/-- The variables describe these runs. -/
structure Sequences.Describe (s : Sequences) (runs : List (List UInt64)) : Prop where
  isRun : ∀ run ∈ runs, IsRun run
  seqLen : s.seqLen = runs.map (·.length)
  betweenNum : s.betweenNum = (longRuns runs).length
  inNum : s.inNum = (isolated runs).length

/-- The values before a round are the closed runs and the one that is still open. -/
structure Sequences.Open (s : Sequences) (runs : List (List UInt64)) (run : List UInt64) :
    Prop where
  describe : s.Describe runs
  isRun : IsRun run
  len : s.len = run.length
  value : run.getLast? = some s.value

theorem Sequences.Open.close {s : Sequences} {runs : List (List UInt64)} {run : List UInt64}
    (h : s.Open runs run) :
  s.close.Describe (runs ++ [run])
  := by
  have hrun : ∀ run' ∈ runs ++ [run], IsRun run' := by
    intro run' hmem
    obtain hmem | hmem := List.mem_append.mp hmem
    · exact h.describe.isRun run' hmem
    · exact List.mem_singleton.mp hmem ▸ h.isRun
  obtain hshort | hlong := Nat.lt_or_ge s.len minNumBetween
  · rw [Sequences.close, if_neg (Nat.not_le.mpr hshort)]
    rw [h.len] at hshort
    refine ⟨hrun, ?_, ?_, ?_⟩
    · simp [h.describe.seqLen, h.len]
    · simp [h.describe.betweenNum, longRuns, hshort]
    · simp [h.describe.inNum, isolated, hshort, h.len]
  · rw [Sequences.close, if_pos hlong]
    rw [h.len] at hlong
    refine ⟨hrun, ?_, ?_, ?_⟩
    · simp [h.describe.seqLen, h.len]
    · simp [h.describe.betweenNum, longRuns, hlong]
    · simp [h.describe.inNum, isolated, hlong]

theorem IsRun.singleton (v : UInt64) :
  IsRun [v]
  := ⟨v.toNat, 1, Nat.one_pos, rfl⟩

/-- The next value prolongs a run. -/
theorem IsRun.concat {run : List UInt64} (h : IsRun run) {last v : UInt64}
    (hlast : run.getLast? = some last) (hv : v.toNat = last.toNat + 1) :
  IsRun (run ++ [v])
  := by
  obtain ⟨first, len, hpos, hmap⟩ := h
  have hlast' : (run.map (·.toNat)).getLast? = some last.toNat := by
    rw [List.getLast?_map, hlast]
    rfl
  rw [hmap, List.getLast?_range', if_neg (Nat.ne_of_gt hpos)] at hlast'
  have heq : first + len = v.toNat := by
    rw [hv, ← Option.some.inj hlast']
    omega
  refine ⟨first, len + 1, Nat.succ_pos len, ?_⟩
  rw [List.map_append, hmap, List.range'_concat, Nat.one_mul, heq]
  rfl

/-- A round of the loop goes on with the open run or starts another one. -/
theorem Sequences.Open.next {s : Sequences} {runs : List (List UInt64)} {run : List UInt64}
    (h : s.Open runs run) {v : UInt64} (hle : s.value ≤ v) :
  ∃ runs' run', (s.next v).Open runs' run' ∧ runs'.flatten ++ run' = runs.flatten ++ run ++ [v]
  := by
  by_cases hv : v = s.value + 1
  · have hnat : v.toNat = s.value.toNat + 1 := by
      have hle' := UInt64.le_iff_toNat_le.mp hle
      have hadd := congrArg UInt64.toNat hv
      rw [UInt64.toNat_add, UInt64.toNat_one] at hadd
      have hlt := s.value.toNat_lt
      omega
    refine ⟨runs, run ++ [v], ?_, by simp⟩
    rw [Sequences.next, if_neg (not_not.mpr hv)]
    exact {
      describe := ⟨h.describe.isRun, h.describe.seqLen, h.describe.betweenNum, h.describe.inNum⟩
      isRun := h.isRun.concat h.value hnat
      len := by simp [h.len]
      value := by simp [hv] }
  · refine ⟨runs ++ [run], [v], ?_, by simp⟩
    rw [Sequences.next, if_pos hv]
    have hclose := h.close
    exact {
      describe := ⟨hclose.isRun, hclose.seqLen, hclose.betweenNum, hclose.inNum⟩
      isRun := IsRun.singleton v
      len := rfl
      value := rfl }

theorem Sequences.Open.foldl {s : Sequences} {runs : List (List UInt64)} {run : List UInt64}
    (h : s.Open runs run) {rest : List UInt64} (hsorted : (s.value :: rest).Pairwise (· ≤ ·)) :
  ∃ runs' run', (rest.foldl Sequences.next s).Open runs' run' ∧
    runs'.flatten ++ run' = runs.flatten ++ run ++ rest
  := by
  induction rest generalizing s runs run with
  | nil => exact ⟨runs, run, h, by simp⟩
  | cons v rest ih =>
    obtain ⟨hle, hrest⟩ := List.pairwise_cons.mp hsorted
    obtain ⟨runs', run', hopen, hflatten⟩ := h.next (hle v List.mem_cons_self)
    have hvalue : (s.next v).value = v := by
      rw [Sequences.next]
      split
      · rfl
      · next hv => exact (not_not.mp hv).symm
    obtain ⟨runs'', run'', hopen', hflatten'⟩ := ih hopen (by rwa [hvalue])
    exact ⟨runs'', run'', hopen', by rw [hflatten', hflatten]; simp⟩

/-- The loop over non-decreasing values splits them into runs. -/
theorem sequences_describe {first : UInt64} {rest : List UInt64}
    (hsorted : (first :: rest).Pairwise (· ≤ ·)) :
  ∃ runs, (sequences first rest).Describe runs ∧ runs.flatten = first :: rest
  := by
  have hstart : Sequences.Open ⟨first, 1, [], 0, 0⟩ [] [first] :=
    ⟨⟨by simp, rfl, rfl, rfl⟩, IsRun.singleton first, rfl, rfl⟩
  obtain ⟨runs, run, hopen, hflatten⟩ := hstart.foldl hsorted
  exact ⟨runs ++ [run], hopen.close, by simpa using hflatten⟩

/-! ### The text is a disjunction of predicates -/

/-- The values of a run as they stand in the array. -/
theorem valueAt_middle (before : List UInt64) {run : List UInt64} (after : List UInt64)
    {i : ℕ} (h : i < run.length) :
  valueAt (before ++ (run ++ after)) (before.length + i) = valueAt run i
  := by
  rw [valueAt, valueAt, List.getD_eq_getElem?_getD, List.getD_eq_getElem?_getD,
    List.getElem?_append_right (Nat.le_add_right _ _), Nat.add_sub_cancel_left,
    List.getElem?_append_left h]

def firstOf (run : List UInt64) : ℕ := valueAt run 0

def lastOf (run : List UInt64) : ℕ := valueAt run (run.length - 1)

/-- The loop over the sequences appends a `BETWEEN` for each long run. -/
theorem composeBetweens_later (fieldname : Bytes) (before : List UInt64)
    (runs : List (List UInt64)) (sql : Bytes) :
  composeBetweens fieldname (before ++ runs.flatten) (runs.map (·.length)) false before.length sql
    = sql ++ (longRuns runs).flatMap fun run =>
        bytes " or ".toList ++ betweenText fieldname (firstOf run) (lastOf run)
  := by
  induction runs generalizing before sql with
  | nil => simp [composeBetweens, longRuns]
  | cons run runs ih =>
    have hnext := ih (before ++ run)
    rw [List.append_assoc, List.length_append] at hnext
    rw [List.flatten_cons, List.map_cons, composeBetweens]
    by_cases hlong : minNumBetween ≤ run.length
    · have hpos : 0 < run.length := Nat.lt_of_lt_of_le (by decide) hlong
      have hfirst := valueAt_middle before runs.flatten hpos
      have hlast := valueAt_middle before runs.flatten (Nat.sub_one_lt_of_lt hpos)
      rw [Nat.add_zero] at hfirst
      rw [← Nat.add_sub_assoc hpos] at hlast
      rw [if_pos hlong, hnext, hfirst, hlast]
      simp [longRuns, hlong, betweenText, firstOf, lastOf]
    · rw [if_neg hlong, hnext]
      simp [longRuns, hlong]

theorem composeBetweens_eq (fieldname : Bytes) (before : List UInt64)
    (runs : List (List UInt64)) (sql : Bytes) :
  composeBetweens fieldname (before ++ runs.flatten) (runs.map (·.length)) true before.length sql
    = sql ++ orTexts ((longRuns runs).map fun run =>
        betweenText fieldname (firstOf run) (lastOf run))
  := by
  induction runs generalizing before sql with
  | nil => simp [composeBetweens, longRuns, orTexts]
  | cons run runs ih =>
    rw [List.flatten_cons, List.map_cons, composeBetweens]
    by_cases hlong : minNumBetween ≤ run.length
    · have hpos : 0 < run.length := Nat.lt_of_lt_of_le (by decide) hlong
      have hfirst := valueAt_middle before runs.flatten hpos
      have hlast := valueAt_middle before runs.flatten (Nat.sub_one_lt_of_lt hpos)
      have hnext := composeBetweens_later fieldname (before ++ run) runs
      rw [Nat.add_zero] at hfirst
      rw [← Nat.add_sub_assoc hpos] at hlast
      rw [List.append_assoc, List.length_append] at hnext
      rw [if_pos hlong, hnext, hfirst, hlast]
      simp [longRuns, hlong, betweenText, firstOf, lastOf, orTexts, List.flatMap_map]
    · have hnext := ih (before ++ run) sql
      rw [List.append_assoc, List.length_append] at hnext
      rw [if_neg hlong, hnext]
      simp [longRuns, hlong]

/-- The closed lists and the members of the open one are written behind `base`. -/
structure InLists.Written (fieldname base : Bytes) (closed : List (List ℕ)) (members : List ℕ)
    (s : InLists) : Prop where
  full : ∀ list ∈ closed, list.length = maxExpressions
  cnt : s.inCnt = members.length
  le : members.length ≤ maxExpressions
  nonempty : closed ≠ [] → members ≠ []
  sql : s.sql = base ++ closed.flatMap (fun list =>
      membersText list ++ bytes ") or ".toList ++ fieldname ++ bytes " in (".toList)
    ++ members.flatMap fun n => decimal n ++ [comma]

theorem InLists.Written.appendMember {fieldname base : Bytes} (values : List UInt64)
    {closed : List (List ℕ)} {members : List ℕ} {s : InLists}
    (h : s.Written fieldname base closed members) :
  ∃ closed' members',
    (Db.appendMember fieldname values s).Written fieldname base closed' members' ∧
      closed'.flatten ++ members' = closed.flatten ++ members ++ [valueAt values s.start]
  := by
  by_cases hfull : maxExpressions = s.inCnt
  · have hlength : members.length = maxExpressions := by rw [← h.cnt, ← hfull]
    have hne : members ≠ [] := by
      rintro rfl
      exact absurd hlength (by decide)
    refine ⟨closed ++ [members], [valueAt values s.start], ?_, by simp⟩
    rw [Db.appendMember, if_pos hfull]
    refine ⟨?_, rfl, by simp [maxExpressions], by simp, ?_⟩
    · intro list hlist
      obtain hlist | hlist := List.mem_append.mp hlist
      · exact h.full list hlist
      · rw [List.mem_singleton.mp hlist, hlength]
    · simp only [h.sql, flatMap_comma hne, ← List.append_assoc, List.dropLast_concat]
      simp
  · refine ⟨closed, members ++ [valueAt values s.start], ?_, by simp⟩
    rw [Db.appendMember, if_neg hfull]
    refine ⟨h.full, by simp [h.cnt], ?_, by simp, by simp [h.sql]⟩
    have hlt := Nat.lt_of_le_of_ne h.le (h.cnt ▸ Ne.symm hfull)
    rw [List.length_append]
    exact hlt

theorem appendMember_start (fieldname : Bytes) (values : List UInt64) (s : InLists) :
  (appendMember fieldname values s).start = s.start + 1
  := by
  rw [appendMember]
  split <;> rfl

/-- The loop over the values of a sequence. -/
theorem InLists.Written.appendMembers {fieldname base : Bytes} (before run after : List UInt64)
    {closed : List (List ℕ)} {members : List ℕ} {s : InLists}
    (h : s.Written fieldname base closed members) (hstart : s.start = before.length) :
  ∃ closed' members',
    ((Db.appendMember fieldname (before ++ (run ++ after)))^[run.length] s).Written
        fieldname base closed' members' ∧
      closed'.flatten ++ members' = closed.flatten ++ members ++ run.map (·.toNat) ∧
      ((Db.appendMember fieldname (before ++ (run ++ after)))^[run.length] s).start
        = before.length + run.length
  := by
  induction run generalizing before closed members s with
  | nil => exact ⟨closed, members, h, by simp, hstart⟩
  | cons v run ih =>
    obtain ⟨closed₁, members₁, hwritten, hflatten⟩ :=
      h.appendMember (before ++ (v :: run ++ after))
    have hv : valueAt (before ++ (v :: run ++ after)) s.start = v.toNat := by
      simp [valueAt, hstart]
    obtain ⟨closed', members', hwritten', hflatten', hstart'⟩ :=
      ih (before ++ [v]) hwritten (by simp [appendMember_start, hstart])
    have hvalues : before ++ [v] ++ (run ++ after) = before ++ (v :: run ++ after) := by simp
    rw [hvalues] at hwritten' hstart'
    rw [List.length_cons, Function.iterate_succ_apply]
    refine ⟨closed', members', hwritten', ?_, ?_⟩
    · rw [hflatten', hflatten, hv]
      simp
    · rw [hstart']
      simp
      omega

/-- The loop over the sequences puts the isolated values into lists. -/
theorem InLists.Written.composeIns {fieldname base : Bytes} (before : List UInt64)
    (runs : List (List UInt64)) {inNum : ℕ} (hnum : inNum ≠ 1) {closed : List (List ℕ)}
    {members : List ℕ} {s : InLists} (h : s.Written fieldname base closed members)
    (hstart : s.start = before.length) :
  ∃ closed' members',
    (Db.composeIns fieldname (before ++ runs.flatten) inNum (runs.map (·.length)) s).Written
        fieldname base closed' members' ∧
      closed'.flatten ++ members' = closed.flatten ++ members ++ (isolated runs).map (·.toNat)
  := by
  induction runs generalizing before closed members s with
  | nil => exact ⟨closed, members, h, by simp [isolated]⟩
  | cons run runs ih =>
    have hvalues : before ++ (run :: runs).flatten = before ++ run ++ runs.flatten := by simp
    rw [List.map_cons, Db.composeIns]
    by_cases hshort : run.length < minNumBetween
    · obtain ⟨closed₁, members₁, hwritten, hflatten, hstart₁⟩ :=
        h.appendMembers before run runs.flatten hstart
      rw [← List.append_assoc] at hwritten hstart₁
      obtain ⟨closed', members', hwritten', hflatten'⟩ :=
        ih (before ++ run) hwritten (hstart₁.trans List.length_append.symm)
      rw [if_pos hshort, if_neg hnum, hvalues]
      refine ⟨closed', members', hwritten', ?_⟩
      rw [hflatten', hflatten]
      simp [isolated, hshort]
    · have hskip : ({ s with start := s.start + run.length } : InLists).Written fieldname base
          closed members := ⟨h.full, h.cnt, h.le, h.nonempty, h.sql⟩
      obtain ⟨closed', members', hwritten', hflatten'⟩ :=
        ih (before ++ run) hskip (by simp [hstart])
      rw [if_neg hshort, hvalues]
      refine ⟨closed', members', hwritten', ?_⟩
      rw [hflatten']
      simp [isolated, hshort]

/-- A single isolated value is compared with `=`. -/
theorem composeIns_single (fieldname : Bytes) (before : List UInt64)
    {runs : List (List UInt64)} (hne : ∀ run ∈ runs, run ≠ []) {v : UInt64}
    (hv : isolated runs = [v]) {s : InLists} (hstart : s.start = before.length) :
  (composeIns fieldname (before ++ runs.flatten) 1 (runs.map (·.length)) s).sql
    = s.sql ++ eqText fieldname v.toNat
  := by
  induction runs generalizing before s with
  | nil => simp [isolated] at hv
  | cons run runs ih =>
    rw [List.map_cons, composeIns]
    by_cases hshort : run.length < minNumBetween
    · obtain ⟨v', run, rfl⟩ := List.exists_cons_of_ne_nil (hne run List.mem_cons_self)
      rw [isolated, List.filter_cons_of_pos (by simpa using hshort)] at hv
      obtain ⟨rfl, -⟩ := List.cons.inj hv
      rw [if_pos hshort, if_pos rfl]
      simp [valueAt, hstart, eqText]
    · have hvalues : before ++ (run :: runs).flatten = before ++ run ++ runs.flatten := by simp
      have hv' : isolated runs = [v] := by simpa [isolated, hshort] using hv
      rw [if_neg hshort, hvalues]
      exact ih (before ++ run) (fun run' h => hne run' (List.mem_cons_of_mem _ h)) hv'
        (by simp [hstart])

theorem composeIns_none (fieldname : Bytes) (values : List UInt64) {inNum : ℕ}
    {runs : List (List UInt64)} (hne : ∀ run ∈ runs, run ≠ []) (hnone : isolated runs = [])
    (s : InLists) :
  (composeIns fieldname values inNum (runs.map (·.length)) s).sql = s.sql
  := by
  induction runs generalizing s with
  | nil => rfl
  | cons run runs ih =>
    rw [List.map_cons, composeIns]
    have hlong : ¬ run.length < minNumBetween := by
      intro hshort
      have hrun := hne run List.mem_cons_self
      simp [isolated, hshort, hrun] at hnone
    rw [if_neg hlong]
    exact ih (fun run' h => hne run' (List.mem_cons_of_mem _ h))
      (by simpa [isolated, hlong] using hnone) _

/-- Closed lists and the last one are predicates with `or` between them. -/
theorem orTexts_inText (fieldname : Bytes) (closed : List (List ℕ)) (members : List ℕ) :
  fieldname ++ bytes " in (".toList ++ closed.flatMap (fun list =>
      membersText list ++ bytes ") or ".toList ++ fieldname ++ bytes " in (".toList)
    ++ membersText members ++ [rightParen]
    = orTexts ((closed ++ [members]).map (inText fieldname))
  := by
  have hclose : bytes ") or ".toList = rightParen :: bytes " or ".toList := by decide
  induction closed with
  | nil => simp [orTexts, inText]
  | cons list closed ih =>
    rw [List.cons_append, List.map_cons, orTexts_cons _ (by simp), ← ih, hclose]
    simp [inText]

/-! ### What the condition says -/

/-- Predicates, as texts and as conditions, of which one is true exactly for the ids. -/
structure Selects (fieldname : Bytes) (predicates : List (Bytes × Condition))
    (ids : List UInt64) : Prop where
  primary : ∀ p ∈ predicates, IsPrimaryText p.1 p.2
  holds : ∀ row : Bytes → ℤ, (∃ p ∈ predicates, p.2.Holds row) ↔
    ∃ id ∈ ids, row fieldname = (id.toNat : ℤ)
  members : ∀ p ∈ predicates, ∀ list ∈ p.2.inLists, list.length ≤ maxExpressions

theorem Selects.append {fieldname : Bytes} {predicates predicates' : List (Bytes × Condition)}
    {ids ids' : List UInt64} (h : Selects fieldname predicates ids)
    (h' : Selects fieldname predicates' ids') :
  Selects fieldname (predicates ++ predicates') (ids ++ ids')
  := by
  refine ⟨?_, fun row => ?_, ?_⟩
  · exact List.forall_mem_append.mpr ⟨h.primary, h'.primary⟩
  · simp only [List.mem_append, or_and_right, exists_or, h.holds row, h'.holds row]
  · exact List.forall_mem_append.mpr ⟨h.members, h'.members⟩

def betweenPredicate (fieldname : Bytes) (run : List UInt64) : Bytes × Condition :=
  (betweenText fieldname (firstOf run) (lastOf run),
    .between fieldname (firstOf run) (lastOf run))

/-- A run holds the numbers between its ends. -/
theorem IsRun.mem_iff {run : List UInt64} (h : IsRun run) (x : ℤ) :
  ((firstOf run : ℤ) ≤ x ∧ x ≤ (lastOf run : ℤ)) ↔ ∃ id ∈ run, x = (id.toNat : ℤ)
  := by
  obtain ⟨first, len, hpos, hmap⟩ := h
  have hlength : run.length = len := by simpa using congrArg List.length hmap
  have hvalue : ∀ i < len, valueAt run i = first + i := by
    intro i hi
    have hget := congrArg (·[i]?) hmap
    simp only [List.getElem?_map, List.getElem?_range' hi] at hget
    obtain ⟨v, hv, hnat⟩ := Option.map_eq_some_iff.mp hget
    rw [valueAt, List.getD_eq_getElem?_getD, hv, Option.getD_some, hnat, Nat.one_mul]
  have hmem : (∃ id ∈ run, x = (id.toNat : ℤ)) ↔ ∃ n ∈ List.range' first len, x = (n : ℤ) := by
    rw [← hmap]
    simp
  rw [hmem, firstOf, lastOf, hlength, hvalue 0 hpos, hvalue _ (Nat.sub_one_lt_of_lt hpos)]
  constructor
  · rintro ⟨hle, hle'⟩
    refine ⟨x.toNat, List.mem_range'_1.mpr ?_, ?_⟩ <;> omega
  · rintro ⟨n, hn, rfl⟩
    have := List.mem_range'_1.mp hn
    omega

theorem selects_betweens {fieldname : Bytes} (hcolumn : isColumn fieldname)
    {runs : List (List UInt64)} (hruns : ∀ run ∈ runs, IsRun run) :
  Selects fieldname (runs.map (betweenPredicate fieldname)) runs.flatten
  := by
  refine ⟨?_, fun row => ?_, ?_⟩
  · intro p hp
    obtain ⟨run, -, rfl⟩ := List.mem_map.mp hp
    exact isPrimaryText_between hcolumn _ _
  · simp only [List.mem_map, exists_exists_and_eq_and, betweenPredicate, Condition.Holds]
    constructor
    · rintro ⟨run, hrun, hbetween⟩
      obtain ⟨id, hid, hx⟩ := ((hruns run hrun).mem_iff _).mp hbetween
      exact ⟨id, List.mem_flatten.mpr ⟨run, hrun, hid⟩, hx⟩
    · rintro ⟨id, hid, hx⟩
      obtain ⟨run, hrun, hid⟩ := List.mem_flatten.mp hid
      exact ⟨run, hrun, ((hruns run hrun).mem_iff _).mpr ⟨id, hid, hx⟩⟩
  · intro p hp list hlist
    obtain ⟨run, -, rfl⟩ := List.mem_map.mp hp
    simp [betweenPredicate, Condition.inLists] at hlist

theorem selects_eq {fieldname : Bytes} (hcolumn : isColumn fieldname) (v : UInt64) :
  Selects fieldname [(eqText fieldname v.toNat, .eq fieldname v.toNat)] [v]
  := by
  refine ⟨?_, fun row => ?_, ?_⟩
  · intro p hp
    obtain rfl := List.mem_singleton.mp hp
    exact isPrimaryText_eq hcolumn _
  · simp [Condition.Holds]
  · intro p hp list hlist
    obtain rfl := List.mem_singleton.mp hp
    simp [Condition.inLists] at hlist

theorem selects_lists {fieldname : Bytes} (hcolumn : isColumn fieldname)
    {lists : List (List ℕ)} (hne : ∀ list ∈ lists, list ≠ [])
    (hle : ∀ list ∈ lists, list.length ≤ maxExpressions) {ids : List UInt64}
    (hids : lists.flatten = ids.map (·.toNat)) :
  Selects fieldname (lists.map fun list => (inText fieldname list, .inList fieldname list)) ids
  := by
  refine ⟨?_, fun row => ?_, ?_⟩
  · intro p hp
    obtain ⟨list, hlist, rfl⟩ := List.mem_map.mp hp
    exact isPrimaryText_in hcolumn (hne list hlist)
  · have hmem : (∃ id ∈ ids, row fieldname = (id.toNat : ℤ)) ↔
        ∃ n ∈ lists.flatten, row fieldname = (n : ℤ) := by
      rw [hids]
      simp
    rw [hmem]
    simp only [List.mem_map, exists_exists_and_eq_and, Condition.Holds, List.mem_flatten]
    constructor
    · rintro ⟨list, hlist, n, hn, hx⟩
      exact ⟨n, ⟨list, hlist, hn⟩, hx⟩
    · rintro ⟨n, ⟨list, hlist, hn⟩, hx⟩
      exact ⟨list, hlist, n, hn, hx⟩
  · intro p hp list hlist
    obtain ⟨list', hlist', rfl⟩ := List.mem_map.mp hp
    obtain rfl := List.mem_singleton.mp hlist
    exact hle list hlist'

theorem InLists.Written.members_ne_nil {fieldname base : Bytes} {closed : List (List ℕ)}
    {members : List ℕ} {s : InLists} (h : s.Written fieldname base closed members)
    (hne : closed.flatten ++ members ≠ []) :
  members ≠ []
  := by
  rintro rfl
  obtain rfl : closed = [] := by
    by_contra hclosed
    exact h.nonempty hclosed rfl
  exact hne rfl

/-- Lists are closed only when more members follow than fit in one. -/
theorem InLists.Written.closed_eq_nil {fieldname base : Bytes} {closed : List (List ℕ)}
    {members : List ℕ} {s : InLists} (h : s.Written fieldname base closed members)
    (hle : (closed.flatten ++ members).length ≤ maxExpressions) :
  closed = []
  := by
  cases closed with
  | nil => rfl
  | cons list closed =>
    have hlist := h.full list List.mem_cons_self
    have hpos := List.length_pos_of_ne_nil (h.nonempty (List.cons_ne_nil _ _))
    rw [List.flatten_cons, List.length_append, List.length_append] at hle
    omega

/-- The isolated values, as one predicate unless they are too many for a list. -/
theorem exists_isolatedPredicates {fieldname : Bytes} (hcolumn : isColumn fieldname)
    {runs : List (List UInt64)} (hne : ∀ run ∈ runs, run ≠ []) (sql : Bytes) :
  ∃ predicates : List (Bytes × Condition),
    Selects fieldname predicates (isolated runs) ∧
      (predicates = [] ↔ isolated runs = []) ∧
      ((isolated runs).length ≤ maxExpressions → predicates.length ≤ 1) ∧
      composeIsolated fieldname runs.flatten (isolated runs).length (runs.map (·.length)) sql
        = sql ++ orTexts (predicates.map (·.1))
  := by
  match hids : isolated runs with
  | [] =>
    refine ⟨[], ⟨by simp, by simp, by simp⟩, by simp, by simp, ?_⟩
    rw [composeIsolated, List.length_nil, if_neg (by decide), if_neg (by decide)]
    simp [composeIns_none fieldname _ hne hids, orTexts]
  | [v] =>
    refine ⟨_, selects_eq hcolumn v, by simp, by simp, ?_⟩
    have hsingle := composeIns_single fieldname [] hne hids (s := ⟨0, 0, sql⟩) rfl
    rw [composeIsolated, List.length_singleton, if_neg (by decide), if_neg (by decide)]
    simpa [orTexts] using hsingle
  | v :: v' :: ids =>
    have hmany : 1 < (v :: v' :: ids).length := by simp
    have hstart : InLists.Written fieldname (sql ++ fieldname ++ bytes " in (".toList) [] []
        ⟨0, 0, sql ++ fieldname ++ bytes " in (".toList⟩ :=
      ⟨by simp, rfl, by simp, by simp, by simp⟩
    obtain ⟨closed, members, hwritten, hflatten⟩ :=
      hstart.composeIns [] runs (Nat.ne_of_gt hmany) rfl
    rw [hids] at hflatten
    have hmembers : members ≠ [] := hwritten.members_ne_nil (by simp [hflatten])
    have hlists : (closed ++ [members]).flatten = (v :: v' :: ids).map (·.toNat) := by
      simpa using hflatten
    refine ⟨(closed ++ [members]).map fun list => (inText fieldname list,
      .inList fieldname list), selects_lists hcolumn ?_ ?_ hlists, by simp, ?_, ?_⟩
    · intro list hlist
      obtain hlist | hlist := List.mem_append.mp hlist
      · have hfull := hwritten.full list hlist
        rintro rfl
        exact absurd hfull (by decide)
      · exact List.mem_singleton.mp hlist ▸ hmembers
    · intro list hlist
      obtain hlist | hlist := List.mem_append.mp hlist
      · exact Nat.le_of_eq (hwritten.full list hlist)
      · exact List.mem_singleton.mp hlist ▸ hwritten.le
    · intro hle
      have hclosed := hwritten.closed_eq_nil (by simpa [hflatten] using hle)
      simp [hclosed]
    · rw [composeIsolated, if_pos hmany, if_pos hmany]
      have hsql := hwritten.sql
      rw [List.nil_append] at hsql
      rw [hsql, flatMap_comma hmembers, ← List.append_assoc, List.dropLast_concat,
        List.map_map]
      have htexts := orTexts_inText fieldname closed members
      simp only [List.append_assoc] at htexts ⊢
      rw [htexts]
      rfl

/-- The long runs and the isolated values are all values. -/
theorem mem_longRuns_isolated (runs : List (List UInt64)) (id : UInt64) :
  id ∈ (longRuns runs).flatten ++ isolated runs ↔ id ∈ runs.flatten
  := by
  simp only [List.mem_append, longRuns, isolated, List.mem_flatten, List.mem_filter,
    decide_eq_true_eq]
  constructor
  · rintro (⟨run, ⟨hrun, -⟩, hid⟩ | ⟨run, ⟨hrun, -⟩, hid⟩) <;> exact ⟨run, hrun, hid⟩
  · rintro ⟨run, hrun, hid⟩
    obtain hshort | hlong := Nat.lt_or_ge run.length minNumBetween
    · exact Or.inr ⟨run, ⟨hrun, hshort⟩, hid⟩
    · exact Or.inl ⟨run, ⟨hrun, hlong⟩, hid⟩

theorem orTexts_parts {texts texts' : List Bytes} {n m : ℕ} (hn : n = 0 ↔ texts = [])
    (hm : m = 0 ↔ texts' = []) :
  orTexts texts ++ (if 0 < m ∧ 0 < n then bytes " or ".toList else []) ++ orTexts texts'
    = orTexts (texts ++ texts')
  := by
  by_cases htexts : texts = []
  · have hzero := hn.mpr htexts
    simp [htexts, hzero, orTexts]
  · by_cases htexts' : texts' = []
    · have hzero := hm.mpr htexts'
      simp [htexts', hzero, orTexts]
    · have hpos : 0 < m ∧ 0 < n :=
        ⟨Nat.pos_of_ne_zero (mt hm.mp htexts'), Nat.pos_of_ne_zero (mt hn.mp htexts)⟩
      rw [if_pos hpos, orTexts_append htexts htexts']

/-- What is appended, with the optional parts apart. -/
theorem addCondition_cons (sql fieldname : Bytes) (first : UInt64) (rest : List UInt64)
    {s : Sequences} (hs : sequences first rest = s) :
  addCondition sql fieldname (first :: rest)
    = composeIsolated fieldname (first :: rest) s.inNum s.seqLen
        (composeBetweens fieldname (first :: rest) s.seqLen true 0
            (sql ++ space :: if s.parenthesised then [leftParen] else [])
          ++ if 0 < s.inNum ∧ 0 < s.betweenNum then bytes " or ".toList else [])
      ++ if s.parenthesised then [rightParen] else []
  := by
  rw [addCondition, hs]
  split_ifs <;> simp

theorem IsRun.ne_nil {run : List UInt64} (h : IsRun run) :
  run ≠ []
  := by
  rintro rfl
  obtain ⟨first, len, hpos, hmap⟩ := h
  have hlength := congrArg List.length hmap
  rw [List.map_nil, List.length_nil, List.length_range'] at hlength
  exact Nat.ne_of_gt hpos hlength.symm

/-- The appended text is a disjunction of predicates, in parentheses unless there is only
one. -/
theorem exists_predicates {fieldname : Bytes} (hcolumn : isColumn fieldname)
    {values : List UInt64} (hne : values ≠ []) (hsorted : values.Pairwise (· ≤ ·))
    (sql : Bytes) :
  ∃ predicates, predicates ≠ [] ∧ Selects fieldname predicates values ∧
    (addCondition sql fieldname values
        = sql ++ space :: leftParen :: (orTexts (predicates.map (·.1)) ++ [rightParen]) ∨
      predicates.length = 1 ∧
        addCondition sql fieldname values = sql ++ space :: orTexts (predicates.map (·.1)))
  := by
  obtain ⟨first, rest, rfl⟩ := List.exists_cons_of_ne_nil hne
  obtain ⟨runs, hdescribe, hflatten⟩ := sequences_describe hsorted
  obtain ⟨s, hs⟩ : ∃ s, sequences first rest = s := ⟨_, rfl⟩
  rw [hs] at hdescribe
  have hruns : ∀ run ∈ longRuns runs, IsRun run :=
    fun run hrun => hdescribe.isRun run (List.mem_of_mem_filter hrun)
  have hbetweens := selects_betweens hcolumn hruns
  have htexts := composeBetweens_eq fieldname [] runs
    (sql ++ space :: if s.parenthesised then [leftParen] else [])
  obtain ⟨ins, hins, hnil, hone, hisolated⟩ := exists_isolatedPredicates hcolumn
    (fun run hrun => (hdescribe.isRun run hrun).ne_nil)
    ((sql ++ space :: if s.parenthesised then [leftParen] else [])
      ++ (orTexts (((longRuns runs).map (betweenPredicate fieldname)).map (·.1))
        ++ if 0 < s.inNum ∧ 0 < s.betweenNum then bytes " or ".toList else []))
  rw [hflatten, ← hdescribe.seqLen, ← hdescribe.inNum] at hisolated
  rw [List.nil_append, hflatten, ← hdescribe.seqLen, List.length_nil] at htexts
  have hnoBetween : s.betweenNum = 0 ↔
      ((longRuns runs).map (betweenPredicate fieldname)).map (·.1) = [] := by
    simp [hdescribe.betweenNum]
  have hnoIn : s.inNum = 0 ↔ ins.map (·.1) = [] := by simp [hdescribe.inNum, hnil]
  have hsplit := orTexts_parts hnoBetween hnoIn
  have hbetweenTexts : ((longRuns runs).map (betweenPredicate fieldname)).map (·.1)
      = (longRuns runs).map fun run => betweenText fieldname (firstOf run) (lastOf run) := by
    rw [List.map_map]
    rfl
  rw [← hbetweenTexts] at htexts
  have hadd := addCondition_cons sql fieldname first rest hs
  rw [htexts, List.append_assoc (sql ++ _), hisolated, List.append_assoc (sql ++ _), hsplit,
    ← List.map_append] at hadd
  have hselects : Selects fieldname ((longRuns runs).map (betweenPredicate fieldname) ++ ins)
      (first :: rest) := by
    obtain ⟨hprimary, hholds, hmembers⟩ := hbetweens.append hins
    refine ⟨hprimary, fun row => ?_, hmembers⟩
    rw [hholds row]
    simp only [mem_longRuns_isolated, hflatten]
  have hpredicates : (longRuns runs).map (betweenPredicate fieldname) ++ ins ≠ [] := by
    intro hempty
    have hfalse := (hselects.holds fun _ => (first.toNat : ℤ)).mpr
      ⟨first, List.mem_cons_self, rfl⟩
    simp [hempty] at hfalse
  refine ⟨_, hpredicates, hselects, ?_⟩
  by_cases hparen : s.parenthesised
  · left
    rw [hadd]
    simp [hparen]
  · right
    constructor
    · have hpos := List.length_pos_of_ne_nil hpredicates
      simp only [Sequences.parenthesised, Bool.or_eq_true, Bool.and_eq_true,
        decide_eq_true_eq, not_or, hdescribe.betweenNum, hdescribe.inNum] at hparen
      have hlength := hone (Nat.le_of_not_lt hparen.1.1)
      have hzero := List.length_eq_zero_iff.trans (hnil.trans List.length_eq_zero_iff.symm)
      rw [List.length_append, List.length_map] at hpos ⊢
      omega
    · rw [hadd]
      simp [hparen]

/-- The appended condition selects exactly the rows with one of the values. It is read as
one operand wherever it stands, alone, negated or as either side of a conjunction. -/
theorem addCondition_selects {fieldname : Bytes} (hcolumn : isColumn fieldname)
    {values : List UInt64} (hne : values ≠ []) (hsorted : values.Pairwise (· ≤ ·))
    (sql : Bytes) :
  ∃ text condition, addCondition sql fieldname values = sql ++ text ∧
    IsPrimaryText text condition ∧
    parse text = some condition ∧
    parse (keyNot ++ text) = some (.not condition) ∧
    (∀ other condition', IsPrimaryText other condition' →
      parse (other ++ bytes " and".toList ++ text) = some (.and condition' condition) ∧
        parse (text ++ bytes " and ".toList ++ other) = some (.and condition condition')) ∧
    (∀ row : Bytes → ℤ, condition.Holds row ↔ ∃ id ∈ values, row fieldname = (id.toNat : ℤ)) ∧
    ∀ list ∈ condition.inLists, list.length ≤ 950
  := by
  obtain ⟨predicates, hpredicates, hselects, htext⟩ :=
    exists_predicates hcolumn hne hsorted sql
  have hoperand : ∃ text condition, addCondition sql fieldname values = sql ++ space :: text ∧
      IsPrimaryText text condition ∧ condition = .disjunction (predicates.map (·.2)) := by
    obtain hparen | ⟨hone, hbare⟩ := htext
    · exact ⟨_, _, hparen, isPrimaryText_disjunction hpredicates hselects.primary, rfl⟩
    · obtain ⟨p, rfl⟩ := List.length_eq_one_iff.mp hone
      refine ⟨_, _, hbare, ?_, rfl⟩
      simpa [orTexts, Condition.disjunction] using hselects.primary p List.mem_cons_self
  obtain ⟨text, condition, hadd, hprimary, hcondition⟩ := hoperand
  have hdelimited : ∀ text, Delimited (space :: text) := fun _ => delimited_cons.mpr (by decide)
  refine ⟨space :: text, condition, hadd, hprimary.space, parse_primary hprimary.space,
    parse_primary (hprimary.space.not (hdelimited text)), ?_, ?_, ?_⟩
  · intro other condition' hother
    refine ⟨parse_and hother hprimary.space (hdelimited text), ?_⟩
    have hand := parse_and hprimary.space hother.space (hdelimited other)
    have hand' : bytes " and ".toList = bytes " and".toList ++ [space] := by decide
    rwa [hand', ← List.append_assoc, List.append_assoc _ [space], List.singleton_append]
  · intro row
    rw [hcondition, holds_disjunction, ← hselects.holds row]
    simp only [List.mem_map, exists_exists_and_eq_and]
  · intro list hlist
    rw [hcondition, inLists_disjunction (by simpa using hpredicates), List.flatMap_map] at hlist
    obtain ⟨p', hp', hlist⟩ := List.mem_flatMap.mp hlist
    exact hselects.members p' hp' list hlist

/-- Ids with a run of five and two others. -/
theorem addCondition_selects_mixed :
  ∃ text condition, addCondition [] (bytes "itemid".toList) [3, 3, 5, 6, 7, 8, 9] = text ∧
    parse text = some condition ∧
    ∀ row : Bytes → ℤ, condition.Holds row ↔
      ∃ id ∈ ([3, 3, 5, 6, 7, 8, 9] : List UInt64),
        row (bytes "itemid".toList) = (id.toNat : ℤ)
  := by
  have hcolumn : isColumn (bytes "itemid".toList) := by decide
  have hne : ([3, 3, 5, 6, 7, 8, 9] : List UInt64) ≠ [] := by decide
  have hsorted : ([3, 3, 5, 6, 7, 8, 9] : List UInt64).Pairwise (· ≤ ·) := by decide
  obtain ⟨text, condition, hadd, -, hparse, -, -, hholds, -⟩ :=
    addCondition_selects hcolumn hne hsorted []
  exact ⟨text, condition, hadd, hparse, hholds⟩

end Db
