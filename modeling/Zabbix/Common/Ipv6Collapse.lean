import Mathlib.Data.List.Chain
import Zabbix.Common.Ipv6Expand

/-!
# Collapsing an address and expanding it again

`collapse_ipv6` looks for the longest run of zero groups, and prints `::` for it. The address
expands to its groups again unless the run is a single group at one of the ends.
-/

namespace Ipv6

open Ascii

/-! ### Reading the groups -/

theorem groups_lt {t : Bytes} (h : GroupText t) :
  Digits.value 16 t < 16 ^ 4
  := by
  have hlt := Digits.value_lt fun c hc => Digits.digit_lt_sixteen (h.digits c hc)
  exact Nat.lt_of_lt_of_le hlt (Nat.pow_le_pow_right (by decide) h.short)

/-- A hexadecimal digit is no space and no sign, and no `x`. -/
theorem digit_spec (c : UInt8) (h : isHexDigit c = true) :
  Scanf.isSpace c = false ∧ c ≠ minus ∧ c ≠ plus ∧ c ≠ 'x'.toUInt8 ∧ c ≠ 'X'.toUInt8
  := by
  revert h
  revert c
  exact forall_byte (by decide +kernel)

/-- `%x` reads a group up to the colon behind it, or to the end of the text. -/
theorem scanHex_group {t : Bytes} (h : GroupText t) {rest : Bytes}
    (hrest : ∀ c ∈ rest.head?, c = colon) :
  Scanf.hex (t ++ rest) = some ((Digits.value 16 t : ℤ), rest)
  := by
  obtain ⟨c, t', rfl⟩ := List.exists_cons_of_ne_nil h.nonempty
  obtain ⟨hspace, hminus, hplus, -⟩ := digit_spec c (h.digits c List.mem_cons_self)
  have hstop : ∀ d ∈ rest.head?, isHexDigit d = false := fun d hd => by rw [hrest d hd]; rfl
  have hnumber := Scanf.number_append h.nonempty h.digits hstop 16 false
  have hmark : Scanf.skipHexMark (c :: t' ++ rest) = c :: t' ++ rest := by
    have hsecond : ∀ d ∈ (t' ++ rest).head?, ¬ (d = 'x'.toUInt8 ∨ d = 'X'.toUInt8) := by
      intro d hd
      cases t' with
      | nil =>
        rw [hrest d hd]
        decide
      | cons d' t' =>
        rw [List.cons_append, List.head?_cons, Option.mem_some_iff] at hd
        obtain ⟨-, -, -, hx, hX⟩ := digit_spec d' (h.digits d' (by simp))
        rw [← hd]
        exact not_or.mpr ⟨hx, hX⟩
    cases htail : t' ++ rest with
    | nil => rw [List.cons_append, htail, Scanf.skipHexMark]; simp
    | cons d text =>
      rw [htail] at hsecond
      rw [List.cons_append, htail, Scanf.skipHexMark, if_neg]
      exact fun hboth => hsecond d rfl hboth.2
  rw [Scanf.hex, List.cons_append, List.dropWhile_cons_of_neg (by simp [hspace])]
  simp only [Scanf.sign, if_neg hminus, if_neg hplus]
  rw [← List.cons_append, hmark, hnumber]
  rfl

theorem scan_join {ts : List Bytes} (hne : ts ≠ []) (h : ∀ t ∈ ts, GroupText t) :
  Scanf.separated Scanf.hex colon ts.length (join ts)
    = ts.map fun t => (Digits.value 16 t : ℤ)
  := by
  induction ts with
  | nil => exact absurd rfl hne
  | cons t ts ih =>
    rw [List.forall_mem_cons] at h
    cases ts with
    | nil =>
      have hscan : Scanf.hex t = some ((Digits.value 16 t : ℤ), []) := by
        rw [← List.append_nil t, scanHex_group h.1 (by simp), List.append_nil]
      rw [join_singleton, List.length_singleton, Scanf.separated, hscan]
      rfl
    | cons t' ts =>
      have hscan : Scanf.hex (t ++ colon :: join (t' :: ts))
          = some ((Digits.value 16 t : ℤ), colon :: join (t' :: ts)) :=
        scanHex_group h.1 (by simp)
      rw [join_cons t (List.cons_ne_nil t' ts), List.length_cons, Scanf.separated,
        hscan]
      simp only [if_true, List.map_cons]
      rw [ih (List.cons_ne_nil t' ts) h.2, List.map_cons]

/-! ### The longest run of zeros -/

/-- No two groups next to each other are zero. -/
def NoDoubleZero (j : List ℕ) : Prop := j.IsChain fun a b => ¬ (a = 0 ∧ b = 0)

/-- What the first loop knows of the groups behind which a run has ended: where the first of the
longest runs of zeros is. -/
inductive Found : (j : List ℕ) → (m : ℕ) → (idx : Option ℕ) → Prop
  | none {j : List ℕ} (hzero : 0 ∉ j) : Found j 0 .none
  | run {front back : List ℕ} {m : ℕ} (hm : 0 < m) (hback : back.head? ≠ some 0)
    (hsingle : m = 1 → NoDoubleZero (front ++ [0] ++ back) ∧ 0 ∉ front) :
    Found (front ++ List.replicate m 0 ++ back) m (some front.length)

theorem noDoubleZero_append {j j' : List ℕ} (h : NoDoubleZero j) (h' : NoDoubleZero j')
    (hmiddle : j.getLast? ≠ some 0 ∨ j'.head? ≠ some 0) :
  NoDoubleZero (j ++ j')
  := by
  refine List.isChain_append.mpr ⟨h, h', ?_⟩
  rintro x hx y hy ⟨rfl, rfl⟩
  obtain hlast | hhead := hmiddle
  · exact hlast hx
  · exact hhead hy

theorem noDoubleZero_of_not_mem {j : List ℕ} (h : 0 ∉ j) :
  NoDoubleZero j
  := by
  induction j with
  | nil => exact List.isChain_nil
  | cons group j ih =>
    rw [List.mem_cons, not_or] at h
    rw [← List.singleton_append]
    refine noDoubleZero_append (List.isChain_singleton group) (ih h.2) (Or.inl ?_)
    simpa using Ne.symm h.1

/-- A group that is not zero. -/
theorem Found.concat {j : List ℕ} {m : ℕ} {idx : Option ℕ} (h : Found j m idx) {group : ℕ}
    (hgroup : group ≠ 0) :
  Found (j ++ [group]) m idx
  := by
  cases h with
  | none hzero =>
    refine .none ?_
    rw [List.mem_append, List.mem_singleton, not_or]
    exact ⟨hzero, hgroup.symm⟩
  | @run front back m hm hback hsingle =>
    rw [List.append_assoc]
    refine .run hm ?_ ?_
    · cases back with
      | nil => simpa using hgroup
      | cons b back => exact hback
    · intro hone
      obtain ⟨hdouble, hfront⟩ := hsingle hone
      refine ⟨?_, hfront⟩
      rw [← List.append_assoc]
      exact noDoubleZero_append hdouble (List.isChain_singleton group)
        (Or.inr (by simpa using hgroup))

/-- A run of `c` zeros that has ended. -/
theorem Found.close {j : List ℕ} {m c : ℕ} {idx : Option ℕ} (h : Found j m idx)
    (hlast : j.getLast? ≠ some 0) :
  if c ≠ 0 ∧ c > m then Found (j ++ List.replicate c 0) c (some j.length)
  else Found (j ++ List.replicate c 0) m idx
  := by
  split_ifs with hlonger
  · have hrun : Found (j ++ List.replicate c 0 ++ []) c (some j.length) := by
      refine .run (Nat.pos_of_ne_zero hlonger.1) (by simp) ?_
      rintro rfl
      cases h with
      | none hzero =>
        refine ⟨?_, hzero⟩
        rw [List.append_nil]
        exact noDoubleZero_append (noDoubleZero_of_not_mem hzero) (List.isChain_singleton 0)
          (Or.inl hlast)
      | run hm => omega
    rwa [List.append_nil] at hrun
  · cases h with
    | none hzero =>
      have hc : c = 0 := by omega
      rw [hc, List.replicate_zero, List.append_nil]
      exact .none hzero
    | @run front back m hm hback hsingle =>
      have hne : back ≠ [] := by
        rintro rfl
        refine hlast ?_
        obtain ⟨k, rfl⟩ := Nat.exists_eq_add_one_of_ne_zero hm.ne'
        rw [List.append_nil, List.replicate_succ', ← List.append_assoc, List.getLast?_concat]
      rw [List.append_assoc]
      refine .run hm ?_ ?_
      · rwa [List.head?_append_of_ne_nil _ hne]
      · rintro rfl
        obtain ⟨hdouble, hfront⟩ := hsingle rfl
        refine ⟨?_, hfront⟩
        rw [← List.append_assoc]
        have hc : c = 0 ∨ c = 1 := by omega
        obtain rfl | rfl := hc
        · rwa [List.replicate_zero, List.append_nil]
        · rw [List.getLast?_append_of_ne_nil _ hne] at hlast
          refine noDoubleZero_append hdouble (List.isChain_singleton 0) (Or.inl ?_)
          rwa [List.getLast?_append_of_ne_nil _ hne]

/-- The variables of the first loop behind groups, the last `c` of which are the run of zeros
that is read. -/
structure Reading (j : List ℕ) (run : ZeroRun) : Prop where
  found : Found j run.m run.idx
  last : j.getLast? ≠ some 0
  start : run.idx2 = if run.c = 0 then none else some j.length

theorem Reading.close {j : List ℕ} {run : ZeroRun} (h : Reading j run) :
  Found (j ++ List.replicate run.c 0) run.close.m run.close.idx ∧ run.close.c = 0 ∧
    run.close.idx2 = none
  := by
  have hclose := h.found.close (c := run.c) h.last
  unfold ZeroRun.close
  split_ifs at hclose ⊢ with hlonger
  · rw [h.start, if_neg hlonger.1]
    exact ⟨hclose, rfl, rfl⟩
  · exact ⟨hclose, rfl, rfl⟩

theorem zeroRunLoop_found (rest : List ℕ) {j : List ℕ} {run : ZeroRun} (h : Reading j run) :
  ∃ m, Found (j ++ List.replicate run.c 0 ++ rest) m
    (zeroRunLoop rest (j.length + run.c) run).idx
  := by
  induction rest generalizing j run with
  | nil =>
    rw [List.append_nil]
    exact ⟨_, h.close.1⟩
  | cons group rest ih =>
    by_cases hgroup : group = 0
    · have hzero : Reading j { run with
          idx2 := if run.idx2 = none then some (j.length + run.c) else run.idx2
          c := run.c + 1 } := by
        refine ⟨h.found, h.last, ?_⟩
        simp only [h.start, Nat.succ_ne_zero, if_false]
        by_cases hc : run.c = 0
        · simp [hc]
        · simp [hc]
      obtain ⟨m, hm⟩ := ih hzero
      refine ⟨m, ?_⟩
      rw [zeroRunLoop, if_pos hgroup]
      simp only [List.replicate_succ', List.append_assoc, List.singleton_append] at hm
      rw [hgroup, List.append_assoc]
      exact hm
    · obtain ⟨hfound, hc, hidx2⟩ := h.close
      have hnext : Reading (j ++ List.replicate run.c 0 ++ [group]) run.close := by
        refine ⟨hfound.concat hgroup, ?_, ?_⟩
        · rw [List.getLast?_concat]
          exact fun heq => hgroup (Option.some.inj heq)
        · rw [hidx2, if_pos hc]
      obtain ⟨m, hm⟩ := ih hnext
      refine ⟨m, ?_⟩
      rw [hc, List.replicate_zero, List.append_nil, Nat.add_zero, List.length_append,
        List.length_append, List.length_replicate, List.length_singleton, List.append_assoc] at hm
      rw [zeroRunLoop, if_neg hgroup]
      exact hm

/-- The run that `collapse_ipv6` finds. -/
theorem exists_found (j : List ℕ) :
  ∃ m, Found j m (zeroRunLoop j 0 { c := 0, m := 0, idx := none, idx2 := none }).idx
  := by
  have hstart : Reading [] { c := 0, m := 0, idx := none, idx2 := none } :=
    ⟨.none (by simp), by simp, rfl⟩
  exact zeroRunLoop_found j hstart

/-! ### Printing -/

theorem printLoop_none (j : List ℕ) (i : ℕ) (h : j ≠ [] → i + j.length = 8) :
  printLoop j i none = join (j.map Digits.hex)
  := by
  induction j generalizing i with
  | nil => rfl
  | cons group j ih =>
    have hlength := h (List.cons_ne_nil group j)
    rw [List.length_cons] at hlength
    rw [printLoop, if_pos (Or.inr (Or.inl rfl)), ite_self,
      ih (i + 1) (fun _ => by omega), List.map_cons]
    cases j with
    | nil =>
      rw [List.length_nil] at hlength
      rw [if_neg (by omega)]
      simp [join]
    | cons group' j =>
      rw [List.length_cons] at hlength
      have hne : (group' :: j).map Digits.hex ≠ [] := List.cons_ne_nil _ _
      rw [if_pos (by omega), List.append_assoc, List.singleton_append, join_cons _ hne]

/-- The groups in front of the run, each with a colon. -/
theorem printLoop_front (front rest : List ℕ) (i idx : ℕ) (h : i + front.length = idx)
    (hidx : idx ≤ 7) :
  printLoop (front ++ rest) i (some idx)
    = front.flatMap (fun group => Digits.hex group ++ [colon]) ++ printLoop rest idx (some idx)
  := by
  induction front generalizing i with
  | nil =>
    rw [List.length_nil, Nat.add_zero] at h
    rw [h]
    rfl
  | cons group front ih =>
    rw [List.length_cons] at h
    rw [List.cons_append, printLoop, if_pos (Or.inr (Or.inr (by rw [Option.getD_some]; omega))),
      if_pos (by omega), if_neg (by rw [Option.getD_some]; omega), ih (i + 1) (by omega),
      List.flatMap_cons]
    simp

/-- Nothing is printed for the zeros behind the first one. -/
theorem printLoop_zeros (m : ℕ) (back : List ℕ) (i idx : ℕ) (h : idx < i) :
  printLoop (List.replicate m 0 ++ back) i (some idx)
    = printLoop back (i + m) (some idx)
  := by
  induction m generalizing i with
  | zero => rfl
  | succ m ih =>
    have hprint : ¬ ((0 : ℕ) ≠ 0 ∨ some idx = none ∨ i < (some idx).getD 0) := by
      rw [Option.getD_some]
      simp
      omega
    rw [List.replicate_succ, List.cons_append, printLoop, if_neg hprint,
      if_neg (by rw [Option.some.injEq]; omega), ih (i + 1) (by omega)]
    congr 1
    omega

theorem printLoop_back {back : List ℕ} (hback : back.head? ≠ some 0) (i idx : ℕ) (h : idx < i)
    (hlength : back ≠ [] → i + back.length = 8) :
  printLoop back i (some idx) = join (back.map Digits.hex)
  := by
  cases back with
  | nil => rfl
  | cons group back =>
    have hgroup : group ≠ 0 := fun heq => hback (by rw [heq]; rfl)
    have hidx : (if (some idx).getD 0 < i then none else some idx) = none := if_pos h
    rw [← printLoop_none _ i hlength, printLoop, printLoop, if_pos (Or.inl hgroup),
      if_pos (Or.inl hgroup), hidx, ite_self]

theorem flatMap_hex (front : List ℕ) :
  front.flatMap (fun group => Digits.hex group ++ [colon])
    = if front = [] then [] else join (front.map Digits.hex) ++ [colon]
  := by
  induction front with
  | nil => rfl
  | cons group front ih =>
    rw [List.flatMap_cons, ih, if_neg (List.cons_ne_nil group front)]
    by_cases hnil : front = []
    · rw [hnil, if_pos rfl]
      simp [join]
    · rw [if_neg hnil, List.map_cons, join_cons _ (by rwa [ne_eq, List.map_eq_nil_iff])]
      simp

/-- What is printed is the short text around the run. -/
theorem printLoop_run {front back : List ℕ} {m : ℕ} (hm : 0 < m) (hback : back.head? ≠ some 0)
    (hlength : front.length + m + back.length = 8) :
  printLoop (front ++ List.replicate m 0 ++ back) 0 (some front.length)
    = shortText (front.map Digits.hex) (back.map Digits.hex)
  := by
  obtain ⟨k, rfl⟩ := Nat.exists_eq_add_one_of_ne_zero hm.ne'
  have hprint : ¬ ((0 : ℕ) ≠ 0 ∨ some front.length = none ∨
      front.length < (some front.length).getD 0) := by simp
  rw [List.append_assoc, printLoop_front front _ 0 front.length (by omega) (by omega),
    List.replicate_succ, List.cons_append, printLoop, if_neg hprint, if_pos rfl,
    printLoop_zeros k back _ _ (by omega),
    printLoop_back hback _ _ (by omega) (fun _ => by omega), flatMap_hex]
  cases front with
  | nil => simp [shortText, join]
  | cons group front => simp [shortText]

/-! ### The round trip -/

/-- The text of an address with eight groups. -/
structure AddressText where
  ts : List Bytes
  length : ts.length = 8
  texts : ∀ t ∈ ts, GroupText t

/-- The groups of an address. -/
def AddressText.groups (a : AddressText) : List ℕ := Ipv6.groups a.ts

/-- The address is given back by `expand_ipv6` after `collapse_ipv6`. The text of the address
with its zero byte is in a buffer of `strLen` bytes. -/
def RoundTrip (a : AddressText) : Prop :=
  ∀ strLen strLen', (join a.ts).length < strLen →
    expandIpv6 (collapseIpv6 (join a.ts) strLen) strLen'
      = some ((fullText a.groups).take (strLen' - 1))

/-- No two groups next to each other are zero, and the first one is, or only the last one. -/
def LoneZeroAtEdge (j : List ℕ) : Prop :=
  NoDoubleZero j ∧ (j.head? = some 0 ∨ j.getLast? = some 0 ∧ 0 ∉ j.dropLast)

theorem AddressText.length_groups (a : AddressText) :
  a.groups.length = 8
  := by
  rw [groups, List.length_map, a.length]

theorem AddressText.groups_lt (a : AddressText) :
  ∀ group ∈ a.groups, group < 16 ^ 4
  := by
  intro group hgroup
  obtain ⟨t, ht, rfl⟩ := List.mem_map.mp hgroup
  exact Ipv6.groups_lt (a.texts t ht)

theorem groupText_hex {group : ℕ} (h : group < 16 ^ 4) :
  GroupText (Digits.hex group)
  := ⟨Digits.hex_ne_nil group, Digits.length_hex_le h, Digits.isHexDigit_hex group⟩

theorem groups_hex (j : List ℕ) :
  groups (j.map Digits.hex) = j
  := by
  rw [groups, List.map_map]
  simp [Function.comp_def]

/-- The characters of parts, each with a colon. -/
def size (ts : List Bytes) : ℕ := (ts.map fun t => t.length + 1).sum

@[simp]
theorem size_nil :
  size [] = 0
  := rfl

@[simp]
theorem size_cons (t : Bytes) (ts : List Bytes) :
  size (t :: ts) = t.length + 1 + size ts
  := rfl

theorem size_append (ts ts' : List Bytes) :
  size (ts ++ ts') = size ts + size ts'
  := by
  rw [size, List.map_append, List.sum_append]
  rfl

theorem length_join {ts : List Bytes} (h : ts ≠ []) :
  (join ts).length + 1 = size ts
  := Fields.length_join h

/-- A text with `::` is shorter than one with two characters more for the run. -/
theorem length_shortText_le (front back : List Bytes) {n : ℕ} (hn : 2 ≤ n)
    (hempty : front = [] → back = [] → 3 ≤ n) :
  (shortText front back).length + 1 ≤ size front + n + size back
  := by
  rw [shortText, List.length_append, List.length_append]
  change (join front).length + 2 + (join back).length + 1 ≤ _
  by_cases hfront : front = []
  · by_cases hback : back = []
    · have hthree := hempty hfront hback
      rw [hfront, hback]
      simpa [join] using hthree
    · have hlength := length_join hback
      rw [hfront]
      simp only [join, List.intercalate_nil, List.length_nil, size_nil] at hlength ⊢
      omega
  · have hlength := length_join hfront
    by_cases hback : back = []
    · rw [hback]
      simp only [join, List.intercalate_nil, List.length_nil, size_nil] at hlength ⊢
      omega
    · have hlength' := length_join hback
      omega

/-- The groups printed are no longer than those read. -/
theorem size_hex_le {ts : List Bytes} (h : ∀ t ∈ ts, GroupText t) :
  size ((groups ts).map Digits.hex) ≤ size ts
  := by
  induction ts with
  | nil => exact Nat.le_refl 0
  | cons t ts ih =>
    rw [List.forall_mem_cons] at h
    have hgroup := Digits.length_hex_value_le h.1.nonempty h.1.digits
    have hgroups := ih h.2
    change (Digits.hex (Digits.value 16 t)).length + 1 + size ((groups ts).map Digits.hex)
      ≤ t.length + 1 + size ts
    omega

theorem size_hex_replicate (m : ℕ) :
  size ((List.replicate m 0).map Digits.hex) = 2 * m
  := by
  induction m with
  | zero => rfl
  | succ m ih =>
    rw [List.replicate_succ, List.map_cons, size_cons, ih, Digits.hex]
    simp
    omega

/-- What is printed fits where the text was. -/
theorem length_printLoop_le (a : AddressText) {m : ℕ} {idx : Option ℕ}
    (hfound : Found a.groups m idx) :
  (printLoop a.groups 0 idx).length ≤ (join a.ts).length
  := by
  have hlength := a.length_groups
  have hne : a.ts ≠ [] := List.ne_nil_of_length_pos (by rw [a.length]; decide)
  have hold := length_join hne
  have hsize : size (a.groups.map Digits.hex) ≤ size a.ts := size_hex_le a.texts
  generalize a.groups = j at *
  cases hfound with
  | none hzero =>
    have hjne : j.map Digits.hex ≠ [] :=
      List.ne_nil_of_length_pos (by rw [List.length_map, hlength]; decide)
    have hnew := length_join hjne
    rw [printLoop_none j 0 (fun _ => by omega)]
    omega
  | @run front back m hm hback hsingle =>
    rw [List.length_append, List.length_append, List.length_replicate] at hlength
    rw [List.map_append, List.map_append, size_append, size_append, size_hex_replicate] at hsize
    have hempty : front.map Digits.hex = [] → back.map Digits.hex = [] → 3 ≤ 2 * m := by
      intro hfront hback
      rw [List.map_eq_nil_iff] at hfront hback
      rw [hfront, hback] at hlength
      simp only [List.length_nil] at hlength
      omega
    have hnew := length_shortText_le _ _ (by omega) hempty
    rw [printLoop_run hm hback hlength]
    omega

/-- What `collapse_ipv6` leaves in the buffer of an address. -/
theorem exists_collapseIpv6 (a : AddressText) :
  ∃ m idx, Found a.groups m idx ∧ ∀ strLen, (join a.ts).length < strLen →
    collapseIpv6 (join a.ts) strLen = printLoop a.groups 0 idx
  := by
  obtain ⟨m, hfound⟩ := exists_found a.groups
  refine ⟨m, _, hfound, ?_⟩
  intro strLen hstrLen
  have hne : a.ts ≠ [] := List.ne_nil_of_length_pos (by rw [a.length]; decide)
  have hscan := scan_join hne a.texts
  rw [a.length] at hscan
  have hgroups : (a.ts.map fun t => (Digits.value 16 t : ℤ)).map
      (fun group => (group % 2 ^ 32).toNat) = a.groups := by
    rw [List.map_map, AddressText.groups, groups]
    apply List.map_congr_left
    intro t ht
    have hlt := Ipv6.groups_lt (a.texts t ht)
    simp only [Function.comp_apply]
    omega
  have hfits := length_printLoop_le a hfound
  rw [collapseIpv6, hscan]
  simp only [List.length_map, a.length, ne_eq, not_true_eq_false, if_false, hgroups]
  exact List.take_of_length_le (by omega)

/-- A run of a single zero is at an end exactly when the groups have a lone zero there. -/
theorem loneZeroAtEdge_iff {front back : List ℕ} {m : ℕ} (hm : 0 < m)
    (hsingle : m = 1 → NoDoubleZero (front ++ [0] ++ back) ∧ 0 ∉ front) :
  LoneZeroAtEdge (front ++ List.replicate m 0 ++ back)
    ↔ m = 1 ∧ (front = [] ∨ back = [])
  := by
  constructor
  · rintro ⟨hdouble, hedge⟩
    have hone : m = 1 := by
      by_contra hmany
      obtain ⟨k, rfl⟩ : ∃ k, m = k + 2 := ⟨m - 2, by omega⟩
      rw [List.replicate_succ, List.replicate_succ, List.append_assoc, List.cons_append,
        List.cons_append] at hdouble
      exact (List.isChain_append_cons_cons.mp hdouble).2.1 ⟨rfl, rfl⟩
    subst hone
    refine ⟨rfl, ?_⟩
    obtain hhead | ⟨-, hlast⟩ := hedge
    · left
      cases front with
      | nil => rfl
      | cons group front =>
        rw [List.append_assoc, List.cons_append, List.head?_cons, Option.some.injEq] at hhead
        exact absurd List.mem_cons_self (hhead ▸ (hsingle rfl).2)
    · right
      by_contra hback
      rw [List.dropLast_append_of_ne_nil hback] at hlast
      exact hlast (by simp)
  · rintro ⟨rfl, hedge⟩
    obtain ⟨hdouble, hfront⟩ := hsingle rfl
    refine ⟨hdouble, ?_⟩
    obtain rfl | rfl := hedge
    · exact Or.inl rfl
    · right
      rw [List.append_nil, List.replicate_one, List.dropLast_concat, List.getLast?_concat]
      exact ⟨rfl, hfront⟩

/-- A run that is not a single zero at an end is expanded to the zeros again. -/
theorem expandIpv6_shortText {front back : List ℕ} {m : ℕ}
    (hlength : front.length + m + back.length = 8)
    (htexts : ∀ group ∈ front ++ List.replicate m 0 ++ back, GroupText (Digits.hex group))
    (strLen : ℕ) :
  expandIpv6 (shortText (front.map Digits.hex) (back.map Digits.hex)) strLen =
    if max front.length 1 + max back.length 1 ≤ 7 then
      some ((fullText (front ++ List.replicate m 0 ++ back)).take (strLen - 1))
    else none
  := by
  rw [List.forall_mem_append, List.forall_mem_append] at htexts
  have hfront : ∀ t ∈ front.map Digits.hex, GroupText t := List.forall_mem_map.mpr htexts.1.1
  have hback : ∀ t ∈ back.map Digits.hex, GroupText t := List.forall_mem_map.mpr htexts.2
  split_ifs with hcolons
  · have hm : 8 - (front.length + back.length) = m := by omega
    refine (expandIpv6_eq_some_iff _ strLen _).mpr ⟨_, ?_, rfl⟩
    have hshort := Accepts.short (by rwa [List.length_map, List.length_map]) hfront hback
    rwa [groups_hex, groups_hex, List.length_map, List.length_map, hm] at hshort
  · rw [Option.eq_none_iff_forall_ne_some]
    intro text htext
    obtain ⟨g, haccepts, -⟩ := (expandIpv6_eq_some_iff _ strLen text).mp htext
    obtain ⟨-, hseven, -⟩ := accepts_count haccepts
    rw [count_shortText hfront hback, List.length_map, List.length_map] at hseven
    exact hcolons hseven

/-- The address is given back unless it has a lone zero at an end. -/
theorem roundTrip_iff (a : AddressText) :
  RoundTrip a ↔ ¬ LoneZeroAtEdge a.groups
  := by
  have hlength := a.length_groups
  have htexts : ∀ group ∈ a.groups, GroupText (Digits.hex group) := fun group hgroup =>
    groupText_hex (a.groups_lt group hgroup)
  obtain ⟨m, idx, hfound, hcollapse⟩ := exists_collapseIpv6 a
  have hexpand : RoundTrip a ↔ ∀ strLen', expandIpv6 (printLoop a.groups 0 idx) strLen'
      = some ((fullText a.groups).take (strLen' - 1)) := by
    constructor
    · intro h strLen'
      rw [← hcollapse _ (Nat.lt_succ_self _)]
      exact h _ strLen' (Nat.lt_succ_self _)
    · intro h strLen strLen' hstrLen
      rw [hcollapse strLen hstrLen]
      exact h strLen'
  rw [hexpand]
  generalize a.groups = j at *
  cases hfound with
  | none hzero =>
    have hloop : printLoop j 0 none = join (j.map Digits.hex) :=
      printLoop_none j 0 fun _ => by omega
    constructor
    · rintro - ⟨-, hhead | ⟨hlast, -⟩⟩
      · exact hzero (List.mem_of_head? hhead)
      · exact hzero (List.mem_of_getLast? hlast)
    · intro _ strLen'
      have hgroups := Accepts.groups (by rw [List.length_map]; omega)
        (by rw [List.length_map]; omega) (List.forall_mem_map.mpr htexts)
      rw [groups_hex, List.length_map, hlength, Nat.sub_self, List.replicate_zero,
        List.append_nil] at hgroups
      rw [hloop]
      exact (expandIpv6_eq_some_iff _ strLen' _).mpr ⟨j, hgroups, rfl⟩
  | @run front back m hm hback hsingle =>
    rw [List.length_append, List.length_append, List.length_replicate] at hlength
    rw [loneZeroAtEdge_iff hm hsingle, printLoop_run hm hback hlength]
    have hedge : ¬ (m = 1 ∧ (front = [] ∨ back = [])) ↔
        max front.length 1 + max back.length 1 ≤ 7 := by
      rw [← List.length_eq_zero_iff, ← List.length_eq_zero_iff]
      omega
    rw [hedge]
    simp only [expandIpv6_shortText hlength htexts]
    constructor
    · intro h
      have hsome := h 0
      split_ifs at hsome with hcolons
      exact hcolons
    · intro h strLen'
      rw [if_pos h]

/-- Where expanding is exact, and which addresses survive collapsing. -/
theorem addresses_exact_iff (a : AddressText) (ip : Bytes) :
  (RoundTrip a ↔ ¬ LoneZeroAtEdge a.groups) ∧
    (Exact ip ↔ ¬ TooFew ip ∧ ¬ SevenAtEdge ip)
  := ⟨roundTrip_iff a, expand_exact_iff ip⟩

theorem groupText_singleton {c : UInt8} (h : isHexDigit c = true) :
  GroupText [c]
  := ⟨by simp, by simp, by simpa using h⟩

/-- `0:1:2:3:4:5:6:7` -/
def zeroFirst : AddressText where
  ts := [[0x30], [0x31], [0x32], [0x33], [0x34], [0x35], [0x36], [0x37]]
  length := rfl
  texts := by
    simp only [List.forall_mem_cons]
    refine ⟨?_, ?_, ?_, ?_, ?_, ?_, ?_, ?_, by simp⟩ <;>
    · apply groupText_singleton
      decide

/-- The address `0:1:2:3:4:5:6:7` collapses to `::1:2:3:4:5:6:7`, which is refused, and the text
`1:2:3` is accepted. -/
theorem addresses_exact_fails :
  ¬ RoundTrip zeroFirst ∧ ¬ Exact (join [[0x31], [0x32], [0x33]])
  := by
  constructor
  · rw [roundTrip_iff, not_not]
    refine ⟨?_, Or.inl rfl⟩
    change NoDoubleZero [0, 1, 2, 3, 4, 5, 6, 7]
    simp [NoDoubleZero]
  · rw [expand_exact_iff, not_and_or]
    refine Or.inl (not_not.mpr ⟨_, by decide, by decide, ?_, rfl⟩)
    simp only [List.forall_mem_cons]
    refine ⟨?_, ?_, ?_, by simp⟩ <;>
    · apply groupText_singleton
      decide

end Ipv6
