import Mathlib.Data.Int.Order.Basic
import Zabbix.Text.ParamSyntax

/-!
# Agreement of the parameter functions

`num_param` reads the lists of the grammar with escaped quotes inside arrays, and the functions
that fetch a parameter those without. They agree on a parameter exactly when it is the same in
both readings.
-/

open Ascii

namespace Params

open ItemKey (ParamState QuotedBody)

/-! ### Lists -/

/-- A list of parameters, with the texts they stand for. -/
inductive ParamList (body : Bytes → Prop) : Bytes → List Bytes → Prop
  | single {source text : Bytes} (h : Param body source text) : ParamList body source [text]
  | more {source text source' : Bytes} {texts : List Bytes} (h : Param body source text)
    (h' : ParamList body source' texts) :
    ParamList body (source ++ comma :: source') (text :: texts)

/-- The lists of the grammar, where a backslash in front of a quote escapes it everywhere. -/
abbrev IsParamList : Bytes → List Bytes → Prop := ParamList (Body true)

/-- The parameter with a number, in the reading where a backslash inside an array is an ordinary
character. What follows the parameter is not looked at. -/
inductive Nth : ℕ → Bytes → Bytes → Prop
  | here {source text rest : Bytes} (h : Param (Body false) source text) (hends : Ends 0 rest) :
    Nth 1 (source ++ rest) text
  | later {n : ℕ} {source text p text' : Bytes} (h : Param (Body false) source text)
    (h' : Nth n p text') : Nth (n + 1) (source ++ comma :: p) text'

section Scan

variable {escaped : Bool} {source text : Bytes} (h : Param (Body escaped) source text)

include h

/-- The last parameter of a list. -/
theorem scan_last :
  scan escaped .init 0 [] source = some (text, [])
  := by
  have hscan := scan_param h (.inr (.inl rfl) : Ends 0 [])
  rwa [List.append_nil] at hscan

/-- A parameter with another one behind it. -/
theorem scan_more (rest : Bytes) :
  scan escaped .init 0 [] (source ++ comma :: rest) = some (text, comma :: rest)
  := scan_param h (.inl rfl)

end Scan

theorem nth_one_iff {p text : Bytes} :
  Nth 1 p text ↔ ∃ rest, scan false .init 0 [] p = some (text, rest)
  := by
  constructor
  · intro h
    cases h with
    | here h hends => exact ⟨_, scan_param h hends⟩
    | later _ h' => cases h'
  · rintro ⟨rest, hscan⟩
    obtain ⟨source, rfl, hends, h⟩ := scan_sound hscan
    exact .here h hends

theorem nth_succ_iff {n : ℕ} {p text : Bytes} :
  Nth (n + 2) p text
    ↔ ∃ text' c rest, scan false .init 0 [] p = some (text', c :: rest) ∧ Nth (n + 1) rest text
  := by
  constructor
  · intro h
    cases h with
    | later h h' => exact ⟨_, _, _, scan_more h _, h'⟩
  · rintro ⟨text', c, rest, hscan, h'⟩
    obtain ⟨source, rfl, hends, h⟩ := scan_sound hscan
    obtain hc | hnil | ⟨hzero, -⟩ := hends
    · rw [Option.some.inj hc]
      exact .later h h'
    · contradiction
    · contradiction

/-- A comma of the list starts another parameter. -/
theorem round_separator {escapes : ℕ → Bool} {state : ParamState} {array : ℕ} {c : UInt8}
    {rest : Bytes} {r : Round} (h : round escapes state array c rest = some r)
    (hseparator : r.separator = true) :
  r.state = .init ∧ r.array = 0 ∧ r.kept = none ∧ r.rest = rest
  := by
  have hclosed : ∀ {array kept}, closed array kept rest = some r → r.separator = false := by
    intro array kept h
    simp only [closed] at h
    split_ifs at h
    rw [← Option.some.inj h]
  cases state with
  | init =>
    simp only [round] at h
    split_ifs at h
    · rw [← Option.some.inj h] at hseparator ⊢
      have harray : array = 0 := of_decide_eq_true hseparator
      exact ⟨rfl, harray, by simp [inArray, harray], rfl⟩
    · rw [← Option.some.inj h] at hseparator
      contradiction
    · rw [← Option.some.inj h] at hseparator
      contradiction
    · rw [hclosed h] at hseparator
      contradiction
    · rw [← Option.some.inj h] at hseparator
      contradiction
    · rw [← Option.some.inj h] at hseparator
      contradiction
  | quoted =>
    simp only [round] at h
    split_ifs at h
    · rw [hclosed h] at hseparator
      contradiction
    · rw [← Option.some.inj h] at hseparator
      contradiction
    · rw [← Option.some.inj h] at hseparator
      contradiction
  | unquoted =>
    simp only [round] at h
    split_ifs at h
    · rw [← Option.some.inj h] at hseparator
      contradiction
    · rw [← Option.some.inj h] at hseparator
      contradiction

/-! ### Counting -/

theorem numLoop_none {state : ParamState} {array ret : ℕ} {c : UInt8} {p : Bytes}
    (h : round (fun _ => true) state array c p = none) :
  numLoop state array ret (c :: p) = 0
  := by
  rw [numLoop]
  split
  · rfl
  · rename_i r hr
    rw [hr] at h
    contradiction

theorem numLoop_round {state : ParamState} {array ret : ℕ} {c : UInt8} {p : Bytes} {r : Round}
    (h : round (fun _ => true) state array c p = some r) :
  numLoop state array ret (c :: p)
    = numLoop r.state r.array (if r.separator then ret + 1 else ret) r.rest
  := by
  rw [numLoop]
  split
  · rename_i hnone
    rw [hnone] at h
    contradiction
  · rename_i r' hr
    rw [Option.some.inj (h.symm.trans hr)]

/-- `num_param` goes on behind the parameter that the scan reads. -/
theorem numLoop_scan (state : ParamState) (array ret : ℕ) (buf p : Bytes) :
  numLoop state array ret p =
    match scan true state array buf p with
    | none => 0
    | some (_, []) => ret
    | some (_, _ :: rest) => numLoop .init 0 (ret + 1) rest
  := by
  fun_induction scan true state array buf p with
  | case1 state array buf hopen => rw [numLoop, if_pos hopen]
  | case2 state array buf hopen => rw [numLoop, if_neg hopen]
  | case3 state array buf c p hnone => exact numLoop_none hnone
  | case4 state array buf c p r hr hseparator =>
    obtain ⟨hstate, harray, -, hrest⟩ := round_separator hr hseparator
    rw [numLoop_round hr, hstate, harray, hrest, hseparator]
    rfl
  | case5 state array buf c p r hr hseparator ih =>
    rw [numLoop_round hr, if_neg hseparator]
    exact ih

/-- Every list of the grammar is counted right. -/
theorem numLoop_paramList {p : Bytes} {texts : List Bytes} (h : IsParamList p texts) (m : ℕ) :
  numLoop .init 0 (m + 1) p = m + texts.length
  := by
  induction h generalizing m with
  | @single source text h =>
    have hscan := scan_last h
    rw [numLoop_scan _ _ _ [], hscan]
    rfl
  | @more source text source' texts h _ ih =>
    rw [numLoop_scan _ _ _ [], scan_more h _]
    simp only [ih (m + 1), List.length_cons]
    omega

/-- What is counted is a list of the grammar. -/
theorem exists_paramList {p : Bytes} {m : ℕ} (h : numLoop .init 0 (m + 1) p ≠ 0) :
  ∃ texts, IsParamList p texts
  := by
  induction hlen : p.length using Nat.strong_induction_on generalizing p m with
  | _ n ih =>
    rw [numLoop_scan _ _ _ []] at h
    cases hscan : scan true .init 0 [] p with
    | none =>
      rw [hscan] at h
      contradiction
    | some result =>
      obtain ⟨text, rest⟩ := result
      obtain ⟨source, rfl, hends, hparam⟩ := scan_sound hscan
      cases rest with
      | nil => exact ⟨[text], by simpa using ParamList.single hparam⟩
      | cons c rest =>
        rw [hscan] at h
        have hlength : rest.length < n := by
          rw [← hlen, List.length_append, List.length_cons]
          omega
        obtain ⟨texts, htexts⟩ := ih _ hlength h rfl
        obtain hc | hnil | ⟨hzero, -⟩ := hends
        · rw [Option.some.inj hc]
          exact ⟨text :: texts, .more hparam htexts⟩
        · contradiction
        · contradiction

/-- `num_param` gives the number of parameters of the lists of the grammar, and 0 for every
other text. -/
theorem numParam_eq_iff (p : Bytes) {k : ℕ} (hk : 0 < k) :
  numParam (some p) = k ↔ ∃ texts, IsParamList p texts ∧ texts.length = k
  := by
  constructor
  · intro h
    have hne : numLoop .init 0 (0 + 1) p ≠ 0 := by
      intro hzero
      exact hk.ne (hzero.symm.trans h)
    obtain ⟨texts, htexts⟩ := exists_paramList hne
    refine ⟨texts, htexts, ?_⟩
    rw [← h, numParam, numLoop_paramList htexts 0, Nat.zero_add]
  · rintro ⟨texts, htexts, rfl⟩
    rw [numParam, numLoop_paramList htexts 0, Nat.zero_add]

/-! ### Fetching -/

section Fetching

variable {σ : Type} {add : σ → UInt8 → Option σ} {num : ℤ} {state : ParamState} {array idx : ℕ}
  {out : σ} {p : Bytes}

theorem paramLoop_past (h : num < idx) :
  paramLoop add num .init 0 idx out p = some out
  := by
  rw [paramLoop.eq_def, if_pos (.inr h), if_neg (by decide), if_neg (by decide), if_pos h.le]

theorem paramLoop_nil (h : idx ≤ num) :
  paramLoop add num state array idx out []
    = if (state = .quoted ∨ array ≠ 0) ∨ num ≠ idx then none else some out
  := by
  rw [paramLoop.eq_def, if_pos (.inl rfl)]
  split_ifs <;> grind

theorem paramLoop_none {c : UInt8} (h : idx ≤ num)
    (hnone : round (fun array => array = 0) state array c p = none) :
  paramLoop add num state array idx out (c :: p) = none
  := by
  rw [paramLoop, if_neg (by simp [h])]
  split
  · rfl
  · rename_i r hr
    rw [hr] at hnone
    contradiction

theorem paramLoop_round {c : UInt8} {r : Round} (h : idx ≤ num)
    (hr : round (fun array => array = 0) state array c p = some r) :
  paramLoop add num state array idx out (c :: p)
    = (if idx = num then r.kept.elim (some out) (add out) else some out).bind fun out =>
        paramLoop add num r.state r.array (if r.separator then idx + 1 else idx) out r.rest
  := by
  rw [paramLoop, if_neg (by simp [h])]
  split
  · rename_i hnone
    rw [hnone] at hr
    contradiction
  · rename_i r' hr'
    rw [Option.some.inj (hr.symm.trans hr')]

/-- Where no backslash escapes a quote in an array, the text of the parameter is what the rounds
keep. -/
theorem shown_plain {c : UInt8} {r : Round}
    (h : round (fun array => false || array = 0) state array c p = some r) :
  shown array c r = r.kept.toList
  := by
  refine if_neg ?_
  rintro ⟨harray, rfl, hkept⟩
  cases state with
  | init =>
    rw [← Option.some.inj h] at hkept
    exact absurd (Option.some.inj hkept) (by decide)
  | quoted =>
    simp only [round] at h
    rw [if_neg (by decide), if_neg (by simp [harray])] at h
    rw [← Option.some.inj h] at hkept
    exact absurd (Option.some.inj hkept) (by decide)
  | unquoted =>
    simp only [round] at h
    rw [if_neg (by simp [backslash, comma, rightBracket])] at h
    rw [← Option.some.inj h] at hkept
    exact absurd (Option.some.inj hkept) (by decide)

/-- At the requested parameter the characters of its text are added. -/
theorem paramLoop_scan (buf : Bytes) :
  ((buf.foldlM add out).bind fun out => paramLoop add idx state array idx out p)
    = (scan false state array buf p).bind fun result => result.1.foldlM add out
  := by
  fun_induction scan false state array buf p with
  | case1 state array buf hopen =>
    simp only [paramLoop_nil le_rfl, if_pos (Or.inl hopen), Option.bind_none]
    exact Option.bind_fun_none _
  | case2 state array buf hopen =>
    have hdone : ¬ ((state = .quoted ∨ array ≠ 0) ∨ (idx : ℤ) ≠ idx) := by
      rintro (hstate | hne)
      · exact hopen hstate
      · exact hne rfl
    simp only [paramLoop_nil le_rfl, if_neg hdone]
    exact Option.bind_fun_some _
  | case3 state array buf c p hnone =>
    simp only [paramLoop_none le_rfl hnone, Option.bind_none]
    exact Option.bind_fun_none _
  | case4 state array buf c p r hr hseparator =>
    obtain ⟨hstate, harray, hkept, -⟩ := round_separator hr hseparator
    have hpast : (idx : ℤ) < ↑(idx + 1) := by omega
    simp only [paramLoop_round le_rfl hr, hstate, harray, hkept, hseparator, if_true,
      Option.elim_none, Option.bind_some, paramLoop_past hpast]
    exact Option.bind_fun_some _
  | case5 state array buf c p r hr hseparator ih =>
    rw [← ih, shown_plain hr, List.foldlM_append]
    simp only [paramLoop_round le_rfl hr, if_neg hseparator, if_true]
    cases r.kept with
    | none => simp
    | some b => simp [Option.bind_assoc]

/-- Before the requested parameter the text goes on behind the next comma of the list. -/
theorem paramLoop_skip (buf : Bytes) (h : idx < num) :
  paramLoop add num state array idx out p =
    match scan false state array buf p with
    | none => none
    | some (_, []) => none
    | some (_, _ :: rest) => paramLoop add num .init 0 (idx + 1) out rest
  := by
  fun_induction scan false state array buf p with
  | case1 state array buf hopen => rw [paramLoop_nil h.le, if_pos (.inl hopen)]
  | case2 state array buf hopen => rw [paramLoop_nil h.le, if_pos (.inr h.ne')]
  | case3 state array buf c p hnone => exact paramLoop_none h.le hnone
  | case4 state array buf c p r hr hseparator =>
    obtain ⟨hstate, harray, -, hrest⟩ := round_separator hr hseparator
    rw [paramLoop_round h.le hr, if_neg h.ne, hstate, harray, hrest, hseparator]
    rfl
  | case5 state array buf c p r hr hseparator ih =>
    rw [paramLoop_round h.le hr, if_neg h.ne, if_neg hseparator]
    exact ih

/-- The loop of `get_param` started on a list succeeds when the parameter exists and its
characters can be added. -/
theorem paramLoop_eq_some_iff (n idx : ℕ) (p : Bytes) (result : σ) :
  paramLoop add ((idx + n : ℕ) : ℤ) .init 0 idx out p = some result
    ↔ ∃ text, Nth (n + 1) p text ∧ text.foldlM add out = some result
  := by
  induction n generalizing idx p with
  | zero =>
    have hloop : paramLoop add idx .init 0 idx out p
        = (scan false .init 0 [] p).bind fun result => result.1.foldlM add out :=
      paramLoop_scan []
    rw [Nat.add_zero, hloop, Option.bind_eq_some_iff]
    constructor
    · rintro ⟨⟨text, rest⟩, hscan, hadd⟩
      exact ⟨text, nth_one_iff.mpr ⟨rest, hscan⟩, hadd⟩
    · rintro ⟨text, hnth, hadd⟩
      obtain ⟨rest, hscan⟩ := nth_one_iff.mp hnth
      exact ⟨(text, rest), hscan, hadd⟩
  | succ n ih =>
    have hlt : (idx : ℤ) < ((idx + (n + 1) : ℕ) : ℤ) := by omega
    have hnum : idx + (n + 1) = idx + 1 + n := by omega
    rw [paramLoop_skip [] hlt, hnum]
    constructor
    · intro h
      split at h
      · contradiction
      · contradiction
      · rename_i text c rest hscan
        obtain ⟨text', hnth, hadd⟩ := (ih (idx + 1) rest).mp h
        exact ⟨text', nth_succ_iff.mpr ⟨text, c, rest, hscan, hnth⟩, hadd⟩
    · rintro ⟨text, hnth, hadd⟩
      obtain ⟨text', c, rest, hscan, hnth⟩ := nth_succ_iff.mp hnth
      rw [hscan]
      exact (ih (idx + 1) rest).mpr ⟨text, hnth, hadd⟩

end Fetching

/-! ### The functions -/

section Functions

variable {p text : Bytes} {num : ℤ}

theorem foldlM_length (text : Bytes) (sz : ℕ) :
  text.foldlM (fun sz _ => some (sz + 1)) sz = some (sz + text.length)
  := by
  induction text generalizing sz with
  | nil => rfl
  | cons c text ih =>
    rw [List.foldlM_cons, Option.bind_eq_bind, Option.bind_some, ih, List.length_cons]
    congr 1
    omega

theorem foldlM_limited {limit : ℕ} (text buf result : Bytes) (hbuf : buf.length ≤ limit) :
  text.foldlM (fun buf c => if buf.length = limit then none else some (buf ++ [c])) buf
      = some result
    ↔ buf ++ text = result ∧ result.length ≤ limit
  := by
  induction text generalizing buf with
  | nil =>
    rw [List.foldlM_nil, List.append_nil]
    constructor
    · intro h
      rw [← Option.some.inj h]
      exact ⟨rfl, hbuf⟩
    · rintro ⟨rfl, -⟩
      rfl
  | cons c text ih =>
    have happend : buf ++ c :: text = buf ++ [c] ++ text := List.append_cons buf c text
    rw [List.foldlM_cons, happend]
    by_cases hfull : buf.length = limit
    · rw [if_pos hfull]
      constructor
      · intro h
        contradiction
      · rintro ⟨rfl, hlen⟩
        simp only [List.length_append, List.length_singleton] at hlen
        omega
    · rw [if_neg hfull]
      refine ih (buf ++ [c]) ?_
      rw [List.length_append, List.length_singleton]
      omega

/-- The parameters are numbered from 1. -/
theorem exists_number (h : 1 ≤ num) :
  ∃ n : ℕ, num = ((1 + n : ℕ) : ℤ) ∧ num.toNat = n + 1
  := ⟨num.toNat - 1, by omega, by omega⟩

theorem getParamLen_eq_some_iff (h : 1 ≤ num) {sz : ℕ} :
  getParamLen p num = some sz ↔ ∃ text, Nth num.toNat p text ∧ text.length = sz
  := by
  obtain ⟨n, rfl, hn⟩ := exists_number h
  rw [getParamLen, paramLoop_eq_some_iff, hn]
  simp only [foldlM_length, Nat.zero_add, Option.some.injEq]

theorem getParam_eq_some_iff (h : 1 ≤ num) {maxLen : ℕ} :
  getParam p num maxLen = some text ↔ Nth num.toNat p text ∧ text.length < maxLen
  := by
  obtain ⟨n, rfl, hn⟩ := exists_number h
  rw [getParam, hn]
  split_ifs with hzero
  · rw [hzero]
    simp
  · rw [paramLoop_eq_some_iff]
    constructor
    · rintro ⟨text', hnth, hadd⟩
      obtain ⟨rfl, hlen⟩ := (foldlM_limited text' [] text (Nat.zero_le _)).mp hadd
      exact ⟨hnth, by omega⟩
    · rintro ⟨hnth, hlen⟩
      exact ⟨text, hnth, (foldlM_limited text [] text (Nat.zero_le _)).mpr ⟨rfl, by omega⟩⟩

theorem Nth.unique {n : ℕ} {text' : Bytes} (h : Nth (n + 1) p text) (h' : Nth (n + 1) p text') :
  text = text'
  := by
  have hone : (1 : ℤ) ≤ ((n + 1 : ℕ) : ℤ) := by omega
  have hfetch : ∀ {t}, Nth (n + 1) p t → t.length ≤ max text.length text'.length →
      getParam p ((n + 1 : ℕ) : ℤ) (max text.length text'.length + 1) = some t :=
    fun ht hlen => (getParam_eq_some_iff hone).mpr ⟨ht, Nat.lt_succ_of_le hlen⟩
  exact Option.some.inj
    ((hfetch h (le_max_left _ _)).symm.trans (hfetch h' (le_max_right _ _)))

/-- The buffer that `get_param_dyn` allocates is of the length of the text. -/
theorem getParamDyn_eq_some_iff (h : 1 ≤ num) :
  getParamDyn p num = some text ↔ Nth num.toNat p text
  := by
  obtain ⟨n, -, hn⟩ := exists_number h
  unfold getParamDyn
  cases hlen : getParamLen p num with
  | none =>
    constructor
    · intro hnone
      contradiction
    · intro hnth
      have hsome := (getParamLen_eq_some_iff h).mpr ⟨text, hnth, rfl⟩
      rw [hlen] at hsome
      contradiction
  | some sz =>
    obtain ⟨text', hnth, rfl⟩ := (getParamLen_eq_some_iff h).mp hlen
    refine (getParam_eq_some_iff h).trans ⟨And.left, fun hnth' => ⟨hnth', ?_⟩⟩
    rw [hn] at hnth hnth'
    rw [hnth'.unique hnth]
    exact Nat.lt_succ_self _

/-- The functions do not look at the number of a parameter below 1. -/
theorem getParamLen_of_lt (h : num < 1) :
  getParamLen p num = some 0
  := paramLoop_past h

theorem getParam_of_lt (h : num < 1) {maxLen : ℕ} (hlen : 0 < maxLen) :
  getParam p num maxLen = some []
  := by
  rw [getParam, if_neg hlen.ne']
  exact paramLoop_past h

theorem getParamDyn_of_lt (h : num < 1) :
  getParamDyn p num = some []
  := by
  rw [getParamDyn, getParamLen_of_lt h]
  exact getParam_of_lt h (Nat.succ_pos 0)

/-- A buffer that is larger than the text is large enough, for any number. -/
theorem getParam_of_getParamDyn (h : getParamDyn p num = some text) {maxLen : ℕ}
    (hlen : text.length < maxLen) :
  getParam p num maxLen = some text
  := by
  by_cases hnum : 1 ≤ num
  · exact (getParam_eq_some_iff hnum).mpr ⟨(getParamDyn_eq_some_iff hnum).mp h, hlen⟩
  · rw [getParamDyn_of_lt (not_le.mp hnum)] at h
    rw [getParam_of_lt (not_le.mp hnum) (Nat.zero_lt_of_lt hlen), h]

theorem length_le_of_getParam {maxLen sz : ℕ} (h : getParam p num maxLen = some text)
    (hsz : getParamLen p num = some sz) :
  text.length ≤ sz
  := by
  by_cases hnum : 1 ≤ num
  · obtain ⟨n, -, hn⟩ := exists_number hnum
    obtain ⟨text', hnth', rfl⟩ := (getParamLen_eq_some_iff hnum).mp hsz
    obtain ⟨hnth, -⟩ := (getParam_eq_some_iff hnum).mp h
    rw [hn] at hnth hnth'
    rw [hnth.unique hnth']
  · have hmax : 0 < maxLen := by
      refine Nat.pos_of_ne_zero ?_
      rintro rfl
      contradiction
    rw [getParam_of_lt (not_le.mp hnum) hmax] at h
    rw [← Option.some.inj h]
    exact Nat.zero_le sz

end Functions

/-! ### Agreement -/

/-- What the functions are to do with a list and a number: `num_param` counts the parameters of
the grammar, the parameter is found when the number is one of theirs, its text is that of the
grammar, a buffer that is larger than the text is large enough, and the length is not smaller
than the text. -/
structure Agrees (p : Bytes) (num : ℤ) : Prop where
  counted : ∃ texts, IsParamList p texts ∧ texts.length = numParam (some p)
  found : getParamDyn p num ≠ none ↔ 1 ≤ num ∧ num ≤ numParam (some p)
  text : ∀ texts, IsParamList p texts → ∀ text, getParamDyn p num = some text →
    texts[num.toNat - 1]? = some text
  large : ∀ text maxLen, getParamDyn p num = some text → text.length < maxLen →
    getParam p num maxLen = some text
  length : ∀ text maxLen sz, getParam p num maxLen = some text →
    getParamLen p num = some sz → text.length ≤ sz

/-- The functions agree on a parameter of a list: its number, its length and its text. -/
def Meets (p : Bytes) (num : ℤ) : Prop :=
  (∀ texts, IsParamList p texts → numParam (some p) = texts.length) ∧
    (0 < numParam (some p) → Agrees p num)

/-- Parameters are numbered from 1, and reading a backslash inside arrays as an ordinary
character finds the same text under the number. -/
def SameParam (p : Bytes) (num : ℤ) : Prop :=
  ∀ texts, IsParamList p texts →
    1 ≤ num ∧ ∀ text, Nth num.toNat p text ↔ texts[num.toNat - 1]? = some text

theorem numParam_of_isParamList {p : Bytes} {texts : List Bytes} (h : IsParamList p texts) :
  numParam (some p) = texts.length
  := by
  rw [numParam, numLoop_paramList h 0, Nat.zero_add]

theorem sameParam_of_agrees {p : Bytes} {num : ℤ} (h : 0 < numParam (some p) → Agrees p num) :
  SameParam p num
  := by
  intro texts htexts
  have hcount := numParam_of_isParamList htexts
  have hpos : 0 < texts.length := by
    cases htexts with
    | single _ => exact Nat.succ_pos _
    | more _ _ => exact Nat.succ_pos _
  have hagrees := h (hcount ▸ hpos)
  have hnum : 1 ≤ num := by
    refine not_lt.mp fun hlt => ?_
    have hfound : getParamDyn p num ≠ none := by
      rw [getParamDyn_of_lt hlt]
      exact Option.some_ne_none _
    have hone := (hagrees.found.mp hfound).1
    omega
  refine ⟨hnum, fun text => ⟨fun hnth => ?_, fun hget => ?_⟩⟩
  · exact hagrees.text texts htexts text ((getParamDyn_eq_some_iff hnum).mpr hnth)
  · obtain ⟨hlt, -⟩ := List.getElem?_eq_some_iff.mp hget
    have hfound := hagrees.found.mpr ⟨hnum, by omega⟩
    obtain ⟨text', hdyn⟩ := Option.ne_none_iff_exists'.mp hfound
    have htext := hagrees.text texts htexts text' hdyn
    rw [Option.some.inj (hget.symm.trans htext)]
    exact (getParamDyn_eq_some_iff hnum).mp hdyn

theorem agrees_of_sameParam {p : Bytes} {num : ℤ} (h : SameParam p num)
    (hpos : 0 < numParam (some p)) :
  Agrees p num
  := by
  obtain ⟨texts, htexts, hcount⟩ := (numParam_eq_iff p hpos).mp rfl
  obtain ⟨hnum, hsame⟩ := h texts htexts
  refine ⟨⟨texts, htexts, hcount⟩, ?_, ?_, fun _ _ hdyn => getParam_of_getParamDyn hdyn,
    fun _ _ _ => length_le_of_getParam⟩
  · rw [← hcount, Option.ne_none_iff_exists']
    constructor
    · rintro ⟨text, hdyn⟩
      obtain ⟨hlt, -⟩ :=
        List.getElem?_eq_some_iff.mp ((hsame text).mp ((getParamDyn_eq_some_iff hnum).mp hdyn))
      omega
    · rintro ⟨-, hle⟩
      have hlt : num.toNat - 1 < texts.length := by omega
      exact ⟨_, (getParamDyn_eq_some_iff hnum).mpr
        ((hsame _).mpr (List.getElem?_eq_getElem hlt))⟩
  · intro texts' htexts' text hdyn
    exact ((h texts' htexts').2 text).mp ((getParamDyn_eq_some_iff hnum).mp hdyn)

/-- The functions agree on a parameter exactly when it is the same in both readings. -/
theorem meets_iff (p : Bytes) (num : ℤ) :
  Meets p num ↔ SameParam p num
  := by
  constructor
  · rintro ⟨-, h⟩
    exact sameParam_of_agrees h
  · intro h
    exact ⟨fun _ => numParam_of_isParamList, agrees_of_sameParam h⟩

/-- An array of a single string with an escaped quote, `["a\"b"]`. -/
def escapedQuote : Bytes :=
  [leftBracket, quote, 97, backslash, quote, 98, quote, rightBracket]

theorem escapedQuote_isParamList :
  IsParamList escapedQuote [[quote, 97, backslash, quote, 98, quote]]
  := by
  have hinner : QuotedBody [97, backslash, quote, 98] :=
    .plain (by decide) (by simp [backslash])
      (.escaped (.plain (by decide) (by simp [backslash]) .nil))
  exact .single (.array 0 0 (.single (.quoted 0 0 hinner)))

/-- `num_param` counts one parameter, and `get_param_dyn` does not find it: the string ends at
the escaped quote and the syntax is incorrect. -/
theorem escapedQuote_not_meets :
  ¬ Meets escapedQuote 1
  := by
  intro h
  have hsame := sameParam_of_agrees h.2 _ escapedQuote_isParamList
  obtain ⟨rest, hscan⟩ := nth_one_iff.mp ((hsame.2 _).mpr rfl)
  have hnone : scan false .init 0 [] escapedQuote = none := by
    have hinner : QuotedAt false 1 [97, backslash] :=
      (quotedAt_succ _).mpr (by simp [Body, quote, backslash])
    refine scan_leftBracket.trans (scan_quote.trans ?_)
    have hbody : scan false .quoted 1 [quote] ([97, backslash] ++ quote :: [98, quote, rightBracket])
        = scanClosed false 1 _ _ := scan_quoted_body hinner
    exact hbody
  rw [hnone] at hscan
  contradiction

/-! ### Lists without escaped quotes in arrays -/

/-- The text between quotes in an array with no quote in it. -/
def Plain (body : Bytes) : Prop := QuotedBody body ∧ quote ∉ body

theorem Plain.body {body : Bytes} (h : Plain body) (escaped : Bool) :
  Body escaped body
  := by
  cases escaped with
  | false => exact h.2
  | true => exact h.1

section Plain

variable {body body' : Bytes → Prop}

theorem Form.mono (hbody : ∀ t, body t → body' t) {kind : ItemKey.Kind} {source text : Bytes}
    (h : Form body kind source text) :
  Form body' kind source text
  := by
  induction h with
  | empty n => exact .empty n
  | unquoted n hspace hquote hleft htext => exact .unquoted n hspace hquote hleft htext
  | quoted n m hinner => exact .quoted n m (hbody _ hinner)
  | array n m _ ih => exact .array n m ih
  | single _ ih => exact .single ih
  | more _ _ ih ih' => exact .more ih ih'

theorem Param.mono (hbody : ∀ t, body t → body' t) {source text : Bytes}
    (h : Param body source text) :
  Param body' source text
  := by
  cases h with
  | empty n => exact .empty n
  | unquoted n hspace hquote hleft htext => exact .unquoted n hspace hquote hleft htext
  | quoted n m hinner => exact .quoted n m hinner
  | array n m h => exact .array n m (h.mono hbody)

theorem ParamList.mono (hbody : ∀ t, body t → body' t) {p : Bytes} {texts : List Bytes}
    (h : ParamList body p texts) :
  ParamList body' p texts
  := by
  induction h with
  | single h => exact .single (h.mono hbody)
  | more h _ ih => exact .more (h.mono hbody) ih

theorem nth_iff_of_paramList {p : Bytes} {texts : List Bytes} (h : ParamList (Body false) p texts)
    (n : ℕ) (text : Bytes) :
  Nth (n + 1) p text ↔ texts[n]? = some text
  := by
  induction h generalizing n with
  | @single source text' h =>
    have hscan := scan_last h
    cases n with
    | zero => simp [nth_one_iff, hscan]
    | succ n => simp [nth_succ_iff, hscan]
  | @more source text' source' texts h _ ih =>
    have hscan := scan_more h source'
    cases n with
    | zero => simp [nth_one_iff, hscan]
    | succ n => simp [nth_succ_iff, hscan, ih]

theorem ParamList.exists_scan {escaped : Bool} {p : Bytes} {texts : List Bytes}
    (h : ParamList (Body escaped) p texts) :
  ∃ text rest, scan escaped .init 0 [] p = some (text, rest) ∧
    (rest = [] ∧ texts = [text] ∨ ∃ source texts', rest = comma :: source ∧
      ParamList (Body escaped) source texts' ∧ texts = text :: texts')
  := by
  cases h with
  | @single source text h =>
    have hscan := scan_last h
    exact ⟨text, [], hscan, .inl ⟨rfl, rfl⟩⟩
  | @more source text source' texts h h' =>
    exact ⟨text, comma :: source', scan_more h _, .inr ⟨source', texts, rfl, h', rfl⟩⟩

/-- A list has its texts once. -/
theorem IsParamList.unique {p : Bytes} {texts texts' : List Bytes} (h : IsParamList p texts)
    (h' : IsParamList p texts') :
  texts = texts'
  := by
  induction h generalizing texts' with
  | @single source text h =>
    have hscan := scan_last h
    obtain ⟨text', rest, hscan', ⟨rfl, rfl⟩ | ⟨source', texts'', rfl, -, -⟩⟩ := h'.exists_scan
    · rw [hscan] at hscan'
      obtain ⟨rfl, -⟩ := Prod.mk.inj (Option.some.inj hscan')
      rfl
    · rw [hscan] at hscan'
      exact absurd (congrArg Prod.snd (Option.some.inj hscan')) (by simp)
  | @more source text source' texts h _ ih =>
    have hscan := scan_more h source'
    obtain ⟨text', rest, hscan', ⟨rfl, rfl⟩ | ⟨source'', texts'', rfl, h'', rfl⟩⟩ :=
      h'.exists_scan
    · rw [hscan] at hscan'
      exact absurd (congrArg Prod.snd (Option.some.inj hscan')) (by simp)
    · rw [hscan] at hscan'
      obtain ⟨rfl, hrest⟩ := Prod.mk.inj (Option.some.inj hscan')
      rw [(List.cons.inj hrest).2] at ih
      rw [ih h'']

/-- Without escaped quotes in its arrays a list is the same in both readings. -/
theorem sameParam_of_plain {p : Bytes} {texts : List Bytes} (h : ParamList Plain p texts) {num : ℤ}
    (hnum : 1 ≤ num) :
  SameParam p num
  := by
  intro texts' htexts'
  obtain ⟨n, -, hn⟩ := exists_number hnum
  rw [htexts'.unique (h.mono fun _ hplain => hplain.body true), hn, Nat.add_sub_cancel]
  exact ⟨hnum, nth_iff_of_paramList (h.mono fun _ hplain => hplain.body false) n⟩

end Plain

end Params
