import Zabbix.Text.ItemKeySyntax

/-!
# The agreement of the two parsers

`parse_key` follows the grammar of parameters except in one place: behind an array that
ends a bracketed group it takes the closing bracket for the end of the key without
looking for another group, which it does behind quoted and unquoted parameters.
-/

open Ascii

namespace ItemKey

/-! ### `parse_key` on the grammar -/

section Parse

variable {k : ℕ} {c : UInt8} {rest : Bytes}

theorem parseParams_comma (array : ℕ) :
  parseParams .init array (comma :: rest) = parseParams .init array rest
  := by
  rw [parseParams]
  simp +decide

theorem parseParams_space (array : ℕ) :
  parseParams .init array (space :: rest) = parseParams .init array rest
  := by
  rw [parseParams]
  simp +decide

theorem parseParams_spaces (n array : ℕ) :
  parseParams .init array (spaces n ++ rest) = parseParams .init array rest
  := by
  induction n with
  | zero => rfl
  | succ n ih => exact (parseParams_space array).trans ih

/-- The end of the last group. -/
theorem parseParams_close (h : rest.head? ≠ some leftBracket) :
  parseParams .init 0 (rightBracket :: rest) = .succeed rest
  := by
  rw [parseParams]
  simp +decide [h]

/-- The start of the next group of a Zapcat key. -/
theorem parseParams_zapcat :
  parseParams .init 0 (rightBracket :: leftBracket :: rest) = parseParams .init 0 rest
  := by
  rw [parseParams]
  simp +decide

theorem parseParams_leftBracket (array : ℕ) :
  parseParams .init array (leftBracket :: rest) = parseParams .init (array + 1) rest
  := by
  rw [parseParams]
  simp +decide

theorem parseParams_other (array : ℕ) (hspace : c ≠ space) (hquote : c ≠ quote)
    (hleft : c ≠ leftBracket) (hdelim : ¬ IsDelimiter c) :
  parseParams .init array (c :: rest) = parseParams .unquoted array rest
  := by
  obtain ⟨hcomma, hright⟩ := not_or.mp hdelim
  rw [parseParams]
  simp [hspace, hquote, hleft, hcomma, hright]

/-- A round inside an unquoted parameter. -/
theorem parseParams_unquoted_cons (array : ℕ) :
  parseParams .unquoted array (c :: rest) =
    if array = 0 ∧ c = rightBracket ∧ rest.head? = some leftBracket then
      parseParams .init array (c :: rest)
    else if c = comma ∨ c = rightBracket ∧ array ≠ 0 then parseParams .init array (c :: rest)
    else if c = rightBracket then .succeed rest
    else parseParams .unquoted array rest
  := by
  conv_lhs => rw [parseParams]

theorem parseParams_unquoted {text : Bytes} (htext : ∀ b ∈ text, ¬ IsDelimiter b)
    (hc : IsDelimiter c) :
  parseParams .unquoted k (text ++ c :: rest) = parseParams .init k (c :: rest)
  := by
  induction text with
  | nil =>
    obtain rfl | rfl := hc
    · rw [List.nil_append, parseParams_unquoted_cons]
      simp
    · rw [List.nil_append, parseParams_unquoted_cons]
      by_cases hk : k = 0
      · subst hk
        by_cases hnext : rest.head? = some leftBracket
        · simp [hnext]
        · rw [parseParams_close hnext]
          simp [hnext]
      · simp [hk]
  | cons b text ih =>
    obtain ⟨hcomma, hright⟩ := not_or.mp (htext b List.mem_cons_self)
    rw [List.cons_append, parseParams_unquoted_cons]
    simpa [hcomma, hright] using ih fun b hb => htext b (List.mem_cons_of_mem _ hb)

theorem skipSpaces_spaces (n : ℕ) (hc : c ≠ space) :
  skipSpaces (spaces n ++ c :: rest) = c :: rest
  := by
  unfold skipSpaces
  rw [List.dropWhile_append]
  simp [hc]

theorem IsDelimiter.ne_space (h : IsDelimiter c) :
  c ≠ space
  := by
  obtain rfl | rfl := h <;> decide

/-- The closing quote of a parameter. -/
theorem parseParams_quote (m : ℕ) (hc : IsDelimiter c) :
  parseParams .quoted k (quote :: (spaces m ++ c :: rest)) = parseParams .init k (c :: rest)
  := by
  conv_lhs => rw [parseParams]
  simp only [if_true, skipSpaces_spaces m hc.ne_space, List.head?_cons, List.tail_cons]
  obtain rfl | rfl := hc
  · simp +decide
  · by_cases hk : k = 0
    · subst hk
      by_cases hnext : rest.head? = some leftBracket
      · simp [hnext]
      · rw [parseParams_close hnext]
        simp [hnext]
    · simp [hk]

theorem parseParams_quoted {body : Bytes} (h : QuotedBody body) :
  parseParams .quoted k (body ++ quote :: rest) = parseParams .quoted k (quote :: rest)
  := by
  induction h with
  | nil => rfl
  | escaped _ ih =>
    rw [List.cons_append, parseParams]
    simpa +decide using ih
  | @plain c body hc hslash _ ih =>
    rw [List.cons_append, parseParams, if_neg hc]
    by_cases hback : c = backslash
    · obtain ⟨d, rest', rfl, hd⟩ := hslash hback
      simpa [hd] using ih
    · simpa [hback] using ih

/-- Where parsing goes on behind a parameter, or a list of parameters: an array before a
closing bracket of the outermost level ends the key. -/
def behindForm (last : Bool) (k : ℕ) (c : UInt8) (rest : Bytes) : ParseResult :=
  if last = true ∧ k = 0 ∧ c = rightBracket then .succeed rest
  else parseParams .init k (c :: rest)

/-- The closing bracket of an array. -/
theorem parseParams_array (m : ℕ) (hc : IsDelimiter c) :
  parseParams .init (k + 1) (rightBracket :: (spaces m ++ c :: rest)) =
    behindForm true k c rest
  := by
  rw [parseParams]
  simp only [skipSpaces_spaces m hc.ne_space, behindForm, Nat.add_sub_cancel,
    List.head?_cons, List.tail_cons]
  obtain rfl | rfl := hc
  · simp +decide
  · by_cases hk : k = 0
    · simp +decide [hk]
    · simp +decide [hk]

theorem parseParams_form {kind : Kind} {last : Bool} {text : Bytes}
    (h : Form kind last text) (hc : IsDelimiter c) :
  parseParams .init k (text ++ c :: rest) = behindForm last k c rest
  := by
  induction h generalizing k c rest with
  | empty n =>
    rw [parseParams_spaces]
    rfl
  | @unquoted n b text hspace hquote hleft htext =>
    rw [List.append_assoc, parseParams_spaces, List.cons_append,
      parseParams_other k hspace hquote hleft (htext b List.mem_cons_self)]
    exact parseParams_unquoted (fun b hb => htext b (List.mem_cons_of_mem _ hb)) hc
  | @quoted n m body hbody =>
    have hopen : ∀ t : Bytes, parseParams .init k (quote :: t) = parseParams .quoted k t := by
      intro t
      rw [parseParams]
      simp +decide
    rw [List.append_assoc, parseParams_spaces, List.cons_append, hopen, List.append_assoc,
      List.cons_append, parseParams_quoted hbody]
    exact parseParams_quote m hc
  | @array n m last text _ ih =>
    have hinner : behindForm last (k + 1) rightBracket (spaces m ++ c :: rest) =
        parseParams .init (k + 1) (rightBracket :: (spaces m ++ c :: rest)) := by
      simp [behindForm]
    rw [List.append_assoc, parseParams_spaces, List.cons_append, parseParams_leftBracket,
      List.append_assoc, List.cons_append, ih (.inr rfl), hinner]
    exact parseParams_array m hc
  | single _ ih => exact ih hc
  | @more last last' text text' _ _ ih ih' =>
    have hcomma : behindForm last k comma (text' ++ c :: rest) =
        parseParams .init k (text' ++ c :: rest) := by
      simp +decide [behindForm, parseParams_comma]
    rw [List.append_assoc, List.cons_append, ih (.inl rfl), hcomma]
    exact ih' hc

end Parse

/-! ### Groups -/

/-- Behind the opening bracket of the first group, `parse_key` reads all groups when no
group but the last ends with an array. -/
theorem parseParams_groups {group : Group} {groups : List Group}
    (h : WellFormed (group :: groups)) (hlast : ∀ g ∈ (group :: groups).dropLast, g.1 = false) :
  parseParams .init 0 (group.2 ++ rightBracket :: groupsText groups) = .succeed []
  := by
  induction groups generalizing group with
  | nil =>
    rw [parseParams_form (h group List.mem_cons_self) (.inr rfl)]
    unfold behindForm
    split
    · rfl
    · exact parseParams_close (by simp [groupsText])
  | cons next groups ih =>
    have hgroup : group.1 = false := hlast group (by simp)
    rw [parseParams_form (h group List.mem_cons_self) (.inr rfl), groupsText_cons]
    simp only [behindForm, hgroup, Bool.false_eq_true, false_and, if_false]
    rw [parseParams_zapcat]
    apply ih (fun g hg => h g (List.mem_cons_of_mem _ hg))
    intro g hg
    apply hlast g
    rw [List.dropLast_cons_cons]
    exact List.mem_cons_of_mem _ hg

/-- Where a group before the last ends with an array, `parse_key` stops behind it. -/
theorem parseParams_early {group : Group} {groups : List Group}
    (h : WellFormed (group :: groups)) (hearly : ∃ g ∈ (group :: groups).dropLast, g.1 = true) :
  parseParams .init 0 (group.2 ++ rightBracket :: groupsText groups) ≠ .succeed []
  := by
  induction groups generalizing group with
  | nil => simp at hearly
  | cons next groups ih =>
    rw [parseParams_form (h group List.mem_cons_self) (.inr rfl), groupsText_cons]
    cases hgroup : group.1 with
    | true => simp [behindForm]
    | false =>
      simp only [behindForm, Bool.false_eq_true, false_and, if_false]
      rw [parseParams_zapcat]
      apply ih (fun g hg => h g (List.mem_cons_of_mem _ hg))
      obtain ⟨g, hg, htrue⟩ := hearly
      rw [List.dropLast_cons_cons] at hg
      obtain rfl | hg := List.mem_cons.mp hg
      · rw [hgroup] at htrue
        cases htrue
      · exact ⟨g, hg, htrue⟩

/-! ### What `parse_key` consumes, the scan accepts -/

/-- The state of the scan for a state of `parse_key`. -/
def scanState : ParamState → ParserState
  | .init => .new
  | .quoted => .quoted
  | .unquoted => .unquoted

theorem scan_ended_skipSpaces (k : ℕ) (e : Bool) (text : Bytes) :
  scan .ended (k + 1) e text = scan .ended (k + 1) false (skipSpaces text)
  := by
  obtain ⟨n, rest, rfl, hhead⟩ := exists_spaces text
  rw [scan_ended_spaces]
  congr 1
  cases rest with
  | nil => simp [skipSpaces]
  | cons c rest => rw [skipSpaces_spaces n (by simpa using hhead)]

/-- At a delimiter it does not matter whether there was a parameter. -/
theorem scan_new_of_head {k : ℕ} {text : Bytes}
    (h : text.head? = some comma ∨ text.head? = some rightBracket) :
  scan .new (k + 1) false text = scan .ended (k + 1) false text
  := by
  cases text with
  | nil => simp at h
  | cons c text =>
    apply scan_new_delimiter
    simpa [IsDelimiter] using h

theorem scan_quoted_of_head {k : ℕ} {e : Bool} {text : Bytes}
    (h : text.head? ≠ some quote) :
  scan .quoted (k + 1) e text = scan .quoted (k + 1) false text
  := by
  cases text with
  | nil => rfl
  | cons c text =>
    have hc : c ≠ quote := by simpa using h
    rw [scan_quoted_other hc, scan_quoted_other hc]

theorem head_of_not_wrong {array : ℕ} {next : Bytes}
    (h : ¬ (next.head? ≠ some comma ∧ ¬ (array ≠ 0 ∧ next.head? = some rightBracket))) :
  next.head? = some comma ∨ next.head? = some rightBracket
  := by
  by_cases hcomma : next.head? = some comma
  · exact .inl hcomma
  · right
    by_contra hright
    exact h ⟨hcomma, fun hboth => hright hboth.2⟩

theorem scan_of_closed {k : ℕ} {next : Bytes} (hhead : next.head? = some rightBracket)
    (htail : next.tail = []) (hk : k = 0) :
  scan .ended (k + 1) false next = true
  := by
  obtain ⟨rest, rfl⟩ := List.head?_eq_some_iff.mp hhead
  obtain rfl : rest = [] := htail
  subst hk
  rfl

/-- Where `parse_key` consumes the whole text, the scan accepts it. -/
theorem scan_of_parseParams {state : ParamState} {array : ℕ} {text : Bytes}
    (h : parseParams state array text = .succeed []) :
  scan (scanState state) (array + 1) false text = true
  := by
  fun_induction parseParams state array text with
  | case1 => cases h
  | case2 array rest ih =>
    exact (scan_new_delimiter (.inl rfl)).trans (scan_ended_comma.trans (ih h))
  | case3 array c rest _ hzapcat ih =>
    obtain ⟨rfl, hhead, rfl⟩ := hzapcat
    obtain ⟨rest, rfl⟩ := List.head?_eq_some_iff.mp hhead
    rw [scanState, scan_new_delimiter (.inr rfl), scan_ended_rightBracket,
      scan_outer_leftBracket]
    exact ih h
  | case4 array rest _ _ ih => exact scan_new_quote.trans (ih h)
  | case5 array rest _ _ _ ih => exact (scan_new_leftBracket array).trans (ih h)
  | case6 array c rest _ _ _ _ hclose array' next hend =>
    obtain ⟨rfl, hne⟩ := hclose
    obtain ⟨k, rfl⟩ := Nat.exists_eq_succ_of_ne_zero hne
    have hk : k = 0 := hend.1
    rw [scanState, scan_new_delimiter (.inr rfl), scan_ended_rightBracket,
      scan_ended_skipSpaces]
    exact scan_of_closed hend.2 (ParseResult.succeed.inj h) hk
  | case7 => cases h
  | case8 array c rest _ _ _ _ hclose array' next _ hright ih =>
    obtain ⟨rfl, hne⟩ := hclose
    obtain ⟨k, rfl⟩ := Nat.exists_eq_succ_of_ne_zero hne
    have hnext := scan_new_of_head (k := k) (head_of_not_wrong hright)
    rw [scanState, scan_new_delimiter (.inr rfl), scan_ended_rightBracket,
      scan_ended_skipSpaces, ← hnext]
    exact ih h
  | case9 array rest _ _ _ _ hnot =>
    obtain rfl : rest = [] := ParseResult.succeed.inj h
    obtain rfl : array = 0 := by
      by_contra hne
      exact hnot ⟨rfl, hne⟩
    rfl
  | case10 array c rest hcomma _ hquote hleft _ hright hspace ih =>
    have hdelim : ¬ IsDelimiter c := not_or.mpr ⟨hcomma, hright⟩
    exact (scan_new_other hspace hquote hleft hdelim).trans (ih h)
  | case11 array c rest _ _ _ _ _ _ hspace ih =>
    obtain rfl : c = space := not_not.mp hspace
    exact scan_new_space.trans (ih h)
  | case12 array rest next hzapcat ih =>
    have hnext := scan_new_of_head (k := array) (.inr hzapcat.2.1)
    rw [scanState, scan_quoted_close, scan_ended_skipSpaces, ← hnext]
    exact ih h
  | case13 array rest next _ hend =>
    rw [scanState, scan_quoted_close, scan_ended_skipSpaces]
    exact scan_of_closed hend.2 (ParseResult.succeed.inj h) hend.1
  | case14 => cases h
  | case15 array rest next _ _ hright ih =>
    have hnext := scan_new_of_head (k := array) (head_of_not_wrong hright)
    rw [scanState, scan_quoted_close, scan_ended_skipSpaces, ← hnext]
    exact ih h
  | case16 array c rest hquote hescaped ih =>
    obtain ⟨rfl, hhead⟩ := hescaped
    obtain ⟨rest, rfl⟩ := List.head?_eq_some_iff.mp hhead
    rw [scanState, scan_quoted_other hquote]
    exact scan_quoted_escaped.trans (ih h)
  | case17 array c rest hquote hplain ih =>
    rw [scanState, scan_quoted_other hquote]
    by_cases hback : c = backslash
    · rw [scan_quoted_of_head fun hhead => hplain ⟨hback, hhead⟩]
      exact ih h
    · rw [decide_eq_false hback]
      exact ih h
  | case18 array c rest hzapcat ih =>
    have hdelim : IsDelimiter c := .inr hzapcat.2.1
    rw [scanState, scan_unquoted_delimiter hdelim, ← scan_new_delimiter (e := false) hdelim]
    exact ih h
  | case19 array c rest _ hend ih =>
    have hdelim : IsDelimiter c := hend.imp_right And.left
    rw [scanState, scan_unquoted_delimiter hdelim, ← scan_new_delimiter (e := false) hdelim]
    exact ih h
  | case20 array rest _ hnot =>
    obtain rfl : rest = [] := ParseResult.succeed.inj h
    obtain rfl : array = 0 := by
      by_contra hne
      exact hnot (.inr ⟨rfl, hne⟩)
    rfl
  | case21 array c rest _ hnot hright ih =>
    have hdelim : ¬ IsDelimiter c := by
      rintro (hc | hc)
      · exact hnot (.inl hc)
      · exact hright hc
    exact (scan_unquoted_other hdelim).trans (ih h)

/-! ### The keys on which the parsers agree -/

/-- The text is a key with a group that ends with an array and is followed by another
group. -/
def ArrayBeforeGroup (key : Bytes) : Prop :=
  ∃ groups, WellFormed groups ∧ key.dropWhile isKeyChar = groupsText groups ∧
    ∃ group ∈ groups.dropLast, group.1 = true

/-- `parse_key` succeeds at the end of the text. -/
def ParsesWhole (key : Bytes) : Prop := parseKey key = .succeed []

theorem parsesWhole_iff {key : Bytes} :
  ParsesWhole key ↔ key.dropWhile isKeyChar = [] ∨
    ∃ rest, key.dropWhile isKeyChar = leftBracket :: rest ∧
      parseParams .init 0 rest = .succeed []
  := by
  unfold ParsesWhole parseKey
  cases hrest : key.dropWhile isKeyChar with
  | nil => simp
  | cons c rest =>
    by_cases hparen : c = leftParen
    · subst hparen
      have hlen : (key.takeWhile isKeyChar).length + (rest.length + 1) = key.length := by
        have happend := congrArg List.length
          (List.takeWhile_append_dropWhile (p := isKeyChar) (l := key))
        rw [hrest] at happend
        simpa using happend
      simp only [if_true, reduceCtorEq, false_or]
      constructor
      · intro h
        split at h
        · cases h
        · have hdrop := List.drop_eq_nil_iff.mp (ParseResult.succeed.inj h)
          omega
      · rintro ⟨_, heq, _⟩
        exact absurd (List.cons.inj heq).1 (by decide)
    · by_cases hleft : c = leftBracket
      · subst hleft
        simp [hparen]
      · simp [hparen, hleft]

theorem parsesWhole_groups {key : Bytes} {groups : List Group} (h : WellFormed groups)
    (hkey : key.dropWhile isKeyChar = groupsText groups) :
  ParsesWhole key ↔ ∀ group ∈ groups.dropLast, group.1 = false
  := by
  rw [parsesWhole_iff, hkey]
  cases groups with
  | nil => simp [groupsText]
  | cons group groups =>
    rw [groupsText_cons]
    simp only [reduceCtorEq, false_or, List.cons.injEq, true_and, exists_eq_left']
    constructor
    · intro hparse
      by_contra hex
      push Not at hex
      obtain ⟨g, hg, htrue⟩ := hex
      exact parseParams_early h ⟨g, hg, by simpa using htrue⟩ hparse
    · exact parseParams_groups h

theorem scan_of_parsesWhole {key : Bytes} (h : ParsesWhole key) :
  scan .ended 0 false (key.dropWhile isKeyChar) = true
  := by
  obtain hnil | ⟨rest, hrest, hparse⟩ := parsesWhole_iff.mp h
  · rw [hnil]
    rfl
  · rw [hrest, scan_outer_leftBracket]
    exact scan_of_parseParams hparse

/-- The two parsers agree on a text that starts with a key name, and the unchanging
callback changes nothing, exactly when no group of a key that ends with an array is
followed by another group. -/
theorem parsers_agree_iff (key : Bytes) (hname : key.takeWhile isKeyChar ≠ []) :
  ((ParsesWhole key ↔ (replaceKeyParamsDyn key .item unchanged).success = true) ∧
    ((replaceKeyParamsDyn key .item unchanged).success = true →
      (replaceKeyParamsDyn key .item unchanged).data = key)) ↔
    ¬ ArrayBeforeGroup key
  := by
  obtain ⟨hdata, hsuccess⟩ := replaceKeyParamsDyn_unchanged hname
  rw [hsuccess]
  constructor
  · rintro ⟨hagree, -⟩ ⟨groups, hgroups, hkey, group, hgroup, htrue⟩
    have hwhole : ParsesWhole key := hagree.mpr (by rw [hkey]; exact scan_groups hgroups)
    have hfalse := (parsesWhole_groups hgroups hkey).mp hwhole group hgroup
    rw [htrue] at hfalse
    cases hfalse
  · intro hnone
    refine ⟨⟨scan_of_parsesWhole, fun hscan => ?_⟩, fun _ => hdata⟩
    obtain ⟨groups, hgroups, hkey⟩ := (scan_iff _).mp hscan
    apply (parsesWhole_groups hgroups hkey).mpr
    intro group hgroup
    by_contra htrue
    exact hnone ⟨groups, hgroups, hkey, group, hgroup, by simpa using htrue⟩

/-- `k[[a]][b]`. -/
def nestedKey : Bytes := bytes ['k', '[', '[', 'a', ']', ']', '[', 'b', ']']

theorem nestedKey_disagree :
  nestedKey.takeWhile isKeyChar ≠ [] ∧
    ¬ (ParsesWhole nestedKey ↔
      (replaceKeyParamsDyn nestedKey .item unchanged).success = true)
  := by
  have hparse : parseKey nestedKey = .succeed (bytes ['[', 'b', ']']) := by decide +kernel
  have hreplace : (replaceKeyParamsDyn nestedKey .item unchanged).success = true := by
    decide +kernel
  refine ⟨by decide +kernel, fun hagree => ?_⟩
  have hwhole := hagree.mpr hreplace
  rw [ParsesWhole, hparse] at hwhole
  cases hwhole

/-- `k["a"][b,[c]]`. -/
def zapcatKey : Bytes :=
  bytes ['k', '[', '"', 'a', '"', ']', '[', 'b', ',', '[', 'c', ']', ']']

theorem zapcatKey_agree :
  ParsesWhole zapcatKey ∧ ¬ ArrayBeforeGroup zapcatKey
  := by
  have hparse : ParsesWhole zapcatKey := by
    unfold ParsesWhole
    decide +kernel
  have hreplace : replaceKeyParamsDyn zapcatKey .item unchanged =
      { data := zapcatKey, position := 13, success := true } := by decide +kernel
  refine ⟨hparse, (parsers_agree_iff zapcatKey (by decide +kernel)).mp ?_⟩
  rw [hreplace]
  exact ⟨⟨fun _ => rfl, fun _ => hparse⟩, fun _ => rfl⟩

end ItemKey
