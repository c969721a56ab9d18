import Zabbix.Text.ItemKeySyntax
import Zabbix.Text.Params

/-!
# The syntax of parameter lists

A grammar of parameters with the texts they stand for, and a scan of a single parameter that
makes the rounds of the loops. Inside arrays a backslash escapes a quote in one reading and is an
ordinary character in another; the scan is exact for both.
-/

open Ascii

namespace Params

open ItemKey (ParamState QuotedBody Kind spaces IsDelimiter exists_spaces skipSpaces)

/-! ### The grammar -/

/-- The text between quotes with the backslashes of the escaped quotes left out. -/
def unescape : Bytes → Bytes
  | [] => []
  | [c] => [c]
  | c :: d :: body =>
    if c = backslash ∧ d = quote then quote :: unescape body else c :: unescape (d :: body)

/-- The text between quotes in an array. A quote in it follows a backslash, or there is none. -/
def Body (escaped : Bool) (body : Bytes) : Prop := if escaped then QuotedBody body else quote ∉ body

/-- The parameters of arrays with the texts they stand for. Spaces around a parameter are left
out, and quotes and brackets are not. -/
inductive Form (body : Bytes → Prop) : Kind → Bytes → Bytes → Prop
  | empty (n : ℕ) : Form body .param (spaces n) []
  | unquoted (n : ℕ) {c : UInt8} {text : Bytes} (hspace : c ≠ space) (hquote : c ≠ quote)
    (hleft : c ≠ leftBracket) (htext : ∀ b ∈ c :: text, ¬ IsDelimiter b) :
    Form body .param (spaces n ++ c :: text) (c :: text)
  | quoted (n m : ℕ) {inner : Bytes} (hinner : body inner) :
    Form body .param (spaces n ++ quote :: (inner ++ quote :: spaces m))
      (quote :: (inner ++ [quote]))
  | array (n m : ℕ) {source text : Bytes} (h : Form body .params source text) :
    Form body .param (spaces n ++ leftBracket :: (source ++ rightBracket :: spaces m))
      (leftBracket :: (text ++ [rightBracket]))
  | single {source text : Bytes} (h : Form body .param source text) :
    Form body .params source text
  | more {source source' text text' : Bytes} (h : Form body .param source text)
    (h' : Form body .params source' text') :
    Form body .params (source ++ comma :: source') (text ++ comma :: text')

/-- A parameter of a list with the text it stands for. -/
inductive Param (body : Bytes → Prop) : Bytes → Bytes → Prop
  | empty (n : ℕ) : Param body (spaces n) []
  | unquoted (n : ℕ) {c : UInt8} {text : Bytes} (hspace : c ≠ space) (hquote : c ≠ quote)
    (hleft : c ≠ leftBracket) (htext : comma ∉ c :: text) :
    Param body (spaces n ++ c :: text) (c :: text)
  | quoted (n m : ℕ) {inner : Bytes} (hinner : QuotedBody inner) :
    Param body (spaces n ++ quote :: (inner ++ quote :: spaces m)) (unescape inner)
  | array (n m : ℕ) {source text : Bytes} (h : Form body .params source text) :
    Param body (spaces n ++ leftBracket :: (source ++ rightBracket :: spaces m)) text

/-! ### The scan -/

/-- What a round adds to the text of a parameter. In an array the backslash in front of an
escaped quote is not left out. -/
def shown (array : ℕ) (c : UInt8) (r : Round) : Bytes :=
  if array ≠ 0 ∧ c = backslash ∧ r.kept = some quote then [backslash, quote] else r.kept.toList

/-- The rounds up to the end of a parameter: its text, and what follows it. -/
def scan (escaped : Bool) (state : ParamState) (array : ℕ) (buf : Bytes) :
    Bytes → Option (Bytes × Bytes)
  | [] => if state = .quoted ∨ array ≠ 0 then none else some (buf, [])
  | c :: p =>
    match _h : round (fun array => escaped || array = 0) state array c p with
    | none => none
    | some r =>
      if r.separator then some (buf, c :: p)
      else scan escaped r.state r.array (buf ++ shown array c r) r.rest
  termination_by p => measure state p
  decreasing_by exact round_measure _h

/-- A parameter ends with the list, at a comma or, in an array, at a bracket. -/
def Ends (array : ℕ) (rest : Bytes) : Prop :=
  rest.head? = some comma ∨ rest = [] ∨ array ≠ 0 ∧ rest.head? = some rightBracket

section Rounds

variable {escaped : Bool} {array : ℕ} {buf rest : Bytes} {c : UInt8}

theorem scan_round {state : ParamState} {r : Round}
    (h : round (fun array => escaped || array = 0) state array c rest = some r) :
  scan escaped state array buf (c :: rest)
    = if r.separator then some (buf, c :: rest)
      else scan escaped r.state r.array (buf ++ shown array c r) r.rest
  := by
  rw [scan]
  split
  · rename_i hnone
    rw [hnone] at h
    contradiction
  · rename_i r' hr
    rw [Option.some.inj (h.symm.trans hr)]

theorem scan_none {state : ParamState}
    (h : round (fun array => escaped || array = 0) state array c rest = none) :
  scan escaped state array buf (c :: rest) = none
  := by
  rw [scan]
  split
  · rfl
  · rename_i r' hr
    rw [hr] at h
    contradiction

/-- A round that adds the character it keeps. -/
theorem scan_step {state : ParamState} {r : Round}
    (h : round (fun array => escaped || array = 0) state array c rest = some r)
    (hseparator : r.separator = false) (hkept : c ≠ backslash ∨ r.kept ≠ some quote) :
  scan escaped state array buf (c :: rest)
    = scan escaped r.state r.array (buf ++ r.kept.toList) r.rest
  := by
  have hshown : shown array c r = r.kept.toList := by
    refine if_neg ?_
    rintro ⟨-, hc, hquote⟩
    obtain hne | hne := hkept
    · exact hne hc
    · exact hne hquote
  rw [scan_round h, hseparator, hshown]
  rfl

theorem scan_separator :
  scan escaped .init 0 buf (comma :: rest) = some (buf, comma :: rest)
  := by
  rw [scan_round (r := ⟨.init, 0, true, none, rest⟩) rfl]
  rfl

theorem scan_comma :
  scan escaped .init (array + 1) buf (comma :: rest)
    = scan escaped .init (array + 1) (buf ++ [comma]) rest
  := scan_step (r := ⟨.init, array + 1, false, some comma, rest⟩) rfl rfl (.inl (by decide))

theorem scan_space :
  scan escaped .init array buf (space :: rest) = scan escaped .init array buf rest
  := by
  rw [scan_step (r := ⟨.init, array, false, none, rest⟩) rfl rfl (.inl (by decide))]
  rw [Option.toList_none, List.append_nil]

theorem scan_spaces (n : ℕ) :
  scan escaped .init array buf (spaces n ++ rest) = scan escaped .init array buf rest
  := by
  induction n with
  | zero => rfl
  | succ n ih => exact scan_space.trans ih

theorem scan_quote :
  scan escaped .init array buf (quote :: rest)
    = scan escaped .quoted array (buf ++ (inArray array quote).toList) rest
  := scan_step (r := ⟨.quoted, array, false, inArray array quote, rest⟩) rfl rfl
    (.inl (by decide))

theorem scan_leftBracket :
  scan escaped .init array buf (leftBracket :: rest)
    = scan escaped .init (array + 1) (buf ++ (inArray array leftBracket).toList) rest
  := scan_step (r := ⟨.init, array + 1, false, inArray array leftBracket, rest⟩) rfl rfl
    (.inl (by decide))

theorem scan_other (hspace : c ≠ space) (hquote : c ≠ quote) (hleft : c ≠ leftBracket)
    (hcomma : c ≠ comma) (hright : ¬ (c = rightBracket ∧ array ≠ 0)) :
  scan escaped .init array buf (c :: rest) = scan escaped .unquoted array (buf ++ [c]) rest
  := by
  refine scan_step (r := ⟨.unquoted, array, false, some c, rest⟩) ?_ rfl
    (.inr fun heq => hquote (Option.some.inj heq))
  rw [round]
  simp only [if_neg hcomma, if_neg hquote, if_neg hleft, if_neg hright, if_pos hspace]

theorem scan_unquoted_delimiter (h : c = comma ∨ c = rightBracket ∧ array ≠ 0) :
  scan escaped .unquoted array buf (c :: rest) = scan escaped .init array buf (c :: rest)
  := by
  have hround : round (fun array => escaped || array = 0) .unquoted array c rest
      = some ⟨.init, array, false, none, c :: rest⟩ := if_pos h
  have hslash : c ≠ backslash := by
    obtain rfl | ⟨rfl, -⟩ := h
    · decide
    · decide
  rw [scan_step hround rfl (.inl hslash), Option.toList_none, List.append_nil]

theorem scan_unquoted_other (h : ¬ (c = comma ∨ c = rightBracket ∧ array ≠ 0)) :
  scan escaped .unquoted array buf (c :: rest) = scan escaped .unquoted array (buf ++ [c]) rest
  := by
  have hround : round (fun array => escaped || array = 0) .unquoted array c rest
      = some ⟨.unquoted, array, false, some c, rest⟩ := if_neg h
  refine scan_step hround rfl ?_
  by_cases hslash : c = backslash
  · rw [hslash]
    exact .inr (show some backslash ≠ some quote by decide)
  · exact .inl hslash

/-! ### Quotes and brackets that close -/

/-- The rounds behind a quote or a bracket that closes. -/
def scanClosed (escaped : Bool) (array : ℕ) (buf rest : Bytes) : Option (Bytes × Bytes) :=
  match closed array none rest with
  | none => none
  | some r => scan escaped .init array buf r.rest

theorem scan_closed {state : ParamState} {array' : ℕ} {kept : Option UInt8}
    (h : round (fun array => escaped || array = 0) state array' c rest = closed array kept rest)
    (hc : c ≠ backslash) :
  scan escaped state array' buf (c :: rest)
    = scanClosed escaped array (buf ++ kept.toList) rest
  := by
  rw [scanClosed]
  simp only [closed] at h ⊢
  split_ifs at h ⊢ with hwrong
  · exact scan_none h
  · exact scan_step h rfl (.inl hc)

theorem scan_rightBracket :
  scan escaped .init (array + 1) buf (rightBracket :: rest)
    = scanClosed escaped array (buf ++ (inArray array rightBracket).toList) rest
  := scan_closed rfl (by decide)

theorem scan_quoted_close :
  scan escaped .quoted array buf (quote :: rest)
    = scanClosed escaped array (buf ++ (inArray array quote).toList) rest
  := scan_closed rfl (by decide)

theorem skipSpaces_spaces (n : ℕ) (h : rest.head? ≠ some space) :
  skipSpaces (spaces n ++ rest) = rest
  := by
  rw [skipSpaces, List.dropWhile_append_of_pos (by simp)]
  cases rest with
  | nil => rfl
  | cons c rest => exact List.dropWhile_cons_of_neg (by simpa using h)

theorem Ends.head?_ne_space (h : Ends array rest) :
  rest.head? ≠ some space
  := by
  obtain h | rfl | ⟨-, h⟩ := h
  · rw [h]
    decide
  · simp
  · rw [h]
    decide

theorem scanClosed_spaces (m : ℕ) (h : Ends array rest) :
  scanClosed escaped array buf (spaces m ++ rest) = scan escaped .init array buf rest
  := by
  rw [scanClosed]
  simp only [closed, skipSpaces_spaces m h.head?_ne_space]
  rw [if_neg]
  rintro ⟨hcomma, hne, hright⟩
  obtain h | h | h := h
  · exact hcomma h
  · exact hne h
  · exact hright h

/-- Behind a quote or a bracket that closes there are spaces, and then the parameter ends. -/
theorem scanClosed_sound {result : Bytes × Bytes}
    (h : scanClosed escaped array buf rest = some result) :
  ∃ m next, rest = spaces m ++ next ∧ Ends array next ∧
    scan escaped .init array buf next = some result
  := by
  obtain ⟨m, next, rfl, hhead⟩ := exists_spaces rest
  rw [scanClosed] at h
  simp only [closed, skipSpaces_spaces m hhead] at h
  refine ⟨m, next, rfl, ?_, ?_⟩
  · by_contra hends
    rw [Ends, not_or, not_or] at hends
    rw [if_pos hends] at h
    contradiction
  · split at h
    · contradiction
    · rename_i r hr
      split_ifs at hr
      rwa [← Option.some.inj hr] at h

/-! ### Quoted text -/

theorem scan_quoted_other (hquote : c ≠ quote)
    (hslash : ¬ (c = backslash ∧ rest.head? = some quote ∧ (escaped || array = 0) = true)) :
  scan escaped .quoted array buf (c :: rest) = scan escaped .quoted array (buf ++ [c]) rest
  := by
  have hround : round (fun array => escaped || array = 0) .quoted array c rest
      = some ⟨.quoted, array, false, some c, rest⟩ := by
    rw [round]
    simp only [if_neg hquote, if_neg hslash]
  exact scan_step hround rfl (.inr fun heq => hquote (Option.some.inj heq))

theorem scan_quoted_escaped (h : (escaped || array = 0) = true) :
  scan escaped .quoted array buf (backslash :: quote :: rest)
    = scan escaped .quoted array
        (buf ++ if array = 0 then [quote] else [backslash, quote]) rest
  := by
  have hround : round (fun array => escaped || array = 0) .quoted array backslash (quote :: rest)
      = some ⟨.quoted, array, false, some quote, rest⟩ := by
    rw [round, if_neg (by decide), if_pos ⟨rfl, rfl, h⟩]
    rfl
  rw [scan_round hround]
  by_cases harray : array = 0
  · simp [shown, harray]
  · simp [shown, harray]

/-- What is shown of a text between quotes. -/
def shownBody (array : ℕ) (body : Bytes) : Bytes :=
  if array = 0 then unescape body else body ++ [quote]

theorem unescape_cons (h : ¬ (c = backslash ∧ rest.head? = some quote)) :
  unescape (c :: rest) = c :: unescape rest
  := by
  cases rest with
  | nil => rfl
  | cons d rest =>
    rw [unescape, if_neg]
    rintro ⟨hc, hd⟩
    exact h ⟨hc, by rw [hd]; rfl⟩

theorem shownBody_cons (h : ¬ (c = backslash ∧ rest.head? = some quote ∧ array = 0)) :
  shownBody array (c :: rest) = c :: shownBody array rest
  := by
  unfold shownBody
  split_ifs with harray
  · exact unescape_cons fun hboth => h ⟨hboth.1, hboth.2, harray⟩
  · rfl

theorem shownBody_nil :
  shownBody array [] = (inArray array quote).toList
  := by
  unfold shownBody inArray
  split_ifs <;> rfl

theorem shownBody_escaped (body : Bytes) :
  shownBody array (backslash :: quote :: body)
    = (if array = 0 then [quote] else [backslash, quote]) ++ shownBody array body
  := by
  unfold shownBody
  split_ifs
  · rfl
  · rfl

/-- The texts between quotes at a level. -/
def QuotedAt (escaped : Bool) (array : ℕ) (body : Bytes) : Prop :=
  Body (escaped || array = 0) body

theorem scan_quoted_body {body : Bytes} (h : QuotedAt escaped array body) :
  scan escaped .quoted array buf (body ++ quote :: rest)
    = scanClosed escaped array (buf ++ shownBody array body) rest
  := by
  cases hesc : (escaped || array = 0) with
  | false =>
    have hplain : quote ∉ body := by
      simpa [QuotedAt, Body, hesc] using h
    have harray : ¬ array = 0 := by
      rintro rfl
      simp at hesc
    induction body generalizing buf with
    | nil => rw [List.nil_append, scan_quoted_close, shownBody_nil]
    | cons c body ih =>
      rw [List.mem_cons, not_or] at hplain
      rw [List.cons_append, scan_quoted_other (Ne.symm hplain.1) (by simp [hesc]),
        ih (by simpa [QuotedAt, Body, hesc] using hplain.2) hplain.2,
        shownBody_cons (fun hall => harray hall.2.2), List.append_assoc, List.singleton_append]
  | true =>
    have hquoted : QuotedBody body := by
      simpa [QuotedAt, Body, hesc] using h
    clear h
    induction hquoted generalizing buf with
    | nil => rw [List.nil_append, scan_quoted_close, shownBody_nil]
    | @escaped body _ ih =>
      rw [List.cons_append, List.cons_append, scan_quoted_escaped hesc, ih, shownBody_escaped,
        List.append_assoc]
    | @plain c body hc hslash _ ih =>
      have hhead : ¬ (c = backslash ∧ (body ++ quote :: rest).head? = some quote) := by
        rintro ⟨hback, hhead⟩
        obtain ⟨d, rest', rfl, hd⟩ := hslash hback
        exact hd (Option.some.inj hhead)
      have hhead' : ¬ (c = backslash ∧ body.head? = some quote) := by
        rintro ⟨hback, hhead'⟩
        obtain ⟨d, rest', rfl, hd⟩ := hslash hback
        exact hd (Option.some.inj hhead')
      rw [List.cons_append, scan_quoted_other hc (fun hall => hhead ⟨hall.1, hall.2.1⟩), ih,
        shownBody_cons (fun hall => hhead' ⟨hall.1, hall.2.1⟩), List.append_assoc,
        List.singleton_append]

theorem scan_quoted_nil :
  scan escaped .quoted array buf [] = none
  := by
  rw [scan]
  exact if_pos (.inl rfl)

theorem scan_quoted_sound (n : ℕ) :
  ∀ (text buf : Bytes), text.length ≤ n → ∀ {result},
    scan escaped .quoted array buf text = some result →
    ∃ body rest, text = body ++ quote :: rest ∧ QuotedAt escaped array body ∧
      scanClosed escaped array (buf ++ shownBody array body) rest = some result
  := by
  induction n with
  | zero =>
    intro text buf hlen result h
    rw [List.length_eq_zero_iff.mp (Nat.le_zero.mp hlen), scan_quoted_nil] at h
    contradiction
  | succ n ih =>
    intro text buf hlen result h
    cases text with
    | nil =>
      rw [scan_quoted_nil] at h
      contradiction
    | cons c text =>
      have hlen' : text.length ≤ n := by simpa using hlen
      by_cases hquote : c = quote
      · subst hquote
        rw [scan_quoted_close] at h
        refine ⟨[], text, rfl, ?_, by rwa [shownBody_nil]⟩
        unfold QuotedAt Body
        split_ifs
        · exact .nil
        · simp
      by_cases hslash : c = backslash ∧ text.head? = some quote ∧ (escaped || array = 0) = true
      · obtain ⟨rfl, hhead, hesc⟩ := hslash
        obtain ⟨text, rfl⟩ := List.head?_eq_some_iff.mp hhead
        rw [scan_quoted_escaped hesc] at h
        obtain ⟨body, rest, rfl, hbody, hrest⟩ :=
          ih text _ (Nat.le_of_succ_le (by simpa using hlen')) h
        refine ⟨backslash :: quote :: body, rest, rfl, ?_, ?_⟩
        · simp only [QuotedAt, Body, hesc, if_true] at hbody ⊢
          exact .escaped hbody
        · rwa [shownBody_escaped, ← List.append_assoc]
      · rw [scan_quoted_other hquote hslash] at h
        obtain ⟨body, rest, rfl, hbody, hrest⟩ := ih text _ hlen' h
        have hhead : body.head? = some quote → (body ++ quote :: rest).head? = some quote := by
          cases body with
          | nil => exact fun _ => rfl
          | cons b body => exact id
        refine ⟨c :: body, rest, rfl, ?_, ?_⟩
        · unfold QuotedAt Body at hbody ⊢
          split_ifs at hbody ⊢ with hesc
          · refine .plain hquote (fun hc => ?_) hbody
            cases body with
            | nil => exact absurd ⟨hc, rfl, hesc⟩ hslash
            | cons d body =>
              exact ⟨d, body, rfl, fun hd => hslash ⟨hc, by rw [hd]; rfl, hesc⟩⟩
          · rw [List.mem_cons, not_or]
            exact ⟨Ne.symm hquote, hbody⟩
        · rw [shownBody_cons, ← List.singleton_append, ← List.append_assoc]
          · exact hrest
          · rintro ⟨hc, hbodyhead, harray⟩
            exact hslash ⟨hc, hhead hbodyhead, by simp [harray]⟩

end Rounds

/-! ### The scan accepts the grammar -/

section Accept

variable {escaped : Bool} {array : ℕ} {buf rest : Bytes} {c : UInt8}

theorem scan_unquoted_ends (h : Ends array rest) :
  scan escaped .unquoted array buf rest = scan escaped .init array buf rest
  := by
  cases rest with
  | nil =>
    rw [scan, scan]
    simp
  | cons c rest =>
    refine scan_unquoted_delimiter ?_
    obtain h | h | ⟨harray, h⟩ := h
    · exact .inl (Option.some.inj h)
    · contradiction
    · exact .inr ⟨Option.some.inj h, harray⟩

theorem scan_unquoted_text {text : Bytes}
    (htext : ∀ b ∈ text, ¬ (b = comma ∨ b = rightBracket ∧ array ≠ 0)) (h : Ends array rest) :
  scan escaped .unquoted array buf (text ++ rest) = scan escaped .init array (buf ++ text) rest
  := by
  induction text generalizing buf with
  | nil => rw [List.nil_append, List.append_nil, scan_unquoted_ends h]
  | cons b text ih =>
    rw [List.forall_mem_cons] at htext
    rw [List.cons_append, scan_unquoted_other htext.1, ih htext.2, List.append_assoc,
      List.singleton_append]

theorem Ends.of_isDelimiter (hc : IsDelimiter c) (rest : Bytes) :
  Ends (array + 1) (c :: rest)
  := by
  obtain rfl | rfl := hc
  · exact .inl rfl
  · exact .inr (.inr ⟨Nat.succ_ne_zero array, rfl⟩)

theorem quotedAt_succ (body : Bytes) :
  QuotedAt escaped (array + 1) body ↔ Body escaped body
  := by
  simp [QuotedAt]

theorem quotedAt_zero (body : Bytes) :
  QuotedAt escaped 0 body ↔ QuotedBody body
  := by
  simp [QuotedAt, Body]

/-- Over a parameter of an array, or a list of them, the scan stays at its level. -/
theorem scan_form {kind : Kind} {source text : Bytes} (h : Form (Body escaped) kind source text)
    (hc : IsDelimiter c) :
  scan escaped .init (array + 1) buf (source ++ c :: rest)
    = scan escaped .init (array + 1) (buf ++ text) (c :: rest)
  := by
  induction h generalizing array buf c rest with
  | empty n => rw [scan_spaces, List.append_nil]
  | @unquoted n b text hspace hquote hleft htext =>
    rw [List.forall_mem_cons] at htext
    have hother : ∀ d, ¬ IsDelimiter d → ¬ (d = comma ∨ d = rightBracket ∧ array + 1 ≠ 0) :=
      fun d hd hdelim => hd (hdelim.imp_right And.left)
    obtain ⟨hcomma, hright⟩ := not_or.mp htext.1
    rw [List.append_assoc, scan_spaces, List.cons_append,
      scan_other hspace hquote hleft hcomma (fun hboth => hright hboth.1),
      scan_unquoted_text (fun d hd => hother d (htext.2 d hd)) (.of_isDelimiter hc rest),
      List.append_assoc, List.singleton_append]
  | @quoted n m inner hinner =>
    rw [List.append_assoc, scan_spaces, List.cons_append, scan_quote, List.append_assoc,
      List.cons_append, scan_quoted_body ((quotedAt_succ inner).mpr hinner),
      scanClosed_spaces m (.of_isDelimiter hc rest)]
    simp [inArray, shownBody]
  | @array n m source text _ ih =>
    rw [List.append_assoc, scan_spaces, List.cons_append, scan_leftBracket, List.append_assoc,
      List.cons_append, ih (.inr rfl), scan_rightBracket,
      scanClosed_spaces m (.of_isDelimiter hc rest)]
    simp [inArray]
  | single _ ih => exact ih hc
  | @more source source' text text' _ _ ih ih' =>
    rw [List.append_assoc, List.cons_append, ih (.inl rfl), scan_comma, ih' hc]
    simp

theorem scan_ends (h : Ends 0 rest) :
  scan escaped .init 0 buf rest = some (buf, rest)
  := by
  cases rest with
  | nil =>
    rw [scan]
    simp
  | cons c rest =>
    obtain h | h | ⟨harray, -⟩ := h
    · rw [Option.some.inj h]
      exact scan_separator
    · contradiction
    · exact absurd rfl harray

/-- The scan reads a parameter of the list up to its end. -/
theorem scan_param {source text : Bytes} (h : Param (Body escaped) source text)
    (hends : Ends 0 rest) :
  scan escaped .init 0 [] (source ++ rest) = some (text, rest)
  := by
  cases h with
  | empty n => rw [scan_spaces, scan_ends hends]
  | @unquoted n c text hspace hquote hleft htext =>
    rw [List.mem_cons, not_or] at htext
    have hother : ∀ b ∈ text, ¬ (b = comma ∨ b = rightBracket ∧ 0 ≠ 0) := by
      rintro b hb (rfl | ⟨-, hzero⟩)
      · exact htext.2 hb
      · exact hzero rfl
    rw [List.append_assoc, scan_spaces, List.cons_append,
      scan_other hspace hquote hleft (Ne.symm htext.1) (by simp),
      scan_unquoted_text hother hends, scan_ends hends]
    rfl
  | @quoted n m inner hinner =>
    rw [List.append_assoc, scan_spaces, List.cons_append, scan_quote, List.append_assoc,
      List.cons_append, scan_quoted_body ((quotedAt_zero inner).mpr hinner),
      scanClosed_spaces m hends, scan_ends hends]
    rfl
  | @array n m source text h =>
    rw [List.append_assoc, scan_spaces, List.cons_append, scan_leftBracket, List.append_assoc,
      List.cons_append, scan_form h (.inr rfl), scan_rightBracket, scanClosed_spaces m hends,
      scan_ends hends]
    simp [inArray]

end Accept

/-! ### The scan accepts nothing else -/

section Sound

variable {escaped : Bool} {array : ℕ} {result : Bytes × Bytes}

theorem scan_unquoted_sound {buf text : Bytes}
    (h : scan escaped .unquoted array buf text = some result) :
  ∃ t rest, text = t ++ rest ∧ (∀ b ∈ t, ¬ (b = comma ∨ b = rightBracket ∧ array ≠ 0)) ∧
    Ends array rest ∧ scan escaped .init array (buf ++ t) rest = some result
  := by
  induction text generalizing buf with
  | nil =>
    rw [scan_unquoted_ends (.inr (.inl rfl))] at h
    exact ⟨[], [], rfl, by simp, .inr (.inl rfl), by rwa [List.append_nil]⟩
  | cons c text ih =>
    by_cases hc : c = comma ∨ c = rightBracket ∧ array ≠ 0
    · rw [scan_unquoted_delimiter hc] at h
      refine ⟨[], c :: text, rfl, by simp, ?_, by rwa [List.append_nil]⟩
      obtain rfl | ⟨rfl, harray⟩ := hc
      · exact .inl rfl
      · exact .inr (.inr ⟨harray, rfl⟩)
    · rw [scan_unquoted_other hc] at h
      obtain ⟨t, rest, rfl, ht, hends, hrest⟩ := ih h
      refine ⟨c :: t, rest, rfl, List.forall_mem_cons.mpr ⟨hc, ht⟩, hends, ?_⟩
      rwa [List.append_assoc] at hrest

/-- In an array a parameter does not end with the list. -/
theorem Ends.exists_cons {buf rest : Bytes} (hends : Ends (array + 1) rest)
    (h : scan escaped .init (array + 1) buf rest = some result) :
  ∃ c rest', rest = c :: rest' ∧ IsDelimiter c
  := by
  cases rest with
  | nil =>
    rw [scan] at h
    simp at h
  | cons c rest =>
    refine ⟨c, rest, rfl, ?_⟩
    obtain h | h | ⟨-, h⟩ := hends
    · exact .inl (Option.some.inj h)
    · contradiction
    · exact .inr (Option.some.inj h)

/-- A parameter of an array, given that shorter lists of parameters belong to the grammar. -/
theorem scan_param_sound {buf text : Bytes}
    (h : scan escaped .init (array + 1) buf text = some result)
    (ih : ∀ (t buf : Bytes) (array : ℕ), t.length < text.length →
      scan escaped .init (array + 1) buf t = some result →
      ∃ source u rest, t = source ++ rightBracket :: rest ∧
        Form (Body escaped) .params source u ∧
        scan escaped .init (array + 1) (buf ++ u) (rightBracket :: rest) = some result) :
  ∃ source t c rest, text = source ++ c :: rest ∧ IsDelimiter c ∧
    Form (Body escaped) .param source t ∧
    scan escaped .init (array + 1) (buf ++ t) (c :: rest) = some result
  := by
  obtain ⟨n, text, rfl, hhead⟩ := exists_spaces text
  rw [scan_spaces] at h
  cases text with
  | nil =>
    rw [scan] at h
    simp at h
  | cons c text =>
    have hspace : c ≠ space := by simpa using hhead
    by_cases hdelim : IsDelimiter c
    · exact ⟨spaces n, [], c, text, rfl, hdelim, .empty n, by rwa [List.append_nil]⟩
    by_cases hleft : c = leftBracket
    · subst hleft
      rw [scan_leftBracket] at h
      obtain ⟨source, u, rest, rfl, hu, hrest⟩ := ih text _ (array + 1) (by simp; omega) h
      rw [scan_rightBracket] at hrest
      obtain ⟨m, next, rfl, hends, hnext⟩ := scanClosed_sound hrest
      obtain ⟨d, next, rfl, hd⟩ := hends.exists_cons hnext
      refine ⟨_, _, d, next, by simp, hd, .array n m hu, ?_⟩
      simpa [inArray] using hnext
    by_cases hquote : c = quote
    · subst hquote
      rw [scan_quote] at h
      obtain ⟨body, rest, rfl, hbody, hrest⟩ := scan_quoted_sound _ text _ le_rfl h
      obtain ⟨m, next, rfl, hends, hnext⟩ := scanClosed_sound hrest
      obtain ⟨d, next, rfl, hd⟩ := hends.exists_cons hnext
      refine ⟨_, _, d, next, by simp, hd, .quoted n m ((quotedAt_succ body).mp hbody), ?_⟩
      simpa [inArray, shownBody] using hnext
    · obtain ⟨hcomma, hright⟩ := not_or.mp hdelim
      rw [scan_other hspace hquote hleft hcomma (fun hboth => hright hboth.1)] at h
      obtain ⟨t, rest, rfl, ht, hends, hrest⟩ := scan_unquoted_sound h
      obtain ⟨d, rest, rfl, hd⟩ := hends.exists_cons hrest
      refine ⟨spaces n ++ c :: t, c :: t, d, rest, by simp, hd, ?_, ?_⟩
      · refine .unquoted n hspace hquote hleft (List.forall_mem_cons.mpr ⟨hdelim, ?_⟩)
        exact fun b hb hdelim => ht b hb (hdelim.imp_right fun heq => ⟨heq, Nat.succ_ne_zero _⟩)
      · rwa [List.append_assoc] at hrest

/-- Where the scan starts on the parameters of an array and succeeds, there are parameters and a
closing bracket. -/
theorem scan_params_sound (n : ℕ) :
  ∀ (text buf : Bytes) (array : ℕ), text.length ≤ n →
    scan escaped .init (array + 1) buf text = some result →
    ∃ source t rest, text = source ++ rightBracket :: rest ∧
      Form (Body escaped) .params source t ∧
      scan escaped .init (array + 1) (buf ++ t) (rightBracket :: rest) = some result
  := by
  induction n with
  | zero =>
    intro text buf array hlen h
    rw [List.length_eq_zero_iff.mp (Nat.le_zero.mp hlen), scan] at h
    simp at h
  | succ n ih =>
    intro text buf array hlen h
    obtain ⟨source, t, c, rest, rfl, hc, ht, hrest⟩ := scan_param_sound h
      fun t buf array ht => ih t buf array (by omega)
    obtain rfl | rfl := hc
    · rw [scan_comma] at hrest
      have hlen' : rest.length ≤ n := by
        simp only [List.length_append, List.length_cons] at hlen
        omega
      obtain ⟨source', t', rest', rfl, ht', hrest'⟩ := ih rest _ array hlen' hrest
      exact ⟨_, _, rest', by simp, .more ht ht', by simpa using hrest'⟩
    · exact ⟨source, t, rest, rfl, .single ht, hrest⟩

/-- Where the scan succeeds on a list, there is a parameter in front of it. -/
theorem scan_sound {p : Bytes} (h : scan escaped .init 0 [] p = some result) :
  ∃ source, p = source ++ result.2 ∧ Ends 0 result.2 ∧ Param (Body escaped) source result.1
  := by
  have hdone : ∀ {buf rest : Bytes}, Ends 0 rest →
      scan escaped .init 0 buf rest = some result → result = (buf, rest) := by
    intro buf rest hends hscan
    rw [scan_ends hends] at hscan
    exact (Option.some.inj hscan).symm
  obtain ⟨n, text, rfl, hhead⟩ := exists_spaces p
  rw [scan_spaces] at h
  by_cases hends : Ends 0 text
  · rw [hdone hends h]
    exact ⟨spaces n, rfl, hends, .empty n⟩
  · cases text with
    | nil => exact absurd (.inr (.inl rfl)) hends
    | cons c text =>
      have hspace : c ≠ space := by simpa using hhead
      have hcomma : c ≠ comma := fun heq => hends (.inl (by rw [heq]; rfl))
      by_cases hleft : c = leftBracket
      · subst hleft
        rw [scan_leftBracket] at h
        obtain ⟨source, t, rest, rfl, ht, hrest⟩ := scan_params_sound _ text _ 0 le_rfl h
        rw [scan_rightBracket] at hrest
        obtain ⟨m, next, rfl, hends', hnext⟩ := scanClosed_sound hrest
        rw [hdone hends' hnext]
        refine ⟨spaces n ++ leftBracket :: (source ++ rightBracket :: spaces m), by simp, hends', ?_⟩
        simpa [inArray] using Param.array n m ht
      by_cases hquote : c = quote
      · subst hquote
        rw [scan_quote] at h
        obtain ⟨body, rest, rfl, hbody, hrest⟩ := scan_quoted_sound _ text _ le_rfl h
        obtain ⟨m, next, rfl, hends', hnext⟩ := scanClosed_sound hrest
        rw [hdone hends' hnext]
        refine ⟨spaces n ++ quote :: (body ++ quote :: spaces m), by simp, hends', ?_⟩
        simpa [inArray, shownBody] using Param.quoted n m ((quotedAt_zero body).mp hbody)
      · rw [scan_other hspace hquote hleft hcomma (by simp)] at h
        obtain ⟨t, rest, rfl, ht, hends', hrest⟩ := scan_unquoted_sound h
        rw [hdone hends' hrest]
        refine ⟨spaces n ++ c :: t, by simp, hends', .unquoted n hspace hquote hleft ?_⟩
        rw [List.mem_cons, not_or]
        exact ⟨Ne.symm hcomma, fun hmem => ht comma hmem (.inl rfl)⟩

end Sound

end Params
