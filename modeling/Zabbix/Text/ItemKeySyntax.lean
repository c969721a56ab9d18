import Zabbix.Text.ItemKeyScan

/-!
# The syntax of key parameters

A grammar of the parameters of an item key: empty, unquoted and quoted parameters and
arrays of parameters, separated by commas. The scan of `replace_key_params_dyn` accepts
the bracketed groups of this grammar and nothing else.
-/

open Ascii

namespace ItemKey

/-- The text between the quotes: a quote in it follows a backslash. -/
inductive QuotedBody : Bytes → Prop where
  | nil : QuotedBody []
  | escaped {body : Bytes} : QuotedBody body → QuotedBody (backslash :: quote :: body)
  | plain {c : UInt8} {body : Bytes} : c ≠ quote →
      (c = backslash → ∃ d rest, body = d :: rest ∧ d ≠ quote) → QuotedBody body →
      QuotedBody (c :: body)

/-- A single parameter, or parameters separated by commas. -/
inductive Kind where
  | param
  | params

/-- Spaces. -/
abbrev spaces (n : ℕ) : Bytes := List.replicate n space

/-- The characters that end a parameter. -/
def IsDelimiter (c : UInt8) : Prop := c = comma ∨ c = rightBracket

/-- The texts of the grammar. The flag says that the parameter, or the last of the
parameters, is an array. -/
inductive Form : Kind → Bool → Bytes → Prop where
  | empty (n : ℕ) : Form .param false (spaces n)
  | unquoted (n : ℕ) {c : UInt8} {text : Bytes} : c ≠ space → c ≠ quote → c ≠ leftBracket →
      (∀ b ∈ c :: text, ¬ IsDelimiter b) → Form .param false (spaces n ++ c :: text)
  | quoted (n m : ℕ) {body : Bytes} : QuotedBody body →
      Form .param false (spaces n ++ quote :: (body ++ quote :: spaces m))
  | array (n m : ℕ) {last : Bool} {text : Bytes} : Form .params last text →
      Form .param true (spaces n ++ leftBracket :: (text ++ rightBracket :: spaces m))
  | single {last : Bool} {text : Bytes} : Form .param last text → Form .params last text
  | more {last last' : Bool} {text text' : Bytes} : Form .param last text →
      Form .params last' text' → Form .params last' (text ++ comma :: text')

/-! ### Rounds of the scan -/

section Scan

variable {k : ℕ} {e : Bool} {c : UInt8} {rest : Bytes}

theorem scan_ended_escaped (level : ℕ) (e f : Bool) (text : Bytes) :
  scan .ended level e text = scan .ended level f text
  := by
  cases text <;> rfl

theorem scan_new_escaped (level : ℕ) (e f : Bool) (text : Bytes) :
  scan .new level e text = scan .new level f text
  := by
  cases text <;> rfl

theorem scan_unquoted_escaped (level : ℕ) (e f : Bool) (text : Bytes) :
  scan .unquoted level e text = scan .unquoted level f text
  := by
  cases text <;> rfl

theorem scan_ended_space :
  scan .ended (k + 1) e (space :: rest) = scan .ended (k + 1) false rest
  := by
  rw [scan, scan_ended_escaped (k + 1) false (decide (space = backslash))]
  rfl

theorem scan_new_space :
  scan .new (k + 1) e (space :: rest) = scan .new (k + 1) false rest
  := by
  rw [scan, scan_new_escaped (k + 1) false (decide (space = backslash))]
  rfl

theorem scan_ended_spaces (n : ℕ) :
  scan .ended (k + 1) e (spaces n ++ rest) = scan .ended (k + 1) false rest
  := by
  induction n generalizing e with
  | zero => exact scan_ended_escaped (k + 1) e false rest
  | succ n ih => exact scan_ended_space.trans (ih (e := false))

theorem scan_new_spaces (n : ℕ) :
  scan .new (k + 1) e (spaces n ++ rest) = scan .new (k + 1) false rest
  := by
  induction n generalizing e with
  | zero => exact scan_new_escaped (k + 1) e false rest
  | succ n ih => exact scan_new_space.trans (ih (e := false))

theorem scan_ended_comma :
  scan .ended (k + 1) e (comma :: rest) = scan .new (k + 1) false rest
  := by
  rw [scan, scan_new_escaped (k + 1) false (decide (comma = backslash))]
  rfl

theorem scan_ended_rightBracket :
  scan .ended (k + 1) e (rightBracket :: rest) = scan .ended k false rest
  := by
  rw [scan, scan_ended_escaped k false (decide (rightBracket = backslash))]
  rfl

/-- At the end of a parameter it does not matter whether there was one. -/
theorem scan_new_delimiter (h : IsDelimiter c) :
  scan .new (k + 1) e (c :: rest) = scan .ended (k + 1) false (c :: rest)
  := by
  obtain rfl | rfl := h <;> rfl

theorem scan_new_leftBracket (level : ℕ) :
  scan .new (level + 1) e (leftBracket :: rest) = scan .new (level + 2) false rest
  := by
  rw [scan, scan_new_escaped (level + 2) false (decide (leftBracket = backslash))]
  rfl

theorem scan_outer_leftBracket :
  scan .ended 0 e (leftBracket :: rest) = scan .new 1 false rest
  := by
  rw [scan, scan_new_escaped 1 false (decide (leftBracket = backslash))]
  rfl

theorem scan_new_quote :
  scan .new (k + 1) e (quote :: rest) = scan .quoted (k + 1) false rest
  := rfl

theorem scan_new_other (hspace : c ≠ space) (hquote : c ≠ quote) (hleft : c ≠ leftBracket)
    (hdelim : ¬ IsDelimiter c) :
  scan .new (k + 1) e (c :: rest) = scan .unquoted (k + 1) false rest
  := by
  obtain ⟨hcomma, hright⟩ := not_or.mp hdelim
  rw [scan, scan_unquoted_escaped (k + 1) false (decide (c = backslash))]
  simp [scanStep, scanNew, hspace, hcomma, hleft, hright, hquote]

theorem scan_unquoted_other (hdelim : ¬ IsDelimiter c) :
  scan .unquoted (k + 1) e (c :: rest) = scan .unquoted (k + 1) false rest
  := by
  obtain ⟨hcomma, hright⟩ := not_or.mp hdelim
  rw [scan, scan_unquoted_escaped (k + 1) false (decide (c = backslash))]
  simp [scanStep, hcomma, hright]

theorem scan_unquoted_delimiter (h : IsDelimiter c) :
  scan .unquoted (k + 1) e (c :: rest) = scan .ended (k + 1) false (c :: rest)
  := by
  obtain rfl | rfl := h <;> rfl

theorem scan_quoted_other (h : c ≠ quote) :
  scan .quoted (k + 1) e (c :: rest) = scan .quoted (k + 1) (c = backslash) rest
  := by
  rw [scan]
  simp [scanStep, h]

theorem scan_quoted_escaped :
  scan .quoted (k + 1) true (quote :: rest) = scan .quoted (k + 1) false rest
  := rfl

theorem scan_quoted_close :
  scan .quoted (k + 1) false (quote :: rest) = scan .ended (k + 1) false rest
  := by
  rw [scan, scan_ended_escaped (k + 1) false (decide (quote = backslash))]
  rfl

end Scan

/-! ### The scan accepts the grammar -/

section Accept

variable {k : ℕ} {e : Bool} {c : UInt8} {rest : Bytes}

theorem scan_unquoted_text {text : Bytes} (htext : ∀ b ∈ text, ¬ IsDelimiter b)
    (hc : IsDelimiter c) :
  scan .unquoted (k + 1) e (text ++ c :: rest) = scan .ended (k + 1) false (c :: rest)
  := by
  induction text generalizing e with
  | nil => exact scan_unquoted_delimiter hc
  | cons b text ih =>
    rw [List.cons_append, scan_unquoted_other (htext b List.mem_cons_self)]
    exact ih fun b hb => htext b (List.mem_cons_of_mem _ hb)

theorem scan_quoted_body {body : Bytes} (h : QuotedBody body) :
  scan .quoted (k + 1) false (body ++ quote :: rest) = scan .ended (k + 1) false rest
  := by
  induction h with
  | nil => exact scan_quoted_close
  | escaped _ ih =>
    rw [List.cons_append, scan_quoted_other (by decide), List.cons_append]
    exact scan_quoted_escaped.trans ih
  | @plain c body hc hslash _ ih =>
    rw [List.cons_append, scan_quoted_other hc]
    by_cases hback : c = backslash
    · obtain ⟨d, rest', rfl, hd⟩ := hslash hback
      rw [List.cons_append, scan_quoted_other hd] at ih ⊢
      exact ih
    · simpa [hback] using ih

/-- Over a parameter, or a list of parameters, the scan stays at its level. -/
theorem scan_form {kind : Kind} {last : Bool} {text : Bytes} (h : Form kind last text)
    (hc : IsDelimiter c) :
  scan .new (k + 1) e (text ++ c :: rest) = scan .ended (k + 1) false (c :: rest)
  := by
  induction h generalizing k c rest e with
  | empty n =>
    rw [scan_new_spaces n]
    exact scan_new_delimiter hc
  | @unquoted n b text hspace hquote hleft htext =>
    rw [List.append_assoc, scan_new_spaces n, List.cons_append,
      scan_new_other hspace hquote hleft (htext b List.mem_cons_self)]
    exact scan_unquoted_text (fun b hb => htext b (List.mem_cons_of_mem _ hb)) hc
  | @quoted n m body hbody =>
    rw [List.append_assoc, scan_new_spaces n, List.cons_append,
      scan_new_quote, List.append_assoc, List.cons_append,
      scan_quoted_body hbody]
    exact scan_ended_spaces m
  | @array n m last text _ ih =>
    rw [List.append_assoc, scan_new_spaces n, List.cons_append,
      scan_new_leftBracket, List.append_assoc, List.cons_append,
      ih (e := false) (.inr rfl), scan_ended_rightBracket]
    exact scan_ended_spaces m
  | single _ ih => exact ih hc
  | @more last last' text text' _ _ ih ih' =>
    rw [List.append_assoc, List.cons_append, ih (.inl rfl),
      scan_ended_comma]
    exact ih' hc

end Accept

/-! ### The scan accepts nothing else -/

section Sound

variable {k : ℕ} {e : Bool}

theorem exists_spaces (text : Bytes) :
  ∃ n rest, text = spaces n ++ rest ∧ rest.head? ≠ some space
  := by
  induction text with
  | nil => exact ⟨0, [], rfl, by simp⟩
  | cons c text ih =>
    by_cases hc : c = space
    · obtain ⟨n, rest, rfl, hrest⟩ := ih
      exact ⟨n + 1, rest, by rw [hc]; rfl, hrest⟩
    · exact ⟨0, c :: text, rfl, by simpa using hc⟩

theorem not_scan_nil {state : ParserState} :
  scan state (k + 1) e [] = false
  := by
  simp [scan]

/-- Behind a parameter there are spaces and then a delimiter. -/
theorem scan_ended_sound {text : Bytes} (h : scan .ended (k + 1) e text = true) :
  ∃ m c rest, text = spaces m ++ c :: rest ∧ IsDelimiter c ∧
    scan .ended (k + 1) false (c :: rest) = true
  := by
  obtain ⟨m, rest, rfl, hhead⟩ := exists_spaces text
  rw [scan_ended_spaces] at h
  cases rest with
  | nil => simp [not_scan_nil] at h
  | cons c rest =>
    refine ⟨m, c, rest, rfl, ?_, h⟩
    by_contra hdelim
    obtain ⟨hcomma, hright⟩ := not_or.mp hdelim
    have hspace : c ≠ space := by simpa using hhead
    simp [scan, scanStep, scanEnded, hspace, hcomma, hright] at h

theorem scan_unquoted_sound {text : Bytes} (h : scan .unquoted (k + 1) e text = true) :
  ∃ t c rest, text = t ++ c :: rest ∧ (∀ b ∈ t, ¬ IsDelimiter b) ∧ IsDelimiter c ∧
    scan .ended (k + 1) false (c :: rest) = true
  := by
  induction text generalizing e with
  | nil => simp [not_scan_nil] at h
  | cons c text ih =>
    by_cases hc : IsDelimiter c
    · exact ⟨[], c, text, rfl, by simp, hc, by rwa [scan_unquoted_delimiter hc] at h⟩
    · rw [scan_unquoted_other hc] at h
      obtain ⟨t, d, rest, rfl, ht, hd, hrest⟩ := ih h
      refine ⟨c :: t, d, rest, rfl, ?_, hd, hrest⟩
      intro b hb
      obtain rfl | hb := List.mem_cons.mp hb
      · exact hc
      · exact ht b hb

theorem scan_quoted_sound (n : ℕ) :
  ∀ text : Bytes, text.length ≤ n → scan .quoted (k + 1) false text = true →
    ∃ body rest, text = body ++ quote :: rest ∧ QuotedBody body ∧
      scan .ended (k + 1) false rest = true
  := by
  induction n with
  | zero =>
    intro text hlen h
    rw [List.length_eq_zero_iff.mp (Nat.le_zero.mp hlen)] at h
    simp [not_scan_nil] at h
  | succ n ih =>
    intro text hlen h
    cases text with
    | nil => simp [not_scan_nil] at h
    | cons c text =>
      have hlen' : text.length ≤ n := by simpa using hlen
      by_cases hquote : c = quote
      · subst hquote
        rw [scan_quoted_close] at h
        exact ⟨[], text, rfl, .nil, h⟩
      by_cases hback : c = backslash
      · subst hback
        cases text with
        | nil =>
          rw [scan_quoted_other hquote] at h
          simp [not_scan_nil] at h
        | cons d text =>
          by_cases hd : d = quote
          · subst hd
            have htext : scan .quoted (k + 1) false text = true := h
            obtain ⟨body, rest, rfl, hbody, hrest⟩ :=
              ih text (le_trans (Nat.le_succ _) hlen') htext
            exact ⟨_, rest, rfl, .escaped hbody, hrest⟩
          · have htext : scan .quoted (k + 1) false (d :: text) = true := by
              rw [scan_quoted_other hquote, scan_quoted_other hd] at h
              rwa [scan_quoted_other hd]
            obtain ⟨body, rest, hsplit, hbody, hrest⟩ := ih (d :: text) hlen' htext
            refine ⟨backslash :: body, rest, by rw [hsplit]; rfl, ?_, hrest⟩
            refine .plain hquote (fun _ => ?_) hbody
            cases body with
            | nil => exact absurd (List.cons.inj hsplit).1 hd
            | cons b body => exact ⟨b, body, rfl, by rwa [← (List.cons.inj hsplit).1]⟩
      · rw [scan_quoted_other hquote, decide_eq_false hback] at h
        obtain ⟨body, rest, rfl, hbody, hrest⟩ := ih text hlen' h
        exact ⟨c :: body, rest, rfl, .plain hquote (fun hb => absurd hb hback) hbody, hrest⟩

/-- A parameter, given that shorter lists of parameters belong to the grammar. -/
theorem scan_param_sound {text : Bytes} (h : scan .new (k + 1) e text = true)
    (ih : ∀ (t : Bytes) (k : ℕ), t.length < text.length → scan .new (k + 1) false t = true →
      ∃ last u rest, t = u ++ rightBracket :: rest ∧ Form .params last u ∧
        scan .ended k false rest = true) :
  ∃ last t c rest, text = t ++ c :: rest ∧ IsDelimiter c ∧ Form .param last t ∧
    scan .ended (k + 1) false (c :: rest) = true
  := by
  obtain ⟨n, text, rfl, hhead⟩ := exists_spaces text
  rw [scan_new_spaces] at h
  cases text with
  | nil => simp [not_scan_nil] at h
  | cons c text =>
    have hspace : c ≠ space := by simpa using hhead
    by_cases hdelim : IsDelimiter c
    · rw [scan_new_delimiter hdelim] at h
      exact ⟨false, spaces n, c, text, rfl, hdelim, .empty n, h⟩
    by_cases hleft : c = leftBracket
    · subst hleft
      rw [scan_new_leftBracket] at h
      obtain ⟨last, u, rest, rfl, hu, hrest⟩ := ih text (k + 1) (by simp; omega) h
      obtain ⟨m, d, rest, rfl, hd, hrest⟩ := scan_ended_sound hrest
      exact ⟨true, _, d, rest, by simp, hd, .array n m hu, hrest⟩
    by_cases hquote : c = quote
    · subst hquote
      rw [scan_new_quote] at h
      obtain ⟨body, rest, rfl, hbody, hrest⟩ := scan_quoted_sound _ text le_rfl h
      obtain ⟨m, d, rest, rfl, hd, hrest⟩ := scan_ended_sound hrest
      exact ⟨false, _, d, rest, by simp, hd, .quoted n m hbody, hrest⟩
    · rw [scan_new_other hspace hquote hleft hdelim] at h
      obtain ⟨t, d, rest, rfl, ht, hd, hrest⟩ := scan_unquoted_sound h
      refine ⟨false, spaces n ++ c :: t, d, rest, by simp, hd, ?_, hrest⟩
      refine .unquoted n hspace hquote hleft ?_
      intro b hb
      obtain rfl | hb := List.mem_cons.mp hb
      · exact hdelim
      · exact ht b hb

/-- Where the scan starts on parameters and succeeds, there are parameters and a closing
bracket, and the scan goes on behind it. -/
theorem scan_params_sound (n : ℕ) :
  ∀ (text : Bytes) (k : ℕ), text.length ≤ n → scan .new (k + 1) false text = true →
    ∃ last t rest, text = t ++ rightBracket :: rest ∧ Form .params last t ∧
      scan .ended k false rest = true
  := by
  induction n with
  | zero =>
    intro text k hlen h
    rw [List.length_eq_zero_iff.mp (Nat.le_zero.mp hlen)] at h
    simp [not_scan_nil] at h
  | succ n ih =>
    intro text k hlen h
    obtain ⟨last, t, c, rest, rfl, hc, ht, hrest⟩ := scan_param_sound h
      fun t k ht => ih t k (by omega)
    obtain rfl | rfl := hc
    · rw [scan_ended_comma] at hrest
      have hlen' : rest.length ≤ n := by
        simp only [List.length_append, List.length_cons] at hlen
        omega
      obtain ⟨last', t', rest', rfl, ht', hrest'⟩ := ih rest k hlen' hrest
      exact ⟨last', _, rest', by simp, .more ht ht', hrest'⟩
    · rw [scan_ended_rightBracket] at hrest
      exact ⟨last, t, rest, rfl, .single ht, hrest⟩

end Sound

/-! ### Groups -/

/-- Parameters in brackets; the flag says that the last parameter is an array. -/
abbrev Group := Bool × Bytes

/-- The text of bracketed groups. -/
def groupsText (groups : List Group) : Bytes :=
  groups.flatMap fun group => leftBracket :: (group.2 ++ [rightBracket])

/-- All groups are parameters of the grammar. -/
def WellFormed (groups : List Group) : Prop :=
  ∀ group ∈ groups, Form .params group.1 group.2

theorem groupsText_cons (group : Group) (groups : List Group) :
  groupsText (group :: groups) =
    leftBracket :: (group.2 ++ rightBracket :: groupsText groups)
  := by
  simp [groupsText]

theorem scan_groups {groups : List Group} (h : WellFormed groups) :
  scan .ended 0 false (groupsText groups) = true
  := by
  induction groups with
  | nil => rfl
  | cons group groups ih =>
    have hgroup := h group List.mem_cons_self
    rw [groupsText_cons, scan_outer_leftBracket, scan_form hgroup (.inr rfl),
      scan_ended_rightBracket]
    exact ih fun g hg => h g (List.mem_cons_of_mem _ hg)

/-- The scan behind the key name accepts the texts of well-formed groups, and no other. -/
theorem scan_iff (text : Bytes) :
  scan .ended 0 false text = true ↔ ∃ groups, WellFormed groups ∧ text = groupsText groups
  := by
  constructor
  · intro h
    induction hlen : text.length using Nat.strong_induction_on generalizing text with
    | _ n ih =>
      cases text with
      | nil => exact ⟨[], by simp [WellFormed], rfl⟩
      | cons c text =>
        have hc : c = leftBracket := by
          by_contra hne
          simp [scan, scanStep, hne] at h
        subst hc
        rw [scan_outer_leftBracket] at h
        obtain ⟨last, t, rest, rfl, ht, hrest⟩ := scan_params_sound _ text 0 le_rfl h
        obtain ⟨groups, hgroups, rfl⟩ := ih rest.length (by
          simp only [List.length_cons, List.length_append] at hlen
          omega) rest hrest rfl
        refine ⟨(last, t) :: groups, ?_, by rw [groupsText_cons]⟩
        intro g hg
        obtain rfl | hg := List.mem_cons.mp hg
        · exact ht
        · exact hgroups g hg
  · rintro ⟨groups, hgroups, rfl⟩
    exact scan_groups hgroups

end ItemKey
