import Zabbix.Expression.Signs
import Zabbix.Expression.Syntax

/-!
# Expressions without parentheses

`evaluate_simple` takes a text apart at its operators.  For a settled text it does not matter
how much room there is in the buffer, so that the value of a text is made of the values of the
texts before and behind an operator.
-/

open Ascii

namespace Expression

/-! ### The functions without their termination -/

section

variable {D : Type*} [CDouble D]

/-- `evaluate_simple`, one call. -/
theorem evaluateSimple_eq (room : ℕ) (text : Bytes) :
  (evaluateSimple room text : Except Failure D) =
    match compressSigns room (zbxLrtrim text) with
    | none => .error .overflow
    | some expression =>
      match readNumber expression with
      | some value => .ok value
      | none =>
        match findOperator expression with
        | none => .error (.format expression)
        | some (op, left, right) =>
          match evaluateSimple left.length left with
          | .error failure => .error failure
          | .ok value1 =>
            match evaluateSimple (room - left.length - 1) right with
            | .error failure => .error failure
            | .ok value2 =>
              match op.apply value1 value2 with
              | none => .error (.division
                (rejoin op left (rewritten left.length left)
                  (rewritten (room - left.length - 1) right)))
              | some value => .ok value
  := by
  rw [evaluateSimple.eq_def]
  split
  case h_1 hcompress => rw [hcompress]
  case h_2 expression hcompress =>
    rw [hcompress]
    dsimp only
    cases (readNumber expression : Option D) with
    | some value => rfl
    | none =>
      dsimp only
      split
      case h_1 hfind => rw [hfind]
      case h_2 hfind =>
        rewrite [hfind]
        rfl

/-- The loop of `evaluate`, one round. -/
theorem evaluateLoop_eq (tmp : Bytes) :
  (evaluateLoop tmp : Except Failure D) =
    match strchr rightParen tmp with
    | none => evaluateSimple (maxStringLen - 1) tmp
    | some (front, after) =>
      match strrchr leftParen front with
      | none => .error (.bracket tmp)
      | some (before, simple) =>
        match (evaluateSimple (maxStringLen - 1) simple : Except Failure D) with
        | .error failure => .error failure
        | .ok value =>
          evaluateLoop (strscpy (zbxRemoveSpaces
            (before ++ (strscpy (printDouble value) ++ after))))
  := by
  rw [evaluateLoop.eq_def]
  split
  case h_1 hright => rw [hright]
  case h_2 hright =>
    rw [hright]
    dsimp only
    split
    case h_1 hleft => rw [hleft]
    case h_2 hleft =>
      rewrite [hleft]
      rfl

end

/-! ### Settled texts -/

/-- The value of a text, in every buffer. -/
def Evaluates (text : Bytes) (value : Option ℚ) : Prop :=
  ∀ room, (evaluateSimple room text).toOption = value

section

variable {text left right : Bytes} {op : Operator} {v : ℚ} {v1 v2 : Option ℚ}

theorem Settled.compressed (h : Settled false text) (room : ℕ) :
  compressSigns room (zbxLrtrim text) = some text
  := by
  rw [zbxLrtrim_eq h.mem.2]
  exact h.compressSigns_eq room

theorem Settled.evaluates_number (h : Settled false text) (hread : readNumber text = some v) :
  Evaluates text (some v)
  := by
  intro room
  rw [evaluateSimple_eq, h.compressed]
  dsimp only
  rw [hread]
  rfl

theorem Settled.evaluates_nothing (h : Settled false text)
    (hread : (readNumber text : Option ℚ) = none) (hfind : findOperator text = none) :
  Evaluates text none
  := by
  intro room
  rw [evaluateSimple_eq, h.compressed]
  dsimp only
  rw [hread, hfind]
  rfl

theorem Settled.evaluates_operator (h : Settled false text)
    (hread : (readNumber text : Option ℚ) = none)
    (hfind : findOperator text = some (op, left, right)) (hleft : Evaluates left v1)
    (hright : Evaluates right v2) :
  Evaluates text (v1.bind fun a => v2.bind (op.apply a))
  := by
  intro room
  rw [evaluateSimple_eq, h.compressed]
  dsimp only
  rw [hread, hfind, ← hleft left.length, ← hright (room - left.length - 1)]
  dsimp only
  cases (evaluateSimple left.length left : Except Failure ℚ) with
  | error failure => rfl
  | ok value1 =>
    cases (evaluateSimple (room - left.length - 1) right : Except Failure ℚ) with
    | error failure => rfl
    | ok value2 =>
      simp only [Except.toOption, Option.bind_some]
      cases op.apply value1 value2 <;> rfl

end

/-- The result on a settled text does not depend on the room. -/
theorem Settled.exists_evaluates {text : Bytes} (h : Settled false text) :
  ∃ v, Evaluates text v
  := by
  induction hlength : text.length using Nat.strong_induction_on generalizing text with
  | _ n ih =>
    cases hread : (readNumber text : Option ℚ) with
    | some v => exact ⟨some v, h.evaluates_number hread⟩
    | none =>
      cases hfind : findOperator text with
      | none => exact ⟨none, h.evaluates_nothing hread hfind⟩
      | some parts =>
        obtain ⟨op, left, right⟩ := parts
        have htext := findOperator_eq hfind
        have hop : endsOperand (some op.char) = false := by cases op <;> decide
        rw [htext] at h
        obtain ⟨hleft, hright⟩ := h.operands hop
        rw [← htext] at h
        have hlen : left.length + right.length + 1 = n := by
          rw [← hlength, htext, List.length_append, List.length_cons]
          omega
        obtain ⟨v1, hv1⟩ := ih left.length (by omega) hleft rfl
        obtain ⟨v2, hv2⟩ := ih right.length (by omega) hright rfl
        exact ⟨_, h.evaluates_operator hread hfind hv1 hv2⟩

/-! ### Operators -/

theorem strchr_eq_none_iff {c : UInt8} {text : Bytes} :
  strchr c text = none ↔ c ∉ text
  := by
  induction text with
  | nil => simp [strchr]
  | cons d rest ih =>
    rw [strchr]
    split
    case isTrue h => simp [h]
    case isFalse h => simp [ih, Ne.symm h]

theorem strchr_append {c : UInt8} {left : Bytes} (h : c ∉ left) (right : Bytes) :
  strchr c (left ++ c :: right) = some (left, right)
  := by
  induction left with
  | nil => rw [List.nil_append, strchr, if_pos rfl]
  | cons d rest ih =>
    obtain ⟨hd, hrest⟩ := not_or.mp (List.mem_cons.not.mp h)
    rw [List.cons_append, strchr, if_neg (Ne.symm hd), ih hrest]
    rfl

theorem strrchr_append {c : UInt8} {right : Bytes} (h : c ∉ right) (left : Bytes) :
  strrchr c (left ++ c :: right) = some (left, right)
  := by
  have hreverse : (left ++ c :: right).reverse = right.reverse ++ c :: left.reverse := by simp
  rw [strrchr, hreverse, strchr_append (by simpa using h)]
  simp

theorem find_eq_none {op : Operator} {text : Bytes} (h : op.char ∉ text) :
  op.find text = none
  := by
  rw [Operator.find]
  split
  · rw [strrchr, strchr_eq_none_iff.mpr (by simpa using h)]
    rfl
  · exact strchr_eq_none_iff.mpr h

theorem find_append {op : Operator} {left right : Bytes}
    (h : op.char ∉ if op.FromRight then right else left) :
  op.find (left ++ op.char :: right) = some (left, right)
  := by
  rw [Operator.find]
  split at h
  case isTrue hop =>
    rw [if_pos hop]
    exact strrchr_append h left
  case isFalse hop =>
    rw [if_neg hop]
    exact strchr_append h right

/-- Every operator stands behind those of lower priority. -/
theorem all_split (op : Operator) :
  ∃ before after, Operator.all = before ++ op :: after ∧
    ∀ op' ∈ before, op'.priority < op.priority
  := by
  refine ⟨Operator.all.take (op.priority - 1), Operator.all.drop op.priority, ?_⟩
  cases op <;> decide

theorem char_injective {op op' : Operator} (h : op.char = op'.char) :
  op = op'
  := by
  revert h
  cases op <;> cases op' <;> decide

/-- The text is taken apart at the operator with the lowest priority. -/
theorem findOperator_append {op : Operator} {left right : Bytes}
    (h : op.char ∉ if op.FromRight then right else left)
    (hlower : ∀ op' : Operator, op'.priority < op.priority → op'.char ∉ left ∧ op'.char ∉ right) :
  findOperator (left ++ op.char :: right) = some (op, left, right)
  := by
  obtain ⟨before, after, hall, hbefore⟩ := all_split op
  have hnone : before.findSome? (fun op' : Operator =>
      (op'.find (left ++ op.char :: right)).map fun parts => (op', parts)) = none := by
    rw [List.findSome?_eq_none_iff]
    intro op' hop'
    have hlt := hbefore op' hop'
    have hchar : op'.char ≠ op.char := fun heq => by
      rw [char_injective heq] at hlt
      exact lt_irrefl _ hlt
    rw [find_eq_none]
    · rfl
    · simp only [List.mem_append, List.mem_cons, not_or]
      exact ⟨(hlower op' hlt).1, hchar, (hlower op' hlt).2⟩
  rw [findOperator, hall, List.findSome?_append, hnone, List.findSome?_cons, find_append h]
  rfl

/-! ### Numbers -/

theorem isDoubleSuffixLoop_first {text : Bytes} (h : text.head? ≠ some minus) (first point : Bool) :
  isDoubleSuffixLoop first point text = isDoubleSuffixLoop false point text
  := by
  cases text with
  | nil => rfl
  | cons c rest =>
    have hc : c ≠ minus := fun hc => h (congrArg some hc)
    simp only [isDoubleSuffixLoop, hc, false_and, if_false]

theorem isDoubleSuffixLoop_digits {digits : Bytes} (h : ∀ c ∈ digits, isDigit c = true)
    (point : Bool) (rest : Bytes) :
  isDoubleSuffixLoop false point (digits ++ rest) = isDoubleSuffixLoop false point rest
  := by
  induction digits with
  | nil => rfl
  | cons c digits ih =>
    rw [List.cons_append, isDoubleSuffixLoop, if_neg (by simp), if_pos (h c List.mem_cons_self)]
    exact ih fun d hd => h d (List.mem_cons_of_mem _ hd)

theorem isDoubleSuffixLoop_suffix (suffix : Option Suffix) (point : Bool) :
  isDoubleSuffixLoop false point (suffix.map Suffix.char).toList = true
  := by
  match suffix with
  | none => rfl
  | some suffix => cases suffix <;> cases point <;> decide

theorem mem_suffixes (suffix : Suffix) :
  suffix.char ∈ suffixes
  := by
  cases suffix <;> decide

theorem suffix_not_digit (suffix : Suffix) :
  isDigit suffix.char = false ∧ suffix.char ≠ dot ∧ suffix.char ≠ minus ∧ suffix.char ≠ negative
  := by
  cases suffix <;> decide

theorem suffixFactor_char (suffix : Suffix) :
  suffixFactor suffix.char = suffix.factor
  := by
  cases suffix <;> norm_num [suffixFactor, Suffix.char, Suffix.factor] <;> decide

/-- What stands behind the digits before the point. -/
def Number.behind (n : Number) : Bytes :=
  (match n.fraction with
    | none => []
    | some digits => dot :: digits) ++ (n.suffix.map Suffix.char).toList

theorem Number.text_eq (n : Number) :
  n.text = n.whole ++ n.behind
  := by
  rw [Number.text, Number.digitsText, Number.behind]
  cases n.fraction <;> simp

theorem Number.behind_head (n : Number) :
  ∀ c ∈ n.behind.head?, isDigit c = false ∧ c ≠ minus
  := by
  rw [Number.behind]
  cases n.fraction with
  | some digits =>
    intro c hc
    obtain rfl := Option.some.inj hc
    decide
  | none =>
    cases n.suffix with
    | none => exact fun c hc => nomatch hc
    | some suffix =>
      intro c hc
      obtain rfl := Option.some.inj hc
      exact ⟨(suffix_not_digit suffix).1, (suffix_not_digit suffix).2.2.1⟩

theorem Number.accepted (n : Number) :
  isDoubleSuffix n.text = true
  := by
  have hbehind : isDoubleSuffixLoop false false n.behind = true := by
    rw [Number.behind]
    cases hfraction : n.fraction with
    | none => exact isDoubleSuffixLoop_suffix _ _
    | some digits =>
      have hdigits : ∀ c ∈ digits, isDigit c = true := by
        simpa [hfraction] using n.fraction_digits
      rw [List.cons_append, isDoubleSuffixLoop, if_neg (by simp), if_neg (by decide),
        if_pos ⟨rfl, by simp⟩, isDoubleSuffixLoop_digits hdigits]
      exact isDoubleSuffixLoop_suffix _ _
  have hhead : n.text.head? ≠ some minus := by
    rw [n.text_eq]
    cases hwhole : n.whole with
    | nil =>
      intro h
      exact (n.behind_head minus h).2 rfl
    | cons c digits =>
      intro h
      have hc := n.whole_digits c (hwhole ▸ List.mem_cons_self)
      rw [Option.some.inj h] at hc
      exact absurd hc (by decide)
  rw [isDoubleSuffix, isDoubleSuffixLoop_first hhead, n.text_eq,
    isDoubleSuffixLoop_digits n.whole_digits, hbehind]

theorem takeWhile_digits {digits rest : Bytes} (h : ∀ c ∈ digits, isDigit c = true)
    (hrest : ∀ c ∈ rest.head?, isDigit c = false) :
  (digits ++ rest).takeWhile isDigit = digits ∧ (digits ++ rest).dropWhile isDigit = rest
  := by
  have hnil : rest.takeWhile isDigit = [] ∧ rest.dropWhile isDigit = rest := by
    cases rest with
    | nil => exact ⟨rfl, rfl⟩
    | cons c rest =>
      have hc := hrest c rfl
      simp [hc]
  rw [List.takeWhile_append_of_pos h, List.dropWhile_append_of_pos h, hnil.1, hnil.2]
  simp

theorem Number.atofUnsigned_eq (n : Number) :
  atofUnsigned n.text =
    digitsValue (n.whole ++ n.fraction.getD []) / 10 ^ (n.fraction.getD []).length
  := by
  obtain ⟨htake, hdrop⟩ := takeWhile_digits n.whole_digits fun c hc => (n.behind_head c hc).1
  simp only [atofUnsigned, n.text_eq, htake, hdrop]
  have hfraction : (match n.behind with
      | c :: rest => if c = dot then rest.takeWhile isDigit else []
      | [] => []) = n.fraction.getD [] := by
    have hsuffix : ∀ c ∈ (n.suffix.map Suffix.char).toList.head?, isDigit c = false := by
      intro c hc
      cases hn : n.suffix with
      | none =>
        rw [hn] at hc
        cases hc
      | some suffix =>
        rw [hn] at hc
        obtain rfl := Option.some.inj hc
        exact (suffix_not_digit suffix).1
    rw [Number.behind]
    cases hfraction : n.fraction with
    | some digits =>
      have hdigits : ∀ c ∈ digits, isDigit c = true := by
        simpa [hfraction] using n.fraction_digits
      exact (takeWhile_digits hdigits hsuffix).1
    | none =>
      cases n.suffix with
      | none => rfl
      | some suffix => exact if_neg (suffix_not_digit suffix).2.1
  exact congrArg (fun f : Bytes => (digitsValue (n.whole ++ f) : ℚ) / 10 ^ f.length) hfraction

theorem suffixFactor_of_digit {c : UInt8} (h : isDigit c = true ∨ c = dot) :
  suffixFactor c = 1
  := by
  have hne : ∀ suffix : Suffix, c ≠ suffix.char := by
    rintro suffix rfl
    obtain h | h := h
    · rw [(suffix_not_digit suffix).1] at h
      cases h
    · exact (suffix_not_digit suffix).2.1 h
  have hlast : (if c = 'w'.toUInt8 then 604800 else 1 : ℚ) = 1 := if_neg (hne .week)
  exact (if_neg (hne .kibi)).trans <| (if_neg (hne .mebi)).trans <| (if_neg (hne .gibi)).trans <|
    (if_neg (hne .tebi)).trans <| (if_neg (hne .second)).trans <| (if_neg (hne .minute)).trans <|
    (if_neg (hne .hour)).trans <| (if_neg (hne .day)).trans hlast

theorem Number.mem_digitsText {n : Number} {c : UInt8} (h : c ∈ n.digitsText) :
  isDigit c = true ∨ c = dot
  := by
  rw [Number.digitsText] at h
  cases hfraction : n.fraction with
  | none =>
    rw [hfraction] at h
    exact .inl (n.whole_digits c h)
  | some digits =>
    have hdigits : ∀ c ∈ digits, isDigit c = true := by
      simpa [hfraction] using n.fraction_digits
    rw [hfraction] at h
    obtain h | h := List.mem_append.mp h
    · exact .inl (n.whole_digits c h)
    · obtain rfl | h := List.mem_cons.mp h
      · exact .inr rfl
      · exact .inl (hdigits c h)

theorem Number.digitsText_ne_nil (n : Number) :
  n.digitsText ≠ []
  := by
  have hdigits := n.digits_ne_nil
  rw [Number.digitsText]
  cases hfraction : n.fraction with
  | none =>
    rw [hfraction] at hdigits
    simpa using hdigits
  | some digits => simp

theorem Number.mem_text {n : Number} {c : UInt8} (h : c ∈ n.text) :
  isDigit c = true ∨ c = dot ∨ c ∈ suffixes
  := by
  obtain h | h := List.mem_append.mp h
  · obtain h | h := n.mem_digitsText h
    · exact .inl h
    · exact .inr (.inl h)
  · cases hsuffix : n.suffix with
    | none =>
      rw [hsuffix] at h
      cases h
    | some suffix =>
      rw [hsuffix] at h
      rw [List.mem_singleton.mp h]
      exact .inr (.inr (mem_suffixes suffix))

/-- The first character is a digit or the point. -/
theorem Number.text_head (n : Number) :
  ∃ c rest, n.text = c :: rest ∧ (isDigit c = true ∨ c = dot)
  := by
  obtain ⟨c, rest, hcons⟩ := List.exists_cons_of_ne_nil n.digitsText_ne_nil
  refine ⟨c, rest ++ (n.suffix.map Suffix.char).toList, ?_, ?_⟩
  · rw [Number.text, hcons]
    rfl
  · apply n.mem_digitsText
    rw [hcons]
    exact List.mem_cons_self

theorem Number.str2double_eq (n : Number) :
  str2double n.text = n.value
  := by
  have hatof : atof n.text = atofUnsigned n.text := by
    obtain ⟨c, rest, htext, hc⟩ := n.text_head
    rw [htext, atof, if_neg]
    rintro rfl
    exact absurd hc (by decide)
  have hlast : (n.text.getLast?.map suffixFactor).getD 1 =
      (n.suffix.map Suffix.factor).getD 1 := by
    rw [Number.text]
    cases n.suffix with
    | none =>
      have hlast := List.getLast?_eq_some_getLast n.digitsText_ne_nil
      rw [Option.map_none, Option.toList_none, List.append_nil, hlast, Option.map_some,
        suffixFactor_of_digit (n.mem_digitsText (List.getLast_mem _))]
      rfl
    | some suffix => simp [suffixFactor_char]
  rw [str2double_rat, hatof, n.atofUnsigned_eq, hlast, Number.value]

/-- A number with and without the prefix for negative numbers. -/
theorem Number.readNumber_eq (n : Number) (flip : Bool) :
  readNumber ((if flip then [negative] else []) ++ n.text) =
    some (if flip then -n.value else n.value)
  := by
  cases flip with
  | true =>
    change readNumber (negative :: n.text) = some (-n.value)
    rw [readNumber, if_pos rfl, if_pos n.accepted, n.str2double_eq, neg_rat]
  | false =>
    change readNumber n.text = some n.value
    obtain ⟨c, rest, htext, hc⟩ := n.text_head
    have hne : c ≠ negative := by
      rintro rfl
      exact absurd hc (by decide)
    have haccepted := n.accepted
    have hvalue := n.str2double_eq
    rw [htext] at haccepted hvalue ⊢
    rw [readNumber, if_neg hne, if_pos haccepted, hvalue]

/-- What `is_double_suffix` accepts. -/
theorem mem_of_isDoubleSuffixLoop {first point : Bool} {text : Bytes}
    (h : isDoubleSuffixLoop first point text = true) :
  ∀ c ∈ text, isDigit c = true ∨ c = dot ∨ c = minus ∨ c ∈ suffixes
  := by
  fun_induction isDoubleSuffixLoop first point text with
  | case1 => exact fun c hc => nomatch hc
  | case2 first point c rest hc ih => exact List.forall_mem_cons.mpr ⟨.inr (.inr (.inl hc.1)), ih h⟩
  | case3 first point c rest _ hc ih => exact List.forall_mem_cons.mpr ⟨.inl hc, ih h⟩
  | case4 first point c rest _ _ hc ih =>
    exact List.forall_mem_cons.mpr ⟨.inr (.inl hc.1), ih h⟩
  | case5 first point c rest _ _ _ hc ih =>
    exact List.forall_mem_cons.mpr ⟨.inr (.inr (.inr hc.1)), ih h⟩
  | case6 => cases h

/-- A text with an operator in it is not read as a number. -/
theorem readNumber_eq_none {op : Operator} (hop : op ≠ .sub) {text : Bytes} (h : op.char ∈ text) :
  (readNumber text : Option ℚ) = none
  := by
  have hchar : ¬ (isDigit op.char = true ∨ op.char = dot ∨ op.char = minus ∨ op.char ∈ suffixes) ∧
      op.char ≠ negative := by
    revert hop
    cases op <;> decide
  have hreject : ∀ text : Bytes, op.char ∈ text → ¬ isDoubleSuffix text = true :=
    fun text hmem haccepted => hchar.1 (mem_of_isDoubleSuffixLoop haccepted _ hmem)
  cases text with
  | nil => cases h
  | cons c rest =>
    rw [readNumber]
    split
    case isTrue hc =>
      rw [hc] at h
      rw [if_neg (hreject rest ((List.mem_cons.mp h).resolve_left hchar.2))]
    case isFalse => rw [if_neg (hreject _ h)]

/-! ### Numbers that grew together -/

/-- Somewhere a suffix stands before the start of a number. -/
def Glued : Bytes → Prop
  | a :: b :: rest =>
    (a ∈ suffixes ∧ (isDigit b = true ∨ b = dot ∨ b = negative)) ∨ Glued (b :: rest)
  | _ => False

theorem Glued.cons {text : Bytes} (h : Glued text) (c : UInt8) :
  Glued (c :: text)
  := by
  match text, h with
  | _ :: _, h => exact .inr h

theorem Glued.prepend {text : Bytes} (h : Glued text) (text' : Bytes) :
  Glued (text' ++ text)
  := by
  induction text' with
  | nil => exact h
  | cons c rest ih => exact ih.cons c

theorem Glued.append {text : Bytes} (h : Glued text) (text' : Bytes) :
  Glued (text ++ text')
  := by
  induction text with
  | nil => cases h
  | cons a rest ih =>
    match rest, h with
    | b :: rest, .inl hpair => exact .inl hpair
    | b :: rest, .inr hrest => exact .inr (ih hrest)

/-- A text with numbers that grew together is not read as a number. -/
theorem Glued.not_accepted {first point : Bool} {text : Bytes} (h : Glued text) :
  isDoubleSuffixLoop first point text = false
  := by
  induction text generalizing first point with
  | nil => cases h
  | cons a rest ih =>
    match rest, h with
    | b :: rest, .inl hpair =>
      have hsuffix : ∀ c ∈ suffixes, isDigit c = false ∧ c ≠ dot ∧ c ≠ minus := by
        decide +kernel
      obtain ⟨hdigit, hdot, hminus⟩ := hsuffix a hpair.1
      rw [isDoubleSuffixLoop, if_neg (fun hc => hminus hc.1), hdigit, if_neg Bool.false_ne_true,
        if_neg (fun hc => hdot hc.1), if_neg (fun hc => List.cons_ne_nil _ _ hc.2)]
    | b :: rest, .inr hrest =>
      rw [isDoubleSuffixLoop]
      simp only [ih hrest, ite_self]

theorem Glued.readNumber_eq_none {text : Bytes} (h : Glued text) :
  (readNumber text : Option ℚ) = none
  := by
  cases text with
  | nil => cases h
  | cons c rest =>
    rw [readNumber]
    split
    case isTrue hc =>
      match rest, h with
      | b :: rest, .inl hpair =>
        rw [hc] at hpair
        exact absurd hpair.1 (by decide)
      | b :: rest, .inr hrest =>
        rw [isDoubleSuffix, hrest.not_accepted]
        rfl
    case isFalse =>
      rw [isDoubleSuffix, h.not_accepted]
      rfl

/-- Taking a text apart at an operator leaves the numbers together. -/
theorem Glued.operands {left right : Bytes} {op : Operator}
    (h : Glued (left ++ op.char :: right)) :
  Glued left ∨ Glued right
  := by
  have hop : op.char ∉ suffixes ∧
      ¬ (isDigit op.char = true ∨ op.char = dot ∨ op.char = negative) := by
    cases op <;> decide
  induction left with
  | nil =>
    match right, h with
    | [], h => cases h
    | b :: right, .inl hpair => exact absurd hpair.1 hop.1
    | b :: right, .inr hrest => exact .inr hrest
  | cons a left ih =>
    match left, h with
    | [], .inl hpair => exact absurd hpair.2 hop.2
    | [], .inr hrest => exact (ih hrest).imp_left fun hnil => hnil.elim
    | b :: left, .inl hpair => exact .inl (.inl hpair)
    | b :: left, .inr hrest => exact (ih hrest).imp_left .inr

/-- Numbers that grew together have no value. -/
theorem Glued.evaluates {text : Bytes} (h : Glued text) (hsettled : Settled false text) :
  Evaluates text none
  := by
  induction hlength : text.length using Nat.strong_induction_on generalizing text with
  | _ n ih =>
    cases hfind : findOperator text with
    | none => exact hsettled.evaluates_nothing h.readNumber_eq_none hfind
    | some parts =>
      obtain ⟨op, left, right⟩ := parts
      have htext := findOperator_eq hfind
      have hop : endsOperand (some op.char) = false := by cases op <;> decide
      have hlen : left.length + right.length + 1 = n := by
        rw [← hlength, htext, List.length_append, List.length_cons]
        omega
      have hglued := h
      have hoperands := hsettled
      rw [htext] at hglued hoperands
      obtain ⟨hleft, hright⟩ := hoperands.operands hop
      obtain ⟨v1, hv1⟩ := hleft.exists_evaluates
      obtain ⟨v2, hv2⟩ := hright.exists_evaluates
      have hvalue := hsettled.evaluates_operator h.readNumber_eq_none hfind hv1 hv2
      obtain hg | hg := hglued.operands
      · have hnone : v1 = none := (hv1 0).symm.trans (ih left.length (by omega) hg hleft rfl 0)
        rw [hnone] at hvalue
        exact hvalue
      · have hnone : v2 = none := (hv2 0).symm.trans (ih right.length (by omega) hg hright rfl 0)
        rw [hnone] at hvalue
        cases v1 <;> exact hvalue

end Expression
