import Zabbix.Expression.Buffers
import Zabbix.Expression.Rounds
import Zabbix.Library.Recognizer

/-!
# What the evaluator accepts

`is_double_suffix` accepts the empty string, so that operands can be missing, and the printed
value of a pair of parentheses is read together with what stands around it. What `evaluate`
accepts is described by three recognizers: the parentheses are balanced, and the words between
operators and parentheses are numbers that may lack digits. When also no operand is missing and
none follows another one, the text is an expression.
-/

open Ascii Recognizer

namespace Expression

variable {D : Type*} [CDouble D]

/-! ### Words -/

def isOperator (c : UInt8) : Bool := Operator.all.any fun op => c = op.char

/-- What ends a word. The prefix of a negative number stands in front of a word, and parentheses
can be left out. -/
def separates (parens : Bool) (c : UInt8) : Bool :=
  isOperator c || c = negative || parens && (c = leftParen || c = rightParen)

/-- What has been read of a word. -/
structure Word where
  point : Bool
  ended : Bool
deriving DecidableEq

/-- Nothing has been read. -/
def Word.start : Word := ⟨false, false⟩

/-- A word has digits, one point at most, and one suffix at most, which ends it. -/
def Word.step (parens : Bool) (w : Word) (c : UInt8) : Option Word :=
  if c = space then some w
  else if separates parens c then some start
  else if w.ended then none
  else if isDigit c then some w
  else if c = dot ∧ w.point = false then some ⟨true, false⟩
  else if c ∈ suffixes then some ⟨w.point, true⟩
  else none

/-- From this state the words are numbers, up to missing digits. -/
def WordsFrom (parens : Bool) (w : Word) (text : Bytes) : Prop :=
  Accepts (Word.step parens) (fun _ => True) w text

/-- The words of a text are numbers, up to missing digits. -/
abbrev Words (text : Bytes) : Prop := WordsFrom true .start text

/-- At least as much can follow. -/
def Word.Le (w w' : Word) : Prop :=
  (w.point = true → w'.point = true) ∧ (w.ended = true → w'.ended = true)

theorem Word.start_le (w : Word) :
  start.Le w
  := ⟨(nomatch ·), (nomatch ·)⟩

section Words

variable {parens : Bool} {w w' : Word} {c : UInt8} {text text' : Bytes}

theorem Word.step_separates (h : separates parens c = true) :
  w.step parens c = some start
  := by
  have hspace : c ≠ space := by
    rintro rfl
    revert h
    cases parens <;> decide
  rw [step, if_neg hspace, if_pos h]

theorem Word.step_space :
  w.step parens space = some w
  := if_pos rfl

theorem Word.Le.step (hle : w.Le w') {v' : Word} (h : w'.step parens c = some v') :
  ∃ v, w.step parens c = some v ∧ v.Le v'
  := by
  unfold Word.step at h ⊢
  obtain ⟨hpoint, hended⟩ := hle
  split_ifs at h ⊢ <;> grind [Word.Le, Word.start]

theorem WordsFrom.mono (h : WordsFrom parens w' text) (hle : w.Le w') :
  WordsFrom parens w text
  := by
  have hstep : ∀ (w w' : Word) (c : UInt8) (v' : Word), w.Le w' → w'.step parens c = some v' →
      ∃ v, w.step parens c = some v ∧ v.Le v' :=
    fun _ _ _ _ hle => hle.step
  exact Accepts.simulate Word.Le hstep (fun _ _ _ _ => trivial) hle h

theorem WordsFrom.start (h : WordsFrom parens w text) :
  WordsFrom parens .start text
  := h.mono w.start_le

theorem wordsFrom_cons :
  WordsFrom parens w (c :: text) ↔ ∃ v, w.step parens c = some v ∧ WordsFrom parens v text
  := accepts_cons

theorem wordsFrom_separator (h : separates parens c = true) :
  WordsFrom parens w (c :: text) ↔ WordsFrom parens .start text
  := by
  rw [wordsFrom_cons, Word.step_separates h]
  simp

theorem wordsFrom_append :
  WordsFrom parens w (text ++ text')
    ↔ ∃ v, text.foldlM (Word.step parens) w = some v ∧ WordsFrom parens v text'
  := accepts_append

theorem WordsFrom.left (h : WordsFrom parens w (text ++ text')) :
  WordsFrom parens w text
  := by
  obtain ⟨v, hv, -⟩ := wordsFrom_append.mp h
  exact ⟨v, hv, trivial⟩

/-- Two texts with a separator between them. -/
theorem WordsFrom.separated (h : WordsFrom parens w text) (hc : separates parens c = true)
    (h' : WordsFrom parens .start text') :
  WordsFrom parens w (text ++ c :: text')
  := by
  obtain ⟨v, hv, -⟩ := h
  exact wordsFrom_append.mpr ⟨v, hv, (wordsFrom_separator hc).mpr h'⟩

theorem wordsFrom_zbxRemoveSpaces :
  WordsFrom parens w (zbxRemoveSpaces text) ↔ WordsFrom parens w text
  := by
  refine accepts_filter fun w c hc => ?_
  obtain rfl : c = space := by simpa using hc
  exact Word.step_space

end Words

/-! ### What a single number lets through -/

theorem isDigit_not_separates {c : UInt8} (h : isDigit c = true ∨ c = dot ∨ c ∈ suffixes) :
  c ≠ space ∧ separates false c = false
  := by
  have hop : ∀ op : Operator, ¬ (isDigit op.char = true ∨ op.char = dot ∨ op.char ∈ suffixes) := by
    intro op
    cases op <;> decide
  constructor
  · rintro rfl
    exact absurd h (by decide)
  · rw [Bool.eq_false_iff, separates, Bool.false_and, Bool.or_false]
    intro hseparates
    obtain hoperator | hnegative := Bool.or_eq_true_iff.mp hseparates
    · obtain ⟨op, -, hc⟩ := List.any_eq_true.mp hoperator
      rw [decide_eq_true_eq] at hc
      exact hop op (hc ▸ h)
    · rw [decide_eq_true_eq] at hnegative
      subst hnegative
      exact absurd h (by decide)

theorem suffix_not_digit_dot {c : UInt8} (h : c ∈ suffixes) :
  isDigit c = false ∧ c ≠ dot
  := by
  have hall : suffixes.Forall fun c => isDigit c = false ∧ c ≠ dot := by decide
  exact List.forall_iff_forall_mem.mp hall c h

theorem Word.step_digit {c : UInt8} (h : isDigit c = true) (point : Bool) :
  Word.step false ⟨point, false⟩ c = some ⟨point, false⟩
  := by
  obtain ⟨hspace, hseparates⟩ := isDigit_not_separates (.inl h)
  rw [step, if_neg hspace, if_neg (by simp [hseparates]), if_neg (by simp), if_pos h]

theorem wordsFrom_of_isDoubleSuffixLoop {first point : Bool} {text : Bytes}
    (h : isDoubleSuffixLoop first point text = true) :
  WordsFrom false ⟨point, false⟩ text
  := by
  induction text generalizing first point with
  | nil => exact accepts_nil.mpr trivial
  | cons c rest ih =>
    rw [isDoubleSuffixLoop] at h
    split_ifs at h with hminus hdigit hdot hsuffix
    · rw [hminus.1, wordsFrom_separator (by decide)]
      exact (ih h).start
    · exact wordsFrom_cons.mpr ⟨_, Word.step_digit hdigit point, ih h⟩
    · obtain ⟨hspace, hseparates⟩ := isDigit_not_separates (.inr (.inl hdot.1))
      refine wordsFrom_cons.mpr ⟨⟨true, false⟩, ?_, ih h⟩
      rw [Word.step, if_neg hspace, if_neg (by simp [hseparates]), if_neg (by simp),
        if_neg hdigit, if_pos ⟨hdot.1, by simpa using hdot.2⟩]
    · obtain ⟨hsuffix, rfl⟩ := hsuffix
      obtain ⟨hspace, hseparates⟩ := isDigit_not_separates (.inr (.inr hsuffix))
      refine wordsFrom_cons.mpr ⟨⟨point, true⟩, ?_, accepts_nil.mpr trivial⟩
      rw [Word.step, if_neg hspace, if_neg (by simp [hseparates]), if_neg (by simp),
        if_neg hdigit, if_neg (by simp [(suffix_not_digit_dot hsuffix).2]), if_pos hsuffix]

theorem wordsFrom_of_readNumber {text : Bytes} {value : D} (h : readNumber text = some value) :
  WordsFrom false .start text
  := by
  have hloop : ∀ {text}, isDoubleSuffix text = true → WordsFrom false .start text :=
    fun hdouble => wordsFrom_of_isDoubleSuffixLoop hdouble
  cases text with
  | nil => exact accepts_nil.mpr trivial
  | cons c rest =>
    rw [readNumber] at h
    split_ifs at h with hnegative hdouble hdouble
    · rw [hnegative, wordsFrom_separator (by decide)]
      exact hloop hdouble
    · exact hloop hdouble

/-! ### Signs -/

theorem separates_sign {parens : Bool} {c : UInt8} (h : isSign c = true) :
  separates parens c = true
  := by
  obtain rfl | rfl := isSign_iff.mp h <;> cases parens <;> decide

/-- Words are not changed by `compress_signs`, though words can be joined: where the sign
between them was deleted they are read as one. -/
theorem WordsFrom.of_scanSigns {parens prev : Bool} {pending : Option UInt8} {w : Word}
    {text : Bytes} (h : WordsFrom parens w (scanSigns prev pending text)) :
  WordsFrom parens (if pending.isSome then .start else w) text
  := by
  induction text generalizing prev pending w with
  | nil => exact accepts_nil.mpr trivial
  | cons c rest ih =>
    rw [scanSigns] at h
    split at h
    case isTrue hsign =>
      rw [wordsFrom_separator (separates_sign hsign)]
      exact ih h
    case isFalse hsign =>
      obtain ⟨v, hv, hrest⟩ := wordsFrom_append.mp h
      have hstate : WordsFrom parens (if pending.isSome then .start else w)
          (c :: scanSigns (endsOperand (some c)) none rest) := by
        cases pending with
        | none =>
          obtain rfl : w = v := Option.some.inj hv
          exact hrest
        | some sign => exact hrest.start
      obtain ⟨v', hv', hrest'⟩ := wordsFrom_cons.mp hstate
      exact wordsFrom_cons.mpr ⟨v', hv', ih hrest'⟩

theorem zbxRemoveSpaces_zbxLrtrim (text : Bytes) :
  zbxRemoveSpaces (zbxLrtrim text) = zbxRemoveSpaces text
  := by
  have hleft : ∀ text : Bytes,
      zbxRemoveSpaces (text.dropWhile (· = space)) = zbxRemoveSpaces text := by
    intro text
    induction text with
    | nil => rfl
    | cons c text ih =>
      by_cases hc : c = space
      · rw [List.dropWhile_cons_of_pos (by simpa using hc), ih, zbxRemoveSpaces, zbxRemoveSpaces,
          List.filter_cons_of_neg (by simpa using hc)]
      · rw [List.dropWhile_cons_of_neg (by simpa using hc)]
  rw [zbxLrtrim, zbxLtrim, hleft, zbxRtrim, List.rdropWhile, zbxRemoveSpaces, List.filter_reverse,
    ← zbxRemoveSpaces, hleft, zbxRemoveSpaces, List.filter_reverse, List.reverse_reverse]
  rfl

theorem separates_operator (parens : Bool) (op : Operator) :
  separates parens op.char = true
  := by
  cases op <;> cases parens <;> decide

/-- What `evaluate_simple` accepts. There are no parentheses in it. -/
theorem wordsFrom_of_evaluateSimple {room : ℕ} {text : Bytes} {value : D}
    (h : evaluateSimple room text = .ok value) :
  WordsFrom false .start text
  := by
  induction hweight : weight text using Nat.strong_induction_on generalizing room text value with
  | _ n ih =>
    rw [evaluateSimple_eq] at h
    cases hcompress : compressSigns room (zbxLrtrim text) with
    | none =>
      rw [hcompress] at h
      cases h
    | some expression =>
      rw [hcompress] at h
      dsimp only at h
      have hexpression : WordsFrom false .start expression := by
        cases hread : (readNumber expression : Option D) with
        | some value => exact wordsFrom_of_readNumber hread
        | none =>
          rw [hread] at h
          dsimp only at h
          cases hfind : findOperator expression with
          | none =>
            rw [hfind] at h
            cases h
          | some sides =>
            obtain ⟨op, left, right⟩ := sides
            rw [hfind] at h
            dsimp only at h
            obtain ⟨hleft, hright⟩ := weight_operands hcompress hfind
            cases hvalue1 : (evaluateSimple left.length left : Except Failure D) with
            | error failure =>
              rw [hvalue1] at h
              cases h
            | ok value1 =>
              rw [hvalue1] at h
              dsimp only at h
              cases hvalue2 :
                  (evaluateSimple (room - left.length - 1) right : Except Failure D) with
              | error failure =>
                rw [hvalue2] at h
                cases h
              | ok value2 =>
                rw [findOperator_eq hfind]
                exact (ih _ (hweight ▸ hleft) hvalue1 rfl).separated (separates_operator false op)
                  (ih _ (hweight ▸ hright) hvalue2 rfl)
      rw [compressSigns_eq hcompress] at hexpression
      rw [← wordsFrom_zbxRemoveSpaces, ← zbxRemoveSpaces_zbxLrtrim, wordsFrom_zbxRemoveSpaces]
      exact hexpression.of_scanSigns

/-! ### Parentheses -/

theorem Word.step_paren {w : Word} {c : UInt8} (h : c = leftParen ∨ c = rightParen) :
  w.step false c = none
  := by
  obtain ⟨point, ended⟩ := w
  obtain rfl | rfl := h <;> cases point <;> cases ended <;> decide

theorem WordsFrom.no_parens {w : Word} {text : Bytes} (h : WordsFrom false w text) :
  leftParen ∉ text ∧ rightParen ∉ text
  := by
  have hnot : ∀ c, c = leftParen ∨ c = rightParen → c ∉ text := by
    rintro c hc hmem
    obtain ⟨front, back, rfl⟩ := List.append_of_mem hmem
    obtain ⟨v, -, hback⟩ := wordsFrom_append.mp h
    obtain ⟨v', hv', -⟩ := wordsFrom_cons.mp hback
    rw [Word.step_paren hc] at hv'
    contradiction
  exact ⟨hnot _ (.inl rfl), hnot _ (.inr rfl)⟩

theorem WordsFrom.parens {w : Word} {text : Bytes} (h : WordsFrom false w text) :
  WordsFrom true w text
  := by
  refine Accepts.simulate Eq ?_ (fun _ _ _ _ => trivial) rfl h
  rintro w _ c w' rfl hstep
  refine ⟨w', ?_, rfl⟩
  have hparen : ¬ (c = leftParen ∨ c = rightParen) := by
    intro hc
    rw [Word.step_paren hc] at hstep
    contradiction
  have hseparates : separates true c = separates false c := by
    simp only [separates, Bool.true_and, Bool.false_and, Bool.or_false]
    rw [decide_eq_false fun hleft => hparen (.inl hleft),
      decide_eq_false fun hright => hparen (.inr hright)]
    simp
  rwa [Word.step, hseparates]

/-- The number of open parentheses. -/
def depthStep (depth : ℕ) (c : UInt8) : Option ℕ :=
  if c = leftParen then some (depth + 1)
  else if c = rightParen then depth.rec none fun depth _ => some depth
  else some depth

/-- The parentheses that are open are closed again. -/
def BalancedFrom (depth : ℕ) (text : Bytes) : Prop := Accepts depthStep (· = 0) depth text

abbrev Balanced (text : Bytes) : Prop := BalancedFrom 0 text

section Balanced

variable {depth : ℕ} {c : UInt8} {text text' : Bytes}

theorem depthStep_other (hleft : c ≠ leftParen) (hright : c ≠ rightParen) :
  depthStep depth c = some depth
  := by
  rw [depthStep, if_neg hleft, if_neg hright]

theorem foldlM_depthStep (hleft : leftParen ∉ text) (hright : rightParen ∉ text) :
  text.foldlM depthStep depth = some depth
  := foldlM_stays fun _ hc => depthStep_other (fun heq => hleft (heq ▸ hc))
    (fun heq => hright (heq ▸ hc))

theorem balancedFrom_nil :
  BalancedFrom depth [] ↔ depth = 0
  := accepts_nil

theorem balancedFrom_other (hleft : c ≠ leftParen) (hright : c ≠ rightParen) :
  BalancedFrom depth (c :: text) ↔ BalancedFrom depth text
  := by
  refine accepts_cons.trans ?_
  rw [depthStep_other hleft hright]
  simp [BalancedFrom]

theorem balancedFrom_leftParen :
  BalancedFrom depth (leftParen :: text) ↔ BalancedFrom (depth + 1) text
  := by
  refine accepts_cons.trans ?_
  simp [depthStep, BalancedFrom]

theorem balancedFrom_rightParen :
  BalancedFrom (depth + 1) (rightParen :: text) ↔ BalancedFrom depth text
  := by
  refine accepts_cons.trans ?_
  have hne : rightParen ≠ leftParen := by decide
  simp [depthStep, BalancedFrom, hne]

theorem not_balancedFrom_rightParen :
  ¬ BalancedFrom 0 (rightParen :: text)
  := by
  intro h
  obtain ⟨depth, hdepth, -⟩ := accepts_cons.mp h
  contradiction

/-- A text without parentheses does not matter. -/
theorem balancedFrom_append (hleft : leftParen ∉ text) (hright : rightParen ∉ text) :
  BalancedFrom depth (text ++ text') ↔ BalancedFrom depth text'
  := by
  refine accepts_append.trans ?_
  rw [foldlM_depthStep hleft hright]
  simp [BalancedFrom]

theorem balancedFrom_zbxRemoveSpaces :
  BalancedFrom depth (zbxRemoveSpaces text) ↔ BalancedFrom depth text
  := by
  refine accepts_filter fun depth c hc => ?_
  obtain rfl : c = space := by simpa using hc
  rfl

end Balanced

/-! ### Rounds -/

theorem eq_of_parts {tmp before simple after : Bytes}
    (h : parts tmp = some (before, simple, after)) :
  tmp = before ++ leftParen :: (simple ++ rightParen :: after)
  := by
  obtain ⟨front, hright, hleft⟩ := strchr_of_parts h
  rw [strchr_eq hright, strrchr_eq hleft]
  simp

theorem not_mem_printDouble (value : D) :
  leftParen ∉ printDouble value ∧ rightParen ∉ printDouble value
  := ⟨CDouble.not_mem_print value (by decide), CDouble.not_mem_print value (by decide)⟩

/-- A pair of parentheses in place of its printed value. -/
theorem words_of_round {before simple after printed : Bytes}
    (h : Words (before ++ (printed ++ after))) (hsimple : WordsFrom false .start simple) :
  Words (before ++ leftParen :: (simple ++ rightParen :: after))
  := by
  obtain ⟨v, -, hafter⟩ := wordsFrom_append.mp h
  obtain ⟨v', -, hafter'⟩ := wordsFrom_append.mp hafter
  exact h.left.separated (by decide) (hsimple.parens.separated (by decide) hafter'.start)

theorem balanced_of_round {before simple after printed : Bytes}
    (h : Balanced (before ++ (printed ++ after)))
    (hprinted : leftParen ∉ printed ∧ rightParen ∉ printed)
    (hsimple : leftParen ∉ simple ∧ rightParen ∉ simple) :
  Balanced (before ++ leftParen :: (simple ++ rightParen :: after))
  := by
  obtain ⟨depth, hdepth, hafter⟩ := accepts_append.mp h
  refine accepts_append.mpr ⟨depth, hdepth, balancedFrom_leftParen.mpr ?_⟩
  rw [balancedFrom_append hsimple.1 hsimple.2, balancedFrom_rightParen]
  exact (balancedFrom_append hprinted.1 hprinted.2).mp hafter

theorem count_round {tmp tmp' : Bytes} (h : Round D tmp tmp') :
  tmp'.count rightParen < tmp.count rightParen
  := by
  cases h with
  | @intro before simple after value hparts _ =>
    have hreplaced : (strscpy (replaced before after value)).count rightParen
        ≤ (before ++ (strscpy (printDouble value) ++ after)).count rightParen :=
      ((List.take_sublist _ _).trans List.filter_sublist).count_le _
    have hprinted : (strscpy (printDouble value)).count rightParen ≤ 0 :=
      ((List.take_sublist _ _).count_le _).trans (count_printDouble value).le
    rw [eq_of_parts hparts]
    simp only [List.count_append, List.count_cons, beq_self_eq_true, if_true] at hreplaced ⊢
    omega

/-- What the loop of `evaluate` accepts, when its buffers keep the text. -/
theorem words_balanced_of_evaluateLoop {tmp : Bytes} {value : D}
    (h : evaluateLoop tmp = .ok value)
    (hkept : ∀ tmp', Relation.ReflTransGen (Round D) tmp tmp' → Kept D tmp') :
  Words tmp ∧ Balanced tmp
  := by
  induction hcount : tmp.count rightParen using Nat.strong_induction_on generalizing tmp with
  | _ n ih =>
    obtain ⟨-, hvalue⟩ | ⟨before, simple, after, v, hparts, hvalue⟩ := evaluateLoop_ok h
    · have hwords := wordsFrom_of_evaluateSimple hvalue
      obtain ⟨hleft, hright⟩ := hwords.no_parens
      refine ⟨hwords.parens, 0, foldlM_depthStep hleft hright, rfl⟩
    · have hround : Round D tmp _ := .intro hparts hvalue
      obtain ⟨hprinted, hreplaced⟩ := (hkept tmp .refl).value before simple after v hparts hvalue
      rw [strscpy_eq hreplaced] at hround
      have hnext : evaluateLoop (replaced before after v) = .ok value := by
        rw [← evaluateLoop_of_round hround, h]
      obtain ⟨hwords, hbalanced⟩ := ih _ (hcount ▸ count_round hround) hnext
        (fun tmp' htmp' => hkept tmp' (.head hround htmp')) rfl
      rw [replaced, strscpy_eq hprinted] at hwords hbalanced
      have hsimple := wordsFrom_of_evaluateSimple hvalue
      rw [eq_of_parts hparts]
      exact ⟨words_of_round (wordsFrom_zbxRemoveSpaces.mp hwords) hsimple,
        balanced_of_round (balancedFrom_zbxRemoveSpaces.mp hbalanced) (not_mem_printDouble v)
          hsimple.no_parens⟩

/-! ### The grammar -/

/-- The texts of expressions: numbers, signs in front of expressions, pairs of parentheses, and
operators with both operands. -/
inductive Derives : Bytes → Prop
  | number (n : Number) : Derives n.text
  | sign {c : UInt8} {text : Bytes} (hc : isSign c = true) (h : Derives text) : Derives (c :: text)
  | paren {text : Bytes} (h : Derives text) : Derives (leftParen :: (text ++ [rightParen]))
  | binary (op : Operator) {left right : Bytes} (h : Derives left) (h' : Derives right) :
    Derives (left ++ op.char :: right)

theorem Expr.derives (e : Expr) :
  Derives e.text
  := by
  induction e with
  | number n => exact .number n
  | neg e ih => exact .sign (by decide) ih
  | paren e ih => exact .paren ih
  | binary op left right ih ih' => exact .binary op ih ih'

/-! ### Operands -/

/-- Where the next character stands: where an operand begins, in a word, with a digit or
without, or behind a right parenthesis. -/
inductive Place
  | operand
  | word (digit : Bool)
  | behind
deriving DecidableEq

/-- No operand is missing, and none follows another one. -/
def Place.step : Place → UInt8 → Option Place
  | operand, c =>
    if c = leftParen ∨ isSign c then some operand
    else if c = rightParen ∨ isOperator c then none
    else some (word (isDigit c))
  | word digit, c =>
    if c = leftParen then none
    else if c = rightParen then if digit then some behind else none
    else if isOperator c then if digit then some operand else none
    else some (word (digit || isDigit c))
  | behind, c =>
    if c = rightParen then some behind else if isOperator c then some operand else none

/-- A text can end here. -/
def Place.Final : Place → Prop
  | operand => False
  | word digit => digit = true
  | behind => True

instance : DecidablePred Place.Final
  | .operand => isFalse not_false
  | .word digit => inferInstanceAs (Decidable (digit = true))
  | .behind => isTrue trivial

def OperandsFrom (place : Place) (text : Bytes) : Prop :=
  Accepts Place.step Place.Final place text

instance (place : Place) (text : Bytes) : Decidable (OperandsFrom place text) :=
  inferInstanceAs (Decidable (Accepts _ _ _ _))

theorem operandsFrom_nil {place : Place} :
  OperandsFrom place [] ↔ place.Final
  := accepts_nil

/-- No operand of the text is missing, and none follows another one. -/
abbrev Operands (text : Bytes) : Prop := OperandsFrom .operand text

/-! ### Numbers -/

/-- A character of a word. -/
def IsPlain (c : UInt8) : Prop := c ≠ space ∧ separates true c = false

theorem exists_suffix {c : UInt8} (h : c ∈ suffixes) :
  ∃ suffix : Suffix, suffix.char = c
  := by
  have hmem : c ∈ [Suffix.kibi, .mebi, .gibi, .tebi, .second, .minute, .hour, .day, .week].map
      Suffix.char := h
  obtain ⟨suffix, -, hsuffix⟩ := List.mem_map.mp hmem
  exact ⟨suffix, hsuffix⟩

section Numbers

variable {c : UInt8} {text : Bytes}

theorem Word.step_plain (hc : IsPlain c) {point : Bool} {v : Word}
    (h : Word.step true ⟨point, false⟩ c = some v) :
  isDigit c = true ∧ v = ⟨point, false⟩ ∨ c = dot ∧ point = false ∧ v = ⟨true, false⟩ ∨
    c ∈ suffixes ∧ v = ⟨point, true⟩
  := by
  rw [step, if_neg hc.1, if_neg (by simp [hc.2]), if_neg (by simp)] at h
  split_ifs at h with hdigit hdot hsuffix
  · exact .inl ⟨hdigit, (Option.some.inj h).symm⟩
  · exact .inr (.inl ⟨hdot.1, hdot.2, (Option.some.inj h).symm⟩)
  · exact .inr (.inr ⟨hsuffix, (Option.some.inj h).symm⟩)

/-- Nothing follows a suffix. -/
theorem eq_nil_of_ended {point : Bool} (h : WordsFrom true ⟨point, true⟩ text)
    (hplain : ∀ c ∈ text, IsPlain c) :
  text = []
  := by
  cases text with
  | nil => rfl
  | cons c text =>
    obtain ⟨v, hv, -⟩ := wordsFrom_cons.mp h
    have hc := hplain c List.mem_cons_self
    rw [Word.step, if_neg hc.1, if_neg (by simp [hc.2]), if_pos rfl] at hv
    contradiction

/-- What follows the point of a word. -/
theorem exists_fraction (h : WordsFrom true ⟨true, false⟩ text) (hplain : ∀ c ∈ text, IsPlain c) :
  ∃ digits, ∃ suffix : Option Suffix, (∀ c ∈ digits, isDigit c = true) ∧
    text = digits ++ (suffix.map Suffix.char).toList
  := by
  induction text with
  | nil => exact ⟨[], none, by simp, rfl⟩
  | cons c text ih =>
    obtain ⟨hc, hplain'⟩ := List.forall_mem_cons.mp hplain
    obtain ⟨v, hv, hrest⟩ := wordsFrom_cons.mp h
    obtain ⟨hdigit, rfl⟩ | ⟨-, hfalse, -⟩ | ⟨hsuffix, rfl⟩ := Word.step_plain hc hv
    · obtain ⟨digits, suffix, hdigits, rfl⟩ := ih hrest hplain'
      exact ⟨c :: digits, suffix, List.forall_mem_cons.mpr ⟨hdigit, hdigits⟩, rfl⟩
    · contradiction
    · obtain rfl := eq_nil_of_ended hrest hplain'
      obtain ⟨suffix, rfl⟩ := exists_suffix hsuffix
      exact ⟨[], some suffix, by simp, rfl⟩

/-- The parts of a word. -/
theorem exists_whole (h : WordsFrom true .start text) (hplain : ∀ c ∈ text, IsPlain c) :
  ∃ whole, ∃ fraction : Option Bytes, ∃ suffix : Option Suffix,
    (∀ c ∈ whole, isDigit c = true) ∧ (∀ c ∈ fraction.getD [], isDigit c = true) ∧
    text = whole ++ (fraction.elim [] (dot :: ·) ++ (suffix.map Suffix.char).toList)
  := by
  induction text with
  | nil => exact ⟨[], none, none, by simp, by simp, rfl⟩
  | cons c text ih =>
    obtain ⟨hc, hplain'⟩ := List.forall_mem_cons.mp hplain
    obtain ⟨v, hv, hrest⟩ := wordsFrom_cons.mp h
    obtain ⟨hdigit, rfl⟩ | ⟨rfl, -, rfl⟩ | ⟨hsuffix, rfl⟩ := Word.step_plain hc hv
    · obtain ⟨whole, fraction, suffix, hwhole, hfraction, rfl⟩ := ih hrest hplain'
      exact ⟨c :: whole, fraction, suffix, List.forall_mem_cons.mpr ⟨hdigit, hwhole⟩, hfraction,
        rfl⟩
    · obtain ⟨digits, suffix, hdigits, rfl⟩ := exists_fraction hrest hplain'
      exact ⟨[], some digits, suffix, by simp, hdigits, rfl⟩
    · obtain rfl := eq_nil_of_ended hrest hplain'
      obtain ⟨suffix, rfl⟩ := exists_suffix hsuffix
      exact ⟨[], none, some suffix, by simp, by simp, rfl⟩

/-- A word with a digit is a number. -/
theorem exists_number (h : WordsFrom true .start text) (hplain : ∀ c ∈ text, IsPlain c)
    (hdigit : text.any isDigit = true) :
  ∃ n : Number, n.text = text
  := by
  obtain ⟨whole, fraction, suffix, hwhole, hfraction, rfl⟩ := exists_whole h hplain
  have hne : whole ++ fraction.getD [] ≠ [] := by
    intro hnil
    obtain ⟨rfl, hnil⟩ := List.append_eq_nil_iff.mp hnil
    have hsuffix : ∀ suffix : Suffix, isDigit suffix.char = false := by
      intro suffix
      cases suffix <;> decide
    cases fraction with
    | none => cases suffix <;> simp [hsuffix] at hdigit
    | some digits =>
      obtain rfl : digits = [] := hnil
      cases suffix <;> simp [hsuffix] at hdigit <;> exact absurd hdigit (by decide)
  refine ⟨⟨whole, fraction, suffix, hwhole, hfraction, hne⟩, ?_⟩
  rw [Number.text, Number.digitsText]
  cases fraction <;> simp

end Numbers

/-! ### Expressions -/

/-- What is known of the rest of a text: its operands, its parentheses, of which some are open,
and its words. -/
structure Rest (place : Place) (depth : ℕ) (text : Bytes) : Prop where
  operands : OperandsFrom place text
  balanced : BalancedFrom depth text
  words : Words text
  spaces : space ∉ text
  mark : negative ∉ text

/-- A front of the text has a property, and behind it the text ends, or a parenthesis that is
open is closed. -/
def Splits (depth : ℕ) (p : Bytes → Prop) (text : Bytes) : Prop :=
  ∃ front back, text = front ++ back ∧ p front ∧
    (back = [] ∧ depth = 0 ∨
      ∃ depth' rest, back = rightParen :: rest ∧ depth = depth' + 1 ∧ Rest .behind depth' rest)

section Rest

variable {place place' : Place} {depth depth' : ℕ} {c : UInt8} {text : Bytes}

theorem isPlain_of_not_separates (hspace : c ≠ space) (hmark : c ≠ negative)
    (hoperator : isOperator c = false) (hleft : c ≠ leftParen) (hright : c ≠ rightParen) :
  IsPlain c
  := by
  refine ⟨hspace, ?_⟩
  simp [separates, hoperator, hmark, hleft, hright]

theorem separates_paren :
  separates true leftParen = true ∧ separates true rightParen = true
  := by
  decide

theorem separates_of_isOperator {parens : Bool} (h : isOperator c = true) :
  separates parens c = true
  := by
  simp [separates, h]

/-- The rest behind a character that ends a word. -/
theorem Rest.tail (h : Rest place depth (c :: text)) (hplace : place.step c = some place')
    (hc : separates true c = true) (hdepth : BalancedFrom depth' text) :
  Rest place' depth' text
  := by
  obtain ⟨place'', hstep, hoperands⟩ := accepts_cons.mp h.operands
  obtain rfl := Option.some.inj (hplace.symm.trans hstep)
  refine ⟨hoperands, hdepth, (wordsFrom_separator hc).mp h.words, ?_, ?_⟩
  · exact (not_or.mp (List.mem_cons.not.mp h.spaces)).2
  · exact (not_or.mp (List.mem_cons.not.mp h.mark)).2

theorem operator_ne_paren (h : isOperator c = true) :
  c ≠ leftParen ∧ c ≠ rightParen
  := by
  constructor
  · rintro rfl
    contradiction
  · rintro rfl
    contradiction

theorem isOperator_iff :
  isOperator c = true ↔ ∃ op : Operator, c = op.char
  := by
  constructor
  · intro h
    obtain ⟨op, -, hop⟩ := List.any_eq_true.mp h
    exact ⟨op, of_decide_eq_true hop⟩
  · rintro ⟨op, rfl⟩
    cases op <;> decide

theorem isOperator_of_isSign (h : isSign c = true) :
  isOperator c = true
  := by
  obtain rfl | rfl := isSign_iff.mp h <;> decide

/-- Behind an operand there is an operator with another operand, or the operand is the last
one. -/
theorem splits_behind {operand : Bytes} (hoperand : Derives operand)
    (h : Rest .behind depth text)
    (ih : ∀ rest : Bytes, rest.length < text.length → Rest .operand depth rest →
      Splits depth Derives rest) :
  Splits depth (fun front => Derives (operand ++ front)) text
  := by
  have hfront : Derives (operand ++ []) := by rwa [List.append_nil]
  cases text with
  | nil => exact ⟨[], [], rfl, hfront, .inl ⟨rfl, balancedFrom_nil.mp h.balanced⟩⟩
  | cons c text =>
    by_cases hright : c = rightParen
    · subst hright
      refine ⟨[], rightParen :: text, rfl, hfront, .inr ?_⟩
      cases depth with
      | zero => exact absurd h.balanced not_balancedFrom_rightParen
      | succ depth =>
        exact ⟨depth, text, rfl, rfl,
          h.tail rfl separates_paren.2 (balancedFrom_rightParen.mp h.balanced)⟩
    · obtain ⟨place, hstep, -⟩ := accepts_cons.mp h.operands
      by_cases hoperator : isOperator c = true
      · obtain ⟨op, rfl⟩ := isOperator_iff.mp hoperator
        have hplace : Place.behind.step op.char = some .operand := by
          rw [Place.step, if_neg hright, if_pos hoperator]
        obtain ⟨hleft, -⟩ := operator_ne_paren hoperator
        have hrest := h.tail hplace (separates_of_isOperator hoperator)
          ((balancedFrom_other hleft hright).mp h.balanced)
        obtain ⟨front, back, rfl, hderives, hback⟩ := ih text (Nat.lt_succ_self _) hrest
        exact ⟨op.char :: front, back, rfl, .binary op hoperand hderives, hback⟩
      · rw [Place.step, if_neg hright, if_neg hoperator] at hstep
        contradiction

/-- A character between operators and parentheses. -/
def isWordChar (c : UInt8) : Bool := !isOperator c && c ≠ leftParen && c ≠ rightParen

theorem isWordChar_iff :
  isWordChar c = true ↔ isOperator c = false ∧ c ≠ leftParen ∧ c ≠ rightParen
  := by
  simp [isWordChar, and_assoc]

theorem Place.step_word (hc : isWordChar c = true) :
  operand.step c = some (.word (isDigit c))
  := by
  obtain ⟨hoperator, hleft, hright⟩ := isWordChar_iff.mp hc
  have hsign : isSign c = false := by
    refine Bool.eq_false_iff.mpr fun hsign => ?_
    rw [isOperator_of_isSign hsign] at hoperator
    contradiction
  rw [step, if_neg (by simp [hleft, hsign]), if_neg (by simp [hright, hoperator])]

/-- The characters of a word are read up to its end. -/
theorem foldlM_word {word : Bytes} {digit : Bool} (hword : ∀ c ∈ word, isWordChar c = true) :
  word.foldlM Place.step (.word digit) = some (.word (digit || word.any isDigit))
  := by
  induction word generalizing digit with
  | nil => simp
  | cons c word ih =>
    obtain ⟨hc, hword'⟩ := List.forall_mem_cons.mp hword
    obtain ⟨hoperator, hleft, hright⟩ := isWordChar_iff.mp hc
    have hstep : (Place.word digit).step c = some (.word (digit || isDigit c)) := by
      rw [Place.step, if_neg hleft, if_neg hright, if_neg (by simp [hoperator])]
    rw [List.foldlM_cons, hstep]
    refine (ih hword').trans ?_
    rw [List.any_cons, Bool.or_assoc]

/-- Where a word ends it has a digit, and what follows it follows an operand. -/
theorem operandsFrom_behind {digit : Bool} (h : OperandsFrom (.word digit) text)
    (hend : ∀ c ∈ text.head?, isWordChar c = false) :
  digit = true ∧ OperandsFrom .behind text
  := by
  cases text with
  | nil =>
    have hfinal : Place.Final (.word digit) := operandsFrom_nil.mp h
    obtain rfl : digit = true := hfinal
    exact ⟨rfl, operandsFrom_nil.mpr trivial⟩
  | cons c text =>
    obtain ⟨place, hstep, hrest⟩ := accepts_cons.mp h
    have hc := hend c rfl
    simp only [Place.step] at hstep
    split_ifs at hstep with hleft hright hdigit hoperator hdigit
    · refine ⟨hdigit, accepts_cons.mpr ⟨place, ?_, hrest⟩⟩
      rw [Place.step, if_pos hright, hstep]
    · refine ⟨hdigit, accepts_cons.mpr ⟨place, ?_, hrest⟩⟩
      rw [Place.step, if_neg hright, if_pos hoperator, hstep]
    · rw [isWordChar_iff.mpr ⟨Bool.eq_false_iff.mpr hoperator, hleft, hright⟩] at hc
      contradiction

/-- A word in front of the rest is a number. -/
theorem splits_word (h : Rest .operand depth (c :: text)) (hc : isWordChar c = true) :
  ∃ word rest, c :: text = word ++ rest ∧ rest.length < (c :: text).length ∧ Derives word ∧
    Rest .behind depth rest
  := by
  have hsplit : c :: text = (c :: text.takeWhile isWordChar) ++ text.dropWhile isWordChar := by
    rw [List.cons_append, List.takeWhile_append_dropWhile]
  have hword : ∀ d ∈ c :: text.takeWhile isWordChar, isWordChar d = true :=
    List.forall_mem_cons.mpr ⟨hc, fun d hd => List.mem_takeWhile_imp hd⟩
  obtain ⟨place, hplace, hoperands⟩ := accepts_cons.mp h.operands
  obtain rfl := Option.some.inj ((Place.step_word hc).symm.trans hplace)
  have hdrop : text = text.takeWhile isWordChar ++ text.dropWhile isWordChar :=
    List.takeWhile_append_dropWhile.symm
  rw [hdrop] at hoperands
  obtain ⟨place, hrun, hoperands⟩ := accepts_append.mp hoperands
  rw [foldlM_word fun d hd => hword d (List.mem_cons_of_mem _ hd)] at hrun
  obtain rfl := Option.some.inj hrun
  have hend : ∀ d ∈ (text.dropWhile isWordChar).head?, isWordChar d = false := by
    intro d hd
    have hnot := List.head?_dropWhile_not isWordChar text
    rw [hd] at hnot
    exact hnot
  obtain ⟨hdigit, hbehind⟩ := operandsFrom_behind hoperands hend
  have hwords : Words (c :: text) := h.words
  rw [hsplit] at hwords
  obtain ⟨v, -, hrestwords⟩ := wordsFrom_append.mp hwords
  have hplain : ∀ d ∈ c :: text.takeWhile isWordChar, IsPlain d := by
    intro d hd
    obtain ⟨hoperator, hleft, hright⟩ := isWordChar_iff.mp (hword d hd)
    have hmem : d ∈ c :: text := by
      rw [hsplit]
      exact List.mem_append_left _ hd
    exact isPlain_of_not_separates (fun heq => h.spaces (heq ▸ hmem))
      (fun heq => h.mark (heq ▸ hmem)) hoperator hleft hright
  obtain ⟨n, hn⟩ := exists_number hwords.left hplain hdigit
  have hparens : leftParen ∉ c :: text.takeWhile isWordChar ∧
      rightParen ∉ c :: text.takeWhile isWordChar :=
    ⟨fun hmem => (isWordChar_iff.mp (hword _ hmem)).2.1 rfl,
      fun hmem => (isWordChar_iff.mp (hword _ hmem)).2.2 rfl⟩
  have hbalanced := h.balanced
  rw [hsplit, balancedFrom_append hparens.1 hparens.2] at hbalanced
  have hmem : ∀ d ∈ text.dropWhile isWordChar, d ∈ c :: text := by
    intro d hd
    rw [hsplit]
    exact List.mem_append_right _ hd
  refine ⟨_, _, hsplit, ?_, hn ▸ .number n, hbehind, hbalanced, hrestwords.start,
    fun hd => h.spaces (hmem _ hd), fun hd => h.mark (hmem _ hd)⟩
  exact Nat.lt_succ_of_le (List.dropWhile_sublist _).length_le

/-- An expression stands where an operand begins. -/
theorem splits_operand (h : Rest .operand depth text) :
  Splits depth Derives text
  := by
  induction hlength : text.length using Nat.strong_induction_on generalizing text depth with
  | _ n ih =>
    subst hlength
    have hbehind : ∀ {operand rest : Bytes}, rest.length < text.length → Derives operand →
        Rest .behind depth rest → Splits depth (fun front => Derives (operand ++ front)) rest :=
      fun hlt hoperand hrest => splits_behind hoperand hrest
        fun rest' hlt' hrest' => ih _ (hlt'.trans hlt) hrest' rfl
    cases text with
    | nil =>
      have hfinal : Place.Final .operand := operandsFrom_nil.mp h.operands
      contradiction
    | cons c text =>
      by_cases hleft : c = leftParen
      · subst hleft
        have hplace : Place.operand.step leftParen = some .operand := rfl
        have hrest := h.tail hplace separates_paren.1 (balancedFrom_leftParen.mp h.balanced)
        obtain ⟨front, back, rfl, hfront, ⟨-, hzero⟩ | ⟨depth', rest, rfl, hdepth, hrest'⟩⟩ :=
          ih _ (Nat.lt_succ_self _) hrest rfl
        · contradiction
        · obtain rfl : depth = depth' := Nat.succ.inj hdepth
          have hlt : rest.length < (leftParen :: (front ++ rightParen :: rest)).length := by
            simp only [List.length_cons, List.length_append]
            omega
          obtain ⟨front', back, rfl, hfront', hback⟩ := hbehind hlt (.paren hfront) hrest'
          exact ⟨leftParen :: (front ++ [rightParen]) ++ front', back, by simp, hfront', hback⟩
      · by_cases hsign : isSign c = true
        · have hoperator := isOperator_of_isSign hsign
          have hplace : Place.operand.step c = some .operand := if_pos (.inr hsign)
          have hrest := h.tail hplace (separates_of_isOperator hoperator)
            ((balancedFrom_other hleft (operator_ne_paren hoperator).2).mp h.balanced)
          obtain ⟨front, back, rfl, hfront, hback⟩ := ih _ (Nat.lt_succ_self _) hrest rfl
          exact ⟨c :: front, back, rfl, .sign hsign hfront, hback⟩
        · by_cases hword : isWordChar c = true
          · obtain ⟨word, rest, hsplit, hlt, hderives, hrest⟩ := splits_word h hword
            obtain ⟨front, back, rfl, hfront, hback⟩ := hbehind hlt hderives hrest
            exact ⟨word ++ front, back, by rw [hsplit, List.append_assoc], hfront, hback⟩
          · obtain ⟨place, hstep, -⟩ := accepts_cons.mp h.operands
            have hwrong : c = rightParen ∨ isOperator c = true := by
              rw [isWordChar_iff] at hword
              grind
            rw [Place.step, if_neg (by simp [hleft, hsign]), if_pos hwrong] at hstep
            contradiction

/-- A text with balanced parentheses, whose words are numbers up to missing digits, and in which
no operand is missing and none follows another one, is an expression. -/
theorem derives_of_operands (hwords : Words text) (hbalanced : Balanced text)
    (hspaces : space ∉ text) (hmark : negative ∉ text) (hoperands : Operands text) :
  Derives text
  := by
  obtain ⟨front, back, rfl, hfront, ⟨rfl, -⟩ | ⟨depth', rest, -, hdepth, -⟩⟩ :=
    splits_operand ⟨hoperands, hbalanced, hwords, hspaces, hmark⟩
  · rwa [List.append_nil]
  · contradiction

end Rest

/-! ### No expression lacks an operand -/

theorem Number.any_isDigit (n : Number) :
  n.text.any isDigit = true
  := by
  obtain ⟨c, hc⟩ := List.exists_mem_of_ne_nil _ n.digits_ne_nil
  rw [List.any_eq_true]
  obtain hwhole | hfraction := List.mem_append.mp hc
  · refine ⟨c, ?_, n.whole_digits c hwhole⟩
    rw [Number.text, Number.digitsText]
    cases n.fraction <;> simp [hwhole]
  · refine ⟨c, ?_, n.fraction_digits c hfraction⟩
    rw [Number.text, Number.digitsText]
    cases hn : n.fraction with
    | none => simp [hn] at hfraction
    | some digits =>
      have hmem : c ∈ digits := by simpa [hn] using hfraction
      simp [hmem]

theorem Number.isWordChar (n : Number) :
  ∀ c ∈ n.text, Expression.isWordChar c = true
  := by
  intro c hc
  have hchar := n.mem_text hc
  have hseparates := (isDigit_not_separates hchar).2
  rw [separates, Bool.false_and, Bool.or_false] at hseparates
  refine isWordChar_iff.mpr ⟨(Bool.or_eq_false_iff.mp hseparates).1, ?_, ?_⟩
  · rintro rfl
    exact absurd hchar (by decide)
  · rintro rfl
    exact absurd hchar (by decide)

/-- Behind an operand there can be an operator or a right parenthesis. -/
theorem Place.Final.step {place : Place} (h : place.Final) :
  place.step rightParen = some .behind ∧ ∀ op : Operator, place.step op.char = some .operand
  := by
  cases place with
  | operand => exact absurd h id
  | word digit =>
    obtain rfl : digit = true := h
    exact ⟨rfl, fun op => by cases op <;> rfl⟩
  | behind => exact ⟨rfl, fun op => by cases op <;> rfl⟩

theorem Derives.foldlM_step {text : Bytes} (h : Derives text) :
  ∃ place : Place, text.foldlM Place.step .operand = some place ∧ place.Final
  := by
  induction h with
  | number n =>
    have hdigit := n.any_isDigit
    obtain ⟨c, rest, htext, -⟩ := n.text_head
    have hword := n.isWordChar
    rw [htext] at hdigit hword ⊢
    obtain ⟨hc, hrest⟩ := List.forall_mem_cons.mp hword
    refine ⟨.word true, ?_, rfl⟩
    rw [List.foldlM_cons, Place.step_word hc]
    refine (foldlM_word hrest).trans ?_
    rw [← hdigit, List.any_cons]
  | @sign c text hc _ ih =>
    obtain ⟨place, hrun, hfinal⟩ := ih
    have hstep : Place.operand.step c = some .operand := if_pos (.inr hc)
    refine ⟨place, ?_, hfinal⟩
    rw [List.foldlM_cons, hstep]
    exact hrun
  | @paren text _ ih =>
    obtain ⟨place, hrun, hfinal⟩ := ih
    have hstep : Place.operand.step leftParen = some .operand := rfl
    refine ⟨.behind, ?_, trivial⟩
    rw [List.foldlM_cons, hstep, Option.bind_eq_bind, Option.bind_some, List.foldlM_append, hrun,
      Option.bind_eq_bind, Option.bind_some, List.foldlM_cons, hfinal.step.1]
    rfl
  | @binary op left right _ _ ih ih' =>
    obtain ⟨place, hrun, hfinal⟩ := ih
    obtain ⟨place', hrun', hfinal'⟩ := ih'
    refine ⟨place', ?_, hfinal'⟩
    rw [List.foldlM_append, hrun, Option.bind_eq_bind, Option.bind_some, List.foldlM_cons,
      hfinal.step.2 op]
    exact hrun'

/-- The condition on the operands excludes nothing but malformed texts. -/
theorem Derives.operands {text : Bytes} (h : Derives text) :
  Operands text
  := h.foldlM_step

/-! ### Accepted texts -/

/-- What `evaluate` accepts while its buffers keep the text: the parentheses are balanced, the
words are numbers up to missing digits, and the text is an expression, unless an operand is
missing or follows another one, or the prefix of negative numbers is in it. -/
theorem accepts_expressions (expression : Bytes) (hkept : BuffersKeep D expression) (value : D)
    (h : evaluate expression = .ok value) :
  Balanced (zbxRemoveSpaces expression) ∧ Words (zbxRemoveSpaces expression) ∧
    (negative ∉ expression → Operands (zbxRemoveSpaces expression) →
      Derives (zbxRemoveSpaces expression))
  := by
  obtain ⟨hcopied, hrun⟩ := hkept
  rw [evaluate, hcopied] at h
  have hkept' : ∀ tmp, Relation.ReflTransGen (Round D) expression tmp → Kept D tmp := by
    intro tmp htmp
    refine hrun tmp ?_
    rwa [Reached, hcopied]
  obtain ⟨hwords, hbalanced⟩ := words_balanced_of_evaluateLoop h hkept'
  have hwords' := wordsFrom_zbxRemoveSpaces.mpr hwords
  have hbalanced' := balancedFrom_zbxRemoveSpaces.mpr hbalanced
  refine ⟨hbalanced', hwords', fun hmark hoperands => ?_⟩
  refine derives_of_operands hwords' hbalanced' ?_ (fun hmem => hmark ?_) hoperands
  · simp [zbxRemoveSpaces]
  · exact List.mem_of_mem_filter hmem

theorem eq_ok_of_toOption {result : Except Failure ℚ} {value : ℚ}
    (h : result.toOption = some value) :
  result = .ok value
  := by
  cases result with
  | error failure => contradiction
  | ok v => rw [Option.some.inj h]

theorem shortDifference_accepted :
  Balanced shortDifference ∧ Words shortDifference ∧ Derives shortDifference
  := by
  have hkept : BuffersKeep ℚ shortDifference :=
    ⟨rfl, fun tmp htmp => (kept_iff tmp).mpr (shortDifference_fits ℚ tmp htmp)⟩
  have hvalue : evaluate shortDifference = .ok (0 : ℚ) := eq_ok_of_toOption (by decide +kernel)
  obtain ⟨hbalanced, hwords, hderives⟩ := accepts_expressions shortDifference hkept 0 hvalue
  exact ⟨hbalanced, hwords, hderives (by decide) (by decide)⟩

/-! ### Malformed texts -/

/-- A text that is accepted and is not the text of an expression. -/
def Malformed (text : Bytes) : Prop :=
  (evaluate text : Except Failure ℚ).toOption.isSome = true ∧
    ¬ ∃ e : Expr, e.text = zbxRemoveSpaces text

theorem malformed_of_operands {text : Bytes}
    (h : (evaluate text : Except Failure ℚ).toOption.isSome = true)
    (hoperands : ¬ Operands (zbxRemoveSpaces text)) :
  Malformed text
  := by
  refine ⟨h, ?_⟩
  rintro ⟨e, he⟩
  exact hoperands (he ▸ e.derives.operands)

theorem Expr.head?_text (e : Expr) :
  e.text ≠ [] ∧ e.text.head? ≠ some plus
  := by
  induction e with
  | number n =>
    obtain ⟨c, rest, htext, hc⟩ := n.text_head
    rw [Expr.text, htext]
    refine ⟨List.cons_ne_nil _ _, fun hplus => ?_⟩
    rw [Option.some.inj hplus] at hc
    exact absurd hc (by decide)
  | neg e ih => exact ⟨List.cons_ne_nil _ _, by simp [Expr.text, minus, plus]⟩
  | paren e ih => exact ⟨List.cons_ne_nil _ _, by simp [Expr.text, leftParen, plus]⟩
  | binary op left right ih _ =>
    refine ⟨List.append_ne_nil_of_left_ne_nil ih.1 _, ?_⟩
    rw [Expr.text, List.head?_append_of_ne_nil _ ih.1]
    exact ih.2

theorem Expr.negative_not_mem (e : Expr) :
  negative ∉ e.text
  := by
  induction e with
  | number n => exact fun h => absurd (n.mem_text h) (by decide)
  | neg e ih =>
    have hne : negative ≠ minus := by decide
    simp [Expr.text, hne, ih]
  | paren e ih =>
    have hne : negative ≠ leftParen ∧ negative ≠ rightParen := by decide
    simp [Expr.text, hne, ih]
  | binary op left right ih ih' =>
    have hne : negative ≠ op.char := by cases op <;> decide
    simp [Expr.text, hne, ih, ih']

theorem Expr.count_parens (e : Expr) :
  e.text.count leftParen = e.text.count rightParen
  := by
  induction e with
  | number n =>
    rw [List.count_eq_zero_of_not_mem, List.count_eq_zero_of_not_mem]
    · exact fun h => absurd (n.mem_text h) (by decide)
    · exact fun h => absurd (n.mem_text h) (by decide)
  | neg e ih =>
    have hne : minus ≠ leftParen ∧ minus ≠ rightParen := by decide
    simp [Expr.text, hne, ih]
  | paren e ih =>
    have hne : leftParen ≠ rightParen ∧ rightParen ≠ leftParen := by decide
    simp [Expr.text, hne, ih]
  | binary op left right ih ih' =>
    have hne : op.char ≠ leftParen ∧ op.char ≠ rightParen := by cases op <;> decide
    simp [Expr.text, hne, ih, ih']

/-- As many digits as the buffer keeps, and a parenthesis that is cut off. -/
def longNumber : Bytes := List.replicate 2047 0x31 ++ [rightParen]

theorem longNumber_malformed :
  Malformed longNumber
  := by
  have hdigits : ∀ c ∈ List.replicate 2047 (0x31 : UInt8), isDigit c = true := by
    intro c hc
    rw [List.eq_of_mem_replicate hc]
    decide
  have hne : List.replicate 2047 (0x31 : UInt8) ++ (none : Option Bytes).getD [] ≠ [] := by
    rw [Option.getD_none, List.append_nil, Ne, List.replicate_eq_nil_iff]
    decide
  let number : Number := ⟨List.replicate 2047 0x31, none, none, hdigits, by simp, hne⟩
  have htext : (Expr.number number).text = List.replicate 2047 0x31 := List.append_nil _
  have hminus : minus ∉ (Expr.number number).text := by
    rw [htext]
    intro hmem
    exact absurd (hdigits _ hmem) (by decide)
  have hcopied : strscpy longNumber = (Expr.number number).text := by
    rw [htext, strscpy, longNumber]
    exact List.take_left' List.length_replicate
  have hroom : (compressSigns (maxStringLen - 1) (Expr.number number).text).isSome = true :=
    Option.isSome_iff_ne_none.mpr (compressSigns_ne_none hminus)
  have hsimple : (Expr.number number).Simple := trivial
  have hwf : (Expr.number number).WellFormed := trivial
  refine ⟨?_, ?_⟩
  · rw [evaluate, hcopied, Expr.evaluateLoop_simple hsimple,
      Expr.evaluateSimple_text hsimple hwf hroom]
    rfl
  · rintro ⟨e, he⟩
    have hcount := e.count_parens
    have hspaces : zbxRemoveSpaces longNumber = longNumber := by
      refine List.filter_eq_self.mpr fun c hc => ?_
      obtain hc | hc := List.mem_append.mp hc
      · rw [List.eq_of_mem_replicate hc]
        decide
      · rw [List.mem_singleton.mp hc]
        decide
    rw [he, hspaces, longNumber, List.count_append, List.count_append, List.count_replicate,
      List.count_replicate] at hcount
    exact absurd hcount (by decide)

/-- A plus in front of an operand is dropped, which the grammar does not know. Nothing, an empty
pair of parentheses, operators without an operand, a sign, a suffix and two operands in a row are
accepted, as are a text with the prefix of negative numbers and a text of which the wrong part is
cut off. -/
theorem malformed_accepted :
  Malformed [plus, 0x35] ∧
    (∀ text ∈ [[], [leftParen, rightParen], ['5'.toUInt8, '*'.toUInt8], [minus], ['K'.toUInt8],
      [0x32, leftParen, 0x33, rightParen]], Malformed text) ∧
    Malformed [negative, 0x35] ∧ Malformed longNumber
  := by
  refine ⟨⟨by decide +kernel, ?_⟩, ?_, ⟨by decide +kernel, ?_⟩, longNumber_malformed⟩
  · rintro ⟨e, he⟩
    exact e.head?_text.2 (he ▸ rfl)
  · have hall : ∀ text ∈ [[], [leftParen, rightParen], ['5'.toUInt8, '*'.toUInt8], [minus],
        ['K'.toUInt8], [0x32, leftParen, 0x33, rightParen]],
        (evaluate text : Except Failure ℚ).toOption.isSome = true ∧
          ¬ Operands (zbxRemoveSpaces text) := by
      decide +kernel
    exact fun text htext => malformed_of_operands (hall text htext).1 (hall text htext).2
  · rintro ⟨e, he⟩
    have hmem : negative ∉ zbxRemoveSpaces [negative, 0x35] := he ▸ e.negative_not_mem
    exact absurd hmem (by decide)

end Expression
