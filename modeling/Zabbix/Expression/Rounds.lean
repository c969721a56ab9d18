import Zabbix.Expression.Signed

/-!
# The rounds of `evaluate`

`evaluate` replaces one pair of parentheses after the other by the printed value of what
stands inside.  The value of an expression is that with every parenthesised value rounded to
six decimals, and there is none when a sign stands right behind a suffix.
-/

open Ascii

namespace Expression

/-! ### Contexts -/

namespace Frame

def before : Frame → Bytes
  | neg => [minus]
  | paren => [leftParen]
  | left _ _ => []
  | right e op => e.text ++ [op.char]

def after : Frame → Bytes
  | neg => []
  | paren => [rightParen]
  | left op e => op.char :: e.text
  | right _ _ => []

theorem text_plug (frame : Frame) (e : Expr) :
  (frame.plug e).text = frame.before ++ (e.text ++ frame.after)
  := by
  cases frame <;> simp [plug, Expr.text, before, after]

end Frame

namespace Context

/-- The text before the hole. -/
def before : Context → Bytes
  | [] => []
  | frame :: c => before c ++ frame.before

/-- The text behind the hole. -/
def after : Context → Bytes
  | [] => []
  | frame :: c => frame.after ++ after c

theorem text_plug (c : Context) (e : Expr) :
  (c.plug e).text = before c ++ (e.text ++ after c)
  := by
  induction c generalizing e with
  | nil => simp [plug, before, after]
  | cons frame c ih =>
    change (plug c (frame.plug e)).text = _
    rw [ih, frame.text_plug, before, after]
    simp

theorem plug_concat (c : Context) (frame : Frame) (e : Expr) :
  plug (c ++ [frame]) e = frame.plug (c.plug e)
  := List.foldl_concat _ _ _ _

theorem before_concat (c : Context) (frame : Frame) :
  before (c ++ [frame]) = frame.before ++ before c
  := by
  induction c with
  | nil => simp [before]
  | cons first c ih =>
    rw [List.cons_append, before, ih, before, List.append_assoc]

end Context

/-- Two expressions that the code does not tell apart. -/
structure Agree (x y : Expr) : Prop where
  rounded : x.rounded = y.rounded
  signBehindSuffix : x.signBehindSuffix = y.signBehindSuffix
  endsInSuffix : x.endsInSuffix = y.endsInSuffix

theorem Agree.frame {x y : Expr} (h : Agree x y) (frame : Frame) :
  Agree (frame.plug x) (frame.plug y)
  := by
  obtain ⟨hrounded, hsign, hends⟩ := h
  cases frame with
  | neg => exact ⟨by simp [Frame.plug, Expr.rounded, hrounded], hsign, hends⟩
  | paren => exact ⟨by simp [Frame.plug, Expr.rounded, hrounded], hsign, rfl⟩
  | left op e =>
    exact ⟨by simp [Frame.plug, Expr.rounded, hrounded],
      by simp [Frame.plug, Expr.signBehindSuffix, hsign, hends], rfl⟩
  | right e op =>
    exact ⟨by simp [Frame.plug, Expr.rounded, hrounded],
      by simp [Frame.plug, Expr.signBehindSuffix, hsign], hends⟩

theorem Agree.plug {x y : Expr} (h : Agree x y) (c : Context) :
  Agree (c.plug x) (c.plug y)
  := by
  induction c generalizing x y with
  | nil => exact h
  | cons frame c ih => exact ih (h.frame frame)

namespace Context

/-- Without a value of the part in the hole there is none of the whole. -/
theorem rounded_plug_none {x : Expr} (h : x.rounded = none) (c : Context) :
  (c.plug x).rounded = none
  := by
  induction c generalizing x with
  | nil => exact h
  | cons frame c ih =>
    apply ih
    cases frame with
    | neg => simp [Frame.plug, Expr.rounded, h]
    | paren => simp [Frame.plug, Expr.rounded, h]
    | left op e => simp [Frame.plug, Expr.rounded, h]
    | right e op =>
      simp only [Frame.plug, Expr.rounded, h]
      cases e.rounded <;> rfl

theorem signBehindSuffix_plug {x : Expr} (h : x.signBehindSuffix = true) (c : Context) :
  (c.plug x).signBehindSuffix = true
  := by
  induction c generalizing x with
  | nil => exact h
  | cons frame c ih =>
    apply ih
    cases frame <;> simp [Frame.plug, Expr.signBehindSuffix, h]

theorem parens_plug (c : Context) (x y : Expr) :
  (c.plug x).parens + y.parens = (c.plug y).parens + x.parens
  := by
  induction c generalizing x y with
  | nil => exact Nat.add_comm _ _
  | cons frame c ih =>
    have hframe : (frame.plug x).parens + y.parens = (frame.plug y).parens + x.parens := by
      cases frame <;> simp only [Frame.plug, Expr.parens] <;> omega
    have hrest := ih (frame.plug x) (frame.plug y)
    change (plug c (frame.plug x)).parens + _ = (plug c (frame.plug y)).parens + _
    omega

theorem wellFormed_of_plug {x : Expr} {c : Context} (h : (c.plug x).WellFormed) :
  x.WellFormed
  := by
  induction c generalizing x with
  | nil => exact h
  | cons frame c ih =>
    have hframe : (frame.plug x).WellFormed := ih h
    cases frame with
    | neg => exact hframe.2
    | paren => exact hframe
    | left op e => exact hframe.2.1
    | right e op => exact hframe.2.2

/-- An operand that is bound as tightly, or as a sign binds, may be put into the hole. -/
theorem wellFormed_plug {x y : Expr} {c : Context} (h : (c.plug y).WellFormed)
    (hx : x.WellFormed) (hlevel : ∀ k ≤ 11, k ≤ y.level → k ≤ x.level) :
  (c.plug x).WellFormed
  := by
  induction c generalizing x y with
  | nil => exact hx
  | cons frame c ih =>
    have hframe : (frame.plug y).WellFormed := wellFormed_of_plug h
    have hpriority : ∀ op : Operator, op.priority + 1 ≤ 11 := by
      intro op
      cases op <;> decide
    have hwf : (frame.plug x).WellFormed := by
      cases frame with
      | neg => exact ⟨hlevel 11 le_rfl hframe.1, hx⟩
      | paren => exact hx
      | left op e =>
        obtain ⟨hlevels, -, he⟩ := hframe
        have hle := hpriority op
        refine ⟨?_, hx, he⟩
        split at hlevels
        case isTrue hfrom =>
          rw [if_pos hfrom]
          exact ⟨hlevel _ (by omega) hlevels.1, hlevels.2⟩
        case isFalse hfrom =>
          rw [if_neg hfrom]
          exact ⟨hlevel _ hle hlevels.1, hlevels.2⟩
      | right e op =>
        obtain ⟨hlevels, he, -⟩ := hframe
        have hle := hpriority op
        refine ⟨?_, he, hx⟩
        split at hlevels
        case isTrue hfrom =>
          rw [if_pos hfrom]
          exact ⟨hlevels.1, hlevel _ hle hlevels.2⟩
        case isFalse hfrom =>
          rw [if_neg hfrom]
          exact ⟨hlevels.1, hlevel _ (by omega) hlevels.2⟩
    apply ih (y := frame.plug y) h hwf
    intro k hk hle
    cases frame <;> exact hle

end Context

namespace Expr

/-! ### The first pair of parentheses -/

theorem parens_simple {e : Expr} (h : e.Simple) :
  e.parens = 0
  := by
  induction e with
  | number n => rfl
  | neg e ih => exact ih h
  | paren e ih => exact h.elim
  | binary op left right ihleft ihright => rw [parens, ihleft h.1, ihright h.2]

theorem rounded_simple {e : Expr} (h : e.Simple) :
  e.rounded = e.value
  := by
  induction e with
  | number n => rfl
  | neg e ih => rw [rounded, value, ih h]
  | paren e ih => exact h.elim
  | binary op left right ihleft ihright => rw [rounded, value, ihleft h.1, ihright h.2]

theorem paren_not_mem {e : Expr} (h : e.Simple) :
  leftParen ∉ e.text ∧ rightParen ∉ e.text
  := by
  induction e with
  | number n =>
    constructor <;> exact fun hmem => absurd (n.mem_text hmem) (by decide)
  | neg e ih =>
    have hminus : leftParen ≠ minus ∧ rightParen ≠ minus := by decide
    obtain ⟨hl, hr⟩ := ih h
    simp [text, hminus, hl, hr]
  | paren e ih => exact h.elim
  | binary op left right ihleft ihright =>
    have hop : leftParen ≠ op.char ∧ rightParen ≠ op.char := by cases op <;> decide
    obtain ⟨hl, hr⟩ := ihleft h.1
    obtain ⟨hl', hr'⟩ := ihright h.2
    simp [text, hop, hl, hr, hl', hr']

theorem innermost_eq_none {e : Expr} (h : e.innermost = none) :
  e.Simple
  := by
  induction e with
  | number n => trivial
  | neg e ih => exact ih (Option.map_eq_none_iff.mp h)
  | paren e ih =>
    rw [innermost] at h
    split at h <;> cases h
  | binary op left right ihleft ihright =>
    rw [innermost] at h
    split at h
    · cases h
    case h_2 hleft => exact ⟨ihleft hleft, ihright (Option.map_eq_none_iff.mp h)⟩

/-- No closing parenthesis stands before the first pair of parentheses without parentheses
inside. -/
theorem innermost_spec {e inner : Expr} {c : Context} (h : e.innermost = some (c, inner)) :
  e = c.plug (.paren inner) ∧ inner.Simple ∧ rightParen ∉ c.before
  := by
  induction e generalizing c inner with
  | number n => cases h
  | neg e ih =>
    obtain ⟨⟨c', inner'⟩, he, heq⟩ := Option.map_eq_some_iff.mp h
    cases heq
    obtain ⟨heq, hsimple, hright⟩ := ih he
    have hminus : rightParen ≠ minus := by decide
    rw [Context.plug_concat, Context.before_concat, ← heq]
    exact ⟨rfl, hsimple, by simp [Frame.before, hminus, hright]⟩
  | paren e ih =>
    rw [innermost] at h
    split at h
    case h_1 hnone =>
      cases h
      exact ⟨rfl, innermost_eq_none hnone, List.not_mem_nil⟩
    case h_2 c' inner' he =>
      cases h
      obtain ⟨heq, hsimple, hright⟩ := ih he
      have hparen : rightParen ≠ leftParen := by decide
      rw [Context.plug_concat, Context.before_concat, ← heq]
      exact ⟨rfl, hsimple, by simp [Frame.before, hparen, hright]⟩
  | binary op left right ihleft ihright =>
    rw [innermost] at h
    split at h
    case h_1 c' inner' he =>
      cases h
      obtain ⟨heq, hsimple, hright⟩ := ihleft he
      rw [Context.plug_concat, Context.before_concat, ← heq]
      exact ⟨rfl, hsimple, by simp [Frame.before, hright]⟩
    case h_2 hnone =>
      obtain ⟨⟨c', inner'⟩, he, heq⟩ := Option.map_eq_some_iff.mp h
      cases heq
      obtain ⟨heq, hsimple, hright⟩ := ihright he
      have hleft := (paren_not_mem (innermost_eq_none hnone)).2
      have hop : rightParen ≠ op.char := by cases op <;> decide
      rw [Context.plug_concat, Context.before_concat, ← heq]
      exact ⟨rfl, hsimple, by simp [Frame.before, hleft, hop, hright]⟩

/-! ### The loop -/

theorem printed_agree {inner : Expr} {v : ℚ} (hsign : inner.signBehindSuffix = false)
    (hv : inner.rounded = some v) :
  Agree (printed v) (.paren inner)
  := by
  have hvalue := printed_value v
  have hsimple : (printed v).Simple ∧ (printed v).signBehindSuffix = false ∧
      (printed v).endsInSuffix = false := by
    rw [printed]
    split <;> exact ⟨trivial, rfl, rfl⟩
  refine ⟨?_, hsimple.2.1.trans hsign.symm, hsimple.2.2⟩
  rw [rounded_simple hsimple.1, hvalue, rounded, hv]
  rfl

theorem printed_wellFormed (v : ℚ) :
  (printed v).WellFormed ∧ 11 ≤ (printed v).level ∧ (printed v).parens = 0
  := by
  rw [printed]
  split
  · exact ⟨⟨show 11 ≤ 12 by decide, trivial⟩, le_rfl, rfl⟩
  · exact ⟨trivial, show 11 ≤ 12 by decide, rfl⟩

/-- What a loop without parentheses does. -/
theorem evaluateLoop_simple {e : Expr} (h : e.Simple) :
  (evaluateLoop e.text : Except Failure ℚ) = evaluateSimple (maxStringLen - 1) e.text
  := by
  rw [evaluateLoop_eq, strchr_eq_none_iff.mpr (paren_not_mem h).2]

/-- One round: what stands inside of the first pair of parentheses is evaluated. -/
theorem evaluateLoop_round {c : Context} {inner : Expr} (hsimple : inner.Simple)
    (hbefore : rightParen ∉ c.before) :
  (evaluateLoop (c.plug (.paren inner)).text : Except Failure ℚ) =
    match (evaluateSimple (maxStringLen - 1) inner.text : Except Failure ℚ) with
    | .error failure => .error failure
    | .ok value => evaluateLoop (strscpy (zbxRemoveSpaces
        (c.before ++ (strscpy (printDouble value) ++ c.after))))
  := by
  obtain ⟨hleft, hright⟩ := paren_not_mem hsimple
  have htext : (c.plug (.paren inner)).text =
      (c.before ++ leftParen :: inner.text) ++ rightParen :: c.after := by
    rw [c.text_plug, text]
    simp
  have hparen : rightParen ≠ leftParen := by decide
  have hfirst : strchr rightParen (c.plug (.paren inner)).text =
      some (c.before ++ leftParen :: inner.text, c.after) := by
    rw [htext]
    apply strchr_append
    simp [hbefore, hparen, hright]
  have hlast := strrchr_append hleft c.before
  rw [evaluateLoop_eq, hfirst]
  dsimp only
  rw [hlast]
  dsimp only
  cases (evaluateSimple (maxStringLen - 1) inner.text : Except Failure ℚ) with
  | error failure => rfl
  | ok value => rfl

/-- The text after a round, when it fits. -/
theorem strscpy_round {c : Context} {v : ℚ}
    (hfits : (c.plug (printed v)).text.length < maxStringLen) :
  strscpy (zbxRemoveSpaces (c.before ++ (strscpy (printDouble v) ++ c.after))) =
    (c.plug (printed v)).text
  := by
  have htext : (c.plug (printed v)).text = c.before ++ (printDouble v ++ c.after) := by
    rw [c.text_plug, printed_text]
  have hshort : ∀ text : Bytes, text.length < maxStringLen → strscpy text = text := by
    intro text hlength
    exact List.take_of_length_le (Nat.le_sub_one_of_lt hlength)
  have hprinted : (printDouble v).length < maxStringLen := by
    rw [htext, List.length_append, List.length_append] at hfits
    omega
  have hspaces : zbxRemoveSpaces (c.plug (printed v)).text = (c.plug (printed v)).text := by
    apply List.filter_eq_self.mpr
    intro b hb
    rw [decide_eq_true_eq]
    rintro rfl
    exact space_not_mem _ hb
  rw [hshort _ hprinted, ← htext, hspaces, hshort _ hfits]

theorem StoredFor.stored {rounds : ℕ} {e : Expr} (h : e.StoredFor rounds) :
  e.Stored
  := by
  cases rounds with
  | zero => exact h
  | succ rounds => exact h.1

/-- What `evaluate` finds: nothing when a sign stands right behind a suffix, and else the
value with every parenthesised value rounded. -/
def outcome (e : Expr) : Option ℚ := if e.signBehindSuffix then none else e.rounded

theorem outcome_congr {x y : Expr} (h : Agree x y) :
  x.outcome = y.outcome
  := by
  rw [outcome, outcome, h.signBehindSuffix, h.rounded]

/-- There is nothing left to replace. -/
theorem evaluateLoop_done {e : Expr} (hinner : e.innermost = none) (hwf : e.WellFormed)
    (hstored : e.Stored) :
  (evaluateLoop e.text).toOption = e.outcome
  := by
  have hsimple := innermost_eq_none hinner
  have hroom := hstored.2
  rw [hinner] at hroom
  rw [evaluateLoop_simple hsimple, evaluateSimple_text hsimple hwf hroom, outcome,
    rounded_simple hsimple]

/-- One pair of parentheses is replaced. -/
theorem evaluateLoop_next {e inner : Expr} {c : Context} (hinner : e.innermost = some (c, inner))
    (hwf : e.WellFormed) (hstored : e.Stored) (hnext : ∀ e' ∈ e.next, e'.Stored)
    (hrest : ∀ e' ∈ e.next, e'.WellFormed → e'.parens + 1 = e.parens →
      (evaluateLoop e'.text).toOption = e'.outcome) :
  (evaluateLoop e.text).toOption = e.outcome
  := by
  obtain ⟨heq, hsimple, hbefore⟩ := innermost_spec hinner
  have hroom := hstored.2
  rw [hinner] at hroom
  rw [heq] at hwf
  have hwfinner : inner.WellFormed := Context.wellFormed_of_plug (x := .paren inner) hwf
  have hvalue := evaluateSimple_text hsimple hwfinner hroom
  have hround := evaluateLoop_round hsimple hbefore
  rw [← heq] at hround
  rw [hround]
  by_cases hsign : inner.signBehindSuffix = true
  · rw [if_pos hsign] at hvalue
    have hwhole : e.signBehindSuffix = true := by
      rw [heq]
      exact Context.signBehindSuffix_plug (x := .paren inner) hsign c
    rw [outcome, if_pos hwhole]
    cases hsimple' : (evaluateSimple (maxStringLen - 1) inner.text : Except Failure ℚ) with
    | error failure => rfl
    | ok v =>
      rw [hsimple'] at hvalue
      cases hvalue
  · rw [if_neg hsign] at hvalue
    have hsign' : inner.signBehindSuffix = false := Bool.eq_false_iff.mpr hsign
    cases hsimple' : (evaluateSimple (maxStringLen - 1) inner.text : Except Failure ℚ) with
    | error failure =>
      rw [hsimple'] at hvalue
      have hnone : (Expr.paren inner).rounded = none := by
        rw [rounded, rounded_simple hsimple, ← hvalue]
        rfl
      have hwhole := Context.rounded_plug_none hnone c
      rw [← heq] at hwhole
      rw [outcome, hwhole, ite_self]
      rfl
    | ok v =>
      rw [hsimple'] at hvalue
      have hnext' : e.next = some (c.plug (printed v)) := by
        rw [next, hinner, Option.bind_some]
        dsimp only
        rw [if_neg hsign, ← hvalue]
        rfl
      have hagree : Agree (c.plug (printed v)) e := by
        have hrounded : inner.rounded = some v := (rounded_simple hsimple).trans hvalue.symm
        have hplug := (printed_agree hsign' hrounded).plug c
        rw [← heq] at hplug
        exact hplug
      obtain ⟨hwfv, hlevel, hparens⟩ := printed_wellFormed v
      have hcount := c.parens_plug (.paren inner) (printed v)
      rw [← heq, hparens, parens, parens_simple hsimple] at hcount
      have hwf' : (c.plug (printed v)).WellFormed :=
        Context.wellFormed_plug hwf hwfv fun k hk _ => hk.trans hlevel
      dsimp only
      rw [strscpy_round (hnext _ hnext').1, ← outcome_congr hagree]
      exact hrest _ hnext' hwf' hcount.symm

/-- The value that the loop finds, as long as the text fits. -/
theorem evaluateLoop_text {rounds : ℕ} {e : Expr} (hparens : e.parens = rounds)
    (hwf : e.WellFormed) (hfits : e.StoredFor rounds) :
  (evaluateLoop e.text).toOption = e.outcome
  := by
  induction rounds generalizing e with
  | zero =>
    cases hinner : e.innermost with
    | none => exact evaluateLoop_done hinner hwf hfits
    | some parts =>
      obtain ⟨c, inner⟩ := parts
      have hcount := c.parens_plug (.paren inner) (.number (printedNumber 0))
      rw [← (innermost_spec hinner).1, hparens] at hcount
      simp only [parens] at hcount
      omega
  | succ rounds ih =>
    cases hinner : e.innermost with
    | none => exact evaluateLoop_done hinner hwf hfits.stored
    | some parts =>
      apply evaluateLoop_next hinner hwf hfits.stored
      · exact fun e' he' => (hfits.2 e' he').stored
      · intro e' he' hwf' hparens'
        exact ih (by omega) hwf' (hfits.2 e' he')

/-- While the text fits into the buffers, an expression is evaluated to its value, and fails
only for a division by zero, exactly when its rounded value is the value, or when there is no
value and a sign stands right behind a suffix. -/
theorem evaluate_eq_value_iff (e : Expr) (hwf : e.WellFormed) (hfits : e.Fits) :
  (evaluate e.text).toOption = e.value ↔
    if e.signBehindSuffix then e.value = none else e.rounded = e.value
  := by
  have hstored : e.Stored := StoredFor.stored hfits
  have hcopy : strscpy e.text = e.text :=
    List.take_of_length_le (Nat.le_sub_one_of_lt hstored.1)
  rw [evaluate, hcopy, evaluateLoop_text rfl hwf hfits, outcome]
  split
  · exact eq_comm
  · rfl

/-- An expression whose parentheses hold whole numbers of millionths is evaluated to its value,
unless a sign stands right behind a suffix. -/
theorem evaluate_of_exact {e : Expr} (hwf : e.WellFormed) (hfits : e.Fits) (hexact : e.Exact)
    (hsign : e.signBehindSuffix = false) :
  (evaluate e.text).toOption = e.value
  := by
  have hstored : e.Stored := StoredFor.stored hfits
  have hcopy : strscpy e.text = e.text :=
    List.take_of_length_le (Nat.le_sub_one_of_lt hstored.1)
  rw [evaluate, hcopy, evaluateLoop_text rfl hwf hfits, outcome, hsign, hexact.rounded_eq_value]
  rfl

end Expr

/-- A whole number of one digit, with or without a suffix. -/
def digit (d : ℕ) (suffix : Option Suffix) : Expr :=
  .number
    { whole := [0x30 + (d % 10).toUInt8]
      fraction := none
      suffix := suffix
      whole_digits := fun c hc => by
        rw [List.mem_singleton.mp hc]
        exact isDigit_digit d
      fraction_digits := fun c hc => nomatch hc
      digits_ne_nil := List.cons_ne_nil _ _ }

/-- `(5-2)*2K>-1`. -/
def sampleExpr : Expr :=
  .binary .gt
    (.binary .mul (.paren (.binary .sub (digit 5 none) (digit 2 none))) (digit 2 (some .kibi)))
    (.neg (digit 1 none))

theorem sampleExpr_evaluated :
  (evaluate sampleExpr.text).toOption = sampleExpr.value
  := (sampleExpr.evaluate_eq_value_iff (by decide +kernel) (by decide +kernel)).mpr
    (by decide +kernel)

/-- `1K+1`: the plus is deleted. -/
def suffixSum : Expr := .binary .add (digit 1 (some .kibi)) (digit 1 none)

/-- `(1/3)*3`: the third is rounded. -/
def thirds : Expr :=
  .binary .mul (.paren (.binary .div (digit 1 none) (digit 3 none))) (digit 3 none)

theorem suffixSum_fails :
  (suffixSum.WellFormed ∧ suffixSum.Fits ∧ suffixSum.value = some 1025 ∧
      (evaluate suffixSum.text : Except Failure ℚ).toOption = none) ∧
    thirds.WellFormed ∧ thirds.Fits ∧ thirds.value = some 1 ∧
      (evaluate thirds.text : Except Failure ℚ).toOption = some (999999 / 1000000)
  := by
  decide +kernel

end Expression
