import Zabbix.Expression.Simple

/-!
# The value of expressions without parentheses

`Expr.signedText` is the text of an expression after `compress_signs`, where every minus has
moved to the number behind it.  Additions and subtractions both become a plus, unless they
stand right behind a suffix: then no operator is left and two numbers grow together.

In all other expressions the operators of the text are those of the expression, and
`evaluate_simple` finds the value.
-/

open Ascii

namespace Expression

namespace Expr

/-- The text after `compress_signs`; the first number of the expression gets the prefix of
negative numbers when an odd number of signs stands before it. -/
def signedText : Bool → Expr → Bytes
  | flip, number n => (if flip then [negative] else []) ++ n.text
  | flip, neg e => e.signedText !flip
  | flip, paren e => e.signedText flip
  | flip, binary op left right =>
    if op = .add ∨ op = .sub then
      left.signedText flip ++ ((if left.endsInSuffix then [] else [plus]) ++
        right.signedText (op = .sub))
    else left.signedText flip ++ op.char :: right.signedText false

end Expr

/-! ### Compressed signs -/

theorem scanSigns_text {t : Bytes} (hne : t ≠ []) (ht : ∀ c ∈ t, isSign c = false) (prev : Bool)
    (pending : Option UInt8) (rest : Bytes) :
  scanSigns prev pending (t ++ rest) =
    emitSign prev pending ++ (t ++ scanSigns (endsOperand t.getLast?) none rest)
  := by
  induction t generalizing prev pending with
  | nil => exact absurd rfl hne
  | cons c t ih =>
    have hc : ¬ isSign c = true := by simp [ht c List.mem_cons_self]
    rw [List.cons_append, scanSigns, if_neg hc]
    cases t with
    | nil => simp
    | cons d t =>
      rw [ih (List.cons_ne_nil _ _) (fun b hb => ht b (List.mem_cons_of_mem _ hb)),
        List.getLast?_cons_cons]
      simp [emitSign]

theorem Number.not_sign (n : Number) :
  ∀ c ∈ n.text, isSign c = false
  := by
  have hnot : ∀ c, isSign c = true → ¬ (isDigit c = true ∨ c = dot ∨ c ∈ suffixes) := by
    intro c hc
    obtain rfl | rfl := isSign_iff.mp hc <;> decide
  intro c hc
  rw [Bool.eq_false_iff]
  exact fun hsign => hnot c hsign (n.mem_text hc)

theorem Number.text_ne_nil (n : Number) :
  n.text ≠ []
  := by
  obtain ⟨c, rest, htext, -⟩ := n.text_head
  rw [htext]
  exact List.cons_ne_nil _ _

/-- An operand ends with the number, unless a suffix does. -/
theorem Number.endsOperand_text (n : Number) :
  endsOperand n.text.getLast? = !n.suffix.isSome
  := by
  rw [Number.text]
  cases n.suffix with
  | none =>
    have hlast := List.getLast?_eq_some_getLast n.digitsText_ne_nil
    rw [Option.map_none, Option.toList_none, List.append_nil, hlast]
    obtain h | h := n.mem_digitsText (List.getLast_mem n.digitsText_ne_nil)
    · simp [endsOperand, h]
    · simp [endsOperand, h]
  | some suffix =>
    rw [Option.map_some, Option.toList_some, List.getLast?_concat]
    cases suffix <;> decide

/-- The plus that is written before a signed operand. -/
def leadingPlus (prev : Bool) (pending : Option UInt8) : Bytes :=
  if prev ∧ pending.isSome then [plus] else []

theorem emitSign_eq (prev : Bool) (pending : Option UInt8) :
  emitSign prev pending =
    leadingPlus prev pending ++ if pending = some minus then [negative] else []
  := by
  cases pending with
  | none => simp [emitSign, leadingPlus]
  | some sign => simp [emitSign, leadingPlus]

/-- Behind an operand a minus is only read as an operator. -/
theorem scanSigns_expr {e : Expr} (he : e.Simple) {prev : Bool} {pending : Option UInt8}
    (hpending : ∀ s ∈ pending, isSign s = true) (hprev : pending = none → prev = false)
    (rest : Bytes) :
  scanSigns prev pending (e.text ++ rest) =
    leadingPlus prev pending ++ (e.signedText (pending = some minus) ++
      scanSigns (!e.endsInSuffix) none rest)
  := by
  induction e generalizing prev pending rest with
  | number n =>
    rw [Expr.text, scanSigns_text n.text_ne_nil n.not_sign, n.endsOperand_text, emitSign_eq]
    simp [Expr.signedText, Expr.endsInSuffix]
  | neg e ih =>
    have hminus : isSign minus = true := by decide
    obtain ⟨-, hsign⟩ := consPending_sign hpending hminus []
    have hflip : (mergePending pending minus = minus) ↔ ¬ (pending = some minus) := by
      cases pending with
      | none => simp [mergePending]
      | some s => obtain rfl | rfl := isSign_iff.mp (hpending s rfl) <;> decide
    have hlead : leadingPlus prev (some (mergePending pending minus)) =
        leadingPlus prev pending := by
      cases pending with
      | none => simp [leadingPlus, hprev rfl]
      | some s => rfl
    rw [Expr.text, List.cons_append, scanSigns, if_pos hminus, ih he]
    · rw [hlead, Expr.signedText, Expr.endsInSuffix]
      simp only [Option.some.injEq, hflip, decide_not]
    · intro s hs
      obtain rfl := Option.some.inj hs
      exact hsign
    · exact fun h => absurd h (Option.some_ne_none _)
  | paren e ih => exact he.elim
  | binary op left right ihleft ihright =>
    obtain ⟨hleft, hright⟩ := he
    rw [Expr.text, List.append_assoc, List.cons_append, ihleft hleft hpending hprev]
    rw [Expr.signedText, Expr.endsInSuffix]
    congr 1
    by_cases hop : op = .add ∨ op = .sub
    · have hsign : isSign op.char = true := by
        obtain rfl | rfl := hop <;> decide
      have hsub : (some op.char = some minus) ↔ op = .sub := by
        obtain rfl | rfl := hop <;> decide
      have hlead : leadingPlus (!left.endsInSuffix) (some op.char) =
          if left.endsInSuffix then [] else [plus] := by
        cases left.endsInSuffix <;> rfl
      rw [if_pos hop, scanSigns, if_pos hsign, mergePending, ihright hright, hlead]
      · simp [hsub]
      · intro s hs
        obtain rfl := Option.some.inj hs
        exact hsign
      · exact fun h => absurd h (Option.some_ne_none _)
    · have hsign : ¬ isSign op.char = true := by
        revert hop
        cases op <;> decide
      have hend : endsOperand (some op.char) = false := by cases op <;> decide
      rw [if_neg hop, scanSigns, if_neg hsign, hend, ihright hright not_pending fun _ => rfl]
      simp [emitSign, leadingPlus]

/-- The text of an expression without parentheses after `compress_signs`. -/
theorem scanSigns_simple {e : Expr} (he : e.Simple) :
  scanSigns false none e.text = e.signedText false
  := by
  have hscan := scanSigns_expr he not_pending (fun _ => rfl) []
  simpa [leadingPlus, scanSigns, emitSign] using hscan

/-! ### Operators in the text -/

section

variable {left right : Bytes} {v1 v2 : Option ℚ}

theorem evaluates_binary {op : Operator} (hop : op ≠ .sub)
    (hsettled : Settled false (left ++ op.char :: right))
    (hside : op.char ∉ if op.FromRight then right else left)
    (hlower : ∀ op' : Operator, op'.priority < op.priority →
      op'.char ∉ left ∧ op'.char ∉ right)
    (hleft : Evaluates left v1) (hright : Evaluates right v2) :
  Evaluates (left ++ op.char :: right) (v1.bind fun a => v2.bind (op.apply a))
  := by
  have hread : readNumber (left ++ op.char :: right) = none :=
    readNumber_eq_none hop (List.mem_append_right _ List.mem_cons_self)
  exact hsettled.evaluates_operator hread (findOperator_append hside hlower) hleft hright

theorem evaluates_firstPlus (hsettled : Settled false (left ++ plus :: right))
    (hplus : plus ∉ left)
    (hlower : ∀ op : Operator, op.priority < 7 → op.char ∉ left ∧ op.char ∉ right)
    (hleft : Evaluates left v1) (hright : Evaluates right v2) :
  Evaluates (left ++ plus :: right) (v1.bind fun a => v2.bind fun b => some (a + b))
  := by
  have hadd : Operator.add ≠ .sub := by decide
  exact evaluates_binary hadd hsettled hplus hlower hleft hright

/-- A sum may be taken apart at each plus. -/
theorem evaluates_sum (hsettled : Settled false (left ++ plus :: right))
    (hlower : ∀ op : Operator, op.priority < 7 → op.char ∉ left ∧ op.char ∉ right)
    (hleft : Evaluates left v1) (hright : Evaluates right v2) :
  Evaluates (left ++ plus :: right) (v1.bind fun a => v2.bind fun b => some (a + b))
  := by
  induction hlength : left.length using Nat.strong_induction_on generalizing left v1 with
  | _ n ih =>
    by_cases hplus : plus ∈ left
    · -- the text is taken apart at the first plus, which stands in the left part
      obtain ⟨first, second, hleft_eq, hfirst⟩ := List.eq_append_cons_of_mem hplus
      have hsecond : second.length < n := by
        rw [← hlength, hleft_eq, List.length_append, List.length_cons]
        omega
      have htext : left ++ plus :: right = first ++ plus :: (second ++ plus :: right) := by
        rw [hleft_eq, List.append_assoc, List.cons_append]
      have hnot : endsOperand (some plus) = false := by decide
      rw [htext] at hsettled ⊢
      obtain ⟨hsettled1, hrest⟩ := hsettled.operands hnot
      obtain ⟨hsettled2, -⟩ := hrest.operands hnot
      obtain ⟨u1, hu1⟩ := hsettled1.exists_evaluates
      obtain ⟨u2, hu2⟩ := hsettled2.exists_evaluates
      have hparts : ∀ op : Operator, op.priority < 7 →
          op.char ∉ first ∧ op.char ∉ second ∧ op.char ∉ right := by
        intro op hop
        obtain ⟨hl, hr⟩ := hlower op hop
        rw [hleft_eq, List.mem_append, List.mem_cons] at hl
        exact ⟨fun h => hl (.inl h), fun h => hl (.inr (.inr h)), hr⟩
      have hv1 : v1 = u1.bind fun a => u2.bind fun b => some (a + b) := by
        have hsettled' : Settled false (first ++ plus :: second) := by
          rw [← htext] at hsettled
          rw [← hleft_eq]
          exact (hsettled.operands hnot).1
        have hsum := evaluates_firstPlus hsettled' hfirst
          (fun op hop => ⟨(hparts op hop).1, (hparts op hop).2.1⟩) hu1 hu2
        rw [← hleft_eq] at hsum
        exact (hleft 0).symm.trans (hsum 0)
      have hinner := ih second.length hsecond hrest
        (fun op hop => ⟨(hparts op hop).2.1, (hparts op hop).2.2⟩) hu2 rfl
      have houter := evaluates_firstPlus hsettled hfirst (fun op hop => by
        refine ⟨(hparts op hop).1, ?_⟩
        rw [List.mem_append, List.mem_cons]
        rintro (h | h | h)
        · exact (hparts op hop).2.1 h
        · rw [(char_injective h : op = .add)] at hop
          exact absurd hop (by decide)
        · exact (hparts op hop).2.2 h) hu1 hinner
      have hassoc : (v1.bind fun a => v2.bind fun b => some (a + b)) =
          u1.bind fun a => (u2.bind fun b => v2.bind fun c => some (b + c)).bind
            fun d => some (a + d) := by
        rw [hv1]
        cases u1 <;> cases u2 <;> cases v2 <;> simp [add_assoc]
      rw [hassoc]
      exact houter
    · exact evaluates_firstPlus hsettled hplus hlower hleft hright

end

namespace Expr

theorem not_mem_number {op : Operator} (hop : op ≠ .sub) (n : Number) (flip : Bool) :
  op.char ∉ (number n).signedText flip
  := by
  have hchar : ¬ (isDigit op.char = true ∨ op.char = dot ∨ op.char ∈ suffixes) ∧
      op.char ≠ negative := by
    revert hop
    cases op <;> decide
  intro h
  obtain h | h := List.mem_append.mp h
  · cases flip with
    | true => exact hchar.2 (List.mem_singleton.mp h)
    | false => cases h
  · exact hchar.1 (n.mem_text h)

/-- The operators in the text are not bound more loosely than the expression. -/
theorem level_le {e : Expr} (hsimple : e.Simple) (hwf : e.WellFormed) {flip : Bool}
    {op : Operator} (hop : op ≠ .sub) (h : op.char ∈ e.signedText flip) :
  e.level ≤ if op = .add then 8 else op.priority
  := by
  induction e generalizing flip with
  | number n => exact absurd h (not_mem_number hop n flip)
  | neg e ih =>
    have hle := ih hsimple hwf.2 h
    have hlevel : (neg e).level = 11 := rfl
    have := hwf.1
    omega
  | paren e ih => exact hsimple.elim
  | binary op' left right ihleft ihright =>
    obtain ⟨hlevels, hwfleft, hwfright⟩ := hwf
    have hle : op'.priority ≤ left.level ∧ op'.priority ≤ right.level := by
      split at hlevels <;> omega
    have hlevel : (binary op' left right).level = op'.priority := rfl
    rw [signedText] at h
    rw [hlevel]
    split at h
    case isTrue hop' =>
      rw [List.mem_append, List.mem_append] at h
      obtain h | h | h := h
      · exact hle.1.trans (ihleft hsimple.1 hwfleft h)
      · split at h
        · cases h
        · obtain rfl : op = .add := char_injective (List.mem_singleton.mp h)
          obtain rfl | rfl := hop' <;> decide
      · exact hle.2.trans (ihright hsimple.2 hwfright h)
    case isFalse hop' =>
      rw [List.mem_append, List.mem_cons] at h
      obtain h | h | h := h
      · exact hle.1.trans (ihleft hsimple.1 hwfleft h)
      · obtain rfl := char_injective h
        rw [if_neg fun hadd => hop' (.inl hadd)]
      · exact hle.2.trans (ihright hsimple.2 hwfright h)

/-- An operator of lower priority does not stand in the text of an operand. -/
theorem not_mem_lower {e : Expr} (hsimple : e.Simple) (hwf : e.WellFormed) {flip prev : Bool}
    (hsettled : Settled prev (e.signedText flip)) {k : ℕ} (hk : k ≠ 8) (hlevel : k ≤ e.level)
    {op : Operator} (hop : op.priority < k) :
  op.char ∉ e.signedText flip
  := by
  by_cases hsub : op = .sub
  · rw [hsub]
    exact hsettled.mem.1
  · intro h
    have hle := level_le hsimple hwf hsub h
    split at hle
    case isTrue hadd =>
      rw [hadd] at hop
      have : 7 < k := hop
      omega
    case isFalse => omega

/-- The sign of a product or a quotient is the sign of its first number. -/
theorem apply_neg {op : Operator} (hop : 9 ≤ op.priority) (a b : ℚ) :
  op.apply (-a) b = (op.apply a b).map Neg.neg
  := by
  cases op with
  | mul => simp [Operator.apply_mul_rat]
  | div =>
    simp only [Operator.apply_div_rat]
    split
    · rfl
    · simp [neg_div]
  | _ => exact absurd hop (by decide)

/-- The value of a text with or without a change of the sign. -/
def EvaluatesTo (e : Expr) (flip : Bool) : Prop :=
  Settled false (e.signedText flip) →
    Evaluates (e.signedText flip) (if flip then e.value.map Neg.neg else e.value)

section

variable {op : Operator} {left right : Expr}

/-- A sum: a plus stands between the operands. -/
theorem evaluatesTo_sum (hsimple : (binary op left right).Simple)
    (hwf : (binary op left right).WellFormed) (hop : op = .add ∨ op = .sub)
    (hends : left.endsInSuffix = false) (hleft : left.EvaluatesTo false)
    (hright : right.EvaluatesTo (op = .sub)) :
  (binary op left right).EvaluatesTo false
  := by
  obtain ⟨hlevels, hwfleft, hwfright⟩ := hwf
  have hle : 7 ≤ left.level ∧ 7 ≤ right.level := by
    have hseven : 7 ≤ op.priority := by obtain rfl | rfl := hop <;> decide
    split at hlevels <;> omega
  have hnot : endsOperand (some plus) = false := by decide
  intro hsettled
  rw [signedText, if_pos hop, hends] at hsettled ⊢
  obtain ⟨hl, hr⟩ := hsettled.operands hnot
  have hvalue := evaluates_sum hsettled (fun op' hop' =>
    ⟨not_mem_lower hsimple.1 hwfleft hl (by decide) hle.1 hop',
      not_mem_lower hsimple.2 hwfright hr (by decide) hle.2 hop'⟩) (hleft hl) (hright hr)
  have heq : (left.value.bind fun a =>
      (if decide (op = .sub) = true then right.value.map Neg.neg else right.value).bind
        fun b => some (a + b)) = (binary op left right).value := by
    obtain rfl | rfl := hop
    · rfl
    · rw [value]
      cases left.value <;> cases right.value <;>
        simp [Operator.apply_sub_rat, sub_eq_add_neg]
  rw [if_neg Bool.false_ne_true, ← heq]
  exact hvalue

/-- All other operators stand in the text themselves. -/
theorem evaluatesTo_binary (hsimple : (binary op left right).Simple)
    (hwf : (binary op left right).WellFormed) (hop : ¬ (op = .add ∨ op = .sub)) {flip : Bool}
    (hflip : flip = true → 9 ≤ op.priority) (hleft : left.EvaluatesTo flip)
    (hright : right.EvaluatesTo false) :
  (binary op left right).EvaluatesTo flip
  := by
  obtain ⟨hlevels, hwfleft, hwfright⟩ := hwf
  have hle : op.priority ≤ left.level ∧ op.priority ≤ right.level := by
    split at hlevels <;> omega
  have hsub : op ≠ .sub := fun h => hop (.inr h)
  have hne : op.priority ≠ 8 := by
    revert hsub
    cases op <;> decide
  have hnot : endsOperand (some op.char) = false := by cases op <;> decide
  intro hsettled
  rw [signedText, if_neg hop] at hsettled ⊢
  obtain ⟨hl, hr⟩ := hsettled.operands hnot
  have hmem : ∀ e : Expr, e.Simple → e.WellFormed → ∀ flip,
      op.char ∈ e.signedText flip → e.level ≤ op.priority := by
    intro e hsimple hwf flip h
    have hlevel := level_le hsimple hwf hsub h
    rw [if_neg fun hadd => hop (.inl hadd)] at hlevel
    exact hlevel
  have hside : op.char ∉ if op.FromRight then right.signedText false
      else left.signedText flip := by
    intro h
    split at h
    case isTrue hfrom =>
      rw [if_pos hfrom] at hlevels
      have := hmem right hsimple.2 hwfright _ h
      omega
    case isFalse hfrom =>
      rw [if_neg hfrom] at hlevels
      have := hmem left hsimple.1 hwfleft _ h
      omega
  have hvalue := evaluates_binary hsub hsettled hside (fun op' hop' =>
    ⟨not_mem_lower hsimple.1 hwfleft hl hne hle.1 hop',
      not_mem_lower hsimple.2 hwfright hr hne hle.2 hop'⟩) (hleft hl) (hright hr)
  cases flip with
  | false => exact hvalue
  | true =>
    have heq : ((left.value.map Neg.neg).bind fun a => right.value.bind (op.apply a)) =
        (binary op left right).value.map Neg.neg := by
      rw [value]
      cases left.value with
      | none => rfl
      | some a =>
        cases right.value with
        | none => rfl
        | some b => exact apply_neg (hflip rfl) a b
    rw [if_pos rfl, ← heq]
    exact hvalue

end

/-- The text with its signs compressed has the value of the expression, or the opposite value
if the first number has changed its sign. -/
theorem evaluatesTo {e : Expr} (hsimple : e.Simple) (hwf : e.WellFormed)
    (hsign : e.signBehindSuffix = false) {flip : Bool} (hflip : flip = true → 9 ≤ e.level) :
  e.EvaluatesTo flip
  := by
  induction e generalizing flip with
  | number n =>
    intro hsettled
    have hvalue := hsettled.evaluates_number (n.readNumber_eq flip)
    cases flip <;> exact hvalue
  | neg e ih =>
    intro hsettled
    have hlevel : (!flip) = true → 9 ≤ e.level := fun _ => le_trans (by decide) hwf.1
    have hvalue := ih hsimple hwf.2 hsign hlevel hsettled
    cases flip with
    | false => exact hvalue
    | true =>
      have hneg : (neg e).value.map Neg.neg = e.value := by
        rw [value, Option.map_map]
        simp
      rw [if_pos rfl, hneg]
      exact hvalue
  | paren e ih => exact hsimple.elim
  | binary op left right ihleft ihright =>
    simp only [signBehindSuffix, Bool.or_eq_false_iff, Bool.and_eq_false_iff] at hsign
    obtain ⟨⟨hsuffix, hsignleft⟩, hsignright⟩ := hsign
    obtain ⟨hlevels, hwfleft, hwfright⟩ := id hwf
    have hle : op.priority ≤ left.level := by split at hlevels <;> omega
    have hnever : ∀ e : Expr, false = true → 9 ≤ e.level :=
      fun _ h => absurd h Bool.false_ne_true
    by_cases hop : op = .add ∨ op = .sub
    · obtain rfl : flip = false := by
        rw [Bool.eq_false_iff]
        intro h
        have hlevel : 9 ≤ op.priority := hflip h
        obtain rfl | rfl := hop <;> exact absurd hlevel (by decide)
      have hends : left.endsInSuffix = false := by
        obtain hnot | hends := hsuffix
        · obtain rfl | rfl := hop <;> simp at hnot
        · exact hends
      apply evaluatesTo_sum hsimple hwf hop hends
      · exact ihleft hsimple.1 hwfleft hsignleft (hnever left)
      · apply ihright hsimple.2 hwfright hsignright
        intro h
        rw [of_decide_eq_true h] at hlevels
        exact hlevels.2
    · apply evaluatesTo_binary hsimple hwf hop hflip
      · exact ihleft hsimple.1 hwfleft hsignleft fun h => (hflip h).trans hle
      · exact ihright hsimple.2 hwfright hsignright (hnever right)

/-! ### Signs behind a suffix -/

theorem signedText_head (e : Expr) (flip : Bool) :
  ∃ c rest, e.signedText flip = c :: rest ∧ (isDigit c = true ∨ c = dot ∨ c = negative)
  := by
  induction e generalizing flip with
  | number n =>
    obtain ⟨c, rest, htext, hc⟩ := n.text_head
    cases flip with
    | true => exact ⟨negative, n.text, rfl, .inr (.inr rfl)⟩
    | false =>
      refine ⟨c, rest, htext, ?_⟩
      exact hc.imp_right .inl
  | neg e ih => exact ih _
  | paren e ih => exact ih _
  | binary op left right ihleft ihright =>
    obtain ⟨c, rest, htext, hc⟩ := ihleft flip
    rw [signedText]
    split
    · exact ⟨c, _, by rw [htext]; rfl, hc⟩
    · exact ⟨c, _, by rw [htext]; rfl, hc⟩

theorem signedText_last {e : Expr} (hsimple : e.Simple) (h : e.endsInSuffix = true)
    (flip : Bool) :
  ∃ rest c, e.signedText flip = rest ++ [c] ∧ c ∈ suffixes
  := by
  induction e generalizing flip with
  | number n =>
    obtain ⟨suffix, hsuffix⟩ := Option.isSome_iff_exists.mp h
    refine ⟨(if flip then [negative] else []) ++ n.digitsText, suffix.char, ?_,
      mem_suffixes suffix⟩
    rw [signedText, Number.text, hsuffix, List.append_assoc]
    rfl
  | neg e ih => exact ih hsimple h _
  | paren e ih => exact hsimple.elim
  | binary op left right ihleft ihright =>
    rw [signedText]
    split
    · obtain ⟨rest, c, htext, hc⟩ := ihright hsimple.2 h (op = .sub)
      exact ⟨_, c, by rw [htext, ← List.append_assoc, ← List.append_assoc], hc⟩
    · obtain ⟨rest, c, htext, hc⟩ := ihright hsimple.2 h false
      refine ⟨left.signedText flip ++ op.char :: rest, c, ?_, hc⟩
      rw [htext, List.append_assoc, List.cons_append]

theorem glued_signedText {e : Expr} (hsimple : e.Simple) (h : e.signBehindSuffix = true)
    (flip : Bool) :
  Glued (e.signedText flip)
  := by
  induction e generalizing flip with
  | number n => cases h
  | neg e ih => exact ih hsimple h _
  | paren e ih => exact hsimple.elim
  | binary op left right ihleft ihright =>
    simp only [signBehindSuffix, Bool.or_eq_true, Bool.and_eq_true, decide_eq_true_eq] at h
    obtain (⟨hop, hends⟩ | hleft) | hright := h
    · obtain ⟨rest, a, hl, ha⟩ := signedText_last hsimple.1 hends flip
      obtain ⟨b, rest', hr, hb⟩ := signedText_head right (op = .sub)
      rw [signedText, if_pos hop, hends, hl, hr, List.append_assoc]
      apply Glued.prepend
      exact .inl ⟨ha, hb⟩
    · rw [signedText]
      split <;> exact (ihleft hsimple.1 hleft flip).append _
    · rw [signedText]
      split
      · exact ((ihright hsimple.2 hright _).prepend _).prepend _
      · exact ((ihright hsimple.2 hright _).cons _).prepend _

/-! ### The text -/

theorem space_not_mem (e : Expr) :
  space ∉ e.text
  := by
  induction e with
  | number n =>
    intro h
    exact absurd (n.mem_text h) (by decide)
  | neg e ih =>
    have hminus : space ≠ minus := by decide
    simp [text, ih, hminus]
  | paren e ih =>
    have hparen : space ≠ leftParen ∧ space ≠ rightParen := by decide
    simp [text, ih, hparen]
  | binary op left right ihleft ihright =>
    have hop : space ≠ op.char := by cases op <;> decide
    simp [text, ihleft, ihright, hop]

/-- Only the compressed text counts. -/
theorem evaluateSimple_congr {room : ℕ} {text text' : Bytes}
    (h : compressSigns room (zbxLrtrim text) = compressSigns room (zbxLrtrim text')) :
  (evaluateSimple room text : Except Failure ℚ) = evaluateSimple room text'
  := by
  rw [evaluateSimple_eq, evaluateSimple_eq, h]

/-- An expression without parentheses is evaluated to its value, unless a sign stands behind
a suffix. -/
theorem evaluateSimple_text {e : Expr} (hsimple : e.Simple) (hwf : e.WellFormed) {room : ℕ}
    (hroom : (compressSigns room e.text).isSome = true) :
  (evaluateSimple room e.text).toOption = if e.signBehindSuffix then none else e.value
  := by
  obtain ⟨out, hout⟩ := Option.isSome_iff_exists.mp hroom
  have hspace := e.space_not_mem
  have hscan := scanSigns_simple hsimple
  have hsettled : Settled false (e.signedText false) := by
    rw [← hscan]
    exact settled_scanSigns hspace
  have hcompress : (evaluateSimple room e.text : Except Failure ℚ) =
      evaluateSimple room (e.signedText false) := by
    apply evaluateSimple_congr
    rw [hsettled.compressed, zbxLrtrim_eq hspace, hout, compressSigns_eq hout, hscan]
  rw [hcompress]
  split
  case isTrue hsign => exact (glued_signedText hsimple hsign false).evaluates hsettled room
  case isFalse hsign =>
    have hnever : false = true → 9 ≤ e.level := fun h => nomatch h
    exact evaluatesTo hsimple hwf (Bool.eq_false_iff.mpr hsign) hnever hsettled room

end Expr

end Expression
