import Mathlib.Data.List.Chain
import Mathlib.Logic.Relation
import Mathlib.Tactic.Linarith
import Zabbix.Expression.Simple

/-!
# The buffers of the evaluator

`evaluate` keeps the text in a buffer of `MAX_STRING_LEN` bytes, and so are the part it evaluates
and the value it prints. `compress_signs` puts a byte in front of every minus that is an operator,
without looking at the size of the buffer, and a text that is put together from a printed value is
cut.

A run goes from one text of the buffer to the next. What it can do wrong in a round depends on the
text before the round. How many digits a value is printed with depends on the numbers, and nothing
is assumed of them: a printed value may be an infinity, or a zero with a sign.
-/

open Ascii
open CDouble (printedLength)

namespace Expression

variable (D : Type*) [CDouble D]

/-! ### Runs -/

/-- The text before, inside and behind the first pair of parentheses without parentheses
inside. -/
def parts (tmp : Bytes) : Option (Bytes × Bytes × Bytes) :=
  (strchr rightParen tmp).bind fun (front, after) =>
    (strrchr leftParen front).map fun (before, simple) => (before, simple, after)

/-- What `evaluate_simple` is called with in a round. -/
def evaluated (tmp : Bytes) : Option Bytes :=
  match strchr rightParen tmp with
  | none => some tmp
  | some (front, _) => (strrchr leftParen front).map Prod.snd

/-- The string `res`, which is copied to the buffer at the end of a round. -/
def replaced {D : Type*} [CDouble D] (before after : Bytes) (value : D) : Bytes :=
  zbxRemoveSpaces (before ++ (strscpy (printDouble value) ++ after))

/-- A round of the loop of `evaluate`. -/
inductive Round : Bytes → Bytes → Prop
  | intro {tmp before simple after : Bytes} {value : D}
    (hparts : parts tmp = some (before, simple, after))
    (hvalue : evaluateSimple (maxStringLen - 1) simple = .ok value) :
    Round tmp (strscpy (replaced before after value))

/-- The texts that are in the buffer at the start of a round. -/
def Reached (expression tmp : Bytes) : Prop :=
  Relation.ReflTransGen (Round D) (strscpy expression) tmp

variable {D}

theorem strchr_of_parts {tmp before simple after : Bytes}
    (h : parts tmp = some (before, simple, after)) :
  ∃ front, strchr rightParen tmp = some (front, after) ∧
    strrchr leftParen front = some (before, simple)
  := by
  obtain ⟨⟨front, after'⟩, hright, hleft⟩ := Option.bind_eq_some_iff.mp h
  obtain ⟨⟨before', simple'⟩, hparts, heq⟩ := Option.map_eq_some_iff.mp hleft
  cases heq
  exact ⟨front, hright, hparts⟩

/-- The loop goes on with the text of the next round. -/
theorem evaluateLoop_of_round {tmp tmp' : Bytes} (h : Round D tmp tmp') :
  (evaluateLoop tmp : Except Failure D) = evaluateLoop tmp'
  := by
  obtain ⟨hparts, hvalue⟩ := h
  obtain ⟨front, hright, hleft⟩ := strchr_of_parts hparts
  rw [evaluateLoop_eq, hright]
  dsimp only
  rw [hleft]
  dsimp only
  rw [hvalue]
  rfl

/-- Where the loop succeeds there are no parentheses, or there is another round. -/
theorem evaluateLoop_ok {tmp : Bytes} {value : D} (h : evaluateLoop tmp = .ok value) :
  strchr rightParen tmp = none ∧ evaluateSimple (maxStringLen - 1) tmp = .ok value ∨
    ∃ before simple after, ∃ v : D, parts tmp = some (before, simple, after) ∧
      evaluateSimple (maxStringLen - 1) simple = .ok v
  := by
  rw [evaluateLoop_eq] at h
  split at h
  case h_1 hright => exact .inl ⟨hright, h⟩
  case h_2 front after hright =>
    split at h
    case h_1 => cases h
    case h_2 before simple hleft =>
      split at h
      case h_1 => cases h
      case h_2 v hvalue =>
        refine .inr ⟨before, simple, after, v, ?_, hvalue⟩
        rw [parts, hright, Option.bind_some]
        dsimp only
        rw [hleft]
        rfl

/-! ### Signs -/

/-- By how much the second loop of `compress_signs` lengthens a text, behind an operand or
not. -/
def growth (prev : Bool) : Bytes → ℤ
  | [] => 0
  | c :: rest =>
    (if c = minus ∧ prev then 1 else if c = plus ∧ ¬ prev then -1 else 0) +
      growth (endsOperand (some c)) rest

/-- At every minus behind an operand there is room for one byte more. -/
def SignsFit (text : Bytes) : Prop :=
  ∀ front back, mergeLoop (zbxLrtrim text) = front ++ minus :: back → endsBehind false front →
    (mergeLoop (zbxLrtrim text)).length + growth false front + 1 < maxStringLen

/-- No sign stands behind a sign. -/
def Apart (text : Bytes) : Prop := text.IsChain fun a b => mergeSigns a b = none

theorem mergeSigns_eq_none_iff {cur next : UInt8} :
  mergeSigns cur next = none ↔ ¬ (isSign cur = true ∧ isSign next = true)
  := by
  constructor
  · rintro h ⟨hcur, hnext⟩
    rw [isSign_iff] at hcur hnext
    obtain rfl | rfl := hcur <;> obtain rfl | rfl := hnext <;> exact absurd h (by decide)
  · exact mergeSigns_none

theorem apart_merged (text : Bytes) :
  Apart (merged text)
  := by
  induction text with
  | nil => exact .nil
  | cons c text ih =>
    rw [merged_cons]
    cases hmerged : merged text with
    | nil => exact .singleton c
    | cons next rest =>
      rw [hmerged] at ih
      rw [consMerged]
      cases hsign : mergeSigns c next with
      | none => exact .cons_cons hsign ih
      | some sign =>
        obtain ⟨-, hnext, hsigned⟩ := mergeSigns_eq_some hsign
        cases rest with
        | nil => exact .singleton sign
        | cons d rest =>
          obtain ⟨hd, hrest⟩ := List.isChain_cons_cons.mp ih
          refine .cons_cons ?_ hrest
          rw [mergeSigns_eq_none_iff] at hd ⊢
          exact fun hboth => hd ⟨hnext, hboth.2⟩

/-- A minus at which a text of some length, of which the rest is given, does not fit. -/
def Overflows (room length : ℤ) (prev : Bool) (text : Bytes) : Prop :=
  ∃ front back, text = front ++ minus :: back ∧ endsBehind prev front = true ∧
    room < length + growth prev front + 1

theorem not_overflows_nil {room length : ℤ} {prev : Bool} :
  ¬ Overflows room length prev []
  := by
  rintro ⟨front, back, htext, -⟩
  simp at htext

theorem overflows_cons {room length : ℤ} {prev : Bool} {c : UInt8} {rest : Bytes} :
  Overflows room length prev (c :: rest)
    ↔ c = minus ∧ prev = true ∧ room < length + 1 ∨
      Overflows room (length + growth prev [c]) (endsOperand (some c)) rest
  := by
  constructor
  · rintro ⟨front, back, htext, hbehind, hroom⟩
    cases front with
    | nil =>
      rw [List.nil_append, List.cons.injEq] at htext
      simp only [growth, add_zero] at hroom
      exact .inl ⟨htext.1, hbehind, hroom⟩
    | cons d front =>
      rw [List.cons_append, List.cons.injEq] at htext
      obtain ⟨rfl, hrest⟩ := htext
      refine .inr ⟨front, back, hrest, hbehind, ?_⟩
      simp only [growth, add_zero] at hroom ⊢
      rwa [← add_assoc] at hroom
  · rintro (⟨rfl, hprev, hroom⟩ | ⟨front, back, rfl, hbehind, hroom⟩)
    · exact ⟨[], rest, rfl, hprev, by simpa [growth] using hroom⟩
    · refine ⟨c :: front, back, rfl, hbehind, ?_⟩
      simp only [growth, add_zero] at hroom ⊢
      rwa [← add_assoc]

/-- At a character that is no minus, or at a minus that is no operator, nothing goes wrong. -/
theorem overflows_cons_of {room length : ℤ} {prev : Bool} {c : UInt8} {rest : Bytes}
    (h : ¬ (c = minus ∧ prev = true)) :
  Overflows room length prev (c :: rest)
    ↔ Overflows room (length + growth prev [c]) (endsOperand (some c)) rest
  := by
  rw [overflows_cons, or_iff_right]
  exact fun hboth => h ⟨hboth.1, hboth.2.1⟩

/-- The growth at a character that is no sign. -/
theorem growth_other {prev : Bool} {c : UInt8} (hplus : c ≠ plus) (hminus : c ≠ minus) :
  growth prev [c] = 0
  := by
  simp [growth, hplus, hminus]

/-- The second loop writes behind the buffer exactly at such a minus. -/
theorem markSigns_eq_none_iff {room : ℕ} {done text : Bytes} (h : Apart text) :
  markSigns room done text = none
    ↔ Overflows room (done.length + text.length) (endsOperand done.head?) text
  := by
  have hplus : plus ≠ minus := by decide
  fun_induction markSigns room done text with
  | case1 done => simp [not_overflows_nil]
  | case2 done rest hend ih =>
    have hgrowth : growth (endsOperand done.head?) [plus] = 0 := by simp [growth, hplus, hend]
    refine (ih h.tail).trans ?_
    rw [overflows_cons_of fun hboth => hplus hboth.1, hgrowth, List.length_cons,
      List.length_cons]
    push_cast
    ring_nf
    rfl
  | case3 done hend =>
    rw [overflows_cons_of fun hboth => hplus hboth.1]
    simp [not_overflows_nil]
  | case4 done hend next rest ih =>
    have hgrowth : growth (endsOperand done.head?) [plus] = -1 := by simp [growth, hplus, hend]
    have hnext : isSign next = false := by
      have hapart := mergeSigns_eq_none_iff.mp (List.isChain_cons_cons.mp h).1
      exact Bool.eq_false_iff.mpr fun hsign => hapart ⟨by decide, hsign⟩
    have hnotplus : next ≠ plus := by
      rintro rfl
      contradiction
    have hnotminus : next ≠ minus := by
      rintro rfl
      contradiction
    refine (ih h.tail.tail).trans ?_
    rw [overflows_cons_of fun hboth => hplus hboth.1, hgrowth,
      overflows_cons_of fun hboth => hnotminus hboth.1, growth_other hnotplus hnotminus,
      List.length_cons, List.length_cons, List.length_cons]
    push_cast
    ring_nf
    rfl
  | case5 done rest hend hroom _ ih =>
    have hgrowth : growth (endsOperand done.head?) [minus] = 1 := by simp [growth, hend]
    refine (ih h.tail).trans ?_
    rw [overflows_cons, hgrowth, or_iff_right]
    · simp only [List.length_cons]
      push_cast
      ring_nf
      rfl
    · rintro ⟨-, -, hlt⟩
      simp only [List.length_cons] at hlt
      push_cast at hlt
      omega
  | case6 done rest hend hroom _ =>
    rw [overflows_cons]
    refine ⟨fun _ => .inl ⟨rfl, hend, ?_⟩, fun _ => rfl⟩
    simp only [List.length_cons]
    push_cast
    omega
  | case7 done rest hend _ ih =>
    have hgrowth : growth (endsOperand done.head?) [minus] = 0 := by
      simp [growth, hend, hplus.symm]
    refine (ih h.tail).trans ?_
    rw [overflows_cons_of fun hboth => hend hboth.2, hgrowth, List.length_cons,
      List.length_cons]
    push_cast
    ring_nf
    rfl
  | case8 done cur rest hplus' hminus ih =>
    refine (ih h.tail).trans ?_
    rw [overflows_cons_of fun hboth => hminus hboth.1, growth_other hplus' hminus,
      List.length_cons, List.length_cons]
    push_cast
    ring_nf
    rfl

theorem signsFit_iff (text : Bytes) :
  SignsFit text ↔ compressSigns (maxStringLen - 1) (zbxLrtrim text) ≠ none
  := by
  have happly : Apart (mergeLoop (zbxLrtrim text)) := by
    rw [mergeLoop_eq]
    exact apart_merged _
  rw [Ne, compressSigns, markSigns_eq_none_iff happly]
  constructor
  · rintro hfit ⟨front, back, htext, hbehind, hroom⟩
    have hlt := hfit front back htext hbehind
    simp only [List.length_nil, maxStringLen] at hroom hlt
    push_cast at hroom hlt
    change (2047 : ℤ) < 0 + _ + growth false front + 1 at hroom
    omega
  · intro h front back htext hbehind
    refine not_le.mp fun hle => h ⟨front, back, htext, hbehind, ?_⟩
    simp only [List.length_nil, maxStringLen] at hle ⊢
    push_cast at hle ⊢
    change (2047 : ℤ) < 0 + _ + growth false front + 1
    omega

/-! ### Operands -/

theorem minus_not_mem_emitSign (prev : Bool) (pending : Option UInt8) :
  minus ∉ emitSign prev pending
  := by
  cases pending with
  | none => simp [emitSign]
  | some sign =>
    have hplus : minus ≠ plus := by decide
    have hnegative : minus ≠ negative := by decide
    rw [emitSign, List.mem_append, not_or]
    constructor
    · split <;> simp [hplus]
    · split <;> simp [hnegative]

/-- No minus is left by `compress_signs`. -/
theorem minus_not_mem_scanSigns (prev : Bool) (pending : Option UInt8) (text : Bytes) :
  minus ∉ scanSigns prev pending text
  := by
  induction text generalizing prev pending with
  | nil => exact minus_not_mem_emitSign prev pending
  | cons c rest ih =>
    rw [scanSigns]
    split
    case isTrue => exact ih _ _
    case isFalse hsign =>
      rw [List.mem_append, List.mem_cons, not_or, not_or]
      refine ⟨minus_not_mem_emitSign prev pending, ?_, ih _ _⟩
      rintro rfl
      exact hsign (by decide)

theorem minus_not_mem_mergeLoop {text : Bytes} (h : minus ∉ text) :
  minus ∉ mergeLoop text
  := by
  rw [mergeLoop_eq]
  induction text with
  | nil => exact List.not_mem_nil
  | cons c text ih =>
    obtain ⟨hc, htext⟩ := not_or.mp (List.mem_cons.not.mp h)
    have hmerged := ih htext
    rw [merged_cons]
    cases hrest : merged text with
    | nil => simpa [consMerged] using hc
    | cons next rest =>
      rw [hrest, List.mem_cons, not_or] at hmerged
      rw [consMerged]
      cases hsign : mergeSigns c next with
      | none => simp [hc, hmerged.1, hmerged.2]
      | some sign =>
        obtain ⟨hcur, hnext, -⟩ := mergeSigns_eq_some hsign
        obtain rfl := (isSign_iff.mp hcur).resolve_right (Ne.symm hc)
        obtain rfl := (isSign_iff.mp hnext).resolve_right (Ne.symm hmerged.1)
        obtain rfl : plus = sign := Option.some.inj hsign
        simp [hmerged.2]
        decide

/-- Without a minus there is nothing to lengthen. -/
theorem compressSigns_ne_none {room : ℕ} {text : Bytes} (h : minus ∉ text) :
  compressSigns room text ≠ none
  := by
  have happly : Apart (mergeLoop text) := by
    rw [mergeLoop_eq]
    exact apart_merged _
  rw [Ne, compressSigns, markSigns_eq_none_iff happly]
  rintro ⟨front, back, htext, -⟩
  refine minus_not_mem_mergeLoop h ?_
  rw [htext]
  simp

theorem minus_not_mem_zbxLrtrim {text : Bytes} (h : minus ∉ text) :
  minus ∉ zbxLrtrim text
  := fun hmem => h ((List.rdropWhile_prefix _ _).subset
    ((List.dropWhile_sublist _).subset hmem))

/-- `evaluate_simple` writes behind the buffer exactly when its first call of `compress_signs`
does: there is no minus in the operands any more. -/
theorem evaluateSimple_overflow_iff (room : ℕ) (text : Bytes) :
  (evaluateSimple room text : Except Failure D) = .error .overflow
    ↔ compressSigns room (zbxLrtrim text) = none
  := by
  induction hweight : weight text using Nat.strong_induction_on generalizing room text with
  | _ n ih =>
    rw [evaluateSimple_eq]
    cases hcompress : compressSigns room (zbxLrtrim text) with
    | none => simp
    | some expression =>
      have hminus : minus ∉ expression := by
        rw [compressSigns_eq hcompress]
        exact minus_not_mem_scanSigns _ _ _
      dsimp only
      cases (readNumber expression : Option D) with
      | some value => simp
      | none =>
        cases hfind : findOperator expression with
        | none => simp
        | some parts =>
          obtain ⟨op, left, right⟩ := parts
          obtain ⟨hleft, hright⟩ := weight_operands hcompress hfind
          rw [findOperator_eq hfind, List.mem_append, List.mem_cons, not_or, not_or] at hminus
          have hoperand : ∀ (room : ℕ) (operand : Bytes), weight operand < weight text →
              minus ∉ operand →
              (evaluateSimple room operand : Except Failure D) ≠ .error .overflow := by
            intro room operand hlt hmem hoverflow
            have hnone := (ih _ (hweight ▸ hlt) room operand rfl).mp hoverflow
            exact compressSigns_ne_none (minus_not_mem_zbxLrtrim hmem) hnone
          have hleft' := hoperand left.length left hleft hminus.1
          have hright' := hoperand (room - left.length - 1) right hright hminus.2.2
          dsimp only
          cases hvalue1 : (evaluateSimple left.length left : Except Failure D) with
          | error failure =>
            rw [hvalue1] at hleft'
            simpa using hleft'
          | ok value1 =>
            dsimp only
            cases hvalue2 : (evaluateSimple (room - left.length - 1) right : Except Failure D) with
            | error failure =>
              rw [hvalue2] at hright'
              simpa using hright'
            | ok value2 =>
              dsimp only
              cases op.apply value1 value2 <;> simp

/-! ### Printed values -/

theorem length_printDouble (value : D) :
  (printDouble value).length = printedLength value
  := CDouble.length_print value

/-- The text of the next round fits, without its spaces. -/
def ValueFits (before after : Bytes) (value : D) : Prop :=
  (zbxRemoveSpaces before).length + printedLength value + (zbxRemoveSpaces after).length
    < maxStringLen

theorem strscpy_eq {text : Bytes} (h : text.length < maxStringLen) :
  strscpy text = text
  := List.take_of_length_le (Nat.le_sub_one_of_lt h)

theorem zbxRemoveSpaces_printDouble (value : D) :
  zbxRemoveSpaces (printDouble value) = printDouble value
  := by
  apply List.filter_eq_self.mpr
  intro c hc
  rw [decide_eq_true_eq]
  rintro rfl
  exact CDouble.not_mem_print value (by decide) hc

theorem valueFits_iff (before after : Bytes) (value : D) :
  ValueFits before after value
    ↔ (printDouble value).length < maxStringLen
      ∧ (replaced before after value).length < maxStringLen
  := by
  have hlength : (printDouble value).length < maxStringLen →
      (replaced before after value).length = (zbxRemoveSpaces before).length +
        printedLength value + (zbxRemoveSpaces after).length := by
    intro hprinted
    rw [replaced, strscpy_eq hprinted, zbxRemoveSpaces, List.filter_append, List.filter_append]
    simp only [List.length_append]
    rw [← length_printDouble, ← zbxRemoveSpaces_printDouble value]
    simp only [zbxRemoveSpaces, List.filter_filter, Bool.and_self]
    omega
  constructor
  · intro hfits
    have hprinted : (printDouble value).length < maxStringLen := by
      rw [length_printDouble]
      rw [ValueFits] at hfits
      omega
    exact ⟨hprinted, (hlength hprinted).trans_lt hfits⟩
  · rintro ⟨hprinted, hreplaced⟩
    exact (hlength hprinted).symm.trans_lt hreplaced

/-! ### Rounds that fit -/

variable (D)

/-- In a round that starts with this text nothing is written behind a buffer, and nothing is
cut. -/
structure Kept (tmp : Bytes) : Prop where
  signs : ∀ text, evaluated tmp = some text →
    (evaluateSimple (maxStringLen - 1) text : Except Failure D) ≠ .error .overflow
  value : ∀ before simple after, ∀ value : D, parts tmp = some (before, simple, after) →
    evaluateSimple (maxStringLen - 1) simple = .ok value →
    (printDouble value).length < maxStringLen ∧ (replaced before after value).length < maxStringLen

/-- The condition on a text before a round: there is room for the signs of what is evaluated,
and for the digits of its value. -/
structure RoundFits (tmp : Bytes) : Prop where
  signs : ∀ text, evaluated tmp = some text → SignsFit text
  value : ∀ before simple after, ∀ value : D, parts tmp = some (before, simple, after) →
    evaluateSimple (maxStringLen - 1) simple = .ok value → ValueFits before after value

variable {D}

theorem kept_iff (tmp : Bytes) :
  Kept D tmp ↔ RoundFits D tmp
  := by
  have hsigns : ∀ text, (evaluateSimple (maxStringLen - 1) text : Except Failure D)
      ≠ .error .overflow ↔ SignsFit text :=
    fun text => (evaluateSimple_overflow_iff _ text).not.trans (signsFit_iff text).symm
  constructor
  · rintro ⟨h, hvalue⟩
    exact ⟨fun text htext => (hsigns text).mp (h text htext),
      fun before simple after value hp hv =>
        (valueFits_iff before after value).mpr (hvalue before simple after value hp hv)⟩
  · rintro ⟨h, hvalue⟩
    exact ⟨fun text htext => (hsigns text).mpr (h text htext),
      fun before simple after value hp hv =>
        (valueFits_iff before after value).mp (hvalue before simple after value hp hv)⟩

variable (D)

/-- The buffers of `evaluate` keep every text of a run. -/
def BuffersKeep (expression : Bytes) : Prop :=
  strscpy expression = expression ∧ ∀ tmp, Reached D expression tmp → Kept D tmp

/-- An expression that fits is kept in every state of its run exactly when every round fits. -/
theorem buffersKeep_iff (expression : Bytes) (h : expression.length < maxStringLen) :
  BuffersKeep D expression ↔ ∀ tmp, Reached D expression tmp → RoundFits D tmp
  := by
  constructor
  · intro hkeep tmp htmp
    exact (kept_iff tmp).mp (hkeep.2 tmp htmp)
  · intro hfits
    exact ⟨strscpy_eq h, fun tmp htmp => (kept_iff tmp).mpr (hfits tmp htmp)⟩

/-- `1-1`, in which the minus gets a plus in front of it. -/
def shortDifference : Bytes := [0x31, minus, 0x31]

theorem shortDifference_fits (tmp : Bytes) (htmp : Reached D shortDifference tmp) :
  RoundFits D tmp
  := by
  have hparts : parts shortDifference = none := by decide
  have hround : ∀ tmp, ¬ Round D shortDifference tmp := by
    rintro tmp ⟨hsome, -⟩
    rw [hparts] at hsome
    contradiction
  obtain rfl : tmp = shortDifference := by
    obtain heq | ⟨next, hnext, -⟩ := Relation.ReflTransGen.cases_head htmp
    · exact heq.symm
    · exact absurd hnext (hround next)
  constructor
  · intro text htext
    have heq : evaluated shortDifference = some shortDifference := by decide
    rw [← Option.some.inj (heq.symm.trans htext)]
    exact (signsFit_iff _).mpr (by decide +kernel)
  · intro before simple after value hsome
    rw [hparts] at hsome
    contradiction

/-- `(3-1)-1`: the value of the difference in parentheses is printed in front of a minus. -/
def innerDifference : Bytes := [leftParen, 0x33, minus, 0x31, rightParen, minus, 0x31]

/-- `2.000000-1`, the text after the first round. -/
def printedDifference : Bytes := printDouble (2 : ℚ) ++ [minus, 0x31]

theorem innerDifference_value :
  evaluateSimple (maxStringLen - 1) [0x33, minus, 0x31] = .ok (2 : ℚ)
  := by
  have hvalue : (evaluateSimple (maxStringLen - 1) [0x33, minus, 0x31] :
      Except Failure ℚ).toOption = some 2 := by decide +kernel
  cases hresult : (evaluateSimple (maxStringLen - 1) [0x33, minus, 0x31] : Except Failure ℚ) with
  | error failure =>
    rw [hresult] at hvalue
    contradiction
  | ok value =>
    rw [hresult] at hvalue
    rw [Option.some.inj hvalue]

theorem innerDifference_fits (tmp : Bytes) (htmp : Reached ℚ innerDifference tmp) :
  RoundFits ℚ tmp
  := by
  have hparts : parts innerDifference = some ([], [0x33, minus, 0x31], [minus, 0x31]) := by decide
  have hlast : parts printedDifference = none := by decide +kernel
  have hvalue : ∀ before simple after, ∀ value : ℚ,
      parts innerDifference = some (before, simple, after) →
      evaluateSimple (maxStringLen - 1) simple = .ok value →
      before = [] ∧ after = [minus, 0x31] ∧ value = 2 := by
    intro before simple after value hsome hvalue
    rw [hparts] at hsome
    cases hsome
    rw [innerDifference_value] at hvalue
    cases hvalue
    exact ⟨rfl, rfl, rfl⟩
  obtain rfl | ⟨next, ⟨hsome, hok⟩, hrest⟩ := Relation.ReflTransGen.cases_head htmp
  · constructor
    · intro text htext
      have heq : evaluated innerDifference = some [0x33, minus, 0x31] := by decide
      rw [← Option.some.inj (heq.symm.trans htext)]
      exact (signsFit_iff _).mpr (by decide +kernel)
    · intro before simple after value hsome hok
      obtain ⟨rfl, rfl, rfl⟩ := hvalue before simple after value hsome hok
      rw [ValueFits]
      decide +kernel
  · -- the second round starts with the printed value, and there is no other one
    obtain ⟨rfl, rfl, rfl⟩ := hvalue _ _ _ _ hsome hok
    have hnext : strscpy (replaced [] [minus, 0x31] (2 : ℚ)) = printedDifference := by
      decide +kernel
    rw [hnext] at hrest
    obtain rfl | ⟨next, ⟨hsome', -⟩, -⟩ := Relation.ReflTransGen.cases_head hrest
    · constructor
      · intro text htext
        have heq : evaluated printedDifference = some printedDifference := by decide +kernel
        rw [← Option.some.inj (heq.symm.trans htext)]
        exact (signsFit_iff _).mpr (by decide +kernel)
      · intro before simple after value hnone
        cases hlast.symm.trans hnone
    · cases hlast.symm.trans hsome'

theorem innerDifference_kept :
  BuffersKeep ℚ innerDifference
  := (buffersKeep_iff ℚ innerDifference (by decide)).mpr innerDifference_fits

/-- The digit one, a minus and digits up to the size of the buffer. -/
def longDifference : Bytes := 0x31 :: minus :: List.replicate 2045 0x31

/-- There is a place for every byte of the text and its zero byte, and none for the byte that
`compress_signs` puts in front of the minus. -/
theorem longDifference_not_kept :
  longDifference.length < maxStringLen ∧ ¬ BuffersKeep ℚ longDifference
  := by
  have hlength : longDifference.length < maxStringLen := by
    rw [longDifference, List.length_cons, List.length_cons, List.length_replicate]
    decide
  refine ⟨hlength, fun hkeep => ?_⟩
  have hmem : ∀ c ∈ longDifference, c = 0x31 ∨ c = minus := by
    intro c hc
    obtain rfl | rfl | hc := List.mem_cons.mp hc |>.imp_right List.mem_cons.mp
    · exact .inl rfl
    · exact .inr rfl
    · exact .inl (List.eq_of_mem_replicate hc)
  have hnot : ∀ c, c ≠ 0x31 → c ≠ minus → c ∉ longDifference :=
    fun c hone hminus hc => (hmem c hc).elim hone hminus
  have hevaluated : evaluated longDifference = some longDifference := by
    rw [evaluated, strchr_eq_none_iff.mpr (hnot rightParen (by decide) (by decide))]
  have hmerged : mergeLoop (zbxLrtrim longDifference) = longDifference := by
    rw [zbxLrtrim_eq (hnot space (by decide) (by decide)), mergeLoop_eq]
    have hdigits : ∀ n, merged (List.replicate n 0x31) = List.replicate n 0x31 := by
      intro n
      induction n with
      | zero => rfl
      | succ n ih =>
        rw [List.replicate_succ, merged_cons, ih]
        cases n <;> rfl
    rw [longDifference, merged_cons, merged_cons, hdigits]
    rfl
  have hreached : Reached ℚ longDifference longDifference := by
    rw [Reached, strscpy_eq hlength]
  have hfits := ((kept_iff _).mp (hkeep.2 _ hreached)).signs _ hevaluated
  have hroom := hfits [0x31] (List.replicate 2045 0x31) hmerged rfl
  have hgrowth : growth false [0x31] = 0 := rfl
  rw [hmerged, hgrowth, longDifference, List.length_cons, List.length_cons,
    List.length_replicate] at hroom
  exact absurd hroom (by decide)

end Expression
