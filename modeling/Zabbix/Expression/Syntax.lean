import Zabbix.Expression.Evaluate

/-!
# Expressions

The expressions that `evaluate` is made for, their texts, and their exact values.  Beside the
exact value stands the value with every parenthesised value rounded to six decimals, which is
how `evaluate` prints it.

A `Context` is an expression with a hole.  `Expr.innermost` finds the first pair of
parentheses without parentheses inside; putting the printed value in its place is what one
round of the loop of `evaluate` does to the text.
-/

open Ascii
open CDouble (lastDigits length_lastDigits isDigit_lastDigits)

namespace Expression

/-! ### Numbers -/

inductive Suffix
  | kibi | mebi | gibi | tebi | second | minute | hour | day | week
deriving DecidableEq

namespace Suffix

def char : Suffix → UInt8
  | kibi => 'K'.toUInt8
  | mebi => 'M'.toUInt8
  | gibi => 'G'.toUInt8
  | tebi => 'T'.toUInt8
  | second => 's'.toUInt8
  | minute => 'm'.toUInt8
  | hour => 'h'.toUInt8
  | day => 'd'.toUInt8
  | week => 'w'.toUInt8

def factor : Suffix → ℚ
  | kibi => 1024
  | mebi => 1024 ^ 2
  | gibi => 1024 ^ 3
  | tebi => 1024 ^ 4
  | second => 1
  | minute => 60
  | hour => 60 * 60
  | day => 24 * 60 * 60
  | week => 7 * 24 * 60 * 60

end Suffix

/-- A decimal number, with at least one digit. -/
structure Number where
  whole : Bytes
  fraction : Option Bytes
  suffix : Option Suffix
  whole_digits : ∀ c ∈ whole, isDigit c = true
  fraction_digits : ∀ c ∈ fraction.getD [], isDigit c = true
  digits_ne_nil : whole ++ fraction.getD [] ≠ []

namespace Number

/-- The text without the suffix. -/
def digitsText (n : Number) : Bytes :=
  match n.fraction with
  | none => n.whole
  | some digits => n.whole ++ dot :: digits

def text (n : Number) : Bytes := n.digitsText ++ (n.suffix.map Suffix.char).toList

def value (n : Number) : ℚ :=
  digitsValue (n.whole ++ n.fraction.getD []) / 10 ^ (n.fraction.getD []).length *
    (n.suffix.map Suffix.factor).getD 1

end Number

/-! ### Expressions -/

/-- The priorities of the operators: `HIGHEST / * - + < > # = & | LOWEST`. -/
def Operator.priority : Operator → ℕ
  | or => 1
  | and => 2
  | eq => 3
  | ne => 4
  | gt => 5
  | lt => 6
  | add => 7
  | sub => 8
  | mul => 9
  | div => 10

inductive Expr
  | number (n : Number)
  | neg (e : Expr)
  | paren (e : Expr)
  | binary (op : Operator) (left right : Expr)

namespace Expr

def text : Expr → Bytes
  | number n => n.text
  | neg e => minus :: e.text
  | paren e => leftParen :: (e.text ++ [rightParen])
  | binary op left right => left.text ++ op.char :: right.text

/-- How tightly the parts of an expression are bound. -/
def level : Expr → ℕ
  | number _ => 12
  | neg _ => 11
  | paren _ => 12
  | binary op _ _ => op.priority

/-- The operands need no parentheses. Operators that are looked for from the right group to
the left, the other operators to the right. -/
def WellFormed : Expr → Prop
  | number _ => True
  | neg e => 11 ≤ e.level ∧ e.WellFormed
  | paren e => e.WellFormed
  | binary op left right =>
    (if op.FromRight then op.priority ≤ left.level ∧ op.priority + 1 ≤ right.level
      else op.priority + 1 ≤ left.level ∧ op.priority ≤ right.level) ∧
    left.WellFormed ∧ right.WellFormed

instance decidableWellFormed : (e : Expr) → Decidable e.WellFormed
  | number _ => isTrue trivial
  | neg e =>
    have := decidableWellFormed e
    inferInstanceAs (Decidable (_ ∧ _))
  | paren e => decidableWellFormed e
  | binary op left right =>
    have := decidableWellFormed left
    have := decidableWellFormed right
    inferInstanceAs (Decidable ((if op.FromRight then _ ∧ _ else _ ∧ _) ∧ _ ∧ _))

/-- The value of an expression, unless there is a division by zero in it. -/
def value : Expr → Option ℚ
  | number n => some n.value
  | neg e => e.value.map Neg.neg
  | paren e => e.value
  | binary op left right => left.value.bind fun v => right.value.bind (op.apply v)

end Expr

/-! ### Printed values -/

/-- The value rounded to six decimals. -/
def roundPrinted (v : ℚ) : ℚ :=
  if v < 0 then -(roundScaled v / 1000000) else roundScaled v / 1000000

/-- A whole number of millionths is not rounded. -/
theorem roundScaled_millionths (k : ℤ) :
  roundScaled (k / 1000000) = k.natAbs
  := by
  have hscaled : |(k : ℚ) / 1000000| * 1000000 = (k.natAbs : ℕ) := by
    rw [abs_div, abs_of_pos (by norm_num : (0 : ℚ) < 1000000),
      div_mul_cancel₀ _ (by norm_num), Nat.cast_natAbs, Int.cast_abs]
  have hfloor : ((k.natAbs : ℕ) : ℚ).floor.toNat = k.natAbs := by
    rw [← Int.cast_natCast, Rat.floor_intCast, Int.toNat_natCast]
  rw [roundScaled, hscaled, hfloor, sub_self, if_pos (by norm_num)]

theorem roundPrinted_millionths (k : ℤ) :
  roundPrinted (k / 1000000) = k / 1000000
  := by
  have hsign : (k : ℚ) / 1000000 < 0 ↔ k < 0 := by
    rw [div_neg_iff]
    norm_num
  rw [roundPrinted, roundScaled_millionths]
  simp only [hsign]
  split
  case isTrue hneg =>
    rw [Nat.cast_natAbs, abs_of_neg hneg, Int.cast_neg, neg_div, neg_neg]
  case isFalse hpos => rw [Nat.cast_natAbs, abs_of_nonneg (not_lt.mp hpos)]

/-- The digits of the rounded value. -/
def printedNumber (v : ℚ) : Number where
  whole := decimal (roundScaled v / 1000000)
  fraction := some (lastDigits 6 (roundScaled v))
  suffix := none
  whole_digits := isDigit_decimal _
  fraction_digits := isDigit_lastDigits 6 _
  digits_ne_nil := by
    intro h
    have hnil : lastDigits 6 (roundScaled v) = [] := (List.append_eq_nil_iff.mp h).2
    have hlength := length_lastDigits 6 (roundScaled v)
    rw [hnil] at hlength
    cases hlength

/-- The expression that is printed for a value. -/
def printed (v : ℚ) : Expr :=
  if v < 0 then .neg (.number (printedNumber v)) else .number (printedNumber v)

theorem printed_text (v : ℚ) :
  (printed v).text = printDouble v
  := by
  have hnumber : (printedNumber v).text =
      decimal (roundScaled v / 1000000) ++ dot :: lastDigits 6 (roundScaled v) :=
    List.append_nil _
  rw [printed, printDouble_rat]
  split
  · rw [Expr.text, Expr.text, hnumber]
    rfl
  · rw [Expr.text, hnumber]
    rfl

theorem digitsValue_concat (digits : Bytes) (c : UInt8) :
  digitsValue (digits ++ [c]) = 10 * digitsValue digits + (c - 0x30).toNat
  := by
  rw [digitsValue, List.foldl_append]
  rfl

theorem digit_toNat (n : ℕ) :
  ((0x30 + (n % 10).toUInt8 : UInt8) - 0x30).toNat = n % 10
  := by
  have hdigit : ∀ d < 10, ((0x30 + d.toUInt8 : UInt8) - 0x30).toNat = d := by decide
  exact hdigit _ (Nat.mod_lt n (by decide))

theorem digitsValue_decimal (n : ℕ) :
  digitsValue (decimal n) = n
  := by
  fun_induction decimal n with
  | case1 n hlt =>
    have hdigit := digit_toNat n
    rw [Nat.mod_eq_of_lt hlt] at hdigit
    rw [← List.nil_append [_], digitsValue_concat, hdigit]
    exact Nat.zero_add n
  | case2 n hge ih =>
    rw [digitsValue_concat, ih, digit_toNat]
    omega

/-- The digits behind the point go on where the digits before it end. -/
theorem digitsValue_append_lastDigits (digits : Bytes) (k n : ℕ) :
  digitsValue (digits ++ lastDigits k n) = digitsValue digits * 10 ^ k + n % 10 ^ k
  := by
  induction k generalizing n with
  | zero => simp [lastDigits, Nat.mod_one]
  | succ k ih =>
    rw [lastDigits, ← List.append_assoc, digitsValue_concat, ih, digit_toNat, pow_succ',
      Nat.mod_mul]
    ring

theorem printedNumber_value (v : ℚ) :
  (printedNumber v).value = roundScaled v / 1000000
  := by
  have hdigits : digitsValue ((printedNumber v).whole ++ (printedNumber v).fraction.getD []) =
      roundScaled v := by
    change digitsValue (decimal _ ++ lastDigits 6 _) = _
    rw [digitsValue_append_lastDigits, digitsValue_decimal]
    exact Nat.div_add_mod' _ _
  have hlength : ((printedNumber v).fraction.getD []).length = 6 := length_lastDigits 6 _
  rw [Number.value, hdigits, hlength]
  norm_num [printedNumber]

theorem printed_value (v : ℚ) :
  (printed v).value = some (roundPrinted v)
  := by
  rw [printed, roundPrinted]
  split <;> simp [Expr.value, printedNumber_value]

namespace Expr

/-! ### What the code does differently -/

/-- The value when every parenthesised value is printed. -/
def rounded : Expr → Option ℚ
  | number n => some n.value
  | neg e => e.rounded.map Neg.neg
  | paren e => e.rounded.map roundPrinted
  | binary op left right => left.rounded.bind fun v => right.rounded.bind (op.apply v)

/-- Every value in parentheses is a whole number of millionths. -/
def Exact : Expr → Prop
  | number _ => True
  | neg e => e.Exact
  | paren e => e.Exact ∧ ∀ v ∈ e.value, ∃ k : ℤ, v = k / 1000000
  | binary _ left right => left.Exact ∧ right.Exact

/-- Then printing the values in parentheses changes nothing. -/
theorem Exact.rounded_eq_value {e : Expr} (h : e.Exact) :
  e.rounded = e.value
  := by
  induction e with
  | number n => rfl
  | neg e ih => rw [rounded, value, ih h]
  | paren e ih =>
    obtain ⟨he, hvalue⟩ := h
    rw [rounded, value, ih he]
    cases hv : e.value with
    | none => rfl
    | some v =>
      obtain ⟨k, rfl⟩ := hvalue v hv
      rw [Option.map_some, roundPrinted_millionths]
  | binary op left right ihleft ihright =>
    rw [rounded, value, ihleft h.1]
    simp only [ihright h.2]

/-- The last character is a suffix. -/
def endsInSuffix : Expr → Bool
  | number n => n.suffix.isSome
  | neg e => e.endsInSuffix
  | paren _ => false
  | binary _ _ right => right.endsInSuffix

/-- Somewhere an addition or a subtraction stands right behind a suffix. -/
def signBehindSuffix : Expr → Bool
  | number _ => false
  | neg e => e.signBehindSuffix
  | paren e => e.signBehindSuffix
  | binary op left right =>
    (op = .add || op = .sub) && left.endsInSuffix || left.signBehindSuffix ||
      right.signBehindSuffix

/-! ### Rounds -/

/-- There are no parentheses. -/
def Simple : Expr → Prop
  | number _ => True
  | neg e => e.Simple
  | paren _ => False
  | binary _ left right => left.Simple ∧ right.Simple

/-- The number of pairs of parentheses. -/
def parens : Expr → ℕ
  | number _ => 0
  | neg e => e.parens
  | paren e => e.parens + 1
  | binary _ left right => left.parens + right.parens

end Expr

/-- An expression of which one operand is left out. -/
inductive Frame
  | neg
  | paren
  | left (op : Operator) (right : Expr)
  | right (left : Expr) (op : Operator)

def Frame.plug : Frame → Expr → Expr
  | neg, e => .neg e
  | paren, e => .paren e
  | left op e', e => .binary op e e'
  | right e' op, e => .binary op e' e

/-- The frames around a hole, the innermost first. -/
abbrev Context := List Frame

namespace Context

def plug (c : Context) (e : Expr) : Expr := c.foldl (fun e frame => frame.plug e) e

end Context

namespace Expr

/-- The first pair of parentheses without parentheses inside: what stands around it and what
stands inside. -/
def innermost : Expr → Option (Context × Expr)
  | number _ => none
  | neg e => e.innermost.map fun (c, inner) => (c ++ [.neg], inner)
  | paren e =>
    match e.innermost with
    | none => some ([], e)
    | some (c, inner) => some (c ++ [.paren], inner)
  | binary op left right =>
    match left.innermost with
    | some (c, inner) => some (c ++ [.left op right], inner)
    | none => right.innermost.map fun (c, inner) => (c ++ [.right left op], inner)

/-- The expression after one round. -/
def next (e : Expr) : Option Expr :=
  e.innermost.bind fun (c, inner) =>
    if inner.signBehindSuffix then none else inner.value.map fun v => c.plug (printed v)

/-- The text fits into the buffer of `evaluate`, and what is evaluated next does not grow out
of its buffer. -/
def Stored (e : Expr) : Prop :=
  e.text.length < maxStringLen ∧
    (compressSigns (maxStringLen - 1)
      (match e.innermost with
        | some (_, inner) => inner.text
        | none => e.text)).isSome = true

instance (e : Expr) : Decidable e.Stored := inferInstanceAs (Decidable (_ ∧ _))

/-- The text is stored completely at the start and after each of the first rounds. -/
def StoredFor : ℕ → Expr → Prop
  | 0, e => e.Stored
  | rounds + 1, e => e.Stored ∧ ∀ e' ∈ e.next, StoredFor rounds e'

instance decidableStoredFor : (rounds : ℕ) → (e : Expr) → Decidable (e.StoredFor rounds)
  | 0, e => inferInstanceAs (Decidable e.Stored)
  | rounds + 1, e =>
    have := decidableStoredFor rounds
    inferInstanceAs (Decidable (e.Stored ∧ ∀ e' ∈ e.next, StoredFor rounds e'))

/-- The text never grows out of the buffers of `evaluate`. -/
def Fits (e : Expr) : Prop := e.StoredFor e.parens

instance (e : Expr) : Decidable e.Fits := decidableStoredFor e.parens e

end Expr

end Expression
