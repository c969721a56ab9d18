import Mathlib.Algebra.Order.Field.Rat
import Mathlib.Data.List.DropRight
import Mathlib.Data.Rat.Floor
import Zabbix.Library.CDouble

/-!
# The expression evaluator

`evaluate` and `evaluate_simple`, with `compress_signs`, `is_double_suffix` and `str2double`
that they call.  A text is rewritten in the buffer it stands in; here every function returns
the new text.  The numbers are those of any type with the operations of `double`.  With the
rational numbers the values are exact.

The second loop of `compress_signs` makes the text longer.  It is given the number `room` of
bytes that fit into the buffer before the zero byte, and has no result when it writes behind
the end of the buffer.
-/

open Ascii CDouble

namespace Expression

variable {D : Type*} [CDouble D]

/-- `MAX_STRING_LEN`. -/
def maxStringLen : ℕ := 2048

/-- `TRIGGER_EPSILON`. -/
def triggerEpsilon : ℚ := 1 / 1000000

/-- `cmp_double`. -/
def cmpDouble (a b : D) : Bool := lt (fabs (sub a b)) (literal triggerEpsilon)

/-- The prefix of a negative number. -/
abbrev negative : UInt8 := 0x4e

/-! ### Texts -/

/-- `zbx_rtrim`. -/
def zbxRtrim (text : Bytes) : Bytes := text.rdropWhile (· = space)

/-- `zbx_ltrim`. -/
def zbxLtrim (text : Bytes) : Bytes := text.dropWhile (· = space)

/-- `zbx_lrtrim` of spaces. -/
def zbxLrtrim (text : Bytes) : Bytes := zbxLtrim (zbxRtrim text)

/-- `zbx_remove_spaces`. -/
def zbxRemoveSpaces (text : Bytes) : Bytes := text.filter (· ≠ space)

/-- `strscpy` into a buffer of `MAX_STRING_LEN` bytes. -/
def strscpy (text : Bytes) : Bytes := text.take (maxStringLen - 1)

/-- `strchr`: the text before the first `c` and the text behind it. -/
def strchr (c : UInt8) : Bytes → Option (Bytes × Bytes)
  | [] => none
  | cur :: rest =>
    if cur = c then some ([], rest)
    else (strchr c rest).map fun (left, right) => (cur :: left, right)

/-- `strrchr`: the text before the last `c` and the text behind it. -/
def strrchr (c : UInt8) (text : Bytes) : Option (Bytes × Bytes) :=
  (strchr c text.reverse).map fun (right, left) => (left.reverse, right.reverse)

/-! ### Signs -/

/-- The sign that stands for two signs in a row. -/
def mergeSigns (cur next : UInt8) : Option UInt8 :=
  if cur = minus ∧ next = minus ∨ cur = plus ∧ next = plus then some plus
  else if cur = minus ∧ next = plus ∨ cur = plus ∧ next = minus then some minus
  else none

/-- The body of the first loop of `compress_signs`, with the flag `loop`. A merged sign is
not looked at again. -/
def mergePass : Bytes → Bytes × Bool
  | cur :: next :: rest =>
    match mergeSigns cur next with
    | some sign => (sign :: (mergePass rest).1, true)
    | none => (cur :: (mergePass (next :: rest)).1, (mergePass (next :: rest)).2)
  | text => (text, false)

theorem length_mergePass (text : Bytes) :
  (mergePass text).1.length ≤ text.length ∧
    ((mergePass text).2 = true → (mergePass text).1.length < text.length)
  := by
  fun_induction mergePass text with
  | case1 cur next rest sign hmerge ih =>
    simp only [List.length_cons]
    omega
  | case2 cur next rest hmerge ih =>
    simp only [List.length_cons] at ih ⊢
    exact ⟨by omega, fun h => by have := ih.2 h; omega⟩
  | case3 text => simp

/-- The first loop of `compress_signs`. -/
def mergeLoop (text : Bytes) : Bytes :=
  if _ : (mergePass text).2 = true then mergeLoop (mergePass text).1 else (mergePass text).1
termination_by text.length
decreasing_by exact (length_mergePass text).2 ‹_›

/-- A sign behind this byte is an operator. -/
def endsOperand : Option UInt8 → Bool
  | none => false
  | some prev => isDigit prev || prev = dot

/-- The second loop of `compress_signs`: `done` is the text before the pointer, its last byte
first. -/
def markSigns (room : ℕ) (done : Bytes) : Bytes → Option Bytes
  | [] => some done.reverse
  | cur :: rest =>
    if cur = plus then
      if endsOperand done.head? then markSigns room (cur :: done) rest
      else
        -- the next byte moves to the place of the deleted sign and is passed over
        match rest with
        | [] => some done.reverse
        | next :: rest => markSigns room (next :: done) rest
    else if cur = minus then
      if endsOperand done.head? then
        if done.length + rest.length + 2 ≤ room then
          markSigns room (negative :: plus :: done) rest
        else none
      else markSigns room (negative :: done) rest
    else markSigns room (cur :: done) rest

/-- `compress_signs`. -/
def compressSigns (room : ℕ) (text : Bytes) : Option Bytes :=
  markSigns room [] (mergeLoop text)

/-! ### Numbers -/

/-- The suffixes of `is_double_suffix`. -/
def suffixes : Bytes := bytes ['K', 'M', 'G', 'T', 's', 'm', 'h', 'd', 'w']

def isDoubleSuffixLoop (first point : Bool) : Bytes → Bool
  | [] => true
  | c :: rest =>
    if c = minus ∧ first then isDoubleSuffixLoop false point rest
    else if isDigit c then isDoubleSuffixLoop false point rest
    else if c = dot ∧ ¬ point then isDoubleSuffixLoop false true rest
    else if c ∈ suffixes ∧ rest = [] then isDoubleSuffixLoop false point rest
    else false

/-- `is_double_suffix`. -/
def isDoubleSuffix (text : Bytes) : Bool := isDoubleSuffixLoop true false text

/-- The number that digits stand for. -/
def digitsValue (digits : Bytes) : ℕ := digits.foldl (fun n c => 10 * n + (c - 0x30).toNat) 0

/-- `atof` of a text that starts with digits and a decimal point. -/
def atofUnsigned (text : Bytes) : ℚ :=
  let whole := text.takeWhile isDigit
  let fraction := match text.dropWhile isDigit with
    | c :: rest => if c = dot then rest.takeWhile isDigit else []
    | [] => []
  digitsValue (whole ++ fraction) / 10 ^ fraction.length

/-- `atof` of a text that `is_double_suffix` accepts: there is no exponent in it. -/
def atof : Bytes → ℚ
  | [] => 0
  | c :: rest => if c = minus then -atofUnsigned rest else atofUnsigned (c :: rest)

/-- The factor of the last character in `str2double`. -/
def suffixFactor (c : UInt8) : ℚ :=
  if c = 'K'.toUInt8 then 1024
  else if c = 'M'.toUInt8 then 1048576
  else if c = 'G'.toUInt8 then 1073741824
  else if c = 'T'.toUInt8 then 1099511627776
  else if c = 's'.toUInt8 then 1
  else if c = 'm'.toUInt8 then 60
  else if c = 'h'.toUInt8 then 3600
  else if c = 'd'.toUInt8 then 86400
  else if c = 'w'.toUInt8 then 604800
  else 1

/-- `str2double`. -/
def str2double (text : Bytes) : D :=
  mul (CDouble.atof text) (literal ((text.getLast?.map suffixFactor).getD 1))

/-- `evaluate_simple` reads the text as a number. -/
def isNumber : Bytes → Bool
  | [] => true
  | c :: rest => if c = negative then isDoubleSuffix rest else isDoubleSuffix (c :: rest)

/-- What `evaluate_simple` reads as a number. -/
def readNumber : Bytes → Option D
  | [] => some (str2double [])
  | c :: rest =>
    if c = negative then if isDoubleSuffix rest then some (neg (str2double rest)) else none
    else if isDoubleSuffix (c :: rest) then some (str2double (c :: rest)) else none

/-- `zbx_snprintf` of `ZBX_FS_DBL`. -/
def printDouble (value : D) : Bytes := CDouble.print value

/-- A number in millionths, ties to the even digit. -/
def roundScaled (value : ℚ) : ℕ :=
  let scaled := |value| * 1000000
  let below := scaled.floor.toNat
  if scaled - below < 1 / 2 then below
  else if 1 / 2 < scaled - below then below + 1
  else if below % 2 = 0 then below
  else below + 1

/-- Numbers that are not rounded before they are printed. -/
instance : CDouble ℚ where
  literal value := value
  atof := atof
  neg value := -value
  add a b := a + b
  sub a b := a - b
  mul a b := a * b
  div a b := a / b
  fabs value := |value|
  lt a b := a < b
  le a b := a ≤ b
  signbit value := value < 0
  isNan _ := false
  millionths value := some (roundScaled value)

theorem str2double_rat (text : Bytes) :
  str2double text = atof text * (text.getLast?.map suffixFactor).getD 1
  := rfl

theorem neg_rat (value : ℚ) :
  CDouble.neg value = -value
  := rfl

theorem printDouble_rat (value : ℚ) :
  printDouble value = (if value < 0 then [minus] else []) ++
    (decimal (roundScaled value / 1000000) ++ dot :: lastDigits 6 (roundScaled value))
  := by
  have hsign : CDouble.signbit value = decide (value < 0) := rfl
  rw [printDouble, CDouble.print, hsign]
  simp only [decide_eq_true_eq]
  rfl

/-! ### Operators -/

inductive Operator
  | or | and | eq | ne | gt | lt | add | sub | mul | div
deriving DecidableEq

namespace Operator

def char : Operator → UInt8
  | or => '|'.toUInt8
  | and => '&'.toUInt8
  | eq => '='.toUInt8
  | ne => '#'.toUInt8
  | gt => '>'.toUInt8
  | lt => '<'.toUInt8
  | add => plus
  | sub => minus
  | mul => '*'.toUInt8
  | div => slash

/-- The operators in the order `evaluate_simple` looks for them. -/
def all : List Operator := [or, and, eq, ne, gt, lt, add, sub, mul, div]

/-- The operators that are looked for with `strrchr`. -/
def FromRight (op : Operator) : Prop := op = sub ∨ op = div

instance (op : Operator) : Decidable op.FromRight :=
  inferInstanceAs (Decidable (op = sub ∨ op = div))

def find (op : Operator) (text : Bytes) : Option (Bytes × Bytes) :=
  if op.FromRight then strrchr op.char text else strchr op.char text

/-- The result of an operator, if it does not divide by zero. -/
def apply (op : Operator) (value1 value2 : D) : Option D :=
  match op with
  | or => some (literal
      (if ¬ cmpDouble value1 (literal 0) ∨ ¬ cmpDouble value2 (literal 0) then 1 else 0))
  | and => some (literal
      (if ¬ cmpDouble value1 (literal 0) ∧ ¬ cmpDouble value2 (literal 0) then 1 else 0))
  | eq => some (literal (if cmpDouble value1 value2 then 1 else 0))
  | ne => some (literal (if ¬ cmpDouble value1 value2 then 1 else 0))
  | gt => some (literal
      (if le (CDouble.add value2 (literal triggerEpsilon)) value1 then 1 else 0))
  | lt => some (literal
      (if le value1 (CDouble.sub value2 (literal triggerEpsilon)) then 1 else 0))
  | add => some (CDouble.add value1 value2)
  | sub => some (CDouble.sub value1 value2)
  | mul => some (CDouble.mul value1 value2)
  | div => if cmpDouble value2 (literal 0) then none else some (CDouble.div value1 value2)

theorem apply_add_rat (a b : ℚ) :
  add.apply a b = some (a + b)
  := rfl

theorem apply_sub_rat (a b : ℚ) :
  sub.apply a b = some (a - b)
  := rfl

theorem apply_mul_rat (a b : ℚ) :
  mul.apply a b = some (a * b)
  := rfl

theorem apply_div_rat (a b : ℚ) :
  div.apply a b = if cmpDouble b 0 then none else some (a / b)
  := rfl

end Operator

/-- The operator at which an expression is taken apart, with what stands before and behind
it. -/
def findOperator (text : Bytes) : Option (Operator × Bytes × Bytes) :=
  Operator.all.findSome? fun op => (op.find text).map fun parts => (op, parts)

/-! ### Evaluation -/

theorem strchr_eq {c : UInt8} {text left right : Bytes} (h : strchr c text = some (left, right)) :
  text = left ++ c :: right
  := by
  induction text generalizing left with
  | nil => cases h
  | cons cur rest ih =>
    rw [strchr] at h
    split at h
    case isTrue hcur =>
      cases h
      rw [hcur]
      rfl
    case isFalse =>
      obtain ⟨⟨left', right'⟩, hrest, heq⟩ := Option.map_eq_some_iff.mp h
      cases heq
      rw [ih hrest]
      rfl

theorem strrchr_eq {c : UInt8} {text left right : Bytes}
    (h : strrchr c text = some (left, right)) :
  text = left ++ c :: right
  := by
  obtain ⟨⟨right', left'⟩, hreverse, heq⟩ := Option.map_eq_some_iff.mp h
  cases heq
  rw [← List.reverse_inj, strchr_eq hreverse]
  simp

theorem find_eq {op : Operator} {text left right : Bytes}
    (h : op.find text = some (left, right)) :
  text = left ++ op.char :: right
  := by
  rw [Operator.find] at h
  split at h
  · exact strrchr_eq h
  · exact strchr_eq h

theorem findOperator_eq {op : Operator} {text left right : Bytes}
    (h : findOperator text = some (op, left, right)) :
  text = left ++ op.char :: right
  := by
  obtain ⟨op', -, hfind⟩ := List.exists_of_findSome?_eq_some h
  obtain ⟨⟨left', right'⟩, hparts, heq⟩ := Option.map_eq_some_iff.mp hfind
  cases heq
  exact find_eq hparts

/-- The length that a text can have when its signs are compressed. -/
def weight (text : Bytes) : ℕ := text.length + text.count minus

theorem weight_append (text text' : Bytes) :
  weight (text ++ text') = weight text + weight text'
  := by
  simp only [weight, List.length_append, List.count_append]
  omega

theorem weight_sublist {text text' : Bytes} (h : text.Sublist text') :
  weight text ≤ weight text'
  := Nat.add_le_add h.length_le (h.count_le minus)

theorem weight_zbxLrtrim (text : Bytes) :
  weight (zbxLrtrim text) ≤ weight text
  := by
  apply weight_sublist
  exact (List.dropWhile_sublist _).trans (List.rdropWhile_prefix _ _).sublist

theorem weight_cons (c : UInt8) (text : Bytes) :
  weight (c :: text) = (if c = minus then 2 else 1) + weight text
  := by
  rw [weight, weight, List.length_cons, List.count_cons]
  simp only [beq_iff_eq]
  split <;> omega

theorem weight_mergePass (text : Bytes) :
  weight (mergePass text).1 ≤ weight text
  := by
  fun_induction mergePass text with
  | case1 cur next rest sign hmerge ih =>
    have hle : ∀ c : UInt8, (if c = minus then 2 else 1) ≤ 2 := fun c => by split <;> omega
    have hge : ∀ c : UInt8, 1 ≤ if c = minus then 2 else 1 := fun c => by split <;> omega
    have := hle sign
    have := hge cur
    have := hge next
    simp only [weight_cons] at ih ⊢
    omega
  | case2 cur next rest hmerge ih =>
    rw [weight_cons, weight_cons cur]
    exact Nat.add_le_add_left ih _
  | case3 text => exact le_rfl

theorem weight_mergeLoop (text : Bytes) :
  weight (mergeLoop text) ≤ weight text
  := by
  fun_induction mergeLoop text with
  | case1 text h ih => exact ih.trans (weight_mergePass text)
  | case2 text h => exact weight_mergePass text

theorem weight_reverse (text : Bytes) :
  weight text.reverse = weight text
  := by
  rw [weight, weight, List.length_reverse, List.count_reverse]

theorem weight_markSigns {room : ℕ} {done text out : Bytes}
    (h : markSigns room done text = some out) :
  weight out ≤ weight done + weight text
  := by
  have hplus : plus ≠ minus := by decide
  have hnegative : negative ≠ minus := by decide
  fun_induction markSigns room done text with
  | case1 done =>
    cases h
    exact (weight_reverse done).le.trans (Nat.le_add_right _ _)
  | case2 done rest hend ih =>
    have hout := ih h
    simp only [weight_cons, if_neg hplus] at hout ⊢
    omega
  | case3 done hend =>
    cases h
    exact (weight_reverse done).le.trans (Nat.le_add_right _ _)
  | case4 done hend next rest ih =>
    have hout := ih h
    simp only [weight_cons] at hout ⊢
    omega
  | case5 done rest hend hroom _ ih =>
    have hout := ih h
    simp only [weight_cons, if_neg hplus, if_neg hnegative, if_true] at hout ⊢
    omega
  | case6 => cases h
  | case7 done rest hend _ ih =>
    have hout := ih h
    simp only [weight_cons, if_neg hnegative, if_true] at hout ⊢
    omega
  | case8 done cur rest hplus hminus ih =>
    have hout := ih h
    simp only [weight_cons] at hout ⊢
    omega

theorem weight_compressSigns {room : ℕ} {text out : Bytes}
    (h : compressSigns room text = some out) :
  weight out ≤ weight text
  := by
  have hmark : weight out ≤ 0 + weight (mergeLoop text) := weight_markSigns h
  rw [Nat.zero_add] at hmark
  exact hmark.trans (weight_mergeLoop text)

/-- Both operands are smaller than the text they stand in. -/
theorem weight_operands {room : ℕ} {text expression left right : Bytes} {op : Operator}
    (hcompress : compressSigns room (zbxLrtrim text) = some expression)
    (hfind : findOperator expression = some (op, left, right)) :
  weight left < weight text ∧ weight right < weight text
  := by
  have hle := (weight_compressSigns hcompress).trans (weight_zbxLrtrim text)
  rw [findOperator_eq hfind, weight_append, weight_cons] at hle
  have hpos : 1 ≤ if op.char = minus then 2 else 1 := by split <;> omega
  omega

/-- Why an expression has no value, with the text that stands in the error. -/
inductive Failure
  | format (expression : Bytes)
  | division (expression : Bytes)
  | bracket (expression : Bytes)
  | overflow

/-- The text around an operator when its operands have been rewritten in their places: a left
operand that got shorter ends before the operator. -/
def rejoin (op : Operator) (left left' right' : Bytes) : Bytes :=
  if left'.length < left.length then left' else left' ++ op.char :: right'

/-- The text that `evaluate_simple` leaves in the place of a text. -/
def rewritten (room : ℕ) (text : Bytes) : Bytes :=
  match _ : compressSigns room (zbxLrtrim text) with
  | none => text
  | some expression =>
    if isNumber expression then expression
    else
      match _ : findOperator expression with
      | none => expression
      | some (op, left, right) =>
        rejoin op left (rewritten left.length left) (rewritten (room - left.length - 1) right)
termination_by weight text
decreasing_by
  · rename_i hcompress _ hfind
    exact (weight_operands hcompress hfind).1
  · rename_i hcompress _ hfind
    exact (weight_operands hcompress hfind).2

/-- `evaluate_simple` of a text in a buffer with `room` bytes before its zero byte. While the
operands are evaluated the operator is a zero byte; what stands before it and behind it is
all the room they have. -/
def evaluateSimple (room : ℕ) (text : Bytes) : Except Failure D :=
  match _ : compressSigns room (zbxLrtrim text) with
  | none => .error .overflow
  | some expression =>
    match readNumber expression with
    | some value => .ok value
    | none =>
      match _ : findOperator expression with
      | none => .error (.format expression)
      | some (op, left, right) =>
        match evaluateSimple left.length left with
        | .error failure => .error failure
        | .ok value1 =>
          match evaluateSimple (room - left.length - 1) right with
          | .error failure => .error failure
          | .ok value2 =>
            match op.apply value1 value2 with
            | none => .error (.division
              (rejoin op left (rewritten left.length left)
                (rewritten (room - left.length - 1) right)))
            | some value => .ok value
termination_by weight text
decreasing_by
  · rename_i hcompress hfind
    exact (weight_operands hcompress hfind).1
  · rename_i hcompress hfind
    exact (weight_operands hcompress hfind).2

/-- The printed value has no parentheses. -/
theorem count_printDouble (value : D) :
  (printDouble value).count rightParen = 0
  := List.count_eq_zero_of_not_mem (not_mem_print value (by decide))

/-- The loop of `evaluate`, which replaces the first pair of parentheses without parentheses
inside by the printed value of what stands inside. -/
def evaluateLoop (tmp : Bytes) : Except Failure D :=
  match _ : strchr rightParen tmp with
  | none => evaluateSimple (maxStringLen - 1) tmp
  | some (front, after) =>
    match _ : strrchr leftParen front with
    | none => .error (.bracket tmp)
    | some (before, simple) =>
      match (evaluateSimple (maxStringLen - 1) simple : Except Failure D) with
      | .error failure => .error failure
      | .ok value =>
        evaluateLoop (strscpy (zbxRemoveSpaces
          (before ++ (strscpy (printDouble value) ++ after))))
termination_by tmp.count rightParen
decreasing_by
  rename_i hright hleft
  have hres : ∀ text : Bytes, (strscpy (zbxRemoveSpaces text)).count rightParen ≤
      text.count rightParen := fun text =>
    ((List.take_sublist _ _).trans List.filter_sublist).count_le _
  have hprinted : (strscpy (printDouble value)).count rightParen = 0 := by
    apply Nat.eq_zero_of_le_zero
    rw [← count_printDouble value]
    exact (List.take_sublist _ _).count_le _
  apply (hres _).trans_lt
  rw [strchr_eq hright, strrchr_eq hleft]
  simp only [List.count_append, List.count_cons, hprinted, beq_self_eq_true, if_true]
  omega

/-- `evaluate`. -/
def evaluate (expression : Bytes) : Except Failure D := evaluateLoop (strscpy expression)

end Expression
