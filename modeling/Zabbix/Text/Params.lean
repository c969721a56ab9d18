import Mathlib.Data.Int.Notation
import Zabbix.Text.ItemKey

/-!
# Parameter lists

`num_param` counts the parameters of a list, `get_param` copies one of them to a buffer,
`get_param_len` gives its length and `get_param_dyn` allocates the buffer. All of them read the
list with the same states, and the nesting level of arrays in `array`. Lists are short enough
for the counters of type `int`.
-/

open Ascii

namespace Params

open ItemKey (ParamState skipSpaces length_skipSpaces_le)

/-- What a character does to the variables of a loop: the next state and level, whether another
parameter begins, the character that belongs to the parameter, if any, and the text to go on
with. -/
structure Round where
  state : ParamState
  array : ℕ
  separator : Bool
  kept : Option UInt8
  rest : Bytes
deriving DecidableEq

/-- Behind a quote or a bracket that closes there are spaces, and then a comma, the end of the
list or, in an array, a bracket. -/
def closed (array : ℕ) (kept : Option UInt8) (rest : Bytes) : Option Round :=
  let next := skipSpaces rest
  if next.head? ≠ some comma ∧ next ≠ [] ∧ ¬ (array ≠ 0 ∧ next.head? = some rightBracket) then
    none
  else some ⟨.init, array, false, kept, next⟩

/-- A character of an array or of a parameter. The outer quotes and brackets are left out. -/
def inArray (array : ℕ) (c : UInt8) : Option UInt8 := if array = 0 then none else some c

/-- The body of the loops, with `*p` and the text behind it. It gives `none` for incorrect
syntax. The functions differ in the levels at which a backslash escapes a quote. -/
def round (escapes : ℕ → Bool) (state : ParamState) (array : ℕ) (c : UInt8) (rest : Bytes) :
    Option Round :=
  match state with
  | .init =>
    if c = comma then some ⟨.init, array, array = 0, inArray array c, rest⟩
    else if c = quote then some ⟨.quoted, array, false, inArray array c, rest⟩
    else if c = leftBracket then some ⟨.init, array + 1, false, inArray array c, rest⟩
    else if c = rightBracket ∧ array ≠ 0 then
      closed (array - 1) (inArray (array - 1) c) rest
    else if c ≠ space then some ⟨.unquoted, array, false, some c, rest⟩
    else some ⟨.init, array, false, none, rest⟩
  | .quoted =>
    if c = quote then closed array (inArray array c) rest
    else if c = backslash ∧ rest.head? = some quote ∧ escapes array then
      some ⟨.quoted, array, false, some quote, rest.tail⟩
    else some ⟨.quoted, array, false, some c, rest⟩
  | .unquoted =>
    -- the state changes and the character is looked at again
    if c = comma ∨ c = rightBracket ∧ array ≠ 0 then some ⟨.init, array, false, none, c :: rest⟩
    else some ⟨.unquoted, array, false, some c, rest⟩

/-- What gets smaller in every round. -/
def measure (state : ParamState) (text : Bytes) : ℕ :=
  2 * text.length + if state = .unquoted then 1 else 0

theorem closed_measure {array : ℕ} {kept : Option UInt8} {rest : Bytes} {r : Round}
    (h : closed array kept rest = some r) :
  measure r.state r.rest ≤ 2 * rest.length
  := by
  have hskip := length_skipSpaces_le rest
  simp only [closed] at h
  split_ifs at h
  rw [← Option.some.inj h]
  simp only [measure, reduceCtorEq, if_false]
  omega

theorem round_measure {escapes : ℕ → Bool} {state : ParamState} {array : ℕ} {c : UInt8}
    {rest : Bytes} {r : Round} (h : round escapes state array c rest = some r) :
  measure r.state r.rest < measure state (c :: rest)
  := by
  have hrest : measure state (c :: rest)
      = 2 * rest.length + 2 + if state = .unquoted then 1 else 0 := rfl
  rw [hrest]
  cases state with
  | init =>
    simp only [round] at h
    split_ifs at h
    · rw [← Option.some.inj h]
      simp [measure]
    · rw [← Option.some.inj h]
      simp [measure]
    · rw [← Option.some.inj h]
      simp [measure]
    · exact Nat.lt_of_le_of_lt (closed_measure h) (by omega)
    · rw [← Option.some.inj h]
      simp [measure]
    · rw [← Option.some.inj h]
      simp [measure]
  | quoted =>
    simp only [round] at h
    split_ifs at h
    · exact Nat.lt_of_le_of_lt (closed_measure h) (by omega)
    · rw [← Option.some.inj h]
      simp [measure]
      omega
    · rw [← Option.some.inj h]
      simp [measure]
  | unquoted =>
    simp only [round] at h
    split_ifs at h
    · rw [← Option.some.inj h]
      simp [measure]
      omega
    · rw [← Option.some.inj h]
      simp [measure]

/-! ### `num_param` -/

/-- The loop of `num_param` and what follows it. A quoted parameter and an array have to end. -/
def numLoop (state : ParamState) (array ret : ℕ) : Bytes → ℕ
  | [] => if state = .quoted ∨ array ≠ 0 then 0 else ret
  | c :: p =>
    match h : round (fun _ => true) state array c p with
    | none => 0
    | some r => numLoop r.state r.array (if r.separator then ret + 1 else ret) r.rest
  termination_by p => measure state p
  decreasing_by exact round_measure h

/-- `num_param`, with `none` for `NULL`. -/
def numParam : Option Bytes → ℕ
  | none => 0
  | some p => numLoop .init 0 1 p

/-! ### `get_param` -/

section

variable {σ : Type}

/-- The loop of `get_param` and `get_param_len` and what follows it. A character of the
parameter is added to what is kept of it, which can fail. The result is `none` where the
functions return 1. -/
def paramLoop (add : σ → UInt8 → Option σ) (num : ℤ) (state : ParamState) (array idx : ℕ)
    (out : σ) (p : Bytes) : Option σ :=
  if p = [] ∨ num < idx then
    if state = .quoted then none
    else if array ≠ 0 then none
    else if num ≤ idx then some out
    else none
  else
    match p with
    | [] => none
    | c :: p =>
      match h : round (fun array => array = 0) state array c p with
      | none => none
      | some r =>
        (if idx = num then r.kept.elim (some out) (add out) else some out).bind fun out =>
          paramLoop add num r.state r.array (if r.separator then idx + 1 else idx) out r.rest
  termination_by measure state p
  decreasing_by exact round_measure h

end

/-- `get_param`: the text in the buffer of `maxLen` bytes, when it returns 0. -/
def getParam (p : Bytes) (num : ℤ) (maxLen : ℕ) : Option Bytes :=
  if maxLen = 0 then none
  else
    paramLoop (fun buf c => if buf.length = maxLen - 1 then none else some (buf ++ [c])) num
      .init 0 1 [] p

/-- `get_param_len`: the length, when it returns 0. -/
def getParamLen (p : Bytes) (num : ℤ) : Option ℕ :=
  paramLoop (fun sz _ => some (sz + 1)) num .init 0 1 0 p

/-- `get_param_dyn` -/
def getParamDyn (p : Bytes) (num : ℤ) : Option Bytes :=
  match getParamLen p num with
  | none => none
  | some sz => getParam p num (sz + 1)

end Params
