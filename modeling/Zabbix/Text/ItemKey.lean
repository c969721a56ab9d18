import Zabbix.Library.Ascii

/-!
# The two parsers of item keys

`parse_key` reads a key with its parameters from the front of a text, with a state for
quoted and unquoted parameters and the nesting level of arrays. `replace_key_params_dyn`
passes the key name and every parameter to a callback and writes what it returns back
into the text, with a state machine and a level counter of its own.
-/

open Ascii

namespace ItemKey

/-- `is_key_char`. -/
def isKeyChar (c : UInt8) : Bool := isAlnum c || c = dot || c = underscore || c = minus

/-- The text behind the spaces at its front. -/
def skipSpaces (text : Bytes) : Bytes := text.dropWhile (· = space)

theorem length_skipSpaces_le (text : Bytes) :
  (skipSpaces text).length ≤ text.length
  := (List.dropWhile_sublist _).length_le

/-! ### `parse_key` -/

/-- The return value and where `exp` is left: behind the key, or at the character that
is wrong. -/
inductive ParseResult where
  | succeed (exp : Bytes)
  | fail (exp : Bytes)
deriving DecidableEq

/-- The states of the loop: before or after a parameter, inside a quoted parameter,
inside an unquoted one. -/
inductive ParamState where
  | init
  | quoted
  | unquoted
deriving DecidableEq

/-- The loop over the parameters at nesting level `array`. -/
def parseParams : ParamState → ℕ → Bytes → ParseResult
  | _, _, [] => .fail []
  | .init, array, c :: rest =>
    if c = comma then parseParams .init array rest
    else if c = rightBracket ∧ rest.head? = some leftBracket ∧ array = 0 then
      parseParams .init array rest.tail
    else if c = quote then parseParams .quoted array rest
    else if c = leftBracket then parseParams .init (array + 1) rest
    else if c = rightBracket ∧ array ≠ 0 then
      let array := array - 1
      let next := skipSpaces rest
      if array = 0 ∧ next.head? = some rightBracket then .succeed next.tail
      else if next.head? ≠ some comma ∧ ¬ (array ≠ 0 ∧ next.head? = some rightBracket) then
        .fail next
      else parseParams .init array next
    else if c = rightBracket then .succeed rest
    else if c ≠ space then parseParams .unquoted array rest
    else parseParams .init array rest
  | .quoted, array, c :: rest =>
    if c = quote then
      let next := skipSpaces rest
      if array = 0 ∧ next.head? = some rightBracket ∧ next.tail.head? = some leftBracket then
        parseParams .init array next
      else if array = 0 ∧ next.head? = some rightBracket then .succeed next.tail
      else if next.head? ≠ some comma ∧ ¬ (array ≠ 0 ∧ next.head? = some rightBracket) then
        .fail next
      else parseParams .init array next
    else if c = backslash ∧ rest.head? = some quote then parseParams .quoted array rest.tail
    else parseParams .quoted array rest
  | .unquoted, array, c :: rest =>
    -- the state changes and the character is looked at again
    if array = 0 ∧ c = rightBracket ∧ rest.head? = some leftBracket then
      parseParams .init array (c :: rest)
    else if c = comma ∨ c = rightBracket ∧ array ≠ 0 then parseParams .init array (c :: rest)
    else if c = rightBracket then .succeed rest
    else parseParams .unquoted array rest
termination_by state _ text => 2 * text.length + (if state = .unquoted then 1 else 0)
decreasing_by
  all_goals
    have hskip := length_skipSpaces_le rest
    simp only [List.length_cons, List.length_tail, if_true, if_false]
    omega

/-- `parse_key`. With an opening parenthesis behind the name, the key ends before the
last dot of the name. -/
def parseKey (exp : Bytes) : ParseResult :=
  let name := exp.takeWhile isKeyChar
  match exp.dropWhile isKeyChar with
  | [] => .succeed []
  | c :: rest =>
    if c = leftParen then
      let function := name.reverse.takeWhile (· ≠ dot)
      if name.length ≤ function.length + 1 then .fail (c :: rest)
      else .succeed (exp.drop (name.length - function.length - 1))
    else if c = leftBracket then parseParams .init 0 rest
    else .fail (c :: rest)

/-! ### `replace_key_params_dyn` -/

/-- `ZBX_KEY_TYPE_ITEM` and `ZBX_KEY_TYPE_OID`. -/
inductive KeyType where
  | item
  | oid
deriving DecidableEq

/-- A callback: from the parameter, the key type, the level, the number of the parameter
and whether it is quoted, the text to write in its place, if any. -/
abbrev Callback := Bytes → KeyType → ℕ → ℕ → Bool → Option Bytes

/-- `zbx_parser_state_t`. -/
inductive ParserState where
  | new
  | ended
  | unquoted
  | quoted
deriving DecidableEq

/-- The variables of the loop. `before` is the text before the position `i`, and `l` the
position where the parameter starts. -/
structure Parser where
  before : Bytes
  l : ℕ
  level : ℕ
  num : ℕ
  state : ParserState

namespace Parser

/-- `replace_key_param` on the text from `l` to the position. -/
def replaceKeyParam (cb : Callback) (keyType : KeyType) (p : Parser) (l : ℕ)
    (quoted : Bool) : Parser :=
  match cb (p.before.drop l) keyType p.level p.num quoted with
  | some value => { p with before := p.before.take l ++ value }
  | none => p

/-- Goes past a character. -/
def pass (p : Parser) (c : UInt8) : Parser := { p with before := p.before ++ [c] }

/-- The number of the next parameter, which is counted at the first level only. -/
def nextNum (p : Parser) : ℕ := if p.level = 1 then p.num + 1 else p.num

/-- `ZBX_STATE_END`. -/
def stepEnded (p : Parser) (c : UInt8) : Option Parser :=
  if c = space then some (p.pass c)
  else if c = comma then some ({ p with state := .new, num := p.nextNum }.pass c)
  else if c = rightBracket then some ({ p with level := p.level - 1 }.pass c)
  else none

/-- `ZBX_STATE_NEW`. -/
def stepNew (cb : Callback) (keyType : KeyType) (p : Parser) (c : UInt8) : Option Parser :=
  if c = space then some (p.pass c)
  else if c = comma then
    let p := p.replaceKeyParam cb keyType p.before.length false
    some ({ p with num := p.nextNum }.pass c)
  else if c = leftBracket then
    let p := { p with level := p.level + 1 }
    some ({ p with num := p.nextNum }.pass c)
  else if c = rightBracket then
    let p := p.replaceKeyParam cb keyType p.before.length false
    some ({ p with level := p.level - 1, state := .ended }.pass c)
  else if c = quote then
    some ({ p with state := .quoted, l := p.before.length }.pass c)
  else some ({ p with state := .unquoted, l := p.before.length }.pass c)

/-- One round of the loop; `none` when the loop is left at the character. -/
def step (cb : Callback) (keyType : KeyType) (p : Parser) (c : UInt8) : Option Parser :=
  if p.level = 0 then
    -- the first bracket, or the next one of a Zapcat key
    if p.state = .ended ∧ c = leftBracket then
      stepNew cb keyType { p with state := .new } c
    else none
  else
    match p.state with
    | .new => stepNew cb keyType p c
    | .ended => p.stepEnded c
    | .unquoted =>
      -- at its end the parameter is replaced and the character is looked at again
      if c = rightBracket ∨ c = comma then
        let p := p.replaceKeyParam cb keyType p.l false
        stepEnded { p with state := .ended } c
      else some (p.pass c)
    | .quoted =>
      if c = quote ∧ p.before.getLast? ≠ some backslash then
        let p := (p.pass c).replaceKeyParam cb keyType p.l true
        some { p with state := .ended }
      else some (p.pass c)

/-- The loop, with the text it has not passed. -/
def run (cb : Callback) (keyType : KeyType) : Parser → Bytes → Parser × Bytes
  | p, [] => (p, [])
  | p, c :: rest =>
    match p.step cb keyType c with
    | none => (p, c :: rest)
    | some p => run cb keyType p rest

end Parser

/-- The result of `replace_key_params_dyn`: the new text, where parsing stopped, and
whether it succeeded. -/
structure Replaced where
  data : Bytes
  position : ℕ
  success : Bool
deriving DecidableEq

/-- The error message of a failed call. -/
def Replaced.error (keyType : KeyType) (result : Replaced) : String :=
  "Invalid " ++ (match keyType with | .item => "item key" | .oid => "SNMP OID") ++
    " at position " ++ toString result.position

/-- The end of the function. -/
def Parser.clean (p : Parser) (rest : Bytes) : Replaced where
  data := p.before ++ rest
  position := p.before.length
  success := p.before ≠ [] ∧ rest = [] ∧ p.level = 0

/-- The parser behind the key name. -/
def Parser.start (name : Bytes) : Parser where
  before := name
  l := 0
  level := 0
  num := 0
  state := .ended

/-- The length of the key name is decided by the characters of an item key, or by the
first bracket of an SNMP OID. -/
def inName (keyType : KeyType) (c : UInt8) : Bool :=
  match keyType with
  | .item => isKeyChar c
  | .oid => c ≠ leftBracket

def replaceKeyParamsDyn (data : Bytes) (keyType : KeyType) (cb : Callback) : Replaced :=
  let p := Parser.start (data.takeWhile (inName keyType))
  let rest := data.dropWhile (inName keyType)
  if keyType = .item ∧ (p.before = [] ∨ rest ≠ [] ∧ rest.head? ≠ some leftBracket) then
    p.clean rest
  else
    let (p, rest) := (p.replaceKeyParam cb keyType 0 false).run cb keyType rest
    p.clean rest

end ItemKey
