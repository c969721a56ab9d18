import Zabbix.Json.Validator

/-!
# Reading JSON texts

The readers of `json.c`. They look at the raw text again, each with a level counter and a
string state of its own. A pointer is the text from it on. The loops over pairs go down
in a first argument that is larger than the number of pairs.
-/

open Ascii

namespace Json

/-- `struct zbx_json_parse`: the pointers to the opening and the closing bracket. -/
structure JsonParse where
  (start end' : Bytes)
deriving DecidableEq

/-- `zbx_json_type_t`. -/
inductive JsonType where
  | unknown
  | string
  | int
  | array
  | object
  | null
deriving DecidableEq

/-- `MAX_STRING_LEN`. -/
def maxStringLen : ℕ := 2048

def isOpening (c : UInt8) : Bool := c = leftBracket || c = leftBrace

def isClosing (c : UInt8) : Bool := c = rightBracket || c = rightBrace

def nullText : Bytes := bytes ['n', 'u', 'l', 'l']

/-- `__zbx_json_type`. -/
def jsonType (p : Bytes) : JsonType :=
  match p with
  | [] => .unknown
  | c :: _ =>
    if c = quote then .string
    else if isDigit c || c = minus then .int
    else if c = leftBracket then .array
    else if c = leftBrace then .object
    else if nullText <+: p then .null
    else .unknown

/-! ### Brackets -/

/-- The loop of `__zbx_json_rbracket`: the level, and whether the loop is inside a
string. -/
def rbracketLoop (rbracket : UInt8) : ℕ → Bool → Bytes → Option Bytes
  | _, _, [] => none
  | level, inString, c :: rest =>
    if c = quote then rbracketLoop rbracket level (!inString) rest
    else if c = backslash then
      if inString then
        match rest with
        | [] => none
        | _ :: rest' => rbracketLoop rbracket level inString rest'
      else rbracketLoop rbracket level inString rest
    else if inString then rbracketLoop rbracket level inString rest
    else if isOpening c then rbracketLoop rbracket (level + 1) inString rest
    else if isClosing c then
      if level - 1 = 0 then if c = rbracket then some (c :: rest) else none
      else rbracketLoop rbracket (level - 1) inString rest
    else rbracketLoop rbracket level inString rest

/-- `__zbx_json_rbracket`. -/
def jsonRbracket (p : Bytes) : Option Bytes :=
  match p with
  | [] => none
  | c :: _ =>
    if isOpening c then
      rbracketLoop (if c = leftBrace then rightBrace else rightBracket) 0 false p
    else none

/-- `zbx_json_brackets_open`. -/
def zbxJsonBracketsOpen (p : Bytes) : Option JsonParse :=
  (jsonRbracket p).map fun rbracket => { start := skipWhitespace p, end' := rbracket }

/-- `zbx_json_open`. -/
def zbxJsonOpen (buffer : Bytes) : Option JsonParse :=
  let start := skipWhitespace buffer
  if start = [] then none
  else
    match zbxJsonValidate start with
    | .error _ => none
    | .ok len => some { start := start, end' := start.drop (len - 1) }

/-! ### Elements -/

/-- The loop of `zbx_json_next`. Pointers behind the closing bracket have less than `stop`
characters before them. -/
def nextLoop (stop : ℕ) : ℕ → Bool → Bytes → Option Bytes
  | _, _, [] => none
  | level, inString, c :: rest =>
    if (c :: rest).length < stop then none
    else if c = quote then nextLoop stop level (!inString) rest
    else if c = backslash then
      if inString then
        match rest with
        | [] => none
        | _ :: rest' => nextLoop stop level inString rest'
      else nextLoop stop level inString rest
    else if inString then nextLoop stop level inString rest
    else if isOpening c then nextLoop stop (level + 1) inString rest
    else if isClosing c then
      if level = 0 then none else nextLoop stop (level - 1) inString rest
    else if c = comma ∧ level = 0 then some (skipWhitespace rest)
    else nextLoop stop level inString rest

/-- `zbx_json_next`. -/
def zbxJsonNext (jp : JsonParse) (p : Option Bytes) : Option Bytes :=
  if jp.start.length = jp.end'.length + 1 then none
  else
    match p with
    | none => some (skipWhitespace jp.start.tail)
    | some p => nextLoop jp.end'.length 0 false p

/-- The loop of `zbx_json_count`. -/
def countLoop (jp : JsonParse) : ℕ → Option Bytes → ℕ
  | 0, _ => 0
  | rounds + 1, p =>
    match zbxJsonNext jp p with
    | none => 0
    | some p => countLoop jp rounds (some p) + 1

/-- `zbx_json_count`. -/
def zbxJsonCount (jp : JsonParse) : ℕ := countLoop jp (jp.start.length + 1) none

/-! ### Scalars -/

/-- `zbx_hex2num`. A `char` has a sign, and a byte from 0x80 on is less than `a`. -/
def hex2num (c : UInt8) : UInt8 :=
  if 'a'.toUInt8 ≤ c ∧ c < 0x80 then c - 0x57 else c - 0x30

/-- The loop of `zbx_json_decodestring` inside the string, with what it has written into a
buffer of `len` bytes. -/
def decodeLoop (len : ℕ) : Bytes → Bytes → Option (Bytes × Bytes)
  | _, [] => none
  | out, c :: rest =>
    if c = quote then some (out, rest)
    else if out.length < len - 1 then
      if c = backslash then
        match rest with
        | [] => none
        | e :: rest' =>
          if e = quote ∨ e = backslash ∨ e = slash then decodeLoop len (out ++ [e]) rest'
          else if e = 'b'.toUInt8 then decodeLoop len (out ++ [0x08]) rest'
          else if e = 'f'.toUInt8 then decodeLoop len (out ++ [0x0c]) rest'
          else if e = 'n'.toUInt8 then decodeLoop len (out ++ [newline]) rest'
          else if e = 'r'.toUInt8 then decodeLoop len (out ++ [carriageReturn]) rest'
          else if e = 't'.toUInt8 then decodeLoop len (out ++ [tab]) rest'
          else if e = 'u'.toUInt8 then
            match rest' with
            | _ :: _ :: h3 :: h4 :: rest'' =>
              -- the first two digits are taken for zeros
              decodeLoop len (out ++ [hex2num h3 <<< 4 + hex2num h4]) rest''
            | _ => none
          else decodeLoop len out rest'
      else decodeLoop len (out ++ [c]) rest
    else decodeLoop len out rest

theorem decodeLoop_cons (len : ℕ) (out : Bytes) (c : UInt8) (rest : Bytes) :
  decodeLoop len out (c :: rest) =
    if c = quote then some (out, rest)
    else if out.length < len - 1 then
      if c = backslash then
        match rest with
        | [] => none
        | e :: rest' =>
          if e = quote ∨ e = backslash ∨ e = slash then decodeLoop len (out ++ [e]) rest'
          else if e = 'b'.toUInt8 then decodeLoop len (out ++ [0x08]) rest'
          else if e = 'f'.toUInt8 then decodeLoop len (out ++ [0x0c]) rest'
          else if e = 'n'.toUInt8 then decodeLoop len (out ++ [newline]) rest'
          else if e = 'r'.toUInt8 then decodeLoop len (out ++ [carriageReturn]) rest'
          else if e = 't'.toUInt8 then decodeLoop len (out ++ [tab]) rest'
          else if e = 'u'.toUInt8 then
            match rest' with
            | _ :: _ :: h3 :: h4 :: rest'' =>
              decodeLoop len (out ++ [hex2num h3 <<< 4 + hex2num h4]) rest''
            | _ => none
          else decodeLoop len out rest'
      else decodeLoop len (out ++ [c]) rest
    else decodeLoop len out rest
  := decodeLoop.eq_def _ _ _

/-- `zbx_json_decodestring`: what is written into the buffer, and the pointer behind the
string. -/
def decodeString (p : Bytes) (len : ℕ) : Option (Bytes × Bytes) :=
  if p.head? = some quote then decodeLoop len [] p.tail else none

/-- The loop of `zbx_json_decodeint`. -/
def decodeIntLoop (len : ℕ) : Bytes → Bytes → Option (Bytes × Bytes)
  | _, [] => none
  | out, c :: rest =>
    if !isDigit c && c ≠ minus then some (out, c :: rest)
    else decodeIntLoop len (if out.length < len - 1 then out ++ [c] else out) rest

/-- `zbx_json_decodeint`. -/
def decodeInt (p : Bytes) (len : ℕ) : Option (Bytes × Bytes) := decodeIntLoop len [] p

/-- A decoded value: what is written into the buffer, the null flag, and the pointer behind
the value. -/
structure Decoded where
  string : Bytes
  isNull : Bool
  rest : Bytes
deriving DecidableEq

/-- `zbx_json_decodevalue`. -/
def decodeValue (p : Bytes) (len : ℕ) : Option Decoded :=
  match jsonType p with
  | .string => (decodeString p len).map fun (string, rest) => ⟨string, false, rest⟩
  | .int => (decodeInt p len).map fun (string, rest) => ⟨string, false, rest⟩
  | .null => some ⟨[], true, p.drop nullText.length⟩
  | _ => none

/-- The loop of `zbx_json_string_size` inside the string. -/
def stringSizeLoop : ℕ → Bytes → Option ℕ
  | _, [] => none
  | sz, c :: rest =>
    if c = quote then some sz
    else if c = backslash then
      match rest with
      | [] => none
      | e :: rest' =>
        if e = 'u'.toUInt8 then
          -- goes on with the third digit
          match rest' with
          | _ :: _ :: rest'' => stringSizeLoop (sz + 1) rest''
          | _ => none
        else if isEscape e then stringSizeLoop (sz + 1) rest'
        else stringSizeLoop sz rest'
    else stringSizeLoop (sz + 1) rest

theorem stringSizeLoop_cons (sz : ℕ) (c : UInt8) (rest : Bytes) :
  stringSizeLoop sz (c :: rest) =
    if c = quote then some sz
    else if c = backslash then
      match rest with
      | [] => none
      | e :: rest' =>
        if e = 'u'.toUInt8 then
          match rest' with
          | _ :: _ :: rest'' => stringSizeLoop (sz + 1) rest''
          | _ => none
        else if isEscape e then stringSizeLoop (sz + 1) rest'
        else stringSizeLoop sz rest'
    else stringSizeLoop (sz + 1) rest
  := stringSizeLoop.eq_def _ _

/-- `zbx_json_int_size`. -/
def intSizeLoop : ℕ → Bytes → Option ℕ
  | _, [] => none
  | sz, c :: rest => if !isDigit c && c ≠ minus then some sz else intSizeLoop (sz + 1) rest

/-- `zbx_json_value_size`. -/
def valueSize (p : Bytes) : JsonType → Option ℕ
  | .string => if p.head? = some quote then stringSizeLoop 0 p.tail else none
  | .int => intSizeLoop 0 p
  | _ => none

/-- `zbx_json_decodevalue_dyn` on a buffer of `alloc` bytes: the buffer grows when it is not
larger than the value. -/
def decodeValueDyn (p : Bytes) (alloc : ℕ) : Option (Bytes × ℕ × Bytes) :=
  match valueSize p (jsonType p) with
  | none => none
  | some sz =>
    let alloc := if alloc ≤ sz then sz + 1 else alloc
    match jsonType p with
    | .string => (decodeString p alloc).map fun (string, rest) => (string, alloc, rest)
    | .int => (decodeInt p alloc).map fun (string, rest) => (string, alloc, rest)
    | _ => none

/-! ### Pairs -/

/-- `zbx_json_pair_next`: the name in a buffer of `len` bytes, and the pointer to the
value. -/
def zbxJsonPairNext (jp : JsonParse) (p : Option Bytes) (len : ℕ) : Option (Bytes × Bytes) := do
  let p ← zbxJsonNext jp p
  if jsonType p = .string then
    let (name, p) ← decodeString p len
    let p := skipWhitespace p
    if p.head? = some colon then some (name, skipWhitespace p.tail) else none
  else none

/-- The string up to its terminating zero byte. -/
def cString (buffer : Bytes) : Bytes := buffer.takeWhile (· ≠ 0)

/-- The loop of `zbx_json_pair_by_name`. -/
def pairByNameLoop (jp : JsonParse) (name : Bytes) : ℕ → Option Bytes → Option Bytes
  | 0, _ => none
  | rounds + 1, p =>
    match zbxJsonPairNext jp p maxStringLen with
    | none => none
    | some (buffer, p) =>
      if cString buffer = name then some p else pairByNameLoop jp name rounds (some p)

/-- `zbx_json_pair_by_name`. -/
def zbxJsonPairByName (jp : JsonParse) (name : Bytes) : Option Bytes :=
  pairByNameLoop jp name (jp.start.length + 1) none

/-- `zbx_json_value_by_name`. -/
def zbxJsonValueByName (jp : JsonParse) (name : Bytes) (len : ℕ) : Option Bytes :=
  (zbxJsonPairByName jp name).bind fun p => (decodeValue p len).map Decoded.string

/-- `zbx_json_value_by_name_dyn`. -/
def zbxJsonValueByNameDyn (jp : JsonParse) (name : Bytes) (alloc : ℕ) :
    Option (Bytes × ℕ) :=
  (zbxJsonPairByName jp name).bind fun p =>
    (decodeValueDyn p alloc).map fun (string, alloc, _) => (string, alloc)

end Json
