import Zabbix.Json.Syntax

/-!
# The JSON validator

The recursive descent of `json_parser.c`. A parser of the source returns the number of
characters it parsed, or 0 and an error message; here it returns the text behind them, or
the error.

The recursion of values, arrays and objects goes down in its first argument, which
`zbx_json_validate` chooses larger than the recursion can be deep.
-/

open Ascii

namespace Json

/-- The message and the data fragment of `json_error`. -/
structure ParseError where
  message : String
  fragment : Option Bytes
deriving DecidableEq

abbrev Parsed := Except ParseError Bytes

/-- `json_error`. -/
def jsonError (message : String) (fragment : Option Bytes) : Parsed :=
  .error { message := message, fragment := fragment }

/-- The loop of `json_parse_string`. The test for control characters applies to the last
character of an escape sequence too, which never is one. -/
def parseStringLoop : Bytes → Parsed
  | [] => jsonError "unexpected end of string data" none
  | c :: rest =>
    if c = quote then .ok rest
    else if c = backslash then
      match rest with
      | [] => jsonError "invalid escape sequence in string" (some (c :: rest))
      | e :: rest' =>
        if isEscape e then parseStringLoop rest'
        else if e = 'u'.toUInt8 then
          match rest' with
          | h1 :: h2 :: h3 :: h4 :: rest'' =>
            if isHexDigit h1 && isHexDigit h2 && isHexDigit h3 && isHexDigit h4 then
              parseStringLoop rest''
            else jsonError "invalid escape sequence in string" (some (c :: rest))
          | _ => jsonError "invalid escape sequence in string" (some (c :: rest))
        else jsonError "invalid escape sequence in string data" (some (c :: rest))
    else if isControl c then
      jsonError "invalid control character in string data" (some (c :: rest))
    else parseStringLoop rest

theorem parseStringLoop_cons (c : UInt8) (rest : Bytes) :
  parseStringLoop (c :: rest) =
    if c = quote then .ok rest
    else if c = backslash then
      match rest with
      | [] => jsonError "invalid escape sequence in string" (some (c :: rest))
      | e :: rest' =>
        if isEscape e then parseStringLoop rest'
        else if e = 'u'.toUInt8 then
          match rest' with
          | h1 :: h2 :: h3 :: h4 :: rest'' =>
            if isHexDigit h1 && isHexDigit h2 && isHexDigit h3 && isHexDigit h4 then
              parseStringLoop rest''
            else jsonError "invalid escape sequence in string" (some (c :: rest))
          | _ => jsonError "invalid escape sequence in string" (some (c :: rest))
        else jsonError "invalid escape sequence in string data" (some (c :: rest))
    else if isControl c then
      jsonError "invalid control character in string data" (some (c :: rest))
    else parseStringLoop rest
  := by
  match rest with
  | [] => rfl
  | [_] => rfl
  | [_, _] => rfl
  | [_, _, _] => rfl
  | [_, _, _, _] => rfl
  | _ :: _ :: _ :: _ :: _ :: _ => rfl

theorem parseStringLoop_unit {u : StringUnit} (h : u.Valid validated) (rest : Bytes) :
  parseStringLoop (u.text ++ rest) = parseStringLoop rest
  := by
  cases u with
  | plain c =>
    obtain ⟨hquote, hback, hchar⟩ := h
    have hcontrol : isControl c = false := hchar
    rw [StringUnit.text, List.singleton_append, parseStringLoop_cons]
    simp [hquote, hback, hcontrol]
  | escape c =>
    have hescape : isEscape c = true := h
    have hne := backslash_ne_quote
    rw [StringUnit.text, List.cons_append, List.singleton_append, parseStringLoop_cons]
    simp [hescape, hne]
  | unicode h1 h2 h3 h4 =>
    obtain ⟨hh1, hh2, hh3, hh4⟩ := h
    have hne := backslash_ne_quote
    have hu : isEscape 'u'.toUInt8 = false := by decide
    rw [StringUnit.text, List.cons_append, parseStringLoop_cons]
    simp [hne, hu, hh1, hh2, hh3, hh4]

theorem parseStringLoop_units {units : List StringUnit}
    (h : ∀ u ∈ units, u.Valid validated) (rest : Bytes) :
  parseStringLoop (unitsText units ++ quote :: rest) = .ok rest
  := by
  induction units with
  | nil =>
    rw [unitsText, List.flatMap_nil, List.nil_append, parseStringLoop_cons]
    simp
  | cons u units ih =>
    have hu := parseStringLoop_unit (h u List.mem_cons_self) (unitsText units ++ quote :: rest)
    have hrest := ih fun v hv => h v (List.mem_cons_of_mem _ hv)
    rw [hrest] at hu
    simpa [unitsText] using hu

theorem parseStringLoop_sound {text rest : Bytes} (h : parseStringLoop text = .ok rest) :
  ∃ units, (∀ u ∈ units, StringUnit.Valid validated u) ∧
    text = unitsText units ++ quote :: rest
  := by
  have hcons : ∀ {u : StringUnit} {tail : Bytes}, u.Valid validated →
      (∃ units, (∀ u ∈ units, StringUnit.Valid validated u) ∧
        tail = unitsText units ++ quote :: rest) →
      ∃ units, (∀ u ∈ units, StringUnit.Valid validated u) ∧
        u.text ++ tail = unitsText units ++ quote :: rest := by
    rintro u tail hu ⟨units, hunits, rfl⟩
    refine ⟨u :: units, ?_, by simp [unitsText]⟩
    intro v hv
    obtain rfl | hv := List.mem_cons.mp hv
    · exact hu
    · exact hunits v hv
  have hne := backslash_ne_quote
  induction text using parseStringLoop.induct with
  | case1 => cases h
  | case2 tail =>
    rw [parseStringLoop_cons, if_pos rfl] at h
    obtain rfl : tail = rest := by simpa using h
    exact ⟨[], by simp, rfl⟩
  | case3 => cases h
  | case4 e tail hescape _ ih =>
    have hu : StringUnit.Valid validated (.escape e) := hescape
    exact hcons hu (ih ((parseStringLoop_unit hu tail).symm.trans h))
  | case5 h1 h2 h3 h4 tail hhex _ _ ih =>
    simp only [Bool.and_eq_true] at hhex
    obtain ⟨⟨⟨hh1, hh2⟩, hh3⟩, hh4⟩ := hhex
    have hu : StringUnit.Valid validated (.unicode h1 h2 h3 h4) := ⟨hh1, hh2, hh3, hh4⟩
    exact hcons hu (ih ((parseStringLoop_unit hu tail).symm.trans h))
  | case6 _ _ _ _ _ hhex _ hescape =>
    rw [parseStringLoop_cons] at h
    simp [hne, hescape, hhex, jsonError] at h
  | case7 tail hshort _ hescape =>
    rw [parseStringLoop_cons, if_neg hne, if_pos rfl] at h
    simp only [hescape, Bool.false_eq_true, ↓reduceIte] at h
    cases h
  | case8 e tail hescape hunicode _ =>
    rw [parseStringLoop_cons] at h
    simp [hne, hescape, hunicode, jsonError] at h
  | case9 c tail hquote hback hcontrol =>
    rw [parseStringLoop_cons, if_neg hquote, if_neg hback, if_pos hcontrol] at h
    cases h
  | case10 c tail hquote hback hcontrol ih =>
    have hu : StringUnit.Valid validated (.plain c) := by
      refine ⟨hquote, hback, ?_⟩
      change isControl c = false
      simpa using hcontrol
    exact hcons hu (ih ((parseStringLoop_unit hu tail).symm.trans h))

/-- `json_parse_string`. -/
def jsonParseString (start : Bytes) : Parsed := parseStringLoop start.tail

/-- The loop of `json_parse_number` over digits and a decimal point, with the number of
digits before the point. -/
def numberLoop : Bool → ℕ → Bytes → Bytes × ℕ
  | _, digit, [] => ([], digit)
  | point, digit, c :: rest =>
    if c = dot then
      if point then (c :: rest, digit) else numberLoop true digit rest
    else if isDigit c then numberLoop point (if point then digit else digit + 1) rest
    else (c :: rest, digit)

/-- The power of a number in E notation, behind the letter. -/
def parsePower (ptr : Bytes) : Parsed :=
  match ptr with
  | [] => jsonError "unexpected end of numeric value" none
  | c :: rest =>
    let ptr := if c = plus ∨ c = minus then rest else c :: rest
    match ptr with
    | [] => jsonError "unexpected end of numeric value" none
    | d :: rest =>
      if isDigit d then .ok (rest.dropWhile isDigit)
      else jsonError "invalid power value of number in E notation" (some (d :: rest))

/-- `json_parse_number`. -/
def jsonParseNumber (start : Bytes) : Parsed :=
  let ptr := if start.head? = some minus then start.tail else start
  let firstDigit := ptr.head?
  let (ptr, digit) := numberLoop false 0 ptr
  if digit = 0 then jsonError "invalid numeric value format" (some start)
  else if firstDigit = some '0'.toUInt8 ∧ 1 < digit then
    jsonError "invalid numeric value format" (some start)
  else if ptr.head? = some 'e'.toUInt8 ∨ ptr.head? = some 'E'.toUInt8 then
    parsePower ptr.tail
  else .ok ptr

/-- `json_parse_literal`. -/
def jsonParseLiteral (start text : Bytes) : Parsed :=
  if text <+: start then .ok (start.drop text.length)
  else jsonError "invalid literal value" (some start)

/-- The answer where the recursion is too deep for its first argument. -/
def tooDeep : Parsed := jsonError "" none

mutual

/-- `json_parse_value`. -/
def jsonParseValue : ℕ → Bytes → Parsed
  | 0, _ => tooDeep
  | depth + 1, start =>
    match skipWhitespace start with
    | [] => jsonError "unexpected end of object value" none
    | c :: rest =>
      if c = quote then jsonParseString (c :: rest)
      else if c = leftBrace then jsonParseObject depth (c :: rest)
      else if c = leftBracket then jsonParseArray depth (c :: rest)
      else if c = 't'.toUInt8 then jsonParseLiteral (c :: rest) (bytes ['t', 'r', 'u', 'e'])
      else if c = 'f'.toUInt8 then
        jsonParseLiteral (c :: rest) (bytes ['f', 'a', 'l', 's', 'e'])
      else if c = 'n'.toUInt8 then jsonParseLiteral (c :: rest) (bytes ['n', 'u', 'l', 'l'])
      else if isDigit c || c = minus then jsonParseNumber (c :: rest)
      else jsonError "invalid JSON object value starting character" (some (c :: rest))

/-- `json_parse_array`. -/
def jsonParseArray : ℕ → Bytes → Parsed
  | 0, _ => tooDeep
  | depth + 1, start =>
    let ptr := skipWhitespace start.tail
    if ptr.head? = some rightBracket then .ok ptr.tail else parseElements depth ptr

/-- The loop of `json_parse_array` from a value on. -/
def parseElements : ℕ → Bytes → Parsed
  | 0, _ => tooDeep
  | depth + 1, ptr =>
    match jsonParseValue depth ptr with
    | .error e => .error e
    | .ok ptr =>
      let ptr := skipWhitespace ptr
      if ptr.head? = some comma then parseElements depth ptr.tail
      else if ptr.head? = some rightBracket then .ok ptr.tail
      else jsonError "invalid array format, expected closing character ']'" (some ptr)

/-- `json_parse_object`. -/
def jsonParseObject : ℕ → Bytes → Parsed
  | 0, _ => tooDeep
  | depth + 1, start =>
    let ptr := skipWhitespace start
    if ptr.head? = some leftBrace then
      let ptr := skipWhitespace ptr.tail
      if ptr.head? = some rightBrace then .ok ptr.tail else parseMembers depth ptr
    else jsonError "invalid object format, expected opening character '\x7b'" (some ptr)

/-- The loop of `json_parse_object` from a name on. -/
def parseMembers : ℕ → Bytes → Parsed
  | 0, _ => tooDeep
  | depth + 1, ptr =>
    if ptr.head? = some quote then
      match jsonParseString ptr with
      | .error e => .error e
      | .ok ptr =>
        let ptr := skipWhitespace ptr
        if ptr.head? = some colon then
          match jsonParseValue depth ptr.tail with
          | .error e => .error e
          | .ok ptr =>
            let ptr := skipWhitespace ptr
            if ptr.head? = some comma then parseMembers depth (skipWhitespace ptr.tail)
            else if ptr.head? = some rightBrace then .ok ptr.tail
            else
              jsonError "invalid object format, expected closing character '\x7d'" (some ptr)
        else jsonError "invalid object name/value separator" (some ptr)
    else jsonError "invalid object name" (some ptr)

end

section

variable (depth : ℕ) (start : Bytes)

theorem jsonParseValue_succ :
  jsonParseValue (depth + 1) start =
    match skipWhitespace start with
    | [] => jsonError "unexpected end of object value" none
    | c :: rest =>
      if c = quote then jsonParseString (c :: rest)
      else if c = leftBrace then jsonParseObject depth (c :: rest)
      else if c = leftBracket then jsonParseArray depth (c :: rest)
      else if c = 't'.toUInt8 then jsonParseLiteral (c :: rest) (bytes ['t', 'r', 'u', 'e'])
      else if c = 'f'.toUInt8 then
        jsonParseLiteral (c :: rest) (bytes ['f', 'a', 'l', 's', 'e'])
      else if c = 'n'.toUInt8 then jsonParseLiteral (c :: rest) (bytes ['n', 'u', 'l', 'l'])
      else if isDigit c || c = minus then jsonParseNumber (c :: rest)
      else jsonError "invalid JSON object value starting character" (some (c :: rest))
  := rfl

theorem jsonParseArray_succ :
  jsonParseArray (depth + 1) start =
    if (skipWhitespace start.tail).head? = some rightBracket then
      .ok (skipWhitespace start.tail).tail
    else parseElements depth (skipWhitespace start.tail)
  := rfl

theorem parseElements_succ :
  parseElements (depth + 1) start =
    match jsonParseValue depth start with
    | .error e => .error e
    | .ok ptr =>
      if (skipWhitespace ptr).head? = some comma then
        parseElements depth (skipWhitespace ptr).tail
      else if (skipWhitespace ptr).head? = some rightBracket then .ok (skipWhitespace ptr).tail
      else jsonError "invalid array format, expected closing character ']'"
        (some (skipWhitespace ptr))
  := rfl

theorem jsonParseObject_succ :
  jsonParseObject (depth + 1) start =
    if (skipWhitespace start).head? = some leftBrace then
      if (skipWhitespace (skipWhitespace start).tail).head? = some rightBrace then
        .ok (skipWhitespace (skipWhitespace start).tail).tail
      else parseMembers depth (skipWhitespace (skipWhitespace start).tail)
    else jsonError "invalid object format, expected opening character '\x7b'"
      (some (skipWhitespace start))
  := rfl

theorem parseMembers_succ :
  parseMembers (depth + 1) start =
    if start.head? = some quote then
      match jsonParseString start with
      | .error e => .error e
      | .ok ptr =>
        if (skipWhitespace ptr).head? = some colon then
          match jsonParseValue depth (skipWhitespace ptr).tail with
          | .error e => .error e
          | .ok ptr =>
            if (skipWhitespace ptr).head? = some comma then
              parseMembers depth (skipWhitespace (skipWhitespace ptr).tail)
            else if (skipWhitespace ptr).head? = some rightBrace then
              .ok (skipWhitespace ptr).tail
            else
              jsonError "invalid object format, expected closing character '\x7d'"
                (some (skipWhitespace ptr))
        else jsonError "invalid object name/value separator" (some (skipWhitespace ptr))
    else jsonError "invalid object name" (some start)
  := rfl

end

/-- `zbx_json_validate`: the length of the object. -/
def zbxJsonValidate (start : Bytes) : Except ParseError ℕ :=
  match jsonParseObject (3 * start.length + 3) start with
  | .error e => .error e
  | .ok rest =>
    match skipWhitespace rest with
    | [] => .ok (start.length - rest.length)
    | c :: tail =>
      .error { message := "invalid character following JSON object",
               fragment := some (c :: tail) }

end Json
