import Zabbix.Library.Ascii

/-!
# The syntax of JSON texts

Syntax trees of JSON values with all their whitespace. A `Grammar` says which bytes may
stand in a string as they are and which texts are numbers, so that the grammar of the
standard and the one the validator follows are two instances of one definition.
-/

open Ascii

namespace Json

/-- A character of a string: a byte that stands for itself, a backslash and a letter, or
`\u` and four hexadecimal digits. -/
inductive StringUnit where
  | plain (c : UInt8)
  | escape (c : UInt8)
  | unicode (h1 h2 h3 h4 : UInt8)
deriving DecidableEq

def StringUnit.text : StringUnit → Bytes
  | plain c => [c]
  | escape c => [backslash, c]
  | unicode h1 h2 h3 h4 => [backslash, 'u'.toUInt8, h1, h2, h3, h4]

/-- The text of a string, without its quotes. -/
def unitsText (units : List StringUnit) : Bytes := units.flatMap StringUnit.text

/-- The text of a string. -/
def stringText (units : List StringUnit) : Bytes := quote :: (unitsText units ++ [quote])

/-- A value, elements separated by commas, or members separated by commas. -/
inductive Kind where
  | value
  | elements
  | members

/-- Syntax trees. An element is a value between whitespace; a member is a name, whitespace
around the colon and a value, between whitespace. -/
inductive Tree : Kind → Type where
  | string (units : List StringUnit) : Tree .value
  | number (raw : Bytes) : Tree .value
  | literal (raw : Bytes) : Tree .value
  | emptyArray (ws : Bytes) : Tree .value
  | array (es : Tree .elements) : Tree .value
  | emptyObject (ws : Bytes) : Tree .value
  | object (ms : Tree .members) : Tree .value
  | element (before : Bytes) (v : Tree .value) (after : Bytes) : Tree .elements
  | moreElements (before : Bytes) (v : Tree .value) (after : Bytes) (rest : Tree .elements) :
      Tree .elements
  | member (before : Bytes) (name : List StringUnit) (ws1 ws2 : Bytes) (v : Tree .value)
      (after : Bytes) : Tree .members
  | moreMembers (before : Bytes) (name : List StringUnit) (ws1 ws2 : Bytes) (v : Tree .value)
      (after : Bytes) (rest : Tree .members) : Tree .members

namespace Tree

/-- The text of a tree. -/
def text : {kind : Kind} → Tree kind → Bytes
  | _, string units => stringText units
  | _, number raw => raw
  | _, literal raw => raw
  | _, emptyArray ws => leftBracket :: (ws ++ [rightBracket])
  | _, array es => leftBracket :: (es.text ++ [rightBracket])
  | _, emptyObject ws => leftBrace :: (ws ++ [rightBrace])
  | _, object ms => leftBrace :: (ms.text ++ [rightBrace])
  | _, element before v after => before ++ (v.text ++ after)
  | _, moreElements before v after rest => before ++ (v.text ++ (after ++ comma :: rest.text))
  | _, member before name ws1 ws2 v after =>
    before ++ (stringText name ++ (ws1 ++ colon :: (ws2 ++ (v.text ++ after))))
  | _, moreMembers before name ws1 ws2 v after rest =>
    before ++ (stringText name ++
      (ws1 ++ colon :: (ws2 ++ (v.text ++ (after ++ comma :: rest.text)))))

theorem element_text_append (before : Bytes) (v : Tree .value) (after rest : Bytes) :
  (element before v after).text ++ rest = before ++ (v.text ++ (after ++ rest))
  := by simp [text]

theorem moreElements_text_append (before : Bytes) (v : Tree .value) (after : Bytes)
    (es : Tree .elements) (rest : Bytes) :
  (moreElements before v after es).text ++ rest =
    before ++ (v.text ++ (after ++ comma :: (es.text ++ rest)))
  := by simp [text]

end Tree

/-- Which bytes may stand in a string as they are, and which texts are numbers. -/
structure Grammar where
  char : UInt8 → Prop
  number : Bytes → Prop

/-- Whitespace. -/
def IsWs (ws : Bytes) : Prop := ∀ c ∈ ws, isWhitespace c = true

instance (ws : Bytes) : Decidable (IsWs ws) :=
  inferInstanceAs (Decidable (∀ c ∈ ws, isWhitespace c = true))

/-- The letters behind a backslash. -/
def isEscape (c : UInt8) : Bool :=
  c = quote || c = backslash || c = slash || c = 'b'.toUInt8 || c = 'f'.toUInt8 ||
    c = 'n'.toUInt8 || c = 'r'.toUInt8 || c = 't'.toUInt8

def StringUnit.Valid (g : Grammar) : StringUnit → Prop
  | plain c => c ≠ quote ∧ c ≠ backslash ∧ g.char c
  | escape c => isEscape c = true
  | unicode h1 h2 h3 h4 =>
    isHexDigit h1 = true ∧ isHexDigit h2 = true ∧ isHexDigit h3 = true ∧ isHexDigit h4 = true

/-- The literal values. -/
def literals : List Bytes :=
  [bytes ['t', 'r', 'u', 'e'], bytes ['f', 'a', 'l', 's', 'e'], bytes ['n', 'u', 'l', 'l']]

namespace Tree

/-- The tree belongs to the grammar. -/
def Valid (g : Grammar) : {kind : Kind} → Tree kind → Prop
  | _, string units => ∀ u ∈ units, u.Valid g
  | _, number raw => g.number raw
  | _, literal raw => raw ∈ literals
  | _, emptyArray ws => IsWs ws
  | _, array es => es.Valid g
  | _, emptyObject ws => IsWs ws
  | _, object ms => ms.Valid g
  | _, element before v after => IsWs before ∧ v.Valid g ∧ IsWs after
  | _, moreElements before v after rest =>
    IsWs before ∧ v.Valid g ∧ IsWs after ∧ rest.Valid g
  | _, member before name ws1 ws2 v after =>
    IsWs before ∧ (∀ u ∈ name, u.Valid g) ∧ IsWs ws1 ∧ IsWs ws2 ∧ v.Valid g ∧ IsWs after
  | _, moreMembers before name ws1 ws2 v after rest =>
    IsWs before ∧ (∀ u ∈ name, u.Valid g) ∧ IsWs ws1 ∧ IsWs ws2 ∧ v.Valid g ∧
      IsWs after ∧ rest.Valid g

/-- The value is an object. -/
def IsObject : {kind : Kind} → Tree kind → Prop
  | _, emptyObject _ => True
  | _, object _ => True
  | _, _ => False

end Tree

/-- The text is one object of the grammar, with whitespace around it. -/
def IsObjectText (g : Grammar) (text : Bytes) : Prop :=
  ∃ (before after : Bytes) (object : Tree .value), IsWs before ∧ IsWs after ∧
    object.IsObject ∧ object.Valid g ∧ text = before ++ (object.text ++ after)

/-! ### Numbers -/

/-- One or more digits. -/
def IsDigits (text : Bytes) : Prop := text ≠ [] ∧ ∀ c ∈ text, isDigit c = true

/-- The integer part of a number: no leading zero, except for zero itself. -/
def IsInt (text : Bytes) : Prop := IsDigits text ∧ (text.head? = some '0'.toUInt8 → text.length = 1)

/-- An optional minus sign. -/
def IsSign (text : Bytes) : Prop := text = [] ∨ text = [minus]

/-- An optional power. -/
def IsPower (text : Bytes) : Prop :=
  text = [] ∨ ∃ e sign digits, (e = 'e'.toUInt8 ∨ e = 'E'.toUInt8) ∧
    (sign = [] ∨ sign = [plus] ∨ sign = [minus]) ∧ IsDigits digits ∧ text = e :: (sign ++ digits)

/-- An optional fraction, whose digits meet a condition. -/
def IsFraction (digits : Bytes → Prop) (text : Bytes) : Prop :=
  text = [] ∨ ∃ ds, (∀ c ∈ ds, isDigit c = true) ∧ digits ds ∧ text = dot :: ds

/-- A number whose fraction digits meet a condition. -/
def IsNumber (digits : Bytes → Prop) (text : Bytes) : Prop :=
  ∃ sign int fraction power, IsSign sign ∧ IsInt int ∧ IsFraction digits fraction ∧
    IsPower power ∧ text = sign ++ (int ++ (fraction ++ power))

/-- The grammar of the standard: any byte but the control characters below 32 may stand in
a string, and a decimal point is followed by digits. -/
def standard : Grammar where
  char := fun c => 0x20 ≤ c
  number := IsNumber fun ds => ds ≠ []

/-- The grammar the validator follows: no byte 127 stands in a string, and a decimal point
need not be followed by digits. -/
def validated : Grammar where
  char := fun c => isControl c = false
  number := IsNumber fun _ => True

end Json
