import Zabbix.Json.Standard
import Zabbix.Json.Writer

/-!
# Documents

What is written: values without any layout, and a document that is being built by calls of
the writer, with the objects and arrays that are still open around the current one. The
layout of the writer makes a syntax tree of a value.
-/

open Ascii

namespace Json

/-- A value, elements or members, without layout. -/
inductive Content : Kind → Type where
  | null : Content .value
  | string (s : Bytes) : Content .value
  | number (raw : Bytes) : Content .value
  | emptyArray : Content .value
  | array (es : Content .elements) : Content .value
  | emptyObject : Content .value
  | object (ms : Content .members) : Content .value
  | element (v : Content .value) : Content .elements
  | moreElements (v : Content .value) (rest : Content .elements) : Content .elements
  | member (name : Bytes) (v : Content .value) : Content .members
  | moreMembers (name : Bytes) (v : Content .value) (rest : Content .members) :
      Content .members

/-! ### Layout -/

/-- The character the writer stores for a byte. -/
def escapeUnit (c : UInt8) : StringUnit :=
  if c = quote ∨ c = backslash ∨ c = slash then .escape c
  else if c = 0x08 then .escape 'b'.toUInt8
  else if c = 0x0c then .escape 'f'.toUInt8
  else if c = newline then .escape 'n'.toUInt8
  else if c = carriageReturn then .escape 'r'.toUInt8
  else if c = tab then .escape 't'.toUInt8
  else if c < 32 then
    .unicode '0'.toUInt8 '0'.toUInt8 (num2hex (c >>> 4 &&& 0xf)) (num2hex (c &&& 0xf))
  else .plain c

/-- The characters the writer stores for a string. -/
def units (s : Bytes) : List StringUnit := s.map escapeUnit

/-- A new line inside of `level` open objects and arrays. -/
def indent (level : ℕ) : Bytes := newline :: List.replicate level tab

namespace Content

/-- The whitespace before a value in an array. -/
def margin (level : ℕ) : {kind : Kind} → Content kind → Bytes
  | _, emptyArray => indent level
  | _, array _ => indent level
  | _, emptyObject => indent level
  | _, object _ => indent level
  | _, _ => []

/-- The syntax tree of a value inside of `level` open objects and arrays, or of elements or
members at that level. -/
def tree : {kind : Kind} → Content kind → ℕ → Tree kind
  | _, null, _ => .literal nullText
  | _, string s, _ => .string (units s)
  | _, number raw, _ => .number raw
  | _, emptyArray, _ => .emptyArray []
  | _, array es, level => .array (es.tree (level + 1))
  | _, emptyObject, _ => .emptyObject []
  | _, object ms, level => .object (ms.tree (level + 1))
  | _, element v, level => .element (v.margin level) (v.tree level) []
  | _, moreElements v rest, level =>
    .moreElements (v.margin level) (v.tree level) [] (rest.tree level)
  | _, member name v, level => .member (indent level) (units name) [] [] (v.tree level) []
  | _, moreMembers name v rest, level =>
    .moreMembers (indent level) (units name) [] [] (v.tree level) [] (rest.tree level)

/-- Conditions on the names, strings and numbers of a value. -/
structure Check where
  name : Bytes → Prop
  string : Bytes → Prop
  number : Bytes → Prop

/-- All names, strings and numbers meet the conditions. -/
def All (check : Check) : {kind : Kind} → Content kind → Prop
  | _, string s => check.string s
  | _, number raw => check.number raw
  | _, array es => es.All check
  | _, object ms => ms.All check
  | _, element v => v.All check
  | _, moreElements v rest => v.All check ∧ rest.All check
  | _, member name v => check.name name ∧ v.All check
  | _, moreMembers name v rest => check.name name ∧ v.All check ∧ rest.All check
  | _, _ => True

/-- Elements from a list that is not empty. -/
def elementsOf (v : Content .value) : List (Content .value) → Content .elements
  | [] => element v
  | v' :: vs => moreElements v (elementsOf v' vs)

/-- Members from a list that is not empty. -/
def membersOf (m : Bytes × Content .value) : List (Bytes × Content .value) → Content .members
  | [] => member m.1 m.2
  | m' :: ms => moreMembers m.1 m.2 (membersOf m' ms)

end Content

/-! ### Documents that are being built -/

/-- The contents of an array or an object so far. -/
inductive Inside where
  | array (vs : List (Content .value))
  | object (ms : List (Bytes × Content .value))

/-- An open array or object around the current one, which stands at the end of it. -/
inductive Parent where
  | array (vs : List (Content .value))
  | object (ms : List (Bytes × Content .value)) (name : Bytes)

/-- A document that is being built: the current array or object and those around it, from
the inside to the outside. -/
structure Document where
  inside : Inside
  parents : List Parent

namespace Inside

/-- The value the array or object makes when it is closed. -/
def content : Inside → Content .value
  | array [] => .emptyArray
  | array (v :: vs) => .array (.elementsOf v vs)
  | object [] => .emptyObject
  | object (m :: ms) => .object (.membersOf m ms)

def isEmpty : Inside → Bool
  | array vs => vs.isEmpty
  | object ms => ms.isEmpty

/-- Adds a value at the end, with a name in an object and without a name in an array. -/
def add : Inside → Option Bytes → Content .value → Option Inside
  | array vs, none, v => some (array (vs ++ [v]))
  | object ms, some name, v => some (object (ms ++ [(name, v)]))
  | _, _, _ => none

/-- The array or object becomes one around a new one. -/
def enclose : Inside → Option Bytes → Option Parent
  | array vs, none => some (.array vs)
  | object ms, some name => some (.object ms name)
  | _, _ => none

end Inside

/-- The array or object with a value at its end. -/
def Parent.plug : Parent → Content .value → Inside
  | array vs, v => .array (vs ++ [v])
  | object ms name, v => .object (ms ++ [(name, v)])

/-- The value a call of `zbx_json_addstring` adds. -/
def scalar (string : Option Bytes) (type : JsonType) : Content .value :=
  match string with
  | none => .null
  | some s => if type = .string then .string s else .number s

namespace Document

/-- The document behind `zbx_json_init`. -/
def start : Document := ⟨.object [], []⟩

/-- Adds a value to the current array or object. -/
def add (d : Document) (name : Option Bytes) (v : Content .value) : Option Document :=
  (d.inside.add name v).map fun inside => ⟨inside, d.parents⟩

/-- Opens a new array or object in the current one. -/
def openNew (d : Document) (name : Option Bytes) (new : Inside) : Option Document :=
  (d.inside.enclose name).map fun parent => ⟨new, parent :: d.parents⟩

/-- The document behind a call. A call that is not well nested, with a name in an array or
without a name in an object, gives nothing. -/
def step (d : Document) : Call → Option Document
  | .addobject name => d.openNew name (.object [])
  | .addarray name => d.openNew name (.array [])
  | .addstring name string type => d.add name (scalar string type)
  | .adduint64 name value => d.add name (.number (decimal value.toNat))
  | .close =>
    match d.parents with
    | [] => some d
    | parent :: parents => some ⟨parent.plug d.inside.content, parents⟩

/-- The value a document makes when everything is closed. -/
def contentOf : Inside → List Parent → Content .value
  | inside, [] => inside.content
  | inside, parent :: parents => contentOf (parent.plug inside.content) parents

def content (d : Document) : Content .value := contentOf d.inside d.parents

end Document

/-- The document that a sequence of calls builds. The sequence is well nested when there is
one. -/
def built (calls : List Call) : Option Document := calls.foldlM Document.step .start

/-! ### Text -/

/-- The text of an element, at a level. -/
def elementText (level : ℕ) (v : Content .value) : Bytes :=
  v.margin level ++ (v.tree level).text

/-- The text of a name and its colon. -/
def nameText (name : Bytes) : Bytes := stringText (units name) ++ [colon]

/-- The text of a member, at a level. -/
def memberText (level : ℕ) (m : Bytes × Content .value) : Bytes :=
  indent level ++ (nameText m.1 ++ (m.2.tree level).text)

/-- Texts separated by commas. -/
def commaText : List Bytes → Bytes
  | [] => []
  | [text] => text
  | text :: texts => text ++ comma :: commaText texts

/-- A comma behind something. -/
def separator (isEmpty : Bool) : Bytes := if isEmpty then [] else [comma]

theorem commaText_snoc (texts : List Bytes) (text : Bytes) :
  commaText (texts ++ [text]) = commaText texts ++ (separator texts.isEmpty ++ text)
  := by
  induction texts with
  | nil => rfl
  | cons first texts ih =>
    cases texts with
    | nil => simp [commaText, separator]
    | cons second texts =>
      change first ++ comma :: commaText ((second :: texts) ++ [text]) = _
      rw [ih]
      simp [commaText, separator]

namespace Inside

def opening : Inside → UInt8
  | array _ => leftBracket
  | object _ => leftBrace

def closing : Inside → UInt8
  | array _ => rightBracket
  | object _ => rightBrace

/-- The texts of the elements or members. -/
def texts (level : ℕ) : Inside → List Bytes
  | array vs => vs.map (elementText level)
  | object ms => ms.map (memberText level)

/-- The text from the opening bracket on, without the closing bracket. -/
def text (level : ℕ) (inside : Inside) : Bytes :=
  inside.opening :: commaText (inside.texts level)

end Inside

/-- The text of an open array or object up to the opening bracket of the array or object in
it. -/
def Parent.text (level : ℕ) : Parent → Bytes
  | array vs =>
    (Inside.array vs).text level ++ (separator vs.isEmpty ++ indent level)
  | object ms name =>
    (Inside.object ms).text level ++ (separator ms.isEmpty ++ (indent level ++ nameText name))

def Parent.closing : Parent → UInt8
  | array _ => rightBracket
  | object _ _ => rightBrace

/-- The text before the current array or object. -/
def parentsText : List Parent → Bytes
  | [] => []
  | parent :: parents => parentsText parents ++ parent.text (parents.length + 1)

namespace Document

/-- The text of what has been written. -/
def done (d : Document) : Bytes :=
  parentsText d.parents ++ d.inside.text (d.parents.length + 1)

/-- The closing brackets of what is open. -/
def closers (d : Document) : Bytes := d.inside.closing :: d.parents.map Parent.closing

end Document

theorem elementsOf_text (level : ℕ) (v : Content .value) (vs : List (Content .value)) :
  ((Content.elementsOf v vs).tree level).text = commaText ((v :: vs).map (elementText level))
  := by
  induction vs generalizing v with
  | nil => simp [Content.elementsOf, Content.tree, Tree.text, commaText, elementText]
  | cons v' vs ih =>
    have hrest := ih v'
    simp only [List.map_cons] at hrest
    simp [Content.elementsOf, Content.tree, Tree.text, commaText, elementText, hrest]

theorem membersOf_text (level : ℕ) (m : Bytes × Content .value)
    (ms : List (Bytes × Content .value)) :
  ((Content.membersOf m ms).tree level).text = commaText ((m :: ms).map (memberText level))
  := by
  induction ms generalizing m with
  | nil =>
    simp [Content.membersOf, Content.tree, Tree.text, commaText, memberText, nameText]
  | cons m' ms ih =>
    have hrest := ih m'
    simp only [List.map_cons] at hrest
    simp [Content.membersOf, Content.tree, Tree.text, commaText, memberText, nameText, hrest]

/-- The text of the value is the text so far and the closing bracket. -/
theorem Inside.content_text (inside : Inside) (level : ℕ) :
  (inside.content.tree level).text = inside.text (level + 1) ++ [inside.closing]
  := by
  cases inside with
  | array vs =>
    cases vs with
    | nil => rfl
    | cons v vs =>
      simp [Inside.content, Content.tree, Tree.text, elementsOf_text, Inside.text,
        Inside.opening, Inside.closing, Inside.texts]
  | object ms =>
    cases ms with
    | nil => rfl
    | cons m ms =>
      simp [Inside.content, Content.tree, Tree.text, membersOf_text, Inside.text,
        Inside.opening, Inside.closing, Inside.texts]

/-- An array or object starts on a new line. -/
theorem Inside.margin_content (inside : Inside) (level : ℕ) :
  inside.content.margin level = indent level
  := by
  cases inside with
  | array vs => cases vs <;> rfl
  | object ms => cases ms <;> rfl

/-- Closing an array or object adds its closing bracket to the text. -/
theorem Parent.plug_text (parent : Parent) (inside : Inside) (level : ℕ) :
  (parent.plug inside.content).text level =
    parent.text level ++ (inside.text (level + 1) ++ [inside.closing])
  := by
  cases parent with
  | array vs =>
    simp only [Parent.plug, Parent.text, Inside.text, Inside.opening, Inside.texts,
      List.map_append, List.map_cons, List.map_nil, commaText_snoc, elementText,
      Inside.margin_content, Inside.content_text, List.isEmpty_map, List.cons_append,
      List.append_assoc]
  | object ms name =>
    simp only [Parent.plug, Parent.text, Inside.text, Inside.opening, Inside.texts,
      List.map_append, List.map_cons, List.map_nil, commaText_snoc, memberText,
      Inside.content_text, List.isEmpty_map, List.cons_append, List.append_assoc]

theorem Parent.closing_plug (parent : Parent) (v : Content .value) :
  (parent.plug v).closing = parent.closing
  := by
  cases parent <;> rfl

/-- What has been written and the closing brackets are the text of the whole document. -/
theorem Document.text_eq (d : Document) :
  d.done ++ d.closers = (d.content.tree 0).text
  := by
  obtain ⟨inside, parents⟩ := d
  change (parentsText parents ++ inside.text (parents.length + 1)) ++
    (inside.closing :: parents.map Parent.closing) = ((contentOf inside parents).tree 0).text
  induction parents generalizing inside with
  | nil =>
    simp [parentsText, Document.contentOf, Inside.content_text]
  | cons parent parents ih =>
    have hplug := ih (parent.plug inside.content)
    rw [Parent.plug_text, Parent.closing_plug] at hplug
    rw [Document.contentOf, ← hplug]
    simp [parentsText]

end Json
