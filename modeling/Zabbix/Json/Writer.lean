import Zabbix.Json.Reader

/-!
# Writing JSON texts

The writer of `json.c`. The buffer always holds the closing brackets of the open objects and
arrays behind the offset, so that its text is complete after every call. Accesses outside of
the allocated buffer have no result.
-/

open Ascii

namespace Json

/-- `zbx_json_status_t`. -/
inductive JsonStatus where
  | empty
  | comma
deriving DecidableEq

/-- `struct zbx_json`. The buffer is all the memory that is allocated for it. -/
structure ZbxJson where
  buffer : Bytes
  bufferAllocated : ℕ
  bufferOffset : ℕ
  bufferSize : ℕ
  status : JsonStatus
  level : ℕ
deriving DecidableEq

/-- The text in the buffer, up to the terminating zero byte. -/
def ZbxJson.text (j : ZbxJson) : Bytes := cString j.buffer

/-! ### Memory -/

/-- Stores bytes from a position on. -/
def store (buffer : Bytes) (p : ℕ) (data : Bytes) : Option Bytes :=
  if p + data.length ≤ buffer.length then
    some (buffer.take p ++ (data ++ buffer.drop (p + data.length)))
  else none

/-- `memmove`. -/
def memmove (buffer : Bytes) (pdst psrc n : ℕ) : Option Bytes :=
  if psrc + n ≤ buffer.length then store buffer pdst ((buffer.drop psrc).take n) else none

/-- `ZBX_JSON_STAT_BUF_LEN`. -/
def jsonStatBufLen : ℕ := 4096

/-- The loop of `__zbx_json_realloc`. -/
def grow (need allocated : ℕ) : ℕ :=
  if allocated < need then grow need (if allocated = 0 then 1024 else allocated * 2)
  else allocated
termination_by need - allocated
decreasing_by
  split <;> omega

section

/- The bytes of memory nothing has been stored in yet, by position. -/
variable (fresh : ℕ → UInt8)

/-- Memory from one position to another nothing has been stored in yet. -/
def freshBytes (first last : ℕ) : Bytes := (List.range' first (last - first)).map fresh

/-- `__zbx_json_realloc` on a buffer that is there: the static buffer is copied into the new
one as `zbx_realloc` does it. -/
def jsonRealloc (j : ZbxJson) (need : ℕ) : ZbxJson :=
  let allocated := grow need j.bufferAllocated
  { j with
    buffer := j.buffer ++ freshBytes fresh j.buffer.length allocated
    bufferAllocated := allocated }

/-! ### Strings -/

/-- `__zbx_json_stringsize` for one byte. -/
def charsize (c : UInt8) : ℕ :=
  if c = quote ∨ c = backslash ∨ c = slash ∨ c = 0x08 ∨ c = 0x0c ∨ c = newline ∨
      c = carriageReturn ∨ c = tab then 2
  else if c < 32 then 6
  else 1

/-- `__zbx_json_stringsize`. -/
def jsonStringsize (string : Option Bytes) (type : JsonType) : ℕ :=
  ((string.getD nullText).map charsize).sum +
    if string ≠ none ∧ type = .string then 2 else 0

/-- `zbx_num2hex`. -/
def num2hex (c : UInt8) : UInt8 := if 10 ≤ c then c + 0x57 else c + 0x30

/-- What `__zbx_json_insstring` stores for one byte. -/
def inschar (c : UInt8) : Bytes :=
  if c = quote then [backslash, quote]
  else if c = backslash then [backslash, backslash]
  else if c = slash then [backslash, slash]
  else if c = 0x08 then [backslash, 'b'.toUInt8]
  else if c = 0x0c then [backslash, 'f'.toUInt8]
  else if c = newline then [backslash, 'n'.toUInt8]
  else if c = carriageReturn then [backslash, 'r'.toUInt8]
  else if c = tab then [backslash, 't'.toUInt8]
  else if c < 32 then
    [backslash, 'u'.toUInt8, '0'.toUInt8, '0'.toUInt8, num2hex (c >>> 4 &&& 0xf),
      num2hex (c &&& 0xf)]
  else [c]

/-- What `__zbx_json_insstring` stores. -/
def jsonInsstring (string : Option Bytes) (type : JsonType) : Bytes :=
  let quotes := if string ≠ none ∧ type = .string then [quote] else []
  quotes ++ ((string.getD nullText).flatMap inschar ++ quotes)

/-! ### Objects, arrays and values -/

/-- `__zbx_json_addobject`. -/
def jsonAddobject (j : ZbxJson) (name : Option Bytes) (object : Bool) : Option ZbxJson := do
  let len := 2 + (if j.status = .comma then 1 else 0) + (if j.level ≠ 0 then 1 else 0) +
    j.level + (if name ≠ none then jsonStringsize name .string + 1 else 0)
  let j := jsonRealloc fresh j (j.bufferSize + len + 1)
  let psrc := j.bufferOffset
  let pdst := j.bufferOffset + len
  let buffer ← memmove j.buffer pdst psrc (j.bufferSize - j.bufferOffset + 1)
  let stored := (if j.status = .comma then [comma] else []) ++
    ((if j.level ≠ 0 then [newline] else []) ++ (List.replicate j.level tab ++
      ((if name ≠ none then jsonInsstring name .string ++ [colon] else []) ++
        [if object then leftBrace else leftBracket])))
  let buffer ← store buffer psrc stored
  let p := psrc + stored.length
  let buffer ← store buffer p [if object then rightBrace else rightBracket]
  return { j with
    buffer := buffer
    bufferOffset := p
    bufferSize := j.bufferSize + len
    level := j.level + 1
    status := .empty }

/-- `zbx_json_addobject`. -/
def zbxJsonAddobject (j : ZbxJson) (name : Option Bytes) : Option ZbxJson :=
  jsonAddobject fresh j name true

/-- `zbx_json_addarray`. -/
def zbxJsonAddarray (j : ZbxJson) (name : Option Bytes) : Option ZbxJson :=
  jsonAddobject fresh j name false

/-- `zbx_json_addstring`. -/
def zbxJsonAddstring (j : ZbxJson) (name string : Option Bytes) (type : JsonType) :
    Option ZbxJson := do
  let len := (if j.status = .comma then 1 else 0) +
    (if name ≠ none then 1 + j.level + jsonStringsize name .string + 1 else 0) +
    jsonStringsize string type
  let j := jsonRealloc fresh j (j.bufferSize + len + 1)
  let psrc := j.bufferOffset
  let pdst := j.bufferOffset + len
  let buffer ← memmove j.buffer pdst psrc (j.bufferSize - j.bufferOffset + 1)
  let stored := (if j.status = .comma then [comma] else []) ++
    ((if name ≠ none then
      newline :: (List.replicate j.level tab ++ (jsonInsstring name .string ++ [colon]))
    else []) ++ jsonInsstring string type)
  let buffer ← store buffer psrc stored
  return { j with
    buffer := buffer
    bufferOffset := psrc + stored.length
    bufferSize := j.bufferSize + len
    status := .comma }

/-- `zbx_json_adduint64`. -/
def zbxJsonAdduint64 (j : ZbxJson) (name : Option Bytes) (value : UInt64) : Option ZbxJson :=
  zbxJsonAddstring fresh j name (some (decimal value.toNat)) .int

/-- `zbx_json_close`: the top level object stays open. -/
def zbxJsonClose (j : ZbxJson) : ZbxJson :=
  if j.level = 1 then j
  else { j with level := j.level - 1, bufferOffset := j.bufferOffset + 1, status := .comma }

/-- `zbx_json_init`. -/
def zbxJsonInit (allocate : ℕ) : Option ZbxJson := do
  let allocated := if jsonStatBufLen < allocate then allocate else jsonStatBufLen
  let buffer ← store (freshBytes fresh 0 allocated) 0 [0]
  zbxJsonAddobject fresh
    { buffer := buffer
      bufferAllocated := allocated
      bufferOffset := 0
      bufferSize := 0
      status := .empty
      level := 0 } none

/-! ### Runs -/

/-- A call of the writer. -/
inductive Call where
  | addobject (name : Option Bytes)
  | addarray (name : Option Bytes)
  | addstring (name string : Option Bytes) (type : JsonType)
  | adduint64 (name : Option Bytes) (value : UInt64)
  | close
deriving DecidableEq

/-- The state behind a call. -/
def ZbxJson.step (j : ZbxJson) : Call → Option ZbxJson
  | .addobject name => zbxJsonAddobject fresh j name
  | .addarray name => zbxJsonAddarray fresh j name
  | .addstring name string type => zbxJsonAddstring fresh j name string type
  | .adduint64 name value => zbxJsonAdduint64 fresh j name value
  | .close => some (zbxJsonClose j)

/-- The state behind `zbx_json_init` and a sequence of calls. -/
def written (allocate : ℕ) (calls : List Call) : Option ZbxJson :=
  (zbxJsonInit fresh allocate).bind fun j => calls.foldlM (ZbxJson.step fresh) j

end

end Json
