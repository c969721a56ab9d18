import Zabbix.Json.Reader
import Zabbix.Library.CInt
import Zabbix.Library.Run
import Zabbix.ValueCache.Record

/-!
# The buffer of active checks

Values of active checks wait in a buffer until they are sent to the server.  Values of log
items are persistent: as the position in the log moves on once they are in the buffer, they
may only leave it for the server.  `processValue` first sends the buffer, when it is time to,
and then adds a value; when the buffer is full, the new value takes the place of an older one.

What happens to the sent data is not up to the agent: the connection may fail, or the sending,
or the reception of the answer, and the answer may not say that the server has processed the
values.
-/

open Ascii Json
open ValueCache (Timespec)

namespace Agent

/-- `ZBX_ACTIVE_BUFFER_ELEMENT`. -/
structure BufferElement where
  host : Bytes
  key : Bytes
  value : Option Bytes
  lastlogsize : UInt64
  timestamp : ℤ
  source : Option Bytes
  severity : ℤ
  ts : Timespec
  logeventid : ℤ
  mtime : ℤ
  persistent : Bool
deriving DecidableEq

/-- `ZBX_ACTIVE_BUFFER`: the elements in use, `count` of them, `pcount`, the number of
persistent ones, and when values were last sent and when sending began to fail. -/
structure ActiveBuffer where
  data : List BufferElement
  pcount : ℕ
  lastsent : ℤ
  firstError : ℤ
deriving DecidableEq

/-- `CONFIG_BUFFER_SIZE` and `CONFIG_BUFFER_SEND`. -/
structure BufferConfig where
  bufferSize : ℕ
  bufferSend : ℤ

/-- The buffer of `init_active_metrics`. -/
def ActiveBuffer.init (now : ℤ) : ActiveBuffer where
  data := []
  pcount := 0
  lastsent := now
  firstError := 0

/-! ### Sending -/

/-- `ZBX_PROTO_TAG_RESPONSE`. -/
def tagResponse : Bytes := bytes ['r', 'e', 's', 'p', 'o', 'n', 's', 'e']

/-- `ZBX_PROTO_VALUE_SUCCESS`. -/
def valueSuccess : Bytes := bytes ['s', 'u', 'c', 'c', 'e', 's', 's']

/-- `check_response`; `true` is `SUCCEED`. -/
def checkResponse (response : Bytes) : Bool :=
  match (zbxJsonOpen response).bind (zbxJsonValueByName · tagResponse maxStringLen) with
  | none => false
  | some value => cString value = valueSuccess

/-- What happens when the agent connects to the server, sends the values and receives the
answer `buf`. -/
inductive SendOutcome where
  | connectFails
  | sendFails
  | recvFails
  | received (buf : Option Bytes)

/-- The values were sent. -/
def SendOutcome.Sent : SendOutcome → Prop
  | connectFails => False
  | sendFails => False
  | _ => True

/-- The server has answered that it processed the values. -/
def SendOutcome.Answered : SendOutcome → Prop
  | received (some buf) => checkResponse buf = true
  | _ => False

instance : DecidablePred SendOutcome.Sent
  | .connectFails => isFalse id
  | .sendFails => isFalse id
  | .recvFails => isTrue trivial
  | .received _ => isTrue trivial

instance : DecidablePred SendOutcome.Answered
  | .connectFails => isFalse id
  | .sendFails => isFalse id
  | .recvFails => isFalse id
  | .received none => isFalse id
  | .received (some buf) => inferInstanceAs (Decidable (checkResponse buf = true))

/-- Whether there are values to send and it is time to send them. -/
def ActiveBuffer.sendsNow (config : BufferConfig) (buffer : ActiveBuffer) (now : ℤ) : Bool :=
  buffer.data.length ≠ 0 &&
    !(buffer.pcount < config.bufferSize / 2 && buffer.data.length < config.bufferSize &&
      now - buffer.lastsent < config.bufferSend)

/-- `send_buffer`. -/
def sendBuffer (config : BufferConfig) (buffer : ActiveBuffer) (now : ℤ)
    (outcome : SendOutcome) : ActiveBuffer × Bool :=
  if !buffer.sendsNow config now then (buffer, true)
  else
    match outcome with
    | .connectFails | .sendFails =>
      ({ buffer with firstError := if buffer.firstError = 0 then now else buffer.firstError },
        false)
    | .recvFails | .received _ =>
      -- the answer is only logged
      ({ data := [], pcount := 0, lastsent := now, firstError := 0 }, true)

/-! ### Adding values -/

/-- A call of `process_value`, at a time and with the outcome of the sending in it. -/
structure ValueCall where
  host : Bytes
  key : Bytes
  value : Option Bytes
  lastlogsize : Option UInt64
  mtime : Option ℤ
  timestamp : Option UInt64
  source : Option Bytes
  severity : Option UInt16
  logeventid : Option UInt64
  persistent : Bool
  now : ℤ
  outcome : SendOutcome
  ts : Timespec

/-- The new element. The time stamp and the identifier of the event are of type
`unsigned long` in the call and of type `int` in the element. -/
def ValueCall.element (call : ValueCall) : BufferElement where
  host := call.host
  key := call.key
  value := call.value
  lastlogsize := call.lastlogsize.getD 0
  timestamp := CInt.wrap (call.timestamp.getD 0).toNat
  source := call.source
  severity := (call.severity.getD 0).toNat
  ts := call.ts
  logeventid := CInt.wrap (call.logeventid.getD 0).toNat
  mtime := call.mtime.getD 0
  persistent := call.persistent

/-- Whether an element has the host and the key of the call. -/
def ValueCall.Matches (call : ValueCall) (el : BufferElement) : Bool :=
  el.host = call.host && el.key = call.key

/-- The element of a full buffer that is removed: the first with the same host and key, or the
first that is not persistent. -/
def removedIndex (data : List BufferElement) (call : ValueCall) : ℕ :=
  if call.persistent || data.findIdx call.Matches = data.length then
    data.findIdx fun el => !el.persistent
  else data.findIdx call.Matches

/-- What `process_value` does after the sending. -/
def addValue (config : BufferConfig) (buffer : ActiveBuffer) (call : ValueCall) :
    Option (ActiveBuffer × Bool) :=
  if call.persistent && config.bufferSize / 2 ≤ buffer.pcount then some (buffer, false)
  else
    let pcount := if call.persistent then buffer.pcount + 1 else buffer.pcount
    if buffer.data.length < config.bufferSize then
      some ({ buffer with data := buffer.data ++ [call.element], pcount := pcount }, true)
    else
      let i := removedIndex buffer.data call
      if i < buffer.data.length then
        some ({ buffer with data := buffer.data.eraseIdx i ++ [call.element], pcount := pcount },
          true)
      else none

/-- `process_value`: the buffer, and whether it succeeds; `none` when all elements are in use
and none can be removed. -/
def processValue (config : BufferConfig) (buffer : ActiveBuffer) (call : ValueCall) :
    Option (ActiveBuffer × Bool) :=
  addValue config (sendBuffer config buffer call.now call.outcome).1 call

end Agent
