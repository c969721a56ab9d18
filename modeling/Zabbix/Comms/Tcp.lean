import Zabbix.Comms.ByteStream
import Zabbix.Library.Buffer

/-!
# Messages over TCP

`zbx_tcp_send_ext` and `zbx_tcp_recv_ext`.  A message is a header, the length of its payload
and the payload.  The receiver takes what does not begin with the header for a request
without one, which ends where a read returns less than it could have, or with the closing tag
when it is XML.

The first bytes are received in a buffer of `ZBX_STAT_BUF_LEN` bytes; when it is full, they
move to memory that grows.  A buffer is given by the bytes received in it; a zero byte comes
behind them.
-/

open Ascii

namespace Tcp

/-- `ZBX_TCP_HEADER`. -/
def header : Bytes := [0x5a, 0x42, 0x58, 0x44, 0x01]

/-- `ZBX_TCP_HEADER_LEN`. -/
def headerLen : ℕ := 5

/-- `ZBX_STAT_BUF_LEN`. -/
def statBufLen : ℕ := 2048

/-- `ZBX_MAX_RECV_DATA_SIZE`. -/
def maxRecvDataSize : ℕ := 64 * 1048576

/-- `zbx_htole_uint64`: the bytes of a number of 64 bits. -/
def htole (n : ℕ) : Bytes := (List.range 8).map fun i => (n / 256 ^ i).toUInt8

/-- `zbx_letoh_uint64`. -/
def letoh (bytes : Bytes) : ℕ := bytes.foldr (fun byte n => byte.toNat + 256 * n) 0

/-! ### Sending -/

/-- The loop of `zbx_tcp_send_ext`: what is written of `data`, when each write takes as much
as `cuts` says, but at least a byte. -/
def sendLoop (data : Bytes) (cuts : List ℕ) : Bytes :=
  if data.length = 0 then []
  else
    let written := min data.length (max 1 (cuts.headD data.length))
    data.take written ++ sendLoop (data.drop written) cuts.tail
termination_by data.length
decreasing_by
  rw [List.length_drop]
  omega

/-- `zbx_tcp_send_ext`: what is written to the socket. The writes of the header and of the
length take all bytes. -/
def sendExt (protocol : Bool) (data : Bytes) (cuts : List ℕ) : Bytes :=
  (if protocol then header ++ htole data.length else []) ++ sendLoop data cuts

/-! ### Receiving -/

/-- The end of a loop that fills a buffer: what is in the buffer, how many bytes were read and
what is left of the stream. -/
inductive Filled where
  | error
  | done (buf : Bytes) (readBytes : ℕ) (s : ByteStream)
  /-- The loop goes on for ever. -/
  | stuck

/-- The result of `zbx_tcp_recv_ext`: `FAIL`, or the number of bytes and the text. -/
inductive Received where
  | fail
  | received (total : ℕ) (data : Bytes)
  | stuck
deriving DecidableEq

/-- `<req>`. -/
def openingTag : Bytes := [0x3c, 0x72, 0x65, 0x71, 0x3e]

/-- `</req>`. -/
def closingTag : Bytes := [0x3c, 0x2f, 0x72, 0x65, 0x71, 0x3e]

/-- Whether the closing tag is in the text from the tenth byte before the end on. -/
def closes (buf : Bytes) (readBytes : ℕ) : Bool :=
  closingTag <:+: Buffer.text (buf.drop (readBytes - 10))

/-- "fill static buffer". -/
def fillStatic (untilClose : Bool) (expectedLen : ℕ) (buf : Bytes) (s : ByteStream) : Filled :=
  let left := statBufLen - 1 - buf.length
  if buf.length < expectedLen ∧ 0 < left then
    match s.read left with
    | none => .error
    | some (bytes, s) =>
      let buf' := buf ++ bytes
      if bytes.length = 0 then
        -- nothing more will come, and a loop that is not left here reads again
        if untilClose ∨ ¬ openingTag <+: buf' ∨ closes buf' buf'.length then
          .done buf' buf'.length s
        else .stuck
      else if untilClose then fillStatic untilClose expectedLen buf' s
      else if bytes.length < left ∧ (¬ openingTag <+: buf' ∨ closes buf' buf'.length) then
        .done buf' buf'.length s
      else fillStatic untilClose expectedLen buf' s
  else .done buf buf.length s
termination_by statBufLen - buf.length
decreasing_by
  all_goals
    rw [List.length_append]
    omega

/-- "fill dynamic buffer". -/
def fillDynamic (untilClose : Bool) (expectedLen : ℕ) (buf : Bytes) (readBytes : ℕ)
    (s : ByteStream) : Filled :=
  if readBytes < expectedLen then
    match _hread : s.read statBufLen with
    | none => .error
    | some (bytes, s') =>
      -- zbx_strncpy_alloc
      let buf' := buf ++ Buffer.text bytes
      let readBytes := readBytes + bytes.length
      if bytes.length = 0 then
        if untilClose ∨ ¬ openingTag <+: buf' ∨ closes buf' readBytes then
          .done buf' readBytes s'
        else .stuck
      else if untilClose then fillDynamic untilClose expectedLen buf' readBytes s'
      else if bytes.length < statBufLen - 1 ∧
          (¬ openingTag <+: buf' ∨ closes buf' readBytes) then
        .done buf' readBytes s'
      else fillDynamic untilClose expectedLen buf' readBytes s'
  else .done buf readBytes s
termination_by s.unread.length
decreasing_by
  all_goals
    rw [(ByteStream.read_spec ‹s.read statBufLen = _›).1, List.length_append]
    omega

/-- The rest of `zbx_tcp_recv_ext`, when `buf` are the bytes received that may belong to the
payload and `total` those that do not. -/
def recvRest (untilClose : Bool) (expectedLen total : ℕ) (buf : Bytes) (s : ByteStream) :
    Received :=
  -- requests to passive agents end with a newline
  match if buf.getLast? ≠ some newline then fillStatic untilClose expectedLen buf s
      else .done buf buf.length s with
  | .error => .fail
  | .stuck => .stuck
  | .done buf readBytes s =>
    if statBufLen - 1 = readBytes then
      match fillDynamic untilClose expectedLen buf readBytes s with
      | .error => .fail
      | .stuck => .stuck
      | .done buf readBytes _ => .received (total + readBytes) (Buffer.text buf)
    else .received (total + readBytes) (Buffer.text buf)

/-- `zbx_tcp_recv_ext`; `untilClose` is the flag `ZBX_TCP_READ_UNTIL_CLOSE`. -/
def recvExt (untilClose : Bool) (s : ByteStream) : Received :=
  match s.read headerLen with
  | none => .fail
  | some (bytes, s) =>
    if bytes.length = headerLen ∧ bytes = header then
      match s.read 8 with
      | none => .fail
      | some (len, s) =>
        if len.length ≠ 8 then .fail
        else if maxRecvDataSize < letoh len then .fail
        else recvRest true (letoh len) headerLen [] s
    else if if untilClose then bytes.length = 0 else bytes.length < headerLen then
      .received bytes.length (Buffer.text bytes)
    else recvRest untilClose (16 * 1048576) 0 bytes s

end Tcp
