import Zabbix.Library.Buffer

/-!
# Base64

The encoder and the decoder of `base64.c`.  `strBase64Encode` writes at most
`ZBX_MAX_B64_LEN` characters; `strBase64EncodeDyn` encodes block after block into memory it
allocates, each block where it takes the one before to end.  `strBase64Decode` passes over
characters that do not belong to Base64, collects four of the others at a time and stops when
its buffer is full.
-/

open Ascii

namespace Base64

/-- `ZBX_MAX_B64_LEN`. -/
def maxB64Len : ℕ := 16 * 1024

/-- The padding character. -/
abbrev equals : UInt8 := 0x3d

/-- `is_base64`. -/
def isBase64 (c : UInt8) : Bool :=
  0x41 ≤ c && c ≤ 0x5a || 0x61 ≤ c && c ≤ 0x7a || 0x30 ≤ c && c ≤ 0x39 || c = plus ||
    c = slash || c = equals

/-- `base64_set`. -/
def base64Set : Bytes :=
  "ABCDEFGHIJKLMNOPQRSTUVWXYZabcdefghijklmnopqrstuvwxyz0123456789+/".toUTF8.toList

/-- `char_base64_encode`. -/
def charBase64Encode (uc : UInt8) : UInt8 := base64Set.getD uc.toNat 0

/-- `char_base64_decode`. -/
def charBase64Decode (c : UInt8) : UInt8 :=
  if 0x41 ≤ c ∧ c ≤ 0x5a then c - 0x41
  else if 0x61 ≤ c ∧ c ≤ 0x7a then c - 0x61 + 26
  else if 0x30 ≤ c ∧ c ≤ 0x39 then c - 0x30 + 52
  else if c = plus then 62
  else 63

/-! ### Encoding -/

/-- The first of the four values that three bytes become. -/
def to1 (from1 : UInt8) : UInt8 := (from1 >>> 2) &&& 0x3f

def to2 (from1 from2 : UInt8) : UInt8 := ((from1 &&& 0x3) <<< 4) ||| (from2 >>> 4)

def to3 (from2 from3 : UInt8) : UInt8 := ((from2 &&& 0xf) <<< 2) ||| (from3 >>> 6)

def to4 (from3 : UInt8) : UInt8 := from3 &&& 0x3f

/-- The loop of `str_base64_encode`: the characters written for the bytes from the `i`-th on,
when `written` characters are before them. -/
def encodeLoop (written : ℕ) : Bytes → Bytes
  | [] => []
  | from1 :: rest =>
    if maxB64Len - 5 < written then []
    else
      let from2 := rest.getD 0 0
      let from3 := rest.getD 1 0
      [charBase64Encode (to1 from1), charBase64Encode (to2 from1 from2),
        if 0 < rest.length then charBase64Encode (to3 from2 from3) else equals,
        if 1 < rest.length then charBase64Encode (to4 from3) else equals] ++
        encodeLoop (written + 4) (rest.drop 2)
termination_by bytes => bytes.length
decreasing_by
  rw [List.length_drop, List.length_cons]
  omega

/-- `str_base64_encode`: what it writes to `p_b64str`. -/
def strBase64Encode (str : Bytes) : Bytes :=
  if str.length = 0 then [] else encodeLoop 0 str ++ [0]

/-- `c_per_block`: the number of bytes encoded at a time. -/
def cPerBlock : ℕ := (maxB64Len - 1) / 4 * 3

/-- `b_per_block`: the number of characters they become. -/
def bPerBlock : ℕ := cPerBlock / 3 * 4

/-- The loop over `fullBlockNum` blocks. Returns the bytes that are left, the offset behind
the last block and the buffer. -/
def encodeBlocks : ℕ → Bytes → ℕ → Bytes → Option (Bytes × ℕ × Bytes)
  | 0, pc, offset, buf => some (pc, offset, buf)
  | fullBlockNum + 1, pc, offset, buf =>
    (Buffer.write buf offset (strBase64Encode (pc.take cPerBlock))).bind
      (encodeBlocks fullBlockNum (pc.drop cPerBlock) (offset + bPerBlock))

/-- `str_base64_encode_dyn`: the text in the memory that it allocates, of which `garbage` are
the contents at first; `none` when it writes outside of this memory. The sizes are `int` in the
source: they fit while `(inSize + 2) / 3 * 4 + 1` is below 2^31. -/
def strBase64EncodeDyn (garbage : ℕ → UInt8) (str : Bytes) : Option Bytes :=
  let inSize := str.length
  let buf := (List.range ((inSize + 2) / 3 * 4 + 1)).map garbage
  let fullBlockNum := inSize / cPerBlock
  let bytesLeft := inSize % cPerBlock
  let bytesForLeft := (bytesLeft + 2) / 3 * 4
  (encodeBlocks fullBlockNum str 0 buf).bind fun (pc, offset, buf) =>
    if bytesLeft ≠ 0 then
      (Buffer.write buf offset (strBase64Encode (pc.take bytesLeft))).bind fun buf =>
        (Buffer.write buf (offset + bytesForLeft) [0]).map Buffer.text
    else (Buffer.write buf offset [0]).map Buffer.text

/-! ### Decoding -/

/-- The bytes decoded so far, `p_out_size` of them, and whether the buffer is full. -/
structure Decoded where
  out : Bytes
  full : Bool
deriving DecidableEq

/-- Puts a byte to the buffer of `maxsize` bytes, unless the loop was left before. -/
def Decoded.put (maxsize : ℕ) (available : Bool) (byte : UInt8) (d : Decoded) : Decoded :=
  if d.full || !available then d
  else { out := d.out ++ [byte], full := d.out.length + 1 = maxsize }

/-- Decodes the characters collected in `from`; those that are missing are `A`. -/
def decodeBlock (maxsize : ℕ) (collected : Bytes) (out : Bytes) : Decoded :=
  let char j := collected.getD j 0x41
  let lasti := collected.length - 1
  let value j := charBase64Decode (char j)
  ((({ out := out, full := false } : Decoded).put maxsize (1 ≤ lasti)
    ((value 0 <<< 2) ||| (value 1 >>> 4))).put maxsize (2 ≤ lasti && char 2 ≠ equals)
    (((value 1 &&& 0xf) <<< 4) ||| (value 2 >>> 2))).put maxsize (3 = lasti && char 3 ≠ equals)
    (((value 2 &&& 0x3) <<< 6) ||| value 3)

/-- The loop of `str_base64_decode`: `collected` are the elements of `from` filled in so
far. -/
def decodeLoop (maxsize : ℕ) : Bytes → Bytes → Bytes → Bytes
  | [], collected, out =>
    if collected.length ≠ 0 then (decodeBlock maxsize collected out).out else out
  | c :: rest, collected, out =>
    if isBase64 c then
      let collected := collected ++ [c]
      if collected.length ≤ 3 then decodeLoop maxsize rest collected out
      else
        let d := decodeBlock maxsize collected out
        if d.full then d.out else decodeLoop maxsize rest [] d.out
    else decodeLoop maxsize rest collected out

/-- `str_base64_decode`: the decoded bytes, `p_out_size` of them; `maxsize` is not 0. -/
def strBase64Decode (b64str : Bytes) (maxsize : ℕ) : Bytes :=
  decodeLoop maxsize (Buffer.text b64str) [] []

end Base64
