import Mathlib.Algebra.GroupWithZero.Nat
import Mathlib.Data.List.Basic

/-!
# Bytes

Texts are lists of bytes, without the terminating zero byte. The characters a parser
looks for have names, and the classes of characters are those of the C locale.
-/

abbrev Bytes := List UInt8

namespace Ascii

abbrev tab : UInt8 := 0x09
abbrev newline : UInt8 := 0x0a
abbrev carriageReturn : UInt8 := 0x0d
abbrev space : UInt8 := 0x20
abbrev quote : UInt8 := 0x22
abbrev apostrophe : UInt8 := 0x27
abbrev leftParen : UInt8 := 0x28
abbrev rightParen : UInt8 := 0x29
abbrev plus : UInt8 := 0x2b
abbrev comma : UInt8 := 0x2c
abbrev minus : UInt8 := 0x2d
abbrev dot : UInt8 := 0x2e
abbrev slash : UInt8 := 0x2f
abbrev colon : UInt8 := 0x3a
abbrev equalSign : UInt8 := 0x3d
abbrev leftBracket : UInt8 := 0x5b
abbrev backslash : UInt8 := 0x5c
abbrev rightBracket : UInt8 := 0x5d
abbrev underscore : UInt8 := 0x5f
abbrev leftBrace : UInt8 := 0x7b
abbrev rightBrace : UInt8 := 0x7d

/-- `isdigit`. -/
def isDigit (c : UInt8) : Bool := 0x30 ≤ c && c ≤ 0x39

/-- `isalpha`. -/
def isAlpha (c : UInt8) : Bool := 0x41 ≤ c && c ≤ 0x5a || 0x61 ≤ c && c ≤ 0x7a

/-- `isalnum`. -/
def isAlnum (c : UInt8) : Bool := isDigit c || isAlpha c

/-- `isxdigit`. -/
def isHexDigit (c : UInt8) : Bool :=
  isDigit c || 0x41 ≤ c && c ≤ 0x46 || 0x61 ≤ c && c ≤ 0x66

/-- `iscntrl`. -/
def isControl (c : UInt8) : Bool := c < 0x20 || c = 0x7f

/-- The characters of `ZBX_WHITESPACE`. -/
def isWhitespace (c : UInt8) : Bool :=
  c = space || c = tab || c = carriageReturn || c = newline

/-- `SKIP_WHITESPACE`. -/
def skipWhitespace (text : Bytes) : Bytes := text.dropWhile isWhitespace

/-- The digits `zbx_snprintf` prints for a natural number. -/
def decimal (n : ℕ) : Bytes :=
  if n < 10 then [0x30 + n.toUInt8] else decimal (n / 10) ++ [0x30 + (n % 10).toUInt8]

theorem backslash_ne_quote : backslash ≠ quote := by decide

theorem u_ne_quote : 'u'.toUInt8 ≠ quote := by decide

/-- What holds of every number below 256 as a byte holds of every byte. -/
theorem forall_byte {p : UInt8 → Prop} (h : ∀ n < 256, p (UInt8.ofNat n)) (c : UInt8) :
  p c
  := by
  have hc := h c.toNat c.toNat_lt
  rwa [c.ofNat_toNat] at hc

theorem isDigit_digit (n : ℕ) :
  isDigit (0x30 + (n % 10).toUInt8) = true
  := by
  have hdigit : ∀ d < 10, isDigit (0x30 + d.toUInt8) = true := by decide
  exact hdigit _ (Nat.mod_lt n (by decide))

theorem isDigit_decimal (n : ℕ) :
  ∀ c ∈ decimal n, isDigit c = true
  := by
  fun_induction decimal n with
  | case1 n hlt =>
    intro c hc
    rw [List.mem_singleton.mp hc, ← Nat.mod_eq_of_lt hlt]
    exact isDigit_digit n
  | case2 n hge ih =>
    intro c hc
    obtain hc | hc := List.mem_append.mp hc
    · exact ih c hc
    · rw [List.mem_singleton.mp hc]
      exact isDigit_digit n

/-- The bytes of a text of characters below 256. -/
def bytes (text : List Char) : Bytes := text.map Char.toUInt8

end Ascii
