import Zabbix.Library.Digits

/-!
# Scanning

The conversions `%d` and `%x` of `sscanf`, and formats with several of them. A conversion skips
spaces and reads an optional sign and digits. A character of the format other than a conversion
stands for itself.
-/

namespace Scanf

open Ascii

/-- `isspace` -/
def isSpace (c : UInt8) : Bool := c = space || 0x09 ≤ c && c ≤ 0x0d

/-- An optional sign, `true` for a minus, and what follows. -/
def sign : Bytes → Bool × Bytes
  | [] => (false, [])
  | c :: text =>
    if c = minus then (true, text) else if c = plus then (false, text) else (false, c :: text)

/-- What follows an optional `0x`. -/
def skipHexMark : Bytes → Bytes
  | c :: d :: text =>
    if c = '0'.toUInt8 ∧ (d = 'x'.toUInt8 ∨ d = 'X'.toUInt8) then text else c :: d :: text
  | text => text

/-- The number in front of a text, and the text behind it. There has to be a digit. -/
def number (isDigit : UInt8 → Bool) (base : ℕ) (negative : Bool) (text : Bytes) :
    Option (ℤ × Bytes) :=
  let digits := text.takeWhile isDigit
  let value : ℤ := Digits.value base digits
  if digits = [] then none
  else some (if negative then -value else value, text.drop digits.length)

/-- `%d` -/
def decimal (text : Bytes) : Option (ℤ × Bytes) :=
  let (negative, text) := sign (text.dropWhile isSpace)
  number isDigit 10 negative text

/-- `%x` -/
def hex (text : Bytes) : Option (ℤ × Bytes) :=
  let (negative, text) := sign (text.dropWhile isSpace)
  number isHexDigit 16 negative (skipHexMark text)

/-- The numbers a format of `n` conversions with a separator between them reads. It stops at the
first character that does not match. -/
def separated (conversion : Bytes → Option (ℤ × Bytes)) (separator : UInt8) :
    (n : ℕ) → Bytes → List ℤ
  | 0, _ => []
  | n + 1, text =>
    match conversion text with
    | none => []
    | some (value, []) => [value]
    | some (value, c :: rest) =>
      value :: if c = separator then separated conversion separator n rest else []

/-- A number is read up to the first character that is no digit. -/
theorem number_append {isDigit : UInt8 → Bool} {digits : Bytes} (hne : digits ≠ [])
    (hdigits : ∀ c ∈ digits, isDigit c = true) {rest : Bytes}
    (hrest : ∀ c ∈ rest.head?, isDigit c = false) (base : ℕ) (negative : Bool) :
  number isDigit base negative (digits ++ rest)
    = some (if negative then -(Digits.value base digits : ℤ) else Digits.value base digits, rest)
  := by
  have htake : (digits ++ rest).takeWhile isDigit = digits := by
    rw [List.takeWhile_append_of_pos hdigits]
    cases rest with
    | nil => simp
    | cons c rest => rw [List.takeWhile_cons_of_neg (by simp [hrest c rfl]), List.append_nil]
  simp only [number, htake, if_neg hne, List.drop_left]

end Scanf
