import Zabbix.Library.Digits
import Zabbix.Text.ParamBuffer

/-!
# The command of a user parameter

`replace_param` writes the command of a user parameter with the parameters of the item key in place
of `$1` to `$9`.  It appends one piece after another with `zbx_strlcat`, whose size is that of the
whole buffer, and passes it what has been left of the buffer by the pieces before.
-/

open Ascii Params

namespace UserParameter

abbrev dollar : UInt8 := 0x24

/-- `MAX_STRING_LEN`. -/
abbrev maxStringLen : ℕ := 2048

/-- An `int` converted to `size_t`. -/
def sizeT (n : ℤ) : ℕ := (n % 2 ^ 64).toNat

/-- `zbx_strlcat`: the text in a buffer of `siz` bytes. -/
def zbxStrlcat (dst src : Bytes) (siz : ℕ) : Bytes :=
  if siz ≤ dst.length then dst else dst ++ src.take (siz - dst.length - 1)

/-! ### The check of a parameter -/

/-- `suppressed_chars`. -/
def suppressedChars : Bytes := bytes "\\'\"`*?[]\x7b\x7d~$!&;()<>|#@\n".toList

/-- A suppressed character in the text of the error. -/
def shownChar (c : UInt8) : Bytes :=
  if 0x20 ≤ c ∧ c ≤ 0x7e then [c] else bytes "0x".toList ++ Digits.hexPadded 2 c.toNat

def parameterError : Bytes :=
  bytes "special characters \"".toList ++
    (bytes ", ".toList).intercalate (suppressedChars.map shownChar) ++
    bytes "\" are not allowed in the parameters".toList

/-- `zbx_check_user_parameter`: the error, when there is one. -/
def zbxCheckUserParameter (unsafeParameters : Bool) (param : Bytes) (maxErrorLen : ℕ) :
    Option Bytes :=
  if unsafeParameters then none
  else if suppressedChars.any (· ∈ param) then some (parameterError.take (maxErrorLen - 1))
  else none

/-! ### The command -/

/-- What `replace_param` returns and writes to `out` and `error`. -/
structure Outcome where
  ret : Bool
  out : Bytes
  error : Option Bytes
deriving DecidableEq

/-- The text that is inserted for a digit, in `buf`, and the error of its check. -/
def insertedText (unsafeParameters : Bool) (command param : Bytes) (maxErrorLen : ℕ)
    (buf : Bytes) (d : UInt8) : Option (Option Bytes × Bytes) := do
  let buf ← Buffer.write buf 0 [0]
  if d = 0x30 then
    let buf ← Buffer.write buf 0 (command.take (maxStringLen - 1) ++ [0])
    return (none, buf)
  else
    let (_, buf) ← getParamBuf param ((d.toNat : ℤ) - 0x30) buf maxStringLen
    if 0 ∈ buf then
      return (zbxCheckUserParameter unsafeParameters (Buffer.text buf) maxErrorLen, buf)
    else none

theorem length_behind {pl behind : Bytes} {c : UInt8}
    (h : pl.dropWhile (· ≠ dollar) = c :: behind) :
  behind.length < pl.length
  := by
  have hlength := (List.dropWhile_sublist (l := pl) (· ≠ dollar)).length_le
  rw [h, List.length_cons] at hlength
  exact hlength

/-- The loop of `replace_param` and what follows it.  After an error the text from `pl` on is
appended as it is. -/
def replaceLoop (unsafeParameters : Bool) (command param : Bytes) (maxErrorLen : ℕ)
    (pl buf out : Bytes) (outlen : ℤ) : Option Outcome :=
  match _h : pl.dropWhile (· ≠ dollar) with
  | [] => some ⟨true, zbxStrlcat out pl (sizeT outlen), none⟩
  | _ :: behind =>
    if 0 < outlen then
      let literal := pl.takeWhile (· ≠ dollar)
      let out := zbxStrlcat out literal (sizeT outlen)
      let outlen := outlen - min (literal.length : ℤ) outlen
      match behind with
      | [] =>
        replaceLoop unsafeParameters command param maxErrorLen [] buf
          (zbxStrlcat out [dollar] (sizeT outlen)) (outlen - 1)
      | d :: rest =>
        if isDigit d then do
          let (error, buf) ← insertedText unsafeParameters command param maxErrorLen buf d
          match error with
          | some error => some ⟨false, zbxStrlcat out pl (sizeT outlen), some error⟩
          | none =>
            let text := Buffer.text buf
            replaceLoop unsafeParameters command param maxErrorLen rest buf
              (zbxStrlcat out text (sizeT outlen)) (outlen - min (text.length : ℤ) outlen)
        else
          replaceLoop unsafeParameters command param maxErrorLen
            (if d = dollar then rest else d :: rest) buf
            (zbxStrlcat out [dollar] (sizeT outlen)) (outlen - 1)
    else some ⟨true, zbxStrlcat out pl (sizeT outlen), none⟩
  termination_by pl.length
  decreasing_by
    · exact Nat.zero_lt_of_lt (length_behind _h)
    · exact Nat.lt_of_succ_lt (length_behind _h)
    · refine Nat.lt_of_le_of_lt ?_ (length_behind _h)
      split_ifs
      · exact Nat.le_succ _
      · exact Nat.le_refl _

/-- `replace_param`, where `buf` is what the buffer holds at first. -/
def replaceParam (unsafeParameters : Bool) (cmd param buf : Bytes) (outlen : ℤ)
    (maxErrorLen : ℕ) : Option Outcome :=
  let command := cmd.take (maxStringLen - 1)
  replaceLoop unsafeParameters command param maxErrorLen command buf [] outlen

/-! ### The expansion -/

/-- The command with the references replaced, in one pass: `$1` to `$9` by parameters, `$0` by the
template, and `$$` by a single `$`. -/
def expand (template : Bytes) (param : ℕ → Bytes) : Bytes → Bytes
  | [] => []
  | [c] => [c]
  | c :: d :: rest =>
    if c ≠ dollar then c :: expand template param (d :: rest)
    else if isDigit d then
      (if d = 0x30 then template else param (d.toNat - 0x30)) ++ expand template param rest
    else dollar :: expand template param (if d = dollar then rest else d :: rest)
  termination_by text => text.length
  decreasing_by
    · exact Nat.lt_succ_self _
    · exact Nat.lt_succ_of_lt (Nat.lt_succ_self _)
    · split_ifs
      · exact Nat.lt_succ_of_lt (Nat.lt_succ_self _)
      · exact Nat.lt_succ_self _

/-- What is appended by one call: text of the command, the template, or a parameter. -/
inductive Piece where
  | literal (text : Bytes)
  | template
  | param (n : ℕ)
deriving DecidableEq

namespace Piece

/-- The piece for a digit. -/
def ofDigit (d : UInt8) : Piece := if d = 0x30 then .template else .param (d.toNat - 0x30)

/-- The text of a piece. -/
def text (template : Bytes) (param : ℕ → Bytes) : Piece → Bytes
  | .literal text => text
  | .template => template
  | .param n => param n

end Piece

/-- What is left of a text behind a `$` that is not followed by a digit. -/
def behindDollar : Bytes → Bytes
  | [] => []
  | d :: rest => if d = dollar then rest else d :: rest

/-- The pieces of a command, in the order in which they are appended. -/
def pieces (text : Bytes) : List Piece :=
  match _h : text.dropWhile (· ≠ dollar) with
  | [] => [.literal text]
  | _ :: behind =>
    .literal (text.takeWhile (· ≠ dollar)) ::
      match behind with
      | [] => [.literal [dollar], .literal []]
      | d :: rest =>
        if isDigit d then Piece.ofDigit d :: pieces rest
        else .literal [dollar] :: pieces (if d = dollar then rest else d :: rest)
  termination_by text.length
  decreasing_by
    · exact Nat.lt_of_succ_lt (length_behind _h)
    · refine Nat.lt_of_le_of_lt ?_ (length_behind _h)
      split_ifs
      · exact Nat.le_succ _
      · exact Nat.le_refl _

/-- The command refers to the parameter with the number. -/
def References (cmd : Bytes) (n : ℕ) : Prop := .param n ∈ pieces cmd

/-- A parameter without suppressed characters. -/
def Clean (text : Bytes) : Prop := ∀ c ∈ suppressedChars, c ∉ text

/-- Induction along the `$` of a text. -/
theorem dollar_induction {motive : Bytes → Prop}
    (last : ∀ text, dollar ∉ text → motive text)
    (digit : ∀ left d rest, dollar ∉ left → isDigit d = true → motive rest →
      motive (left ++ dollar :: d :: rest))
    (other : ∀ left behind, dollar ∉ left → (∀ d ∈ behind.head?, isDigit d = false) →
      motive (behindDollar behind) → motive (left ++ dollar :: behind))
    (text : Bytes) :
  motive text
  := by
  induction hlength : text.length using Nat.strong_induction_on generalizing text with
  | _ length ih =>
    subst hlength
    by_cases hdollar : dollar ∈ text
    · obtain ⟨left, behind, rfl, hleft⟩ := List.eq_append_cons_of_mem hdollar
      have hshorter : behind.length < (left ++ dollar :: behind).length := by
        rw [List.length_append, List.length_cons]
        omega
      cases behind with
      | nil =>
        refine other left [] hleft (fun d hd => nomatch hd) ?_
        exact ih _ (Nat.zero_lt_of_lt hshorter) [] rfl
      | cons d rest =>
        rw [List.length_cons] at hshorter
        cases hdigit : isDigit d with
        | true => exact digit left d rest hleft hdigit (ih _ (by omega) _ rfl)
        | false =>
          refine other left (d :: rest) hleft (fun e he => Option.some.inj he ▸ hdigit) ?_
          refine ih _ (Nat.lt_of_le_of_lt ?_ hshorter) _ rfl
          rw [behindDollar]
          split_ifs
          · exact Nat.le_succ _
          · exact Nat.le_refl _
    · exact last text hdollar

section

variable {left : Bytes}

theorem takeWhile_dollar (hleft : dollar ∉ left) (behind : Bytes) :
  (left ++ dollar :: behind).takeWhile (· ≠ dollar) = left
  := by
  rw [List.takeWhile_append_of_pos]
  · simp
  · intro c hc
    simpa using ne_of_mem_of_not_mem hc hleft

theorem dropWhile_dollar (hleft : dollar ∉ left) (behind : Bytes) :
  (left ++ dollar :: behind).dropWhile (· ≠ dollar) = dollar :: behind
  := by
  rw [List.dropWhile_append_of_pos]
  · simp
  · intro c hc
    simpa using ne_of_mem_of_not_mem hc hleft

theorem dropWhile_last {text : Bytes} (h : dollar ∉ text) :
  text.dropWhile (· ≠ dollar) = []
  := by
  rw [List.dropWhile_eq_nil_iff]
  intro c hc
  simpa using ne_of_mem_of_not_mem hc h

theorem pieces_last {text : Bytes} (h : dollar ∉ text) :
  pieces text = [.literal text]
  := by
  rw [pieces]
  split
  · rfl
  · rename_i hbehind
    rw [dropWhile_last h] at hbehind
    contradiction

theorem pieces_digit (hleft : dollar ∉ left) {d : UInt8} (hdigit : isDigit d = true)
    (rest : Bytes) :
  pieces (left ++ dollar :: d :: rest) = .literal left :: Piece.ofDigit d :: pieces rest
  := by
  rw [pieces]
  split
  · rename_i hbehind
    rw [dropWhile_dollar hleft] at hbehind
    contradiction
  · rename_i hbehind
    rw [dropWhile_dollar hleft] at hbehind
    obtain ⟨-, rfl⟩ := List.cons.inj hbehind
    rw [takeWhile_dollar hleft]
    dsimp only
    rw [if_pos hdigit]

theorem pieces_other (hleft : dollar ∉ left) {behind : Bytes}
    (hother : ∀ d ∈ behind.head?, isDigit d = false) :
  pieces (left ++ dollar :: behind) =
    .literal left :: .literal [dollar] :: pieces (behindDollar behind)
  := by
  rw [pieces]
  split
  · rename_i hbehind
    rw [dropWhile_dollar hleft] at hbehind
    contradiction
  · rename_i hbehind
    rw [dropWhile_dollar hleft] at hbehind
    obtain ⟨-, rfl⟩ := List.cons.inj hbehind
    rw [takeWhile_dollar hleft]
    cases behind with
    | nil =>
      rw [behindDollar, pieces_last (List.not_mem_nil)]
    | cons d rest =>
      dsimp only
      rw [if_neg (by simp [hother d rfl]), behindDollar]

variable {template : Bytes} {param : ℕ → Bytes}

theorem expand_append (hleft : dollar ∉ left) (rest : Bytes) :
  expand template param (left ++ rest) = left ++ expand template param rest
  := by
  induction left with
  | nil => rfl
  | cons c left ih =>
    have hc : c ≠ dollar := Ne.symm (List.ne_of_not_mem_cons hleft)
    have hrest := ih (List.not_mem_of_not_mem_cons hleft)
    rw [List.cons_append, List.cons_append, ← hrest]
    generalize left ++ rest = text
    cases text with
    | nil => rw [expand, expand]
    | cons d text => rw [expand, if_pos hc]

theorem expand_digit {d : UInt8} (hdigit : isDigit d = true) (rest : Bytes) :
  expand template param (dollar :: d :: rest) =
    (Piece.ofDigit d).text template param ++ expand template param rest
  := by
  rw [expand, if_neg (by simp), if_pos hdigit, Piece.ofDigit]
  split_ifs <;> rfl

theorem expand_other {behind : Bytes} (hother : ∀ d ∈ behind.head?, isDigit d = false) :
  expand template param (dollar :: behind) =
    dollar :: expand template param (behindDollar behind)
  := by
  cases behind with
  | nil => rw [behindDollar, expand, expand]
  | cons d rest => rw [expand, if_neg (by simp), if_neg (by simp [hother d rfl]), behindDollar]

variable (template param)

/-- The expansion is what the pieces stand for. -/
theorem flatten_pieces (text : Bytes) :
  ((pieces text).map (Piece.text template param)).flatten = expand template param text
  := by
  induction text using dollar_induction with
  | last text hlast =>
    have hexpand : expand template param (text ++ []) = text ++ expand template param [] :=
      expand_append hlast []
    rw [List.append_nil, expand, List.append_nil] at hexpand
    rw [pieces_last hlast, hexpand]
    exact List.append_nil text
  | digit left d rest hleft hdigit ih =>
    rw [pieces_digit hleft hdigit, expand_append hleft, expand_digit hdigit, ← ih]
    rfl
  | other left behind hleft hother ih =>
    rw [pieces_other hleft hother, expand_append hleft, expand_other hother, ← ih]
    rfl

end

end UserParameter
