import Mathlib.Data.List.Basic
import Zabbix.Library.Ascii

/-!
# Global regular expressions

`regexp_sub_ex` tests a text against a pattern or against all expressions of a name, and writes
the text that is to be sent to an output variable.  The functions of the C library are a
parameter; what a match records are the places of its groups.
-/

open Ascii

namespace Regexp

abbrev atSign : UInt8 := 0x40

/-- The flags of `regcomp` that vary; the others are `REG_EXTENDED` and `REG_NEWLINE`. -/
structure Flags where
  icase : Bool
  nosub : Bool
deriving DecidableEq

/-- `regcomp` and `regexec`: the places of the groups when the pattern compiles and matches.
`REG_NOSUB` does not change whether it does. -/
structure RegexLibrary where
  exec : Flags → (pattern text : Bytes) → Option (ℕ → Option (ℕ × ℕ))
  nosub_isSome : ∀ icase pattern text,
    (exec ⟨icase, true⟩ pattern text).isSome = (exec ⟨icase, false⟩ pattern text).isSome

/-- `EXPRESSION_TYPE_INCLUDED` to `EXPRESSION_TYPE_FALSE`. -/
inductive ExpressionType where
  | included | anyIncluded | notIncluded | true | false
deriving DecidableEq

/-- `zbx_expression_t`. -/
structure Expression where
  name : Bytes
  expression : Bytes
  expressionType : ExpressionType
  expDelimiter : UInt8
  caseSensitive : Bool
deriving DecidableEq

/-! ### Texts made from a match -/

/-- The text of a group. -/
def groupText (text : Bytes) : Option (ℕ × ℕ) → Bytes
  | some (so, eo) => (text.drop so).take (eo - so)
  | none => []

/-- The loop of `regexp_sub_replace` over the template, with the text since `pstart`, which is
still to be copied, and what has been written so far; `none` when `\@` finds no first group. -/
def replaceLoop (text : Bytes) (groups : ℕ → Option (ℕ × ℕ)) :
    (pending ptr : Bytes) → Bytes → Option Bytes
  | pending, ptr, [] => some (ptr ++ pending)
  | pending, ptr, [c] => some (ptr ++ (pending ++ [c]))
  | pending, ptr, c :: d :: rest =>
    if c = backslash then
      if d = backslash then replaceLoop text groups [] (ptr ++ (pending ++ [backslash])) rest
      else if isDigit d then
        replaceLoop text groups [] (ptr ++ pending ++ groupText text (groups (d - 0x30).toNat)) rest
      else if d = atSign then
        -- here the text since `pstart` is not copied
        if (groups 1).isNone then none
        else replaceLoop text groups [] (ptr ++ groupText text (groups 1)) rest
      else replaceLoop text groups [] (ptr ++ (pending ++ [backslash])) (d :: rest)
    else replaceLoop text groups (pending ++ [c]) ptr (d :: rest)

/-- `regexp_sub_replace`; an empty template stands for `NULL` as well. -/
def regexpSubReplace (text outputTemplate : Bytes) (groups : ℕ → Option (ℕ × ℕ)) :
    Option Bytes :=
  if outputTemplate = [] then some text else replaceLoop text groups [] [] outputTemplate

/-- `regexp_sub`. -/
def regexpSub (lib : RegexLibrary) (string pattern outputTemplate : Bytes) (icase : Bool) :
    Option Bytes :=
  (lib.exec ⟨icase, outputTemplate = []⟩ pattern string).bind fun groups =>
    regexpSubReplace string outputTemplate groups

/-- `zbx_regexp`: whether there is a match. -/
def zbxRegexp (lib : RegexLibrary) (string pattern : Bytes) (icase : Bool) : Bool :=
  (lib.exec ⟨icase, false⟩ pattern string).isSome

/-! ### Substrings -/

/-- `tolower`. -/
def toLower (c : UInt8) : UInt8 := if 0x41 ≤ c && c ≤ 0x5a then c + 0x20 else c

/-- `strstr`. -/
def strstr (haystack needle : Bytes) : Bool := haystack.tails.any fun p => needle.isPrefixOf p

/-- `zbx_strcasestr`. -/
def zbxStrcasestr (haystack needle : Bytes) : Bool :=
  strstr (haystack.map toLower) (needle.map toLower)

/-- `regexp_match_ex_substring`. -/
def regexpMatchExSubstring (string pattern : Bytes) (caseSensitive : Bool) : Bool :=
  if caseSensitive then strstr string pattern else zbxStrcasestr string pattern

/-- `regexp_match_ex_substring_list`. -/
def regexpMatchExSubstringList (string pattern : Bytes) (caseSensitive : Bool)
    (delimiter : UInt8) : Bool :=
  if pattern = [] then false
  else
    let s := pattern.takeWhile (· ≠ delimiter)
    regexpMatchExSubstring string s caseSensitive ||
      match h : pattern.dropWhile (· ≠ delimiter) with
      | [] => false
      | _ :: rest =>
        have : rest.length < pattern.length := by
          have hle := (List.dropWhile_suffix (· ≠ delimiter) (l := pattern)).length_le
          rw [h, List.length_cons] at hle
          exact hle
        regexpMatchExSubstringList string rest caseSensitive delimiter
termination_by pattern.length

/-! ### The tests -/

/-- `regexp_match_ex_regsub` with an output variable: the result and the variable. -/
def regexpMatchExRegsub (lib : RegexLibrary) (string pattern : Bytes) (caseSensitive : Bool)
    (outputTemplate : Bytes) : Bool × Option Bytes :=
  let ptr := regexpSub lib string pattern outputTemplate (!caseSensitive)
  (ptr.isSome, ptr)

/-- One expression in the loop of `regexp_sub_ex`: the result and the output variable. -/
def testExpression (lib : RegexLibrary) (string outputTemplate : Bytes) (regexp : Expression)
    (output : Option Bytes) : Bool × Option Bytes :=
  match regexp.expressionType with
  | .true =>
    regexpMatchExRegsub lib string regexp.expression regexp.caseSensitive outputTemplate
  | .false => (!zbxRegexp lib string regexp.expression (!regexp.caseSensitive), output)
  | .included =>
    (regexpMatchExSubstring string regexp.expression regexp.caseSensitive, output)
  | .notIncluded =>
    (!regexpMatchExSubstring string regexp.expression regexp.caseSensitive, output)
  | .anyIncluded =>
    (regexpMatchExSubstringList string regexp.expression regexp.caseSensitive
      regexp.expDelimiter, output)

/-- The loop of `regexp_sub_ex` over the expressions of a name. -/
def testLoop (lib : RegexLibrary) (string outputTemplate name : Bytes) :
    List Expression → Bool → Option Bytes → Bool × Option Bytes
  | [], ret, output => (ret, output)
  | regexp :: regexps, ret, output =>
    if regexp.name ≠ name then testLoop lib string outputTemplate name regexps ret output
    else
      let (ret, output) := testExpression lib string outputTemplate regexp output
      if ret then testLoop lib string outputTemplate name regexps ret output
      else (ret, output)

/-- `regexp_sub_ex` up to the label `out`. -/
def testPattern (lib : RegexLibrary) (regexps : List Expression) (string : Bytes)
    (caseSensitive : Bool) (outputTemplate : Bytes) (output : Option Bytes) :
    Bytes → Bool × Option Bytes
  | [] => (true, output)
  | c :: name =>
    if c ≠ atSign then
      regexpMatchExRegsub lib string (c :: name) caseSensitive outputTemplate
    else testLoop lib string outputTemplate name regexps false output

/-- `regexp_sub_ex` with an output variable. -/
def regexpSubEx (lib : RegexLibrary) (regexps : List Expression)
    (string pattern : Bytes) (caseSensitive : Bool) (outputTemplate : Bytes)
    (output : Option Bytes) : Bool × Option Bytes :=
  let (ret, output) := testPattern lib regexps string caseSensitive outputTemplate output pattern
  (ret, if ret && output.isNone then some string else output)

/-! ### Calls that share an output variable -/

/-- The arguments of a call. -/
structure Call where
  regexps : List Expression
  string : Bytes
  pattern : Bytes
  caseSensitive : Bool
  outputTemplate : Bytes

/-- A call with what it finds in the output variable. -/
def Call.result (lib : RegexLibrary) (c : Call) (output : Option Bytes) :
    Bool × Option Bytes :=
  regexpSubEx lib c.regexps c.string c.pattern c.caseSensitive c.outputTemplate output

/-- The output variable after a call: the caller clears it after `SUCCEED`. -/
def Call.next (lib : RegexLibrary) (output : Option Bytes) (c : Call) : Option Bytes :=
  if (c.result lib output).1 then none else (c.result lib output).2

/-- The output variable after the calls; it is `NULL` at first. -/
def outputAfter (lib : RegexLibrary) (calls : List Call) : Option Bytes :=
  calls.foldl (Call.next lib) none

end Regexp
