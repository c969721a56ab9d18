import Mathlib.Data.List.Infix
import Mathlib.Tactic.Common
import Zabbix.Regexp.GlobalRegexp

/-!
# Output templates

A template has characters, escaped backslashes and references to groups, and the text for a match
is made of the texts of these parts. `regexp_sub_replace` writes this text unless the characters in
front of a `\@` are lost, which it does not copy.
-/

open Ascii

namespace Regexp

/-- A part of a template. -/
inductive Part where
  | char (c : UInt8)
  | backslash
  | group (n : ℕ)
  | first
deriving DecidableEq

/-- The parts of a template. A backslash in front of any other character stands for itself. -/
def parts : Bytes → List Part
  | [] => []
  | [c] => [.char c]
  | c :: d :: rest =>
    if c = backslash then
      if d = backslash then .backslash :: parts rest
      else if isDigit d then .group (d - 0x30).toNat :: parts rest
      else if d = atSign then .first :: parts rest
      else .backslash :: parts (d :: rest)
    else .char c :: parts (d :: rest)

/-- The text of a part for a match. -/
def Part.text (string : Bytes) (groups : ℕ → Option (ℕ × ℕ)) : Part → Bytes
  | char c => [c]
  | backslash => [Ascii.backslash]
  | group n => groupText string (groups n)
  | first => groupText string (groups 1)

/-- The template with its groups replaced; an empty one stands for the whole text. -/
def substituted (string outputTemplate : Bytes) (groups : ℕ → Option (ℕ × ℕ)) : Bytes :=
  if outputTemplate = [] then string else (parts outputTemplate).flatMap (Part.text string groups)

/-- The template asks for the first group by `\@`. -/
def AsksGroup (outputTemplate : Bytes) : Prop := Part.first ∈ parts outputTemplate

instance (outputTemplate : Bytes) : Decidable (AsksGroup outputTemplate) :=
  inferInstanceAs (Decidable (_ ∈ _))

/-- A character stands directly in front of a `\@`. -/
def CharBeforeGroup (outputTemplate : Bytes) : Prop :=
  ∃ c, [Part.char c, Part.first] <:+: parts outputTemplate

/-! ### The text that is written -/

section

variable (string : Bytes) (groups : ℕ → Option (ℕ × ℕ))

/-- The text that is written for the parts behind the characters since `pstart`. -/
def kept : (pending : Bytes) → List Part → Bytes
  | pending, [] => pending
  | pending, .char c :: rest => kept (pending ++ [c]) rest
  | pending, .backslash :: rest => pending ++ ([backslash] ++ kept [] rest)
  | pending, .group n :: rest => pending ++ (groupText string (groups n) ++ kept [] rest)
  | _, .first :: rest => groupText string (groups 1) ++ kept [] rest

/-- How many characters are lost, where `pending` stand in front of the parts. -/
def lost : (pending : ℕ) → List Part → ℕ
  | _, [] => 0
  | pending, .char _ :: rest => lost (pending + 1) rest
  | _, .backslash :: rest => lost 0 rest
  | _, .group _ :: rest => lost 0 rest
  | pending, .first :: rest => pending + lost 0 rest

/-- The loop fails exactly when a first group is asked for and there is none. -/
theorem replaceLoop_eq (pending ptr outputTemplate : Bytes) :
  replaceLoop string groups pending ptr outputTemplate =
    if AsksGroup outputTemplate ∧ (groups 1).isNone then none
    else some (ptr ++ kept string groups pending (parts outputTemplate))
  := by
  fun_induction replaceLoop string groups pending ptr outputTemplate with
  | case1 pending ptr => simp [AsksGroup, parts, kept]
  | case2 pending ptr c => simp [AsksGroup, parts, kept]
  | case3 pending ptr rest ih => simp [ih, AsksGroup, parts, kept]
  | case4 pending ptr d rest hback hdigit ih =>
    rw [ih]
    simp [AsksGroup, parts, kept, hback, hdigit]
  | case5 pending ptr rest hnone hback hdigit =>
    simp [AsksGroup, parts, hback, hdigit, hnone]
  | case6 pending ptr rest hsome hback hdigit ih =>
    have hparts : parts (backslash :: atSign :: rest) = .first :: parts rest := by
      simp [parts, hback, hdigit]
    rw [ih, hparts, kept, if_neg fun h => hsome h.2, if_neg fun h => hsome h.2,
      List.append_assoc]
  | case7 pending ptr d rest hback hdigit hat ih =>
    simp [ih, AsksGroup, parts, kept, hback, hdigit, hat]
  | case8 pending ptr c d rest hback ih => simp [ih, AsksGroup, parts, kept, hback]

end

end Regexp
