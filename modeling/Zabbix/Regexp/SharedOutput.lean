import Mathlib.Data.List.Induction
import Mathlib.Tactic.Common
import Zabbix.Regexp.Template

/-!
# Results and outputs of global regular expressions

A call succeeds when the pattern, or every expression of the name, is satisfied, and then writes
the template with its groups replaced, or the whole text.  What it leaves in the output variable
depends on what the earlier calls left there.
-/

open Ascii

namespace Regexp

variable {lib : RegexLibrary}

/-! ### What a call is to do -/

/-- The pattern matches. -/
def Matches (lib : RegexLibrary) (string pattern : Bytes) (icase : Bool) : Prop :=
  (lib.exec ⟨icase, false⟩ pattern string).isSome

/-- The substrings of a list; nothing behind the last delimiter is no substring. -/
def listed (delimiter : UInt8) (pattern : Bytes) : List Bytes :=
  if (pattern.splitOn delimiter).getLast? = some [] then (pattern.splitOn delimiter).dropLast
  else pattern.splitOn delimiter

/-- The expression is satisfied by the text. -/
def Satisfied (lib : RegexLibrary) (string : Bytes) (regexp : Expression) : Prop :=
  match regexp.expressionType with
  | .true => Matches lib string regexp.expression (!regexp.caseSensitive)
  | .false => ¬ Matches lib string regexp.expression (!regexp.caseSensitive)
  | .included => regexpMatchExSubstring string regexp.expression regexp.caseSensitive
  | .notIncluded => ¬ regexpMatchExSubstring string regexp.expression regexp.caseSensitive
  | .anyIncluded => ∃ s ∈ listed regexp.expDelimiter regexp.expression,
      regexpMatchExSubstring string s regexp.caseSensitive

/-- The expressions with the name. -/
def named (regexps : List Expression) (name : Bytes) : List Expression :=
  regexps.filter fun regexp => regexp.name = name

/-- When a call is to succeed. -/
def Call.Accepts (lib : RegexLibrary) (c : Call) : Prop :=
  match c.pattern with
  | [] => True
  | first :: name =>
    if first ≠ atSign then Matches lib c.string c.pattern (!c.caseSensitive)
    else named c.regexps name ≠ [] ∧
      ∀ regexp ∈ named c.regexps name, Satisfied lib c.string regexp

/-- The last expression of the type `Result is TRUE`. -/
def lastTrue (regexps : List Expression) : Option Expression :=
  (regexps.filter fun regexp => regexp.expressionType = .true).getLast?

/-- The pattern whose groups a call is to replace in the template, and whether its case is
ignored. -/
def Call.replaces (c : Call) : Option (Bytes × Bool) :=
  match c.pattern with
  | [] => none
  | first :: name =>
    if first ≠ atSign then some (c.pattern, !c.caseSensitive)
    else (lastTrue (named c.regexps name)).map fun regexp =>
      (regexp.expression, !regexp.caseSensitive)

/-- What a call that succeeds is to write. -/
def Call.expected (lib : RegexLibrary) (c : Call) : Option Bytes :=
  match c.replaces with
  | none => some c.string
  | some (pattern, icase) =>
    (lib.exec ⟨icase, false⟩ pattern c.string).map (substituted c.string c.outputTemplate)

/-- With what it finds in the output variable, a call succeeds exactly when it is to, and then
writes what it is to write, else nothing. -/
def Call.Meets (lib : RegexLibrary) (c : Call) (output : Option Bytes) : Prop :=
  ((c.result lib output).1 ↔ c.Accepts lib) ∧
    (c.result lib output).2 = if (c.result lib output).1 then c.expected lib else none

/-- Every one of the calls that share an output variable does so. -/
def Meets (lib : RegexLibrary) (calls : List Call) : Prop :=
  ∀ before c after, calls = before ++ c :: after → c.Meets lib (outputAfter lib before)

/-! ### Where it differs -/

/-- Every match has a first group where the template asks for it. -/
def Grouped (lib : RegexLibrary) (string pattern : Bytes) (icase : Bool)
    (outputTemplate : Bytes) : Prop :=
  ∀ groups ∈ lib.exec ⟨icase, false⟩ pattern string, AsksGroup outputTemplate →
    (groups 1).isSome

/-- The expression is satisfied, with a first group where the template asks for it. -/
def Passes (lib : RegexLibrary) (string outputTemplate : Bytes) (regexp : Expression) : Prop :=
  Satisfied lib string regexp ∧ (regexp.expressionType = .true →
    Grouped lib string regexp.expression (!regexp.caseSensitive) outputTemplate)

/-- The plain pattern, or the expressions of the name, have a first group where the template asks
for it. -/
def Call.Grouped (lib : RegexLibrary) (c : Call) : Prop :=
  match c.pattern with
  | [] => True
  | first :: name =>
    if first ≠ atSign then
      Regexp.Grouped lib c.string c.pattern (!c.caseSensitive) c.outputTemplate
    else ∀ regexp ∈ named c.regexps name, regexp.expressionType = .true →
      Regexp.Grouped lib c.string regexp.expression (!regexp.caseSensitive) c.outputTemplate

/-- An expression of the type `Result is TRUE` is satisfied before one of another type that is
not. -/
def Call.WritesEarly (lib : RegexLibrary) (c : Call) : Prop :=
  ∃ name front late after, c.pattern = atSign :: name ∧
    named c.regexps name = front ++ late :: after ∧
    (∃ early ∈ front, early.expressionType = .true) ∧ late.expressionType ≠ .true ∧
    (∀ regexp ∈ front, Passes lib c.string c.outputTemplate regexp) ∧
    ¬ Satisfied lib c.string late

/-- The call writes nothing before it fails, and when it is to succeed there is a first group
where the template asks for it, and no character directly in front of a `\@` whose group is to be
replaced. -/
structure Call.Regular (lib : RegexLibrary) (c : Call) : Prop where
  notEarly : ¬ c.WritesEarly lib
  grouped : c.Accepts lib → c.Grouped lib
  whole : c.Accepts lib → c.replaces.isSome → ¬ CharBeforeGroup c.outputTemplate

/-! ### The tests -/

/-- What satisfied expressions leave in the output variable: what the last one of the type
`Result is TRUE` yields. -/
def written (lib : RegexLibrary) (string outputTemplate : Bytes) (regexps : List Expression)
    (output : Option Bytes) : Option Bytes :=
  match lastTrue regexps with
  | none => output
  | some regexp =>
    regexpSub lib string regexp.expression outputTemplate (!regexp.caseSensitive)

/-- The first element without a property is the only one with the property before it. -/
theorem first_unique {α : Type} {P : α → Prop} {front front' rest rest' : List α} {x x' : α}
    (hfront : ∀ a ∈ front, P a) (hfront' : ∀ a ∈ front', P a) (hx : ¬ P x) (hx' : ¬ P x')
    (heq : front ++ x :: rest = front' ++ x' :: rest') :
  front = front' ∧ x = x'
  := by
  induction front generalizing front' with
  | nil =>
    cases front' with
    | nil => exact ⟨rfl, (List.cons.inj heq).1⟩
    | cons a front' =>
      obtain ⟨rfl, -⟩ := List.cons.inj heq
      exact absurd (hfront' x (by simp)) hx
  | cons a front ih =>
    cases front' with
    | nil =>
      obtain ⟨rfl, -⟩ := List.cons.inj heq
      exact absurd (hfront a (by simp)) hx'
    | cons a' front' =>
      rw [List.cons_append, List.cons_append, List.cons.injEq] at heq
      obtain ⟨rfl, hrest⟩ := heq
      obtain ⟨rfl, rfl⟩ := ih (List.forall_mem_cons.mp hfront).2
        (List.forall_mem_cons.mp hfront').2 hrest
      exact ⟨rfl, rfl⟩

theorem Meets.of_append {calls calls' : List Call} (h : Meets lib (calls ++ calls')) :
  Meets lib calls
  := by
  rintro before c after rfl
  exact h before c (after ++ calls') (by simp)

end Regexp
