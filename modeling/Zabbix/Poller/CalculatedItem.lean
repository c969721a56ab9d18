import Zabbix.Expression.Evaluate
import Zabbix.Library.Placeholder
import Zabbix.Text.FunctionCall

/-!
# Calculated items

The formula of a calculated item is copied without its white space and with a placeholder in
the place of every call of a function.  The user macros of the copy are expanded, and the
placeholders are replaced by the values of the functions, one function after the other.
-/

open Ascii FunctionCall

namespace CalculatedItem

abbrev dollar : UInt8 := 0x24

/-- `function_t`, as `calcitem_add_function` sets it up. -/
structure Function where
  functionid : ℕ
  func : Bytes
  params : Bytes
deriving DecidableEq

/-- `expression_t`; a text is missing while nothing has been written to the allocated one. -/
structure Parsed where
  exp : Option Bytes
  functions : List Function

/-- `calcitem_add_function`. -/
def calcitemAddFunction (exp : Parsed) (func params : Bytes) : Parsed × ℕ :=
  let functionid := exp.functions.length + 1
  ({ exp with functions := exp.functions ++ [⟨functionid, func, params⟩] }, functionid)

/-- `zbx_chrcpy_alloc` and `zbx_snprintf_alloc` at the end of the text. -/
def Parsed.write (exp : Parsed) (text : Bytes) : Parsed :=
  { exp with exp := some (exp.exp.getD [] ++ text) }

/-- The text `{%d}` with the identifier of a function. -/
def placeholder (functionid : ℕ) : Bytes := leftBrace :: (decimal functionid ++ [rightBrace])

def isBlank (c : UInt8) : Bool := c ∈ [space, tab, carriageReturn, newline]

/-- The loop of `calcitem_parse_expression`. -/
def calcitemParseLoop : ℕ → Bytes → Parsed → Parsed
  | 0, _, exp => exp
  | _, [], exp => exp
  | fuel + 1, c :: rest, exp =>
    if isBlank c then calcitemParseLoop fuel rest exp
    else
      let call := parseFunction true true (c :: rest)
      if call.ret then
        let (exp, functionid) :=
          calcitemAddFunction exp (call.func.getD []) (call.params.getD [])
        calcitemParseLoop fuel call.exp (exp.write (placeholder functionid))
      else calcitemParseLoop fuel rest (exp.write [c])

/-- `calcitem_parse_expression` before the macros are expanded. -/
def calcitemParse (formula : Bytes) : Parsed :=
  calcitemParseLoop formula.length formula ⟨none, []⟩

/-! ### User macros -/

/-- The text up to the first closing brace. -/
def upToBrace : Bytes → Option Bytes
  | [] => none
  | c :: rest => if c = rightBrace then some [c] else (upToBrace rest).map (c :: ·)

/-- The value of the user macro that the text starts with, and the length of the reference. -/
def macroAt (lookup : Bytes → Option Bytes) : Bytes → Option (Bytes × ℕ)
  | c :: d :: rest =>
    if c = leftBrace ∧ d = dollar then
      (upToBrace rest).bind fun name =>
        (lookup (c :: d :: name)).map fun value => (value, name.length + 2)
    else none
  | _ => none

/-- Replaces references by their values; a value that is no number is an error.  The number
counts the elements of the last reference still to be passed over. -/
def expandLoop {α : Type} (refAt : List α → Option (Bytes × ℕ)) (char : UInt8 → α) :
    ℕ → List α → Option (List α)
  | _, [] => some []
  | n + 1, _ :: rest => expandLoop refAt char n rest
  | 0, c :: rest =>
    match refAt (c :: rest) with
    | some (value, len) =>
      if Expression.isDoubleSuffix value then
        (expandLoop refAt char (len - 1) rest).map (value.map char ++ ·)
      else none
    | none => (expandLoop refAt char 0 rest).map (c :: ·)

/-- `substitute_simple_macros` for `MACRO_TYPE_ITEM_EXPRESSION`; `lookup` is what
`DCget_user_macro` finds for the host of the item. -/
def substituteSimpleMacros (lookup : Bytes → Option Bytes) (data : Bytes) : Option Bytes :=
  expandLoop (macroAt lookup) id 0 data

/-! ### Values -/

/-- `string_replace`. -/
def stringReplace (str subStr1 subStr2 : Bytes) : Bytes :=
  Placeholder.replaceAll subStr1 subStr2 str

/-- `calcitem_evaluate_expression`; `outcome` is the value of a function, missing when it cannot be
evaluated. -/
def calcitemEvaluate (outcome : Function → Option Bytes) (exp : Bytes)
    (functions : List Function) : Option Bytes :=
  functions.foldlM
    (fun exp f => (outcome f).map (stringReplace exp (placeholder f.functionid))) exp

/-- The text that `get_value_calculated` passes to `evaluate`, when it comes so far; `allocated` is
what the allocated text happens to hold. -/
def getValueCalculated (lookup : Bytes → Option Bytes) (outcome : Function → Option Bytes)
    (allocated formula : Bytes) : Option Bytes :=
  let parsed := calcitemParse formula
  (substituteSimpleMacros lookup (parsed.exp.getD allocated)).bind fun exp =>
    calcitemEvaluate outcome exp parsed.functions

/-! ### Pieces of a formula -/

/-- A character of a formula, or a call in it. -/
inductive Piece where
  | char (c : UInt8)
  | call (functionid : ℕ)
deriving DecidableEq

/-- The text of pieces with a text for every call. -/
def textOf (text : ℕ → Bytes) (pieces : List Piece) : Bytes :=
  pieces.flatMap fun
    | .char c => [c]
    | .call functionid => text functionid

/-- A text starts with a call. -/
def StartsWithCall (formula : Bytes) : Prop :=
  ∃ name params behind, IsName name ∧ Outside true params ∧
    formula = name ++ leftParen :: (params ++ rightParen :: behind)

/-- The pieces of a formula and the functions called in it, numbered from `next` on. -/
inductive Cut : (next : ℕ) → Bytes → List Piece → List Function → Prop where
  | nil {next : ℕ} : Cut next [] [] []
  | blank {next : ℕ} {c : UInt8} {rest : Bytes} {pieces : List Piece}
      {functions : List Function} (hblank : isBlank c = true)
      (h : Cut next rest pieces functions) : Cut next (c :: rest) pieces functions
  | call {next : ℕ} {name params behind : Bytes} {pieces : List Piece}
      {functions : List Function} (hname : IsName name) (hparams : Outside true params)
      (h : Cut (next + 1) behind pieces functions) :
      Cut next (name ++ leftParen :: (params ++ rightParen :: behind)) (.call next :: pieces)
        (⟨next, name, params⟩ :: functions)
  | char {next : ℕ} {c : UInt8} {rest : Bytes} {pieces : List Piece}
      {functions : List Function} (hblank : isBlank c = false)
      (hcall : ¬ StartsWithCall (c :: rest)) (h : Cut next rest pieces functions) :
      Cut next (c :: rest) (.char c :: pieces) functions

theorem ret_iff_startsWithCall {formula : Bytes} :
  (parseFunction true true formula).ret = true ↔ StartsWithCall formula
  := by
  constructor
  · intro h
    obtain ⟨name, params, behind, hname, hparams, hformula, -⟩ := parseFunction_eq_true_iff.mp h
    exact ⟨name, params, behind, hname, hparams, hformula⟩
  · rintro ⟨name, params, behind, hname, hparams, rfl⟩
    rw [ret_of_outside hname hparams behind]

/-- Every formula has its pieces. -/
theorem exists_cut (next : ℕ) (formula : Bytes) :
  ∃ pieces functions, Cut next formula pieces functions
  := by
  induction hlength : formula.length using Nat.strong_induction_on generalizing next formula with
  | _ n ih =>
    subst hlength
    match formula with
    | [] => exact ⟨[], [], .nil⟩
    | c :: rest =>
      cases hblank : isBlank c with
      | true =>
        obtain ⟨pieces, functions, h⟩ := ih _ (Nat.lt_succ_self _) next rest rfl
        exact ⟨pieces, functions, .blank hblank h⟩
      | false =>
        by_cases hcall : StartsWithCall (c :: rest)
        · obtain ⟨name, params, behind, hname, hparams, hformula⟩ := hcall
          have hshorter : behind.length < (c :: rest).length := by
            rw [hformula, List.length_append, List.length_cons, List.length_append,
              List.length_cons]
            omega
          obtain ⟨pieces, functions, h⟩ := ih _ hshorter (next + 1) behind rfl
          rw [hformula]
          exact ⟨_, _, .call hname hparams h⟩
        · obtain ⟨pieces, functions, h⟩ := ih _ (Nat.lt_succ_self _) next rest rfl
          exact ⟨_, _, .char hblank hcall h⟩

theorem not_blank_of_isName {name : Bytes} (h : IsName name) :
  ∃ c rest, name = c :: rest ∧ isBlank c = false
  := by
  obtain ⟨c, rest, rfl⟩ := List.exists_cons_of_ne_nil h.1
  have hc : isFunctionChar c = true := h.2 c List.mem_cons_self
  use c, rest, rfl
  by_contra hblank
  have hmem : isBlank c = true := Bool.not_eq_false _ ▸ hblank
  simp only [isBlank, decide_eq_true_eq, List.mem_cons, List.not_mem_nil, or_false] at hmem
  obtain rfl | rfl | rfl | rfl := hmem <;> contradiction

/-- The loop writes the pieces with placeholders in the place of the calls, and appends the
functions called. -/
theorem calcitemParseLoop_cut {next : ℕ} {formula : Bytes} {pieces : List Piece}
    {functions : List Function} (hcut : Cut next formula pieces functions) {fuel : ℕ}
    (hfuel : formula.length ≤ fuel) {exp : Parsed} (hnext : next = exp.functions.length + 1) :
  calcitemParseLoop fuel formula exp =
    ⟨if pieces = [] then exp.exp else some (exp.exp.getD [] ++ textOf placeholder pieces),
      exp.functions ++ functions⟩
  := by
  induction hcut generalizing fuel exp with
  | nil =>
    cases fuel <;> simp [calcitemParseLoop]
  | blank hblank _ ih =>
    cases fuel with
    | zero => cases hfuel
    | succ fuel =>
      rw [calcitemParseLoop, if_pos hblank]
      exact ih (Nat.le_of_succ_le_succ hfuel) hnext
  | @call next name params behind pieces functions hname hparams _ ih =>
    have hread := ret_of_outside hname hparams behind
    obtain ⟨c, rest, rfl, hblank⟩ := not_blank_of_isName hname
    cases fuel with
    | zero => simp at hfuel
    | succ fuel =>
      have hlength : behind.length ≤ fuel := by
        simp only [List.cons_append, List.length_cons, List.length_append] at hfuel
        omega
      rw [List.cons_append] at hread ⊢
      rw [calcitemParseLoop, if_neg (by rw [hblank]; decide)]
      simp only [hread, if_true, Option.getD_some, calcitemAddFunction]
      rw [ih hlength (by simp [Parsed.write, hnext])]
      subst hnext
      by_cases hpieces : pieces = []
      · simp [hpieces, Parsed.write, textOf]
      · simp [hpieces, Parsed.write, textOf]
  | @char next c rest pieces functions hblank hcall _ ih =>
    cases fuel with
    | zero => cases hfuel
    | succ fuel =>
      have hret := mt ret_iff_startsWithCall.mp hcall
      rw [calcitemParseLoop, if_neg (by rw [hblank]; decide)]
      simp only [if_neg hret]
      rw [ih (Nat.le_of_succ_le_succ hfuel)
        (show next = (exp.write [c]).functions.length + 1 from hnext)]
      by_cases hpieces : pieces = []
      · simp [hpieces, Parsed.write, textOf]
      · simp [hpieces, Parsed.write, textOf]

theorem calcitemParse_cut {formula : Bytes} {pieces : List Piece} {functions : List Function}
    (hcut : Cut 1 formula pieces functions) :
  calcitemParse formula =
    ⟨if pieces = [] then none else some (textOf placeholder pieces), functions⟩
  := by
  rw [calcitemParse, calcitemParseLoop_cut hcut le_rfl rfl]
  rfl

/-- The functions of a formula have consecutive identifiers. -/
theorem functionid_of_cut {next : ℕ} {formula : Bytes} {pieces : List Piece}
    {functions : List Function} (hcut : Cut next formula pieces functions) {i : ℕ} {f : Function}
    (h : functions[i]? = some f) :
  f.functionid = next + i
  := by
  induction hcut generalizing i with
  | nil => simp at h
  | blank _ _ ih => exact ih h
  | char _ _ _ ih => exact ih h
  | call _ _ _ ih =>
    cases i with
    | zero =>
      cases h
      rfl
    | succ i =>
      rw [ih h]
      omega

end CalculatedItem
