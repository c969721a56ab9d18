import Zabbix.Expression.Functions
import Zabbix.Expression.Simple

/-!
# The expressions of triggers

A trigger expression is an expression with references to functions.  The values of the functions
are put into the expressions as texts.

`evaluateExpressions_eq` says what a batch of triggers comes to: each trigger is evaluated from the
text of its own expression with the values of its own functions in place of the references, and
has the first error among them when one is missing, fails, or is not a number. When no function of
the batch is known at all, the references stay in the texts.
-/

open Ascii

namespace Expression

/-! ### Identifiers in texts -/

theorem foldl_digits_le (digits : Bytes) (value : ℕ) :
  value ≤ digits.foldl (fun n c => 10 * n + (c - 0x30).toNat) value
  := by
  induction digits generalizing value with
  | nil => exact le_rfl
  | cons c rest ih =>
    rw [List.foldl_cons]
    exact le_trans (by omega) (ih _)

theorem isUintLoop_eq {digits : Bytes} (hdigits : ∀ c ∈ digits, isDigit c = true) {value len : ℕ}
    (hle : digits.foldl (fun n c => 10 * n + (c - 0x30).toNat) value ≤ maxUint64) :
  isUintLoop value len digits =
    some (digits.foldl (fun n c => 10 * n + (c - 0x30).toNat) value)
  := by
  induction digits generalizing value len with
  | nil => rfl
  | cons c rest ih =>
    obtain ⟨hc, hrest⟩ := List.forall_mem_cons.mp hdigits
    rw [List.foldl_cons] at hle ⊢
    have hvalue := (foldl_digits_le rest (10 * value + (c - 0x30).toNat)).trans hle
    have hfits : ¬ (20 ≤ len + 1 ∧ (maxUint64 - (c - 0x30).toNat) / 10 < value) := by
      rintro ⟨-, hlt⟩
      rw [Nat.div_lt_iff_lt_mul (by decide)] at hlt
      omega
    rw [isUintLoop, if_pos hc]
    simp only [if_neg hfits]
    exact ih hrest hle

theorem isUint64_decimal {n : ℕ} (h : n ≤ maxUint64) :
  isUint64 (decimal n) = some n
  := by
  have hne : decimal n ≠ [] := by
    rw [decimal]
    split
    · exact List.cons_ne_nil _ _
    · simp
  have hvalue := digitsValue_decimal n
  rw [digitsValue] at hvalue
  rw [isUint64, if_neg hne, isUintLoop_eq (isDigit_decimal n) (by rw [hvalue]; exact h), hvalue]

/-! ### The functions of a batch -/

/-- What the tables give: functions have their identifiers, and items are listed once. -/
structure BatchEnv.Sound (env : BatchEnv) : Prop where
  functionid : ∀ functionid, ∀ f ∈ env.functions functionid, f.functionid = functionid
  items : (env.items.map (·.itemid)).Nodup

/-- A function that is evaluated with the row of its item, if there is one. -/
def withItem (env : BatchEnv) (itemid : ℕ) (func : Func) : Func :=
  match env.items.find? (·.itemid = itemid) with
  | none => func
  | some item => evaluateFunc env item func

/-- A function of the configuration, evaluated. -/
def resolveFunc (env : BatchEnv) (triggers : List BatchTrigger) (functionid : ℕ) : Option Func :=
  (env.functions functionid).map fun f => withItem env f.itemid (newFunc triggers f)

/-- The functions with their items. -/
def pairs (ifuncs : List IFunc) : List (ℕ × Func) :=
  ifuncs.flatMap fun ifunc => ifunc.functions.map fun func => (ifunc.itemid, func)

theorem mem_pairs {ifuncs : List IFunc} {pair : ℕ × Func} :
  pair ∈ pairs ifuncs ↔ ∃ ifunc ∈ ifuncs, ifunc.itemid = pair.1 ∧ pair.2 ∈ ifunc.functions
  := by
  obtain ⟨itemid, func⟩ := pair
  simp only [pairs, List.mem_flatMap, List.mem_map, Prod.mk.injEq]
  constructor
  · rintro ⟨ifunc, hmem, func', hfunc, rfl, rfl⟩
    exact ⟨ifunc, hmem, rfl, hfunc⟩
  · rintro ⟨ifunc, hmem, rfl, hfunc⟩
    exact ⟨ifunc, hmem, func, hfunc, rfl, rfl⟩

theorem mem_pairs_addFunction {triggers : List BatchTrigger} {ifuncs : List IFunc}
    {f : TriggerFunction} {pair : ℕ × Func} :
  pair ∈ pairs (addFunction triggers ifuncs f) ↔
    pair ∈ pairs ifuncs ∨ pair = (f.itemid, newFunc triggers f)
  := by
  induction ifuncs with
  | nil => simp [addFunction, pairs]
  | cons ifunc rest ih =>
    rw [addFunction]
    split
    · case isTrue hitem =>
      simp only [pairs, List.flatMap_cons, List.map_append, List.map_cons, List.map_nil,
        List.mem_append, List.mem_singleton, hitem]
      tauto
    · rw [pairs, List.flatMap_cons, List.mem_append, pairs, List.flatMap_cons, List.mem_append]
      rw [pairs] at ih
      rw [ih]
      tauto

theorem mem_pairs_foldl {triggers : List BatchTrigger} {functions : List TriggerFunction}
    {ifuncs : List IFunc} {pair : ℕ × Func} :
  pair ∈ pairs (functions.foldl (addFunction triggers) ifuncs) ↔
    pair ∈ pairs ifuncs ∨ ∃ f ∈ functions, pair = (f.itemid, newFunc triggers f)
  := by
  induction functions generalizing ifuncs with
  | nil => simp
  | cons f rest ih =>
    rw [List.foldl_cons, ih, mem_pairs_addFunction]
    simp only [List.mem_cons, exists_eq_or_imp]
    tauto

theorem mem_pairs_populate {env : BatchEnv} {triggers : List BatchTrigger}
    {functionids : List ℕ} {pair : ℕ × Func} :
  pair ∈ pairs (populateFunctionItems env triggers functionids) ↔
    ∃ functionid ∈ functionids, ∃ f ∈ env.functions functionid,
      pair = (f.itemid, newFunc triggers f)
  := by
  have hsorted : pair ∈ pairs (populateFunctionItems env triggers functionids) ↔
      pair ∈ pairs ((functionids.filterMap env.functions).foldl (addFunction triggers) []) := by
    simp only [mem_pairs, populateFunctionItems, List.mem_map, List.mem_insertionSort]
    constructor
    · rintro ⟨_, ⟨ifunc, hmem, rfl⟩, hitem, hfunc⟩
      exact ⟨ifunc, hmem, hitem, (List.mem_insertionSort _).mp hfunc⟩
    · rintro ⟨ifunc, hmem, hitem, hfunc⟩
      exact ⟨_, ⟨ifunc, hmem, rfl⟩, hitem, (List.mem_insertionSort _).mpr hfunc⟩
  rw [hsorted, mem_pairs_foldl]
  constructor
  · rintro (hmem | ⟨f, hf, rfl⟩)
    · contradiction
    · obtain ⟨functionid, hid, hf⟩ := List.mem_filterMap.mp hf
      exact ⟨functionid, hid, f, hf, rfl⟩
  · rintro ⟨functionid, hid, f, hf, rfl⟩
    exact Or.inr ⟨f, List.mem_filterMap.mpr ⟨functionid, hid, hf⟩, rfl⟩

theorem pairs_evaluateItem (env : BatchEnv) (ifuncs : List IFunc) (item : ItemRow) :
  pairs (evaluateItem env ifuncs item) = (pairs ifuncs).map fun (itemid, func) =>
    (itemid, if itemid = item.itemid then evaluateFunc env item func else func)
  := by
  rw [pairs, pairs, evaluateItem, List.flatMap_map, List.map_flatMap]
  congr 1
  funext ifunc
  split
  · case isTrue hitem => simp [hitem]
  · case isFalse hitem => simp [hitem]

theorem pairs_evaluateItems (env : BatchEnv) {items : List ItemRow}
    (hnodup : (items.map (·.itemid)).Nodup) (ifuncs : List IFunc) :
  pairs (items.foldl (evaluateItem env) ifuncs) = (pairs ifuncs).map fun (itemid, func) =>
    (itemid, match items.find? (·.itemid = itemid) with
      | none => func
      | some item => evaluateFunc env item func)
  := by
  induction items generalizing ifuncs with
  | nil => simp
  | cons item rest ih =>
    rw [List.map_cons, List.nodup_cons] at hnodup
    rw [List.foldl_cons, ih hnodup.2, pairs_evaluateItem, List.map_map]
    congr 1
    funext pair
    obtain ⟨itemid, func⟩ := pair
    simp only [Function.comp_apply, List.find?_cons, Prod.mk.injEq, true_and]
    by_cases hitem : item.itemid = itemid
    · have hnone : rest.find? (·.itemid = itemid) = none := by
        rw [List.find?_eq_none]
        intro item' hmem
        rw [decide_eq_true_eq, ← hitem]
        intro heq
        exact hnodup.1 (heq ▸ List.mem_map_of_mem hmem)
      simp [hitem, hnone]
    · have hitem' : ¬ itemid = item.itemid := fun heq => hitem heq.symm
      simp [hitem, hitem']

theorem pairs_evaluateItemFunctions {env : BatchEnv} (henv : env.Sound) (ifuncs : List IFunc) :
  pairs (evaluateItemFunctions env ifuncs) =
    (pairs ifuncs).map fun (itemid, func) => (itemid, withItem env itemid func)
  := by
  have hnodup : ((env.items.filter fun item =>
      decide (item.itemid ∈ ifuncs.map (·.itemid))).map (·.itemid)).Nodup :=
    (List.filter_sublist.map _).nodup henv.items
  rw [evaluateItemFunctions, pairs_evaluateItems env hnodup]
  apply List.map_congr_left
  rintro ⟨itemid, func⟩ hpair
  obtain ⟨ifunc, hmem, rfl, -⟩ := mem_pairs.mp hpair
  have hfind : (env.items.filter fun item => decide (item.itemid ∈ ifuncs.map (·.itemid))).find?
      (·.itemid = ifunc.itemid) = env.items.find? (·.itemid = ifunc.itemid) := by
    rw [List.find?_filter]
    congr 1
    funext item
    have hmem' : ifunc.itemid ∈ ifuncs.map (·.itemid) := List.mem_map_of_mem hmem
    by_cases hitem : item.itemid = ifunc.itemid
    · simp [hitem, hmem']
    · simp [hitem]
  simp only [hfind]
  rfl

theorem evaluateFunc_functionid (env : BatchEnv) (item : ItemRow) (func : Func) :
  (evaluateFunc env item func).functionid = func.functionid
  := by
  rw [evaluateFunc]
  split
  · rfl
  · split <;> rfl

theorem withItem_functionid (env : BatchEnv) (itemid : ℕ) (func : Func) :
  (withItem env itemid func).functionid = func.functionid
  := by
  rw [withItem]
  split
  · rfl
  · apply evaluateFunc_functionid

/-- A function that was collected is found evaluated. -/
theorem getFunc_eq {env : BatchEnv} (henv : env.Sound) (triggers : List BatchTrigger)
    {functionids : List ℕ} {functionid : ℕ} (hmem : functionid ∈ functionids) :
  getFunc (evaluateItemFunctions env (populateFunctionItems env triggers functionids)) functionid =
    resolveFunc env triggers functionid
  := by
  have hpairs : ∀ pair, pair ∈ pairs (evaluateItemFunctions env
      (populateFunctionItems env triggers functionids)) ↔ ∃ id ∈ functionids,
      ∃ f ∈ env.functions id, pair = (f.itemid, withItem env f.itemid (newFunc triggers f)) := by
    intro pair
    rw [pairs_evaluateItemFunctions henv, List.mem_map]
    constructor
    · rintro ⟨pair', hpair', rfl⟩
      obtain ⟨id, hid, f, hf, rfl⟩ := mem_pairs_populate.mp hpair'
      exact ⟨id, hid, f, hf, rfl⟩
    · rintro ⟨id, hid, f, hf, rfl⟩
      exact ⟨_, mem_pairs_populate.mpr ⟨id, hid, f, hf, rfl⟩, rfl⟩
  have hid : ∀ id, ∀ f ∈ env.functions id,
      (withItem env f.itemid (newFunc triggers f)).functionid = id := by
    intro id f hf
    rw [withItem_functionid]
    exact henv.functionid id f hf
  cases hget : getFunc (evaluateItemFunctions env
      (populateFunctionItems env triggers functionids)) functionid with
  | none =>
    rw [getFunc, List.findSome?_eq_none_iff] at hget
    cases hf : env.functions functionid with
    | none => rw [resolveFunc, hf, Option.map_none]
    | some f =>
      obtain ⟨ifunc, hifunc, -, hfunc⟩ := mem_pairs.mp
        ((hpairs _).mpr ⟨functionid, hmem, f, hf, rfl⟩)
      have hnone := List.find?_eq_none.mp (hget ifunc hifunc) _ hfunc
      rw [hid functionid f hf] at hnone
      simp at hnone
  | some func =>
    rw [getFunc] at hget
    obtain ⟨ifunc, hifunc, hfind⟩ := List.exists_of_findSome?_eq_some hget
    have hfunctionid : func.functionid = functionid := by simpa using List.find?_some hfind
    obtain ⟨id, -, f, hf, heq⟩ := (hpairs (ifunc.itemid, func)).mp
      (mem_pairs.mpr ⟨ifunc, hifunc, rfl, List.mem_of_find?_eq_some hfind⟩)
    obtain ⟨-, rfl⟩ := Prod.mk.inj heq
    rw [hid id f hf] at hfunctionid
    rw [← hfunctionid, resolveFunc, hf, Option.map_some]

theorem populateFunctionItems_eq_nil {env : BatchEnv} {triggers : List BatchTrigger}
    {functionids : List ℕ} (h : populateFunctionItems env triggers functionids = []) :
  ∀ functionid ∈ functionids, env.functions functionid = none
  := by
  intro functionid hmem
  cases hf : env.functions functionid with
  | none => rfl
  | some f =>
    have hpair : (f.itemid, newFunc triggers f) ∈
        pairs (populateFunctionItems env triggers functionids) :=
      mem_pairs_populate.mpr ⟨functionid, hmem, f, hf, rfl⟩
    rw [h] at hpair
    contradiction

/-! ### Expressions with references -/

/-- An expression in which functions are referred to. -/
inductive TriggerExpr where
  | ref (functionid : ℕ)
  | number (n : Number)
  | neg (e : TriggerExpr)
  | paren (e : TriggerExpr)
  | binary (op : Operator) (left right : TriggerExpr)

namespace TriggerExpr

def text : TriggerExpr → Bytes
  | ref functionid => leftBrace :: (decimal functionid ++ [rightBrace])
  | number n => n.text
  | neg e => minus :: e.text
  | paren e => leftParen :: (e.text ++ [rightParen])
  | binary op left right => left.text ++ op.char :: right.text

def level : TriggerExpr → ℕ
  | ref _ => 12
  | number _ => 12
  | neg _ => 11
  | paren _ => 12
  | binary op _ _ => op.priority

/-- The operands need no parentheses, and the identifiers are 64-bit numbers. -/
def WellFormed : TriggerExpr → Prop
  | ref functionid => functionid ≤ maxUint64
  | number _ => True
  | neg e => 11 ≤ e.level ∧ e.WellFormed
  | paren e => e.WellFormed
  | binary op left right =>
    (if op.FromRight then op.priority ≤ left.level ∧ op.priority + 1 ≤ right.level
      else op.priority + 1 ≤ left.level ∧ op.priority ≤ right.level) ∧
    left.WellFormed ∧ right.WellFormed

/-- The functions, in the order of the text. -/
def refs : TriggerExpr → List ℕ
  | ref functionid => [functionid]
  | number _ => []
  | neg e => e.refs
  | paren e => e.refs
  | binary _ left right => left.refs ++ right.refs

/-- The text with the values of the functions in place of the references. -/
def pasted (value : ℕ → Except TriggerError Bytes) : TriggerExpr → Except TriggerError Bytes
  | ref functionid => value functionid
  | number n => .ok n.text
  | neg e => (e.pasted value).map (minus :: ·)
  | paren e => (e.pasted value).map fun text => leftParen :: (text ++ [rightParen])
  | binary op left right =>
    (left.pasted value).bind fun left => (right.pasted value).map fun right =>
      left ++ op.char :: right

end TriggerExpr

/-! ### The text of an expression -/

theorem strchr_behind {c : UInt8} {left : Bytes} (h : c ∉ left) (text : Bytes) :
  strchr c (left ++ text) = (strchr c text).map fun (before, rest) => (left ++ before, rest)
  := by
  induction left with
  | nil => simp
  | cons cur left ih =>
    rw [List.mem_cons, not_or] at h
    rw [List.cons_append, strchr, if_neg fun heq => h.1 heq.symm, ih h.2, Option.map_map]
    rfl

theorem brace_not_mem_decimal (n : ℕ) :
  rightBrace ∉ decimal n
  := by
  intro hmem
  have hreject : ¬ isDigit rightBrace = true := by decide
  exact hreject (isDigit_decimal n _ hmem)

theorem extractFunctionids_none {text : Bytes} (h : strchr leftBrace text = none) :
  extractFunctionids text = some []
  := by
  rw [extractFunctionids.eq_def]
  split
  · rfl
  · case h_2 hsome =>
    rw [h] at hsome
    contradiction

theorem extractFunctionids_unclosed {text before rest : Bytes}
    (hopen : strchr leftBrace text = some (before, rest)) (hclose : strchr rightBrace rest = none) :
  extractFunctionids text = none
  := by
  rw [extractFunctionids.eq_def]
  split
  · case h_1 hnone =>
    rw [hopen] at hnone
    contradiction
  · case h_2 hsome =>
    obtain ⟨-, rfl⟩ := Prod.mk.inj (Option.some.inj (hopen.symm.trans hsome))
    split
    · rfl
    · case h_2 hsome' =>
      rw [hclose] at hsome'
      contradiction

theorem extractFunctionids_some {text before rest id rest' : Bytes}
    (hopen : strchr leftBrace text = some (before, rest))
    (hclose : strchr rightBrace rest = some (id, rest')) :
  extractFunctionids text =
    (isUint64 id).bind fun functionid => (extractFunctionids rest').map (functionid :: ·)
  := by
  rw [extractFunctionids.eq_def]
  split
  · case h_1 hnone =>
    rw [hopen] at hnone
    contradiction
  · case h_2 hsome =>
    obtain ⟨-, rfl⟩ := Prod.mk.inj (Option.some.inj (hopen.symm.trans hsome))
    split
    · case h_1 hnone =>
      rw [hclose] at hnone
      contradiction
    · case h_2 hsome' =>
      obtain ⟨rfl, rfl⟩ := Prod.mk.inj (Option.some.inj (hclose.symm.trans hsome'))
      cases isUint64 id with
      | none => rfl
      | some functionid => rfl

theorem extractFunctionids_behind {left : Bytes} (h : leftBrace ∉ left) (text : Bytes) :
  extractFunctionids (left ++ text) = extractFunctionids text
  := by
  have hleft := strchr_behind h text
  cases hopen : strchr leftBrace text with
  | none =>
    rw [hopen, Option.map_none] at hleft
    rw [extractFunctionids_none hopen, extractFunctionids_none hleft]
  | some parts =>
    obtain ⟨before, rest⟩ := parts
    rw [hopen, Option.map_some] at hleft
    cases hclose : strchr rightBrace rest with
    | none =>
      rw [extractFunctionids_unclosed hopen hclose, extractFunctionids_unclosed hleft hclose]
    | some parts =>
      rw [extractFunctionids_some hopen hclose, extractFunctionids_some hleft hclose]

theorem strchr_ref (functionid : ℕ) (text : Bytes) :
  strchr leftBrace (leftBrace :: (decimal functionid ++ rightBrace :: text)) =
      some ([], decimal functionid ++ rightBrace :: text) ∧
    strchr rightBrace (decimal functionid ++ rightBrace :: text) = some (decimal functionid, text)
  := by
  rw [strchr, if_pos rfl]
  exact ⟨rfl, strchr_append (brace_not_mem_decimal functionid) text⟩

theorem extractFunctionids_ref {functionid : ℕ} (h : functionid ≤ maxUint64) (text : Bytes) :
  extractFunctionids (leftBrace :: (decimal functionid ++ rightBrace :: text)) =
    (extractFunctionids text).map (functionid :: ·)
  := by
  obtain ⟨hopen, hclose⟩ := strchr_ref functionid text
  rw [extractFunctionids_some hopen hclose, isUint64_decimal h, Option.bind_some]

theorem substituteResults_none {ifuncs : List IFunc} {text : Bytes}
    (h : strchr leftBrace text = none) :
  substituteResults ifuncs text = .ok text
  := by
  rw [substituteResults.eq_def]
  split
  · rfl
  · case h_2 hsome =>
    rw [h] at hsome
    contradiction

theorem substituteResults_unclosed {ifuncs : List IFunc} {text before rest : Bytes}
    (hopen : strchr leftBrace text = some (before, rest)) (hclose : strchr rightBrace rest = none) :
  substituteResults ifuncs text =
    .error (.text (bytes "Invalid trigger expression".toList))
  := by
  rw [substituteResults.eq_def]
  split
  · case h_1 hnone =>
    rw [hopen] at hnone
    contradiction
  · case h_2 hsome =>
    obtain ⟨-, rfl⟩ := Prod.mk.inj (Option.some.inj (hopen.symm.trans hsome))
    split
    · rfl
    · case h_2 hsome' =>
      rw [hclose] at hsome'
      contradiction

theorem substituteResults_some {ifuncs : List IFunc} {text before rest id rest' : Bytes}
    (hopen : strchr leftBrace text = some (before, rest))
    (hclose : strchr rightBrace rest = some (id, rest')) :
  substituteResults ifuncs text =
    (funcValue ((isUint64 id).getD 0) (getFunc ifuncs ((isUint64 id).getD 0))).bind fun value =>
      (substituteResults ifuncs rest').map fun out => before ++ (value ++ out)
  := by
  rw [substituteResults.eq_def]
  split
  · case h_1 hnone =>
    rw [hopen] at hnone
    contradiction
  · case h_2 hsome =>
    obtain ⟨rfl, rfl⟩ := Prod.mk.inj (Option.some.inj (hopen.symm.trans hsome))
    split
    · case h_1 hnone =>
      rw [hclose] at hnone
      contradiction
    · case h_2 hsome' =>
      obtain ⟨rfl, rfl⟩ := Prod.mk.inj (Option.some.inj (hclose.symm.trans hsome'))
      dsimp only
      cases funcValue ((isUint64 id).getD 0) (getFunc ifuncs ((isUint64 id).getD 0)) with
      | error error => rfl
      | ok value => cases substituteResults ifuncs rest' <;> rfl

theorem substituteResults_behind {ifuncs : List IFunc} {left : Bytes} (h : leftBrace ∉ left)
    (text : Bytes) :
  substituteResults ifuncs (left ++ text) = (substituteResults ifuncs text).map (left ++ ·)
  := by
  have hleft := strchr_behind h text
  cases hopen : strchr leftBrace text with
  | none =>
    rw [hopen, Option.map_none] at hleft
    rw [substituteResults_none hopen, substituteResults_none hleft]
    rfl
  | some parts =>
    obtain ⟨before, rest⟩ := parts
    rw [hopen, Option.map_some] at hleft
    cases hclose : strchr rightBrace rest with
    | none =>
      rw [substituteResults_unclosed hopen hclose, substituteResults_unclosed hleft hclose]
      rfl
    | some parts =>
      obtain ⟨id, rest'⟩ := parts
      rw [substituteResults_some hopen hclose, substituteResults_some hleft hclose]
      cases funcValue ((isUint64 id).getD 0) (getFunc ifuncs ((isUint64 id).getD 0)) with
      | error error => rfl
      | ok value =>
        cases substituteResults ifuncs rest' with
        | error error => rfl
        | ok out => simp [Except.bind, Except.map]

theorem substituteResults_ref {ifuncs : List IFunc} {functionid : ℕ} (h : functionid ≤ maxUint64)
    (text : Bytes) :
  substituteResults ifuncs (leftBrace :: (decimal functionid ++ rightBrace :: text)) =
    (funcValue functionid (getFunc ifuncs functionid)).bind fun value =>
      (substituteResults ifuncs text).map (value ++ ·)
  := by
  obtain ⟨hopen, hclose⟩ := strchr_ref functionid text
  rw [substituteResults_some hopen hclose, isUint64_decimal h, Option.getD_some]
  rfl

namespace TriggerExpr

theorem brace_not_mem_number (n : Number) :
  leftBrace ∉ n.text
  := by
  have hreject : ¬ (isDigit leftBrace = true ∨ leftBrace = dot ∨ leftBrace ∈ suffixes) := by
    decide
  exact fun hmem => hreject (n.mem_text hmem)

/-- A character that is not a brace. -/
theorem brace_not_mem_single {c : UInt8} (h : leftBrace ≠ c) :
  leftBrace ∉ [c]
  := fun hmem => h (List.mem_singleton.mp hmem)

theorem brace_ne_operator (op : Operator) :
  leftBrace ≠ op.char
  := by cases op <;> decide

/-- The functions of an expression are collected. -/
theorem extractFunctionids_text {t : TriggerExpr} (h : t.WellFormed) (tail : Bytes) :
  extractFunctionids (t.text ++ tail) = (extractFunctionids tail).map (t.refs ++ ·)
  := by
  have hsingle : ∀ {c : UInt8}, leftBrace ≠ c → ∀ text : Bytes,
      extractFunctionids (c :: text) = extractFunctionids text := fun hc text =>
    extractFunctionids_behind (brace_not_mem_single hc) text
  induction t generalizing tail with
  | ref functionid =>
    rw [text, List.cons_append, List.append_assoc]
    exact extractFunctionids_ref h tail
  | number n =>
    rw [text, extractFunctionids_behind (brace_not_mem_number n)]
    simp [refs]
  | neg t ih => rw [text, List.cons_append, hsingle (by decide), ih h.2, refs]
  | paren t ih =>
    rw [text, List.cons_append, List.append_assoc, hsingle (by decide), ih h, List.singleton_append,
      hsingle (by decide), refs]
  | binary op left right ihl ihr =>
    rw [text, List.append_assoc, List.cons_append, ihl h.2.1, hsingle (brace_ne_operator op),
      ihr h.2.2, refs, Option.map_map]
    congr 1
    funext ids
    exact (List.append_assoc _ _ _).symm

/-- The values of the functions are put into an expression. -/
theorem substituteResults_text {ifuncs : List IFunc} {t : TriggerExpr} (h : t.WellFormed)
    (tail : Bytes) :
  substituteResults ifuncs (t.text ++ tail) =
    (t.pasted fun functionid => funcValue functionid (getFunc ifuncs functionid)).bind fun out =>
      (substituteResults ifuncs tail).map (out ++ ·)
  := by
  have hsingle : ∀ {c : UInt8}, leftBrace ≠ c → ∀ text : Bytes,
      substituteResults ifuncs (c :: text) = (substituteResults ifuncs text).map (c :: ·) :=
    fun hc text => substituteResults_behind (brace_not_mem_single hc) text
  induction t generalizing tail with
  | ref functionid =>
    rw [text, List.cons_append, List.append_assoc]
    exact substituteResults_ref h tail
  | number n =>
    rw [text, substituteResults_behind (brace_not_mem_number n), pasted]
    rfl
  | neg t ih =>
    rw [text, List.cons_append, hsingle (by decide), ih h.2, pasted]
    cases t.pasted fun functionid => funcValue functionid (getFunc ifuncs functionid) with
    | error error => rfl
    | ok out => cases substituteResults ifuncs tail <;> rfl
  | paren t ih =>
    rw [text, List.cons_append, List.append_assoc, hsingle (by decide), ih h, List.singleton_append,
      hsingle (by decide), pasted]
    cases t.pasted fun functionid => funcValue functionid (getFunc ifuncs functionid) with
    | error error => rfl
    | ok out =>
      cases substituteResults ifuncs tail with
      | error error => rfl
      | ok rest => simp [Except.bind, Except.map]
  | binary op left right ihl ihr =>
    rw [text, List.append_assoc, List.cons_append, ihl h.2.1, hsingle (brace_ne_operator op),
      ihr h.2.2, pasted]
    cases left.pasted fun functionid => funcValue functionid (getFunc ifuncs functionid) with
    | error error => rfl
    | ok out =>
      cases right.pasted fun functionid => funcValue functionid (getFunc ifuncs functionid) with
      | error error => rfl
      | ok out' =>
        cases substituteResults ifuncs tail with
        | error error => rfl
        | ok rest => simp [Except.bind, Except.map]

end TriggerExpr

/-! ### A batch of triggers -/

/-- The value of a function of a batch, or why there is none. -/
def functionValue (env : BatchEnv) (triggers : List BatchTrigger) (functionid : ℕ) :
    Except TriggerError Bytes :=
  funcValue functionid (resolveFunc env triggers functionid)

/-- Some function of a batch is in the configuration. -/
def AnyKnown (env : BatchEnv) (exprs : List TriggerExpr) : Prop :=
  ∃ t ∈ exprs, ∃ functionid ∈ t.refs, env.functions functionid ≠ none

instance (env : BatchEnv) (exprs : List TriggerExpr) : Decidable (AnyKnown env exprs) :=
  inferInstanceAs (Decidable (∃ t ∈ exprs, ∃ functionid ∈ t.refs, env.functions functionid ≠ none))

/-- The text that `evaluate` gets.  When no function of the batch is known, the references are
left as they are. -/
def evaluatedText (env : BatchEnv) (triggers : List BatchTrigger) (exprs : List TriggerExpr)
    (t : TriggerExpr) : Except TriggerError Bytes :=
  if AnyKnown env exprs then t.pasted (functionValue env triggers) else .ok t.text

/-- A trigger with its expression: it has no macros, or they have been put in. -/
structure Stands (env : BatchEnv) (trigger : BatchTrigger) (t : TriggerExpr) : Prop where
  prepared : prepareExpression env trigger = .ok t.text
  wellFormed : t.WellFormed

theorem checkExpression_text {t : TriggerExpr} (h : t.WellFormed) :
  checkExpression t.text = .ok (t.text, t.refs)
  := by
  have hids := TriggerExpr.extractFunctionids_text h []
  have hnil : extractFunctionids [] = some [] := extractFunctionids_none rfl
  rw [List.append_nil, hnil, Option.map_some, List.append_nil] at hids
  rw [checkExpression, hids]

theorem TriggerExpr.pasted_congr {value value' : ℕ → Except TriggerError Bytes} {t : TriggerExpr}
    (h : ∀ functionid ∈ t.refs, value functionid = value' functionid) :
  t.pasted value = t.pasted value'
  := by
  induction t with
  | ref functionid => exact h functionid (List.mem_singleton_self _)
  | number n => rfl
  | neg t ih => rw [pasted, pasted, ih h]
  | paren t ih => rw [pasted, pasted, ih h]
  | binary op left right ihl ihr =>
    rw [pasted, pasted, ihl fun id hid => h id (List.mem_append_left _ hid),
      ihr fun id hid => h id (List.mem_append_right _ hid)]

theorem populateFunctionItems_unknown {env : BatchEnv} (triggers : List BatchTrigger)
    {functionids : List ℕ} (h : ∀ functionid ∈ functionids, env.functions functionid = none) :
  populateFunctionItems env triggers functionids = []
  := by
  have hnil : functionids.filterMap env.functions = [] := List.filterMap_eq_nil_iff.mpr h
  rw [populateFunctionItems, hnil]
  rfl

/-- The functions are put into the expressions of a batch. -/
theorem substituteFunctions_eq {env : BatchEnv} (henv : env.Sound) (triggers : List BatchTrigger)
    {exprs : List TriggerExpr} (hwf : ∀ t ∈ exprs, t.WellFormed) :
  substituteFunctions env triggers (exprs.map fun t => .ok (t.text, t.refs)) =
    exprs.map (evaluatedText env triggers exprs)
  := by
  have hmem : ∀ functionid, functionid ∈ collectFunctionids (exprs.map fun t =>
      .ok (t.text, t.refs)) ↔ ∃ t ∈ exprs, functionid ∈ t.refs := by
    intro functionid
    rw [collectFunctionids, List.mem_insertionSort, List.mem_dedup, List.flatMap_map,
      List.mem_flatMap]
  rw [substituteFunctions]
  generalize collectFunctionids (exprs.map fun t => .ok (t.text, t.refs)) = functionids at hmem ⊢
  have hskip : functionids = [] ∨ populateFunctionItems env triggers functionids = [] ↔
      ¬ AnyKnown env exprs := by
    constructor
    · rintro hnil ⟨t, ht, functionid, href, hknown⟩
      have hin := (hmem functionid).mpr ⟨t, ht, href⟩
      obtain hnil | hnil := hnil
      · rw [hnil] at hin
        contradiction
      · exact hknown (populateFunctionItems_eq_nil hnil functionid hin)
    · intro hunknown
      right
      apply populateFunctionItems_unknown
      intro functionid hin
      obtain ⟨t, ht, href⟩ := (hmem functionid).mp hin
      by_contra hknown
      exact hunknown ⟨t, ht, functionid, href, hknown⟩
  rw [List.map_map]
  apply List.map_congr_left
  intro t ht
  simp only [Function.comp_apply, evaluatedText, hskip]
  by_cases hknown : AnyKnown env exprs
  · rw [if_neg (not_not.mpr hknown), if_pos hknown]
    have hvalues : (t.pasted fun functionid => funcValue functionid (getFunc
        (evaluateItemFunctions env (populateFunctionItems env triggers functionids))
        functionid)) = t.pasted (functionValue env triggers) := by
      apply TriggerExpr.pasted_congr
      intro functionid href
      rw [functionValue, getFunc_eq henv triggers ((hmem functionid).mpr ⟨t, ht, href⟩)]
    have hnil : ∀ ifuncs, substituteResults ifuncs [] = .ok [] := fun _ =>
      substituteResults_none rfl
    rw [← List.append_nil t.text, TriggerExpr.substituteResults_text (hwf t ht), hvalues, hnil]
    cases t.pasted (functionValue env triggers) with
    | error error => rfl
    | ok out => exact congrArg Except.ok (List.append_nil out)
  · rw [if_pos hknown, if_neg hknown]

theorem evaluateExpressions_eq (D : Type*) [CDouble D] {env : BatchEnv} (henv : env.Sound)
    {batch : List (BatchTrigger × TriggerExpr)} (hbatch : ∀ p ∈ batch, Stands env p.1 p.2) :
  evaluateExpressions D env (batch.map (·.1)) = batch.map fun p =>
    (evaluatedText env (batch.map (·.1)) (batch.map (·.2)) p.2).bind (evaluateTrigger D)
  := by
  have hchecked : (batch.map (·.1)).map (checkTrigger env) =
      (batch.map (·.2)).map fun t => .ok (t.text, t.refs) := by
    rw [List.map_map, List.map_map]
    apply List.map_congr_left
    intro p hp
    simp only [Function.comp_apply, checkTrigger, (hbatch p hp).prepared]
    exact checkExpression_text (hbatch p hp).wellFormed
  have hwf : ∀ t ∈ batch.map (·.2), t.WellFormed := by
    intro t ht
    obtain ⟨p, hp, rfl⟩ := List.mem_map.mp ht
    exact (hbatch p hp).wellFormed
  rw [evaluateExpressions, hchecked, substituteFunctions_eq henv _ hwf, List.map_map, List.map_map]
  apply List.map_congr_left
  intro p _
  simp only [Function.comp_apply]
  cases evaluatedText env (batch.map (·.1)) (batch.map (·.2)) p.2 <;> rfl

end Expression
