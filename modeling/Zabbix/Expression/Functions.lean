import Mathlib.Data.List.Dedup
import Mathlib.Data.List.Sort
import Zabbix.Expression.Evaluate

/-!
# Functions in trigger expressions

`evaluate_expressions` evaluates the expressions of many triggers at a time.  It collects the
functions that they refer to by `{functionid}`, groups them by items, evaluates them, puts the
values into the texts of the expressions, and calls `evaluate` for each of them.

Macros, the configuration of functions, the rows of items and `evaluate_function` are
parameters.  `bsearch` in a sorted vector is the search for the element.
-/

open Ascii

namespace Expression

/-- What is used of a row of `DC_FUNCTION`. -/
structure TriggerFunction where
  functionid : ℕ
  triggerid : ℕ
  itemid : ℕ
  function : Bytes
  parameter : Bytes
deriving DecidableEq

/-- What is used of an item and its host. -/
structure ItemRow where
  itemid : ℕ
  hostName : Bytes
  key : Bytes
  itemDisabled : Bool
  notSupported : Bool
  hostNotMonitored : Bool
deriving DecidableEq

/-- What is used of `DC_TRIGGER`. -/
structure BatchTrigger where
  triggerid : ℕ
  expressionOrig : Bytes
  sec : ℤ
deriving DecidableEq

/-- `substitute_simple_macros` in an expression, `DCconfig_get_functions_by_functionids`, the
tables of items and hosts, and `evaluate_function`. -/
structure BatchEnv where
  substituteMacros : BatchTrigger → Bytes → Except Bytes Bytes
  functions : ℕ → Option TriggerFunction
  items : List ItemRow
  evaluateFunction : ItemRow → Bytes → Bytes → ℤ → Option Bytes

/-- `zbx_func_t`. -/
structure Func where
  functionid : ℕ
  triggerid : ℕ
  function : Bytes
  parameter : Bytes
  sec : ℤ
  value : Option Bytes
  error : Option Bytes
deriving DecidableEq

/-- `zbx_ifunc_t`. -/
structure IFunc where
  itemid : ℕ
  functions : List Func
deriving DecidableEq

inductive TriggerValue where
  | ok
  | problem
deriving DecidableEq

/-- Why a trigger is unknown. -/
inductive TriggerError where
  | text (error : Bytes)
  | evaluation (failure : Failure)

/-! ### Identifiers -/

/-- The largest value of `zbx_uint64_t`. -/
def maxUint64 : ℕ := 18446744073709551615

/-- The loop of `is_uint_n_range`. -/
def isUintLoop (value len : ℕ) : Bytes → Option ℕ
  | [] => some value
  | c :: rest =>
    if isDigit c then
      let digit := (c - 0x30).toNat
      if 20 ≤ len + 1 ∧ (maxUint64 - digit) / 10 < value then none
      else isUintLoop (10 * value + digit) (len + 1) rest
    else none

/-- `is_uint64`. -/
def isUint64 (text : Bytes) : Option ℕ := if text = [] then none else isUintLoop 0 0 text

/-! ### Collecting the functions -/

theorem length_strchr {c : UInt8} {text before rest : Bytes}
    (h : strchr c text = some (before, rest)) :
  rest.length < text.length
  := by
  rw [strchr_eq h]
  simp only [List.length_append, List.length_cons]
  omega

/-- The loop of `zbx_extract_functionids` over an expression. -/
def extractFunctionids (text : Bytes) : Option (List ℕ) :=
  match _ : strchr leftBrace text with
  | none => some []
  | some (_, rest) =>
    match _ : strchr rightBrace rest with
    | none => none
    | some (id, rest') =>
      match isUint64 id with
      | none => none
      | some functionid => (extractFunctionids rest').map (functionid :: ·)
termination_by text.length
decreasing_by
  rename_i hopen hclose
  exact (length_strchr hclose).trans (length_strchr hopen)

/-- The time for which a function is evaluated: that of its trigger. -/
def functionSec (triggers : List BatchTrigger) (f : TriggerFunction) : ℤ :=
  ((triggers.find? (·.triggerid = f.triggerid)).map (·.sec)).getD 0

/-- A function that is not evaluated yet. -/
def newFunc (triggers : List BatchTrigger) (f : TriggerFunction) : Func where
  functionid := f.functionid
  triggerid := f.triggerid
  function := f.function
  parameter := f.parameter
  sec := functionSec triggers f
  value := none
  error := none

/-- A function is added to those of its item. -/
def addFunction (triggers : List BatchTrigger) (ifuncs : List IFunc) (f : TriggerFunction) :
    List IFunc :=
  match ifuncs with
  | [] => [{ itemid := f.itemid, functions := [newFunc triggers f] }]
  | ifunc :: rest =>
    if ifunc.itemid = f.itemid then
      { ifunc with functions := ifunc.functions ++ [newFunc triggers f] } :: rest
    else ifunc :: addFunction triggers rest f

/-- `zbx_populate_function_items`. -/
def populateFunctionItems (env : BatchEnv) (triggers : List BatchTrigger) (functionids : List ℕ) :
    List IFunc :=
  let ifuncs := (functionids.filterMap env.functions).foldl (addFunction triggers) []
  (ifuncs.insertionSort fun a b => a.itemid ≤ b.itemid).map fun ifunc =>
    { ifunc with functions := ifunc.functions.insertionSort fun a b => a.functionid ≤ b.functionid }

/-! ### Evaluating the functions -/

/-- The text of an error of a function. -/
def functionError (message : String) (item : ItemRow) (func : Func) : Bytes :=
  bytes message.toList ++ leftBrace :: (item.hostName ++ colon :: (item.key ++ dot ::
    (func.function ++ leftParen :: (func.parameter ++ [rightParen, rightBrace]))))

/-- Why the functions of an item are not evaluated. -/
def itemError (item : ItemRow) (func : Func) : Option Bytes :=
  if item.itemDisabled then some (functionError "Item disabled for function: " item func)
  else if item.notSupported then
    some (functionError "Item not supported for function: " item func)
  else if item.hostNotMonitored then
    some (functionError "Host disabled for function: " item func)
  else func.error

/-- The evaluation of a function for its item. -/
def evaluateFunc (env : BatchEnv) (item : ItemRow) (func : Func) : Func :=
  if itemError item func ≠ none then { func with error := itemError item func }
  else
    match env.evaluateFunction item func.function func.parameter func.sec with
    | none =>
      { func with error := some (functionError "Evaluation failed for function: " item func) }
    | some value => { func with value := some value }

/-- The functions of one item are evaluated. -/
def evaluateItem (env : BatchEnv) (ifuncs : List IFunc) (item : ItemRow) : List IFunc :=
  ifuncs.map fun ifunc =>
    if ifunc.itemid = item.itemid then
      { ifunc with functions := ifunc.functions.map (evaluateFunc env item) }
    else ifunc

/-- `zbx_evaluate_item_functions`. -/
def evaluateItemFunctions (env : BatchEnv) (ifuncs : List IFunc) : List IFunc :=
  (env.items.filter fun item => item.itemid ∈ ifuncs.map (·.itemid)).foldl (evaluateItem env) ifuncs

/-! ### Putting the values into the expressions -/

/-- `zbx_get_func_by_functionid`. -/
def getFunc (ifuncs : List IFunc) (functionid : ℕ) : Option Func :=
  ifuncs.findSome? fun ifunc => ifunc.functions.find? (·.functionid = functionid)

/-- What is put into an expression for a function. -/
def funcValue (functionid : ℕ) : Option Func → Except TriggerError Bytes
  | none =>
    .error (.text (bytes "Cannot obtain function and item for functionid: ".toList ++
      decimal functionid))
  | some func =>
    match func.error, func.value with
    | some error, _ => .error (.text error)
    | none, none =>
      .error (.text (bytes "Unexpected error while processing a trigger expression".toList))
    | none, some value => .ok value

/-- The loop of `zbx_substitute_functions_results` over an expression. -/
def substituteResults (ifuncs : List IFunc) (text : Bytes) : Except TriggerError Bytes :=
  match _ : strchr leftBrace text with
  | none => .ok text
  | some (before, rest) =>
    match _ : strchr rightBrace rest with
    | none => .error (.text (bytes "Invalid trigger expression".toList))
    | some (id, rest') =>
      let functionid := (isUint64 id).getD 0
      match funcValue functionid (getFunc ifuncs functionid) with
      | .error error => .error error
      | .ok value =>
        match substituteResults ifuncs rest' with
        | .error error => .error error
        | .ok out => .ok (before ++ (value ++ out))
termination_by text.length
decreasing_by
  rename_i hopen hclose
  exact (length_strchr hclose).trans (length_strchr hopen)

/-! ### Evaluating the expressions -/

/-- `zbx_remove_whitespace`. -/
def removeWhitespace (text : Bytes) : Bytes :=
  text.filter fun c => c ≠ space && c ≠ tab && c ≠ carriageReturn && c ≠ newline

/-- The expression of a trigger with its macros substituted. -/
def prepareExpression (env : BatchEnv) (trigger : BatchTrigger) : Except TriggerError Bytes :=
  match env.substituteMacros trigger (removeWhitespace trigger.expressionOrig) with
  | .error error => .error (.text error)
  | .ok expression => .ok expression

/-- An expression whose functions can be collected, and its functions. -/
def checkExpression (expression : Bytes) : Except TriggerError (Bytes × List ℕ) :=
  match extractFunctionids expression with
  | none =>
    .error (.text (bytes "Invalid expression [".toList ++ expression ++ [rightBracket]))
  | some functionids => .ok (expression, functionids)

/-- The expression of a trigger, ready to be evaluated, and its functions. -/
def checkTrigger (env : BatchEnv) (trigger : BatchTrigger) :
    Except TriggerError (Bytes × List ℕ) :=
  match prepareExpression env trigger with
  | .error error => .error error
  | .ok expression => checkExpression expression

/-- `zbx_extract_functionids`: the functions of all expressions, each one once and in order. -/
def collectFunctionids (checked : List (Except TriggerError (Bytes × List ℕ))) : List ℕ :=
  (checked.flatMap fun
    | .error _ => []
    | .ok (_, functionids) => functionids).dedup.insertionSort (· ≤ ·)

section

variable (D : Type*) [CDouble D]

/-- The value for the result of an expression. -/
def triggerValue (result : D) : TriggerValue :=
  if cmpDouble result (CDouble.literal 0) then .ok else .problem

/-- `evaluate`, for a trigger. -/
def evaluateTrigger (expression : Bytes) : Except TriggerError TriggerValue :=
  match (evaluate expression : Except Failure D) with
  | .error failure => .error (.evaluation failure)
  | .ok result => .ok (triggerValue D result)

end

/-- The expressions after `substitute_functions`. -/
def substituteFunctions (env : BatchEnv) (triggers : List BatchTrigger)
    (checked : List (Except TriggerError (Bytes × List ℕ))) : List (Except TriggerError Bytes) :=
  let functionids := collectFunctionids checked
  let ifuncs := populateFunctionItems env triggers functionids
  let evaluated := evaluateItemFunctions env ifuncs
  checked.map fun
    | .error error => .error error
    | .ok (expression, _) =>
      -- without any function the expressions are left as they are
      if functionids = [] ∨ ifuncs = [] then .ok expression
      else substituteResults evaluated expression

/-- `evaluate_expressions`: the value of each trigger, or why it is unknown. -/
def evaluateExpressions (D : Type*) [CDouble D] (env : BatchEnv) (triggers : List BatchTrigger) :
    List (Except TriggerError TriggerValue) :=
  (substituteFunctions env triggers (triggers.map (checkTrigger env))).map fun
    | .error error => .error error
    | .ok expression => evaluateTrigger D expression

end Expression
