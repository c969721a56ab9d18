import Zabbix.Poller.CalculatedItem

/-!
# The text a calculated item evaluates

Every call of the formula should be replaced by its value, and nothing else be replaced.  The
placeholders are searched for in the whole text, the values put in before included, and a
formula without anything to copy leaves the allocated text unwritten: `substitution_meets_iff`
says for which formulas and values the text passed on is the right one all the same.
-/

open Ascii FunctionCall

namespace CalculatedItem

/-! ### Macros among pieces -/

/-- The pieces up to the first closing brace, that of a placeholder included. -/
def piecesUpToBrace : List Piece → Option (List Piece)
  | [] => none
  | .call functionid :: _ => some [.call functionid]
  | .char c :: rest =>
    if c = rightBrace then some [.char c] else (piecesUpToBrace rest).map (.char c :: ·)

/-- The value of the user macro that the pieces start with, and how many pieces refer to it. -/
def pieceMacroAt (lookup : Bytes → Option Bytes) : List Piece → Option (Bytes × ℕ)
  | .char c :: .char d :: rest =>
    if c = leftBrace ∧ d = dollar then
      (piecesUpToBrace rest).bind fun name =>
        (lookup (c :: d :: textOf placeholder name)).map fun value => (value, name.length + 2)
    else none
  | _ => none

/-- The pieces of a formula with its user macros expanded. -/
def expandPieces (lookup : Bytes → Option Bytes) (pieces : List Piece) : Option (List Piece) :=
  expandLoop (pieceMacroAt lookup) .char 0 pieces

@[simp]
theorem textOf_nil (text : ℕ → Bytes) :
  textOf text [] = []
  := rfl

@[simp]
theorem textOf_char (text : ℕ → Bytes) (c : UInt8) (pieces : List Piece) :
  textOf text (.char c :: pieces) = c :: textOf text pieces
  := rfl

@[simp]
theorem textOf_call (text : ℕ → Bytes) (functionid : ℕ) (pieces : List Piece) :
  textOf text (.call functionid :: pieces) = text functionid ++ textOf text pieces
  := rfl

theorem textOf_append (text : ℕ → Bytes) (pieces pieces' : List Piece) :
  textOf text (pieces ++ pieces') = textOf text pieces ++ textOf text pieces'
  := List.flatMap_append

theorem textOf_map_char (text : ℕ → Bytes) (value : Bytes) :
  textOf text (value.map .char) = value
  := by
  induction value with
  | nil => rfl
  | cons c rest ih => rw [List.map_cons, textOf_char, ih]

theorem expandLoop_eq {α : Type} (refAt : List α → Option (Bytes × ℕ)) (char : UInt8 → α)
    (n : ℕ) (text : List α) :
  expandLoop refAt char n text = expandLoop refAt char 0 (text.drop n)
  := by
  induction text generalizing n with
  | nil =>
    rw [List.drop_nil]
    cases n <;> rfl
  | cons c rest ih =>
    cases n with
    | zero => rfl
    | succ n => rw [expandLoop, ih, List.drop_succ_cons]

theorem upToBrace_append {left : Bytes} (h : rightBrace ∉ left) (text : Bytes) :
  upToBrace (left ++ text) = (upToBrace text).map (left ++ ·)
  := by
  induction left with
  | nil => simp
  | cons c left ih =>
    obtain ⟨hc, hleft⟩ := not_or.mp (mt List.mem_cons.mpr h)
    rw [List.cons_append, upToBrace, if_neg (Ne.symm hc), ih hleft, Option.map_map]
    rfl

theorem not_mem_decimal {c : UInt8} (h : isDigit c = false) (n : ℕ) :
  c ∉ decimal n
  := by
  intro hmem
  rw [isDigit_decimal n c hmem] at h
  contradiction

theorem upToBrace_placeholder (functionid : ℕ) (text : Bytes) :
  upToBrace (placeholder functionid ++ text) = some (placeholder functionid)
  := by
  have hdigits : rightBrace ∉ decimal functionid := not_mem_decimal (by decide) functionid
  rw [placeholder, List.cons_append, upToBrace, if_neg (by decide), List.append_assoc,
    upToBrace_append hdigits, List.singleton_append, upToBrace, if_pos rfl]
  rfl

theorem upToBrace_textOf (pieces : List Piece) :
  upToBrace (textOf placeholder pieces) =
    (piecesUpToBrace pieces).map (textOf placeholder)
  := by
  induction pieces with
  | nil => rfl
  | cons piece pieces ih =>
    cases piece with
    | call functionid =>
      rw [textOf_call, upToBrace_placeholder, piecesUpToBrace]
      simp
    | char c =>
      rw [textOf_char, upToBrace, piecesUpToBrace]
      split
      · rfl
      · rw [ih, Option.map_map, Option.map_map]
        rfl

theorem prefix_of_piecesUpToBrace {pieces name : List Piece}
    (h : piecesUpToBrace pieces = some name) :
  name <+: pieces
  := by
  induction pieces generalizing name with
  | nil => cases h
  | cons piece pieces ih =>
    cases piece with
    | call functionid =>
      cases h
      exact ⟨pieces, rfl⟩
    | char c =>
      rw [piecesUpToBrace] at h
      split at h
      · cases h
        exact ⟨pieces, rfl⟩
      · obtain ⟨name, hname, rfl⟩ := Option.map_eq_some_iff.mp h
        exact List.cons_prefix_cons.mpr ⟨rfl, ih hname⟩

/-- A reference among pieces is the reference in their text. -/
theorem macroAt_textOf (lookup : Bytes → Option Bytes) (c : UInt8) (rest : List Piece) :
  macroAt lookup (c :: textOf placeholder rest) =
    (pieceMacroAt lookup (.char c :: rest)).map fun (value, n) =>
      (value, (textOf placeholder (rest.take (n - 1))).length + 1)
  := by
  cases rest with
  | nil => rfl
  | cons piece rest =>
    cases piece with
    | call functionid =>
      have hdollar : ¬ (c = leftBrace ∧ leftBrace = dollar) := fun h => absurd h.2 (by decide)
      rw [textOf_call, placeholder, List.cons_append, macroAt, if_neg hdollar]
      rfl
    | char d =>
      rw [textOf_char, macroAt, pieceMacroAt]
      split
      · rw [upToBrace_textOf]
        cases hname : piecesUpToBrace rest with
        | none => rfl
        | some name =>
          obtain ⟨behind, rfl⟩ := prefix_of_piecesUpToBrace hname
          cases hvalue : lookup (c :: d :: textOf placeholder name) with
          | none => simp [hvalue]
          | some value => simp [hvalue]
      · rfl

theorem macroAt_of_ne {lookup : Bytes → Option Bytes} {c : UInt8} (h : c ≠ leftBrace)
    (rest : Bytes) :
  macroAt lookup (c :: rest) = none
  := by
  cases rest with
  | nil => rfl
  | cons d rest => rw [macroAt, if_neg fun hmacro => h hmacro.1]

/-- Text without an opening brace is kept. -/
theorem expandLoop_append {lookup : Bytes → Option Bytes} {left : Bytes}
    (h : leftBrace ∉ left) (text : Bytes) :
  expandLoop (macroAt lookup) id 0 (left ++ text) =
    (expandLoop (macroAt lookup) id 0 text).map (left ++ ·)
  := by
  induction left with
  | nil => simp
  | cons c left ih =>
    obtain ⟨hc, hleft⟩ := not_or.mp (mt List.mem_cons.mpr h)
    rw [List.cons_append, expandLoop]
    simp only [macroAt_of_ne (Ne.symm hc), ih hleft, Option.map_map]
    rfl

theorem leftBrace_not_mem_rest (functionid : ℕ) :
  leftBrace ∉ decimal functionid ++ [rightBrace]
  := by
  rw [List.mem_append, List.mem_singleton, not_or]
  exact ⟨not_mem_decimal (by decide) functionid, by decide⟩

/-- A placeholder is kept. -/
theorem expandLoop_placeholder (lookup : Bytes → Option Bytes) (functionid : ℕ) (text : Bytes) :
  expandLoop (macroAt lookup) id 0 (placeholder functionid ++ text) =
    (expandLoop (macroAt lookup) id 0 text).map (placeholder functionid ++ ·)
  := by
  have hkept := leftBrace_not_mem_rest functionid
  have hnone : macroAt lookup (leftBrace :: (decimal functionid ++ [rightBrace] ++ text)) =
      none := by
    cases hdigits : decimal functionid with
    | nil => rw [List.nil_append, List.singleton_append, macroAt, if_neg (by decide)]
    | cons d digits =>
      have hd : d ≠ dollar := by
        rintro rfl
        apply not_mem_decimal (c := dollar) (by decide) functionid
        rw [hdigits]
        exact List.mem_cons_self
      rw [List.cons_append, List.cons_append, macroAt, if_neg fun hmacro => hd hmacro.2]
  rw [placeholder, List.cons_append, expandLoop]
  simp only [hnone, expandLoop_append hkept, Option.map_map]
  rfl

/-- The macros of the text with placeholders are those among the pieces. -/
theorem substituteSimpleMacros_textOf (lookup : Bytes → Option Bytes) (pieces : List Piece) :
  substituteSimpleMacros lookup (textOf placeholder pieces) =
    (expandPieces lookup pieces).map (textOf placeholder)
  := by
  unfold substituteSimpleMacros expandPieces
  induction hlength : pieces.length using Nat.strong_induction_on generalizing pieces with
  | _ m ih =>
    subst hlength
    match pieces with
    | [] => rfl
    | .call functionid :: rest =>
      have hrest := ih _ (Nat.lt_succ_self _) rest rfl
      rw [textOf_call, expandLoop_placeholder, hrest, Option.map_map]
      conv_rhs => rw [expandLoop]
      simp only [pieceMacroAt, Option.map_map]
      rfl
    | .char c :: rest =>
      have hrest := ih _ (Nat.lt_succ_self _) rest rfl
      rw [textOf_char, expandLoop, macroAt_textOf]
      conv_rhs => rw [expandLoop]
      cases hmacro : pieceMacroAt lookup (.char c :: rest) with
      | none =>
        simp only [Option.map_none, hrest, Option.map_map]
        rfl
      | some result =>
        obtain ⟨value, n⟩ := result
        have hbehind := ih (rest.drop (n - 1)).length
          (by rw [List.length_drop, List.length_cons]; omega) _ rfl
        have hdrop : (textOf placeholder rest).drop
            (textOf placeholder (rest.take (n - 1))).length =
              textOf placeholder (rest.drop (n - 1)) := by
          conv_lhs => rw [← List.take_append_drop (n - 1) rest, textOf_append]
          rw [List.take_append_drop]
          exact List.drop_left
        simp only [Option.map_some, Nat.add_sub_cancel]
        rw [expandLoop_eq, hdrop, hbehind, expandLoop_eq (pieceMacroAt lookup) .char (n - 1) rest]
        split
        · simp only [Option.map_map, List.map_id]
          congr 1
          funext pieces'
          simp [textOf_append, textOf_map_char]
        · rfl

theorem mem_of_expandLoop {refAt : List Piece → Option (Bytes × ℕ)} {n : ℕ}
    {pieces expanded : List Piece} (h : expandLoop refAt .char n pieces = some expanded)
    {functionid : ℕ} (hmem : .call functionid ∈ expanded) :
  .call functionid ∈ pieces
  := by
  induction pieces generalizing n expanded with
  | nil =>
    cases n <;>
    · cases h
      cases hmem
  | cons piece pieces ih =>
    cases n with
    | succ n => exact List.mem_cons_of_mem _ (ih h hmem)
    | zero =>
      rw [expandLoop] at h
      split at h
      · split at h
        · obtain ⟨rest, hrest, rfl⟩ := Option.map_eq_some_iff.mp h
          obtain hvalue | hrest' := List.mem_append.mp hmem
          · obtain ⟨c, -, hc⟩ := List.mem_map.mp hvalue
            cases hc
          · exact List.mem_cons_of_mem _ (ih hrest hrest')
        · cases h
      · obtain ⟨rest, hrest, rfl⟩ := Option.map_eq_some_iff.mp h
        obtain heq | hrest' := List.mem_cons.mp hmem
        · rw [heq]
          exact List.mem_cons_self
        · exact List.mem_cons_of_mem _ (ih hrest hrest')

/-! ### One replacement after the other -/

/-- The text after the values of the functions up to this one have been put in. -/
def replaced (values : ℕ → Bytes) (text : Bytes) : ℕ → Bytes
  | 0 => text
  | k + 1 => stringReplace (replaced values text k) (placeholder (k + 1)) (values (k + 1))

/-- The pieces with the values of the calls up to this one, and placeholders for the others. -/
def filledUpTo (values : ℕ → Bytes) (k : ℕ) (pieces : List Piece) : Bytes :=
  textOf (fun functionid => if functionid ≤ k then values functionid else placeholder functionid)
    pieces

/-- The same with a hole for the call that follows. -/
def holesAt (values : ℕ → Bytes) (k : ℕ) (pieces : List Piece) : List (Option UInt8) :=
  pieces.flatMap fun
    | .char c => [some c]
    | .call functionid =>
      if functionid = k + 1 then [none]
      else
        (if functionid ≤ k then values functionid else placeholder functionid).map some

theorem fill_holesAt (values : ℕ → Bytes) (k : ℕ) (text : Bytes) (pieces : List Piece) :
  Placeholder.fill text (holesAt values k pieces) =
    textOf (fun functionid =>
      if functionid = k + 1 then text
      else if functionid ≤ k then values functionid else placeholder functionid) pieces
  := by
  induction pieces with
  | nil => rfl
  | cons piece pieces ih =>
    cases piece with
    | char c =>
      rw [textOf_char, ← ih]
      rfl
    | call functionid =>
      rw [textOf_call, ← ih, holesAt, List.flatMap_cons, Placeholder.fill_append]
      congr 1
      dsimp only
      split
      · rw [Placeholder.fill, Placeholder.fill, List.append_nil]
      · rw [Placeholder.fill_map_some]

theorem textOf_congr {text text' : ℕ → Bytes} {pieces : List Piece}
    (h : ∀ functionid, .call functionid ∈ pieces → text functionid = text' functionid) :
  textOf text pieces = textOf text' pieces
  := by
  induction pieces with
  | nil => rfl
  | cons piece pieces ih =>
    have hrest := ih fun functionid hmem => h functionid (List.mem_cons_of_mem _ hmem)
    cases piece with
    | char c => rw [textOf_char, textOf_char, hrest]
    | call functionid =>
      rw [textOf_call, textOf_call, hrest, h functionid List.mem_cons_self]

theorem fill_placeholder (values : ℕ → Bytes) (k : ℕ) (pieces : List Piece) :
  Placeholder.fill (placeholder (k + 1)) (holesAt values k pieces) = filledUpTo values k pieces
  := by
  rw [fill_holesAt, filledUpTo]
  apply textOf_congr
  intro functionid _
  by_cases heq : functionid = k + 1
  · rw [if_pos heq, if_neg (by omega), heq]
  · rw [if_neg heq]

theorem fill_value (values : ℕ → Bytes) (k : ℕ) (pieces : List Piece) :
  Placeholder.fill (values (k + 1)) (holesAt values k pieces) = filledUpTo values (k + 1) pieces
  := by
  rw [fill_holesAt, filledUpTo]
  apply textOf_congr
  intro functionid _
  by_cases heq : functionid = k + 1
  · rw [if_pos heq, if_pos (by omega), heq]
  · rw [if_neg heq]
    by_cases hle : functionid ≤ k
    · rw [if_pos hle, if_pos (by omega)]
    · rw [if_neg hle, if_neg (by omega)]

/-- Where the next placeholder is written besides the call, its value is the placeholder itself. -/
def Clear (values : ℕ → Bytes) (k : ℕ) (pieces : List Piece) : Prop :=
  values (k + 1) = placeholder (k + 1) ∨
    ¬ (placeholder (k + 1)).map some <:+: holesAt values k pieces

/-- One replacement puts in the value of its call, and does nothing else, exactly when its
placeholder is not written besides. -/
theorem stringReplace_filledUpTo_iff (values : ℕ → Bytes) (k : ℕ) (pieces : List Piece) :
  stringReplace (filledUpTo values k pieces) (placeholder (k + 1)) (values (k + 1)) =
      filledUpTo values (k + 1) pieces ↔
    Clear values k pieces
  := by
  rw [← fill_placeholder, ← fill_value, stringReplace]
  exact Placeholder.replaceAll_fill_iff (leftBrace_not_mem_rest (k + 1)) (values (k + 1))
     (holesAt values k pieces)

theorem filledUpTo_zero {values : ℕ → Bytes} {pieces : List Piece}
    (h : ∀ functionid, .call functionid ∈ pieces → 0 < functionid) :
  filledUpTo values 0 pieces = textOf placeholder pieces
  := by
  apply textOf_congr
  intro functionid hmem
  exact if_neg (Nat.not_le.mpr (h functionid hmem))

theorem filledUpTo_last {values : ℕ → Bytes} {n : ℕ} {pieces : List Piece}
    (h : ∀ functionid, .call functionid ∈ pieces → functionid ≤ n) :
  filledUpTo values n pieces = textOf values pieces
  := by
  apply textOf_congr
  intro functionid hmem
  exact if_pos (h functionid hmem)

/-- All replacements put in the values of the calls, and do nothing else, exactly when no
placeholder is written besides. -/
theorem replaced_iff {values : ℕ → Bytes} {text : Bytes} {pieces : List Piece}
    (htext : text = filledUpTo values 0 pieces) (n : ℕ) :
  (∀ k ≤ n, replaced values text k = filledUpTo values k pieces) ↔
    ∀ k < n, Clear values k pieces
  := by
  constructor
  · intro h k hk
    apply (stringReplace_filledUpTo_iff values k pieces).mp
    rw [← h k hk.le, ← h (k + 1) hk]
    rfl
  · intro h k hk
    induction k with
    | zero => exact htext
    | succ k ih =>
      rw [replaced, ih (Nat.le_of_succ_le hk)]
      exact (stringReplace_filledUpTo_iff values k pieces).mpr (h k hk)

/-! ### The text passed on -/

/-- The value of the call with this number. -/
def valueOf (outcome : Function → Option Bytes) (functions : List Function)
    (functionid : ℕ) : Bytes :=
  (functions[functionid - 1]?.bind outcome).getD []

theorem calls_of_cut {next : ℕ} {formula : Bytes} {pieces : List Piece}
    {functions : List Function} (hcut : Cut next formula pieces functions) {functionid : ℕ}
    (hmem : .call functionid ∈ pieces) :
  next ≤ functionid ∧ functionid < next + functions.length
  := by
  induction hcut with
  | nil => cases hmem
  | blank _ _ ih => exact ih hmem
  | char _ _ _ ih =>
    obtain heq | hmem := List.mem_cons.mp hmem
    · cases heq
    · exact ih hmem
  | call _ _ _ ih =>
    rw [List.length_cons]
    obtain heq | hmem := List.mem_cons.mp hmem
    · cases heq
      omega
    · have := ih hmem
      omega

theorem functions_of_blank {next : ℕ} {formula : Bytes} {functions : List Function}
    (hcut : Cut next formula [] functions) :
  functions = []
  := by
  generalize hpieces : ([] : List Piece) = pieces at hcut
  induction hcut with
  | nil => rfl
  | blank _ _ ih => exact ih hpieces
  | char => cases hpieces
  | call => cases hpieces

theorem calcitemEvaluate_eq {outcome : Function → Option Bytes} {values : ℕ → Bytes}
    {functions : List Function}
    (h : ∀ i f, functions[i]? = some f →
      f.functionid = i + 1 ∧ outcome f = some (values (i + 1))) (text : Bytes) :
  calcitemEvaluate outcome text functions = some (replaced values text functions.length)
  := by
  induction functions using List.reverseRecOn with
  | nil => rfl
  | append_singleton functions f ih =>
    have hinit : ∀ i f, functions[i]? = some f →
        f.functionid = i + 1 ∧ outcome f = some (values (i + 1)) := by
      intro i g hg
      apply h i g
      rw [List.getElem?_append_left (List.getElem?_eq_some_iff.mp hg).1, hg]
    obtain ⟨hid, hvalue⟩ := h functions.length f (by simp)
    have heval := ih hinit
    rw [calcitemEvaluate] at heval ⊢
    rw [List.foldlM_append, heval, List.length_append, List.length_singleton, replaced]
    simp [hid, hvalue]

theorem isSome_of_calcitemEvaluate {outcome : Function → Option Bytes}
    {functions : List Function} {text passed : Bytes}
    (h : calcitemEvaluate outcome text functions = some passed) :
  ∀ f ∈ functions, (outcome f).isSome = true
  := by
  induction functions generalizing text with
  | nil => simp
  | cons f functions ih =>
    rw [calcitemEvaluate, List.foldlM_cons] at h
    obtain ⟨rest, hrest, h⟩ := Option.bind_eq_some_iff.mp h
    obtain ⟨value, hvalue, -⟩ := Option.map_eq_some_iff.mp hrest
    intro g hg
    obtain rfl | hg := List.mem_cons.mp hg
    · rw [hvalue]
      rfl
    · exact ih h g hg

/-- Whatever the allocated text holds, the text passed on is the formula, its user macros
expanded, with the value of every call in its place; each replacement puts in the value of its
own call and does nothing else. -/
def Meets (lookup : Bytes → Option Bytes) (outcome : Function → Option Bytes) (formula : Bytes)
    (pieces : List Piece) (functions : List Function) : Prop :=
  ∀ allocated passed, getValueCalculated lookup outcome allocated formula = some passed →
    ∃ expanded, expandPieces lookup pieces = some expanded ∧
      passed = textOf (valueOf outcome functions) expanded ∧
      ∀ k ≤ functions.length,
        replaced (valueOf outcome functions) (textOf placeholder expanded) k =
          filledUpTo (valueOf outcome functions) k expanded

/-- A blank formula passes on what the allocated text holds. -/
theorem getValueCalculated_blank {formula : Bytes} {functions : List Function}
    (hcut : Cut 1 formula [] functions) (lookup : Bytes → Option Bytes)
    (outcome : Function → Option Bytes) (allocated : Bytes) :
  getValueCalculated lookup outcome allocated formula = substituteSimpleMacros lookup allocated
  := by
  rw [getValueCalculated, calcitemParse_cut hcut, functions_of_blank hcut]
  cases hexp : substituteSimpleMacros lookup allocated with
  | none => simp [hexp]
  | some exp => simp [hexp, calcitemEvaluate]

theorem not_meets_of_blank {formula : Bytes} {functions : List Function}
    (hcut : Cut 1 formula [] functions) (lookup : Bytes → Option Bytes)
    (outcome : Function → Option Bytes) :
  ¬ Meets lookup outcome formula [] functions
  := by
  intro h
  have hpassed : getValueCalculated lookup outcome [0x31] formula = some [0x31] := by
    rw [getValueCalculated_blank hcut]
    rfl
  obtain ⟨expanded, hexpanded, htext, -⟩ := h _ _ hpassed
  cases hexpanded
  cases htext

theorem getValueCalculated_cut {formula : Bytes} {pieces : List Piece}
    {functions : List Function} (hcut : Cut 1 formula pieces functions) (hne : pieces ≠ [])
    (lookup : Bytes → Option Bytes) (outcome : Function → Option Bytes) (allocated : Bytes) :
  getValueCalculated lookup outcome allocated formula =
    (expandPieces lookup pieces).bind fun expanded =>
      calcitemEvaluate outcome (textOf placeholder expanded) functions
  := by
  rw [getValueCalculated, calcitemParse_cut hcut]
  simp only [if_neg hne, Option.getD_some]
  rw [substituteSimpleMacros_textOf]
  cases expandPieces lookup pieces <;> rfl

/-- The values of the functions of a formula, when all of them can be evaluated. -/
theorem outcome_of_cut {formula : Bytes} {pieces : List Piece}
    {functions : List Function} (hcut : Cut 1 formula pieces functions)
    {outcome : Function → Option Bytes} (h : ∀ f ∈ functions, (outcome f).isSome = true) {i : ℕ}
    {f : Function} (hf : functions[i]? = some f) :
  f.functionid = i + 1 ∧ outcome f = some (valueOf outcome functions (i + 1))
  := by
  obtain ⟨value, hvalue⟩ := Option.isSome_iff_exists.mp (h f (List.mem_of_getElem? hf))
  constructor
  · rw [functionid_of_cut hcut hf, Nat.add_comm]
  · rw [valueOf, Nat.add_sub_cancel, hf, Option.bind_some, hvalue]
    rfl

/-- The text passed on is the right one exactly when the formula has something to copy and,
with its macros expanded and the values of the calls before, spells the placeholder of no call
besides the call itself. -/
theorem substitution_meets_iff {formula : Bytes} {pieces : List Piece} {functions : List Function}
    (hcut : Cut 1 formula pieces functions) (lookup : Bytes → Option Bytes)
    (outcome : Function → Option Bytes) :
  Meets lookup outcome formula pieces functions ↔
    pieces ≠ [] ∧
      ∀ expanded, expandPieces lookup pieces = some expanded →
        (∀ f ∈ functions, (outcome f).isSome = true) →
          ∀ k < functions.length, Clear (valueOf outcome functions) k expanded
  := by
  have hcalls : ∀ expanded, expandPieces lookup pieces = some expanded →
      ∀ functionid, .call functionid ∈ expanded →
        0 < functionid ∧ functionid ≤ functions.length := by
    intro expanded hexpanded functionid hmem
    have := calls_of_cut hcut (mem_of_expandLoop hexpanded hmem)
    omega
  constructor
  · intro h
    have hne : pieces ≠ [] := by
      rintro rfl
      exact not_meets_of_blank hcut lookup outcome h
    refine ⟨hne, fun expanded hexpanded houtcome => ?_⟩
    have hzero : filledUpTo (valueOf outcome functions) 0 expanded =
        textOf placeholder expanded :=
      filledUpTo_zero fun functionid hmem => (hcalls expanded hexpanded functionid hmem).1
    have hpassed := getValueCalculated_cut hcut hne lookup outcome []
    rw [hexpanded, Option.bind_some,
      calcitemEvaluate_eq (fun i f hf => outcome_of_cut hcut houtcome hf)] at hpassed
    obtain ⟨expanded', hexpanded', -, hstages⟩ := h _ _ hpassed
    rw [hexpanded] at hexpanded'
    cases hexpanded'
    exact (replaced_iff hzero.symm functions.length).mp hstages
  · rintro ⟨hne, h⟩ allocated passed hpassed
    rw [getValueCalculated_cut hcut hne] at hpassed
    obtain ⟨expanded, hexpanded, hpassed⟩ := Option.bind_eq_some_iff.mp hpassed
    have houtcome := isSome_of_calcitemEvaluate hpassed
    have hzero : filledUpTo (valueOf outcome functions) 0 expanded =
        textOf placeholder expanded :=
      filledUpTo_zero fun functionid hmem => (hcalls expanded hexpanded functionid hmem).1
    have hstages := (replaced_iff hzero.symm functions.length).mpr
      (h expanded hexpanded houtcome)
    rw [calcitemEvaluate_eq (fun i f hf => outcome_of_cut hcut houtcome hf)] at hpassed
    refine ⟨expanded, hexpanded, ?_, hstages⟩
    rw [← Option.some.inj hpassed, hstages _ le_rfl]
    exact filledUpTo_last fun functionid hmem =>
      (hcalls expanded hexpanded functionid hmem).2

/-- The function `last(k)`. -/
def lastFunction : Function := ⟨1, [0x6c, 0x61, 0x73, 0x74], [0x6b]⟩

theorem lastFunction_cut :
  Cut 1 [0x6c, 0x61, 0x73, 0x74, 0x28, 0x6b, 0x29] [.call 1] [lastFunction]
  := by
  have hname : IsName lastFunction.func :=
    ⟨List.cons_ne_nil _ _, List.all_eq_true.mp (by decide)⟩
  have hparams : Outside true lastFunction.params :=
    .char ⟨by decide, by decide⟩ (fun _ => ⟨by decide, by decide⟩) .nil
  exact @Cut.call 1 lastFunction.func lastFunction.params [] [] [] hname hparams .nil

/-- The function `max(m)`. -/
def maxFunction : Function := ⟨2, [0x6d, 0x61, 0x78], [0x6d]⟩

/-- The pieces of the formula `2*last(k)+max(m)`. -/
def twoCalls : List Piece := [.char 0x32, .char 0x2a, .call 1, .char 0x2b, .call 2]

theorem placeholder_digit {functionid : ℕ} (h : functionid < 10) :
  placeholder functionid = [leftBrace, 0x30 + functionid.toUInt8, rightBrace]
  := by
  rw [placeholder, decimal, if_pos h]
  rfl

theorem twoCalls_cut :
  Cut 1 (bytes "2*last(k)+max(m)".toList) twoCalls [lastFunction, maxFunction]
  := by
  have hlast : IsName lastFunction.func :=
    ⟨List.cons_ne_nil _ _, List.all_eq_true.mp (by decide)⟩
  have hmax : IsName maxFunction.func :=
    ⟨List.cons_ne_nil _ _, List.all_eq_true.mp (by decide)⟩
  have hk : Outside true lastFunction.params :=
    .char ⟨by decide, by decide⟩ (fun _ => ⟨by decide, by decide⟩) .nil
  have hm : Outside true maxFunction.params :=
    .char ⟨by decide, by decide⟩ (fun _ => ⟨by decide, by decide⟩) .nil
  apply Cut.char (by decide) (mt ret_iff_startsWithCall.mpr (by decide))
  apply Cut.char (by decide) (mt ret_iff_startsWithCall.mpr (by decide))
  apply @Cut.call 1 lastFunction.func lastFunction.params _ _ _ hlast hk
  apply Cut.char (by decide) (mt ret_iff_startsWithCall.mpr (by decide))
  exact @Cut.call 2 maxFunction.func maxFunction.params [] _ _ hmax hm .nil

/-- The formula `2*last(k)+max(m)`, where the value of `last(k)` is `5` and the value of `max(m)`
is `7`. -/
theorem twoCalls_meet :
  Meets (fun _ => none) (fun f => if f = lastFunction then some [0x35] else some [0x37])
    (bytes "2*last(k)+max(m)".toList) twoCalls [lastFunction, maxFunction]
  := by
  apply (substitution_meets_iff twoCalls_cut _ _).mpr
  refine ⟨List.cons_ne_nil _ _, fun expanded hexpanded _ k hk => Or.inr ?_⟩
  cases hexpanded
  have hfirst := placeholder_digit (show 1 < 10 by decide)
  have hsecond := placeholder_digit (show 2 < 10 by decide)
  have hlt : k < 2 := hk
  obtain rfl | rfl : k = 0 ∨ k = 1 := by omega
  · simp only [hfirst, holesAt, List.flatMap_cons, hsecond]
    decide
  · simp only [hfirst, holesAt, List.flatMap_cons, hsecond]
    decide

/-- The formula `{1}last(k)` with the value `5` passes on `55`. -/
theorem writtenPlaceholder_not_meets :
  Cut 1 [0x7b, 0x31, 0x7d, 0x6c, 0x61, 0x73, 0x74, 0x28, 0x6b, 0x29]
      [.char 0x7b, .char 0x31, .char 0x7d, .call 1] [lastFunction] ∧
    ¬ Meets (fun _ => none) (fun _ => some [0x35])
      [0x7b, 0x31, 0x7d, 0x6c, 0x61, 0x73, 0x74, 0x28, 0x6b, 0x29]
      [.char 0x7b, .char 0x31, .char 0x7d, .call 1] [lastFunction]
  := by
  have hcut : Cut 1 [0x7b, 0x31, 0x7d, 0x6c, 0x61, 0x73, 0x74, 0x28, 0x6b, 0x29]
      [.char 0x7b, .char 0x31, .char 0x7d, .call 1] [lastFunction] := by
    apply Cut.char (by decide) (mt ret_iff_startsWithCall.mpr (by decide))
    apply Cut.char (by decide) (mt ret_iff_startsWithCall.mpr (by decide))
    apply Cut.char (by decide) (mt ret_iff_startsWithCall.mpr (by decide))
    exact lastFunction_cut
  have hplaceholder : placeholder 1 = [0x7b, 0x31, 0x7d] := placeholder_digit (by decide)
  have hpassed : getValueCalculated (fun _ => none) (fun _ => some [0x35]) []
      [0x7b, 0x31, 0x7d, 0x6c, 0x61, 0x73, 0x74, 0x28, 0x6b, 0x29] = some [0x35, 0x35] := by
    rw [getValueCalculated_cut hcut (List.cons_ne_nil _ _)]
    change some (stringReplace (0x7b :: 0x31 :: 0x7d :: (placeholder 1 ++ []))
      (placeholder 1) [0x35]) = _
    rw [hplaceholder]
    decide
  use hcut
  intro h
  obtain ⟨expanded, hexpanded, htext, -⟩ := h _ _ hpassed
  cases hexpanded
  exact absurd htext (by decide)

end CalculatedItem
