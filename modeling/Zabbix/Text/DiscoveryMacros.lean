import Zabbix.Expression.Evaluate

/-!
# Discovery macros

`substitute_discovery_macros` puts the values of a row of discovery data in the place of the
macros of a text.  It changes the text in place and goes on behind the inserted value by its
index; the index is an integer here, with `-1` for the `size_t` that comes before zero.
-/

open Ascii Expression

namespace DiscoveryMacros

abbrev hash : UInt8 := 0x23

/-- `is_macro_char`. -/
def isMacroChar (c : UInt8) : Bool :=
  0x41 ≤ c && c ≤ 0x5a || c = dot || c = underscore || isDigit c

/-- A macro with its braces. -/
def braced (name : Bytes) : Bytes := leftBrace :: hash :: name ++ [rightBrace]

/-- `zbx_replace_string`: the data with the block from `l` to `r` replaced, and the position of
the last character of the value. -/
def zbxReplaceString (data : Bytes) (l r : ℕ) (value : Bytes) : Bytes × ℤ :=
  let szValue := value.length
  let szBlock := r - l + 1
  (data.take l ++ value ++ data.drop (l + szBlock),
    if szValue ≠ szBlock then (l : ℤ) + szValue - 1 else r)

/-- The error texts. -/
def noValue (name : Bytes) : Bytes :=
  bytes "no value for macro \"".toList ++ braced name ++ bytes "\"".toList

def notNumeric (name : Bytes) : Bytes :=
  bytes "macro \"".toList ++ braced name ++ bytes "\" value is not numeric".toList

/-- The result: the data, and the error text where the function fails. -/
structure Result where
  data : Bytes
  error : Option Bytes
deriving DecidableEq

/-- The loop of `substitute_discovery_macros` without `ZBX_MACRO_SIMPLE` from the index `l` on,
for at most `rounds` rounds. `row` is `zbx_json_value_by_name_dyn`, and `numeric` is
`ZBX_MACRO_NUMERIC`. -/
def substituteLoop (row : Bytes → Option Bytes) (numeric : Bool) (maxErrorLen : ℕ) :
    ℕ → Bytes → ℕ → Option Result
  | 0, _, _ => none
  | rounds + 1, data, l =>
    match data.drop l with
    | [] => some { data := data, error := none }
    | c :: rest =>
      if c ≠ leftBrace ∨ rest.head? ≠ some hash then
        substituteLoop row numeric maxErrorLen rounds data (l + 1)
      else
        let name := rest.tail.takeWhile isMacroChar
        let r := l + 2 + name.length
        if data[r]? ≠ some rightBrace then
          substituteLoop row numeric maxErrorLen rounds data (l + 1)
        else
          match row (braced name) with
          | none =>
            if numeric then
              some { data := data, error := some ((noValue name).take (maxErrorLen - 1)) }
            else substituteLoop row numeric maxErrorLen rounds data (r + 1)
          | some replaceTo =>
            if numeric && !isDoubleSuffix replaceTo then
              some { data := data, error := some ((notNumeric name).take (maxErrorLen - 1)) }
            else
              let (data, r) := zbxReplaceString data l r replaceTo
              substituteLoop row numeric maxErrorLen rounds data (r + 1).toNat

/-- `substitute_discovery_macros` without `ZBX_MACRO_SIMPLE`. -/
def substituteDiscoveryMacros (row : Bytes → Option Bytes) (numeric : Bool) (maxErrorLen : ℕ)
    (rounds : ℕ) (data : Bytes) : Option Result :=
  substituteLoop row numeric maxErrorLen rounds data 0

/-! ### Texts with macros -/

/-- A piece of a text. -/
inductive Piece where
  | char (c : UInt8)
  | discoveryMacro (name : Bytes)
deriving DecidableEq

def Piece.text : Piece → Bytes
  | .char c => [c]
  | .discoveryMacro name => braced name

/-- The name of the macro at the start of a text, and what is behind it. -/
def leadingMacro : Bytes → Option (Bytes × Bytes)
  | c :: d :: rest =>
    if c = leftBrace ∧ d = hash ∧ (rest.dropWhile isMacroChar).head? = some rightBrace then
      some (rest.takeWhile isMacroChar, (rest.dropWhile isMacroChar).tail)
    else none
  | _ => none

theorem takeWhile_name {name : Bytes} (hname : ∀ c ∈ name, isMacroChar c = true)
    (behind : Bytes) :
  (name ++ rightBrace :: behind).takeWhile isMacroChar = name ∧
    (name ++ rightBrace :: behind).dropWhile isMacroChar = rightBrace :: behind
  := by
  have hbrace : ¬ isMacroChar rightBrace = true := by decide
  rw [List.takeWhile_append_of_pos hname, List.dropWhile_append_of_pos hname,
    List.takeWhile_cons_of_neg hbrace, List.dropWhile_cons_of_neg hbrace, List.append_nil]
  exact ⟨rfl, rfl⟩

theorem leadingMacro_eq_some_iff {text name behind : Bytes} :
  leadingMacro text = some (name, behind) ↔
    text = braced name ++ behind ∧ ∀ c ∈ name, isMacroChar c = true
  := by
  constructor
  · intro h
    rw [leadingMacro.eq_def] at h
    split at h
    case h_1 c d rest =>
      split_ifs at h with hmacro
      obtain ⟨rfl, rfl, hbrace⟩ := hmacro
      obtain ⟨rfl, rfl⟩ := Prod.mk.inj (Option.some.inj h)
      refine ⟨?_, fun c hc => List.all_eq_true.mp List.all_takeWhile c hc⟩
      obtain ⟨behind, hdrop⟩ : ∃ behind, rest.dropWhile isMacroChar = rightBrace :: behind := by
        cases hdrop : rest.dropWhile isMacroChar with
        | nil =>
          rw [hdrop] at hbrace
          cases hbrace
        | cons e behind =>
          rw [hdrop] at hbrace
          exact ⟨behind, by rw [Option.some.inj hbrace]⟩
      have hsplit := List.takeWhile_append_dropWhile (p := isMacroChar) (l := rest)
      rw [hdrop] at hsplit ⊢
      simp only [braced, List.tail_cons, List.cons_append, List.append_assoc,
        List.nil_append, hsplit]
    case h_2 => cases h
  · rintro ⟨rfl, hname⟩
    obtain ⟨htake, hdrop⟩ := takeWhile_name hname behind
    simp only [braced, List.cons_append, List.append_assoc, List.nil_append, leadingMacro, hdrop,
      htake, List.head?_cons, List.tail_cons, and_self, if_true]

/-- The pieces of a text, from the left to the right. -/
def pieces (text : Bytes) : List Piece :=
  match h : leadingMacro text with
  | some (name, behind) =>
    have : behind.length < text.length := by
      rw [(leadingMacro_eq_some_iff.mp h).1, braced]
      simp only [List.length_append, List.length_cons]
      omega
    .discoveryMacro name :: pieces behind
  | none =>
    match text with
    | [] => []
    | c :: rest => .char c :: pieces rest
termination_by text.length

/-- The text behind some pieces. -/
def textOf (ps : List Piece) : Bytes := ps.flatMap Piece.text

/-- The value that stands for a piece. -/
def valueOf (row : Bytes → Option Bytes) : Piece → Bytes
  | .char c => [c]
  | .discoveryMacro name => (row (braced name)).getD (braced name)

/-- The macro occurs in the text. -/
def Occurs (name text : Bytes) : Prop :=
  (∀ c ∈ name, isMacroChar c = true) ∧ braced name <:+: text

section

variable {row : Bytes → Option Bytes} {text name : Bytes}

theorem pieces_leadingMacro {behind : Bytes} (h : leadingMacro text = some (name, behind)) :
  pieces text = .discoveryMacro name :: pieces behind
  := by
  rw [pieces]
  split
  case h_1 name' behind' h' =>
    obtain ⟨rfl, rfl⟩ := Prod.mk.inj (Option.some.inj (h'.symm.trans h))
    rfl
  case h_2 h' =>
    rw [h] at h'
    cases h'

theorem pieces_cons {c : UInt8} {rest : Bytes} (h : leadingMacro (c :: rest) = none) :
  pieces (c :: rest) = .char c :: pieces rest
  := by
  rw [pieces]
  split
  case h_1 h' =>
    rw [h] at h'
    cases h'
  case h_2 => rfl

@[simp]
theorem pieces_nil : pieces [] = [] := by
  rw [pieces]
  rfl

/-- A text is what its pieces make up. -/
theorem textOf_pieces (text : Bytes) :
  textOf (pieces text) = text
  := by
  induction hn : text.length using Nat.strongRecOn generalizing text with
  | _ n ih =>
    cases h : leadingMacro text with
    | some found =>
      obtain ⟨name, behind⟩ := found
      obtain ⟨htext, -⟩ := leadingMacro_eq_some_iff.mp h
      have hlength : behind.length < n := by
        rw [← hn, htext, braced]
        simp only [List.length_append, List.length_cons]
        omega
      rw [pieces_leadingMacro h, textOf, List.flatMap_cons]
      exact (congrArg _ (ih _ hlength behind rfl)).trans htext.symm
    | none =>
      cases text with
      | nil => rw [pieces_nil, textOf, List.flatMap_nil]
      | cons c rest =>
        rw [pieces_cons h, textOf, List.flatMap_cons]
        exact congrArg _ (ih rest.length (by simp [← hn]) rest rfl)

/-- No opening brace stands inside a macro. -/
theorem not_leftBrace_mem (hname : ∀ c ∈ name, isMacroChar c = true) :
  leftBrace ∉ hash :: name ++ [rightBrace]
  := by
  have hbrace : isMacroChar leftBrace = false := by decide
  simp only [List.cons_append, List.mem_cons, List.mem_append, List.not_mem_nil, or_false, not_or]
  refine ⟨by decide, fun hmem => ?_, by decide⟩
  rw [hname _ hmem] at hbrace
  cases hbrace

/-- Two macros do not overlap: one behind the start of a text that begins with a macro comes
behind that macro. -/
theorem occurrence_behind {name' before after behind : Bytes} {c : UInt8}
    (hname' : ∀ c ∈ name', isMacroChar c = true)
    (h : braced name' ++ behind = c :: before ++ braced name ++ after) :
  ∃ front, behind = front ++ braced name ++ after
  := by
  rw [List.append_assoc] at h
  obtain ⟨front, hfront, hbehind⟩ | ⟨front, hfront, hbehind⟩ := List.append_eq_append_iff.mp h
  · exact ⟨front, by rw [hbehind, List.append_assoc]⟩
  · -- the opening brace would stand inside the first macro
    cases front with
    | nil => exact ⟨[], by simpa using hbehind.symm⟩
    | cons d front =>
      have hd : d = leftBrace := by
        simp only [braced, List.cons_append, List.cons.injEq] at hbehind
        exact hbehind.1.symm
      have hmem : leftBrace ∈ hash :: name' ++ [rightBrace] := by
        have htail := congrArg List.tail hfront
        simp only [braced, List.cons_append, List.tail_cons] at htail ⊢
        rw [htail, hd]
        exact List.mem_append_right _ List.mem_cons_self
      exact absurd hmem (not_leftBrace_mem hname')

/-- The macros among the pieces are those that occur in the text. -/
theorem mem_pieces_iff :
  .discoveryMacro name ∈ pieces text ↔ Occurs name text
  := by
  induction hn : text.length using Nat.strongRecOn generalizing text with
  | _ n ih =>
    cases h : leadingMacro text with
    | some found =>
      obtain ⟨name', behind⟩ := found
      obtain ⟨htext, hname'⟩ := leadingMacro_eq_some_iff.mp h
      have hlength : behind.length < n := by
        rw [← hn, htext, braced]
        simp only [List.length_append, List.length_cons]
        omega
      rw [pieces_leadingMacro h, List.mem_cons, Piece.discoveryMacro.injEq, ih _ hlength rfl]
      constructor
      · rintro (rfl | ⟨hname, hoccurs⟩)
        · exact ⟨hname', [], behind, by rw [List.nil_append, htext]⟩
        · obtain ⟨before, after, heq⟩ := hoccurs
          refine ⟨hname, braced name' ++ before, after, ?_⟩
          rw [htext, ← heq, List.append_assoc, List.append_assoc, List.append_assoc]
      · rintro ⟨hname, before, after, heq⟩
        cases before with
        | nil =>
          left
          have hfirst := leadingMacro_eq_some_iff.mpr ⟨heq.symm, hname⟩
          rw [h] at hfirst
          exact (Prod.mk.inj (Option.some.inj hfirst)).1.symm
        | cons c before =>
          right
          obtain ⟨front, hfront⟩ := occurrence_behind hname' (htext.symm.trans heq.symm)
          exact ⟨hname, front, after, hfront.symm⟩
    | none =>
      cases text with
      | nil =>
        rw [pieces_nil]
        constructor
        · exact fun hmem => nomatch hmem
        · rintro ⟨-, hinfix⟩
          have hnil := List.infix_nil.mp hinfix
          cases hnil
      | cons c rest =>
        rw [pieces_cons h, List.mem_cons, ih rest.length (by simp [← hn]) rfl]
        constructor
        · rintro (heq | ⟨hname, hoccurs⟩)
          · cases heq
          · exact ⟨hname, hoccurs.trans (List.suffix_cons c rest).isInfix⟩
        · rintro ⟨hname, before, after, heq⟩
          right
          cases before with
          | nil =>
            have hfirst := leadingMacro_eq_some_iff.mpr ⟨heq.symm, hname⟩
            rw [h] at hfirst
            cases hfirst
          | cons d before =>
            exact ⟨hname, before, after, (List.cons.inj heq).2⟩

/-! ### The loop -/

/-- The result for the text behind another one. -/
def Result.behind (r : Result) (front : Bytes) : Result := { r with data := front ++ r.data }

/-- What the function makes of the pieces of a text: it stops at the first macro that has no
numeric value. -/
def outcome (row : Bytes → Option Bytes) (numeric : Bool) (maxErrorLen : ℕ) :
    List Piece → Result
  | [] => { data := [], error := none }
  | .char c :: ps => (outcome row numeric maxErrorLen ps).behind [c]
  | .discoveryMacro name :: ps =>
    match row (braced name) with
    | none =>
      if numeric then
        { data := braced name ++ textOf ps,
          error := some ((noValue name).take (maxErrorLen - 1)) }
      else (outcome row numeric maxErrorLen ps).behind (braced name)
    | some value =>
      if numeric && !isDoubleSuffix value then
        { data := braced name ++ textOf ps,
          error := some ((notNumeric name).take (maxErrorLen - 1)) }
      else (outcome row numeric maxErrorLen ps).behind value

theorem Result.behind_behind (r : Result) (front front' : Bytes) :
  (r.behind front').behind front = r.behind (front ++ front')
  := by
  simp [Result.behind]

/-- The character behind the name of a macro. -/
theorem getElem_behind_name (done rest : Bytes) (c d : UInt8) :
  (done ++ c :: d :: rest)[done.length + 2 + (rest.takeWhile isMacroChar).length]? =
    (rest.dropWhile isMacroChar).head?
  := by
  have hsplit := List.takeWhile_append_dropWhile (p := isMacroChar) (l := rest)
  rw [List.getElem?_append_right (by omega)]
  have hindex : done.length + 2 + (rest.takeWhile isMacroChar).length - done.length =
      (rest.takeWhile isMacroChar).length + 1 + 1 := by omega
  rw [hindex, List.getElem?_cons_succ, List.getElem?_cons_succ]
  conv_lhs => rw [← hsplit]
  rw [List.getElem?_append_right (le_of_eq (by rw [hsplit])), hsplit, Nat.sub_self,
    List.head?_eq_getElem?]

variable {numeric : Bool} {maxErrorLen : ℕ}

/-- A character that starts no macro is passed over. -/
theorem substituteLoop_char {rounds : ℕ} {done rest : Bytes} {c : UInt8}
    (h : leadingMacro (c :: rest) = none) :
  substituteLoop row numeric maxErrorLen (rounds + 1) (done ++ c :: rest) done.length =
    substituteLoop row numeric maxErrorLen rounds (done ++ c :: rest) (done.length + 1)
  := by
  rw [substituteLoop, List.drop_left]
  dsimp only
  by_cases hplain : c ≠ leftBrace ∨ rest.head? ≠ some hash
  · rw [if_pos hplain]
  rw [if_neg hplain]
  by_cases hclosed : (done ++ c :: rest)[done.length + 2 +
      (rest.tail.takeWhile isMacroChar).length]? ≠ some rightBrace
  · rw [if_pos hclosed]
  · exfalso
    obtain ⟨hc, hrest⟩ := not_or.mp hplain
    rw [not_not] at hc hrest hclosed
    obtain ⟨rest, rfl⟩ := List.head?_eq_some_iff.mp hrest
    rw [List.tail_cons, getElem_behind_name] at hclosed
    rw [leadingMacro, if_pos ⟨hc, rfl, hclosed⟩] at h
    cases h

/-- A macro is looked up under its name, up to the closing brace. -/
theorem substituteLoop_macro {rounds : ℕ} {done behind : Bytes}
    (hname : ∀ c ∈ name, isMacroChar c = true) :
  substituteLoop row numeric maxErrorLen (rounds + 1) (done ++ (braced name ++ behind))
      done.length =
    match row (braced name) with
    | none =>
      if numeric then
        some { data := done ++ (braced name ++ behind),
               error := some ((noValue name).take (maxErrorLen - 1)) }
      else substituteLoop row numeric maxErrorLen rounds (done ++ braced name ++ behind)
        (done ++ braced name).length
    | some value =>
      if numeric && !isDoubleSuffix value then
        some { data := done ++ (braced name ++ behind),
               error := some ((notNumeric name).take (maxErrorLen - 1)) }
      else substituteLoop row numeric maxErrorLen rounds (done ++ value ++ behind)
        (done ++ value).length
  := by
  obtain ⟨htake, hdrop⟩ := takeWhile_name hname behind
  have htext : braced name ++ behind = leftBrace :: hash :: (name ++ rightBrace :: behind) := by
    simp [braced]
  have hclosed := getElem_behind_name done (name ++ rightBrace :: behind) leftBrace hash
  rw [htake, hdrop, List.head?_cons] at hclosed
  have hend : done.length + 2 + name.length + 1 = (done ++ braced name).length := by
    simp only [braced, List.length_append, List.length_cons, List.length_nil]
    omega
  rw [substituteLoop, List.drop_left, htext]
  dsimp only
  rw [if_neg (by simp), List.tail_cons, htake, if_neg (by rw [hclosed]; simp)]
  cases row (braced name) with
  | none =>
    dsimp only
    rw [hend, ← htext, List.append_assoc]
  | some value =>
    have hdata : (done ++ leftBrace :: hash :: (name ++ rightBrace :: behind)).drop
        (done.length + (done.length + 2 + name.length - done.length + 1)) = behind := by
      have hlength : done.length + (done.length + 2 + name.length - done.length + 1) =
          (done ++ braced name).length := by
        rw [← hend]
        omega
      rw [hlength, ← htext, ← List.append_assoc, List.drop_left]
    have hindex : ((if value.length ≠ done.length + 2 + name.length - done.length + 1 then
        (done.length : ℤ) + value.length - 1 else ((done.length + 2 + name.length : ℕ) : ℤ)) +
        1).toNat = (done ++ value).length := by
      rw [List.length_append]
      split_ifs with heq <;> omega
    dsimp only [zbxReplaceString]
    rw [hdata, hindex, List.take_left]

/-- The loop makes of the text what its pieces say, and ends. -/
theorem substituteLoop_eq {rounds : ℕ} (row : Bytes → Option Bytes) (numeric : Bool)
    (maxErrorLen : ℕ) (done todo : Bytes) (hrounds : todo.length < rounds) :
  substituteLoop row numeric maxErrorLen rounds (done ++ todo) done.length =
    some ((outcome row numeric maxErrorLen (pieces todo)).behind done)
  := by
  induction rounds generalizing done todo with
  | zero => exact absurd hrounds (Nat.not_lt_zero _)
  | succ rounds ih =>
    cases h : leadingMacro todo with
    | some found =>
      obtain ⟨name, behind⟩ := found
      obtain ⟨rfl, hname⟩ := leadingMacro_eq_some_iff.mp h
      have hlength : behind.length < rounds := by
        simp only [braced, List.length_append, List.length_cons] at hrounds
        omega
      have hrest := fun front => ih (done ++ front) behind hlength
      rw [pieces_leadingMacro h, substituteLoop_macro hname, outcome]
      cases row (braced name) with
      | none =>
        dsimp only
        split_ifs
        · rw [textOf_pieces]
          rfl
        · rw [hrest, Result.behind_behind]
      | some value =>
        dsimp only
        split_ifs
        · rw [textOf_pieces]
          rfl
        · rw [hrest, Result.behind_behind]
    | none =>
      cases todo with
      | nil =>
        rw [pieces_nil, outcome, substituteLoop, List.append_nil, List.drop_length]
        simp [Result.behind]
      | cons c rest =>
        rw [substituteLoop_char h, pieces_cons h, outcome, Result.behind_behind]
        have hstep := ih (done ++ [c]) rest (Nat.lt_of_succ_lt_succ hrounds)
        rw [List.append_assoc, List.length_append] at hstep
        exact hstep

end

end DiscoveryMacros
