import Mathlib.Data.Int.Notation
import Mathlib.Tactic.Common
import Zabbix.Library.Ascii

/-!
# Search conditions of SQL

The conditions built from comparisons of a column with numbers, `IN` lists and `BETWEEN`,
with `NOT`, `AND`, `OR` and parentheses, where `NOT` binds closer than `AND` and `AND`
closer than `OR`. A text is split into words and single characters, and the condition is
read from them. `IsPrimary` are the texts that can be negated or joined with others without
parentheses around them.
-/

namespace SqlCondition

open Ascii

/-- A condition on the integer columns of a row. -/
inductive Condition
  | eq (column : Bytes) (n : ℕ)
  | inList (column : Bytes) (members : List ℕ)
  | between (column : Bytes) (first last : ℕ)
  | not (c : Condition)
  | and (c₁ c₂ : Condition)
  | or (c₁ c₂ : Condition)
deriving DecidableEq

/-- The condition is true of a row. -/
def Condition.Holds (row : Bytes → ℤ) : Condition → Prop
  | .eq column n => row column = (n : ℤ)
  | .inList column members => ∃ n ∈ members, row column = (n : ℤ)
  | .between column first last => (first : ℤ) ≤ row column ∧ row column ≤ (last : ℤ)
  | .not c => ¬ c.Holds row
  | .and c₁ c₂ => c₁.Holds row ∧ c₂.Holds row
  | .or c₁ c₂ => c₁.Holds row ∨ c₂.Holds row

/-- The members of the `IN` lists of a condition, list by list. -/
def Condition.inLists : Condition → List (List ℕ)
  | .eq _ _ | .between _ _ _ => []
  | .inList _ members => [members]
  | .not c => c.inLists
  | .and c₁ c₂ | .or c₁ c₂ => c₁.inLists ++ c₂.inLists

/-- Conditions of which at least one is to be true. -/
def Condition.disjunction : List Condition → Condition
  | [] => .inList [] []
  | c :: conditions => conditions.foldl .or c

theorem holds_foldl_or (row : Bytes → ℤ) (c : Condition) (conditions : List Condition) :
  (conditions.foldl .or c).Holds row ↔ ∃ c' ∈ c :: conditions, c'.Holds row
  := by
  induction conditions generalizing c with
  | nil => simp
  | cons c' conditions ih =>
    rw [List.foldl_cons, ih]
    simp only [List.mem_cons, exists_eq_or_imp, Condition.Holds, or_assoc]

theorem holds_disjunction (row : Bytes → ℤ) (conditions : List Condition) :
  (Condition.disjunction conditions).Holds row ↔ ∃ c ∈ conditions, c.Holds row
  := by
  cases conditions with
  | nil => simp [Condition.disjunction, Condition.Holds]
  | cons c conditions => exact holds_foldl_or row c conditions

theorem inLists_foldl_or (c : Condition) (conditions : List Condition) :
  (conditions.foldl .or c).inLists = (c :: conditions).flatMap (·.inLists)
  := by
  induction conditions generalizing c with
  | nil => simp
  | cons c' conditions ih =>
    rw [List.foldl_cons, ih]
    simp [Condition.inLists]

theorem inLists_disjunction {conditions : List Condition} (hne : conditions ≠ []) :
  (Condition.disjunction conditions).inLists = conditions.flatMap (·.inLists)
  := by
  obtain ⟨c, conditions, rfl⟩ := List.exists_cons_of_ne_nil hne
  exact inLists_foldl_or c conditions

/-! ### Words -/

/-- The characters of names, key words and numbers. -/
def isWordChar (c : UInt8) : Bool := isAlnum c || c = underscore || c = dot

/-- A word, or a character that belongs to none. -/
inductive Token
  | word (w : Bytes)
  | char (c : UInt8)
deriving DecidableEq

/-- Puts a word in front of the tokens. -/
def flush (w : Bytes) (tokens : List Token) : List Token :=
  if w = [] then tokens else .word w :: tokens

/-- Splits a text, behind the characters of a word that is not complete. -/
def lexWord (w : Bytes) : Bytes → List Token
  | [] => flush w []
  | c :: text =>
    if isWordChar c then lexWord (w ++ [c]) text
    else flush w (if c = space then lexWord [] text else .char c :: lexWord [] text)

/-- The words and other characters of a text. -/
def lex (text : Bytes) : List Token := lexWord [] text

/-! ### Reading conditions -/

/-- `tolower` -/
def toLower (c : UInt8) : UInt8 := if 0x41 ≤ c && c ≤ 0x5a then c + 0x20 else c

def keyNot : Bytes := bytes "not".toList
def keyAnd : Bytes := bytes "and".toList
def keyOr : Bytes := bytes "or".toList
def keyIn : Bytes := bytes "in".toList
def keyBetween : Bytes := bytes "between".toList

/-- The word is the given key word, in small or capital letters. -/
def isKeyword (keyword w : Bytes) : Bool := w.map toLower = keyword

/-- The name of a column, possibly with that of its table before it. -/
def isColumn (w : Bytes) : Bool :=
  w.head?.any isAlpha && w.all isWordChar &&
    !(isKeyword keyNot w || isKeyword keyAnd w || isKeyword keyOr w || isKeyword keyIn w ||
      isKeyword keyBetween w)

/-- The value of a row of digits. -/
def digitsValue (w : Bytes) : ℕ := w.foldl (fun n c => 10 * n + (c.toNat - 0x30)) 0

/-- The number a word stands for. -/
def number (w : Bytes) : Option ℕ :=
  if w ≠ [] ∧ w.all isDigit then some (digitsValue w) else none

/-- Reads a condition at the front of the tokens, and returns the tokens left. -/
abbrev Reader := List Token → Option (Condition × List Token)

/-- Reads the members of an `IN` list up to the closing parenthesis. -/
def readMembers : List Token → Option (List ℕ × List Token)
  | .word w :: .char c :: tokens => do
    let n ← number w
    if c = comma then
      let (members, tokens) ← readMembers tokens
      some (n :: members, tokens)
    else if c = rightParen then some ([n], tokens)
    else none
  | _ => none

/-- Reads a comparison, an `IN` list or a `BETWEEN`. -/
def readPredicate : Reader
  | .word column :: .char c :: .word w :: tokens => do
    if isColumn column ∧ c = equalSign then
      let n ← number w
      some (.eq column n, tokens)
    else none
  | .word column :: .word keyword :: .char c :: tokens => do
    if isColumn column ∧ isKeyword keyIn keyword ∧ c = leftParen then
      let (members, tokens) ← readMembers tokens
      some (.inList column members, tokens)
    else none
  | .word column :: .word keyword :: .word w :: .word keyword' :: .word w' :: tokens => do
    if isColumn column ∧ isKeyword keyBetween keyword ∧ isKeyword keyAnd keyword' then
      let first ← number w
      let last ← number w'
      some (.between column first last, tokens)
    else none
  | _ => none

/-- Reads an operand of `AND`, where `nested` reads what is in parentheses. -/
def readFactor (nested : Reader) : Reader
  | .char c :: tokens =>
    if c = leftParen then
      match nested tokens with
      | some (condition, .char c :: tokens) =>
        if c = rightParen then some (condition, tokens) else none
      | _ => none
    else none
  | .word w :: tokens =>
    if isKeyword keyNot w then
      (readFactor nested tokens).map fun r => (.not r.1, r.2)
    else readPredicate (.word w :: tokens)
  | [] => none

/-- Reads further operands as long as the key word of an operator follows. -/
def readRest (keyword : Bytes) (operator : Condition → Condition → Condition)
    (operand : Reader) : (rounds : ℕ) → Condition → Reader
  | 0, condition, tokens => some (condition, tokens)
  | rounds + 1, condition, tokens =>
    match tokens with
    | .word w :: tokens' =>
      if isKeyword keyword w then do
        let (condition', tokens) ← operand tokens'
        readRest keyword operator operand rounds (operator condition condition') tokens
      else some (condition, tokens)
    | _ => some (condition, tokens)

/-- Reads operands with an operator between them. -/
def readJoined (keyword : Bytes) (operator : Condition → Condition → Condition)
    (operand : Reader) : Reader := fun tokens => do
  let (condition, rest) ← operand tokens
  readRest keyword operator operand rest.length condition rest

/-- Reads a condition with a limited depth of parentheses. -/
def readCondition : (depth : ℕ) → Reader
  | 0, _ => none
  | depth + 1, tokens =>
    readJoined keyOr .or (readJoined keyAnd .and (readFactor (readCondition depth))) tokens

/-- Reads a text as one condition. -/
def parse (text : Bytes) : Option Condition :=
  match readCondition ((lex text).length + 1) (lex text) with
  | some (condition, []) => some condition
  | _ => none

/-! ### Splitting a text -/

/-- The text does not go on with a word. -/
def Delimited (text : Bytes) : Prop := ∀ c ∈ text.head?, isWordChar c = false

/-- The text consists of the given tokens, whatever follows it. -/
def Splits (text : Bytes) (tokens : List Token) : Prop :=
  ∀ rest, Delimited rest → lex (text ++ rest) = tokens ++ lex rest

theorem delimited_nil :
  Delimited []
  := by
  simp [Delimited]

theorem delimited_cons {c : UInt8} {text : Bytes} :
  Delimited (c :: text) ↔ isWordChar c = false
  := by
  simp [Delimited]

theorem lexWord_append {word : Bytes} (hword : word.all isWordChar) (w rest : Bytes) :
  lexWord w (word ++ rest) = lexWord (w ++ word) rest
  := by
  induction word generalizing w with
  | nil => simp
  | cons c word ih =>
    rw [List.all_cons, Bool.and_eq_true] at hword
    rw [List.cons_append, lexWord, if_pos hword.1, ih hword.2]
    simp

theorem lex_space (rest : Bytes) :
  lex (space :: rest) = lex rest
  := by
  rw [lex, lexWord, if_neg (by decide), if_pos rfl]
  rfl

theorem lex_char {c : UInt8} (hword : isWordChar c = false) (hspace : c ≠ space)
    (rest : Bytes) :
  lex (c :: rest) = .char c :: lex rest
  := by
  rw [lex, lexWord, hword, if_neg Bool.false_ne_true, if_neg hspace]
  rfl

/-- A word is one token. -/
theorem lex_word {word rest : Bytes} (hword : word.all isWordChar) (hne : word ≠ [])
    (hrest : Delimited rest) :
  lex (word ++ rest) = .word word :: lex rest
  := by
  rw [lex, lexWord_append hword, List.nil_append]
  cases rest with
  | nil =>
    rw [lexWord, flush, if_neg hne]
    rfl
  | cons c rest =>
    have hc := delimited_cons.mp hrest
    rw [lexWord, hc, if_neg Bool.false_ne_true, flush, if_neg hne]
    by_cases hspace : c = space
    · rw [if_pos hspace, hspace, lex_space]
      rfl
    · rw [if_neg hspace, lex_char hc hspace]
      rfl

theorem Delimited.append {text text' : Bytes} (h : Delimited text) (h' : Delimited text') :
  Delimited (text ++ text')
  := by
  cases text with
  | nil => exact h'
  | cons c text => exact delimited_cons.mpr (delimited_cons.mp h)

theorem splits_nil :
  Splits [] []
  := by
  intro rest hrest
  rfl

theorem Splits.space {text : Bytes} {tokens : List Token} (h : Splits text tokens) :
  Splits (space :: text) tokens
  := by
  intro rest hrest
  rw [List.cons_append, lex_space, h rest hrest]

theorem Splits.char {c : UInt8} {text : Bytes} {tokens : List Token}
    (hword : isWordChar c = false) (hspace : c ≠ Ascii.space) (h : Splits text tokens) :
  Splits (c :: text) (.char c :: tokens)
  := by
  intro rest hrest
  rw [List.cons_append, lex_char hword hspace, h rest hrest]
  rfl

theorem Splits.append {text text' : Bytes} {tokens tokens' : List Token}
    (h : Splits text tokens) (hdelimited : Delimited text') (h' : Splits text' tokens') :
  Splits (text ++ text') (tokens ++ tokens')
  := by
  intro rest hrest
  rw [List.append_assoc, h _ (hdelimited.append hrest), h' rest hrest, List.append_assoc]

theorem splits_word {word : Bytes} (hword : word.all isWordChar) (hne : word ≠ []) :
  Splits word [.word word]
  := by
  intro rest hrest
  exact lex_word hword hne hrest

theorem Splits.word {word text : Bytes} {tokens : List Token} (hword : word.all isWordChar)
    (hne : word ≠ []) (hdelimited : Delimited text) (h : Splits text tokens) :
  Splits (word ++ text) (.word word :: tokens)
  := (splits_word hword hne).append hdelimited h

/-- A word between spaces. -/
theorem Splits.spaced (word : Bytes) {text : Bytes} {tokens : List Token}
    (hword : word.all isWordChar) (hne : word ≠ []) (h : Splits text tokens) :
  Splits (Ascii.space :: (word ++ Ascii.space :: text)) (.word word :: tokens)
  := by
  have hdelimited : Delimited (Ascii.space :: text) := delimited_cons.mpr (by decide)
  exact (h.space.word hword hne hdelimited).space

theorem Splits.lex_eq {text : Bytes} {tokens : List Token} (h : Splits text tokens) :
  lex text = tokens
  := by
  simpa [lex, lexWord, flush] using h [] delimited_nil

/-! ### Numbers -/

theorem digitsValue_concat (w : Bytes) (c : UInt8) :
  digitsValue (w ++ [c]) = 10 * digitsValue w + (c.toNat - 0x30)
  := by
  simp [digitsValue]

theorem toNat_digit (n : ℕ) :
  (0x30 + (n % 10).toUInt8 : UInt8).toNat - 0x30 = n % 10
  := by
  have hall : ∀ k < 10, (0x30 + k.toUInt8 : UInt8).toNat - 0x30 = k := by decide
  exact hall _ (Nat.mod_lt n (by decide))

theorem decimal_ne_nil (n : ℕ) :
  decimal n ≠ []
  := by
  rw [decimal]
  split <;> simp

theorem digitsValue_decimal (n : ℕ) :
  digitsValue (decimal n) = n
  := by
  fun_induction decimal n with
  | case1 n hlt =>
    have hdigit := toNat_digit n
    rw [Nat.mod_eq_of_lt hlt] at hdigit
    exact (Nat.zero_add _).trans hdigit
  | case2 n hge ih =>
    rw [digitsValue_concat, ih, toNat_digit]
    omega

/-- A printed number is read back. -/
theorem number_decimal (n : ℕ) :
  number (decimal n) = some n
  := by
  have hdigits : (decimal n).all isDigit := List.all_eq_true.mpr (isDigit_decimal n)
  rw [number, if_pos ⟨decimal_ne_nil n, hdigits⟩, digitsValue_decimal]

theorem all_isWordChar_decimal (n : ℕ) :
  (decimal n).all isWordChar
  := by
  apply List.all_eq_true.mpr
  intro c hc
  simp [isWordChar, isAlnum, isDigit_decimal n c hc]

/-- A printed number is one token. -/
theorem splits_decimal (n : ℕ) :
  Splits (decimal n) [.word (decimal n)]
  := splits_word (all_isWordChar_decimal n) (decimal_ne_nil n)

/-! ### Conditions that need no parentheses -/

/-- The tokens are read as one operand, whatever follows them. -/
def IsPrimary (tokens : List Token) (condition : Condition) : Prop :=
  ∃ need ≤ tokens.length, ∀ depth, need ≤ depth → ∀ rest,
    readFactor (readCondition depth) (tokens ++ rest) = some (condition, rest)

/-- The text is read as one operand, whatever follows it. -/
def IsPrimaryText (text : Bytes) (condition : Condition) : Prop :=
  ∃ tokens, Splits text tokens ∧ IsPrimary tokens condition

theorem IsPrimaryText.space {text : Bytes} {condition : Condition}
    (h : IsPrimaryText text condition) :
  IsPrimaryText (space :: text) condition
  := by
  obtain ⟨tokens, hsplits, hprimary⟩ := h
  exact ⟨tokens, hsplits.space, hprimary⟩

/-- The tokens do not go on with a key word. -/
def Stops (keyword : Bytes) (tokens : List Token) : Prop :=
  ∀ w, tokens.head? = some (.word w) → isKeyword keyword w = false

theorem stops_nil (keyword : Bytes) :
  Stops keyword []
  := by
  simp [Stops]

theorem readRest_of_stops {keyword : Bytes} {tokens : List Token} (h : Stops keyword tokens)
    (operator : Condition → Condition → Condition) (operand : Reader) (rounds : ℕ)
    (condition : Condition) :
  readRest keyword operator operand rounds condition tokens = some (condition, tokens)
  := by
  cases rounds with
  | zero => rfl
  | succ rounds =>
    cases tokens with
    | nil => rfl
    | cons t tokens =>
      cases t with
      | word w =>
        have hw := h w rfl
        rw [readRest]
        simp [hw]
      | char c => rfl

/-- An operand alone is a joined condition. -/
theorem readJoined_of_stops {keyword : Bytes} (operator : Condition → Condition → Condition)
    {operand : Reader} {tokens rest : List Token} {condition : Condition}
    (h : operand tokens = some (condition, rest)) (hstops : Stops keyword rest) :
  readJoined keyword operator operand tokens = some (condition, rest)
  := by
  rw [readJoined, h]
  exact readRest_of_stops hstops _ _ _ _

/-- The operands behind a first one are read from left to right. -/
theorem readRest_operands {keyword : Bytes} (operator : Condition → Condition → Condition)
    {operand : Reader} {word : Bytes} (hword : isKeyword keyword word)
    (operands : List (List Token × Condition)) {rest : List Token}
    (hread : ∀ o ∈ operands, ∀ rest', rest' = rest ∨ rest'.head? = some (.word word) →
      operand (o.1 ++ rest') = some (o.2, rest'))
    (hstops : Stops keyword rest) {rounds : ℕ} (hrounds : operands.length ≤ rounds)
    (condition : Condition) :
  readRest keyword operator operand rounds condition
      (operands.flatMap (fun o => .word word :: o.1) ++ rest)
    = some (operands.foldl (fun c o => operator c o.2) condition, rest)
  := by
  induction operands generalizing rounds condition with
  | nil => exact readRest_of_stops hstops _ _ _ _
  | cons o operands ih =>
    cases rounds with
    | zero => simp at hrounds
    | succ rounds =>
      have hrest : ∀ os : List (List Token × Condition),
          os.flatMap (fun o => .word word :: o.1) ++ rest = rest ∨
            (os.flatMap (fun o => .word word :: o.1) ++ rest).head? = some (.word word) := by
        intro os
        cases os <;> simp
      have hfirst := hread o List.mem_cons_self _ (hrest operands)
      rw [List.flatMap_cons, List.cons_append, List.cons_append, List.append_assoc, readRest]
      simp only [hword, if_true, hfirst, Option.bind_eq_bind, Option.bind_some]
      exact ih (fun o ho => hread o (List.mem_cons_of_mem _ ho)) (by simpa using hrounds) _

/-! ### Predicates -/

theorem isColumn_ne_nil {column : Bytes} (h : isColumn column) :
  column ≠ []
  := by
  rintro rfl
  simp [isColumn] at h

theorem isColumn_all {column : Bytes} (h : isColumn column) :
  column.all isWordChar
  := by
  simp only [isColumn, Bool.and_eq_true] at h
  exact h.1.2

theorem isColumn_not {column : Bytes} (h : isColumn column) :
  isKeyword keyNot column = false
  := by
  simp only [isColumn, Bool.and_eq_true, Bool.not_eq_true', Bool.or_eq_false_iff] at h
  exact h.2.1.1.1.1

theorem splits_column {column : Bytes} (h : isColumn column) :
  Splits column [.word column]
  := splits_word (isColumn_all h) (isColumn_ne_nil h)

/-- What is read as a predicate on a column is an operand. -/
theorem isPrimary_of_readPredicate {column : Bytes} (h : isColumn column)
    {tokens : List Token} {condition : Condition}
    (hread : ∀ rest, readPredicate (.word column :: tokens ++ rest) = some (condition, rest)) :
  IsPrimary (.word column :: tokens) condition
  := by
  refine ⟨0, Nat.zero_le _, fun depth _ rest => ?_⟩
  rw [List.cons_append, readFactor, isColumn_not h, if_neg Bool.false_ne_true]
  exact hread rest

/-- A comparison as it is written. -/
def eqText (column : Bytes) (n : ℕ) : Bytes := column ++ equalSign :: decimal n

/-- A `BETWEEN` as it is written. -/
def betweenText (column : Bytes) (first last : ℕ) : Bytes :=
  column ++ bytes " between ".toList ++ decimal first ++ bytes " and ".toList ++ decimal last

/-- The members of a list with commas between them. -/
def membersText : List ℕ → Bytes
  | [] => []
  | [n] => decimal n
  | n :: members => decimal n ++ comma :: membersText members

/-- An `IN` list as it is written. -/
def inText (column : Bytes) (members : List ℕ) : Bytes :=
  column ++ bytes " in (".toList ++ membersText members ++ [rightParen]

/-- The members of a list with a comma behind each. -/
theorem flatMap_comma {members : List ℕ} (hne : members ≠ []) :
  members.flatMap (fun n => decimal n ++ [comma]) = membersText members ++ [comma]
  := by
  fun_induction membersText members with
  | case1 => exact absurd rfl hne
  | case2 n => simp
  | case3 n members hcons ih =>
    rw [List.flatMap_cons, ih hcons]
    simp

theorem isPrimaryText_eq {column : Bytes} (h : isColumn column) (n : ℕ) :
  IsPrimaryText (eqText column n) (.eq column n)
  := by
  refine ⟨.word column :: [.char equalSign, .word (decimal n)], ?_, ?_⟩
  · apply (splits_column h).append (delimited_cons.mpr (by decide))
    exact (splits_decimal n).char (by decide) (by decide)
  · apply isPrimary_of_readPredicate h
    intro rest
    simp [readPredicate, h, number_decimal]

theorem isPrimaryText_between {column : Bytes} (h : isColumn column) (first last : ℕ) :
  IsPrimaryText (betweenText column first last) (.between column first last)
  := by
  have hbetween : bytes " between ".toList = space :: keyBetween ++ [space] := by decide
  have hand : bytes " and ".toList = space :: keyAnd ++ [space] := by decide
  refine ⟨.word column :: [.word keyBetween, .word (decimal first), .word keyAnd,
    .word (decimal last)], ?_, ?_⟩
  · have hlast := (splits_decimal last).spaced keyAnd (by decide) (by decide)
    have hfirst := ((splits_decimal first).append (delimited_cons.mpr (by decide)) hlast).spaced
      keyBetween (by decide) (by decide)
    have htext := (splits_column h).append (delimited_cons.mpr (by decide)) hfirst
    rw [betweenText, hbetween, hand]
    simpa only [List.append_assoc, List.cons_append, List.nil_append] using htext
  · apply isPrimary_of_readPredicate h
    intro rest
    have hkeywords : isKeyword keyBetween keyBetween ∧ isKeyword keyAnd keyAnd := by decide
    simp [readPredicate, h, number_decimal, hkeywords]

/-- The tokens of the members of a list and of the parenthesis behind it. -/
def memberTokens : List ℕ → List Token
  | [] => [.char rightParen]
  | [n] => [.word (decimal n), .char rightParen]
  | n :: members => .word (decimal n) :: .char comma :: memberTokens members

theorem splits_members (members : List ℕ) :
  Splits (membersText members ++ [rightParen]) (memberTokens members)
  := by
  have hclose : Splits [rightParen] [.char rightParen] := splits_nil.char (by decide) (by decide)
  fun_induction membersText members with
  | case1 => exact hclose
  | case2 n => exact (splits_decimal n).append (delimited_cons.mpr (by decide)) hclose
  | case3 n members hne ih =>
    have hrest := (ih.char (by decide : isWordChar comma = false) (by decide))
    have htext := (splits_decimal n).append (delimited_cons.mpr (by decide)) hrest
    rw [memberTokens]
    · simpa only [List.append_assoc, List.cons_append, List.nil_append] using htext
    · exact hne

theorem readMembers_memberTokens {members : List ℕ} (hne : members ≠ []) (rest : List Token) :
  readMembers (memberTokens members ++ rest) = some (members, rest)
  := by
  fun_induction memberTokens members with
  | case1 => exact absurd rfl hne
  | case2 n =>
    have hparen : rightParen ≠ comma := by decide
    simp [readMembers, number_decimal, hparen]
  | case3 n members hcons ih =>
    simp [readMembers, number_decimal, ih hcons]

theorem isPrimaryText_in {column : Bytes} (h : isColumn column) {members : List ℕ}
    (hne : members ≠ []) :
  IsPrimaryText (inText column members) (.inList column members)
  := by
  have hin : bytes " in (".toList = space :: keyIn ++ [space, leftParen] := by decide
  refine ⟨.word column :: .word keyIn :: .char leftParen :: memberTokens members, ?_, ?_⟩
  · have hopen := ((splits_members members).char (c := leftParen)
      (by decide) (by decide)).spaced keyIn (by decide) (by decide)
    have htext := (splits_column h).append (delimited_cons.mpr (by decide)) hopen
    rw [inText, hin]
    simpa only [List.append_assoc, List.cons_append, List.nil_append] using htext
  · apply isPrimary_of_readPredicate h
    intro rest
    have hkeyword : isKeyword keyIn keyIn := by decide
    simp [readPredicate, h, hkeyword, readMembers_memberTokens hne]

/-! ### Disjunctions in parentheses -/

/-- Texts with the key word `OR` between them. -/
def orTexts : List Bytes → Bytes
  | [] => []
  | text :: texts => text ++ texts.flatMap (bytes " or ".toList ++ ·)

theorem orTexts_cons (text : Bytes) {texts : List Bytes} (hne : texts ≠ []) :
  orTexts (text :: texts) = text ++ bytes " or ".toList ++ orTexts texts
  := by
  obtain ⟨text', texts, rfl⟩ := List.exists_cons_of_ne_nil hne
  simp [orTexts]

theorem orTexts_append {texts texts' : List Bytes} (hne : texts ≠ []) (hne' : texts' ≠ []) :
  orTexts (texts ++ texts') = orTexts texts ++ bytes " or ".toList ++ orTexts texts'
  := by
  obtain ⟨text, texts, rfl⟩ := List.exists_cons_of_ne_nil hne
  obtain ⟨text', texts', rfl⟩ := List.exists_cons_of_ne_nil hne'
  simp [orTexts]

/-- The tokens of operands with the key word `OR` before each. -/
def orTokens (operands : List (List Token × Condition)) : List Token :=
  operands.flatMap (fun o => .word keyOr :: o.1)

theorem length_le_orTokens {operands : List (List Token × Condition)}
    {o : List Token × Condition} (ho : o ∈ operands) :
  o.1.length < (orTokens operands).length
  := by
  obtain ⟨before, after, rfl⟩ := List.append_of_mem ho
  simp [orTokens]
  omega

theorem length_operands_le (operands : List (List Token × Condition)) :
  operands.length ≤ (orTokens operands).length
  := by
  induction operands with
  | nil => simp
  | cons o operands ih =>
    rw [orTokens, List.flatMap_cons, List.length_append, List.length_cons, List.length_cons]
    rw [orTokens] at ih
    omega

theorem orTokens_head (operands : List (List Token × Condition)) (rest : List Token) :
  orTokens operands ++ rest = rest ∨ (orTokens operands ++ rest).head? = some (.word keyOr)
  := by
  cases operands <;> simp [orTokens]

theorem Splits.spacedOr {text : Bytes} {tokens : List Token} (h : Splits text tokens) :
  Splits (bytes " or ".toList ++ text) (.word keyOr :: tokens)
  := h.spaced keyOr (by decide) (by decide)

theorem isPrimary_readJoined {operands : List (List Token × Condition)}
    (h : ∀ o ∈ operands, IsPrimary o.1 o.2) {depth : ℕ}
    (hdepth : ∀ o ∈ operands, o.1.length ≤ depth) {rest : List Token}
    (hstops : Stops keyAnd rest) :
  ∀ o ∈ operands, ∀ rest', rest' = rest ∨ rest'.head? = some (.word keyOr) →
    readJoined keyAnd .and (readFactor (readCondition depth)) (o.1 ++ rest')
      = some (o.2, rest')
  := by
  intro o ho rest' hrest'
  obtain ⟨need, hneed, hread⟩ := h o ho
  apply readJoined_of_stops _ (hread depth (Nat.le_trans hneed (hdepth o ho)) rest')
  obtain rfl | hhead := hrest'
  · exact hstops
  · intro w hw
    obtain rfl : keyOr = w := by simpa [hhead] using hw
    decide

theorem readCondition_disjunction (first : List Token × Condition)
    (operands : List (List Token × Condition))
    (h : ∀ o ∈ first :: operands, IsPrimary o.1 o.2) {depth : ℕ}
    (hdepth : ∀ o ∈ first :: operands, o.1.length ≤ depth) {rest : List Token}
    (hand : Stops keyAnd rest) (hor : Stops keyOr rest) :
  readCondition (depth + 1)
      (first.1 ++ orTokens operands ++ rest)
    = some (.disjunction (first.2 :: operands.map (·.2)), rest)
  := by
  have hread := isPrimary_readJoined h hdepth hand
  rw [readCondition, readJoined, List.append_assoc,
    hread first List.mem_cons_self _ (orTokens_head operands rest)]
  simp only [Option.bind_eq_bind, Option.bind_some]
  rw [orTokens, readRest_operands .or (by decide) operands
    (fun o ho => hread o (List.mem_cons_of_mem _ ho)) hor]
  · rw [Condition.disjunction, List.foldl_map]
  · rw [← orTokens, List.length_append]
    exact Nat.le_add_right_of_le (length_operands_le operands)

/-- The tokens behind the first operand of a disjunction. -/
theorem exists_orTokens {operands : List (Bytes × Condition)}
    (h : ∀ o ∈ operands, IsPrimaryText o.1 o.2) :
  ∃ os : List (List Token × Condition),
    Splits (operands.flatMap (fun o => bytes " or ".toList ++ o.1))
        (orTokens os) ∧
      Delimited (operands.flatMap (fun o => bytes " or ".toList ++ o.1)) ∧
      (∀ o ∈ os, IsPrimary o.1 o.2) ∧ os.map (·.2) = operands.map (·.2)
  := by
  induction operands with
  | nil => exact ⟨[], splits_nil, delimited_nil, by simp, rfl⟩
  | cons o operands ih =>
    obtain ⟨os, hsplits, hdelimited, hprimary, hmap⟩ :=
      ih fun o ho => h o (List.mem_cons_of_mem _ ho)
    obtain ⟨tokens, htokens, hread⟩ := h o List.mem_cons_self
    refine ⟨(tokens, o.2) :: os, ?_, ?_, ?_, by simp [hmap]⟩
    · rw [List.flatMap_cons, List.append_assoc]
      exact (htokens.append hdelimited hsplits).spacedOr
    · rw [List.flatMap_cons]
      exact delimited_cons.mpr (by decide)
    · intro o' ho'
      obtain rfl | ho' := List.mem_cons.mp ho'
      · exact hread
      · exact hprimary o' ho'

/-- A disjunction in parentheses is an operand. -/
theorem isPrimaryText_disjunction {operands : List (Bytes × Condition)} (hne : operands ≠ [])
    (h : ∀ o ∈ operands, IsPrimaryText o.1 o.2) :
  IsPrimaryText (leftParen :: (orTexts (operands.map (·.1)) ++ [rightParen]))
    (.disjunction (operands.map (·.2)))
  := by
  obtain ⟨first, operands, rfl⟩ := List.exists_cons_of_ne_nil hne
  obtain ⟨os, hsplits, hdelimited, hprimary, hmap⟩ :=
    exists_orTokens fun o ho => h o (List.mem_cons_of_mem _ ho)
  obtain ⟨tokens, htokens, hread⟩ := h first List.mem_cons_self
  have hparen : Delimited [rightParen] := delimited_cons.mpr (by decide)
  have hclose : Splits [rightParen] [.char rightParen] := splits_nil.char (by decide) (by decide)
  refine ⟨.char leftParen :: (tokens ++ orTokens os
    ++ [.char rightParen]), ?_, ?_⟩
  · have htext := ((htokens.append hdelimited hsplits).append hparen hclose).char
      (c := leftParen) (by decide) (by decide)
    simpa only [List.map_cons, orTexts, List.flatMap_map] using htext
  · refine ⟨(tokens ++ orTokens os).length + 1, ?_, ?_⟩
    · simp
    · intro depth hdepth rest
      obtain ⟨depth, rfl⟩ := Nat.exists_eq_add_of_le' (Nat.le_of_add_left_le hdepth)
      have hlength : ∀ o ∈ (tokens, first.2) :: os, o.1.length ≤ depth := by
        rw [List.length_append] at hdepth
        intro o ho
        obtain rfl | ho := List.mem_cons.mp ho
        · dsimp only
          omega
        · have hlt := length_le_orTokens ho
          omega
      have hstops : ∀ keyword, Stops keyword (.char rightParen :: rest) := by simp [Stops]
      have hcondition := readCondition_disjunction (tokens, first.2) os
        (by simpa using ⟨hread, fun a b hab => hprimary (a, b) hab⟩) hlength
        (hstops keyAnd) (hstops keyOr)
      simp only [List.cons_append, List.append_assoc, List.nil_append] at hcondition ⊢
      rw [readFactor, if_pos rfl, hcondition]
      simp [hmap]

/-! ### Whole conditions -/

/-- An operand alone is read as a condition. -/
theorem parse_primary {text : Bytes} {condition : Condition}
    (h : IsPrimaryText text condition) :
  parse text = some condition
  := by
  obtain ⟨tokens, hsplits, need, hneed, hread⟩ := h
  have hfactor := hread tokens.length hneed []
  rw [List.append_nil] at hfactor
  have hand := readJoined_of_stops .and hfactor (stops_nil keyAnd)
  have hor := readJoined_of_stops .or hand (stops_nil keyOr)
  rw [parse, hsplits.lex_eq, readCondition, hor]

theorem IsPrimaryText.not {text : Bytes} {condition : Condition}
    (h : IsPrimaryText text condition) (hdelimited : Delimited text) :
  IsPrimaryText (keyNot ++ text) (.not condition)
  := by
  obtain ⟨tokens, hsplits, need, hneed, hread⟩ := h
  refine ⟨.word keyNot :: tokens, hsplits.word (by decide) (by decide) hdelimited,
    need, Nat.le_succ_of_le hneed, ?_⟩
  intro depth hdepth rest
  have hkey : isKeyword keyNot keyNot := by decide
  rw [List.cons_append, readFactor, if_pos hkey, hread depth hdepth rest]
  rfl

/-- Two operands with the key word `AND` between them are read as their conjunction. -/
theorem parse_and {text text' : Bytes} {condition condition' : Condition}
    (h : IsPrimaryText text condition) (h' : IsPrimaryText text' condition')
    (hdelimited : Delimited text') :
  parse (text ++ bytes " and".toList ++ text') = some (.and condition condition')
  := by
  obtain ⟨tokens, hsplits, need, hneed, hread⟩ := h
  obtain ⟨tokens', hsplits', need', hneed', hread'⟩ := h'
  have hkey : bytes " and".toList = space :: keyAnd := by decide
  have hlex : lex (text ++ bytes " and".toList ++ text') = tokens ++ .word keyAnd :: tokens' := by
    apply Splits.lex_eq
    rw [List.append_assoc, hkey]
    exact hsplits.append (delimited_cons.mpr (by decide))
      (hsplits'.word (by decide) (by decide) hdelimited).space
  obtain ⟨depth, hdepth⟩ : ∃ depth, (tokens ++ .word keyAnd :: tokens').length = depth := ⟨_, rfl⟩
  have hlength : tokens.length + tokens'.length + 1 = depth := by
    rw [← hdepth, List.length_append, List.length_cons, Nat.add_assoc]
  have hsecond : ∀ o ∈ [(tokens', condition')], ∀ rest' : List Token,
      rest' = [] ∨ rest'.head? = some (.word keyAnd) →
        readFactor (readCondition depth) (o.1 ++ rest') = some (o.2, rest') := by
    intro o ho rest' _
    obtain rfl := List.mem_singleton.mp ho
    exact hread' depth (by omega) rest'
  have hrounds : [(tokens', condition')].length ≤ tokens'.length + 1 := by simp
  have hrest := readRest_operands .and (by decide : isKeyword keyAnd keyAnd)
    [(tokens', condition')] hsecond (stops_nil keyAnd) hrounds condition
  have hand : readJoined keyAnd .and (readFactor (readCondition depth))
      (tokens ++ .word keyAnd :: tokens') = some (.and condition condition', []) := by
    rw [readJoined, hread depth (by omega)]
    simpa using hrest
  have hor := readJoined_of_stops .or hand (stops_nil keyOr)
  rw [parse, hlex, hdepth, readCondition, hor]

end SqlCondition
