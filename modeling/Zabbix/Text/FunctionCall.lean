import Zabbix.Library.Ascii

/-!
# Function calls in expressions

`parse_function` reads the name and the parameters of a function, or merely moves over it.  The
scan for the closing parenthesis starts behind the opening one when the name is asked for, and
at the opening one otherwise, so that a quote at the start of the first parameter is then a
character of an unquoted parameter.
-/

open Ascii

namespace FunctionCall

/-- `is_function_char`. -/
def isFunctionChar (c : UInt8) : Bool := 0x61 ≤ c && c ≤ 0x7a

/-- The states of the scan over the parameters, but for the last one. -/
inductive ParamState where
  | init | quoted | unquoted
deriving DecidableEq

/-- A result with a text in front of the one scanned. -/
def prepend (front : Bytes) (r : Except Bytes (Bytes × Bytes)) : Except Bytes (Bytes × Bytes) :=
  r.map fun (before, behind) => (front ++ before, behind)

/-- The scan over the parameters: the text before the closing parenthesis and the text behind
it, or the text from the incorrect character on. -/
def scanParams : ParamState → Bytes → Except Bytes (Bytes × Bytes)
  | _, [] => .error []
  | .init, c :: rest =>
    if c = comma ∨ c = space then prepend [c] (scanParams .init rest)
    else if c = quote then prepend [c] (scanParams .quoted rest)
    else if c = rightParen then .ok ([], rest)
    else prepend [c] (scanParams .unquoted rest)
  | .unquoted, c :: rest =>
    if c = comma then prepend [c] (scanParams .init rest)
    else if c = rightParen then .ok ([], rest)
    else prepend [c] (scanParams .unquoted rest)
  | .quoted, [_] => .error []
  | .quoted, c :: d :: rest =>
    if c = quote then
      if d ≠ quote then prepend [c] (scanParams .init (d :: rest)) else .error (c :: d :: rest)
    else if c = backslash ∧ d = quote then prepend [c, d] (scanParams .quoted rest)
    else prepend [c] (scanParams .quoted (d :: rest))

/-- What `parse_function` returns and writes. -/
structure FunctionResult where
  ret : Bool
  exp : Bytes
  func : Option Bytes
  params : Option Bytes
deriving DecidableEq

/-- `parse_function`; the flags say whether `func` and `params` are not `NULL`. -/
def parseFunction (wantFunc wantParams : Bool) (exp : Bytes) : FunctionResult :=
  let name := exp.takeWhile isFunctionChar
  match exp.dropWhile isFunctionChar with
  | c :: rest =>
    if name = [] ∨ c ≠ leftParen then ⟨false, c :: rest, none, none⟩
    else
      match scanParams .init (if wantFunc then rest else c :: rest) with
      | .ok (params, behind) =>
        ⟨true, behind, if wantFunc then some name else none,
          if wantParams then some params else none⟩
      | .error behind => ⟨false, behind, none, none⟩
  | [] => ⟨false, [], none, none⟩

/-! ### Texts before the closing parenthesis -/

/-- A quoted parameter behind its opening quote, with the closing one. -/
inductive Quoted : Bytes → Prop where
  | close : Quoted [quote]
  | escape {text : Bytes} (h : Quoted text) : Quoted (backslash :: quote :: text)
  | char {c : UInt8} {text : Bytes} (hc : c ≠ quote)
      (hescape : c = backslash → text.head? ≠ some quote) (h : Quoted text) :
      Quoted (c :: text)

/-- Parameters without a parenthesis that would close them: every parenthesis stands in a quoted
parameter. `start` says whether the text begins where a parameter may begin. -/
inductive Outside : (start : Bool) → Bytes → Prop where
  | nil {start : Bool} : Outside start []
  | separator {start : Bool} {text : Bytes} (h : Outside true text) :
      Outside start (comma :: text)
  | blank {text : Bytes} (h : Outside true text) : Outside true (space :: text)
  | quoted {param text : Bytes} (hparam : Quoted param) (hnext : text.head? ≠ some quote)
      (h : Outside true text) : Outside true (quote :: param ++ text)
  | char {start : Bool} {c : UInt8} {text : Bytes} (hc : c ≠ comma ∧ c ≠ rightParen)
      (hstart : start = true → c ≠ space ∧ c ≠ quote) (h : Outside false text) :
      Outside start (c :: text)

/-- The state of the scan where a parameter may begin, or within an unquoted one. -/
def stateOf (start : Bool) : ParamState := if start then .init else .unquoted

theorem prepend_eq_ok {front before behind : Bytes} {r : Except Bytes (Bytes × Bytes)} :
  prepend front r = .ok (before, behind) ↔
    ∃ rest, r = .ok (rest, behind) ∧ before = front ++ rest
  := by
  cases r with
  | error e => simp [prepend, Except.map]
  | ok p =>
    obtain ⟨rest, behind'⟩ := p
    simp only [prepend, Except.map, Except.ok.injEq, Prod.mk.injEq]
    constructor
    · rintro ⟨rfl, rfl⟩
      exact ⟨rest, ⟨rfl, rfl⟩, rfl⟩
    · rintro ⟨_, ⟨rfl, rfl⟩, rfl⟩
      exact ⟨rfl, rfl⟩

theorem Quoted.ne_nil {text : Bytes} (h : Quoted text) : text ≠ [] := by
  cases h <;> simp

/-- The scan moves over a quoted parameter. -/
theorem scanParams_quoted {param text : Bytes} (hparam : Quoted param)
    (hnext : text.head? ≠ some quote) (hne : text ≠ []) :
  scanParams .quoted (param ++ text) = prepend param (scanParams .init text)
  := by
  induction hparam with
  | close =>
    cases text with
    | nil => exact absurd rfl hne
    | cons d rest =>
      have hd : d ≠ quote := fun hd => hnext (congrArg some hd)
      rw [List.singleton_append]
      conv_lhs => rw [scanParams, if_pos rfl, if_pos hd]
  | @escape param _ ih =>
    have hback := backslash_ne_quote
    rw [List.cons_append, List.cons_append, scanParams, if_neg hback, if_pos ⟨rfl, rfl⟩, ih]
    cases scanParams .init text <;> simp [prepend, Except.map]
  | @char c param hc hescape hparam ih =>
    obtain ⟨d, param, rfl⟩ := List.exists_cons_of_ne_nil hparam.ne_nil
    have hplain : ¬ (c = backslash ∧ d = quote) := fun h => hescape h.1 (congrArg some h.2)
    rw [List.cons_append, List.cons_append, scanParams, if_neg hc, if_neg hplain,
      ← List.cons_append, ih]
    cases scanParams .init text <;> simp [prepend, Except.map]

/-- The scan stops at the first parenthesis outside a quoted parameter. -/
theorem scanParams_of_outside {start : Bool} {params : Bytes} (h : Outside start params)
    (behind : Bytes) :
  scanParams (stateOf start) (params ++ rightParen :: behind) = .ok (params, behind)
  := by
  induction h with
  | @nil start =>
    have hparen : rightParen ≠ comma ∧ rightParen ≠ space ∧ rightParen ≠ quote := by decide
    cases start <;> simp [stateOf, scanParams, hparen]
  | @separator start text _ ih =>
    cases start <;>
    · rw [List.cons_append]
      simp only [stateOf, scanParams, true_or, if_true, Bool.false_eq_true, if_false] at ih ⊢
      rw [ih]
      rfl
  | blank _ ih =>
    rw [List.cons_append]
    simp only [stateOf, scanParams, or_true, if_true] at ih ⊢
    rw [ih]
    rfl
  | @quoted param text hparam hnext _ ih =>
    have hquote : ¬ (quote = comma ∨ quote = space) := by decide
    have hhead : (text ++ rightParen :: behind).head? ≠ some quote := by
      cases text with
      | nil => simp [show rightParen ≠ quote by decide]
      | cons d rest => exact hnext
    rw [List.append_assoc, List.cons_append]
    simp only [stateOf, if_true] at ih ⊢
    rw [scanParams, if_neg hquote, if_pos rfl, scanParams_quoted hparam hhead (by simp), ih]
    rfl
  | @char start c text hc hstart _ ih =>
    rw [List.cons_append]
    simp only [stateOf, Bool.false_eq_true, if_false] at ih
    cases start with
    | false =>
      simp only [stateOf, Bool.false_eq_true, if_false]
      rw [scanParams, if_neg hc.1, if_neg hc.2, ih]
      rfl
    | true =>
      obtain ⟨hspace, hquote⟩ := hstart rfl
      simp only [stateOf, if_true]
      rw [scanParams, if_neg (by simp [hc.1, hspace]), if_neg hquote, if_neg hc.2, ih]
      rfl

/-- What the scan accepts in each of its states. -/
def Scanned (before behind : Bytes) : ParamState → Bytes → Prop
  | .init, text => text = before ++ rightParen :: behind ∧ Outside true before
  | .unquoted, text => text = before ++ rightParen :: behind ∧ Outside false before
  | .quoted, text => ∃ param rest, Quoted param ∧ rest.head? ≠ some quote ∧
      before = param ++ rest ∧ text = before ++ rightParen :: behind ∧ Outside true rest

theorem scanned_of_ok {state : ParamState} {text before behind : Bytes}
    (h : scanParams state text = .ok (before, behind)) :
  Scanned before behind state text
  := by
  fun_induction scanParams state text generalizing before with
  | case1 => cases h
  | case2 c rest hc ih =>
    obtain ⟨before, hrest, rfl⟩ := prepend_eq_ok.mp h
    obtain ⟨rfl, houtside⟩ := ih hrest
    obtain rfl | rfl := hc
    · exact ⟨rfl, .separator houtside⟩
    · exact ⟨rfl, .blank houtside⟩
  | case3 rest hquote ih =>
    obtain ⟨before, hrest, rfl⟩ := prepend_eq_ok.mp h
    obtain ⟨param, rest', hparam, hnext, rfl, rfl, houtside⟩ := ih hrest
    exact ⟨rfl, (.quoted hparam hnext houtside : Outside true (quote :: param ++ rest'))⟩
  | case4 rest =>
    cases h
    exact ⟨rfl, .nil⟩
  | case5 c rest hsep hquote hparen ih =>
    obtain ⟨before, hrest, rfl⟩ := prepend_eq_ok.mp h
    obtain ⟨rfl, houtside⟩ := ih hrest
    obtain ⟨hcomma, hspace⟩ := not_or.mp hsep
    exact ⟨rfl, .char ⟨hcomma, hparen⟩ (fun _ => ⟨hspace, hquote⟩) houtside⟩
  | case6 rest ih =>
    obtain ⟨before, hrest, rfl⟩ := prepend_eq_ok.mp h
    obtain ⟨rfl, houtside⟩ := ih hrest
    exact ⟨rfl, .separator houtside⟩
  | case7 rest =>
    cases h
    exact ⟨rfl, .nil⟩
  | case8 c rest hcomma hparen ih =>
    obtain ⟨before, hrest, rfl⟩ := prepend_eq_ok.mp h
    obtain ⟨rfl, houtside⟩ := ih hrest
    exact ⟨rfl, .char ⟨hcomma, hparen⟩ (fun h => by cases h) houtside⟩
  | case9 => cases h
  | case10 d rest hd ih =>
    obtain ⟨before, hrest, rfl⟩ := prepend_eq_ok.mp h
    obtain ⟨htext, houtside⟩ := ih hrest
    refine ⟨[quote], before, .close, ?_, rfl, by rw [htext]; rfl, houtside⟩
    cases before with
    | nil => simp
    | cons e before =>
      rw [List.cons_append, List.cons.injEq] at htext
      rw [List.head?_cons, ← htext.1]
      exact fun heq => hd (Option.some.inj heq)
  | case11 => cases h
  | case12 c d rest hquote hescape ih =>
    obtain ⟨rfl, rfl⟩ := hescape
    obtain ⟨before, hrest, rfl⟩ := prepend_eq_ok.mp h
    obtain ⟨param, rest', hparam, hnext, rfl, rfl, houtside⟩ := ih hrest
    exact ⟨backslash :: quote :: param, rest', .escape hparam, hnext, rfl, rfl, houtside⟩
  | case13 c d rest hquote hescape ih =>
    obtain ⟨before, hrest, rfl⟩ := prepend_eq_ok.mp h
    obtain ⟨param, rest', hparam, hnext, rfl, htext, houtside⟩ := ih hrest
    refine ⟨c :: param, rest', .char hquote ?_ hparam, hnext, rfl, by rw [htext]; rfl, houtside⟩
    obtain ⟨e, param, rfl⟩ := List.exists_cons_of_ne_nil hparam.ne_nil
    simp only [List.cons_append, List.cons.injEq] at htext
    intro hc heq
    rw [List.head?_cons, ← htext.1] at heq
    exact hescape ⟨hc, Option.some.inj heq⟩

/-- The scan stops at the first parenthesis outside a quoted parameter, and nowhere else. -/
theorem scanParams_iff {start : Bool} {text params behind : Bytes} :
  scanParams (stateOf start) text = .ok (params, behind) ↔
    text = params ++ rightParen :: behind ∧ Outside start params
  := by
  constructor
  · intro h
    cases start with
    | false => exact @scanned_of_ok .unquoted _ _ _ h
    | true => exact @scanned_of_ok .init _ _ _ h
  · rintro ⟨rfl, houtside⟩
    exact scanParams_of_outside houtside behind

/-! ### Reading a call and moving over it -/

/-- The name of a function. -/
def IsName (name : Bytes) : Prop := name ≠ [] ∧ ∀ c ∈ name, isFunctionChar c

theorem IsName.takeWhile {name : Bytes} (h : IsName name) (text : Bytes) :
  (name ++ leftParen :: text).takeWhile isFunctionChar = name
  := by
  rw [List.takeWhile_append_of_pos h.2, List.takeWhile_cons_of_neg (by decide), List.append_nil]

theorem IsName.dropWhile {name : Bytes} (h : IsName name) (text : Bytes) :
  (name ++ leftParen :: text).dropWhile isFunctionChar = leftParen :: text
  := by
  rw [List.dropWhile_append_of_pos h.2, List.dropWhile_cons_of_neg (by decide)]

/-- A text starts with one call at most. -/
theorem IsName.unique {name name' text text' : Bytes} (h : IsName name) (h' : IsName name')
    (heq : name ++ leftParen :: text = name' ++ leftParen :: text') :
  name = name' ∧ text = text'
  := by
  have hname : name = name' := by rw [← h.takeWhile text, heq, h'.takeWhile]
  subst hname
  exact ⟨rfl, List.tail_eq_of_cons_eq (List.append_cancel_left heq)⟩

/-- Behind a name and an opening parenthesis the scan decides; when the name is not asked for, it
starts within an unquoted parameter. -/
theorem parseFunction_call {name : Bytes} (h : IsName name) (wantFunc wantParams : Bool)
    (text : Bytes) :
  parseFunction wantFunc wantParams (name ++ leftParen :: text) =
    match scanParams .init (if wantFunc then text else leftParen :: text) with
    | .ok (params, behind) =>
      ⟨true, behind, if wantFunc then some name else none,
        if wantParams then some params else none⟩
    | .error behind => ⟨false, behind, none, none⟩
  := by
  have hname : ¬ (name = [] ∨ leftParen ≠ leftParen) := by simp [h.1]
  simp only [parseFunction, h.takeWhile, h.dropWhile, if_neg hname]

theorem scanParams_leftParen (text : Bytes) :
  scanParams .init (leftParen :: text) = prepend [leftParen] (scanParams .unquoted text)
  := by
  have hparen : ¬ (leftParen = comma ∨ leftParen = space) ∧ leftParen ≠ quote ∧
      leftParen ≠ rightParen := by decide
  rw [scanParams, if_neg hparen.1, if_neg hparen.2.1, if_neg hparen.2.2]

/-- Only a name with an opening parenthesis behind it is accepted. -/
theorem exists_call_of_ret {wantFunc wantParams : Bool} {exp : Bytes}
    (h : (parseFunction wantFunc wantParams exp).ret = true) :
  ∃ name text, IsName name ∧ exp = name ++ leftParen :: text
  := by
  have hexp := List.takeWhile_append_dropWhile (p := isFunctionChar) (l := exp)
  simp only [parseFunction] at h
  cases hdrop : exp.dropWhile isFunctionChar with
  | nil =>
    rw [hdrop] at h
    cases h
  | cons c rest =>
    rw [hdrop] at h hexp
    by_cases hcall : exp.takeWhile isFunctionChar = [] ∨ c ≠ leftParen
    · dsimp only at h
      rw [if_pos hcall] at h
      cases h
    · obtain ⟨hne, hparen⟩ := not_or.mp hcall
      rw [not_not.mp hparen] at hexp
      refine ⟨_, rest, ⟨hne, fun c hc => ?_⟩, hexp.symm⟩
      exact List.all_eq_true.mp List.all_takeWhile c hc

/-- What `parse_function` accepts and returns, read or moved over. -/
theorem parseFunction_eq_true_iff {wantFunc wantParams : Bool} {exp : Bytes} :
  (parseFunction wantFunc wantParams exp).ret = true ↔
    ∃ name params behind, IsName name ∧ Outside wantFunc params ∧
      exp = name ++ leftParen :: (params ++ rightParen :: behind) ∧
      parseFunction wantFunc wantParams exp =
        ⟨true, behind, if wantFunc then some name else none,
          if wantParams then some (if wantFunc then params else leftParen :: params) else none⟩
  := by
  constructor
  · intro h
    obtain ⟨name, text, hname, rfl⟩ := exists_call_of_ret h
    rw [parseFunction_call hname] at h ⊢
    cases wantFunc with
    | true =>
      simp only [if_true] at h ⊢
      cases hscan : scanParams .init text with
      | error behind =>
        rw [hscan] at h
        cases h
      | ok result =>
        obtain ⟨params, behind⟩ := result
        obtain ⟨rfl, houtside⟩ := (@scanParams_iff true _ _ _).mp hscan
        exact ⟨name, params, behind, hname, houtside, rfl, rfl⟩
    | false =>
      simp only [Bool.false_eq_true, if_false, scanParams_leftParen] at h ⊢
      cases hscan : scanParams .unquoted text with
      | error behind =>
        rw [hscan] at h
        cases h
      | ok result =>
        obtain ⟨params, behind⟩ := result
        obtain ⟨rfl, houtside⟩ := (@scanParams_iff false _ _ _).mp hscan
        exact ⟨name, params, behind, hname, houtside, rfl, rfl⟩
  · rintro ⟨_, _, _, _, _, _, h⟩
    rw [h]

/-- The call with both outputs requested and the call with both `NULL` agree, and what they
accept is a call whose parameters and name are the texts returned. -/
def Meets (exp : Bytes) : Prop :=
  let read := parseFunction true true exp
  let skipped := parseFunction false false exp
  read.ret = skipped.ret ∧
    (read.ret = true →
      read.exp = skipped.exp ∧
      ∃ name params, IsName name ∧ Outside true params ∧
        exp = name ++ leftParen :: (params ++ rightParen :: read.exp) ∧
        read.func = some name ∧ read.params = some params)

/-- The list of parameters ends at the same parenthesis when a quote at its start is taken for a
character of an unquoted parameter. -/
def EndsAlike (exp : Bytes) : Prop :=
  ∀ name params behind, IsName name →
    exp = name ++ leftParen :: (params ++ rightParen :: behind) →
      (Outside true params ↔ Outside false params)

theorem ret_of_outside {name params : Bytes} {wantFunc : Bool} (hname : IsName name)
    (h : Outside wantFunc params) (behind : Bytes) :
  parseFunction wantFunc wantFunc (name ++ leftParen :: (params ++ rightParen :: behind)) =
      ⟨true, behind, if wantFunc then some name else none,
        if wantFunc then some params else none⟩
  := by
  have hscan := scanParams_iff.mpr
    (⟨rfl, h⟩ : params ++ rightParen :: behind = params ++ rightParen :: behind ∧ _)
  rw [parseFunction_call hname]
  cases wantFunc with
  | true =>
    simp only [stateOf, if_true] at hscan ⊢
    rw [hscan]
  | false =>
    simp only [stateOf, Bool.false_eq_true, if_false, scanParams_leftParen] at hscan ⊢
    rw [hscan]
    rfl

/-- A list of parameters ends where it ends for a call that returns and moves on alike. -/
theorem Outside.of_agree {name params behind : Bytes} {wantFunc wantFunc' : Bool}
    (hname : IsName name)
    (hret : (parseFunction wantFunc' wantFunc'
        (name ++ leftParen :: (params ++ rightParen :: behind))).ret =
      (parseFunction wantFunc wantFunc
        (name ++ leftParen :: (params ++ rightParen :: behind))).ret)
    (hagree : (parseFunction wantFunc wantFunc
        (name ++ leftParen :: (params ++ rightParen :: behind))).ret = true →
      (parseFunction wantFunc' wantFunc'
          (name ++ leftParen :: (params ++ rightParen :: behind))).exp =
        (parseFunction wantFunc wantFunc
          (name ++ leftParen :: (params ++ rightParen :: behind))).exp)
    (houtside : Outside wantFunc params) :
  Outside wantFunc' params
  := by
  rw [ret_of_outside hname houtside behind] at hret hagree
  obtain ⟨name', params', behind', hname', houtside', hexp, heq⟩ :=
    parseFunction_eq_true_iff.mp hret
  rw [heq] at hagree
  have hbehind : behind' = behind := hagree rfl
  obtain ⟨-, htext⟩ := hname.unique hname' hexp
  rw [hbehind] at htext
  rwa [List.append_cancel_right htext]

/-- Reading a call and moving over it agree exactly when the list of parameters ends at the same
parenthesis in both readings. -/
theorem call_meets_iff (exp : Bytes) :
  Meets exp ↔ EndsAlike exp
  := by
  constructor
  · rintro ⟨hret, hagree⟩ name params behind hname rfl
    constructor
    · exact Outside.of_agree hname hret.symm fun hread => (hagree hread).1.symm
    · exact Outside.of_agree hname hret fun hskipped => (hagree (hret.trans hskipped)).1
  · intro h
    by_cases hread : (parseFunction true true exp).ret = true
    · obtain ⟨name, params, behind, hname, houtside, hexp, heq⟩ :=
        parseFunction_eq_true_iff.mp hread
      have hskipped : Outside false params := (h name params behind hname hexp).mp houtside
      have heq' := ret_of_outside hname hskipped behind
      rw [← hexp] at heq'
      unfold Meets
      rw [heq, heq']
      exact ⟨rfl, fun _ => ⟨rfl, name, params, hname, houtside, hexp, rfl, rfl⟩⟩
    · have hfail : (parseFunction false false exp).ret = false := by
        by_contra hskipped
        obtain ⟨name, params, behind, hname, houtside, hexp, -⟩ :=
          parseFunction_eq_true_iff.mp (Bool.not_eq_false _ ▸ hskipped)
        have hother : Outside true params := (h name params behind hname hexp).mpr houtside
        rw [hexp, ret_of_outside hname hother behind] at hread
        exact hread rfl
      exact ⟨by rw [hfail]; exact Bool.eq_false_iff.mpr hread, fun hret => absurd hret hread⟩

/-- `last("a)b")`. -/
def quotedParenthesis : Bytes :=
  [0x6c, 0x61, 0x73, 0x74, 0x28, 0x22, 0x61, 0x29, 0x62, 0x22, 0x29]

/-- A parenthesis in a quoted first parameter ends the call when it is moved over. -/
theorem quotedParenthesis_not_meets :
  ¬ Meets quotedParenthesis
  := by
  rintro ⟨hret, hagree⟩
  have hexp : (parseFunction true true quotedParenthesis).exp ≠
      (parseFunction false false quotedParenthesis).exp := by decide
  exact hexp (hagree (by decide)).1

end FunctionCall
