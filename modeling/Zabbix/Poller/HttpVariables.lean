import Mathlib.Data.List.DropRight
import Mathlib.Data.List.SplitOn
import Zabbix.Library.Buffer
import Zabbix.Library.Table

/-!
# Web scenario variables

The variables of a web scenario are the lines `{name}=value` of a text.  `http_process_variables`
reads it with pointers, and puts name and value into a vector, in which a name occurs once.  A
value that begins with `regex:` is searched for in the page that has been downloaded.
-/

open Ascii

namespace HttpMacro

/-! ### The vector -/

/-- `zbx_vector_ptr_pair_remove_noorder`: the last element takes the place of the removed one. -/
def removeNoorder {α : Type} (values : List α) (index : ℕ) : List α :=
  match values.getLast? with
  | some last => (values.set index last).dropLast
  | none => []

/-- `httptest->macros`, names and values. -/
abbrev Macros := List (Bytes × Bytes)

/-- `zbx_vector_ptr_pair_search` with `httpmacro_cmp_func`. -/
def searchPair (macros : Macros) (name : Bytes) : Option ℕ :=
  macros.findIdx? fun pair => pair.1 = name

/-- The end of `httpmacro_append_pair`: an existing macro is removed, and the new one appended. -/
def putPair (macros : Macros) (name value : Bytes) : Macros :=
  let macros :=
    match searchPair macros name with
    | some index => removeNoorder macros index
    | none => macros
  macros ++ [(name, value)]

/-! ### Appending a pair -/

/-- `REGEXP_PREFIX`. -/
def regexpPrefix : Bytes := bytes "regex:".toList

/-- The output template of which the match has no result without a captured group. -/
def captured : Bytes := bytes "\\@".toList

/-- `err_str` is set when there is one and nothing stands in it. -/
def setError (errStr : Option (Option Bytes)) (message : Bytes) : Option (Option Bytes) :=
  errStr.map fun text => some (text.getD message)

def missingName (value : Bytes) : Bytes :=
  bytes "missing variable name (only value provided): \"".toList ++ value ++ [quote]

def missingValue (key : Bytes) : Bytes :=
  bytes "missing variable value (only name provided): \"".toList ++ key ++ [quote]

def notEnclosed (key : Bytes) : Bytes :=
  quote :: key ++ bytes "\" not enclosed in ".toList ++ [leftBrace, rightBrace]

def cannotExtract (key : Bytes) : Bytes :=
  bytes "cannot extract the value of \"".toList ++ key ++ bytes "\" from response".toList

/-- `httpmacro_append_pair`, where `sub` is `zbx_mregexp_sub`. -/
def appendPair (sub : Bytes → Bytes → Bytes → Option Bytes) (data : Option Bytes)
    (macros : Macros) (errStr : Option (Option Bytes)) (key value : Bytes) :
    Bool × Macros × Option (Option Bytes) :=
  if key = [] ∨ value = [] then
    if key = [] ∧ value ≠ [] then (false, macros, setError errStr (missingName value))
    else if value = [] ∧ key ≠ [] then (false, macros, setError errStr (missingValue key))
    else (false, macros, errStr)
  else if key.head? ≠ some leftBrace ∨ key.getLast? ≠ some rightBrace then
    (false, macros, setError errStr (notEnclosed key))
  else if regexpPrefix <+: value then
    match data with
    | none => (true, macros, errStr)
    | some data =>
      match sub data (value.drop regexpPrefix.length) captured with
      | none => (false, macros, setError errStr (cannotExtract key))
      | some second => (true, putPair macros key second, errStr)
  else (true, putPair macros key value, errStr)

/-! ### Reading the lines -/

/-- The characters that are trimmed. -/
def isBlank (c : UInt8) : Bool := c = space ∨ c = tab

def isLineEnd (c : UInt8) : Bool := c = newline ∨ c = carriageReturn

/-- `TRIM_TRAILING_WHITESPACE`; there is no result in front of the memory. -/
def trimTrailing (mem : Bytes) : ℕ → Option ℕ
  | 0 => none
  | ptr + 1 => do
    let c ← mem[ptr]?
    if isBlank c then trimTrailing mem ptr else some ptr

/-- A key, or a value, between a pointer and its tail. -/
def readTrimmed (mem : Bytes) (ptr ptail : ℕ) : Option Bytes := do
  let ptr ← Buffer.skip isBlank mem ptr
  if ptr ≠ ptail then do
    let ptail ← trimTrailing mem ptail
    some ((mem.drop ptr).take (ptail - ptr + 1))
  else some []

/-- The end of the line that begins at a pointer, and its key and value, if it is parsed. -/
def parseLine (mem : Bytes) (pkey : ℕ) : Option (ℕ × Option (Bytes × Bytes)) := do
  let ptr ← Buffer.skip (fun c => !(isLineEnd c || c = 0)) mem pkey
  match ← Buffer.strchr mem pkey equalSign with
  | none => return (ptr, none)
  | some pvalue =>
    if pvalue < ptr then do
      let key ← readTrimmed mem pkey pvalue
      let value ← readTrimmed mem (pvalue + 1) ptr
      return (ptr, some (key, value))
    else return (ptr, none)

/-- The loop of `http_process_variables` over the memory of the text. -/
def processLoop (sub : Bytes → Bytes → Bytes → Option Bytes) (data : Option Bytes)
    (mem : Bytes) :
    ℕ → ℕ → Macros → Option (Option Bytes) → Option (Bool × Macros × Option (Option Bytes))
  | 0, _, _, _ => none
  | fuel + 1, pkey, macros, errStr => do
    let c ← mem[pkey]?
    if c = 0 then return (true, macros, errStr)
    else
      let (ptr, line) ← parseLine mem pkey
      let (ret, macros, errStr) :=
        match line with
        | some (key, value) => appendPair sub data macros errStr key value
        | none => (true, macros, errStr)
      if ret then do
        let pkey ← Buffer.skip isLineEnd mem ptr
        processLoop sub data mem fuel pkey macros errStr
      else return (false, macros, errStr)

/-- `http_process_variables`: whether it succeeds, the macros and `err_str`. -/
def httpProcessVariables (sub : Bytes → Bytes → Bytes → Option Bytes) (fuel : ℕ)
    (text : Bytes) (data : Option Bytes) (macros : Macros)
    (errStr : Option (Option Bytes)) : Option (Bool × Macros × Option (Option Bytes)) :=
  processLoop sub data (text ++ [0]) fuel 0 macros errStr

/-! ### What the lines say -/

/-- A text without the blanks and tabs around it. -/
def trim (text : Bytes) : Bytes := (text.dropWhile isBlank).rdropWhile isBlank

/-- Key and value of a line with an equal sign. -/
def keyValue (line : Bytes) : Option (Bytes × Bytes) :=
  if equalSign ∈ line then
    some (trim (line.takeWhile (· ≠ equalSign)), trim ((line.dropWhile (· ≠ equalSign)).drop 1))
  else none

/-- Keys and values of the lines of a text. -/
def keyValues (text : Bytes) : List (Bytes × Bytes) :=
  (text.splitOnP isLineEnd).filterMap keyValue

/-! ### Trimming -/

section

variable {mem front piece : Bytes} {stop : UInt8}

theorem trimTrailing_eq {core blanks : Bytes} {c : UInt8} (hc : isBlank c = false)
    (hblanks : ∀ d ∈ blanks, isBlank d = true)
    (hmem : core ++ (c :: blanks) <+: mem) :
  trimTrailing mem (core.length + (c :: blanks).length) = some core.length
  := by
  induction blanks using List.reverseRecOn with
  | nil =>
    obtain ⟨rest, rfl⟩ := hmem
    rw [List.length_singleton, trimTrailing]
    simp [hc]
  | append_singleton blanks d ih =>
    obtain ⟨hblanks, hd⟩ := List.forall_mem_append.mp hblanks
    have hshorter : core ++ (c :: blanks) <+: mem := by
      refine List.IsPrefix.trans ?_ hmem
      rw [List.prefix_append_right_inj]
      exact ⟨[d], rfl⟩
    have hget : mem[core.length + (c :: blanks).length]? = some d := by
      obtain ⟨rest, rfl⟩ := hmem
      rw [← List.cons_append, ← List.append_assoc, ← List.length_append]
      simp
    rw [← List.cons_append, List.length_append, List.length_singleton, ← Nat.add_assoc,
      trimTrailing, hget]
    dsimp only [Option.bind_eq_bind, Option.bind_some]
    rw [if_pos (hd d (List.mem_singleton_self d)), ih hblanks hshorter]

/-- A text of blanks is trimmed to nothing, and another one begins and ends with characters that
are no blanks. -/
theorem trim_cases (piece : Bytes) :
  ((∀ d ∈ piece, isBlank d = true) ∧ trim piece = []) ∨
    ∃ blanks c rest core e behind, piece = blanks ++ (trim piece ++ behind) ∧
      trim piece = c :: rest ∧ trim piece = core ++ [e] ∧ isBlank c = false ∧
      isBlank e = false ∧ (∀ d ∈ blanks, isBlank d = true) ∧ ∀ d ∈ behind, isBlank d = true
  := by
  have hpiece := List.takeWhile_append_dropWhile (p := isBlank) (l := piece)
  have hleft : ∀ d ∈ piece.takeWhile isBlank, isBlank d = true :=
    fun d hd => List.mem_takeWhile_imp hd
  cases hbody : piece.dropWhile isBlank with
  | nil =>
    rw [hbody, List.append_nil] at hpiece
    rw [hpiece] at hleft
    exact .inl ⟨hleft, by rw [trim, hbody, List.rdropWhile_nil]⟩
  | cons c body =>
    right
    have hc : isBlank c = false := by
      have hhead := List.head?_dropWhile_not isBlank piece
      rw [hbody] at hhead
      simpa using hhead
    have htrim : trim piece ++ (c :: body).rtakeWhile isBlank = c :: body := by
      rw [trim, hbody, List.rdropWhile_append_rtakeWhile]
    have hne : trim piece ≠ [] := by
      intro hnil
      rw [trim, hbody, List.rdropWhile_eq_nil_iff] at hnil
      rw [hnil c List.mem_cons_self] at hc
      contradiction
    have hlast : isBlank ((trim piece).getLast hne) = false := by
      have hnot := List.rdropWhile_last_not isBlank (piece.dropWhile isBlank) hne
      exact Bool.eq_false_iff.mpr hnot
    obtain ⟨c', rest, hcons⟩ := List.exists_cons_of_ne_nil hne
    obtain rfl : c' = c := by
      rw [hcons, List.cons_append] at htrim
      exact (List.cons.inj htrim).1
    refine ⟨piece.takeWhile isBlank, c', rest, (trim piece).dropLast, (trim piece).getLast hne,
      (c' :: body).rtakeWhile isBlank, ?_, hcons, (List.dropLast_append_getLast hne).symm, hc,
      hlast, hleft, fun d hd => List.mem_rtakeWhile_imp hd⟩
    rw [htrim, ← hbody, hpiece]

/-- A piece is read without what is trimmed, whatever the piece is. -/
theorem readTrimmed_eq (hstop : isBlank stop = false) (hmem : front ++ (piece ++ [stop]) <+: mem) :
  readTrimmed mem front.length (front.length + piece.length) = some (trim piece)
  := by
  obtain ⟨hblank, htrim⟩ | ⟨blanks, c, rest, core, e, behind, hpiece, hcons, hlast, hc, he,
    hblanks, hbehind⟩ := trim_cases piece
  · rw [readTrimmed, Buffer.skip_found hblank hstop hmem, htrim]
    simp
  · rw [hpiece] at hmem
    have hskip : Buffer.skip isBlank mem front.length = some (front.length + blanks.length) := by
      refine Buffer.skip_found hblanks hc (List.IsPrefix.trans ?_ hmem)
      rw [List.prefix_append_right_inj, List.append_assoc, List.prefix_append_right_inj, hcons]
      exact ⟨rest ++ behind ++ [stop], rfl⟩
    have hbefore : front ++ blanks ++ core ++ (e :: behind) <+: mem := by
      refine List.IsPrefix.trans ?_ hmem
      rw [hlast]
      exact ⟨[stop], by simp⟩
    have htail := trimTrailing_eq he hbehind hbefore
    have hlength : (front ++ blanks ++ core).length + (e :: behind).length =
        front.length + piece.length := by
      rw [hpiece, hlast]
      simp only [List.length_append, List.length_cons, List.length_nil]
      omega
    rw [hlength] at htail
    have hcount : (front ++ blanks ++ core).length - (front.length + blanks.length) + 1 =
        (trim piece).length := by
      rw [hlast]
      simp only [List.length_append, List.length_singleton]
      omega
    have hdrop : (mem.drop (front.length + blanks.length)).take (trim piece).length =
        trim piece := by
      obtain ⟨rest, rfl⟩ := hmem
      rw [← List.length_append, ← List.append_assoc]
      simp only [List.append_assoc]
      rw [← List.append_assoc front, List.drop_left, List.take_left]
    rw [readTrimmed, hskip]
    dsimp only [Option.bind_eq_bind, Option.bind_some]
    rw [if_pos (by rw [hpiece, hcons]; simp), htail]
    dsimp only [Option.bind_some]
    rw [hcount, hdrop]

/-- A line is read as what it says, with the equal sign of a later line left alone. -/
theorem parseLine_eq {line : Bytes} (hline : ∀ c ∈ line, isLineEnd c = false ∧ c ≠ 0)
    (hstop : (isLineEnd stop || stop = 0) = true) (hmem : front ++ (line ++ [stop]) <+: mem)
    (hzero : 0 ∈ mem.drop (front.length + line.length)) :
  parseLine mem front.length = some (front.length + line.length, keyValue line)
  := by
  have hend : Buffer.skip (fun c => !(isLineEnd c || c = 0)) mem front.length =
      some (front.length + line.length) := by
    refine Buffer.skip_found ?_ ?_ hmem
    · intro d hd
      obtain ⟨hlineEnd, hne⟩ := hline d hd
      simp [hlineEnd, hne]
    · rw [hstop]
      rfl
  have hstopBlank : isBlank stop = false := by
    simp only [isLineEnd, Bool.or_eq_true, decide_eq_true_eq] at hstop
    obtain (rfl | rfl) | rfl := hstop <;> decide
  have htext : ∀ c ∈ line, c ≠ 0 := fun c hc => (hline c hc).2
  rw [parseLine, hend]
  dsimp only [Option.bind_eq_bind, Option.bind_some]
  rw [keyValue]
  split_ifs with hequal
  · obtain ⟨key, value, rfl, hkey⟩ := List.eq_append_cons_of_mem hequal
    have hbefore : ∀ c ∈ key, c ≠ equalSign := fun c hc heq => hkey (heq ▸ hc)
    have hkeyMem : front ++ (key ++ [equalSign]) <+: mem := by
      refine List.IsPrefix.trans ?_ hmem
      rw [List.prefix_append_right_inj]
      exact ⟨value ++ [stop], by simp⟩
    have hvalueMem : front ++ key ++ [equalSign] ++ (value ++ [stop]) <+: mem := by
      simpa using hmem
    have hfound : Buffer.strchr mem front.length equalSign =
        some (some (front.length + key.length)) :=
      Buffer.strchr_found hkey (List.forall_mem_append.mp htext).1 hkeyMem
    have hvalue := readTrimmed_eq hstopBlank hvalueMem
    have hlength : (front ++ key ++ [equalSign]).length = front.length + key.length + 1 := by
      simp only [List.length_append, List.length_singleton]
    have htail : front.length + key.length + 1 + value.length =
        front.length + (key ++ equalSign :: value).length := by
      rw [List.length_append, List.length_cons]
      omega
    rw [hlength, htail] at hvalue
    have htake : (key ++ equalSign :: value).takeWhile (· ≠ equalSign) = key := by
      rw [List.takeWhile_append_of_pos (by simpa using hbefore)]
      simp
    have hdrop : (key ++ equalSign :: value).dropWhile (· ≠ equalSign) = equalSign :: value := by
      rw [List.dropWhile_append_of_pos (by simpa using hbefore)]
      simp
    rw [hfound]
    dsimp only [Option.bind_some]
    rw [if_pos (by rw [← htail]; omega), readTrimmed_eq (by decide) hkeyMem]
    dsimp only [Option.bind_some]
    rw [hvalue, htake, hdrop]
    rfl
  · have hskip := Buffer.strchr_append hequal htext
      ((List.prefix_append_right_inj _).mpr (List.prefix_append line [stop]) |>.trans hmem)
    obtain ⟨found, hfound, hle⟩ := Buffer.strchr_from equalSign hzero
    rw [hskip, hfound]
    cases found with
    | none => rfl
    | some q =>
      dsimp only [Option.bind_some]
      rw [if_neg (Nat.not_lt.mpr (hle q rfl))]
      rfl

end

/-! ### The lines of a text -/

theorem keyValue_nil :
  keyValue [] = none
  := rfl

/-- Line ends in front of a text add nothing. -/
theorem keyValues_ends {ends : Bytes} (hends : ∀ c ∈ ends, isLineEnd c = true) (rest : Bytes) :
  keyValues (ends ++ rest) = keyValues rest
  := by
  induction ends with
  | nil => rfl
  | cons c ends ih =>
    obtain ⟨hc, hends⟩ := List.forall_mem_cons.mp hends
    have hsplit := List.splitOnP_append_cons (p := isLineEnd) [] (ends ++ rest) hc
    rw [List.nil_append, List.splitOnP_nil, List.singleton_append] at hsplit
    rw [List.cons_append, keyValues, hsplit, List.filterMap_cons, keyValue_nil]
    exact ih hends

/-- The first line of a text, and the lines behind the line ends that follow. -/
theorem keyValues_line {line ends : Bytes} (hline : ∀ c ∈ line, isLineEnd c = false)
    (hends : ∀ c ∈ ends, isLineEnd c = true) {rest : Bytes} (hrest : ends = [] → rest = []) :
  keyValues (line ++ (ends ++ rest)) = (keyValue line).toList ++ keyValues rest
  := by
  cases ends with
  | nil =>
    rw [hrest rfl, List.nil_append, List.append_nil, keyValues, keyValues,
      List.splitOnP_eq_singleton hline, List.splitOnP_nil]
    cases hvalue : keyValue line <;> simp [hvalue, keyValue_nil]
  | cons c ends =>
    obtain ⟨hc, hends⟩ := List.forall_mem_cons.mp hends
    rw [List.cons_append, keyValues, List.splitOnP_append_cons_of_forall_mem hline c hc,
      List.filterMap_cons, ← keyValues, keyValues_ends hends]
    cases keyValue line <;> rfl

/-- A text that is not empty is a line, the line ends behind it and a shorter text. -/
theorem line_cases {text : Bytes} (h : text ≠ []) :
  ∃ line ends rest, text = line ++ (ends ++ rest) ∧ (∀ c ∈ line, isLineEnd c = false) ∧
    (∀ c ∈ ends, isLineEnd c = true) ∧ (ends = [] → rest = []) ∧
    (∀ c ∈ rest.head?, isLineEnd c = false) ∧ rest.length < text.length
  := by
  let line := text.takeWhile fun c => !isLineEnd c
  let more := text.dropWhile fun c => !isLineEnd c
  have htext : line ++ more = text := List.takeWhile_append_dropWhile
  have hmore : more.takeWhile isLineEnd ++ more.dropWhile isLineEnd = more :=
    List.takeWhile_append_dropWhile
  have hends : more.takeWhile isLineEnd = [] → more = [] := by
    intro hnil
    cases hcases : more with
    | nil => rfl
    | cons c rest =>
      have hhead := List.head?_dropWhile_not (fun c => !isLineEnd c) text
      rw [show text.dropWhile (fun c => !isLineEnd c) = more from rfl, hcases] at hhead
      rw [hcases, List.takeWhile_cons_of_pos (by simpa using hhead)] at hnil
      cases hnil
  refine ⟨line, more.takeWhile isLineEnd, more.dropWhile isLineEnd, ?_, ?_,
    fun c hc => List.mem_takeWhile_imp hc, ?_, ?_, ?_⟩
  · rw [hmore, htext]
  · intro c hc
    simpa using List.mem_takeWhile_imp hc
  · intro hnil
    rw [hends hnil, List.dropWhile_nil]
  · intro c hc
    have hhead := List.head?_dropWhile_not isLineEnd more
    rw [Option.mem_def.mp hc] at hhead
    simpa using hhead
  · by_contra hlong
    have hlength := congrArg List.length (htext.symm.trans (congrArg (line ++ ·) hmore.symm))
    simp only [List.length_append] at hlength
    have hline : line = [] := List.length_eq_zero_iff.mp (by omega)
    have hnil : more.takeWhile isLineEnd = [] := List.length_eq_zero_iff.mp (by omega)
    rw [hline, hends hnil] at htext
    exact h htext.symm

/-! ### The loop -/

section

variable (sub : Bytes → Bytes → Bytes → Option Bytes) (data : Option Bytes)

/-- Pairs are appended one after another, as long as this succeeds. -/
def appendPairs : List (Bytes × Bytes) → Macros → Option (Option Bytes) →
    Bool × Macros × Option (Option Bytes)
  | [], macros, errStr => (true, macros, errStr)
  | (key, value) :: lines, macros, errStr =>
    let (ret, macros, errStr) := appendPair sub data macros errStr key value
    if ret then appendPairs lines macros errStr else (false, macros, errStr)

/-- The pointers find the lines of the text, and only these. -/
theorem processLoop_eq {front rest : Bytes} (hrest : ∀ c ∈ rest, c ≠ 0) {fuel : ℕ}
    (hfuel : rest.length < fuel) (macros : Macros) (errStr : Option (Option Bytes)) :
  processLoop sub data (front ++ (rest ++ [0])) fuel front.length macros errStr =
    some (appendPairs sub data (keyValues rest) macros errStr)
  := by
  induction fuel generalizing front rest macros errStr with
  | zero => exact absurd hfuel (Nat.not_lt_zero _)
  | succ fuel ih =>
    rw [processLoop]
    cases hcases : rest with
    | nil =>
      rw [List.nil_append, List.getElem?_append_right le_rfl, Nat.sub_self]
      rfl
    | cons c tail =>
      rw [← hcases]
      have hget : (front ++ (rest ++ [0]))[front.length]? = some c := by
        rw [hcases, List.getElem?_append_right le_rfl, Nat.sub_self]
        rfl
      have hc : c ≠ 0 := hrest c (by rw [hcases]; exact List.mem_cons_self)
      obtain ⟨line, ends, more, rfl, hline, hends, hnil, hmore, hshorter⟩ :=
        @line_cases rest (by rw [hcases]; exact List.cons_ne_nil _ _)
      obtain ⟨hlineText, hbehind⟩ := List.forall_mem_append.mp hrest
      obtain ⟨-, hmoreText⟩ := List.forall_mem_append.mp hbehind
      have hmem : front ++ (line ++ (ends ++ more) ++ [0]) =
          front ++ line ++ ends ++ (more ++ [0]) := by
        simp
      -- the line ends at the first of the line ends, or at the zero byte
      have hparse : parseLine (front ++ (line ++ (ends ++ more) ++ [0])) front.length =
          some (front.length + line.length, keyValue line) := by
        obtain ⟨stop, behind, hcons, hstop⟩ : ∃ stop behind,
            ends ++ (more ++ [0]) = stop :: behind ∧ (isLineEnd stop || stop = 0) = true := by
          cases ends with
          | nil => exact ⟨0, [], by rw [hnil rfl]; rfl, by decide⟩
          | cons c ends =>
            exact ⟨c, ends ++ (more ++ [0]), rfl, by rw [hends c List.mem_cons_self]; rfl⟩
        refine parseLine_eq (fun c hc => ⟨hline c hc, hlineText c hc⟩) hstop ?_ ?_
        · rw [List.prefix_append_right_inj, List.append_assoc, List.append_assoc, hcons]
          exact ⟨behind, by simp⟩
        · rw [← List.append_assoc front, ← List.append_assoc front, List.append_assoc _ _ [0],
            ← List.length_append, List.drop_left]
          simp
      have hskip : Buffer.skip isLineEnd (front ++ (line ++ (ends ++ more) ++ [0]))
          (front.length + line.length) = some (front ++ line ++ ends).length := by
        obtain ⟨next, behind, hcons, hnext⟩ : ∃ next behind, more ++ [0] = next :: behind ∧
            isLineEnd next = false := by
          cases more with
          | nil => exact ⟨0, [], rfl, by decide⟩
          | cons c more => exact ⟨c, more ++ [0], rfl, hmore c rfl⟩
        have hprefix : front ++ line ++ (ends ++ [next]) <+:
            front ++ (line ++ (ends ++ more) ++ [0]) := by
          rw [hmem, hcons, List.append_assoc (front ++ line), List.prefix_append_right_inj]
          exact ⟨behind, by simp⟩
        rw [← List.length_append, Buffer.skip_found hends hnext hprefix, ← List.length_append]
      have hmoreFuel : more.length < fuel := by omega
      rw [hget]
      dsimp only [Option.bind_eq_bind, Option.bind_some]
      rw [if_neg hc, hparse]
      dsimp only [Option.bind_some]
      rw [keyValues_line hline hends hnil, hskip]
      dsimp only [Option.bind_some]
      rw [hmem]
      cases keyValue line with
      | none => exact ih hmoreText hmoreFuel macros errStr
      | some pair =>
        rw [Option.toList_some, List.singleton_append, appendPairs]
        dsimp only
        split_ifs
        · exact ih hmoreText hmoreFuel _ _
        · rfl

end

/-! ### The vector as a table -/

/-- Without the removed element the vector has the same elements as before. -/
theorem removeNoorder_perm {α : Type} (before after : List α) (x : α) :
  (removeNoorder (before ++ x :: after) before.length).Perm (before ++ after)
  := by
  induction after using List.reverseRecOn with
  | nil => simp [removeNoorder]
  | append_singleton after last _ =>
    have hset : removeNoorder (before ++ x :: (after ++ [last])) before.length =
        before ++ last :: after := by
      rw [removeNoorder, ← List.cons_append, ← List.append_assoc, List.getLast?_concat]
      dsimp only
      rw [List.append_assoc, List.set_append_right _ _ le_rfl, Nat.sub_self, List.cons_append,
        List.set_cons_zero, ← List.cons_append, ← List.append_assoc, List.dropLast_concat]
    rw [hset]
    exact List.Perm.append_left before (List.perm_append_singleton last after).symm

variable {macros : Macros} {t : Table Bytes Bytes}

/-- The search in a vector with the entries of a table finds the only pair with the name. -/
theorem searchPair_cases (h : macros.Perm t.entries) (name : Bytes) :
  (searchPair macros name = none ∧ ∀ pair ∈ macros, pair.1 ≠ name) ∨
    ∃ before value after, macros = before ++ (name, value) :: after ∧
      searchPair macros name = some before.length ∧
      ∀ pair ∈ before ++ after, pair.1 ≠ name
  := by
  by_cases hmem : ∃ pair ∈ macros, pair.1 = name
  · right
    obtain ⟨⟨name', value⟩, hpair, hname⟩ := hmem
    obtain rfl : name' = name := hname
    obtain ⟨before, after, rfl⟩ := List.append_of_mem hpair
    have hnodup : ((before ++ (name', value) :: after).map Prod.fst).Nodup :=
      (h.map Prod.fst).nodup_iff.mpr t.nodup
    have hother : ∀ pair ∈ before ++ after, pair.1 ≠ name' := by
      intro pair hmem heq
      have hperm : ((before ++ (name', value) :: after).map Prod.fst).Perm
          (name' :: (before ++ after).map Prod.fst) := by
        simp only [List.map_append, List.map_cons]
        exact List.perm_middle
      have hnot := (List.nodup_cons.mp (hperm.nodup_iff.mp hnodup)).1
      exact hnot (heq ▸ List.mem_map_of_mem hmem)
    refine ⟨before, value, after, rfl, ?_, hother⟩
    have hnone : before.findIdx? (fun pair => pair.1 = name') = none := by
      rw [List.findIdx?_eq_none_iff]
      intro pair hpair
      simpa using hother pair (List.mem_append_left after hpair)
    rw [searchPair, List.findIdx?_append, hnone, List.findIdx?_cons]
    simp
  · left
    have hnone : ∀ pair ∈ macros, pair.1 ≠ name := fun pair hpair heq => hmem ⟨pair, hpair, heq⟩
    refine ⟨?_, hnone⟩
    rw [searchPair, List.findIdx?_eq_none_iff]
    intro pair hpair
    simpa using hnone pair hpair

/-- Writing a pair to the vector writes it to the table. -/
theorem putPair_perm (h : macros.Perm t.entries) (name value : Bytes) :
  (putPair macros name value).Perm (t.set name value).entries
  := by
  have hfilter : (macros.filter fun pair => pair.1 ≠ name).Perm (t.remove name).entries :=
    h.filter _
  have hvector : ((name, value) :: macros.filter fun pair => pair.1 ≠ name).Perm
      (t.set name value).entries := hfilter.cons _
  refine List.Perm.trans ?_ hvector
  obtain ⟨hsearch, hnone⟩ | ⟨before, old, after, rfl, hsearch, hother⟩ := searchPair_cases h name
  · have hsame : (macros.filter fun pair => pair.1 ≠ name) = macros :=
      List.filter_eq_self.mpr (by simpa using hnone)
    rw [putPair, hsearch, hsame]
    exact List.perm_append_singleton _ _
  · have hsame : ((before ++ (name, old) :: after).filter fun pair => pair.1 ≠ name) =
        before ++ after := by
      rw [List.filter_append, List.filter_cons_of_neg (by simp), ← List.filter_append]
      exact List.filter_eq_self.mpr (by simpa using hother)
    rw [putPair, hsearch, hsame]
    dsimp only
    refine (List.perm_append_singleton _ _).trans (List.Perm.cons _ ?_)
    exact removeNoorder_perm before after (name, old)

/-- The value that the search in the vector leads to is that of the table. -/
theorem value_searchPair (h : macros.Perm t.entries) (name : Bytes) :
  ((searchPair macros name).bind fun index => macros[index]?.map Prod.snd) = t.search name
  := by
  obtain ⟨hsearch, hnone⟩ | ⟨before, value, after, rfl, hsearch, -⟩ := searchPair_cases h name
  · rw [hsearch]
    symm
    rw [Option.bind_none, Table.search_eq_none_iff]
    intro hmem
    obtain ⟨pair, hpair, heq⟩ := List.mem_map.mp hmem
    exact hnone pair (h.mem_iff.mpr hpair) heq
  · have hvalue : t.search name = some value :=
      Table.search_eq_some_iff.mpr (h.mem_iff.mp (by simp))
    rw [hsearch, hvalue]
    simp

/-! ### What is assigned -/

section

variable (sub : Bytes → Bytes → Bytes → Option Bytes) (data : Option Bytes)

/-- The value that a line assigns to its key.  There is none where the reading stops, and none
inside where the line is passed over. -/
def assigns (line : Bytes × Bytes) : Option (Option Bytes) :=
  if line.1 = [] ∨ line.2 = [] ∨ line.1.head? ≠ some leftBrace ∨
      line.1.getLast? ≠ some rightBrace then none
  else if regexpPrefix <+: line.2 then
    match data with
    | none => some none
    | some data => (sub data (line.2.drop regexpPrefix.length) captured).map some
  else some (some line.2)

/-- The names and values that the lines before the reading stops assign. -/
def assignments (lines : List (Bytes × Bytes)) : List (Bytes × Bytes) :=
  (lines.takeWhile fun line => (assigns sub data line).isSome).filterMap fun line =>
    (assigns sub data line).join.map fun value => (line.1, value)

theorem assignments_cons (line : Bytes × Bytes) (lines : List (Bytes × Bytes)) :
  assignments sub data (line :: lines) =
    match assigns sub data line with
    | none => []
    | some none => assignments sub data lines
    | some (some value) => (line.1, value) :: assignments sub data lines
  := by
  rw [assignments, List.takeWhile_cons]
  cases hassigns : assigns sub data line with
  | none => rfl
  | some assigned =>
    rw [if_pos Option.isSome_some, List.filterMap_cons, hassigns]
    cases assigned <;> rfl

theorem appendPair_cases (errStr : Option (Option Bytes)) (line : Bytes × Bytes) :
  match assigns sub data line with
  | none => ∃ errStr', appendPair sub data macros errStr line.1 line.2 = (false, macros, errStr')
  | some none => appendPair sub data macros errStr line.1 line.2 = (true, macros, errStr)
  | some (some value) => appendPair sub data macros errStr line.1 line.2 =
      (true, putPair macros line.1 value, errStr)
  := by
  obtain ⟨key, value⟩ := line
  unfold assigns appendPair
  dsimp only
  by_cases hempty : key = [] ∨ value = []
  · rw [if_pos hempty, if_pos (hempty.imp_right .inl)]
    dsimp only
    split_ifs <;> exact ⟨_, rfl⟩
  · obtain ⟨hkey, hvalue⟩ := not_or.mp hempty
    rw [if_neg hempty]
    by_cases hbraces : key.head? ≠ some leftBrace ∨ key.getLast? ≠ some rightBrace
    · rw [if_pos hbraces, if_pos (.inr (.inr hbraces))]
      exact ⟨_, rfl⟩
    · have hbad : ¬ (key = [] ∨ value = [] ∨ key.head? ≠ some leftBrace ∨
          key.getLast? ≠ some rightBrace) := by
        rintro (h | h | h)
        · exact hkey h
        · exact hvalue h
        · exact hbraces h
      rw [if_neg hbraces, if_neg hbad]
      split_ifs with hregexp
      · cases data with
        | none => rfl
        | some data =>
          dsimp only
          cases sub data (value.drop regexpPrefix.length) captured with
          | none => exact ⟨_, rfl⟩
          | some second => rfl
      · rfl

/-- The table after assignments. -/
def assignAll (assigned : List (Bytes × Bytes)) (t : Table Bytes Bytes) : Table Bytes Bytes :=
  assigned.foldl (fun t a => t.set a.1 a.2) t

/-- The value that is assigned to a name last. -/
def lastAssigned (assigned : List (Bytes × Bytes)) (name : Bytes) : Option Bytes :=
  (assigned.filter fun a => a.1 = name).getLast?.map Prod.snd

theorem search_assignAll (assigned : List (Bytes × Bytes)) (t : Table Bytes Bytes)
    (name : Bytes) :
  (assignAll assigned t).search name = (lastAssigned assigned name).or (t.search name)
  := by
  induction assigned generalizing t with
  | nil => rfl
  | cons a assigned ih =>
    have hstep : assignAll (a :: assigned) t = assignAll assigned (t.set a.1 a.2) := rfl
    rw [hstep, ih, lastAssigned, lastAssigned]
    by_cases heq : a.1 = name
    · subst heq
      rw [Table.search_set_self, List.filter_cons_of_pos (by simp), List.getLast?_cons]
      cases (assigned.filter fun b => b.1 = a.1).getLast? <;> rfl
    · rw [Table.search_set_of_ne t a.2 (Ne.symm heq), List.filter_cons_of_neg (by simpa using heq)]

/-- The pairs are written one after another up to the line where the reading stops. -/
theorem appendPairs_assignments (lines : List (Bytes × Bytes)) (h : macros.Perm t.entries)
    (errStr : Option (Option Bytes)) :
  ((appendPairs sub data lines macros errStr).1 = true ↔
      ∀ line ∈ lines, (assigns sub data line).isSome = true) ∧
    (appendPairs sub data lines macros errStr).2.1.Perm
      (assignAll (assignments sub data lines) t).entries
  := by
  induction lines generalizing macros t errStr with
  | nil => exact ⟨by simp [appendPairs], h⟩
  | cons line lines ih =>
    have hcases := @appendPair_cases macros sub data errStr line
    have hcons : appendPairs sub data (line :: lines) macros errStr =
        let (ret, macros, errStr) := appendPair sub data macros errStr line.1 line.2
        if ret then appendPairs sub data lines macros errStr else (false, macros, errStr) := rfl
    rw [List.forall_mem_cons, assignments_cons, hcons]
    cases hassigns : assigns sub data line with
    | none =>
      rw [hassigns] at hcases
      obtain ⟨errStr', happend⟩ := hcases
      rw [happend]
      exact ⟨by simp, h⟩
    | some assigned =>
      rw [hassigns] at hcases
      cases assigned with
      | none =>
        obtain ⟨hret, hperm⟩ := ih h errStr
        rw [show appendPair sub data macros errStr line.1 line.2 = _ from hcases]
        exact ⟨by simpa using hret, hperm⟩
      | some value =>
        obtain ⟨hret, hperm⟩ := ih (putPair_perm h line.1 value) errStr
        rw [show appendPair sub data macros errStr line.1 line.2 = _ from hcases]
        exact ⟨by simpa using hret, hperm⟩

end

end HttpMacro
