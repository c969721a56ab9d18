import Zabbix.Json.Document
import Zabbix.Json.Traversal

/-!
# The text of the writer

Every call of the writer stays inside of the allocated buffer, and behind it the buffer holds
the text of what has been written, the closing brackets of what is open and a zero byte.
-/

open Ascii

namespace Json

/-! ### Strings -/

theorem length_inschar (c : UInt8) :
  (inschar c).length = charsize c
  := by
  simp only [inschar, charsize]
  repeat' split
  all_goals first | rfl | (exfalso; simp_all)

/-- The computed size of a string is the number of bytes that are stored for it. -/
theorem length_jsonInsstring (string : Option Bytes) (type : JsonType) :
  (jsonInsstring string type).length = jsonStringsize string type
  := by
  have hbody : ∀ s : Bytes, (s.flatMap inschar).length = (s.map charsize).sum := by
    intro s
    induction s with
    | nil => rfl
    | cons c s ih =>
      rw [List.flatMap_cons, List.length_append, ih, length_inschar, List.map_cons,
        List.sum_cons]
  simp only [jsonInsstring, jsonStringsize, List.length_append, hbody]
  split <;> simp only [List.length_cons, List.length_nil] <;> omega

theorem inschar_eq_text (c : UInt8) :
  inschar c = (escapeUnit c).text
  := by
  by_cases hquote : c = quote
  · subst hquote
    rfl
  by_cases hback : c = backslash
  · subst hback
    rfl
  by_cases hslash : c = slash
  · subst hslash
    rfl
  simp only [inschar, escapeUnit, hquote, hback, hslash, or_self, if_false]
  repeat' split
  all_goals rfl

theorem flatMap_inschar (s : Bytes) :
  s.flatMap inschar = unitsText (units s)
  := by
  induction s with
  | nil => rfl
  | cons c s ih =>
    rw [List.flatMap_cons, ih, inschar_eq_text]
    rfl

theorem jsonInsstring_string (s : Bytes) :
  jsonInsstring (some s) .string = stringText (units s)
  := by
  simp [jsonInsstring, flatMap_inschar, stringText]

theorem jsonInsstring_none (type : JsonType) :
  jsonInsstring none type = nullText
  := by
  rw [jsonInsstring, if_neg (by simp)]
  rfl

/-- The bytes of a number are stored as they are. -/
theorem inschar_number {c : UInt8} (h : isNumberByte c = true) :
  inschar c = [c]
  := by
  simp only [isNumberByte, Bool.or_eq_true, decide_eq_true_eq] at h
  obtain ((((hdigit | rfl) | rfl) | rfl) | rfl) | rfl := h
  · have hne : ∀ b : UInt8, isDigit b = false → c ≠ b := by
      rintro b hb rfl
      rw [hb] at hdigit
      cases hdigit
    have hlow : ¬ c < 32 := by
      simp only [isDigit, Bool.and_eq_true, decide_eq_true_eq] at hdigit
      rw [UInt8.not_lt]
      exact UInt8.le_trans (show (32 : UInt8) ≤ 0x30 by decide) hdigit.1
    rw [inschar, if_neg (hne _ (by decide)), if_neg (hne _ (by decide)),
      if_neg (hne _ (by decide)), if_neg (hne _ (by decide)), if_neg (hne _ (by decide)),
      if_neg (hne _ (by decide)), if_neg (hne _ (by decide)), if_neg (hne _ (by decide)),
      if_neg hlow]
  all_goals decide

theorem jsonInsstring_number {raw : Bytes} (h : validated.number raw) {type : JsonType}
    (htype : type ≠ .string) :
  jsonInsstring (some raw) type = raw
  := by
  have hbody : ∀ s : Bytes, (∀ c ∈ s, isNumberByte c = true) → s.flatMap inschar = s := by
    intro s hs
    induction s with
    | nil => rfl
    | cons c s ih =>
      rw [List.flatMap_cons, inschar_number (hs c List.mem_cons_self),
        ih fun b hb => hs b (List.mem_cons_of_mem _ hb)]
      rfl
  have hraw := hbody raw (isNumberByte_of_number h)
  simp [jsonInsstring, htype, hraw]

/-! ### Memory -/

theorem le_grow (need allocated : ℕ) :
  need ≤ grow need allocated ∧ allocated ≤ grow need allocated
  := by
  fun_induction grow need allocated with
  | case1 allocated hlt ih =>
    refine ⟨ih.1, le_trans ?_ ih.2⟩
    split <;> omega
  | case2 allocated hge => exact ⟨Nat.le_of_not_lt hge, le_refl _⟩

theorem store_eq {a x b data : Bytes} (h : x.length = data.length) :
  store (a ++ (x ++ b)) a.length data = some (a ++ (data ++ b))
  := by
  have hroom : a.length + data.length ≤ (a ++ (x ++ b)).length := by
    simp only [List.length_append]
    omega
  have hdrop : (a ++ (x ++ b)).drop (a.length + data.length) = b := by
    rw [← List.append_assoc]
    apply List.drop_left'
    rw [List.length_append, h]
  rw [store, if_pos hroom, hdrop, List.take_left' rfl]

/-- Moving what is behind a position makes room there. -/
theorem memmove_eq {a b junk : Bytes} {len : ℕ} (h : len ≤ junk.length) :
  ∃ x junk', x.length = len ∧
    memmove (a ++ (b ++ 0 :: junk)) (a.length + len) a.length (b.length + 1) =
      some (a ++ (x ++ (b ++ 0 :: junk'))) ∧
    junk'.length + len = junk.length
  := by
  have hsource : ((a ++ (b ++ 0 :: junk)).drop a.length).take (b.length + 1) = b ++ [0] := by
    have hsplit : b ++ 0 :: junk = (b ++ [0]) ++ junk := by simp
    rw [List.drop_left' rfl, hsplit]
    apply List.take_left'
    simp
  have hread : a.length + (b.length + 1) ≤ (a ++ (b ++ 0 :: junk)).length := by
    simp only [List.length_append, List.length_cons]
    omega
  have hx : ((b ++ 0 :: junk).take len).length = len := by
    simp only [List.length_take, List.length_append, List.length_cons]
    omega
  have hbuffer : a ++ (b ++ 0 :: junk) =
      (a ++ (b ++ 0 :: junk).take len) ++
        (((b ++ 0 :: junk).drop len).take (b.length + 1) ++
          ((b ++ 0 :: junk).drop len).drop (b.length + 1)) := by
    rw [List.take_append_drop, List.append_assoc, List.take_append_drop]
  have hmoved : (((b ++ 0 :: junk).drop len).take (b.length + 1)).length =
      (b ++ [(0 : UInt8)]).length := by
    simp only [List.length_take, List.length_drop, List.length_append, List.length_cons,
      List.length_nil]
    omega
  have hposition : (a ++ (b ++ 0 :: junk).take len).length = a.length + len := by
    rw [List.length_append, hx]
  refine ⟨(b ++ 0 :: junk).take len, ((b ++ 0 :: junk).drop len).drop (b.length + 1), hx, ?_, ?_⟩
  · have hstore := store_eq (a := a ++ (b ++ 0 :: junk).take len)
      (b := ((b ++ 0 :: junk).drop len).drop (b.length + 1)) hmoved
    rw [← hbuffer, hposition] at hstore
    rw [memmove, if_pos hread, hsource, hstore]
    simp
  · simp only [List.length_drop, List.length_append, List.length_cons]
    omega

/-- The buffer holds the text `a`, up to the offset, and the text `b` and a zero byte behind
it. -/
structure Holds (j : ZbxJson) (a b : Bytes) : Prop where
  buffer : ∃ junk, j.buffer = a ++ (b ++ 0 :: junk)
  allocated : j.buffer.length = j.bufferAllocated
  offset : j.bufferOffset = a.length
  size : j.bufferSize = a.length + b.length

variable {fresh : ℕ → UInt8} {j : ZbxJson} {a b : Bytes}

theorem Holds.realloc (h : Holds j a b) (fresh : ℕ → UInt8) (len : ℕ) :
  ∃ junk, (jsonRealloc fresh j (j.bufferSize + len + 1)).buffer = a ++ (b ++ 0 :: junk) ∧
    len ≤ junk.length ∧
    (jsonRealloc fresh j (j.bufferSize + len + 1)).buffer.length =
      (jsonRealloc fresh j (j.bufferSize + len + 1)).bufferAllocated
  := by
  obtain ⟨junk, hbuffer⟩ := h.buffer
  obtain ⟨hneed, hgrown⟩ := le_grow (j.bufferSize + len + 1) j.bufferAllocated
  have hfresh : (freshBytes fresh j.buffer.length
      (grow (j.bufferSize + len + 1) j.bufferAllocated)).length =
        grow (j.bufferSize + len + 1) j.bufferAllocated - j.bufferAllocated := by
    simp [freshBytes, h.allocated]
  refine ⟨junk ++ freshBytes fresh j.buffer.length
    (grow (j.bufferSize + len + 1) j.bufferAllocated), ?_, ?_, ?_⟩
  · have happend := congrArg (· ++ freshBytes fresh j.buffer.length
      (grow (j.bufferSize + len + 1) j.bufferAllocated)) hbuffer
    simp only [List.append_assoc, List.cons_append] at happend
    exact happend
  · have hlength := h.allocated
    rw [hbuffer] at hlength
    simp only [List.length_append, List.length_cons] at hlength
    have hsize := h.size
    rw [List.length_append, hfresh]
    omega
  · change (j.buffer ++ _).length = grow (j.bufferSize + len + 1) j.bufferAllocated
    rw [List.length_append, hfresh, h.allocated]
    omega

theorem Holds.moved (h : Holds j a b) : j.bufferSize - j.bufferOffset = b.length := by
  rw [h.size, h.offset, Nat.add_sub_cancel_left]

/-- The text `zbx_json_addobject` and `zbx_json_addarray` store up to the opening bracket. -/
def openText (j : ZbxJson) (name : Option Bytes) (object : Bool) : Bytes :=
  (if j.status = .comma then [comma] else []) ++
    ((if j.level ≠ 0 then [newline] else []) ++ (List.replicate j.level tab ++
      ((if name ≠ none then jsonInsstring name .string ++ [colon] else []) ++
        [if object then leftBrace else leftBracket])))

theorem length_openText (j : ZbxJson) (name : Option Bytes) (object : Bool) :
  2 + (if j.status = .comma then 1 else 0) + (if j.level ≠ 0 then 1 else 0) + j.level +
    (if name ≠ none then jsonStringsize name .string + 1 else 0) =
      (openText j name object).length + 1
  := by
  simp only [openText, List.length_append, List.length_replicate]
  have hsize := length_jsonInsstring name .string
  split <;> split <;> split <;>
    simp only [List.length_append, List.length_cons, List.length_nil, hsize] <;> omega

theorem Holds.addobject (h : Holds j a b) (fresh : ℕ → UInt8) (name : Option Bytes) (object : Bool) :
  ∃ j', jsonAddobject fresh j name object = some j' ∧
    Holds j' (a ++ openText j name object)
      ((if object then rightBrace else rightBracket) :: b) ∧
    j'.level = j.level + 1 ∧ j'.status = .empty
  := by
  obtain ⟨junk, hbuffer, hroom, hallocated⟩ :=
    h.realloc fresh ((openText j name object).length + 1)
  obtain ⟨x, junk', hx, hmove, hjunk⟩ := memmove_eq (a := a) (b := b) hroom
  have hmoved := h.moved
  have hoffset := h.offset
  have hsplit : x = x.take (openText j name object).length ++
      x.drop (openText j name object).length := (List.take_append_drop _ _).symm
  have htake : (x.take (openText j name object).length).length =
      (openText j name object).length := by
    rw [List.length_take]
    omega
  have hdrop : (x.drop (openText j name object).length).length =
      [(if object then rightBrace else rightBracket : UInt8)].length := by
    rw [List.length_drop, List.length_singleton]
    omega
  have hfirst : store (a ++ (x ++ (b ++ 0 :: junk'))) a.length (openText j name object) =
      some ((a ++ openText j name object) ++
        (x.drop (openText j name object).length ++ (b ++ 0 :: junk'))) := by
    conv_lhs => rw [hsplit, List.append_assoc]
    rw [store_eq htake, List.append_assoc]
  have hsecond := store_eq (a := a ++ openText j name object) (b := b ++ 0 :: junk') hdrop
  rw [List.length_append] at hsecond
  refine ⟨{ jsonRealloc fresh j (j.bufferSize + ((openText j name object).length + 1) + 1) with
    buffer := (a ++ openText j name object) ++
      ([if object then rightBrace else rightBracket] ++ (b ++ 0 :: junk'))
    bufferOffset := j.bufferOffset + (openText j name object).length
    bufferSize := j.bufferSize + ((openText j name object).length + 1)
    level := j.level + 1
    status := .empty }, ?_, ⟨⟨junk', ?_⟩, ?_, ?_, ?_⟩, rfl, rfl⟩
  · rw [jsonAddobject, length_openText j name object]
    change ((memmove (jsonRealloc fresh j _).buffer (j.bufferOffset + _) j.bufferOffset
      (j.bufferSize - j.bufferOffset + 1)).bind fun buffer =>
        (store buffer j.bufferOffset (openText j name object)).bind fun buffer =>
          (store buffer (j.bufferOffset + (openText j name object).length) _).bind
            fun buffer => some _) = _
    rw [← hoffset] at hmove hfirst hsecond
    rw [hbuffer, hmoved, hmove, Option.bind_some, hfirst, Option.bind_some, hsecond]
    rfl
  · simp
  · rw [← hallocated, hbuffer]
    simp only [List.length_append, List.length_cons, List.length_nil]
    omega
  · rw [hoffset, List.length_append]
  · simp only [h.size, List.length_append, List.length_cons]
    omega

/-- The text `zbx_json_addstring` stores. -/
def stringPiece (j : ZbxJson) (name string : Option Bytes) (type : JsonType) : Bytes :=
  (if j.status = .comma then [comma] else []) ++
    ((if name ≠ none then
      newline :: (List.replicate j.level tab ++ (jsonInsstring name .string ++ [colon]))
    else []) ++ jsonInsstring string type)

theorem length_stringPiece (j : ZbxJson) (name string : Option Bytes) (type : JsonType) :
  (if j.status = .comma then 1 else 0) +
    (if name ≠ none then 1 + j.level + jsonStringsize name .string + 1 else 0) +
    jsonStringsize string type = (stringPiece j name string type).length
  := by
  simp only [stringPiece, List.length_append, length_jsonInsstring]
  split <;> split <;>
    simp only [List.length_append, List.length_cons, List.length_nil, List.length_replicate,
      length_jsonInsstring] <;> omega

theorem Holds.addstring (h : Holds j a b) (fresh : ℕ → UInt8) (name string : Option Bytes)
    (type : JsonType) :
  ∃ j', zbxJsonAddstring fresh j name string type = some j' ∧
    Holds j' (a ++ stringPiece j name string type) b ∧ j'.level = j.level ∧
    j'.status = .comma
  := by
  obtain ⟨junk, hbuffer, hroom, hallocated⟩ :=
    h.realloc fresh (stringPiece j name string type).length
  obtain ⟨x, junk', hx, hmove, hjunk⟩ := memmove_eq (a := a) (b := b) hroom
  have hmoved := h.moved
  have hoffset := h.offset
  refine ⟨{ jsonRealloc fresh j (j.bufferSize + (stringPiece j name string type).length + 1) with
    buffer := a ++ (stringPiece j name string type ++ (b ++ 0 :: junk'))
    bufferOffset := j.bufferOffset + (stringPiece j name string type).length
    bufferSize := j.bufferSize + (stringPiece j name string type).length
    status := .comma }, ?_, ⟨⟨junk', ?_⟩, ?_, ?_, ?_⟩, rfl, rfl⟩
  · rw [zbxJsonAddstring, length_stringPiece j name string type]
    change ((memmove (jsonRealloc fresh j _).buffer (j.bufferOffset + _) j.bufferOffset
      (j.bufferSize - j.bufferOffset + 1)).bind fun buffer =>
        (store buffer j.bufferOffset (stringPiece j name string type)).bind
          fun buffer => some _) = _
    have hstore := store_eq (a := a) (b := b ++ 0 :: junk') hx
    rw [← hoffset] at hmove hstore
    rw [hbuffer, hmoved, hmove, Option.bind_some, hstore]
    rfl
  · simp
  · rw [← hallocated, hbuffer]
    simp only [List.length_append, List.length_cons]
    omega
  · rw [hoffset, List.length_append]
  · simp only [h.size, List.length_append]
    omega

/-! ### Calls -/

/-- A call that is made as it is meant: a value that is not a string is a number. -/
def Call.IsTyped : Call → Prop
  | .addstring _ (some s) type => type ≠ .string → standard.number s
  | _ => True

/-- The buffer holds the text of the document and its closing brackets. -/
structure Represents (j : ZbxJson) (d : Document) : Prop where
  holds : Holds j d.done d.closers
  level : j.level = d.parents.length + 1
  status : j.status = if d.inside.isEmpty then .empty else .comma

variable {d d' : Document}

theorem Represents.separator_eq (h : Represents j d) :
  (if j.status = .comma then [comma] else []) = separator d.inside.isEmpty
  := by
  rw [h.status, separator]
  cases d.inside.isEmpty <;> rfl

/-- The name and the colon. -/
def optionalName : Option Bytes → Bytes
  | none => []
  | some name => nameText name

theorem optionalName_eq (name : Option Bytes) :
  (if name ≠ none then jsonInsstring name .string ++ [colon] else []) = optionalName name
  := by
  cases name with
  | none => rfl
  | some name =>
    rw [if_pos (Option.some_ne_none name), jsonInsstring_string]
    rfl

theorem Represents.openText_eq (h : Represents j d) (name : Option Bytes) (object : Bool) :
  openText j name object = separator d.inside.isEmpty ++ (indent (d.parents.length + 1) ++
    (optionalName name ++ [if object then leftBrace else leftBracket]))
  := by
  have hlevel : j.level ≠ 0 := by
    rw [h.level]
    exact Nat.succ_ne_zero _
  rw [openText, h.separator_eq, optionalName_eq, if_pos hlevel, h.level]
  simp [indent]

theorem enclose_text {inside : Inside} {name : Option Bytes} {parent : Parent}
    (h : inside.enclose name = some parent) (level : ℕ) :
  parent.text level =
    inside.text level ++ (separator inside.isEmpty ++ (indent level ++ optionalName name)) ∧
    parent.closing = inside.closing
  := by
  cases inside with
  | array vs =>
    cases name with
    | none =>
      cases h
      simp [Parent.text, optionalName, Parent.closing, Inside.closing, Inside.isEmpty]
    | some name => cases h
  | object ms =>
    cases name with
    | none => cases h
    | some name =>
      cases h
      exact ⟨rfl, rfl⟩

/-- Opening a new object or array. -/
theorem Represents.openNew (h : Represents j d) {name : Option Bytes} (object : Bool)
    {new : Inside} (hnew : new = if object then .object [] else .array [])
    (hd : d.openNew name new = some d') :
  ∃ j', jsonAddobject fresh j name object = some j' ∧ Represents j' d'
  := by
  obtain ⟨parent, henclose, rfl⟩ := Option.map_eq_some_iff.mp hd
  obtain ⟨j', hstep, hholds, hlevel, hstatus⟩ := h.holds.addobject fresh name object
  obtain ⟨htext, hclosing⟩ := enclose_text henclose (d.parents.length + 1)
  have hnew' : new.text (d.parents.length + 1 + 1) = [if object then leftBrace else leftBracket] ∧
      new.closing = (if object then rightBrace else rightBracket) ∧ new.isEmpty = true := by
    rw [hnew]
    cases object <;> exact ⟨rfl, rfl, rfl⟩
  have hdone : (Document.mk new (parent :: d.parents)).done =
      d.done ++ openText j name object := by
    rw [h.openText_eq]
    simp only [Document.done, parentsText, htext, List.length_cons, hnew'.1, List.append_assoc]
  have hclosers : (Document.mk new (parent :: d.parents)).closers =
      (if object then rightBrace else rightBracket) :: d.closers := by
    simp only [Document.closers, hnew'.2.1, List.map_cons, hclosing]
  refine ⟨j', hstep, ⟨?_, ?_, ?_⟩⟩
  · rw [hdone, hclosers]
    exact hholds
  · rw [hlevel, h.level, List.length_cons]
  · rw [hstatus, hnew'.2.2]
    rfl

/-- The text of a value that has no brackets. -/
theorem scalar_text {string : Option Bytes} {type : JsonType}
    (h : ∀ s ∈ string, type ≠ .string → validated.number s) (level : ℕ) :
  ((scalar string type).tree level).text = jsonInsstring string type ∧
    (scalar string type).margin level = []
  := by
  cases string with
  | none => exact ⟨(jsonInsstring_none type).symm, rfl⟩
  | some s =>
    by_cases htype : type = .string
    · subst htype
      exact ⟨(jsonInsstring_string s).symm, rfl⟩
    · rw [jsonInsstring_number (h s rfl htype) htype]
      simp [scalar, htype, Content.tree, Tree.text, Content.margin]

theorem add_inside {inside inside' : Inside} {name : Option Bytes} {v : Content .value}
    (h : inside.add name v = some inside') (level : ℕ) (hmargin : v.margin level = []) :
  inside'.text level = inside.text level ++ (separator inside.isEmpty ++
    ((if name ≠ none then indent level else []) ++
      (optionalName name ++ (v.tree level).text))) ∧
    inside'.closing = inside.closing ∧ inside'.isEmpty = false
  := by
  cases inside with
  | array vs =>
    cases name with
    | none =>
      cases h
      simp [Inside.text, Inside.texts, commaText_snoc, elementText, hmargin, Inside.isEmpty,
        optionalName, Inside.closing, Inside.opening]
    | some name => cases h
  | object ms =>
    cases name with
    | none => cases h
    | some name =>
      cases h
      simp [Inside.text, Inside.texts, commaText_snoc, memberText, Inside.isEmpty,
        optionalName, Inside.closing, Inside.opening]

/-- Adding a value without brackets. -/
theorem Represents.addstring (h : Represents j d) {name : Option Bytes}
    (string : Option Bytes) (type : JsonType)
    (htyped : ∀ s ∈ string, type ≠ .string → validated.number s)
    (hd : d.add name (scalar string type) = some d') :
  ∃ j', zbxJsonAddstring fresh j name string type = some j' ∧ Represents j' d'
  := by
  obtain ⟨inside', hadd, rfl⟩ := Option.map_eq_some_iff.mp hd
  obtain ⟨j', hstep, hholds, hlevel, hstatus⟩ :=
    h.holds.addstring fresh name string type
  obtain ⟨hscalar, hmargin⟩ := scalar_text htyped (d.parents.length + 1)
  obtain ⟨htext, hclosing, hempty⟩ := add_inside hadd (d.parents.length + 1) hmargin
  have hpiece : stringPiece j name string type = separator d.inside.isEmpty ++
      ((if name ≠ none then indent (d.parents.length + 1) else []) ++
        (optionalName name ++ jsonInsstring string type)) := by
    rw [stringPiece, h.separator_eq, h.level]
    cases name with
    | none => rfl
    | some name =>
      have hname := optionalName_eq (some name)
      rw [if_pos (Option.some_ne_none name)] at hname
      simp only [if_pos (Option.some_ne_none name), hname, indent, List.cons_append,
        List.append_assoc]
  have hdone : (Document.mk inside' d.parents).done =
      d.done ++ stringPiece j name string type := by
    simp only [Document.done, htext, hpiece, hscalar, List.append_assoc]
  have hclosers : (Document.mk inside' d.parents).closers = d.closers := by
    simp only [Document.closers, hclosing]
  refine ⟨j', hstep, ⟨?_, ?_, ?_⟩⟩
  · rw [hdone, hclosers]
    exact hholds
  · rw [hlevel, h.level]
  · rw [hstatus, hempty]
    rfl

/-- Closing the current object or array. -/
theorem Represents.close (h : Represents j d) (hd : d.step .close = some d') :
  Represents (zbxJsonClose j) d'
  := by
  obtain ⟨inside, parents⟩ := d
  cases parents with
  | nil =>
    cases hd
    have hlevel : j.level = 1 := h.level
    rw [zbxJsonClose, if_pos hlevel]
    exact h
  | cons parent parents =>
    cases hd
    change Represents (zbxJsonClose j) ⟨parent.plug inside.content, parents⟩
    have hlevel : j.level = parents.length + 1 + 1 := h.level
    have hdone : (Document.mk (parent.plug inside.content) parents).done =
        (Document.mk inside (parent :: parents)).done ++ [inside.closing] := by
      simp only [Document.done, Parent.plug_text, parentsText, List.length_cons,
        List.append_assoc]
    have hclosers : (Document.mk inside (parent :: parents)).closers =
        inside.closing :: (Document.mk (parent.plug inside.content) parents).closers := by
      simp only [Document.closers, List.map_cons, Parent.closing_plug]
    obtain ⟨junk, hbuffer⟩ := h.holds.buffer
    have hoffset := h.holds.offset
    have hsize := h.holds.size
    rw [hclosers] at hbuffer hsize
    rw [zbxJsonClose, if_neg (by omega)]
    refine ⟨⟨⟨junk, ?_⟩, h.holds.allocated, ?_, ?_⟩, ?_, ?_⟩
    · change j.buffer = _
      rw [hbuffer, hdone]
      simp
    · change j.bufferOffset + 1 = _
      rw [hoffset, hdone, List.length_append, List.length_singleton]
    · change j.bufferSize = _
      rw [hsize, hdone, List.length_append, List.length_cons, List.length_singleton]
      omega
    · change j.level - 1 = parents.length + 1
      omega
    · change JsonStatus.comma = _
      cases parent <;> simp [Parent.plug, Inside.isEmpty]

theorem validated_decimal (n : ℕ) :
  validated.number (decimal n) ∧ IsInteger (decimal n)
  := by
  have hdigits : IsInt (decimal n) ∧ (0 < n → (decimal n).head? ≠ some '0'.toUInt8) := by
    have hdigit : ∀ d : ℕ, d < 10 → isDigit (0x30 + d.toUInt8) = true ∧
        (0 < d → 0x30 + d.toUInt8 ≠ '0'.toUInt8) := by
      decide
    fun_induction decimal n with
    | case1 n hlt =>
      refine ⟨⟨⟨List.cons_ne_nil _ _, ?_⟩, fun _ => rfl⟩, fun hpos => ?_⟩
      · intro c hc
        rw [List.mem_singleton.mp hc]
        exact (hdigit n hlt).1
      · intro hzero
        exact (hdigit n hlt).2 hpos (Option.some.inj hzero)
    | case2 n hge ih =>
      obtain ⟨⟨⟨hne, hall⟩, -⟩, hhead⟩ := ih
      have hpos : 0 < n / 10 := by omega
      obtain ⟨c, tail, hcons⟩ := List.exists_cons_of_ne_nil hne
      rw [hcons] at hhead hall ⊢
      refine ⟨⟨⟨by simp, ?_⟩, ?_⟩, fun _ => ?_⟩
      · intro b hb
        obtain hb | hb := List.mem_append.mp hb
        · exact hall b hb
        · rw [List.mem_singleton.mp hb]
          exact (hdigit (n % 10) (Nat.mod_lt n (by decide))).1
      · intro hzero
        exact absurd (show (c :: tail).head? = _ from hzero) (hhead hpos)
      · exact hhead hpos
  obtain ⟨hint, -⟩ := hdigits
  refine ⟨⟨[], decimal n, [], [], .inl rfl, hint, .inl rfl, .inl rfl, by simp⟩, ?_⟩
  intro c hc
  exact .inl (hint.1.2 c hc)

/-- Every call of a well nested sequence stays inside of the buffer and is followed by the
text of the document behind it. -/
theorem Represents.step (h : Represents j d) (fresh : ℕ → UInt8) {call : Call} (htyped : call.IsTyped)
    (hd : d.step call = some d') :
  ∃ j', j.step fresh call = some j' ∧ Represents j' d'
  := by
  cases call with
  | addobject name => exact h.openNew true rfl hd
  | addarray name => exact h.openNew false rfl hd
  | addstring name string type =>
    refine h.addstring string type ?_ hd
    intro s hs htype
    obtain rfl : string = some s := hs
    exact validated_number_of_standard (htyped htype)
  | adduint64 name value =>
    refine h.addstring (some (decimal value.toNat)) .int ?_ hd
    intro s hs _
    obtain rfl := Option.some.inj hs
    exact (validated_decimal _).1
  | close => exact ⟨_, rfl, h.close hd⟩

theorem represents_start (fresh : ℕ → UInt8) (allocate : ℕ) :
  ∃ j, zbxJsonInit fresh allocate = some j ∧ Represents j .start
  := by
  have hpos : 0 < (if jsonStatBufLen < allocate then allocate else jsonStatBufLen) := by
    rw [jsonStatBufLen]
    split <;> omega
  generalize hallocated : (if jsonStatBufLen < allocate then allocate else jsonStatBufLen) =
    allocated at hpos
  obtain ⟨first, junk, hfresh⟩ : ∃ first junk, freshBytes fresh 0 allocated = first :: junk := by
    apply List.exists_cons_of_ne_nil
    intro hnil
    have hlength := congrArg List.length hnil
    simp only [freshBytes, List.length_map, List.length_range', List.length_nil] at hlength
    omega
  have hlength : (0 :: junk).length = allocated := by
    have hlength := congrArg List.length hfresh
    simp only [freshBytes, List.length_map, List.length_range'] at hlength
    rw [List.length_cons] at hlength ⊢
    omega
  have hstore : store (freshBytes fresh 0 allocated) 0 [0] = some (0 :: junk) := by
    rw [hfresh]
    exact store_eq (a := []) (x := [first]) rfl
  have hholds : Holds
      { buffer := 0 :: junk
        bufferAllocated := allocated
        bufferOffset := 0
        bufferSize := 0
        status := .empty
        level := 0 } [] [] := ⟨⟨junk, rfl⟩, hlength, rfl, rfl⟩
  obtain ⟨j, hstep, hnew, hlevel, hstatus⟩ := hholds.addobject fresh none true
  refine ⟨j, ?_, hnew, hlevel, hstatus⟩
  simp only [zbxJsonInit, hallocated, hstore]
  exact hstep

/-- After `zbx_json_init` and every well nested sequence of calls the buffer holds the text
of the document that the calls build. -/
theorem represents_written (fresh : ℕ → UInt8) (allocate : ℕ) {calls : List Call}
    (htyped : ∀ call ∈ calls, call.IsTyped) (hbuilt : built calls = some d) :
  ∃ j, written fresh allocate calls = some j ∧ Represents j d
  := by
  have hrun : ∀ (calls : List Call) (j : ZbxJson) (d₀ : Document), Represents j d₀ →
      (∀ call ∈ calls, call.IsTyped) → calls.foldlM Document.step d₀ = some d →
      ∃ j', calls.foldlM (ZbxJson.step fresh) j = some j' ∧ Represents j' d := by
    intro calls
    induction calls with
    | nil =>
      intro j d₀ h _ hd
      cases hd
      exact ⟨j, rfl, h⟩
    | cons call calls ih =>
      intro j d₀ h htyped hd
      rw [List.foldlM_cons] at hd
      obtain ⟨d₁, hd₁, hrest⟩ := Option.bind_eq_some_iff.mp hd
      obtain ⟨j₁, hj₁, hrep⟩ := h.step fresh (htyped call List.mem_cons_self) hd₁
      obtain ⟨j', hj', hfinal⟩ := ih j₁ d₁ hrep
        (fun c hc => htyped c (List.mem_cons_of_mem _ hc)) hrest
      refine ⟨j', ?_, hfinal⟩
      rw [List.foldlM_cons, hj₁]
      exact hj'
  obtain ⟨j, hinit, hstart⟩ := represents_start fresh allocate
  obtain ⟨j', hj', hrep⟩ := hrun calls j .start hstart htyped hbuilt
  refine ⟨j', ?_, hrep⟩
  rw [written, hinit]
  exact hj'

end Json
