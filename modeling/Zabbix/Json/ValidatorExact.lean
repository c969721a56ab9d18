import Zabbix.Json.Scalars

/-!
# The grammar of the validator

`zbx_json_validate` accepts the objects of the grammar `validated`, and nothing else, and
returns the length of the object.
-/

open Ascii

namespace Json

/-! ### What is accepted belongs to the grammar -/

theorem parseLiteral_sound {start text rest : Bytes}
    (h : jsonParseLiteral start text = .ok rest) :
  start = text ++ rest
  := by
  unfold jsonParseLiteral at h
  split at h
  · rename_i hprefix
    obtain ⟨tail, rfl⟩ := hprefix
    obtain rfl := Except.ok.inj h
    simp
  · cases h

/-- The first byte decides which parser reads a value. -/
theorem parseValue_sound {depth : ℕ} {start rest : Bytes}
    (h : jsonParseValue (depth + 1) start = .ok rest) :
  ∃ ws ptr, IsWs ws ∧ start = ws ++ ptr ∧
    ((∃ tail, ptr = quote :: tail ∧ jsonParseString ptr = .ok rest) ∨
      (∃ tail, ptr = leftBrace :: tail ∧ jsonParseObject depth ptr = .ok rest) ∨
      (∃ tail, ptr = leftBracket :: tail ∧ jsonParseArray depth ptr = .ok rest) ∨
      (∃ raw ∈ literals, ptr = raw ++ rest) ∨
      jsonParseNumber ptr = .ok rest)
  := by
  obtain ⟨ws, hws, hsplit⟩ := exists_ws start
  rw [jsonParseValue_succ] at h
  cases hptr : skipWhitespace start with
  | nil => simp [hptr, jsonError] at h
  | cons c tail =>
    rw [hptr] at h hsplit
    dsimp only at h
    refine ⟨ws, c :: tail, hws, hsplit, ?_⟩
    obtain ⟨hc, h⟩ | ⟨-, h⟩ := ite_eq_iff.mp h
    · exact .inl ⟨tail, by rw [hc], h⟩
    obtain ⟨hc, h⟩ | ⟨-, h⟩ := ite_eq_iff.mp h
    · exact .inr (.inl ⟨tail, by rw [hc], h⟩)
    obtain ⟨hc, h⟩ | ⟨-, h⟩ := ite_eq_iff.mp h
    · exact .inr (.inr (.inl ⟨tail, by rw [hc], h⟩))
    obtain ⟨-, h⟩ | ⟨-, h⟩ := ite_eq_iff.mp h
    · exact .inr (.inr (.inr (.inl ⟨_, by simp [literals], parseLiteral_sound h⟩)))
    obtain ⟨-, h⟩ | ⟨-, h⟩ := ite_eq_iff.mp h
    · exact .inr (.inr (.inr (.inl ⟨_, by simp [literals], parseLiteral_sound h⟩)))
    obtain ⟨-, h⟩ | ⟨-, h⟩ := ite_eq_iff.mp h
    · exact .inr (.inr (.inr (.inl ⟨_, by simp [literals], parseLiteral_sound h⟩)))
    obtain ⟨-, h⟩ | ⟨-, h⟩ := ite_eq_iff.mp h
    · exact .inr (.inr (.inr (.inr h)))
    · cases h

/-- What the parsers of values, arrays and objects accept at a depth. -/
structure SoundAt (depth : ℕ) : Prop where
  value : ∀ start rest, jsonParseValue depth start = .ok rest →
    ∃ (ws : Bytes) (t : Tree .value), IsWs ws ∧ t.Valid validated ∧
      start = ws ++ (t.text ++ rest)
  array : ∀ tail rest, jsonParseArray depth (leftBracket :: tail) = .ok rest →
    ∃ t : Tree .value, t.Valid validated ∧ leftBracket :: tail = t.text ++ rest
  elements : ∀ ws ptr rest, IsWs ws → parseElements depth ptr = .ok rest →
    ∃ es : Tree .elements, es.Valid validated ∧
      ws ++ ptr = es.text ++ rightBracket :: rest
  object : ∀ start rest, jsonParseObject depth start = .ok rest →
    ∃ (ws : Bytes) (t : Tree .value), IsWs ws ∧ t.IsObject ∧ t.Valid validated ∧
      start = ws ++ (t.text ++ rest)
  members : ∀ ws ptr rest, IsWs ws → parseMembers depth ptr = .ok rest →
    ∃ ms : Tree .members, ms.Valid validated ∧ ws ++ ptr = ms.text ++ rightBrace :: rest

theorem soundAt_zero :
  SoundAt 0
  where
  value := by
    intro start rest h
    cases h
  array := by
    intro tail rest h
    cases h
  elements := by
    intro ws ptr rest _ h
    cases h
  object := by
    intro start rest h
    cases h
  members := by
    intro ws ptr rest _ h
    cases h

theorem head_of_skip {ptr : Bytes} {c : UInt8} (h : (skipWhitespace ptr).head? = some c) :
  ∃ ws, IsWs ws ∧ ptr = ws ++ c :: (skipWhitespace ptr).tail
  := by
  obtain ⟨ws, hws, hsplit⟩ := exists_ws ptr
  obtain ⟨tail, htail⟩ := List.head?_eq_some_iff.mp h
  refine ⟨ws, hws, ?_⟩
  rw [htail] at hsplit ⊢
  exact hsplit

variable {depth : ℕ}

theorem SoundAt.value_succ (ih : SoundAt depth) {start rest : Bytes}
    (h : jsonParseValue (depth + 1) start = .ok rest) :
  ∃ (ws : Bytes) (t : Tree .value), IsWs ws ∧ t.Valid validated ∧
    start = ws ++ (t.text ++ rest)
  := by
  obtain ⟨ws, ptr, hws, rfl, ⟨tail, rfl, hstring⟩ | ⟨tail, rfl, hobject⟩ | ⟨tail, rfl, harray⟩ |
    ⟨raw, hraw, rfl⟩ | hnumber⟩ := parseValue_sound h
  · obtain ⟨units, hunits, htail⟩ := parseStringLoop_sound hstring
    refine ⟨ws, .string units, hws, hunits, ?_⟩
    rw [List.tail_cons] at htail
    simp [Tree.text, stringText, htail]
  · obtain ⟨ws', t, hws', -, ht, hsplit⟩ := ih.object _ _ hobject
    exact ⟨ws ++ ws', t, hws.append hws', ht, by rw [hsplit, List.append_assoc]⟩
  · obtain ⟨t, ht, hsplit⟩ := ih.array _ _ harray
    exact ⟨ws, t, hws, ht, by rw [hsplit]⟩
  · exact ⟨ws, .literal raw, hws, hraw, rfl⟩
  · obtain ⟨raw, hraw, rfl⟩ := jsonParseNumber_sound hnumber
    exact ⟨ws, .number raw, hws, hraw, rfl⟩

theorem SoundAt.array_succ (ih : SoundAt depth) {tail rest : Bytes}
    (h : jsonParseArray (depth + 1) (leftBracket :: tail) = .ok rest) :
  ∃ t : Tree .value, t.Valid validated ∧ leftBracket :: tail = t.text ++ rest
  := by
  rw [jsonParseArray_succ] at h
  change (if (skipWhitespace tail).head? = some rightBracket then
    .ok (skipWhitespace tail).tail else parseElements depth (skipWhitespace tail)) = _ at h
  by_cases hclose : (skipWhitespace tail).head? = some rightBracket
  · rw [if_pos hclose] at h
    obtain ⟨ws, hws, hsplit⟩ := head_of_skip hclose
    obtain rfl := Except.ok.inj h
    refine ⟨.emptyArray ws, hws, ?_⟩
    conv_lhs => rw [hsplit]
    simp [Tree.text]
  · rw [if_neg hclose] at h
    obtain ⟨ws, hws, hsplit⟩ := exists_ws tail
    obtain ⟨es, hes, hes_split⟩ := ih.elements ws _ rest hws h
    rw [← hsplit] at hes_split
    exact ⟨.array es, hes, by simp [Tree.text, hes_split]⟩

theorem SoundAt.elements_succ (ih : SoundAt depth) {ws ptr rest : Bytes} (hws : IsWs ws)
    (h : parseElements (depth + 1) ptr = .ok rest) :
  ∃ es : Tree .elements, es.Valid validated ∧ ws ++ ptr = es.text ++ rightBracket :: rest
  := by
  rw [parseElements_succ] at h
  cases hvalue : jsonParseValue depth ptr with
  | error e => simp [hvalue] at h
  | ok ptr' =>
    obtain ⟨before, t, hbefore, ht, rfl⟩ := ih.value _ _ hvalue
    simp only [hvalue] at h
    split at h
    · rename_i hcomma
      obtain ⟨after, hafter, hsplit⟩ := head_of_skip hcomma
      obtain ⟨es, hes, hrest⟩ := ih.elements [] _ rest isWs_nil h
      refine ⟨.moreElements (ws ++ before) t after es, ⟨hws.append hbefore, ht, hafter, hes⟩, ?_⟩
      rw [List.nil_append] at hrest
      rw [hrest] at hsplit
      rw [hsplit]
      simp [Tree.text]
    split at h
    · rename_i hclose
      obtain ⟨after, hafter, hsplit⟩ := head_of_skip hclose
      obtain rfl := Except.ok.inj h
      refine ⟨.element (ws ++ before) t after, ⟨hws.append hbefore, ht, hafter⟩, ?_⟩
      conv_lhs => rw [hsplit]
      simp [Tree.text]
    · cases h

theorem SoundAt.object_succ (ih : SoundAt depth) {start rest : Bytes}
    (h : jsonParseObject (depth + 1) start = .ok rest) :
  ∃ (ws : Bytes) (t : Tree .value), IsWs ws ∧ t.IsObject ∧ t.Valid validated ∧
    start = ws ++ (t.text ++ rest)
  := by
  rw [jsonParseObject_succ] at h
  split at h
  · rename_i hopen
    obtain ⟨ws, hws, hsplit⟩ := head_of_skip hopen
    split at h
    · rename_i hclose
      obtain ⟨ws', hws', hsplit'⟩ := head_of_skip hclose
      obtain rfl := Except.ok.inj h
      refine ⟨ws, .emptyObject ws', hws, trivial, hws', ?_⟩
      rw [hsplit'] at hsplit
      conv_lhs => rw [hsplit]
      simp [Tree.text]
    · obtain ⟨ws', hws', hsplit'⟩ := exists_ws (skipWhitespace start).tail
      obtain ⟨ms, hms, hmembers⟩ := ih.members ws' _ rest hws' h
      rw [← hsplit'] at hmembers
      refine ⟨ws, .object ms, hws, trivial, hms, ?_⟩
      rw [hmembers] at hsplit
      simpa [Tree.text] using hsplit
  · cases h

theorem SoundAt.members_succ (ih : SoundAt depth) {ws ptr rest : Bytes} (hws : IsWs ws)
    (h : parseMembers (depth + 1) ptr = .ok rest) :
  ∃ ms : Tree .members, ms.Valid validated ∧ ws ++ ptr = ms.text ++ rightBrace :: rest
  := by
  rw [parseMembers_succ] at h
  split at h
  · rename_i hquote
    obtain ⟨tail, rfl⟩ := List.head?_eq_some_iff.mp hquote
    cases hstring : jsonParseString (quote :: tail) with
    | error e => simp [hstring] at h
    | ok ptr1 =>
      obtain ⟨name, hname, htail⟩ := parseStringLoop_sound hstring
      rw [List.tail_cons] at htail
      simp only [hstring] at h
      split at h
      · rename_i hcolon
        obtain ⟨ws1, hws1, hsplit1⟩ := head_of_skip hcolon
        cases hvalue : jsonParseValue depth (skipWhitespace ptr1).tail with
        | error e => simp [hvalue] at h
        | ok ptr2 =>
          obtain ⟨ws2, t, hws2, ht, hsplit2⟩ := ih.value _ _ hvalue
          simp only [hvalue] at h
          rw [hsplit2] at hsplit1
          split at h
          · rename_i hcomma
            obtain ⟨after, hafter, hsplit3⟩ := head_of_skip hcomma
            obtain ⟨ws3, hws3, hsplit4⟩ := exists_ws (skipWhitespace ptr2).tail
            obtain ⟨ms, hms, hrest⟩ := ih.members ws3 _ rest hws3 h
            rw [← hsplit4] at hrest
            rw [hrest] at hsplit3
            refine ⟨.moreMembers ws name ws1 ws2 t after ms,
              ⟨hws, hname, hws1, hws2, ht, hafter, hms⟩, ?_⟩
            rw [htail, hsplit1, hsplit3]
            simp [Tree.text, stringText]
          split at h
          · rename_i hclose
            obtain ⟨after, hafter, hsplit3⟩ := head_of_skip hclose
            obtain rfl := Except.ok.inj h
            refine ⟨.member ws name ws1 ws2 t after,
              ⟨hws, hname, hws1, hws2, ht, hafter⟩, ?_⟩
            rw [htail, hsplit1]
            conv_lhs => rw [hsplit3]
            simp [Tree.text, stringText]
          · cases h
      · cases h
  · cases h

theorem soundAt (depth : ℕ) :
  SoundAt depth
  := by
  induction depth with
  | zero => exact soundAt_zero
  | succ depth ih =>
    exact
      { value := fun _ _ => ih.value_succ
        array := fun _ _ => ih.array_succ
        elements := fun _ _ _ hws => ih.elements_succ hws
        object := fun _ _ => ih.object_succ
        members := fun _ _ _ hws => ih.members_succ hws }

/-! ### The grammar is accepted -/

/-- The text goes on with whitespace or punctuation, or ends. -/
def Stops (rest : Bytes) : Prop :=
  ∀ c ∈ rest.head?, isWhitespace c = true ∨ c = comma ∨ c = rightBracket ∨ c = rightBrace

theorem Stops.endsNumber {rest : Bytes} (h : Stops rest) :
  EndsNumber rest
  := by
  have hhead : ∀ c ∈ rest.head?, isDigit c = false ∧ c ≠ dot ∧ c ≠ 'e'.toUInt8 ∧
      c ≠ 'E'.toUInt8 := by
    intro c hc
    obtain hws | rfl | rfl | rfl := h c hc
    · simp only [isWhitespace, Bool.or_eq_true, decide_eq_true_eq] at hws
      obtain ((rfl | rfl) | rfl) | rfl := hws <;> decide
    · decide
    · decide
    · decide
  exact ⟨fun c hc => (hhead c hc).1, fun hc => (hhead _ hc).2.1 rfl,
    fun hc => (hhead _ hc).2.2.1 rfl, fun hc => (hhead _ hc).2.2.2 rfl⟩

theorem stops_cons {c : UInt8} {rest : Bytes}
    (h : isWhitespace c = true ∨ c = comma ∨ c = rightBracket ∨ c = rightBrace) :
  Stops (c :: rest)
  := by
  intro b hb
  obtain rfl : c = b := by simpa using hb
  exact h

/-- Whitespace and then punctuation, or the end. -/
theorem stops_ws {ws rest : Bytes} (hws : IsWs ws) (hrest : Stops rest) :
  Stops (ws ++ rest)
  := by
  cases ws with
  | nil => exact hrest
  | cons c ws => exact stops_cons (.inl (hws c List.mem_cons_self))

theorem number_head {raw : Bytes} (h : validated.number raw) :
  ∃ c tail, raw = c :: tail ∧ (isDigit c = true ∨ c = minus)
  := by
  obtain ⟨sign, int, fraction, power, hsign, ⟨hint, -⟩, -, -, rfl⟩ := h
  obtain ⟨c, more, rfl, hc, -⟩ := hint.head []
  obtain rfl | rfl := hsign
  · exact ⟨c, _, rfl, .inl hc⟩
  · exact ⟨minus, _, rfl, .inr rfl⟩

/-- The bytes a value may start with. -/
def startsValue (c : UInt8) : Bool :=
  c = quote || c = leftBrace || c = leftBracket || c = 't'.toUInt8 || c = 'f'.toUInt8 ||
    c = 'n'.toUInt8 || isDigit c || c = minus

theorem text_head (t : Tree .value) (h : t.Valid validated) :
  ∃ c tail, t.text = c :: tail ∧ startsValue c = true
  := by
  cases t with
  | string units => exact ⟨quote, _, rfl, by decide⟩
  | number raw =>
    obtain ⟨c, tail, hraw, hc⟩ := number_head h
    refine ⟨c, tail, hraw, ?_⟩
    obtain hc | rfl := hc
    · simp [startsValue, hc]
    · decide
  | literal raw =>
    have hraw : raw ∈ literals := h
    simp only [literals, List.mem_cons, List.not_mem_nil, or_false] at hraw
    obtain rfl | rfl | rfl := hraw
    · exact ⟨_, _, rfl, by decide⟩
    · exact ⟨_, _, rfl, by decide⟩
    · exact ⟨_, _, rfl, by decide⟩
  | emptyArray ws => exact ⟨leftBracket, _, rfl, by decide⟩
  | array es => exact ⟨leftBracket, _, rfl, by decide⟩
  | emptyObject ws => exact ⟨leftBrace, _, rfl, by decide⟩
  | object ms => exact ⟨leftBrace, _, rfl, by decide⟩

theorem startsValue_iff {c : UInt8} (h : startsValue c = true) :
  isWhitespace c = false ∧ c ≠ comma ∧ c ≠ rightBracket ∧ c ≠ rightBrace
  := by
  simp only [startsValue, Bool.or_eq_true, decide_eq_true_eq] at h
  obtain ((((((rfl | rfl) | rfl) | rfl) | rfl) | rfl) | hdigit) | rfl := h
  · decide
  · decide
  · decide
  · decide
  · decide
  · decide
  · refine ⟨?_, ?_, ?_, ?_⟩
    · by_contra hws
      simp only [Bool.not_eq_false, isWhitespace, Bool.or_eq_true, decide_eq_true_eq] at hws
      obtain ((rfl | rfl) | rfl) | rfl := hws <;> exact absurd hdigit (by decide)
    · rintro rfl
      exact absurd hdigit (by decide)
    · rintro rfl
      exact absurd hdigit (by decide)
    · rintro rfl
      exact absurd hdigit (by decide)
  · decide

/-- Where a value is read, the whitespace before it makes no difference. -/
theorem parseValue_skip (depth : ℕ) (start : Bytes) :
  jsonParseValue depth (skipWhitespace start) = jsonParseValue depth start
  := by
  obtain ⟨ws, hws, hsplit⟩ := exists_ws start
  have hskip : skipWhitespace (skipWhitespace start) = skipWhitespace start := by
    conv_rhs => rw [hsplit]
    rw [skipWhitespace_append hws]
  cases depth with
  | zero => rfl
  | succ depth => rw [jsonParseValue_succ, jsonParseValue_succ, hskip]

theorem parseElements_skip (depth : ℕ) (ptr : Bytes) :
  parseElements depth (skipWhitespace ptr) = parseElements depth ptr
  := by
  cases depth with
  | zero => rfl
  | succ depth => rw [parseElements_succ, parseElements_succ, parseValue_skip]

theorem parseValue_ws {ws : Bytes} (hws : IsWs ws) (depth : ℕ) (start : Bytes) :
  jsonParseValue depth (ws ++ start) = jsonParseValue depth start
  := by
  rw [← parseValue_skip, skipWhitespace_append hws, parseValue_skip]

theorem parseValue_literal {raw : Bytes} (h : raw ∈ literals) (depth : ℕ) (rest : Bytes) :
  jsonParseValue (depth + 1) (raw ++ rest) = .ok rest
  := by
  simp only [literals, List.mem_cons, List.not_mem_nil, or_false] at h
  obtain rfl | rfl | rfl := h
  · rfl
  · rfl
  · rfl

theorem parseValue_number {raw rest : Bytes} (h : validated.number raw)
    (hrest : EndsNumber rest) (depth : ℕ) :
  jsonParseValue (depth + 1) (raw ++ rest) = .ok rest
  := by
  have hparse := jsonParseNumber_complete h hrest
  obtain ⟨c, tail, rfl, hc⟩ := number_head h
  have hclass : isWhitespace c = false ∧ c ≠ quote ∧ c ≠ leftBrace ∧ c ≠ leftBracket ∧
      c ≠ 't'.toUInt8 ∧ c ≠ 'f'.toUInt8 ∧ c ≠ 'n'.toUInt8 := by
    obtain hdigit | rfl := hc
    · refine ⟨?_, ?_, ?_, ?_, ?_, ?_, ?_⟩
      · exact (startsValue_iff (by simp [startsValue, hdigit])).1
      all_goals
        rintro rfl
        exact absurd hdigit (by decide)
    · decide
  obtain ⟨hws, h1, h2, h3, h4, h5, h6⟩ := hclass
  have hnumber : (isDigit c || c = minus) = true := by
    obtain hdigit | rfl := hc
    · simp [hdigit]
    · decide
  rw [List.cons_append] at hparse ⊢
  rw [jsonParseValue_succ, skipWhitespace_cons hws]
  dsimp only
  rw [if_neg h1, if_neg h2, if_neg h3, if_neg h4, if_neg h5, if_neg h6, if_pos hnumber]
  exact hparse

/-- The text of a tree is read to its end. -/
def Completes : (kind : Kind) → Tree kind → Prop
  | .value, t => ∀ (depth : ℕ) (rest : Bytes), Stops rest → 3 * t.text.length ≤ depth →
      jsonParseValue depth (t.text ++ rest) = .ok rest
  | .elements, es => ∀ (depth : ℕ) (rest : Bytes), 3 * es.text.length + 1 ≤ depth →
      parseElements depth (es.text ++ rightBracket :: rest) = .ok rest
  | .members, ms => ∀ (depth : ℕ) (rest : Bytes), 3 * ms.text.length + 1 ≤ depth →
      parseMembers depth (skipWhitespace (ms.text ++ rightBrace :: rest)) = .ok rest

theorem skipWhitespace_string (units : List StringUnit) (rest : Bytes) :
  skipWhitespace (stringText units ++ rest) = stringText units ++ rest
  := skipWhitespace_cons (by decide) _

theorem elements_head (es : Tree .elements) (h : es.Valid validated) (rest : Bytes) :
  ∃ c, (skipWhitespace (es.text ++ rest)).head? = some c ∧ c ≠ rightBracket
  := by
  have hvalue : ∀ (before : Bytes) (v : Tree .value) (tail : Bytes), IsWs before →
      v.Valid validated →
      ∃ c, (skipWhitespace (before ++ (v.text ++ tail))).head? = some c ∧ c ≠ rightBracket := by
    intro before v tail hbefore hv
    obtain ⟨c, more, htext, hstart⟩ := text_head v hv
    obtain ⟨hws, -, hne, -⟩ := startsValue_iff hstart
    refine ⟨c, ?_, hne⟩
    rw [skipWhitespace_append hbefore, htext, List.cons_append, skipWhitespace_cons hws]
    rfl
  cases es with
  | element before v after =>
    obtain ⟨hbefore, hv, -⟩ := h
    rw [Tree.element_text_append]
    exact hvalue before v (after ++ rest) hbefore hv
  | moreElements before v after es =>
    obtain ⟨hbefore, hv, -⟩ := h
    rw [Tree.moreElements_text_append]
    exact hvalue before v (after ++ comma :: (es.text ++ rest)) hbefore hv

theorem members_head (ms : Tree .members) (h : ms.Valid validated) (rest : Bytes) :
  ∃ tail, skipWhitespace (ms.text ++ rest) = quote :: tail
  := by
  cases ms with
  | member before name ws1 ws2 v after =>
    rw [Tree.text, List.append_assoc, skipWhitespace_append h.1]
    exact ⟨_, skipWhitespace_cons (by decide) _⟩
  | moreMembers before name ws1 ws2 v after ms =>
    rw [Tree.text, List.append_assoc, skipWhitespace_append h.1]
    exact ⟨_, skipWhitespace_cons (by decide) _⟩

/-- Behind a value in an array. -/
theorem parseElements_value (depth : ℕ) {before : Bytes} {v : Tree .value} {after : Bytes}
    (hbefore : IsWs before) (hafter : IsWs after) (hv : Completes .value v)
    (hdepth : 3 * v.text.length ≤ depth) {c : UInt8} (hc : c = comma ∨ c = rightBracket)
    (rest : Bytes) :
  parseElements (depth + 1) (before ++ (v.text ++ (after ++ c :: rest))) =
    if c = comma then parseElements depth rest else .ok rest
  := by
  have hstops : Stops (after ++ c :: rest) := by
    apply stops_ws hafter
    apply stops_cons
    obtain rfl | rfl := hc
    · exact .inr (.inl rfl)
    · exact .inr (.inr (.inl rfl))
  have hws : isWhitespace c = false := by
    obtain rfl | rfl := hc <;> decide
  have hvalue : jsonParseValue depth (before ++ (v.text ++ (after ++ c :: rest))) =
      .ok (after ++ c :: rest) := by
    rw [parseValue_ws hbefore]
    exact hv depth _ hstops hdepth
  rw [parseElements_succ, hvalue]
  dsimp only
  rw [skipWhitespace_append hafter, skipWhitespace_cons hws]
  obtain rfl | rfl := hc
  · simp
  · simp +decide

/-- Behind a value in an object. -/
theorem parseMembers_value (depth : ℕ) {name : List StringUnit} {ws1 ws2 : Bytes}
    {v : Tree .value} {after : Bytes} (hname : ∀ u ∈ name, u.Valid validated)
    (hws1 : IsWs ws1) (hws2 : IsWs ws2) (hafter : IsWs after) (hv : Completes .value v)
    (hdepth : 3 * v.text.length ≤ depth) {c : UInt8} (hc : c = comma ∨ c = rightBrace)
    (rest : Bytes) :
  parseMembers (depth + 1)
      (stringText name ++ (ws1 ++ colon :: (ws2 ++ (v.text ++ (after ++ c :: rest))))) =
    if c = comma then parseMembers depth (skipWhitespace rest) else .ok rest
  := by
  have hstops : Stops (after ++ c :: rest) := by
    apply stops_ws hafter
    apply stops_cons
    obtain rfl | rfl := hc
    · exact .inr (.inl rfl)
    · exact .inr (.inr (.inr rfl))
  have hws : isWhitespace c = false := by
    obtain rfl | rfl := hc <;> decide
  have hvalue : jsonParseValue depth (ws2 ++ (v.text ++ (after ++ c :: rest))) =
      .ok (after ++ c :: rest) := by
    rw [parseValue_ws hws2]
    exact hv depth _ hstops hdepth
  have hstring : ∀ tail : Bytes, jsonParseString (stringText name ++ tail) = .ok tail := by
    intro tail
    have hloop := parseStringLoop_units hname tail
    simpa [jsonParseString, stringText] using hloop
  have hquote : ∀ tail : Bytes, (stringText name ++ tail).head? = some quote := fun _ => rfl
  rw [parseMembers_succ, if_pos (hquote _), hstring]
  dsimp only
  rw [skipWhitespace_append hws1, skipWhitespace_cons (by decide), List.head?_cons,
    if_pos rfl, List.tail_cons, hvalue]
  dsimp only
  rw [skipWhitespace_append hafter, skipWhitespace_cons hws]
  obtain rfl | rfl := hc
  · simp
  · simp +decide

/-- An array without elements. -/
theorem parseArray_empty {ws : Bytes} (h : IsWs ws) (depth : ℕ) (rest : Bytes) :
  jsonParseArray (depth + 1) (leftBracket :: (ws ++ rightBracket :: rest)) = .ok rest
  := by
  have hskip : skipWhitespace (ws ++ rightBracket :: rest) = rightBracket :: rest := by
    rw [skipWhitespace_append h, skipWhitespace_cons (by decide)]
  rw [jsonParseArray_succ, List.tail_cons, hskip]
  rfl

theorem parseArray_elements {es : Tree .elements} (h : es.Valid validated)
    (hes : Completes .elements es) {depth : ℕ} (hdepth : 3 * es.text.length + 1 ≤ depth)
    (rest : Bytes) :
  jsonParseArray (depth + 1) (leftBracket :: (es.text ++ rightBracket :: rest)) = .ok rest
  := by
  obtain ⟨c, hhead, hne⟩ := elements_head es h (rightBracket :: rest)
  rw [jsonParseArray_succ, List.tail_cons]
  rw [hhead, if_neg (by simpa using hne), parseElements_skip]
  exact hes depth rest hdepth

/-- An object without members. -/
theorem parseObject_empty {ws : Bytes} (h : IsWs ws) (depth : ℕ) (rest : Bytes) :
  jsonParseObject (depth + 1) (leftBrace :: (ws ++ rightBrace :: rest)) = .ok rest
  := by
  have hskip : skipWhitespace (ws ++ rightBrace :: rest) = rightBrace :: rest := by
    rw [skipWhitespace_append h, skipWhitespace_cons (by decide)]
  rw [jsonParseObject_succ, skipWhitespace_cons (by decide)]
  rw [List.head?_cons, if_pos rfl, List.tail_cons, hskip]
  rfl

theorem parseObject_members {ms : Tree .members} (h : ms.Valid validated)
    (hms : Completes .members ms) {depth : ℕ} (hdepth : 3 * ms.text.length + 1 ≤ depth)
    (rest : Bytes) :
  jsonParseObject (depth + 1) (leftBrace :: (ms.text ++ rightBrace :: rest)) = .ok rest
  := by
  obtain ⟨tail, htail⟩ := members_head ms h (rightBrace :: rest)
  rw [jsonParseObject_succ, skipWhitespace_cons (by decide)]
  rw [List.head?_cons, if_pos rfl, List.tail_cons, htail, List.head?_cons, if_neg (by decide),
    ← htail]
  exact hms depth rest hdepth

theorem completes {kind : Kind} (t : Tree kind) (h : t.Valid validated) :
  Completes kind t
  := by
  induction t with
  | string units =>
    intro depth rest _ hdepth
    obtain ⟨depth, rfl⟩ : ∃ d, depth = d + 1 := ⟨depth - 1, by
      simp only [Tree.text, stringText, List.length_cons] at hdepth
      omega⟩
    have hloop := parseStringLoop_units h rest
    have hparse : jsonParseValue (depth + 1) (quote :: (unitsText units ++ quote :: rest)) =
        parseStringLoop (unitsText units ++ quote :: rest) := rfl
    simpa [Tree.text, stringText, hloop] using hparse
  | number raw =>
    intro depth rest hrest hdepth
    obtain ⟨c, tail, hraw, -⟩ := number_head h
    obtain ⟨depth, rfl⟩ : ∃ d, depth = d + 1 := ⟨depth - 1, by
      simp only [Tree.text, hraw, List.length_cons] at hdepth
      omega⟩
    exact parseValue_number h hrest.endsNumber depth
  | literal raw =>
    intro depth rest _ hdepth
    obtain ⟨c, tail, htext, -⟩ := text_head (.literal raw) h
    obtain ⟨depth, rfl⟩ : ∃ d, depth = d + 1 := ⟨depth - 1, by
      rw [htext, List.length_cons] at hdepth
      omega⟩
    exact parseValue_literal h depth rest
  | emptyArray ws =>
    intro depth rest _ hdepth
    obtain ⟨depth, rfl⟩ : ∃ d, depth = d + 2 := ⟨depth - 2, by
      simp only [Tree.text, List.length_cons] at hdepth
      omega⟩
    have hparse : jsonParseValue (depth + 2) (leftBracket :: (ws ++ rightBracket :: rest)) =
        jsonParseArray (depth + 1) (leftBracket :: (ws ++ rightBracket :: rest)) := rfl
    simpa [Tree.text, parseArray_empty h depth rest] using hparse
  | array es ih =>
    intro depth rest _ hdepth
    obtain ⟨depth, rfl⟩ : ∃ d, depth = d + 2 := ⟨depth - 2, by
      simp only [Tree.text, List.length_cons] at hdepth
      omega⟩
    have hparse : jsonParseValue (depth + 2) (leftBracket :: (es.text ++ rightBracket :: rest)) =
        jsonParseArray (depth + 1) (leftBracket :: (es.text ++ rightBracket :: rest)) := rfl
    have harray : jsonParseArray (depth + 1) (leftBracket :: (es.text ++ rightBracket :: rest)) =
        .ok rest := by
      apply parseArray_elements h (ih h)
      simp only [Tree.text, List.length_cons, List.length_append, List.length_nil] at hdepth
      omega
    simpa [Tree.text, harray] using hparse
  | emptyObject ws =>
    intro depth rest _ hdepth
    obtain ⟨depth, rfl⟩ : ∃ d, depth = d + 2 := ⟨depth - 2, by
      simp only [Tree.text, List.length_cons] at hdepth
      omega⟩
    have hparse : jsonParseValue (depth + 2) (leftBrace :: (ws ++ rightBrace :: rest)) =
        jsonParseObject (depth + 1) (leftBrace :: (ws ++ rightBrace :: rest)) := rfl
    simpa [Tree.text, parseObject_empty h depth rest] using hparse
  | object ms ih =>
    intro depth rest _ hdepth
    obtain ⟨depth, rfl⟩ : ∃ d, depth = d + 2 := ⟨depth - 2, by
      simp only [Tree.text, List.length_cons] at hdepth
      omega⟩
    have hparse : jsonParseValue (depth + 2) (leftBrace :: (ms.text ++ rightBrace :: rest)) =
        jsonParseObject (depth + 1) (leftBrace :: (ms.text ++ rightBrace :: rest)) := rfl
    have hobject : jsonParseObject (depth + 1) (leftBrace :: (ms.text ++ rightBrace :: rest)) =
        .ok rest := by
      apply parseObject_members h (ih h)
      simp only [Tree.text, List.length_cons, List.length_append, List.length_nil] at hdepth
      omega
    simpa [Tree.text, hobject] using hparse
  | element before v after ih =>
    intro depth rest hdepth
    obtain ⟨hbefore, hv, hafter⟩ := h
    simp only [Tree.text, List.length_append] at hdepth
    obtain ⟨depth, rfl⟩ : ∃ d, depth = d + 1 := ⟨depth - 1, by omega⟩
    have hparse := parseElements_value depth hbefore hafter (ih hv) (by omega)
      (.inr rfl) rest
    simpa +decide [Tree.text] using hparse
  | moreElements before v after es ihv ihes =>
    intro depth rest hdepth
    obtain ⟨hbefore, hv, hafter, hes⟩ := h
    simp only [Tree.text, List.length_append, List.length_cons] at hdepth
    obtain ⟨depth, rfl⟩ : ∃ d, depth = d + 1 := ⟨depth - 1, by omega⟩
    have hparse := parseElements_value depth hbefore hafter (ihv hv) (by omega)
      (.inl rfl) (es.text ++ rightBracket :: rest)
    rw [if_pos rfl, ihes hes depth rest (by omega)] at hparse
    simpa [Tree.text] using hparse
  | member before name ws1 ws2 v after ih =>
    intro depth rest hdepth
    obtain ⟨hbefore, hname, hws1, hws2, hv, hafter⟩ := h
    simp only [Tree.text, List.length_append, List.length_cons] at hdepth
    obtain ⟨depth, rfl⟩ : ∃ d, depth = d + 1 := ⟨depth - 1, by omega⟩
    have hparse := parseMembers_value depth hname hws1 hws2 hafter (ih hv)
      (by omega) (.inr rfl) rest
    rw [Tree.text, List.append_assoc, skipWhitespace_append hbefore, List.append_assoc,
      skipWhitespace_string]
    simpa +decide using hparse
  | moreMembers before name ws1 ws2 v after ms ihv ihms =>
    intro depth rest hdepth
    obtain ⟨hbefore, hname, hws1, hws2, hv, hafter, hms⟩ := h
    simp only [Tree.text, List.length_append, List.length_cons] at hdepth
    obtain ⟨depth, rfl⟩ : ∃ d, depth = d + 1 := ⟨depth - 1, by omega⟩
    have hparse := parseMembers_value depth hname hws1 hws2 hafter (ihv hv)
      (by omega) (.inl rfl) (ms.text ++ rightBrace :: rest)
    rw [if_pos rfl, ihms hms depth rest (by omega)] at hparse
    rw [Tree.text, List.append_assoc, skipWhitespace_append hbefore, List.append_assoc,
      skipWhitespace_string]
    simpa using hparse

/-! ### Objects -/

theorem parseObject_ws {ws : Bytes} (hws : IsWs ws) (depth : ℕ) (start : Bytes) :
  jsonParseObject depth (ws ++ start) = jsonParseObject depth start
  := by
  cases depth with
  | zero => rfl
  | succ depth => rw [jsonParseObject_succ, jsonParseObject_succ, skipWhitespace_append hws]

theorem object_head {t : Tree .value} (h : t.IsObject) :
  ∃ tail, t.text = leftBrace :: tail
  := by
  cases t with
  | emptyObject ws => exact ⟨_, rfl⟩
  | object ms => exact ⟨_, rfl⟩
  | string _ => cases h
  | number _ => cases h
  | literal _ => cases h
  | emptyArray _ => cases h
  | array _ => cases h

theorem parseObject_complete {t : Tree .value} (hobject : t.IsObject)
    (ht : t.Valid validated) {depth : ℕ} {rest : Bytes} (hrest : Stops rest)
    (hdepth : 3 * t.text.length ≤ depth + 1) :
  jsonParseObject depth (t.text ++ rest) = .ok rest
  := by
  obtain ⟨tail, htail⟩ := object_head hobject
  have hparse := completes t ht (depth + 1) rest hrest hdepth
  have hdispatch : jsonParseValue (depth + 1) (leftBrace :: (tail ++ rest)) =
      jsonParseObject depth (leftBrace :: (tail ++ rest)) := rfl
  rw [htail, List.cons_append] at hparse ⊢
  rw [← hdispatch]
  exact hparse

theorem stops_of_isWs {ws : Bytes} (h : IsWs ws) :
  Stops ws
  := by
  intro c hc
  exact .inl (h c (List.mem_of_mem_head? hc))

/-- `zbx_json_validate` returns the length of the object exactly when the text is an object
of the grammar with whitespace around it. -/
theorem validate_eq_ok_iff {text : Bytes} {n : ℕ} :
  zbxJsonValidate text = .ok n ↔
    ∃ (before after : Bytes) (object : Tree .value), IsWs before ∧ IsWs after ∧
      object.IsObject ∧ object.Valid validated ∧ text = before ++ (object.text ++ after) ∧
      n = before.length + object.text.length
  := by
  constructor
  · intro h
    unfold zbxJsonValidate at h
    cases hparse : jsonParseObject (3 * text.length + 3) text with
    | error e => simp [hparse] at h
    | ok rest =>
      obtain ⟨before, t, hbefore, hobject, ht, hsplit⟩ := (soundAt _).object _ _ hparse
      rw [hparse] at h
      dsimp only at h
      obtain ⟨after, hafter, hrest⟩ := exists_ws rest
      cases hskip : skipWhitespace rest with
      | cons c tail =>
        rw [hskip] at h
        cases h
      | nil =>
        rw [hskip] at h hrest
        rw [List.append_nil] at hrest
        obtain rfl := Except.ok.inj h
        refine ⟨before, rest, t, hbefore, by rwa [hrest], hobject, ht, hsplit, ?_⟩
        have hlength := congrArg List.length hsplit
        simp only [List.length_append] at hlength
        omega
  · rintro ⟨before, after, t, hbefore, hafter, hobject, ht, rfl, rfl⟩
    have hparse : jsonParseObject (3 * (before ++ (t.text ++ after)).length + 3)
        (before ++ (t.text ++ after)) = .ok after := by
      rw [parseObject_ws hbefore]
      apply parseObject_complete hobject ht (stops_of_isWs hafter)
      simp only [List.length_append]
      omega
    unfold zbxJsonValidate
    rw [hparse]
    dsimp only
    rw [skipWhitespace_ws hafter]
    simp only [List.length_append]
    congr 1
    omega

end Json
