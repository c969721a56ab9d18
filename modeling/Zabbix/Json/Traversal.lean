import Zabbix.Json.Decoding

/-!
# Traversing arrays and objects

The readers enumerate the elements of an array or the pairs of an object by scanning the
text again. They find the matching bracket of every array and object. They enumerate what
is in it unless it is empty with whitespace between its brackets, and they enumerate the
pairs unless a name has an escaped quote behind the part that fits into the buffer.
-/

open Ascii

namespace Json

/-- Calling `next` again and again with the pointer it gave, first with `p`, gives the items
in order and then nothing. -/
def Enumerates {α β : Type} (next : Option β → Option α) (pointer : α → β) :
    Option β → List α → Prop
  | p, [] => next p = none
  | p, a :: as => next p = some a ∧ Enumerates next pointer (some (pointer a)) as

namespace Tree

/-- The value is an array or an object. -/
def IsContainer : {kind : Kind} → Tree kind → Prop
  | _, emptyArray _ => True
  | _, array _ => True
  | _, emptyObject _ => True
  | _, object _ => True
  | _, _ => False

/-- The value is an empty array or object with whitespace between its brackets. -/
def IsBlank : {kind : Kind} → Tree kind → Prop
  | _, emptyArray ws => ws ≠ []
  | _, emptyObject ws => ws ≠ []
  | _, _ => False

/-- The closing bracket of an array or of an object. -/
def closing : {kind : Kind} → Tree kind → UInt8
  | _, emptyObject _ => rightBrace
  | _, object _ => rightBrace
  | _, _ => rightBracket

/-- Pointers to the elements of an array, or to the names in an object. -/
def items : {kind : Kind} → Tree kind → Bytes → List Bytes
  | _, array es, after => es.items (rightBracket :: after)
  | _, object ms, after => ms.items (rightBrace :: after)
  | _, element _ v ws, after => [v.text ++ (ws ++ after)]
  | _, moreElements _ v ws es, after =>
    (v.text ++ (ws ++ comma :: (es.text ++ after))) :: es.items after
  | _, member _ name ws1 ws2 v ws, after =>
    [stringText name ++ (ws1 ++ colon :: (ws2 ++ (v.text ++ (ws ++ after))))]
  | _, moreMembers _ name ws1 ws2 v ws ms, after =>
    (stringText name ++
      (ws1 ++ colon :: (ws2 ++ (v.text ++ (ws ++ comma :: (ms.text ++ after)))))) ::
        ms.items after
  | _, _, _ => []

/-- The names in an object, each with a pointer to its value. -/
def pairs : {kind : Kind} → Tree kind → Bytes → List (List StringUnit × Bytes)
  | _, object ms, after => ms.pairs (rightBrace :: after)
  | _, member _ name _ _ v ws, after => [(name, v.text ++ (ws ++ after))]
  | _, moreMembers _ name _ _ v ws ms, after =>
    (name, v.text ++ (ws ++ comma :: (ms.text ++ after))) :: ms.pairs after
  | _, _, _ => []

/-- The names in an object. -/
def names : {kind : Kind} → Tree kind → List (List StringUnit)
  | _, object ms => ms.names
  | _, member _ name _ _ _ _ => [name]
  | _, moreMembers _ name _ _ _ _ ms => name :: ms.names
  | _, _ => []

/-- The pointers to the brackets of an array or an object. -/
def bracketed {kind : Kind} (t : Tree kind) (after : Bytes) : JsonParse :=
  { start := t.text ++ after, end' := t.closing :: after }

end Tree

/-- What `zbx_json_pair_next` gives for a pair: as much of the name as fits into the
buffer. -/
def readPair (len : ℕ) (pair : List StringUnit × Bytes) : Bytes × Bytes :=
  ((decodedUnits pair.1).take (len - 1), pair.2)

/-- The readers find the brackets of an array or an object and enumerate exactly what is in
it, with a buffer of `len` bytes for the names. -/
structure Traversed (len : ℕ) (container : Tree .value) (after : Bytes) : Prop where
  brackets : zbxJsonBracketsOpen (container.text ++ after) = some (container.bracketed after)
  items : Enumerates (zbxJsonNext (container.bracketed after)) id none (container.items after)
  count : zbxJsonCount (container.bracketed after) = (container.items after).length
  pairs : container.IsObject →
    Enumerates (fun p => zbxJsonPairNext (container.bracketed after) p len) Prod.snd none
      ((container.pairs after).map (readPair len))

variable {kind : Kind} {t : Tree kind} {jp : JsonParse}

/-! ### Brackets -/

theorem text_ne_nil (h : t.Valid validated) :
  t.text ≠ []
  := by
  have hvalue : ∀ v : Tree .value, v.Valid validated → v.text ≠ [] := by
    intro v hv
    obtain ⟨c, tail, htext, -⟩ := text_head v hv
    rw [htext]
    exact List.cons_ne_nil c tail
  have helements : ∀ (before : Bytes) (v : Tree .value) (tail : Bytes), v.Valid validated →
      before ++ (v.text ++ tail) ≠ [] := by
    intro before v tail hv hnil
    exact hvalue v hv (List.append_eq_nil_iff.mp (List.append_eq_nil_iff.mp hnil).2).1
  cases t with
  | string => exact hvalue _ h
  | number => exact hvalue _ h
  | literal => exact hvalue _ h
  | emptyArray => exact hvalue _ h
  | array => exact hvalue _ h
  | emptyObject => exact hvalue _ h
  | object => exact hvalue _ h
  | element before v after => exact helements before v after h.2.1
  | moreElements before v after es => exact helements before v _ h.2.1
  | member before name ws1 ws2 v after => simp [Tree.text, stringText]
  | moreMembers before name ws1 ws2 v after ms => simp [Tree.text, stringText]

/-- Between the brackets of an array or an object stands text that the loops pass above
level zero. -/
theorem container_text {container : Tree .value} (hcontainer : container.IsContainer)
    (hvalid : container.Valid validated) :
  ∃ (c : UInt8) (inner : Bytes), isOpening c = true ∧
    container.closing = (if c = leftBrace then rightBrace else rightBracket) ∧
    (∀ after, container.text ++ after = c :: (inner ++ container.closing :: after)) ∧
    ∀ {scan low level} {Room : Bytes → Prop}, ScansLevels scan low Room → low ≤ level →
      0 < level → ∀ {rest}, Room rest →
        scan level false (inner ++ rest) = scan level false rest
  := by
  cases container with
  | string units => cases hcontainer
  | number raw => cases hcontainer
  | literal raw => cases hcontainer
  | emptyArray ws =>
    refine ⟨leftBracket, ws, by decide, rfl, fun after => ?_, ?_⟩
    · simp [Tree.text, Tree.closing]
    · intro scan low level Room hscan _ _ rest hrest
      exact hscan.pass_ws hvalid hrest
  | array es =>
    refine ⟨leftBracket, es.text, by decide, rfl, fun after => ?_, ?_⟩
    · simp [Tree.text, Tree.closing]
    · intro scan low level Room hscan hlow hlevel rest hrest
      exact hscan.pass (t := es) hvalid hlow (.inr hlevel) hrest
  | emptyObject ws =>
    refine ⟨leftBrace, ws, by decide, rfl, fun after => ?_, ?_⟩
    · simp [Tree.text, Tree.closing]
    · intro scan low level Room hscan _ _ rest hrest
      exact hscan.pass_ws hvalid hrest
  | object ms =>
    refine ⟨leftBrace, ms.text, by decide, rfl, fun after => ?_, ?_⟩
    · simp [Tree.text, Tree.closing]
    · intro scan low level Room hscan hlow hlevel rest hrest
      exact hscan.pass (t := ms) hvalid hlow (.inr hlevel) hrest

/-- The matching bracket of every array and object is found. -/
theorem bracketsOpen_container {container : Tree .value}
    (hcontainer : container.IsContainer) (hvalid : container.Valid validated)
    (after : Bytes) :
  zbxJsonBracketsOpen (container.text ++ after) = some (container.bracketed after)
  := by
  obtain ⟨c, inner, hc, hclosing, htext, hpass⟩ := container_text hcontainer hvalid
  have hquote : c ≠ quote := by
    rintro rfl
    exact absurd hc (by decide)
  have hback : c ≠ backslash := by
    rintro rfl
    exact absurd hc (by decide)
  have hspace : isWhitespace c = false := by
    obtain rfl | rfl := isOpening_iff.mp hc <;> decide
  have hclose : isClosing container.closing = true ∧ container.closing ≠ quote ∧
      container.closing ≠ backslash ∧ isOpening container.closing = false := by
    rw [hclosing]
    split <;> decide
  obtain ⟨hclose, hcquote, hcback, hcopen⟩ := hclose
  have hfind : jsonRbracket (container.text ++ after) = some (container.closing :: after) := by
    rw [htext, jsonRbracket, if_pos hc, ← hclosing, rbracketLoop_cons, if_neg hquote,
      if_neg hback, if_neg (by decide), if_pos hc,
      hpass (scansLevels_rbracketLoop _) (le_refl 1) (by decide) trivial, rbracketLoop_cons,
      if_neg hcquote, if_neg hcback, if_neg (by decide), if_neg (by simp [hcopen]),
      if_pos hclose, if_pos (by decide), if_pos rfl]
  rw [zbxJsonBracketsOpen, hfind, Option.map_some, htext, skipWhitespace_cons hspace, ← htext]
  rfl

/-! ### The step to the next element -/

/-- The loop stops at a comma on level zero. -/
theorem nextLoop_comma {stop : ℕ} {rest : Bytes} (h : stop ≤ rest.length) :
  nextLoop stop 0 false (comma :: rest) = some (skipWhitespace rest)
  := by
  rw [nextLoop_cons, if_neg (not_lt_of_room h), if_neg (by decide), if_neg (by decide),
    if_neg (by decide), if_neg (by decide), if_neg (by decide), if_pos ⟨rfl, rfl⟩]

/-- The loop gives nothing at the closing bracket on level zero. -/
theorem nextLoop_closing (stop : ℕ) {c : UInt8} (hc : isClosing c = true) (rest : Bytes) :
  nextLoop stop 0 false (c :: rest) = none
  := by
  have hne : c ≠ quote ∧ c ≠ backslash ∧ ¬ isOpening c = true := by
    obtain rfl | rfl := isClosing_iff.mp hc <;> decide
  rw [nextLoop_cons]
  split
  · rfl
  · rw [if_neg hne.1, if_neg hne.2.1, if_neg Bool.false_ne_true, if_neg hne.2.2, if_pos rfl]

/-- The pointers are those of an array or an object that is not empty, and it ends with the
text `after`. -/
structure Brackets (jp : JsonParse) (after : Bytes) : Prop where
  notEmpty : jp.start.length ≠ jp.end'.length + 1
  end_eq : jp.end' = after
  closes : ∃ c rest, after = c :: rest ∧ isClosing c = true

variable {after : Bytes}

theorem Brackets.next_some (h : Brackets jp after) (p : Bytes) :
  zbxJsonNext jp (some p) = nextLoop after.length 0 false p
  := by
  rw [zbxJsonNext, if_neg h.notEmpty, h.end_eq]

/-- From the last value on there is nothing. -/
theorem Brackets.next_last (h : Brackets jp after) {v : Tree .value} (hv : v.Valid validated)
    {ws : Bytes} (hws : IsWs ws) :
  zbxJsonNext jp (some (v.text ++ (ws ++ after))) = none
  := by
  have hscan := scansLevels_nextLoop after.length
  obtain ⟨c, rest, hafter, hc⟩ := h.closes
  rw [h.next_some, hscan.pass hv (Nat.zero_le 0) (.inl rfl) (hscan.room (le_refl _)),
    hscan.pass_ws hws (le_refl _)]
  conv_lhs => rw [hafter]
  exact nextLoop_closing _ hc rest

/-- From a value on the loop goes to what follows the comma. -/
theorem Brackets.next_more (h : Brackets jp after) {v : Tree .value} (hv : v.Valid validated)
    {ws : Bytes} (hws : IsWs ws) (more : Bytes) :
  zbxJsonNext jp (some (v.text ++ (ws ++ comma :: (more ++ after)))) =
    some (skipWhitespace (more ++ after))
  := by
  have hscan := scansLevels_nextLoop after.length
  have hmore : after.length ≤ (more ++ after).length := hscan.room (le_refl _)
  have hcomma : after.length ≤ (comma :: (more ++ after)).length := hscan.room_cons hmore
  rw [h.next_some, hscan.pass hv (Nat.zero_le 0) (.inl rfl) (hscan.room hcomma),
    hscan.pass_ws hws hcomma, nextLoop_comma hmore]

/-- The loop passes a name and its colon. -/
theorem Brackets.next_name (h : Brackets jp after) {name : List StringUnit}
    (hname : ∀ u ∈ name, u.Valid validated) {ws1 ws2 : Bytes} (hws1 : IsWs ws1)
    (hws2 : IsWs ws2) (more : Bytes) :
  zbxJsonNext jp (some (stringText name ++ (ws1 ++ colon :: (ws2 ++ (more ++ after))))) =
    zbxJsonNext jp (some (more ++ after))
  := by
  have hscan := scansLevels_nextLoop after.length
  have hmore : after.length ≤ (more ++ after).length := hscan.room (le_refl _)
  have hvalue : after.length ≤ (ws2 ++ (more ++ after)).length := hscan.room hmore
  have hcolon : after.length ≤ (colon :: (ws2 ++ (more ++ after))).length :=
    hscan.room_cons hvalue
  rw [h.next_some, h.next_some, hscan.pass_string hname (hscan.room hcolon),
    hscan.pass_ws hws1 hcolon, hscan.neutral (by decide) hvalue, hscan.pass_ws hws2 hmore]

theorem skipWhitespace_value {ws : Bytes} (hws : IsWs ws) {v : Tree .value}
    (hv : v.Valid validated) (rest : Bytes) :
  skipWhitespace (ws ++ (v.text ++ rest)) = v.text ++ rest
  := by
  obtain ⟨c, tail, htext, hc⟩ := text_head v hv
  rw [skipWhitespace_append hws, htext, List.cons_append]
  exact skipWhitespace_cons (startsValue_iff hc).1 _

/-! ### Elements -/

/-- From a pointer that leads to the first element or name, exactly the elements or names
are enumerated. -/
theorem Brackets.enumerates_items (h : Brackets jp after) (hkind : kind ≠ .value)
    (ht : t.Valid validated) {p : Option Bytes}
    (hp : zbxJsonNext jp p = some (skipWhitespace (t.text ++ after))) :
  Enumerates (zbxJsonNext jp) id p (t.items after)
  := by
  induction t generalizing p with
  | string => exact absurd rfl hkind
  | number => exact absurd rfl hkind
  | literal => exact absurd rfl hkind
  | emptyArray => exact absurd rfl hkind
  | array => exact absurd rfl hkind
  | emptyObject => exact absurd rfl hkind
  | object => exact absurd rfl hkind
  | element before v ws ih =>
    obtain ⟨hbefore, hv, hws⟩ := ht
    rw [Tree.text, List.append_assoc, List.append_assoc, skipWhitespace_value hbefore hv] at hp
    exact ⟨hp, h.next_last hv hws⟩
  | moreElements before v ws es ihv ihes =>
    obtain ⟨hbefore, hv, hws, hes⟩ := ht
    have htext : (Tree.moreElements before v ws es).text ++ after =
        before ++ (v.text ++ (ws ++ comma :: (es.text ++ after))) := by
      simp [Tree.text]
    rw [htext, skipWhitespace_value hbefore hv] at hp
    exact ⟨hp, ihes hkind hes (h.next_more hv hws es.text)⟩
  | member before name ws1 ws2 v ws ih =>
    obtain ⟨hbefore, hname, hws1, hws2, hv, hws⟩ := ht
    have htext : (Tree.member before name ws1 ws2 v ws).text ++ after =
        before ++ (stringText name ++ (ws1 ++ colon :: (ws2 ++ (v.text ++ (ws ++ after))))) := by
      simp [Tree.text]
    rw [htext, skipWhitespace_append hbefore, skipWhitespace_string] at hp
    have hnext := h.next_name hname hws1 hws2 (v.text ++ ws)
    rw [List.append_assoc] at hnext
    exact ⟨hp, hnext.trans (h.next_last hv hws)⟩
  | moreMembers before name ws1 ws2 v ws ms ihv ihms =>
    obtain ⟨hbefore, hname, hws1, hws2, hv, hws, hms⟩ := ht
    have htext : (Tree.moreMembers before name ws1 ws2 v ws ms).text ++ after =
        before ++ (stringText name ++
          (ws1 ++ colon :: (ws2 ++ (v.text ++ (ws ++ comma :: (ms.text ++ after)))))) := by
      simp [Tree.text]
    rw [htext, skipWhitespace_append hbefore, skipWhitespace_string] at hp
    have hnext := h.next_name hname hws1 hws2 (v.text ++ (ws ++ comma :: ms.text))
    simp only [List.append_assoc, List.cons_append] at hnext
    exact ⟨hp, ihms hkind hms (hnext.trans (h.next_more hv hws ms.text))⟩

/-- The number of rounds is large enough to count what is enumerated. -/
theorem countLoop_eq {p : Option Bytes} {ps : List Bytes} {rounds : ℕ}
    (h : Enumerates (zbxJsonNext jp) id p ps) (hrounds : ps.length < rounds) :
  countLoop jp rounds p = ps.length
  := by
  induction rounds generalizing p ps with
  | zero => exact absurd hrounds (Nat.not_lt_zero _)
  | succ rounds ih =>
    cases ps with
    | nil =>
      have hnone : zbxJsonNext jp p = none := h
      rw [countLoop, hnone]
      rfl
    | cons q ps =>
      obtain ⟨hnext, hrest⟩ := h
      rw [countLoop, hnext]
      exact congrArg (· + 1) (ih hrest (Nat.lt_of_succ_lt_succ hrounds))

theorem length_items_le (ht : t.Valid validated) (after : Bytes) :
  (t.items after).length ≤ t.text.length
  := by
  induction t generalizing after with
  | string => exact Nat.zero_le _
  | number => exact Nat.zero_le _
  | literal => exact Nat.zero_le _
  | emptyArray => exact Nat.zero_le _
  | emptyObject => exact Nat.zero_le _
  | array es ih =>
    have hes := ih ht (rightBracket :: after)
    simp only [Tree.items, Tree.text, List.length_cons, List.length_append]
    omega
  | object ms ih =>
    have hms := ih ht (rightBrace :: after)
    simp only [Tree.items, Tree.text, List.length_cons, List.length_append]
    omega
  | element before v ws ih =>
    have hv := List.length_pos_of_ne_nil (text_ne_nil ht.2.1)
    simp only [Tree.items, Tree.text, List.length_cons, List.length_append, List.length_nil]
    omega
  | moreElements before v ws es ihv ihes =>
    have hes := ihes ht.2.2.2 after
    simp only [Tree.items, Tree.text, List.length_cons, List.length_append]
    omega
  | member before name ws1 ws2 v ws ih =>
    simp only [Tree.items, Tree.text, List.length_cons, List.length_append, List.length_nil]
    omega
  | moreMembers before name ws1 ws2 v ws ms ihv ihms =>
    have hms := ihms ht.2.2.2.2.2.2 after
    simp only [Tree.items, Tree.text, List.length_cons, List.length_append]
    omega

/-! ### Pairs -/

/-- Skipping whitespace does not lead past a quote. -/
theorem skipWhitespace_quote (text rest : Bytes) :
  ∃ text', skipWhitespace (text ++ quote :: rest) = text' ++ quote :: rest
  := by
  induction text with
  | nil => exact ⟨[], skipWhitespace_cons (by decide) rest⟩
  | cons c text ih =>
    by_cases hc : isWhitespace c = true
    · obtain ⟨text', htext'⟩ := ih
      refine ⟨text', ?_⟩
      rw [List.cons_append, skipWhitespace, List.dropWhile_cons_of_pos hc]
      exact htext'
    · exact ⟨c :: text, skipWhitespace_cons (by simpa using hc) _⟩

theorem jsonType_string (units : List StringUnit) (rest : Bytes) :
  jsonType (stringText units ++ rest) = .string
  := by
  rw [stringText_append, jsonType, if_pos rfl]

variable {name : List StringUnit} {ws1 ws2 : Bytes} {v : Tree .value} {len : ℕ}

/-- A pair is read exactly when its name fits. -/
theorem pairNext_iff (len : ℕ) {p : Option Bytes} {rest : Bytes}
    (hname : ∀ u ∈ name, u.Valid validated) (hws1 : IsWs ws1) (hws2 : IsWs ws2)
    (hv : v.Valid validated)
    (hp : zbxJsonNext jp p =
      some (stringText name ++ (ws1 ++ colon :: (ws2 ++ (v.text ++ rest))))) :
  zbxJsonPairNext jp p len = some (readPair len (name, v.text ++ rest)) ↔ Fits (len - 1) name
  := by
  constructor
  · intro hpair
    by_contra hfits
    obtain ⟨out, inside, hdecode⟩ := decodeString_inside hname hfits
      (ws1 ++ colon :: (ws2 ++ (v.text ++ rest)))
    -- the pointer stays before the closing quote of the name
    obtain ⟨inside1, hskip1⟩ := skipWhitespace_quote inside
      (ws1 ++ colon :: (ws2 ++ (v.text ++ rest)))
    simp only [zbxJsonPairNext, hp, Option.bind_eq_bind, Option.bind_some, jsonType_string,
      if_pos, hdecode, hskip1] at hpair
    cases inside1 with
    | nil => simp +decide at hpair
    | cons c inside1 =>
      by_cases hc : c = colon
      · obtain ⟨inside2, hskip2⟩ := skipWhitespace_quote inside1
          (ws1 ++ colon :: (ws2 ++ (v.text ++ rest)))
        simp only [List.cons_append, List.head?_cons, hc, if_pos, List.tail_cons, hskip2] at hpair
        have hpointer := congrArg List.length (congrArg Prod.snd (Option.some.inj hpair))
        simp only [readPair, List.length_append, List.length_cons] at hpointer
        omega
      · simp [hc] at hpair
  · intro hfits
    have hdecode := decodeString_eq hname hfits (ws1 ++ colon :: (ws2 ++ (v.text ++ rest)))
    simp only [zbxJsonPairNext, hp, Option.bind_eq_bind, Option.bind_some, jsonType_string,
      if_pos, hdecode]
    rw [skipWhitespace_append hws1, skipWhitespace_cons (by decide), List.head?_cons, if_pos rfl,
      List.tail_cons, skipWhitespace_value hws2 hv]
    rfl

theorem pairNext_none {p : Option Bytes} (h : zbxJsonNext jp p = none) :
  zbxJsonPairNext jp p len = none
  := by
  rw [zbxJsonPairNext, h]
  rfl

/-- From a pointer that leads to the first name, the pairs are enumerated exactly when all
names fit. -/
theorem Brackets.enumerates_pairs_iff (h : Brackets jp after) (len : ℕ) {ms : Tree .members}
    (ht : ms.Valid validated) {p : Option Bytes}
    (hp : zbxJsonNext jp p = some (skipWhitespace (ms.text ++ after))) :
  Enumerates (fun p => zbxJsonPairNext jp p len) Prod.snd p
      ((ms.pairs after).map (readPair len)) ↔
    ∀ name ∈ ms.names, Fits (len - 1) name
  := by
  generalize hkind : Kind.members = kind at ms
  induction ms generalizing p with
  | string => cases hkind
  | number => cases hkind
  | literal => cases hkind
  | emptyArray => cases hkind
  | array => cases hkind
  | emptyObject => cases hkind
  | object => cases hkind
  | element => cases hkind
  | moreElements => cases hkind
  | member before name ws1 ws2 v ws ih =>
    obtain ⟨hbefore, hname, hws1, hws2, hv, hws⟩ := ht
    have htext : (Tree.member before name ws1 ws2 v ws).text ++ after =
        before ++ (stringText name ++ (ws1 ++ colon :: (ws2 ++ (v.text ++ (ws ++ after))))) := by
      simp [Tree.text]
    rw [htext, skipWhitespace_append hbefore, skipWhitespace_string] at hp
    have hpair := pairNext_iff len hname hws1 hws2 hv hp
    have hlast : zbxJsonPairNext jp (some (v.text ++ (ws ++ after))) len = none :=
      pairNext_none (h.next_last hv hws)
    constructor
    · rintro ⟨hfirst, -⟩ name' hname'
      rw [List.mem_singleton.mp hname']
      exact hpair.mp hfirst
    · intro hfits
      exact ⟨hpair.mpr (hfits name List.mem_cons_self), hlast⟩
  | moreMembers before name ws1 ws2 v ws ms ihv ihms =>
    obtain ⟨hbefore, hname, hws1, hws2, hv, hws, hms⟩ := ht
    have htext : (Tree.moreMembers before name ws1 ws2 v ws ms).text ++ after =
        before ++ (stringText name ++
          (ws1 ++ colon :: (ws2 ++ (v.text ++ (ws ++ comma :: (ms.text ++ after)))))) := by
      simp [Tree.text]
    rw [htext, skipWhitespace_append hbefore, skipWhitespace_string] at hp
    have hpair := pairNext_iff len hname hws1 hws2 hv hp
    have hmore := ihms rfl hms (h.next_more hv hws ms.text)
    constructor
    · rintro ⟨hfirst, hrest⟩ name' hname'
      obtain rfl | hname' := List.mem_cons.mp hname'
      · exact hpair.mp hfirst
      · exact hmore.mp hrest name' hname'
    · intro hfits
      exact ⟨hpair.mpr (hfits name List.mem_cons_self),
        hmore.mpr fun name' hname' => hfits name' (List.mem_cons_of_mem _ hname')⟩

/-! ### Arrays and objects -/

variable {container : Tree .value}

theorem closes_rightBracket (rest : Bytes) :
  ∃ c rest', rightBracket :: rest = c :: rest' ∧ isClosing c = true
  := ⟨rightBracket, rest, rfl, by decide⟩

theorem closes_rightBrace (rest : Bytes) :
  ∃ c rest', rightBrace :: rest = c :: rest' ∧ isClosing c = true
  := ⟨rightBrace, rest, rfl, by decide⟩

theorem brackets_array {es : Tree .elements} (h : es.Valid validated) (after : Bytes) :
  Brackets ((Tree.array es).bracketed after) (rightBracket :: after)
  where
  notEmpty := by
    have hpos := List.length_pos_of_ne_nil (text_ne_nil h)
    simp only [Tree.bracketed, Tree.text, Tree.closing, List.length_cons, List.length_append,
      List.length_nil]
    omega
  end_eq := rfl
  closes := closes_rightBracket after

theorem brackets_object {ms : Tree .members} (h : ms.Valid validated) (after : Bytes) :
  Brackets ((Tree.object ms).bracketed after) (rightBrace :: after)
  where
  notEmpty := by
    have hpos := List.length_pos_of_ne_nil (text_ne_nil h)
    simp only [Tree.bracketed, Tree.text, Tree.closing, List.length_cons, List.length_append,
      List.length_nil]
    omega
  end_eq := rfl
  closes := closes_rightBrace after

theorem Brackets.next_first (h : Brackets jp after) :
  zbxJsonNext jp none = some (skipWhitespace jp.start.tail)
  := by
  rw [zbxJsonNext, if_neg h.notEmpty]

theorem next_array {es : Tree .elements} (h : es.Valid validated) (after : Bytes) :
  zbxJsonNext ((Tree.array es).bracketed after) none =
    some (skipWhitespace (es.text ++ rightBracket :: after))
  := by
  rw [(brackets_array h after).next_first]
  simp [Tree.bracketed, Tree.text]

theorem next_object {ms : Tree .members} (h : ms.Valid validated) (after : Bytes) :
  zbxJsonNext ((Tree.object ms).bracketed after) none =
    some (skipWhitespace (ms.text ++ rightBrace :: after))
  := by
  rw [(brackets_object h after).next_first]
  simp [Tree.bracketed, Tree.text]

/-- In an empty array or object without whitespace there is nothing to enumerate. -/
theorem next_empty {c : UInt8} {jp : JsonParse} (h : jp.start = c :: jp.end') (p : Option Bytes) :
  zbxJsonNext jp p = none
  := by
  rw [zbxJsonNext.eq_def, if_pos]
  rw [h, List.length_cons]

/-- In an array or object with nothing but whitespace the closing bracket is taken for an
element. -/
theorem next_blank {jp : JsonParse} {c : UInt8} {ws : Bytes} (h : jp.start = c :: (ws ++ jp.end'))
    (hws : ws ≠ []) :
  zbxJsonNext jp none ≠ none
  := by
  have hpos := List.length_pos_of_ne_nil hws
  have hne : jp.start.length ≠ jp.end'.length + 1 := by
    rw [h, List.length_cons, List.length_append]
    omega
  rw [zbxJsonNext, if_neg hne]
  exact Option.some_ne_none _

/-- The elements are enumerated exactly when the array or object is not blank. -/
theorem enumerates_items_iff (hcontainer : container.IsContainer)
    (hvalid : container.Valid validated) (after : Bytes) :
  Enumerates (zbxJsonNext (container.bracketed after)) id none (container.items after) ↔
    ¬ container.IsBlank
  := by
  cases container with
  | string units => cases hcontainer
  | number raw => cases hcontainer
  | literal raw => cases hcontainer
  | emptyArray ws =>
    constructor
    · intro hnone hblank
      exact next_blank (c := leftBracket) (by simp [Tree.bracketed, Tree.text, Tree.closing])
        hblank hnone
    · intro hblank
      have hnil : ws = [] := not_not.mp hblank
      subst hnil
      exact next_empty (c := leftBracket) rfl none
  | array es =>
    refine iff_of_true ?_ (fun h => h)
    exact (brackets_array hvalid after).enumerates_items (t := es) (by simp) hvalid
      (next_array hvalid after)
  | emptyObject ws =>
    constructor
    · intro hnone hblank
      exact next_blank (c := leftBrace) (by simp [Tree.bracketed, Tree.text, Tree.closing])
        hblank hnone
    · intro hblank
      have hnil : ws = [] := not_not.mp hblank
      subst hnil
      exact next_empty (c := leftBrace) rfl none
  | object ms =>
    refine iff_of_true ?_ (fun h => h)
    exact (brackets_object hvalid after).enumerates_items (t := ms) (by simp) hvalid
      (next_object hvalid after)

theorem pairNext_empty (ws after : Bytes) (hws : IsWs ws) :
  zbxJsonPairNext ((Tree.emptyObject ws).bracketed after) none len = none
  := by
  by_cases hnil : ws = []
  · subst hnil
    exact pairNext_none (next_empty (c := leftBrace) rfl none)
  · have hne : ((Tree.emptyObject ws).bracketed after).start.length ≠
        ((Tree.emptyObject ws).bracketed after).end'.length + 1 := by
      have hpos := List.length_pos_of_ne_nil hnil
      simp only [Tree.bracketed, Tree.text, Tree.closing, List.length_cons, List.length_append,
        List.length_nil]
      omega
    have hnext : zbxJsonNext ((Tree.emptyObject ws).bracketed after) none =
        some (rightBrace :: after) := by
      rw [zbxJsonNext, if_neg hne]
      simp only [Tree.bracketed, Tree.text, List.cons_append, List.tail_cons, List.append_assoc]
      rw [skipWhitespace_append hws]
      rfl
    rw [zbxJsonPairNext, hnext]
    rfl

/-- The pairs of an object are enumerated exactly when all names fit. -/
theorem enumerates_pairs_iff (len : ℕ) (hobject : container.IsObject)
    (hvalid : container.Valid validated) (after : Bytes) :
  Enumerates (fun p => zbxJsonPairNext (container.bracketed after) p len) Prod.snd none
      ((container.pairs after).map (readPair len)) ↔
    ∀ name ∈ container.names, Fits (len - 1) name
  := by
  cases container with
  | string units => cases hobject
  | number raw => cases hobject
  | literal raw => cases hobject
  | emptyArray ws => cases hobject
  | array es => cases hobject
  | emptyObject ws =>
    refine iff_of_true (pairNext_empty ws after hvalid) ?_
    intro name hname
    cases hname
  | object ms =>
    exact (brackets_object hvalid after).enumerates_pairs_iff len hvalid (next_object hvalid after)

theorem names_eq_nil (h : ¬ container.IsObject) :
  container.names = []
  := by
  cases container with
  | emptyObject ws => exact absurd trivial h
  | object ms => exact absurd trivial h
  | string units => rfl
  | number raw => rfl
  | literal raw => rfl
  | emptyArray ws => rfl
  | array es => rfl

/-- An array or object is traversed exactly when it is not blank and its names fit. -/
theorem traversed_iff (len : ℕ) (hcontainer : container.IsContainer)
    (hvalid : container.Valid validated) (after : Bytes) :
  Traversed len container after ↔
    ¬ container.IsBlank ∧ ∀ name ∈ container.names, Fits (len - 1) name
  := by
  constructor
  · intro h
    refine ⟨(enumerates_items_iff hcontainer hvalid after).mp h.items, ?_⟩
    by_cases hobject : container.IsObject
    · exact (enumerates_pairs_iff len hobject hvalid after).mp (h.pairs hobject)
    · intro name hname
      rw [names_eq_nil hobject] at hname
      cases hname
  · rintro ⟨hblank, hfits⟩
    have hitems := (enumerates_items_iff hcontainer hvalid after).mpr hblank
    refine ⟨bracketsOpen_container hcontainer hvalid after, hitems, ?_, ?_⟩
    · apply countLoop_eq hitems
      have hlen := length_items_le hvalid after
      simp only [Tree.bracketed, List.length_append]
      omega
    · intro hobject
      exact (enumerates_pairs_iff len hobject hvalid after).mpr hfits

/-! ### Accepted texts -/

theorem object_isContainer (h : container.IsObject) :
  container.IsContainer ∧ ∃ inner, ∀ after,
    container.text ++ after = leftBrace :: (inner ++ container.closing :: after)
  := by
  cases container with
  | emptyObject ws => exact ⟨trivial, ws, fun after => by simp [Tree.text, Tree.closing]⟩
  | object ms => exact ⟨trivial, ms.text, fun after => by simp [Tree.text, Tree.closing]⟩
  | string units => cases h
  | number raw => cases h
  | literal raw => cases h
  | emptyArray ws => cases h
  | array es => cases h

/-- An accepted text is opened at the brackets of its object. -/
theorem open_eq {text before : Bytes} {object : Tree .value} {after : Bytes}
    (h : ObjectText validated text before object after) :
  zbxJsonOpen text = some (object.bracketed after)
  := by
  obtain ⟨-, inner, hinner⟩ := object_isContainer h.isObject
  have hstart : skipWhitespace text = object.text ++ after := by
    rw [h.text_eq, skipWhitespace_append h.before_ws, hinner]
    exact skipWhitespace_cons (by decide) _
  have hne : object.text ++ after ≠ [] := by
    rw [hinner]
    exact List.cons_ne_nil _ _
  have hstripped : ObjectText validated (object.text ++ after) [] object after :=
    ⟨isWs_nil, h.after_ws, h.isObject, h.valid, rfl⟩
  have hlen : object.text.length = inner.length + 2 := by
    have hnil := congrArg List.length (hinner [])
    simp only [List.append_nil, List.length_cons, List.length_append] at hnil
    omega
  have hend : (object.text ++ after).drop (object.text.length - 1) = object.closing :: after := by
    have hsplit : object.text ++ after = (leftBrace :: inner) ++ object.closing :: after :=
      hinner after
    rw [hsplit]
    apply List.drop_left'
    rw [hlen, List.length_cons]
    rfl
  simp only [zbxJsonOpen, hstart, if_neg hne, validate_eq_ok hstripped, List.length_nil,
    Nat.zero_add, hend]
  rfl

/-- A text that is opened is an object with whitespace around it. -/
theorem objectText_of_open {text : Bytes} (h : zbxJsonOpen text = some jp) :
  ∃ before object after, ObjectText validated text before object after ∧
    jp = object.bracketed after
  := by
  have hparse : ∃ before object after, ObjectText validated text before object after := by
    obtain ⟨ws, hws, hsplit⟩ := exists_ws text
    cases hvalidate : zbxJsonValidate (skipWhitespace text) with
    | error e =>
      simp only [zbxJsonOpen, hvalidate] at h
      split at h <;> cases h
    | ok n =>
      obtain ⟨before, object, after, hobject, -⟩ := objectText_of_validate hvalidate
      refine ⟨ws ++ before, object, after, hws.append hobject.before_ws, hobject.after_ws,
        hobject.isObject, hobject.valid, ?_⟩
      conv_lhs => rw [hsplit, hobject.text_eq]
      rw [List.append_assoc]
  obtain ⟨before, object, after, hobject⟩ := hparse
  refine ⟨before, object, after, hobject, ?_⟩
  rw [open_eq hobject] at h
  exact (Option.some.inj h).symm

/-- In a text that is opened, the readers find the brackets of every array and object and
enumerate exactly what is in it, with buffers of `len` bytes for the names. -/
def TraversalExact (text : Bytes) (len : ℕ) : Prop :=
  ∀ jp, zbxJsonOpen text = some jp →
    (∃ before object after, ObjectText validated text before object after) ∧
      ∀ before object after, ObjectText validated text before object after →
        jp = object.bracketed after ∧
          ∀ container rest, Occurs container rest object after → container.IsContainer →
            Traversed len container rest

/-- No array or object of the text is empty with whitespace between its brackets, and no
name has an escaped quote behind its first `room` characters. -/
def Traversable (text : Bytes) (room : ℕ) : Prop :=
  ∀ before object after, ObjectText validated text before object after →
    ∀ container rest, Occurs container rest object after → container.IsContainer →
      ¬ container.IsBlank ∧ ∀ name ∈ container.names, Fits room name

/-- With buffers of `room + 1` bytes for the names the traversal of a text is exact exactly
when the text is traversable. -/
theorem traversalExact_iff (text : Bytes) (room : ℕ) :
  TraversalExact text (room + 1) ↔ Traversable text room
  := by
  constructor
  · intro h before object after htext container rest hocc hcontainer
    obtain ⟨-, hexact⟩ := h _ (open_eq htext)
    exact (traversed_iff _ hcontainer (hocc.valid htext.valid) rest).mp
      ((hexact before object after htext).2 container rest hocc hcontainer)
  · intro h jp hopen
    obtain ⟨before, object, after, htext, -⟩ := objectText_of_open hopen
    refine ⟨⟨before, object, after, htext⟩, ?_⟩
    intro before object after htext
    refine ⟨?_, fun container rest hocc hcontainer => ?_⟩
    · rw [open_eq htext] at hopen
      exact (Option.some.inj hopen).symm
    · exact (traversed_iff _ hcontainer (hocc.valid htext.valid) rest).mpr
        (h before object after htext container rest hocc hcontainer)

/-- `{ }`. -/
def blankText : Bytes := bytes ['\x7b', ' ', '\x7d']

/-- The closing bracket of the empty object is counted as an element. -/
theorem blankText_count :
  (zbxJsonOpen blankText).map zbxJsonCount = some 1 ∧ ¬ TraversalExact blankText maxStringLen
  := by
  refine ⟨by decide, ?_⟩
  intro h
  have hobject : ObjectText validated blankText [] (.emptyObject [space]) [] :=
    ⟨isWs_nil, isWs_nil, trivial, by change IsWs _; decide +kernel, rfl⟩
  obtain ⟨-, hexact⟩ := h _ (open_eq hobject)
  have hcontainer : (Tree.emptyObject [space]).IsContainer := trivial
  have htraversed := (hexact _ _ _ hobject).2 _ _ .self hcontainer
  exact ((traversed_iff _ hcontainer hobject.valid []).mp htraversed).1 (List.cons_ne_nil _ _)

end Json
