import Zabbix.Json.Occurrence
import Zabbix.Json.Reader

/-!
# Scanning by levels

The loops that look for a bracket or for a comma keep a level and know whether they are
inside a string. Such a loop passes every value of the grammar and comes out of it with the
level it had before.
-/

open Ascii

namespace Json

/-- A byte that means nothing to the loops outside strings. -/
def isNeutral (c : UInt8) : Bool :=
  c ≠ quote && c ≠ backslash && c ≠ comma && !isOpening c && !isClosing c

/-- A loop over a level and a string state that, from the level `low` on and as long as it
has room, counts brackets outside of strings. -/
structure ScansLevels (scan : ℕ → Bool → Bytes → Option Bytes) (low : ℕ)
    (Room : Bytes → Prop) : Prop where
  room : ∀ {text rest}, Room rest → Room (text ++ rest)
  quotes : ∀ {level inString rest}, Room rest →
    scan level inString (quote :: rest) = scan level (!inString) rest
  escape : ∀ {level c rest}, Room rest →
    scan level true (backslash :: c :: rest) = scan level true rest
  inside : ∀ {level c rest}, c ≠ quote → c ≠ backslash → Room rest →
    scan level true (c :: rest) = scan level true rest
  opening : ∀ {level c rest}, low ≤ level → isOpening c = true → Room rest →
    scan level false (c :: rest) = scan (level + 1) false rest
  closing : ∀ {level c rest}, low ≤ level → isClosing c = true → Room rest →
    scan (level + 1) false (c :: rest) = scan level false rest
  commas : ∀ {level rest}, low ≤ level → 0 < level → Room rest →
    scan level false (comma :: rest) = scan level false rest
  neutral : ∀ {level c rest}, isNeutral c = true → Room rest →
    scan level false (c :: rest) = scan level false rest

/-! ### The two loops -/

theorem isOpening_iff {c : UInt8} :
  isOpening c = true ↔ c = leftBracket ∨ c = leftBrace
  := by
  simp [isOpening]

theorem isClosing_iff {c : UInt8} :
  isClosing c = true ↔ c = rightBracket ∨ c = rightBrace
  := by
  simp [isClosing]

theorem isNeutral_iff {c : UInt8} :
  isNeutral c = true ↔ c ≠ quote ∧ c ≠ backslash ∧ c ≠ comma ∧ isOpening c = false ∧
    isClosing c = false
  := by
  simp [isNeutral, and_assoc]

theorem rbracketLoop_cons (rbracket : UInt8) (level : ℕ) (inString : Bool) (c : UInt8)
    (rest : Bytes) :
  rbracketLoop rbracket level inString (c :: rest) =
    if c = quote then rbracketLoop rbracket level (!inString) rest
    else if c = backslash then
      if inString then
        match rest with
        | [] => none
        | _ :: rest' => rbracketLoop rbracket level inString rest'
      else rbracketLoop rbracket level inString rest
    else if inString then rbracketLoop rbracket level inString rest
    else if isOpening c then rbracketLoop rbracket (level + 1) inString rest
    else if isClosing c then
      if level - 1 = 0 then if c = rbracket then some (c :: rest) else none
      else rbracketLoop rbracket (level - 1) inString rest
    else rbracketLoop rbracket level inString rest
  := rbracketLoop.eq_def _ _ _ _

theorem nextLoop_cons (stop level : ℕ) (inString : Bool) (c : UInt8) (rest : Bytes) :
  nextLoop stop level inString (c :: rest) =
    if (c :: rest).length < stop then none
    else if c = quote then nextLoop stop level (!inString) rest
    else if c = backslash then
      if inString then
        match rest with
        | [] => none
        | _ :: rest' => nextLoop stop level inString rest'
      else nextLoop stop level inString rest
    else if inString then nextLoop stop level inString rest
    else if isOpening c then nextLoop stop (level + 1) inString rest
    else if isClosing c then
      if level = 0 then none else nextLoop stop (level - 1) inString rest
    else if c = comma ∧ level = 0 then some (skipWhitespace rest)
    else nextLoop stop level inString rest
  := nextLoop.eq_def _ _ _ _

/-- Below level one the loop for the right bracket may stop. -/
theorem scansLevels_rbracketLoop (rbracket : UInt8) :
  ScansLevels (rbracketLoop rbracket) 1 (fun _ => True)
  where
  room := fun _ => trivial
  quotes := by
    intro level inString rest _
    rw [rbracketLoop_cons, if_pos rfl]
  escape := by
    intro level c rest _
    rw [rbracketLoop_cons, if_neg (by decide), if_pos rfl, if_pos rfl]
  inside := by
    intro level c rest hquote hback _
    rw [rbracketLoop_cons, if_neg hquote, if_neg hback, if_pos rfl]
  opening := by
    intro level c rest _ hc _
    have hquote : c ≠ quote := by
      rintro rfl
      exact absurd hc (by decide)
    have hback : c ≠ backslash := by
      rintro rfl
      exact absurd hc (by decide)
    rw [rbracketLoop_cons, if_neg hquote, if_neg hback, if_neg (by decide), if_pos hc]
  closing := by
    intro level c rest hlevel hc _
    have hquote : c ≠ quote := by
      rintro rfl
      exact absurd hc (by decide)
    have hback : c ≠ backslash := by
      rintro rfl
      exact absurd hc (by decide)
    have hopen : ¬ isOpening c = true := by
      obtain rfl | rfl := isClosing_iff.mp hc <;> decide
    rw [rbracketLoop_cons, if_neg hquote, if_neg hback, if_neg (by decide), if_neg hopen, if_pos hc,
      if_neg (by omega), Nat.add_sub_cancel]
  commas := by
    intro level rest _ _ _
    rw [rbracketLoop_cons, if_neg (by decide), if_neg (by decide), if_neg (by decide),
      if_neg (by decide), if_neg (by decide)]
  neutral := by
    intro level c rest hc _
    obtain ⟨hquote, hback, -, hopen, hclose⟩ := isNeutral_iff.mp hc
    rw [rbracketLoop_cons, if_neg hquote, if_neg hback, if_neg (by decide), if_neg (by simp [hopen]),
      if_neg (by simp [hclose])]

/-- A text that is not behind the closing bracket is not short. -/
theorem not_lt_of_room {stop : ℕ} {c : UInt8} {rest : Bytes} (h : stop ≤ rest.length) :
  ¬ (c :: rest).length < stop
  := by
  simp only [List.length_cons]
  omega

/-- The loop for the next element stops at commas on level zero and behind the closing
bracket only. -/
theorem scansLevels_nextLoop (stop : ℕ) :
  ScansLevels (nextLoop stop) 0 (fun rest => stop ≤ rest.length)
  where
  room := by
    intro text rest h
    rw [List.length_append]
    omega
  quotes := by
    intro level inString rest h
    rw [nextLoop_cons, if_neg (not_lt_of_room h), if_pos rfl]
  escape := by
    intro level c rest h
    have hroom : ¬ (backslash :: c :: rest).length < stop := by
      apply not_lt_of_room
      simp only [List.length_cons]
      omega
    rw [nextLoop_cons, if_neg hroom, if_neg (by decide), if_pos rfl, if_pos rfl]
  inside := by
    intro level c rest hquote hback h
    rw [nextLoop_cons, if_neg (not_lt_of_room h), if_neg hquote, if_neg hback, if_pos rfl]
  opening := by
    intro level c rest _ hc h
    have hquote : c ≠ quote := by
      rintro rfl
      exact absurd hc (by decide)
    have hback : c ≠ backslash := by
      rintro rfl
      exact absurd hc (by decide)
    rw [nextLoop_cons, if_neg (not_lt_of_room h), if_neg hquote, if_neg hback, if_neg (by decide),
      if_pos hc]
  closing := by
    intro level c rest _ hc h
    have hquote : c ≠ quote := by
      rintro rfl
      exact absurd hc (by decide)
    have hback : c ≠ backslash := by
      rintro rfl
      exact absurd hc (by decide)
    have hopen : ¬ isOpening c = true := by
      obtain rfl | rfl := isClosing_iff.mp hc <;> decide
    rw [nextLoop_cons, if_neg (not_lt_of_room h), if_neg hquote, if_neg hback, if_neg (by decide),
      if_neg hopen, if_pos hc, if_neg (Nat.succ_ne_zero level), Nat.add_sub_cancel]
  commas := by
    intro level rest _ hlevel h
    rw [nextLoop_cons, if_neg (not_lt_of_room h), if_neg (by decide), if_neg (by decide),
      if_neg (by decide), if_neg (by decide), if_neg (by decide), if_neg]
    rintro ⟨-, rfl⟩
    exact absurd hlevel (by decide)
  neutral := by
    intro level c rest hc h
    obtain ⟨hquote, hback, hcomma, hopen, hclose⟩ := isNeutral_iff.mp hc
    rw [nextLoop_cons, if_neg (not_lt_of_room h), if_neg hquote, if_neg hback, if_neg (by decide),
      if_neg (by simp [hopen]), if_neg (by simp [hclose]), if_neg (by simp [hcomma])]

/-! ### Passing values -/

/-- The bytes of whitespace, numbers and literals mean nothing to the loops. -/
theorem isNeutral_of_isWhitespace {c : UInt8} (h : isWhitespace c = true) :
  isNeutral c = true
  := by
  simp only [isWhitespace, Bool.or_eq_true, decide_eq_true_eq] at h
  obtain ((rfl | rfl) | rfl) | rfl := h <;> decide

/-- The bytes of a number. -/
def isNumberByte (c : UInt8) : Bool :=
  isDigit c || c = minus || c = plus || c = dot || c = 'e'.toUInt8 || c = 'E'.toUInt8

theorem isNeutral_of_isNumberByte {c : UInt8} (h : isNumberByte c = true) :
  isNeutral c = true
  := by
  simp only [isNumberByte, Bool.or_eq_true, decide_eq_true_eq] at h
  obtain ((((hdigit | rfl) | rfl) | rfl) | rfl) | rfl := h
  · rw [isNeutral_iff]
    have hne : ∀ b : UInt8, isDigit b = false → c ≠ b := by
      rintro b hb rfl
      rw [hb] at hdigit
      cases hdigit
    refine ⟨hne _ (by decide), hne _ (by decide), hne _ (by decide), ?_, ?_⟩
    · simp [isOpening, hne leftBracket (by decide), hne leftBrace (by decide)]
    · simp [isClosing, hne rightBracket (by decide), hne rightBrace (by decide)]
  all_goals decide

theorem isNumberByte_of_number {raw : Bytes} (h : validated.number raw) :
  ∀ c ∈ raw, isNumberByte c = true
  := by
  have hdigit : ∀ {c : UInt8}, isDigit c = true → isNumberByte c = true := by
    intro c hc
    simp [isNumberByte, hc]
  obtain ⟨sign, int, fraction, power, hsign, ⟨hint, -⟩, hfraction, hpower, rfl⟩ := h
  have h1 : ∀ c ∈ sign, isNumberByte c = true := by
    obtain rfl | rfl := hsign <;> exact List.all_eq_true.mp (by decide)
  have h2 : ∀ c ∈ int, isNumberByte c = true := fun c hc => hdigit (hint.2 c hc)
  have h3 : ∀ c ∈ fraction, isNumberByte c = true := by
    obtain rfl | ⟨ds, hds, -, rfl⟩ := hfraction
    · simp
    · rw [List.forall_mem_cons]
      exact ⟨by decide, fun c hc => hdigit (hds c hc)⟩
  have h4 : ∀ c ∈ power, isNumberByte c = true := by
    obtain rfl | ⟨e, psign, ds, he, hpsign, hds, rfl⟩ := hpower
    · simp
    · rw [List.forall_mem_cons, List.forall_mem_append]
      refine ⟨?_, ?_, fun c hc => hdigit (hds.2 c hc)⟩
      · obtain rfl | rfl := he <;> decide
      · obtain rfl | rfl | rfl := hpsign <;> exact List.all_eq_true.mp (by decide)
  simp only [List.forall_mem_append]
  exact ⟨h1, h2, h3, h4⟩

theorem isNeutral_of_literal {raw : Bytes} (h : raw ∈ literals) :
  ∀ c ∈ raw, isNeutral c = true
  := by
  simp only [literals, List.mem_cons, List.not_mem_nil, or_false] at h
  obtain rfl | rfl | rfl := h <;> exact List.all_eq_true.mp (by decide)

theorem ne_of_isHexDigit {c : UInt8} (h : isHexDigit c = true) :
  c ≠ quote ∧ c ≠ backslash
  := by
  constructor
  · rintro rfl
    exact absurd h (by decide)
  · rintro rfl
    exact absurd h (by decide)

namespace ScansLevels

variable {scan : ℕ → Bool → Bytes → Option Bytes} {low level : ℕ} {Room : Bytes → Prop}

theorem room_cons (h : ScansLevels scan low Room) {c : UInt8} {rest : Bytes}
    (hrest : Room rest) :
  Room (c :: rest)
  := by
  rw [← List.singleton_append]
  exact h.room hrest

theorem inside_hex (h : ScansLevels scan low Room) {c : UInt8} (hc : isHexDigit c = true)
    {rest : Bytes} (hrest : Room rest) :
  scan level true (c :: rest) = scan level true rest
  := h.inside (ne_of_isHexDigit hc).1 (ne_of_isHexDigit hc).2 hrest

theorem pass_neutral (h : ScansLevels scan low Room) {text : Bytes}
    (htext : ∀ c ∈ text, isNeutral c = true) {rest : Bytes} (hrest : Room rest) :
  scan level false (text ++ rest) = scan level false rest
  := by
  induction text with
  | nil => rfl
  | cons c text ih =>
    rw [List.cons_append, h.neutral (htext c List.mem_cons_self) (h.room hrest)]
    exact ih fun b hb => htext b (List.mem_cons_of_mem _ hb)

theorem pass_ws (h : ScansLevels scan low Room) {ws : Bytes} (hws : IsWs ws) {rest : Bytes}
    (hrest : Room rest) :
  scan level false (ws ++ rest) = scan level false rest
  := h.pass_neutral (fun c hc => isNeutral_of_isWhitespace (hws c hc)) hrest

theorem pass_unit (h : ScansLevels scan low Room) {u : StringUnit} (hu : u.Valid validated)
    {rest : Bytes} (hrest : Room rest) :
  scan level true (u.text ++ rest) = scan level true rest
  := by
  cases u with
  | plain c => exact h.inside hu.1 hu.2.1 hrest
  | escape c => exact h.escape hrest
  | unicode h1 h2 h3 h4 =>
    obtain ⟨hh1, hh2, hh3, hh4⟩ := hu
    change scan level true (backslash :: 'u'.toUInt8 :: h1 :: h2 :: h3 :: h4 :: rest) = _
    have room4 : Room (h4 :: rest) := h.room_cons hrest
    have room3 : Room (h3 :: h4 :: rest) := h.room_cons room4
    have room2 : Room (h2 :: h3 :: h4 :: rest) := h.room_cons room3
    rw [h.escape (h.room_cons room2), h.inside_hex hh1 room2, h.inside_hex hh2 room3,
      h.inside_hex hh3 room4, h.inside_hex hh4 hrest]

theorem pass_units (h : ScansLevels scan low Room) {units : List StringUnit}
    (hunits : ∀ u ∈ units, u.Valid validated) {rest : Bytes} (hrest : Room rest) :
  scan level true (unitsText units ++ rest) = scan level true rest
  := by
  induction units with
  | nil => rfl
  | cons u units ih =>
    have htext : unitsText (u :: units) = u.text ++ unitsText units := rfl
    rw [htext, List.append_assoc, h.pass_unit (hunits u List.mem_cons_self) (h.room hrest)]
    exact ih fun b hb => hunits b (List.mem_cons_of_mem _ hb)

theorem pass_string (h : ScansLevels scan low Room) {units : List StringUnit}
    (hunits : ∀ u ∈ units, u.Valid validated) {rest : Bytes} (hrest : Room rest) :
  scan level false (stringText units ++ rest) = scan level false rest
  := by
  have htext : stringText units ++ rest = quote :: (unitsText units ++ quote :: rest) := by
    simp [stringText]
  rw [htext, h.quotes (h.room (h.room_cons hrest)), Bool.not_false,
    h.pass_units hunits (h.room_cons hrest), h.quotes hrest, Bool.not_true]

/-- The loop passes a value. It passes elements and members above level zero. -/
theorem pass (h : ScansLevels scan low Room) {kind : Kind} {t : Tree kind}
    (ht : t.Valid validated) (hlow : low ≤ level) (hkind : kind = .value ∨ 0 < level)
    {rest : Bytes} (hrest : Room rest) :
  scan level false (t.text ++ rest) = scan level false rest
  := by
  induction t generalizing level rest with
  | string units => exact h.pass_string ht hrest
  | number raw =>
    exact h.pass_neutral
      (fun c hc => isNeutral_of_isNumberByte (isNumberByte_of_number ht c hc)) hrest
  | literal raw => exact h.pass_neutral (isNeutral_of_literal ht) hrest
  | emptyArray ws =>
    have hclosed : Room (rightBracket :: rest) := h.room_cons hrest
    have htext : (Tree.emptyArray ws).text ++ rest = leftBracket :: (ws ++ rightBracket :: rest) := by
      simp [Tree.text]
    rw [htext, h.opening hlow (by decide) (h.room hclosed), h.pass_ws ht hclosed]
    exact h.closing hlow (by decide) hrest
  | array es ih =>
    have hclosed : Room (rightBracket :: rest) := h.room_cons hrest
    have htext : (Tree.array es).text ++ rest = leftBracket :: (es.text ++ rightBracket :: rest) := by
      simp [Tree.text]
    rw [htext, h.opening hlow (by decide) (h.room hclosed),
      ih ht (Nat.le_succ_of_le hlow) (.inr (Nat.succ_pos level)) hclosed]
    exact h.closing hlow (by decide) hrest
  | emptyObject ws =>
    have hclosed : Room (rightBrace :: rest) := h.room_cons hrest
    have htext : (Tree.emptyObject ws).text ++ rest = leftBrace :: (ws ++ rightBrace :: rest) := by
      simp [Tree.text]
    rw [htext, h.opening hlow (by decide) (h.room hclosed), h.pass_ws ht hclosed]
    exact h.closing hlow (by decide) hrest
  | object ms ih =>
    have hclosed : Room (rightBrace :: rest) := h.room_cons hrest
    have htext : (Tree.object ms).text ++ rest = leftBrace :: (ms.text ++ rightBrace :: rest) := by
      simp [Tree.text]
    rw [htext, h.opening hlow (by decide) (h.room hclosed),
      ih ht (Nat.le_succ_of_le hlow) (.inr (Nat.succ_pos level)) hclosed]
    exact h.closing hlow (by decide) hrest
  | element before v after ih =>
    obtain ⟨hbefore, hv, hafter⟩ := ht
    rw [Tree.text, List.append_assoc, List.append_assoc,
      h.pass_ws hbefore (h.room (h.room hrest)), ih hv hlow (.inl rfl) (h.room hrest),
      h.pass_ws hafter hrest]
  | moreElements before v after es ihv ihes =>
    obtain ⟨hbefore, hv, hafter, hes⟩ := ht
    have hlevel : 0 < level := hkind.resolve_left (by simp)
    have hroom : Room (es.text ++ rest) := h.room hrest
    have hcomma : Room (comma :: (es.text ++ rest)) := h.room_cons hroom
    have htext : (Tree.moreElements before v after es).text ++ rest =
        before ++ (v.text ++ (after ++ comma :: (es.text ++ rest))) := by
      simp [Tree.text]
    rw [htext, h.pass_ws hbefore (h.room (h.room hcomma)), ihv hv hlow (.inl rfl) (h.room hcomma),
      h.pass_ws hafter hcomma, h.commas hlow hlevel hroom]
    exact ihes hes hlow hkind hrest
  | member before name ws1 ws2 v after ih =>
    obtain ⟨hbefore, hname, hws1, hws2, hv, hafter⟩ := ht
    have hvalue : Room (ws2 ++ (v.text ++ (after ++ rest))) :=
      h.room (h.room (h.room hrest))
    have hcolon : Room (colon :: (ws2 ++ (v.text ++ (after ++ rest)))) := h.room_cons hvalue
    have htext : (Tree.member before name ws1 ws2 v after).text ++ rest =
        before ++ (stringText name ++ (ws1 ++ colon :: (ws2 ++ (v.text ++ (after ++ rest))))) := by
      simp [Tree.text]
    rw [htext, h.pass_ws hbefore (h.room (h.room hcolon)), h.pass_string hname (h.room hcolon),
      h.pass_ws hws1 hcolon, h.neutral (by decide) hvalue,
      h.pass_ws hws2 (h.room (h.room hrest)), ih hv hlow (.inl rfl) (h.room hrest),
      h.pass_ws hafter hrest]
  | moreMembers before name ws1 ws2 v after ms ihv ihms =>
    obtain ⟨hbefore, hname, hws1, hws2, hv, hafter, hms⟩ := ht
    have hlevel : 0 < level := hkind.resolve_left (by simp)
    have hroom : Room (ms.text ++ rest) := h.room hrest
    have hcomma : Room (comma :: (ms.text ++ rest)) := h.room_cons hroom
    have hvalue : Room (ws2 ++ (v.text ++ (after ++ comma :: (ms.text ++ rest)))) :=
      h.room (h.room (h.room hcomma))
    have hcolon : Room (colon :: (ws2 ++ (v.text ++ (after ++ comma :: (ms.text ++ rest))))) :=
      h.room_cons hvalue
    have htext : (Tree.moreMembers before name ws1 ws2 v after ms).text ++ rest =
        before ++ (stringText name ++
          (ws1 ++ colon :: (ws2 ++ (v.text ++ (after ++ comma :: (ms.text ++ rest)))))) := by
      simp [Tree.text]
    rw [htext, h.pass_ws hbefore (h.room (h.room hcolon)), h.pass_string hname (h.room hcolon),
      h.pass_ws hws1 hcolon, h.neutral (by decide) hvalue,
      h.pass_ws hws2 (h.room (h.room hcomma)), ihv hv hlow (.inl rfl) (h.room hcomma),
      h.pass_ws hafter hcomma, h.commas hlow hlevel hroom]
    exact ihms hms hlow hkind hrest

end ScansLevels

end Json
