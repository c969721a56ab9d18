import Zabbix.Json.Decoding

/-!
# The validator and the standard

The validator differs from the standard in two places: it refuses the byte 127 in strings,
and it accepts a number whose decimal point is followed by no digit. The readers copy the
integer part of a number only.
-/

open Ascii

namespace Json

/-! ### Numbers that are copied -/

/-- A number without a fraction and without an exponent. -/
def IsInteger (raw : Bytes) : Prop := ∀ c ∈ raw, isDigit c = true ∨ c = minus

instance (raw : Bytes) : Decidable (IsInteger raw) :=
  inferInstanceAs (Decidable (∀ c ∈ raw, isDigit c = true ∨ c = minus))

/-- The decoding functions copy the number that is followed by the text in full, into every
buffer that is large enough for it. -/
def NumberCopied (raw rest : Bytes) : Prop :=
  (∀ len, raw.length < len → decodeValue (raw ++ rest) len = some ⟨raw, false, rest⟩) ∧
    ∀ alloc, ∃ alloc', decodeValueDyn (raw ++ rest) alloc = some (raw, alloc', rest)

theorem jsonType_number {raw : Bytes} (h : validated.number raw) (rest : Bytes) :
  jsonType (raw ++ rest) = .int
  := by
  obtain ⟨c, tail, rfl, hc⟩ := number_head h
  have hquote : c ≠ quote := by
    obtain hdigit | rfl := hc
    · rintro rfl
      exact absurd hdigit (by decide)
    · decide
  have hnumber : (isDigit c || c = minus) = true := by
    obtain hdigit | rfl := hc
    · simp [hdigit]
    · decide
  simp only [List.cons_append, jsonType]
  rw [if_neg hquote, if_pos hnumber]

/-- The loop copies digits and minus signs while there is room. -/
theorem decodeIntLoop_append {raw : Bytes} (h : IsInteger raw) {out : Bytes} {len : ℕ}
    (hlen : out.length + raw.length < len) (rest : Bytes) :
  decodeIntLoop len out (raw ++ rest) = decodeIntLoop len (out ++ raw) rest
  := by
  induction raw generalizing out with
  | nil => simp
  | cons c raw ih =>
    have hc : (!isDigit c && c ≠ minus) = false := by
      obtain hdigit | rfl := h c List.mem_cons_self
      · simp [hdigit]
      · simp
    have hroom : out.length < len - 1 := by
      simp only [List.length_cons] at hlen
      omega
    have hlen' : (out ++ [c]).length + raw.length < len := by
      simp only [List.length_cons, List.length_append, List.length_nil] at hlen ⊢
      omega
    have hrest := ih (fun b hb => h b (List.mem_cons_of_mem _ hb)) hlen'
    rw [List.cons_append, decodeIntLoop, hc]
    simp only [Bool.false_eq_true, if_false]
    rw [if_pos hroom, hrest]
    simp

theorem decodeIntLoop_stop {rest : Bytes} (h : GoesOn rest) (len : ℕ) (out : Bytes) :
  decodeIntLoop len out rest = some (out, rest)
  := by
  obtain ⟨c, tail, rfl⟩ := List.exists_cons_of_ne_nil h.1
  have hstop : (!isDigit c && c ≠ minus) = true := by
    have hends := h.2 c rfl
    simp only [isWhitespace, Bool.or_eq_true, decide_eq_true_eq] at hends
    obtain (((rfl | rfl) | rfl) | rfl) | rfl | rfl | rfl := hends <;> decide
  rw [decodeIntLoop, if_pos hstop]

theorem intSizeLoop_append {raw : Bytes} (h : IsInteger raw) (sz : ℕ) (rest : Bytes) :
  intSizeLoop sz (raw ++ rest) = intSizeLoop (sz + raw.length) rest
  := by
  induction raw generalizing sz with
  | nil => rfl
  | cons c raw ih =>
    have hc : (!isDigit c && c ≠ minus) = false := by
      obtain hdigit | rfl := h c List.mem_cons_self
      · simp [hdigit]
      · simp
    rw [List.cons_append, intSizeLoop, hc]
    simp only [Bool.false_eq_true, if_false, List.length_cons]
    rw [ih fun b hb => h b (List.mem_cons_of_mem _ hb)]
    congr 1
    omega

theorem intSizeLoop_stop {rest : Bytes} (h : GoesOn rest) (sz : ℕ) :
  intSizeLoop sz rest = some sz
  := by
  have hstop := decodeIntLoop_stop h 0 []
  obtain ⟨c, tail, rfl⟩ := List.exists_cons_of_ne_nil h.1
  rw [decodeIntLoop] at hstop
  rw [intSizeLoop]
  split at hstop
  · rename_i hc
    rw [if_pos hc]
  · rename_i hc
    exfalso
    have hends := h.2 c rfl
    simp only [isWhitespace, Bool.or_eq_true, decide_eq_true_eq] at hends
    apply hc
    obtain (((rfl | rfl) | rfl) | rfl) | rfl | rfl | rfl := hends <;> decide

/-- What the loop copies consists of digits and minus signs. -/
theorem decodeIntLoop_isInteger {len : ℕ} {out p string rest : Bytes} (hout : IsInteger out)
    (h : decodeIntLoop len out p = some (string, rest)) :
  IsInteger string
  := by
  induction p generalizing out with
  | nil => cases h
  | cons c p ih =>
    rw [decodeIntLoop] at h
    split at h
    · obtain ⟨rfl, -⟩ := Prod.mk.inj (Option.some.inj h)
      exact hout
    · rename_i hc
      apply ih _ h
      split
      · intro b hb
        obtain hb | hb := List.mem_append.mp hb
        · exact hout b hb
        · rw [List.mem_singleton.mp hb]
          by_contra hnot
          obtain ⟨hdigit, hminus⟩ := not_or.mp hnot
          apply hc
          simp [hdigit, hminus]
      · exact hout

/-- A number is copied exactly when it is an integer. -/
theorem numberCopied_iff {raw rest : Bytes} (h : validated.number raw) (hrest : GoesOn rest) :
  NumberCopied raw rest ↔ IsInteger raw
  := by
  have htype := jsonType_number h rest
  constructor
  · rintro ⟨hfixed, -⟩
    have hcopy := hfixed (raw.length + 1) (by omega)
    simp only [decodeValue, htype] at hcopy
    obtain ⟨⟨string, tail⟩, hdecode, heq⟩ := Option.map_eq_some_iff.mp hcopy
    obtain rfl : string = raw := by
      have hstring := congrArg Decoded.string heq
      exact hstring
    exact decodeIntLoop_isInteger (by intro c hc; cases hc) hdecode
  · intro hint
    have hdecode : ∀ len, raw.length < len → decodeInt (raw ++ rest) len = some (raw, rest) := by
      intro len hlen
      rw [decodeInt, decodeIntLoop_append hint (by simpa using hlen), List.nil_append]
      exact decodeIntLoop_stop hrest len raw
    have hsize : valueSize (raw ++ rest) .int = some raw.length := by
      rw [valueSize, intSizeLoop_append hint, Nat.zero_add]
      exact intSizeLoop_stop hrest raw.length
    constructor
    · intro len hlen
      simp [decodeValue, htype, hdecode len hlen]
    · intro alloc
      refine ⟨if alloc ≤ raw.length then raw.length + 1 else alloc, ?_⟩
      have hlen : raw.length < (if alloc ≤ raw.length then raw.length + 1 else alloc) := by
        split <;> omega
      simp only [decodeValueDyn, htype, hsize]
      rw [hdecode _ hlen]
      rfl

/-! ### The two grammars -/

/-- The byte that the validator takes for a control character and the standard does not. -/
abbrev delete : UInt8 := 0x7f

/-- The bytes of punctuation, of literals and behind a backslash. -/
def syntaxBytes : Bytes :=
  [quote, backslash, slash, comma, colon, leftBracket, rightBracket, leftBrace, rightBrace] ++
    bytes ['b', 'f', 'n', 'r', 't', 'u', 'a', 'l', 's', 'e']

/-- A byte that stands nowhere in a text of the grammar. -/
structure Foreign (g : Grammar) (b : UInt8) : Prop where
  char : ¬ g.char b
  number : isNumberByte b = false
  space : isWhitespace b = false
  hex : isHexDigit b = false
  punctuation : b ∉ syntaxBytes

theorem foreign_delete :
  Foreign validated delete
  where
  char := by
    intro h
    exact absurd (show isControl delete = false from h) (by decide)
  number := by decide
  space := by decide
  hex := by decide
  punctuation := by decide

section

variable {g : Grammar} {b : UInt8}

theorem Foreign.not_mem_ws (hb : Foreign g b) {ws : Bytes} (h : IsWs ws) :
  b ∉ ws
  := by
  intro hmem
  have hspace := h b hmem
  rw [hb.space] at hspace
  cases hspace

theorem Foreign.ne (hb : Foreign g b) {c : UInt8} (hc : c ∈ syntaxBytes) :
  b ≠ c
  := by
  rintro rfl
  exact hb.punctuation hc

theorem Foreign.not_mem_unit (hb : Foreign g b) {u : StringUnit} (h : u.Valid g) :
  b ∉ u.text
  := by
  cases u with
  | plain c =>
    intro hmem
    obtain rfl : b = c := by simpa [StringUnit.text] using hmem
    exact hb.char h.2.2
  | escape c =>
    have hne : b ≠ c := by
      apply hb.ne
      obtain rfl | rfl | rfl | rfl | rfl | rfl | rfl | rfl := isEscape_iff.mp h <;> decide
    simp [StringUnit.text, hb.ne (show backslash ∈ syntaxBytes by decide), hne]
  | unicode h1 h2 h3 h4 =>
    obtain ⟨hh1, hh2, hh3, hh4⟩ := h
    have hhex : ∀ c, isHexDigit c = true → b ≠ c := by
      rintro c hc rfl
      rw [hb.hex] at hc
      cases hc
    simp [StringUnit.text, hb.ne (show backslash ∈ syntaxBytes by decide),
      hb.ne (show 'u'.toUInt8 ∈ syntaxBytes by decide), hhex _ hh1, hhex _ hh2, hhex _ hh3,
      hhex _ hh4]

theorem Foreign.not_mem_string (hb : Foreign g b) {units : List StringUnit}
    (h : ∀ u ∈ units, u.Valid g) :
  b ∉ stringText units
  := by
  have hunits : b ∉ unitsText units := by
    intro hmem
    obtain ⟨u, hu, hin⟩ := List.mem_flatMap.mp hmem
    exact hb.not_mem_unit (h u hu) hin
  simp [stringText, hunits, hb.ne (show quote ∈ syntaxBytes by decide)]

/-- No text of the grammar contains the byte. -/
theorem Foreign.not_mem_text (hb : Foreign g b)
    (hnumber : ∀ raw, g.number raw → validated.number raw) {kind : Kind} {t : Tree kind}
    (h : t.Valid g) :
  b ∉ t.text
  := by
  have hcomma := hb.ne (show comma ∈ syntaxBytes by decide)
  have hcolon := hb.ne (show colon ∈ syntaxBytes by decide)
  induction t with
  | string units => exact hb.not_mem_string h
  | number raw =>
    intro hmem
    have hraw := isNumberByte_of_number (hnumber raw h) b hmem
    rw [hb.number] at hraw
    cases hraw
  | literal raw =>
    have hraw : raw ∈ literals := h
    simp only [literals, List.mem_cons, List.not_mem_nil, or_false] at hraw
    have hletters : ∀ c ∈ raw, c ∈ syntaxBytes := by
      obtain rfl | rfl | rfl := hraw <;> decide +kernel
    intro hmem
    exact hb.punctuation (hletters b hmem)
  | emptyArray ws =>
    simp [Tree.text, hb.not_mem_ws h, hb.ne (show leftBracket ∈ syntaxBytes by decide),
      hb.ne (show rightBracket ∈ syntaxBytes by decide)]
  | array es ih =>
    simp [Tree.text, ih h, hb.ne (show leftBracket ∈ syntaxBytes by decide),
      hb.ne (show rightBracket ∈ syntaxBytes by decide)]
  | emptyObject ws =>
    simp [Tree.text, hb.not_mem_ws h, hb.ne (show leftBrace ∈ syntaxBytes by decide),
      hb.ne (show rightBrace ∈ syntaxBytes by decide)]
  | object ms ih =>
    simp [Tree.text, ih h, hb.ne (show leftBrace ∈ syntaxBytes by decide),
      hb.ne (show rightBrace ∈ syntaxBytes by decide)]
  | element before v after ih =>
    obtain ⟨hbefore, hv, hafter⟩ := h
    simp [Tree.text, hb.not_mem_ws hbefore, ih hv, hb.not_mem_ws hafter]
  | moreElements before v after es ihv ihes =>
    obtain ⟨hbefore, hv, hafter, hes⟩ := h
    simp [Tree.text, hb.not_mem_ws hbefore, ihv hv, hb.not_mem_ws hafter, ihes hes, hcomma]
  | member before name ws1 ws2 v after ih =>
    obtain ⟨hbefore, hname, hws1, hws2, hv, hafter⟩ := h
    simp [Tree.text, hb.not_mem_ws hbefore, hb.not_mem_string hname, hb.not_mem_ws hws1,
      hb.not_mem_ws hws2, ih hv, hb.not_mem_ws hafter, hcolon]
  | moreMembers before name ws1 ws2 v after ms ihv ihms =>
    obtain ⟨hbefore, hname, hws1, hws2, hv, hafter, hms⟩ := h
    simp [Tree.text, hb.not_mem_ws hbefore, hb.not_mem_string hname, hb.not_mem_ws hws1,
      hb.not_mem_ws hws2, ihv hv, hb.not_mem_ws hafter, ihms hms, hcomma, hcolon]

end

/-- No text the validator accepts contains the byte 127. -/
theorem text_no_delete {kind : Kind} {t : Tree kind} (h : t.Valid validated) :
  delete ∉ t.text
  := foreign_delete.not_mem_text (fun _ hraw => hraw) h

theorem isFraction_mono {digits digits' : Bytes → Prop} (h : ∀ ds, digits ds → digits' ds)
    {text : Bytes} (htext : IsFraction digits text) :
  IsFraction digits' text
  := by
  obtain rfl | ⟨ds, hds, hcond, rfl⟩ := htext
  · exact .inl rfl
  · exact .inr ⟨ds, hds, h ds hcond, rfl⟩

/-- A number of the standard is accepted as a number. -/
theorem validated_number_of_standard {raw : Bytes} (h : standard.number raw) :
  validated.number raw
  := by
  obtain ⟨sign, int, fraction, power, hsign, hint, hfraction, hpower, rfl⟩ := h
  exact ⟨sign, int, fraction, power, hsign, hint,
    isFraction_mono (fun _ _ => trivial) hfraction, hpower, rfl⟩

/-- An integer is a number of the standard. -/
theorem standard_number_of_isInteger {raw : Bytes} (h : validated.number raw)
    (hint : IsInteger raw) :
  standard.number raw
  := by
  obtain ⟨sign, int, fraction, power, hsign, hdigits, hfraction, hpower, rfl⟩ := h
  have hpoint : fraction = [] := by
    obtain rfl | ⟨ds, -, -, rfl⟩ := hfraction
    · rfl
    · have hdot := hint dot (by simp)
      exact absurd hdot (by decide)
  subst hpoint
  exact ⟨sign, int, [], power, hsign, hdigits, .inl rfl, hpower, rfl⟩

theorem valid_unit_of_standard {u : StringUnit} (h : u.Valid standard)
    (hdelete : delete ∉ u.text) :
  u.Valid validated
  := by
  cases u with
  | plain c =>
    obtain ⟨hquote, hback, hchar⟩ := h
    refine ⟨hquote, hback, ?_⟩
    have hlow : 0x20 ≤ c := hchar
    have hne : c ≠ 0x7f := by
      rintro rfl
      exact hdelete (by simp [StringUnit.text])
    change isControl c = false
    simp [isControl, hlow, hne]
  | escape c => exact h
  | unicode h1 h2 h3 h4 => exact h

theorem valid_unit_of_validated {u : StringUnit} (h : u.Valid validated) :
  u.Valid standard
  := by
  cases u with
  | plain c =>
    obtain ⟨hquote, hback, hchar⟩ := h
    refine ⟨hquote, hback, ?_⟩
    have hcontrol : isControl c = false := hchar
    simp only [isControl, Bool.or_eq_false_iff, decide_eq_false_iff_not, UInt8.not_lt] at hcontrol
    exact hcontrol.1
  | escape c => exact h
  | unicode h1 h2 h3 h4 => exact h

theorem units_of_standard {units : List StringUnit} (h : ∀ u ∈ units, u.Valid standard)
    (hdelete : delete ∉ stringText units) :
  ∀ u ∈ units, u.Valid validated
  := by
  intro u hu
  apply valid_unit_of_standard (h u hu)
  intro hmem
  apply hdelete
  simp only [stringText, unitsText, List.mem_cons, List.mem_append, List.mem_flatMap]
  exact .inr (.inl ⟨u, hu, hmem⟩)

/-- A text of the standard without the byte 127 belongs to the grammar of the validator. -/
theorem valid_of_standard {kind : Kind} {t : Tree kind} (h : t.Valid standard)
    (hdelete : delete ∉ t.text) :
  t.Valid validated
  := by
  induction t with
  | string units => exact units_of_standard h hdelete
  | number raw => exact validated_number_of_standard h
  | literal raw => exact h
  | emptyArray ws => exact h
  | array es ih =>
    apply ih h
    simp only [Tree.text, List.mem_cons, List.mem_append, not_or] at hdelete
    exact hdelete.2.1
  | emptyObject ws => exact h
  | object ms ih =>
    apply ih h
    simp only [Tree.text, List.mem_cons, List.mem_append, not_or] at hdelete
    exact hdelete.2.1
  | element before v after ih =>
    simp only [Tree.text, List.mem_append, not_or] at hdelete
    exact ⟨h.1, ih h.2.1 hdelete.2.1, h.2.2⟩
  | moreElements before v after es ihv ihes =>
    simp only [Tree.text, List.mem_cons, List.mem_append, not_or] at hdelete
    obtain ⟨hbefore, hv, hafter, hes⟩ := h
    exact ⟨hbefore, ihv hv hdelete.2.1, hafter, ihes hes hdelete.2.2.2.2⟩
  | member before name ws1 ws2 v after ih =>
    simp only [Tree.text, List.mem_cons, List.mem_append, not_or] at hdelete
    obtain ⟨hbefore, hname, hws1, hws2, hv, hafter⟩ := h
    obtain ⟨-, hdname, -, -, -, hdv, -⟩ := hdelete
    exact ⟨hbefore, units_of_standard hname hdname, hws1, hws2, ih hv hdv, hafter⟩
  | moreMembers before name ws1 ws2 v after ms ihv ihms =>
    simp only [Tree.text, List.mem_cons, List.mem_append, not_or] at hdelete
    obtain ⟨hbefore, hname, hws1, hws2, hv, hafter, hms⟩ := h
    obtain ⟨-, hdname, -, -, -, hdv, -, -, hdms⟩ := hdelete
    exact ⟨hbefore, units_of_standard hname hdname, hws1, hws2, ihv hv hdv, hafter,
      ihms hms hdms⟩

/-- An accepted text all whose numbers are integers is a text of the standard. -/
theorem standard_of_valid {kind : Kind} {t : Tree kind} {after : Bytes}
    (h : t.Valid validated)
    (hint : ∀ raw rest, Occurs (.number raw) rest t after → IsInteger raw) :
  t.Valid standard
  := by
  induction t generalizing after with
  | string units => exact fun u hu => valid_unit_of_validated (h u hu)
  | number raw => exact standard_number_of_isInteger h (hint raw after .self)
  | literal raw => exact h
  | emptyArray ws => exact h
  | array es ih => exact ih h fun raw rest hocc => hint raw rest (.array hocc)
  | emptyObject ws => exact h
  | object ms ih => exact ih h fun raw rest hocc => hint raw rest (.object hocc)
  | element before v ws ih =>
    exact ⟨h.1, ih h.2.1 fun raw rest hocc => hint raw rest (.element hocc), h.2.2⟩
  | moreElements before v ws es ihv ihes =>
    obtain ⟨hbefore, hv, hws, hes⟩ := h
    exact ⟨hbefore, ihv hv fun raw rest hocc => hint raw rest (.elementsHead hocc), hws,
      ihes hes fun raw rest hocc => hint raw rest (.elementsTail hocc)⟩
  | member before name ws1 ws2 v ws ih =>
    obtain ⟨hbefore, hname, hws1, hws2, hv, hws⟩ := h
    exact ⟨hbefore, fun u hu => valid_unit_of_validated (hname u hu), hws1, hws2,
      ih hv fun raw rest hocc => hint raw rest (.member hocc), hws⟩
  | moreMembers before name ws1 ws2 v ws ms ihv ihms =>
    obtain ⟨hbefore, hname, hws1, hws2, hv, hws, hms⟩ := h
    exact ⟨hbefore, fun u hu => valid_unit_of_validated (hname u hu), hws1, hws2,
      ihv hv fun raw rest hocc => hint raw rest (.membersHead hocc), hws,
      ihms hms fun raw rest hocc => hint raw rest (.membersTail hocc)⟩

/-! ### What the validator accepts -/

/-- The validator returns a positive length exactly when the text up to it is one object of
the standard and nothing but whitespace follows. -/
def ValidatesStandard (text : Bytes) : Prop :=
  (∀ n, zbxJsonValidate text = .ok n →
    0 < n ∧ IsObjectText standard (text.take n) ∧ IsWs (text.drop n)) ∧
    (IsObjectText standard text → ∃ n, zbxJsonValidate text = .ok n)

/-- Every number of an accepted text is copied in full. -/
def NumbersCopied (text : Bytes) : Prop :=
  ∀ n, zbxJsonValidate text = .ok n →
    ∀ before object after, ObjectText validated text before object after →
      ∀ raw rest, Occurs (.number raw) rest object after → NumberCopied raw rest

/-- All numbers of the text, read by the grammar of the validator, are integers. -/
def NumbersIntegers (text : Bytes) : Prop :=
  ∀ before object after, ObjectText validated text before object after →
    ∀ raw rest, Occurs (.number raw) rest object after → IsInteger raw

theorem ObjectText.no_delete {text before : Bytes} {object : Tree .value} {after : Bytes}
    (h : ObjectText validated text before object after) :
  delete ∉ text
  := by
  rw [h.text_eq]
  simp [foreign_delete.not_mem_ws h.before_ws, foreign_delete.not_mem_ws h.after_ws,
    text_no_delete h.valid]

theorem ObjectText.validated_of_standard {text before : Bytes} {object : Tree .value}
    {after : Bytes} (h : ObjectText standard text before object after)
    (hdelete : delete ∉ text) :
  ObjectText validated text before object after
  := by
  have hobject : delete ∉ object.text := by
    intro hmem
    rw [h.text_eq] at hdelete
    exact hdelete (List.mem_append_right _ (List.mem_append_left _ hmem))
  exact { h with valid := valid_of_standard h.valid hobject }

theorem ObjectText.length_pos {g : Grammar} {text before : Bytes} {object : Tree .value}
    {after : Bytes} (h : ObjectText g text before object after) :
  0 < object.text.length
  := by
  obtain ⟨tail, htail⟩ := object_head h.isObject
  rw [htail]
  simp

theorem ObjectText.take {g g' : Grammar} {text before : Bytes} {object : Tree .value}
    {after : Bytes} (h : ObjectText g text before object after) (hvalid : object.Valid g') :
  IsObjectText g' (text.take (before.length + object.text.length)) ∧
    text.drop (before.length + object.text.length) = after
  := by
  have hlen : (before ++ object.text).length = before.length + object.text.length :=
    List.length_append
  rw [h.text_eq, ← List.append_assoc, ← hlen, List.take_left', List.drop_left']
  · refine ⟨⟨before, [], object, h.before_ws, isWs_nil, h.isObject, hvalid, by simp⟩, rfl⟩
  · rfl
  · rfl

/-- The validator follows the standard and every accepted number is copied in full exactly
when all numbers of the text are integers and no string of a standard text contains the
byte 127. -/
theorem validates_copied_iff (text : Bytes) :
  (ValidatesStandard text ∧ NumbersCopied text) ↔
    NumbersIntegers text ∧ (IsObjectText standard text → delete ∉ text)
  := by
  constructor
  · rintro ⟨⟨-, hcomplete⟩, hcopied⟩
    constructor
    · intro before object after h raw rest hocc
      have hnumber : ¬ (Tree.number raw).IsObject := fun h => h
      have hgoes := hocc.goesOn_of_object h.isObject h.valid hnumber
      exact (numberCopied_iff (hocc.valid h.valid) hgoes).mp
        (hcopied _ (validate_eq_ok h) before object after h raw rest hocc)
    · intro hstandard
      obtain ⟨n, hn⟩ := hcomplete hstandard
      obtain ⟨before, object, after, h, -⟩ := objectText_of_validate hn
      exact h.no_delete
  · rintro ⟨hint, hdelete⟩
    refine ⟨⟨?_, ?_⟩, ?_⟩
    · intro n hn
      obtain ⟨before, object, after, h, rfl⟩ := objectText_of_validate hn
      have hvalid := standard_of_valid h.valid (hint before object after h)
      obtain ⟨htake, hdrop⟩ := h.take hvalid
      refine ⟨Nat.add_pos_right _ h.length_pos, htake, ?_⟩
      rw [hdrop]
      exact h.after_ws
    · intro hstandard
      obtain ⟨before, object, after, h⟩ := isObjectText_iff.mp hstandard
      exact ⟨_, validate_eq_ok (h.validated_of_standard (hdelete hstandard))⟩
    · intro n _ before object after h raw rest hocc
      have hnumber : ¬ (Tree.number raw).IsObject := fun h => h
      have hgoes := hocc.goesOn_of_object h.isObject h.valid hnumber
      exact (numberCopied_iff (hocc.valid h.valid) hgoes).mpr
        (hint before object after h raw rest hocc)

/-- `{"a":1.5}`. -/
def fractionText : Bytes :=
  bytes ['\x7b', '"', 'a', '"', ':', '1', '.', '5', '\x7d']

/-- The validator accepts the text, and the reader copies `1` for its number. -/
theorem fractionText_truncated :
  zbxJsonValidate fractionText = .ok 9 ∧
    decodeValue (fractionText.drop 5) 100 =
      some ⟨bytes ['1'], false, bytes ['.', '5', '\x7d']⟩ ∧
    ¬ (ValidatesStandard fractionText ∧ NumbersCopied fractionText)
  := by
  refine ⟨by decide, by decide, ?_⟩
  rintro ⟨-, hcopied⟩
  have hobject : ObjectText validated fractionText []
      (.object (.member [] [.plain 'a'.toUInt8] [] [] (.number (bytes ['1', '.', '5'])) [])) []
      := by
    refine ⟨isWs_nil, isWs_nil, trivial, ?_, by decide⟩
    refine ⟨isWs_nil, ?_, isWs_nil, isWs_nil, ?_, isWs_nil⟩
    · intro u hu
      rw [List.mem_singleton.mp hu]
      exact ⟨by decide, by decide, by change isControl _ = false; decide⟩
    · refine ⟨[], bytes ['1'], bytes ['.', '5'], [], .inl rfl, ?_, ?_, .inl rfl, rfl⟩
      · exact ⟨⟨by decide, by decide +kernel⟩, by decide⟩
      · exact .inr ⟨bytes ['5'], by decide +kernel, trivial, rfl⟩
  have hocc : Occurs (.number (bytes ['1', '.', '5'])) [rightBrace]
      (.object (.member [] [.plain 'a'.toUInt8] [] [] (.number (bytes ['1', '.', '5'])) [])) [] :=
    .object (.member .self)
  have hgoes : GoesOn [rightBrace] := goesOn_cons (.inr (.inr (.inr rfl)))
  have hone := (numberCopied_iff (hocc.valid hobject.valid) hgoes).mp
    (hcopied _ (validate_eq_ok hobject) _ _ _ hobject _ _ hocc)
  exact absurd hone (by decide)

end Json
