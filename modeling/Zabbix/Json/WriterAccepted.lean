import Zabbix.Json.WriterText
import Zabbix.Library.Run

/-!
# What the writer writes is accepted

The text of a document is a text of the standard. The validator accepts it exactly when no
name and no string that was added contains the byte 127.
-/

open Ascii

namespace Json

/-! ### The text of a document -/

theorem unit_valid (c : UInt8) :
  (escapeUnit c).Valid standard
  := by
  by_cases hquote : c = quote
  · subst hquote
    exact (by decide : isEscape quote = true)
  by_cases hback : c = backslash
  · subst hback
    exact (by decide : isEscape backslash = true)
  by_cases hslash : c = slash
  · subst hslash
    exact (by decide : isEscape slash = true)
  simp only [escapeUnit, hquote, hback, hslash, or_self, if_false]
  have hhex : ∀ n : ℕ, n < 32 → isHexDigit (num2hex (n.toUInt8 >>> 4 &&& 0xf)) = true ∧
      isHexDigit (num2hex (n.toUInt8 &&& 0xf)) = true := by
    decide
  repeat' split
  · exact (by decide : isEscape 'b'.toUInt8 = true)
  · exact (by decide : isEscape 'f'.toUInt8 = true)
  · exact (by decide : isEscape 'n'.toUInt8 = true)
  · exact (by decide : isEscape 'r'.toUInt8 = true)
  · exact (by decide : isEscape 't'.toUInt8 = true)
  · rename_i hlow
    have hc : c.toNat.toUInt8 = c := UInt8.ofNat_toNat
    have hdigits := hhex c.toNat (UInt8.lt_iff_toNat_lt.mp hlow)
    rw [hc] at hdigits
    exact ⟨by decide, by decide, hdigits.1, hdigits.2⟩
  · rename_i hlow
    exact ⟨hquote, hback, UInt8.not_lt.mp hlow⟩

theorem units_valid (s : Bytes) :
  ∀ u ∈ units s, u.Valid standard
  := by
  intro u hu
  obtain ⟨c, -, rfl⟩ := List.mem_map.mp hu
  exact unit_valid c

theorem indent_ws (level : ℕ) :
  IsWs (indent level)
  := by
  intro c hc
  obtain rfl | hc := List.mem_cons.mp hc
  · decide
  · rw [List.eq_of_mem_replicate hc]
    decide

theorem margin_ws {kind : Kind} (c : Content kind) (level : ℕ) :
  IsWs (c.margin level)
  := by
  cases c <;> first | exact indent_ws level | exact isWs_nil

/-- The numbers are numbers of the standard. -/
def numbersStandard : Content.Check where
  name := fun _ => True
  string := fun _ => True
  number := standard.number

/-- The text of a value is a text of the standard when its numbers are. -/
theorem tree_valid {kind : Kind} {c : Content kind} (h : c.All numbersStandard) (level : ℕ) :
  (c.tree level).Valid standard
  := by
  induction c generalizing level with
  | null => exact (by decide : nullText ∈ literals)
  | string s => exact units_valid s
  | number raw => exact h
  | emptyArray => exact isWs_nil
  | array es ih => exact ih h (level + 1)
  | emptyObject => exact isWs_nil
  | object ms ih => exact ih h (level + 1)
  | element v ih => exact ⟨margin_ws v level, ih h level, isWs_nil⟩
  | moreElements v rest ihv ihrest =>
    exact ⟨margin_ws v level, ihv h.1 level, isWs_nil, ihrest h.2 level⟩
  | member name v ih =>
    exact ⟨indent_ws level, units_valid name, isWs_nil, isWs_nil, ih h.2 level, isWs_nil⟩
  | moreMembers name v rest ihv ihrest =>
    exact ⟨indent_ws level, units_valid name, isWs_nil, isWs_nil, ihv h.2.1 level, isWs_nil,
      ihrest h.2.2 level⟩

/-! ### The byte 127 -/

/-- No name and no string contains the byte 127. -/
def noDelete : Content.Check where
  name := fun s => delete ∉ s
  string := fun s => delete ∉ s
  number := fun _ => True

theorem foreign_ne_delete {c : UInt8} (h : c ∈ syntaxBytes) :
  ¬ delete = c
  := foreign_delete.ne h

theorem delete_mem_unit (c : UInt8) :
  delete ∈ (escapeUnit c).text ↔ delete = c
  := by
  rw [escapeUnit]
  split_ifs with hself hb hf hn hr ht hcontrol
  · obtain rfl | rfl | rfl := hself <;> decide
  · rw [hb]
    decide
  · rw [hf]
    decide
  · rw [hn]
    decide
  · rw [hr]
    decide
  · rw [ht]
    decide
  · have hbytes : ∀ n < 32, (delete ∈ (StringUnit.unicode '0'.toUInt8 '0'.toUInt8
        (num2hex (UInt8.ofNat n >>> 4 &&& 0xf)) (num2hex (UInt8.ofNat n &&& 0xf))).text ↔
          delete = UInt8.ofNat n) := by
      decide +kernel
    have hunit := hbytes c.toNat hcontrol
    rwa [UInt8.ofNat_toNat] at hunit
  · exact List.mem_singleton

theorem delete_mem_string (s : Bytes) :
  delete ∈ stringText (units s) ↔ delete ∈ s
  := by
  have hunits : delete ∈ unitsText (units s) ↔ delete ∈ s := by
    induction s with
    | nil => rfl
    | cons c s ih =>
      have htext : unitsText (units (c :: s)) = (escapeUnit c).text ++ unitsText (units s) := rfl
      rw [htext, List.mem_append, delete_mem_unit, ih, List.mem_cons]
  simp [stringText, hunits, foreign_ne_delete (show quote ∈ syntaxBytes by decide)]

/-- The byte stands in the text exactly when it stands in a name or in a string. -/
theorem delete_not_mem_iff {kind : Kind} {c : Content kind} (h : c.All numbersStandard)
    (level : ℕ) :
  delete ∉ (c.tree level).text ↔ c.All noDelete
  := by
  have hcomma := foreign_ne_delete (show comma ∈ syntaxBytes by decide)
  have hcolon := foreign_ne_delete (show colon ∈ syntaxBytes by decide)
  have hindent : delete ∉ indent level := foreign_delete.not_mem_ws (indent_ws level)
  induction c generalizing level with
  | null => exact iff_of_true (show delete ∉ nullText by decide) trivial
  | string s => exact not_congr (delete_mem_string s)
  | number raw =>
    have hraw : (Tree.number raw).Valid validated := validated_number_of_standard h
    exact iff_of_true (text_no_delete hraw) trivial
  | emptyArray => exact iff_of_true (show delete ∉ [leftBracket, rightBracket] by decide) trivial
  | array es ih =>
    have hes := ih h (level + 1) (foreign_delete.not_mem_ws (indent_ws _))
    simpa [Content.tree, Tree.text, Content.All,
      foreign_ne_delete (show leftBracket ∈ syntaxBytes by decide),
      foreign_ne_delete (show rightBracket ∈ syntaxBytes by decide)] using hes
  | emptyObject => exact iff_of_true (show delete ∉ [leftBrace, rightBrace] by decide) trivial
  | object ms ih =>
    have hms := ih h (level + 1) (foreign_delete.not_mem_ws (indent_ws _))
    simpa [Content.tree, Tree.text, Content.All,
      foreign_ne_delete (show leftBrace ∈ syntaxBytes by decide),
      foreign_ne_delete (show rightBrace ∈ syntaxBytes by decide)] using hms
  | element v ih =>
    have hv := ih h level hindent
    have hmargin := foreign_delete.not_mem_ws (margin_ws v level)
    simpa [Content.tree, Tree.text, Content.All, hmargin] using hv
  | moreElements v rest ihv ihrest =>
    have hv := ihv h.1 level hindent
    have hrest := ihrest h.2 level hindent
    have hmargin := foreign_delete.not_mem_ws (margin_ws v level)
    simp [Content.tree, Tree.text, Content.All, hmargin, hcomma, hv, hrest]
  | member name v ih =>
    have hv := ih h.2 level hindent
    simp [Content.tree, Tree.text, Content.All, hindent, hcolon, hv, delete_mem_string,
      noDelete]
  | moreMembers name v rest ihv ihrest =>
    have hv := ihv h.2.1 level hindent
    have hrest := ihrest h.2.2 level hindent
    simp [Content.tree, Tree.text, Content.All, hindent, hcomma, hcolon, hv, hrest,
      delete_mem_string, noDelete]

/-! ### What was added -/

/-- The names, strings and numbers of a call meet the conditions. -/
def Call.All (check : Content.Check) : Call → Prop
  | .addobject name => ∀ n ∈ name, check.name n
  | .addarray name => ∀ n ∈ name, check.name n
  | .addstring name string type =>
    (∀ n ∈ name, check.name n) ∧ (scalar string type).All check
  | .adduint64 name value =>
    (∀ n ∈ name, check.name n) ∧ check.number (decimal value.toNat)
  | .close => True

/-- All that was added to a document meets the conditions. -/
def Inside.All (check : Content.Check) : Inside → Prop
  | .array vs => ∀ v ∈ vs, v.All check
  | .object ms => ∀ m ∈ ms, check.name m.1 ∧ m.2.All check

def Parent.All (check : Content.Check) : Parent → Prop
  | .array vs => ∀ v ∈ vs, v.All check
  | .object ms name => (∀ m ∈ ms, check.name m.1 ∧ m.2.All check) ∧ check.name name

def Document.All (check : Content.Check) (d : Document) : Prop :=
  d.inside.All check ∧ ∀ parent ∈ d.parents, parent.All check

variable {check : Content.Check}

theorem elementsOf_all (v : Content .value) (vs : List (Content .value)) :
  (Content.elementsOf v vs).All check ↔ ∀ v' ∈ v :: vs, v'.All check
  := by
  induction vs generalizing v with
  | nil => simp [Content.elementsOf, Content.All]
  | cons v' vs ih =>
    rw [List.forall_mem_cons, ← ih v']
    rfl

theorem membersOf_all (m : Bytes × Content .value) (ms : List (Bytes × Content .value)) :
  (Content.membersOf m ms).All check ↔ ∀ m' ∈ m :: ms, check.name m'.1 ∧ m'.2.All check
  := by
  induction ms generalizing m with
  | nil => simp [Content.membersOf, Content.All]
  | cons m' ms ih =>
    rw [List.forall_mem_cons, ← ih m', and_assoc]
    rfl

theorem Inside.content_all (inside : Inside) :
  inside.content.All check ↔ inside.All check
  := by
  cases inside with
  | array vs =>
    cases vs with
    | nil => simp [Inside.content, Content.All, Inside.All]
    | cons v vs => exact elementsOf_all v vs
  | object ms =>
    cases ms with
    | nil => simp [Inside.content, Content.All, Inside.All]
    | cons m ms => exact membersOf_all m ms

theorem Parent.plug_all (parent : Parent) (v : Content .value) :
  (parent.plug v).All check ↔ parent.All check ∧ v.All check
  := by
  cases parent with
  | array vs => simp [Parent.plug, Inside.All, Parent.All, or_imp, forall_and]
  | object ms name =>
    simp [Parent.plug, Inside.All, Parent.All, or_imp, forall_and]
    tauto

/-- Closing what is open does not change what was added. -/
theorem Document.content_all (d : Document) :
  d.content.All check ↔ d.All check
  := by
  obtain ⟨inside, parents⟩ := d
  change (Document.contentOf inside parents).All check ↔ _
  induction parents generalizing inside with
  | nil => simp [Document.contentOf, Inside.content_all, Document.All]
  | cons parent parents ih =>
    rw [Document.contentOf, ih]
    simp only [Document.All, Parent.plug_all, Inside.content_all, List.forall_mem_cons]
    tauto

theorem Inside.add_all {inside inside' : Inside} {name : Option Bytes} {v : Content .value}
    (h : inside.add name v = some inside') :
  inside'.All check ↔ inside.All check ∧ (∀ n ∈ name, check.name n) ∧ v.All check
  := by
  cases inside <;> cases name <;> cases h
  · simp [Inside.All, or_imp, forall_and]
  · simp [Inside.All, or_imp, forall_and]
    tauto

theorem Inside.enclose_all {inside : Inside} {name : Option Bytes} {parent : Parent}
    (h : inside.enclose name = some parent) :
  parent.All check ↔ inside.All check ∧ ∀ n ∈ name, check.name n
  := by
  cases inside <;> cases name <;> cases h <;> simp [Inside.All, Parent.All]

theorem Document.add_all {d d' : Document} {name : Option Bytes} {v : Content .value}
    (h : d.add name v = some d') :
  d'.All check ↔ d.All check ∧ (∀ n ∈ name, check.name n) ∧ v.All check
  := by
  obtain ⟨inside', hadd, rfl⟩ := Option.map_eq_some_iff.mp h
  simp only [Document.All, Inside.add_all hadd]
  tauto

theorem Document.openNew_all {d d' : Document} {name : Option Bytes} {new : Inside}
    (hnew : new.All check) (h : d.openNew name new = some d') :
  d'.All check ↔ d.All check ∧ ∀ n ∈ name, check.name n
  := by
  obtain ⟨parent, henclose, rfl⟩ := Option.map_eq_some_iff.mp h
  simp only [Document.All, hnew, true_and, List.forall_mem_cons, Inside.enclose_all henclose]
  tauto

theorem Document.step_all {d d' : Document} {call : Call} (h : d.step call = some d') :
  d'.All check ↔ d.All check ∧ call.All check
  := by
  cases call with
  | addobject name => exact Document.openNew_all (by simp [Inside.All]) h
  | addarray name => exact Document.openNew_all (by simp [Inside.All]) h
  | addstring name string type => exact Document.add_all h
  | adduint64 name value => exact Document.add_all h
  | close =>
    obtain ⟨inside, parents⟩ := d
    cases parents with
    | nil =>
      cases h
      simp [Call.All]
    | cons parent parents =>
      cases h
      simp only [Document.All, Parent.plug_all, Inside.content_all, List.forall_mem_cons,
        Call.All, and_true]
      tauto

/-- What was added by a well nested sequence of calls is what its calls add. -/
theorem built_all {calls : List Call} {d : Document} (h : built calls = some d) :
  d.content.All check ↔ ∀ call ∈ calls, call.All check
  := by
  have hrun : ∀ (calls : List Call) (d₀ : Document), calls.foldlM Document.step d₀ = some d →
      (d.All check ↔ d₀.All check ∧ ∀ call ∈ calls, call.All check) := by
    intro calls
    induction calls with
    | nil =>
      intro d₀ hd
      cases hd
      simp
    | cons call calls ih =>
      intro d₀ hd
      rw [List.foldlM_cons] at hd
      obtain ⟨d₁, hd₁, hrest⟩ := Option.bind_eq_some_iff.mp hd
      rw [ih d₁ hrest, Document.step_all hd₁, List.forall_mem_cons, and_assoc]
  rw [Document.content_all, hrun calls .start h]
  simp [Document.All, Document.start, Inside.All]

/-- Calls that are made as they are meant add numbers of the standard. -/
theorem numbersStandard_of_isTyped {calls : List Call}
    (htyped : ∀ call ∈ calls, call.IsTyped) :
  ∀ call ∈ calls, call.All numbersStandard
  := by
  have hdecimal : ∀ n : ℕ, standard.number (decimal n) := fun n =>
    standard_number_of_isInteger (validated_decimal n).1 (validated_decimal n).2
  intro call hcall
  have hcalltyped := htyped call hcall
  cases call with
  | addobject name => exact fun _ _ => trivial
  | addarray name => exact fun _ _ => trivial
  | addstring name string type =>
    refine ⟨fun _ _ => trivial, ?_⟩
    cases string with
    | none => exact trivial
    | some s =>
      rw [scalar]
      split
      · exact trivial
      · rename_i hne
        exact hcalltyped hne
  | adduint64 name value => exact ⟨fun _ _ => trivial, hdecimal _⟩
  | close => exact trivial

/-! ### Acceptance -/

theorem foreign_zero :
  Foreign standard 0
  where
  char := by
    intro h
    exact absurd (show (0x20 : UInt8) ≤ 0 from h) (by decide)
  number := by decide
  space := by decide
  hex := by decide
  punctuation := by decide

theorem cString_eq {s junk : Bytes} (h : 0 ∉ s) :
  cString (s ++ 0 :: junk) = s
  := by
  induction s with
  | nil => rfl
  | cons c s ih =>
    rw [List.mem_cons, not_or] at h
    have hc : c ≠ 0 := fun heq => h.1 heq.symm
    rw [cString, List.cons_append, List.takeWhile_cons, if_pos (by simpa using hc)]
    exact congrArg (c :: ·) (ih h.2)

/-- The outermost bracket stays open and stays the same. -/
theorem Document.step_closers {d d' : Document} {call : Call} (h : d.step call = some d') :
  d'.closers.getLast? = d.closers.getLast?
  := by
  have hadd : ∀ {name : Option Bytes} {v : Content .value}, d.add name v = some d' →
      d'.closers.getLast? = d.closers.getLast? := by
    intro name v h
    obtain ⟨inside', hadd, rfl⟩ := Option.map_eq_some_iff.mp h
    have hclosing : inside'.closing = d.inside.closing := by
      obtain ⟨inside, parents⟩ := d
      cases inside <;> cases name <;> cases hadd <;> rfl
    simp only [Document.closers, hclosing]
  have hopen : ∀ {name : Option Bytes} {new : Inside}, d.openNew name new = some d' →
      d'.closers.getLast? = d.closers.getLast? := by
    intro name new h
    obtain ⟨parent, henclose, rfl⟩ := Option.map_eq_some_iff.mp h
    have hclosing := (enclose_text henclose 0).2
    simp only [Document.closers, List.map_cons, hclosing, List.getLast?_cons_cons]
  cases call with
  | addobject name => exact hopen h
  | addarray name => exact hopen h
  | addstring name string type => exact hadd h
  | adduint64 name value => exact hadd h
  | close =>
    obtain ⟨inside, parents⟩ := d
    cases parents with
    | nil =>
      cases h
      rfl
    | cons parent parents =>
      cases h
      simp only [Document.closers, List.map_cons, Parent.closing_plug, List.getLast?_cons_cons]

theorem contentOf_isObject (parents : List Parent) (inside : Inside)
    (h : (inside.closing :: parents.map Parent.closing).getLast? = some rightBrace) :
  ((Document.contentOf inside parents).tree 0).IsObject
  := by
  induction parents generalizing inside with
  | nil =>
    cases inside with
    | array vs => exact absurd h (show ¬ some rightBracket = some rightBrace by decide)
    | object ms => cases ms <;> trivial
  | cons parent parents ih =>
    apply ih
    rw [Parent.closing_plug]
    simpa [List.getLast?_cons_cons] using h

/-- The document is an object: `zbx_json_init` opens it, and it is never closed. -/
theorem content_isObject {calls : List Call} {d : Document} (h : built calls = some d) :
  (d.content.tree 0).IsObject
  := by
  have hlast : d.closers.getLast? = some rightBrace := by
    apply foldlM_invariant h
    · rfl
    · intro d _ d' _ hinv hstep
      exact (Document.step_closers hstep).trans hinv
  exact contentOf_isObject d.parents d.inside hlast

/-- What stands in the buffer behind a well nested sequence of calls: the text of what was
written, the closing brackets of what is open and a zero byte. -/
structure Buffered (j : ZbxJson) (d : Document) : Prop where
  buffer : ∃ junk, j.buffer = d.done ++ (d.closers ++ 0 :: junk)
  allocated : j.buffer.length = j.bufferAllocated
  offset : j.bufferOffset = d.done.length
  size : j.bufferSize = (d.done ++ d.closers).length
  text : j.text = d.done ++ d.closers

section

variable {fresh : ℕ → UInt8} {allocate : ℕ} {calls : List Call} {d : Document}

/-- The text is an object of the standard. -/
theorem built_objectText (htyped : ∀ call ∈ calls, call.IsTyped) (hbuilt : built calls = some d) :
  ObjectText standard (d.done ++ d.closers) [] (d.content.tree 0) []
  where
  before_ws := isWs_nil
  after_ws := isWs_nil
  isObject := content_isObject hbuilt
  valid := tree_valid ((built_all hbuilt).mpr (numbersStandard_of_isTyped htyped)) 0
  text_eq := by rw [d.text_eq, List.nil_append, List.append_nil]

theorem written_buffered (fresh : ℕ → UInt8) (allocate : ℕ)
    (htyped : ∀ call ∈ calls, call.IsTyped)
    (hbuilt : built calls = some d) :
  ∃ j, written fresh allocate calls = some j ∧ Buffered j d
  := by
  obtain ⟨j, hj, hrep⟩ := represents_written fresh allocate htyped hbuilt
  obtain ⟨junk, hbuffer⟩ := hrep.holds.buffer
  refine ⟨j, hj, ⟨⟨junk, hbuffer⟩, hrep.holds.allocated, hrep.holds.offset, ?_, ?_⟩⟩
  · rw [hrep.holds.size, List.length_append]
  · rw [ZbxJson.text, hbuffer, ← List.append_assoc]
    apply cString_eq
    rw [d.text_eq]
    exact foreign_zero.not_mem_text (fun _ => validated_number_of_standard)
      (built_objectText htyped hbuilt).valid

/-- The text of a well nested sequence of calls is accepted exactly when no name and no
string of the calls contains the byte 127. -/
theorem open_written_iff (htyped : ∀ call ∈ calls, call.IsTyped)
    (hbuilt : built calls = some d) :
  (∃ jp, zbxJsonOpen (d.done ++ d.closers) = some jp) ↔ ∀ call ∈ calls, call.All noDelete
  := by
  have htext := built_objectText htyped hbuilt
  have hnumbers := (built_all hbuilt).mpr (numbersStandard_of_isTyped htyped)
  rw [← built_all hbuilt, ← delete_not_mem_iff hnumbers 0, ← d.text_eq]
  constructor
  · rintro ⟨jp, hopen⟩
    obtain ⟨before, object, after, hobject, -⟩ := objectText_of_open hopen
    exact hobject.no_delete
  · intro hdelete
    exact ⟨_, open_eq (htext.validated_of_standard hdelete)⟩

/-- Behind every well nested sequence of calls the text is accepted exactly when no name and
no string of the calls contains the byte 127. -/
theorem written_accepted_iff (fresh : ℕ → UInt8) (allocate : ℕ) (calls : List Call)
    (htyped : ∀ call ∈ calls, call.IsTyped) (hnested : (built calls).isSome = true) :
  (∃ j jp, written fresh allocate calls = some j ∧ zbxJsonOpen j.text = some jp) ↔
    ∀ call ∈ calls, call.All noDelete
  := by
  obtain ⟨d, hbuilt⟩ := Option.isSome_iff_exists.mp hnested
  obtain ⟨j, hj, hbuffered⟩ := written_buffered fresh allocate htyped
    hbuilt
  rw [← open_written_iff htyped hbuilt, ← hbuffered.text]
  constructor
  · rintro ⟨j', jp, hj', hopen⟩
    rw [hj] at hj'
    obtain rfl := Option.some.inj hj'
    exact ⟨jp, hopen⟩
  · rintro ⟨jp, hopen⟩
    exact ⟨j, jp, hj, hopen⟩

end

/-- A value and an open array of two numbers. -/
def sampleCalls : List Call :=
  [.addstring (some (bytes ['h', 'o', 's', 't'])) (some (bytes ['a', '"', 'b'])) .string,
    .addarray (some (bytes ['d', 'a', 't', 'a'])), .adduint64 none 17,
    .addstring none (some (bytes ['-', '5'])) .int]

theorem sampleCalls_typed :
  ∀ call ∈ sampleCalls, call.IsTyped
  := by
  intro call hcall
  simp only [sampleCalls, List.mem_cons, List.not_mem_nil, or_false] at hcall
  obtain rfl | rfl | rfl | rfl := hcall
  · exact fun hne => absurd rfl hne
  · trivial
  · trivial
  · intro _
    refine ⟨[minus], bytes ['5'], [], [], .inr rfl, ⟨⟨by decide, by decide +kernel⟩, by decide⟩,
      .inl rfl, .inl rfl, rfl⟩

theorem sampleCalls_accepted :
  ∃ j jp, written (fun _ => 0xff) 0 sampleCalls = some j ∧ zbxJsonOpen j.text = some jp
  := by
  apply (written_accepted_iff _ 0 sampleCalls sampleCalls_typed (by decide)).mpr
  intro call hcall
  simp only [sampleCalls, List.mem_cons, List.not_mem_nil, or_false] at hcall
  obtain rfl | rfl | rfl | rfl := hcall
  · refine ⟨?_, show delete ∉ bytes ['a', '"', 'b'] by decide⟩
    rintro n ⟨⟩
    exact (by decide : delete ∉ bytes ['h', 'o', 's', 't'])
  · rintro n ⟨⟩
    exact (by decide : delete ∉ bytes ['d', 'a', 't', 'a'])
  · exact ⟨nofun, trivial⟩
  · exact ⟨nofun, trivial⟩

/-- A value with the byte 127. -/
def deleteCalls : List Call := [.addstring (some (bytes ['a'])) (some [delete]) .string]

/-- The text is written and is not accepted. -/
theorem deleteCalls_refused :
  (written (fun _ => 0xff) 0 deleteCalls).map ZbxJson.text =
      some (bytes ['\x7b', '\n', '\t', '"', 'a', '"', ':', '"', '\x7f', '"', '\x7d']) ∧
    zbxJsonOpen (bytes ['\x7b', '\n', '\t', '"', 'a', '"', ':', '"', '\x7f', '"', '\x7d']) = none
  := by
  have htyped : ∀ call ∈ deleteCalls, call.IsTyped := by
    intro call hcall
    rw [List.mem_singleton.mp hcall]
    exact fun hne => absurd rfl hne
  have htext : (built deleteCalls).map (fun d => d.done ++ d.closers) =
      some (bytes ['\x7b', '\n', '\t', '"', 'a', '"', ':', '"', '\x7f', '"', '\x7d']) := by decide
  obtain ⟨d, hbuilt, hd⟩ := Option.map_eq_some_iff.mp htext
  obtain ⟨j, hj, hbuffered⟩ := written_buffered (fun _ => 0xff) 0 htyped hbuilt
  rw [← hd]
  constructor
  · rw [hj, Option.map_some, hbuffered.text]
  · rw [Option.eq_none_iff_forall_ne_some]
    intro jp hopen
    have hall := (open_written_iff htyped hbuilt).mp ⟨jp, hopen⟩ _ (List.mem_singleton_self _)
    exact hall.2 (List.mem_singleton_self _)

end Json
