import Zabbix.HistoryCache.VacuumHistory
import Zabbix.Library.Buffer

/-!
# Compacting the text area

The strings of the ring stand in the text area in the order of their entries. Compacting moves
them down one after another, each to the end of those before it: a string is written over
itself and over the space that is free before it, never over a string behind it.
-/

namespace HistoryCache

/-- A string stands at an address, with its terminating zero byte. -/
def HoldsAt (text : Bytes) (p : ℕ) (s : Bytes) : Prop :=
  s ++ [0] <+: text.drop p ∧ ∀ c ∈ s, c ≠ 0

/-- The string at an address. -/
def stringAt (text : Bytes) (p : ℕ) : Bytes := Buffer.text (text.drop p)

section Strings

variable {text text' : Bytes} {p a b : ℕ} {s : Bytes}

theorem HoldsAt.stringAt (h : HoldsAt text p s) :
  stringAt text p = s
  := Buffer.text_of_prefix h.2 h.1

theorem HoldsAt.le_length (h : HoldsAt text p s) :
  p + (s.length + 1) ≤ text.length
  := by
  have hle := h.1.length_le
  rw [List.length_append, List.length_singleton, List.length_drop] at hle
  omega

theorem HoldsAt.strlen (h : HoldsAt text p s) :
  strlen text p = some s.length
  := by
  obtain ⟨rest, hrest⟩ := h.1
  have hnone : s.findIdx? (· = 0) = none := by
    rw [List.findIdx?_eq_none_iff]
    intro c hc
    simpa using h.2 c hc
  rw [HistoryCache.strlen, ← hrest, List.append_assoc, List.findIdx?_append, hnone]
  simp [List.findIdx?_cons]

theorem holdsAt_iff_getElem? :
  HoldsAt text p s
    ↔ (∀ i (hi : i < (s ++ [0]).length), text[p + i]? = some (s ++ [0])[i]) ∧ ∀ c ∈ s, c ≠ 0
  := by
  rw [HoldsAt, List.prefix_iff_getElem?]
  simp only [List.getElem?_drop]

/-- A string is still there when its bytes are. -/
theorem HoldsAt.congr (h : HoldsAt text p s)
    (hsame : ∀ i, i < s.length + 1 → text'[b + i]? = text[p + i]?) :
  HoldsAt text' b s
  := by
  rw [holdsAt_iff_getElem?] at h ⊢
  refine ⟨fun i hi => ?_, h.2⟩
  rw [hsame i (by simpa using hi), h.1 i hi]

end Strings

/-- Strings stand in the text area one behind another from an address on. -/
def Laid (text : Bytes) : ℕ → List (ℕ × Bytes) → Prop
  | _, [] => True
  | a, (p, s) :: l => a ≤ p ∧ HoldsAt text p s ∧ Laid text (p + (s.length + 1)) l

/-- The bytes that strings take. -/
def bytesOf (strings : List Bytes) : ℕ := (strings.map fun s => s.length + 1).sum

/-- Strings without free space between them. -/
def packed : ℕ → List Bytes → List (ℕ × Bytes)
  | _, [] => []
  | a, s :: strings => (a, s) :: packed (a + (s.length + 1)) strings

section Laid

variable {text text' : Bytes} {a b : ℕ} {l l' : List (ℕ × Bytes)}

theorem Laid.mono (h : Laid text a l) (hle : b ≤ a) :
  Laid text b l
  := by
  cases l with
  | nil => trivial
  | cons x l => exact ⟨hle.trans h.1, h.2⟩

theorem Laid.congr (h : Laid text a l) (hsame : ∀ i, a ≤ i → text'[i]? = text[i]?) :
  Laid text' a l
  := by
  induction l generalizing a with
  | nil => trivial
  | cons x l ih =>
    obtain ⟨hle, hholds, hrest⟩ := h
    refine ⟨hle, hholds.congr fun i _ => hsame _ (by omega), ih hrest fun i hi => ?_⟩
    exact hsame i (by omega)

theorem Laid.stringAt (h : Laid text a l) :
  (l.map Prod.fst).map (stringAt text) = l.map Prod.snd
  := by
  induction l generalizing a with
  | nil => rfl
  | cons x l ih =>
    obtain ⟨-, hholds, hrest⟩ := h
    rw [List.map_cons, List.map_cons, List.map_cons, hholds.stringAt, ih hrest]

@[simp]
theorem map_snd_packed (a : ℕ) (strings : List Bytes) :
  (packed a strings).map Prod.snd = strings
  := by
  induction strings generalizing a with
  | nil => rfl
  | cons s strings ih => rw [packed, List.map_cons, ih]

theorem packed_append (a : ℕ) (strings strings' : List Bytes) :
  packed a (strings ++ strings') = packed a strings ++ packed (a + bytesOf strings) strings'
  := by
  induction strings generalizing a with
  | nil => rfl
  | cons s strings ih =>
    rw [List.cons_append, packed, packed, ih, List.cons_append]
    simp only [bytesOf, List.map_cons, List.sum_cons, Nat.add_assoc]

theorem laid_packed_append {strings : List Bytes} (h : Laid text a (packed a strings))
    (h' : Laid text (a + bytesOf strings) l) :
  Laid text a (packed a strings ++ l)
  := by
  induction strings generalizing a with
  | nil => exact h'
  | cons s strings ih =>
    obtain ⟨hle, hholds, hrest⟩ := h
    refine ⟨hle, hholds, ih hrest ?_⟩
    simpa [bytesOf, Nat.add_assoc] using h'

/-- Only text from an address on is written. -/
structure Moved (a : ℕ) (text text' : Bytes) : Prop where
  length : text'.length = text.length
  below : ∀ i < a, text'[i]? = text[i]?

theorem Moved.refl (a : ℕ) (text : Bytes) :
  Moved a text text
  := ⟨rfl, fun _ _ => rfl⟩

theorem Moved.trans {text₁ text₂ text₃ : Bytes} (h : Moved a text₁ text₂)
    (h' : Moved b text₂ text₃) (hle : a ≤ b) :
  Moved a text₁ text₃
  := ⟨h'.length.trans h.length, fun i hi => (h'.below i (hi.trans_le hle)).trans (h.below i hi)⟩

theorem Moved.laid_packed (hmoved : Moved b text text') {strings : List Bytes}
    (h : Laid text a (packed a strings)) (hle : a + bytesOf strings ≤ b) :
  Laid text' a (packed a strings)
  := by
  induction strings generalizing a with
  | nil => trivial
  | cons s strings ih =>
    obtain ⟨hstart, hholds, hrest⟩ := h
    simp only [bytesOf, List.map_cons, List.sum_cons] at hle
    refine ⟨hstart, hholds.congr fun i hi => hmoved.below _ (by omega), ih hrest ?_⟩
    simp only [bytesOf]
    omega

/-- A string is moved down to the end of those before it. -/
theorem moveText_spec {p lastText : ℕ} {s : Bytes} (h : Laid text a ((p, s) :: l))
    (hlast : lastText ≤ a) :
  ∃ text', moveText text lastText p = some (text', lastText + (s.length + 1), lastText)
    ∧ Moved lastText text text' ∧ HoldsAt text' lastText s
    ∧ Laid text' (lastText + (s.length + 1)) l
  := by
  obtain ⟨hle, hholds, hrest⟩ := h
  have hroom := hholds.le_length
  unfold moveText
  rw [hholds.strlen, Option.bind_some]
  dsimp only
  by_cases hsame : lastText = p
  · subst hsame
    rw [if_neg (not_not.mpr rfl)]
    exact ⟨text, rfl, .refl _ _, hholds, hrest⟩
  · rw [if_pos hsame]
    obtain ⟨text', hmove, hlength, hget⟩ := memmove_eq (l := text)
      (m := ⟨lastText, p, s.length + 1⟩) (by dsimp only; omega) hroom
    have houtside : ∀ i, ¬ (⟨lastText, p, s.length + 1⟩ : Move).writes i →
        text'[i]? = text[i]? := fun i hi => by rw [hget, if_neg hi]
    refine ⟨text', by rw [hmove, Option.map_some], ⟨hlength, fun i hi => ?_⟩, ?_, ?_⟩
    · exact houtside i fun hw => absurd hw.1 (by dsimp only; omega)
    · apply hholds.congr fun i hi => ?_
      rw [hget, if_pos ⟨Nat.le_add_right _ _, by dsimp only; omega⟩, Nat.add_sub_cancel_left]
    · apply Laid.mono (hrest.congr fun i hi => ?_) (show _ ≤ p + (s.length + 1) by omega)
      exact houtside i fun hw => absurd hw.2 (by dsimp only; omega)

end Laid

/-! ### Entries -/

/-- The addresses of the strings of an entry. -/
def History.pointers (entry : History) : List ℕ :=
  match entry.state, entry.valueType with
  | .notsupported, _ => [entry.valueOrig]
  | .normal, .str | .normal, .text => [entry.valueOrig]
  | .normal, .log => entry.valueOrig :: entry.value.toList
  | .normal, .float | .normal, .uint64 => []

/-- The strings of an entry. -/
def History.strings (text : Bytes) (entry : History) : List Bytes :=
  entry.pointers.map (stringAt text)

/-- Two entries that differ at most in the addresses of their strings. -/
structure SameEntry (entry entry' : History) : Prop where
  itemid : entry'.itemid = entry.itemid
  state : entry'.state = entry.state
  valueType : entry'.valueType = entry.valueType
  pointers : entry'.pointers.length = entry.pointers.length
  number : entry.pointers = [] → entry' = entry

theorem SameEntry.refl (entry : History) :
  SameEntry entry entry
  := ⟨rfl, rfl, rfl, rfl, fun _ => rfl⟩

/-- What moving the strings `l` of an entry does, when other strings come behind them. -/
def EntryMoved (text : Bytes) (lastText : ℕ) (entry : History) (l l' : List (ℕ × Bytes)) : Prop :=
  ∃ text' entry', vacuumEntry text lastText entry
      = some (text', lastText + bytesOf (l.map Prod.snd), entry')
    ∧ Moved lastText text text' ∧ SameEntry entry entry'
    ∧ entry'.pointers = (packed lastText (l.map Prod.snd)).map Prod.fst
    ∧ Laid text' lastText (packed lastText (l.map Prod.snd))
    ∧ Laid text' (lastText + bytesOf (l.map Prod.snd)) l'

section Entry

variable {text : Bytes} {a lastText : ℕ} {entry : History} {l l' : List (ℕ × Bytes)}

theorem map_fst_eq_singleton {p : ℕ} (hl : [p] = l.map Prod.fst) :
  ∃ s, l = [(p, s)]
  := by
  obtain ⟨⟨p', s⟩, rfl, rfl⟩ := List.map_eq_singleton_iff.mp hl.symm
  exact ⟨s, rfl⟩

theorem vacuumEntry_number (hvacuum : vacuumEntry text lastText entry = some (text, lastText, entry))
    (hpointers : entry.pointers = []) (h : Laid text a (l ++ l'))
    (hl : entry.pointers = l.map Prod.fst) (hlast : lastText ≤ a) :
  EntryMoved text lastText entry l l'
  := by
  obtain rfl : l = [] := List.map_eq_nil_iff.mp (hl.symm.trans hpointers)
  exact ⟨text, entry, hvacuum, .refl _ _, .refl _, hpointers, trivial, h.mono hlast⟩

theorem vacuumEntry_text (hvacuum : vacuumEntry text lastText entry
      = (moveText text lastText entry.valueOrig).map fun (text, lastText, valueOrig) =>
          (text, lastText, { entry with valueOrig }))
    (hpointers : ∀ valueOrig, ({ entry with valueOrig } : History).pointers = [valueOrig])
    (h : Laid text a (l ++ l')) (hl : entry.pointers = l.map Prod.fst) (hlast : lastText ≤ a) :
  EntryMoved text lastText entry l l'
  := by
  have horig : entry.pointers = [entry.valueOrig] := hpointers entry.valueOrig
  obtain ⟨s, rfl⟩ := map_fst_eq_singleton (horig.symm.trans hl)
  obtain ⟨text', hmove, hmoved, hholds, hrest⟩ := moveText_spec h hlast
  refine ⟨text', { entry with valueOrig := lastText }, ?_, hmoved, ?_, hpointers lastText,
    ⟨le_rfl, hholds, trivial⟩, hrest⟩
  · rw [hvacuum, hmove]
    rfl
  · refine ⟨rfl, rfl, rfl, ?_, fun hnil => ?_⟩
    · rw [hpointers, horig, List.length_singleton, List.length_singleton]
    · rw [horig] at hnil
      cases hnil

/-- A log value may have a source behind its text. -/
theorem vacuumEntry_log (hstate : entry.state = .normal) (htype : entry.valueType = .log)
    (h : Laid text a (l ++ l')) (hl : entry.pointers = l.map Prod.fst) (hlast : lastText ≤ a) :
  EntryMoved text lastText entry l l'
  := by
  have hpointers : ∀ valueOrig value, ({ entry with valueOrig, value } : History).pointers
      = valueOrig :: value.toList := by
    intro valueOrig value
    simp only [History.pointers, hstate, htype]
  have horig : entry.pointers = entry.valueOrig :: entry.value.toList := hpointers _ _
  obtain _ | ⟨⟨p, s⟩, rest⟩ := l
  · rw [horig] at hl
    cases hl
  rw [horig] at hl
  obtain ⟨rfl, hvalue⟩ := List.cons.inj hl
  obtain ⟨text₁, hmove₁, hmoved₁, hholds₁, hlaid₁⟩ := moveText_spec h hlast
  cases hsource : entry.value with
  | none =>
    rw [hsource] at hvalue
    obtain rfl : rest = [] := List.map_eq_nil_iff.mp hvalue.symm
    refine ⟨text₁, { entry with valueOrig := lastText }, ?_, hmoved₁, ?_, ?_,
      ⟨le_rfl, hholds₁, trivial⟩, hlaid₁⟩
    · simp only [vacuumEntry, hstate, htype, hmove₁, hsource]
      rfl
    · refine ⟨rfl, rfl, rfl, ?_, fun hnil => ?_⟩
      · rw [hpointers, horig, List.length_cons, List.length_cons]
      · rw [horig] at hnil
        cases hnil
    · rw [hpointers, hsource]
      rfl
  | some q =>
    rw [hsource] at hvalue
    obtain ⟨s', rfl⟩ := map_fst_eq_singleton hvalue
    obtain ⟨text₂, hmove₂, hmoved₂, hholds₂, hlaid₂⟩ := moveText_spec hlaid₁ le_rfl
    have hkept : HoldsAt text₂ lastText s :=
      hholds₁.congr fun i hi => hmoved₂.below _ (by omega)
    have hbytes : lastText + (s.length + 1) + (s'.length + 1) = lastText + bytesOf [s, s'] := by
      simp [bytesOf, Nat.add_assoc]
    refine ⟨text₂, { entry with
        valueOrig := lastText, value := some (lastText + (s.length + 1)) }, ?_,
      hmoved₁.trans hmoved₂ (Nat.le_add_right _ _), ?_, ?_,
      ⟨le_rfl, hkept, le_rfl, hholds₂, trivial⟩, hbytes ▸ hlaid₂⟩
    · simp only [vacuumEntry, hstate, htype, hmove₁, hsource, Option.map_some, Option.bind_some,
        hmove₂, hbytes]
      rfl
    · refine ⟨rfl, rfl, rfl, ?_, fun hnil => ?_⟩
      · rw [hpointers, horig, hsource]
        rfl
      · rw [horig] at hnil
        cases hnil
    · rw [hpointers]
      rfl

end Entry

/-- The strings of an entry are moved, and no others. -/
theorem vacuumEntry_spec {text : Bytes} {a lastText : ℕ} {entry : History}
    {l l' : List (ℕ × Bytes)} (h : Laid text a (l ++ l')) (hl : entry.pointers = l.map Prod.fst)
    (hlast : lastText ≤ a) :
  EntryMoved text lastText entry l l'
  := by
  cases hstate : entry.state with
  | notsupported =>
    refine vacuumEntry_text ?_ (fun _ => ?_) h hl hlast
    · simp only [vacuumEntry, hstate]
    · simp only [History.pointers, hstate]
  | normal =>
    cases htype : entry.valueType with
    | str =>
      refine vacuumEntry_text ?_ (fun _ => ?_) h hl hlast
      · simp only [vacuumEntry, hstate, htype]
      · simp only [History.pointers, hstate, htype]
    | text =>
      refine vacuumEntry_text ?_ (fun _ => ?_) h hl hlast
      · simp only [vacuumEntry, hstate, htype]
      · simp only [History.pointers, hstate, htype]
    | log => exact vacuumEntry_log hstate htype h hl hlast
    | float =>
      refine vacuumEntry_number ?_ ?_ h hl hlast
      · simp only [vacuumEntry, hstate, htype]
      · simp only [History.pointers, hstate, htype]
    | uint64 =>
      refine vacuumEntry_number ?_ ?_ h hl hlast
      · simp only [vacuumEntry, hstate, htype]
      · simp only [History.pointers, hstate, htype]

/-! ### The loop -/

/-- The loop goes through the ring and moves the strings of every entry. -/
theorem vacuumTextLoop_spec {n f first a : ℕ} {c : Cache} {before remaining free : List History}
    {l : List (ℕ × Bytes)} (hfirst : first < c.history.length)
    (hring : c.history.rotate first = before ++ (remaining ++ free)) (hn : remaining.length = n)
    (hf : n ≠ 0 → (if c.history.length = f then 0 else f)
      = ringSlot c.history.length first before.length)
    (hlaid : Laid c.text a l) (hl : remaining.flatMap History.pointers = l.map Prod.fst)
    (hlast : c.lastText ≤ a) :
  ∃ c' new, Cache.vacuumTextLoop n f c = some c'
    ∧ c'.history.rotate first = before ++ (new ++ free)
    ∧ c'.history.length = c.history.length
    ∧ List.Forall₂ SameEntry remaining new
    ∧ new.flatMap History.pointers = (packed c.lastText (l.map Prod.snd)).map Prod.fst
    ∧ Moved c.lastText c.text c'.text
    ∧ Laid c'.text c.lastText (packed c.lastText (l.map Prod.snd))
    ∧ c'.lastText = c.lastText + bytesOf (l.map Prod.snd)
    ∧ c' = { c with history := c'.history, text := c'.text, lastText := c'.lastText }
  := by
  induction n generalizing f a c before remaining l with
  | zero =>
    obtain rfl := List.eq_nil_of_length_eq_zero hn
    obtain rfl : l = [] := List.map_eq_nil_iff.mp hl.symm
    exact ⟨c, [], rfl, hring, rfl, .nil, rfl, .refl _ _, trivial, rfl, rfl⟩
  | succ n ih =>
    obtain _ | ⟨entry, remaining⟩ := remaining
    · cases hn
    have hlength : before.length + (remaining.length + 1) ≤ c.history.length := by
      rw [← List.length_rotate (l := c.history) (n := first), hring]
      simp only [List.length_append, List.length_cons]
      omega
    have hentry : c.history[ringSlot c.history.length first before.length]? = some entry := by
      rw [← getElem?_ring hfirst (by omega), hring, List.getElem?_append_right le_rfl,
        Nat.sub_self]
      rfl
    rw [List.flatMap_cons] at hl
    obtain ⟨l₁, l₂, rfl, hl₁, hl₂⟩ := List.append_eq_map_iff.mp hl
    obtain ⟨text₁, entry', hvacuum, hmoved₁, hsame, hpointers, hpacked₁, hlaid₁⟩ :=
      vacuumEntry_spec hlaid hl₁.symm hlast
    have hset : (c.history.set (ringSlot c.history.length first before.length) entry').rotate first
        = (before ++ [entry']) ++ (remaining ++ free) := by
      rw [rotate_set hfirst (by omega), hring, List.set_append_right _ _ le_rfl, Nat.sub_self]
      simp
    obtain ⟨c', new, hloop, hring', hlength', hnew, hflat, hmoved, hpacked, hlast', hc'⟩ :=
      ih (c := { c with
            history := c.history.set (ringSlot c.history.length first before.length) entry'
            text := text₁
            lastText := c.lastText + bytesOf (l₁.map Prod.snd) })
        (f := ringSlot c.history.length first before.length + 1)
        (by simpa using hfirst) hset (by simpa using hn)
        (fun hne => by
          simp only [List.length_set, List.length_append, List.length_singleton]
          exact ringSlot_succ hfirst (by simp at hn; omega))
        hlaid₁ hl₂.symm le_rfl
    refine ⟨c', entry' :: new, ?_, ?_, ?_, .cons hsame hnew, ?_, ?_, ?_, ?_, ?_⟩
    · rw [Cache.vacuumTextLoop]
      dsimp only
      rw [hf (Nat.succ_ne_zero n), hentry, Option.bind_some, hvacuum, Option.bind_some]
      exact hloop
    · rw [hring']
      simp
    · simpa using hlength'
    · rw [List.flatMap_cons, hpointers, hflat, List.map_append, packed_append, List.map_append]
    · exact hmoved₁.trans hmoved (Nat.le_add_right _ _)
    · rw [List.map_append, packed_append]
      exact laid_packed_append (hmoved.laid_packed hpacked₁ le_rfl) hpacked
    · rw [hlast', List.map_append, bytesOf, bytesOf, bytesOf, List.map_append, List.sum_append,
        Nat.add_assoc]
    · exact hc'

/-! ### The whole area -/

/-- Entries whose strings are the same, one by one. -/
theorem forall₂_strings {entries entries' : List History}
    (h : List.Forall₂ SameEntry entries entries') {text text' : Bytes}
    (hflat : (entries'.flatMap History.pointers).map (stringAt text')
      = (entries.flatMap History.pointers).map (stringAt text)) :
  entries'.map (fun entry => (entry.itemid, entry.strings text'))
    = entries.map (fun entry => (entry.itemid, entry.strings text))
  := by
  induction h with
  | nil => rfl
  | cons hsame _ ih =>
    rw [List.flatMap_cons, List.flatMap_cons, List.map_append, List.map_append] at hflat
    obtain ⟨hhead, htail⟩ := List.append_inj hflat (by simpa using hsame.pointers)
    rw [List.map_cons, List.map_cons, ih htail, hsame.itemid, History.strings, hhead]
    rfl

namespace Cache

variable {c : Cache}

/-- The strings of the entries that are not emptied. -/
def liveStrings (c : Cache) : List Bytes := c.live.flatMap (History.strings c.text)

/-- The strings of the ring stand in the text area in the order of their entries, and the bytes
that those of entries that are not emptied do not take are counted as free. -/
structure TextArea (c : Cache) : Prop where
  ordered : ∃ l, c.entries.flatMap History.pointers = l.map Prod.fst ∧ Laid c.text 0 l
  free : c.textFree + bytesOf c.liveStrings = c.text.length

/-- No emptied entry has a string. -/
def EmptiedWithoutText (c : Cache) : Prop :=
  ∀ entry ∈ c.entries, entry.itemid = 0 → entry.pointers = []

instance (c : Cache) : Decidable c.EmptiedWithoutText :=
  inferInstanceAs (Decidable (∀ entry ∈ c.entries, entry.itemid = 0 → entry.pointers = []))

theorem liveStrings_eq (c : Cache) :
  c.liveStrings
    = ((c.entries.map fun entry => (entry.itemid, entry.strings c.text)).filter
        fun x => x.1 ≠ 0).flatMap Prod.snd
  := by
  rw [List.filter_map, List.flatMap_map]
  rfl

/-- When emptied entries have no strings, the strings of the others are all strings. -/
theorem live_pointers (h : c.EmptiedWithoutText) :
  c.live.flatMap History.pointers = c.entries.flatMap History.pointers
  := by
  unfold EmptiedWithoutText at h
  unfold live
  generalize c.entries = entries at h ⊢
  induction entries with
  | nil => rfl
  | cons entry entries ih =>
    obtain ⟨hentry, hrest⟩ := List.forall_mem_cons.mp h
    rw [List.flatMap_cons, ← ih hrest]
    by_cases hempty : entry.itemid = 0
    · rw [List.filter_cons_of_neg (by simpa using hempty), hentry hempty, List.nil_append]
    · rw [List.filter_cons_of_pos (by simpa using hempty), List.flatMap_cons]

theorem strings_flatMap (text : Bytes) (entries : List History) :
  entries.flatMap (History.strings text)
    = (entries.flatMap History.pointers).map (stringAt text)
  := by
  rw [List.map_flatMap]
  rfl

/-- What the loop does with the whole ring. -/
theorem vacuumTextLoop_ring (hc : c.Ring) {l : List (ℕ × Bytes)}
    (hl : c.entries.flatMap History.pointers = l.map Prod.fst) (hlaid : Laid c.text 0 l) :
  ∃ c', vacuumTextLoop c.historyNum c.historyFirst { c with lastText := 0 } = some c'
    ∧ c'.history.length = c.history.length ∧ c'.text.length = c.text.length
    ∧ List.Forall₂ SameEntry c.entries c'.entries
    ∧ c'.entries.flatMap History.pointers = (packed 0 (l.map Prod.snd)).map Prod.fst
    ∧ Laid c'.text 0 (packed 0 (l.map Prod.snd))
    ∧ c'.lastText = bytesOf (l.map Prod.snd)
    ∧ c' = { c with history := c'.history, text := c'.text, lastText := c'.lastText }
  := by
  have hnum := length_entries hc
  have hring : c.history.rotate c.historyFirst
      = [] ++ (c.entries ++ (c.history.rotate c.historyFirst).drop c.historyNum) :=
    (List.take_append_drop _ _).symm
  obtain ⟨c', new, hloop, hring', hlength, hnew, hflat, hmoved, hpacked, hlast, hc'⟩ :=
    vacuumTextLoop_spec (c := { c with lastText := 0 }) (f := c.historyFirst) hc.first hring hnum
      (fun _ => by
        have hfirst := hc.first
        unfold ringSlot
        dsimp only [List.length_nil]
        split_ifs <;> omega)
      hlaid hl le_rfl
  have hentries : c'.entries = new := by
    have hfields : c'.historyFirst = c.historyFirst ∧ c'.historyNum = c.historyNum := by
      rw [hc']
      exact ⟨rfl, rfl⟩
    rw [entries, hfields.1, hfields.2, hring', List.nil_append,
      List.take_left' (hnew.length_eq.symm.trans hnum)]
  rw [← hentries] at hnew hflat
  exact ⟨c', hloop, hlength, hmoved.length, hnew, hflat, hpacked, by simpa using hlast, hc'⟩

theorem countP_same {entries entries' : List History}
    (h : List.Forall₂ SameEntry entries entries') :
  entries'.countP (·.itemid = 0) = entries.countP (·.itemid = 0)
  := by
  induction h with
  | nil => rfl
  | cons hentry _ ih => rw [List.countP_cons, List.countP_cons, ih, hentry.itemid]

theorem forall_emptied_same {entries entries' : List History}
    (h : List.Forall₂ SameEntry entries entries')
    (hempty : ∀ entry ∈ entries, entry.itemid = 0 → entry.pointers = []) :
  ∀ entry ∈ entries', entry.itemid = 0 → entry.pointers = []
  := by
  induction h with
  | nil => nofun
  | cons hentry _ ih =>
    obtain ⟨hfirst, hrest⟩ := List.forall_mem_cons.mp hempty
    refine List.forall_mem_cons.mpr ⟨fun hitemid => ?_, ih hrest⟩
    apply List.eq_nil_of_length_eq_zero
    rw [hentry.pointers, hfirst (hentry.itemid.symm.trans hitemid), List.length_nil]

theorem Ring.of_same {c' : Cache} (hc : c.Ring) (hlength : c'.history.length = c.history.length)
    (hfirst : c'.historyFirst = c.historyFirst) (hnum : c'.historyNum = c.historyNum)
    (hgap : c'.historyGapNum = c.historyGapNum)
    (hsame : List.Forall₂ SameEntry c.entries c'.entries) :
  c'.Ring
  where
  first := by
    rw [hfirst, hlength]
    exact hc.first
  num := by
    rw [hnum, hlength]
    exact hc.num
  gaps := by rw [hgap, hc.gaps, countP_same hsame]

/-- Compacting the text area keeps all strings, in their order; when no emptied entry has a
string, those of the others then stand without free space from the beginning of the area to
`last_text`. It is only done when more than a 1024th of the area is free. -/
theorem vacuumText_correct (c : Cache) (hc : c.Ring) (htext : c.TextArea) :
  ∃ c', c.vacuumText = some c' ∧ c'.Ring ∧ c'.TextArea
    ∧ List.Forall₂ SameEntry c.entries c'.entries
    ∧ c'.entries.map (fun entry => (entry.itemid, entry.strings c'.text))
      = c.entries.map (fun entry => (entry.itemid, entry.strings c.text))
    ∧ (c.text.length / 1024 < c.textFree → c.EmptiedWithoutText →
        c'.live.flatMap History.pointers = (packed 0 c'.liveStrings).map Prod.fst
          ∧ c'.lastText = bytesOf c'.liveStrings ∧ c'.textFree + c'.lastText = c'.text.length)
    ∧ (c.textFree ≤ c.text.length / 1024 → c' = c)
  := by
  unfold vacuumText
  by_cases hguard : c.textFree ≤ c.text.length / 1024
  · rw [if_pos hguard]
    exact ⟨c, rfl, hc, htext, List.forall₂_same.mpr fun entry _ => .refl entry, rfl,
      fun h => absurd hguard (Int.not_le.mpr h), fun _ => rfl⟩
  rw [if_neg hguard]
  obtain ⟨l, hl, hlaid⟩ := htext.ordered
  obtain ⟨c', hloop, hlength, htextLength, hsame, hflat, hpacked, hlast, hc'⟩ :=
    vacuumTextLoop_ring hc hl hlaid
  have hfields : c'.historyFirst = c.historyFirst ∧ c'.historyNum = c.historyNum
      ∧ c'.historyGapNum = c.historyGapNum ∧ c'.textFree = c.textFree := by
    rw [hc']
    exact ⟨rfl, rfl, rfl, rfl⟩
  obtain ⟨hfirst, hnum, hgap, hfree⟩ := hfields
  have hstrings : (c'.entries.flatMap History.pointers).map (stringAt c'.text)
      = l.map Prod.snd := by
    rw [hflat, hpacked.stringAt, map_snd_packed]
  have hsameStrings : (c'.entries.flatMap History.pointers).map (stringAt c'.text)
      = (c.entries.flatMap History.pointers).map (stringAt c.text) := by
    rw [hstrings, hl, hlaid.stringAt]
  have hkept := forall₂_strings hsame hsameStrings
  have hlive : c'.liveStrings = c.liveStrings := by
    rw [liveStrings_eq, liveStrings_eq, hkept]
  have harea : c'.textFree + bytesOf c'.liveStrings = c'.text.length := by
    rw [hfree, hlive, htextLength]
    exact htext.free
  refine ⟨c', hloop, hc.of_same hlength hfirst hnum hgap hsame, ⟨⟨_, hflat, hpacked⟩, harea⟩, hsame,
    hkept, fun _ hempty => ?_, fun h => absurd h hguard⟩
  have hempty' : c'.EmptiedWithoutText := forall_emptied_same hsame hempty
  have hall : c'.liveStrings = l.map Prod.snd := by
    rw [liveStrings, strings_flatMap, live_pointers hempty', hstrings]
  rw [live_pointers hempty', hall]
  refine ⟨hflat, hlast, ?_⟩
  rw [hlast, ← hall]
  exact harea

/-- A log value with its source, an emptied slot and an error, in a ring that goes past the end
of the array. -/
def sampleArea : Cache :=
  ⟨[⟨0, 7, none, .uint64, .normal⟩, ⟨2, 7, none, .float, .notsupported⟩, emptied,
      ⟨1, 2, some 4, .log, .normal⟩], 3, 3, 1, [9, 9, 108, 0, 115, 0, 9, 101, 0, 9], 9, 4⟩

theorem vacuumText_sample :
  ∃ c', sampleArea.vacuumText = some c'
    ∧ c'.entries.map (fun entry => (entry.itemid, entry.strings c'.text))
      = [(1, [[108], [115]]), (0, []), (2, [[101]])]
    ∧ c'.lastText = bytesOf c'.liveStrings
  := by
  have harea : sampleArea.TextArea := by
    refine ⟨⟨[(2, [108]), (4, [115]), (7, [101])], by decide, ?_⟩, by decide⟩
    exact ⟨by decide, ⟨by decide, by simp⟩, by decide, ⟨by decide, by simp⟩, by decide,
      ⟨by decide, by simp⟩, trivial⟩
  obtain ⟨c', hrun, -, -, -, hkept, hpacked, -⟩ :=
    vacuumText_correct sampleArea ⟨by decide, by decide, by decide⟩ harea
  refine ⟨c', hrun, hkept.trans (by decide), ?_⟩
  exact (hpacked (by decide) (by decide)).2.1

/-- A text area of 1024 bytes of which only the first one is free. -/
def fullArea : Cache :=
  ⟨[⟨1, 1, none, .text, .normal⟩], 0, 1, 0, 0 :: (List.replicate 1022 97 ++ [0]), 1024, 1⟩

/-- The second of three entries is emptied, its string is still there. -/
def spottedArea : Cache :=
  ⟨[⟨1, 0, none, .str, .normal⟩, ⟨0, 2, none, .str, .normal⟩, ⟨2, 4, none, .str, .normal⟩], 0, 3, 1,
    [120, 0, 121, 0, 122, 0, 0, 0], 6, 4⟩

theorem fullArea_holdsAt :
  HoldsAt fullArea.text 1 (List.replicate 1022 97)
  := by
  refine ⟨List.prefix_refl _, fun c hc => ?_⟩
  rw [List.eq_of_mem_replicate hc]
  decide

theorem fullArea_length :
  fullArea.text.length = 1024
  := by
  simp only [fullArea, List.length_cons, List.length_append, List.length_replicate,
    List.length_nil]

/-- When too little is free, the free byte stays; the string of an emptied entry stays between
those of the others. -/
theorem vacuumText_leaves_space :
  (fullArea.Ring ∧ fullArea.TextArea ∧ fullArea.vacuumText = some fullArea
    ∧ fullArea.live.flatMap History.pointers
      ≠ (packed 0 fullArea.liveStrings).map Prod.fst)
  ∧ spottedArea.Ring ∧ spottedArea.TextArea ∧ spottedArea.vacuumText = some spottedArea
    ∧ spottedArea.live.flatMap History.pointers
      ≠ (packed 0 spottedArea.liveStrings).map Prod.fst
    ∧ spottedArea.lastText ≠ bytesOf spottedArea.liveStrings
  := by
  have hlive : fullArea.liveStrings = [List.replicate 1022 97] := by
    rw [← fullArea_holdsAt.stringAt]
    rfl
  refine ⟨⟨⟨by decide, by decide, by decide⟩, ⟨⟨[(1, List.replicate 1022 97)], rfl, ?_⟩, ?_⟩, ?_, ?_⟩,
    ⟨by decide, by decide, by decide⟩, ?_, by decide, by decide, by decide⟩
  · exact ⟨Nat.zero_le _, fullArea_holdsAt, trivial⟩
  · rw [hlive, fullArea_length, bytesOf, List.map_singleton, List.length_replicate]
    rfl
  · refine if_pos ?_
    rw [fullArea_length]
    decide
  · rw [hlive]
    exact fun h => absurd (List.cons.inj h).1 (by decide)
  · refine ⟨⟨[(0, [120]), (2, [121]), (4, [122])], by decide, ?_⟩, by decide⟩
    exact ⟨by decide, ⟨by decide, by simp⟩, by decide, ⟨by decide, by simp⟩, by decide,
      ⟨by decide, by simp⟩, trivial⟩

end Cache

end HistoryCache