import Zabbix.Json.WriterAccepted

/-!
# Reading what was written

What it means that the readers give back a value. They give back everything that was
written exactly when no name and no string contains the byte 127, no name is too long for
the buffer of `zbx_json_pair_by_name`, and all numbers are integers.
-/

open Ascii

namespace Json

/-! ### What the readers give -/

/-- What leads to a value, to elements or to members: a pointer, pointers to the elements,
or the names with pointers to the values. -/
def Pointers : Kind → Type
  | .value => Bytes
  | .elements => List Bytes
  | .members => List (Bytes × Bytes)

/-- The decoding functions give the bytes, with every buffer that is large enough. -/
def DecodesTo (p s : Bytes) : Prop :=
  ∃ rest, (∀ len, s.length < len → decodeValue p len = some ⟨s, false, rest⟩) ∧
    ∀ alloc, ∃ alloc', decodeValueDyn p alloc = some (s, alloc', rest)

/-- The readers give the value: scalars are decoded; of arrays and objects the brackets are
found, the elements are enumerated and counted, and the pairs are enumerated and found by
their names. -/
def Content.Reads : {kind : Kind} → Content kind → Pointers kind → Prop
  | _, null, p => ∃ rest, ∀ len, decodeValue p (len + 1) = some ⟨[], true, rest⟩
  | _, string s, p => DecodesTo p s
  | _, number raw, p => DecodesTo p raw
  | _, emptyArray, p => ∃ jp, zbxJsonBracketsOpen p = some jp ∧ zbxJsonNext jp none = none ∧
      zbxJsonCount jp = 0
  | _, array es, p => ∃ jp ps, zbxJsonBracketsOpen p = some jp ∧
      Enumerates (zbxJsonNext jp) id none ps ∧ zbxJsonCount jp = ps.length ∧ es.Reads ps
  | _, emptyObject, p => ∃ jp, zbxJsonBracketsOpen p = some jp ∧ zbxJsonNext jp none = none ∧
      ∀ name, zbxJsonPairByName jp name = none
  | _, object ms, p => ∃ jp pairs, zbxJsonBracketsOpen p = some jp ∧
      Enumerates (fun p => zbxJsonPairNext jp p maxStringLen) Prod.snd none pairs ∧
      (∀ name, zbxJsonPairByName jp name =
        (pairs.find? fun pair => pair.1 = name).map Prod.snd) ∧ ms.Reads pairs
  | _, element v, ps => ∃ p, ps = [p] ∧ v.Reads p
  | _, moreElements v rest, ps => ∃ p ps', ps = p :: ps' ∧ v.Reads p ∧ rest.Reads ps'
  | _, member name v, pairs => ∃ p, pairs = [(name, p)] ∧ v.Reads p
  | _, moreMembers name v rest, pairs =>
    ∃ p pairs', pairs = (name, p) :: pairs' ∧ v.Reads p ∧ rest.Reads pairs'

/-- No name and no string contains the byte 127, no name is longer than the buffer of
`zbx_json_pair_by_name`, and the numbers are integers. -/
def readable : Content.Check where
  name := fun s => delete ∉ s ∧ s.length < maxStringLen
  string := fun s => delete ∉ s
  number := IsInteger

/-- No name and no string contains a zero byte. -/
def nulFree : Content.Check where
  name := fun s => 0 ∉ s
  string := fun s => 0 ∉ s
  number := fun _ => True

/-! ### Enumerations -/

section

variable {α β : Type} {next : Option β → Option α} {pointer : α → β}

/-- There is one enumeration from a pointer on. -/
theorem Enumerates.unique {p : Option β} {as as' : List α} (h : Enumerates next pointer p as)
    (h' : Enumerates next pointer p as') :
  as = as'
  := by
  induction as generalizing p as' with
  | nil =>
    cases as' with
    | nil => rfl
    | cons a' as' =>
      have hnone : next p = none := h
      rw [h'.1] at hnone
      cases hnone
  | cons a as ih =>
    cases as' with
    | nil =>
      have hnone : next p = none := h'
      rw [h.1] at hnone
      cases hnone
    | cons a' as' =>
      have hhead : a = a' := Option.some.inj (h.1.symm.trans h'.1)
      subst hhead
      rw [ih h.2 h'.2]

/-- What holds of everything that is given holds of what is enumerated. -/
theorem Enumerates.forall {holds : α → Prop} (hnext : ∀ p a, next p = some a → holds a)
    {p : Option β} {as : List α} (h : Enumerates next pointer p as) :
  ∀ a ∈ as, holds a
  := by
  induction as generalizing p with
  | nil => exact fun a ha => nomatch ha
  | cons a as ih =>
    rw [List.forall_mem_cons]
    exact ⟨hnext p a h.1, ih h.2⟩

end

variable {jp : JsonParse}

/-- No more is written than fits into the buffer. -/
theorem length_decodeLoop_le {len : ℕ} {out p string rest : Bytes} (hout : out.length ≤ len - 1)
    (h : decodeLoop len out p = some (string, rest)) :
  string.length ≤ len - 1
  := by
  induction hn : p.length using Nat.strong_induction_on generalizing out p with
  | _ n ih =>
    cases p with
    | nil => cases h
    | cons c p =>
      have hgo : ∀ {out' p' : Bytes}, out'.length ≤ len - 1 → p'.length < n →
          decodeLoop len out' p' = some (string, rest) → string.length ≤ len - 1 :=
        fun hout' hlt h' => ih _ hlt hout' h' rfl
      have hlt : p.length < n := by
        rw [← hn, List.length_cons]
        exact Nat.lt_succ_self _
      have hite : ∀ {q : Prop} [Decidable q] {a b : Option (Bytes × Bytes)},
          (a = some (string, rest) → string.length ≤ len - 1) →
          (b = some (string, rest) → string.length ≤ len - 1) →
          (if q then a else b) = some (string, rest) → string.length ≤ len - 1 := by
        intro q _ a b ha hb h
        split at h
        · exact ha h
        · exact hb h
      rw [decodeLoop_cons] at h
      by_cases hquote : c = quote
      · rw [if_pos hquote] at h
        cases h
        exact hout
      rw [if_neg hquote] at h
      by_cases hroom : out.length < len - 1
      · rw [if_pos hroom] at h
        have hmore : ∀ b : UInt8, (out ++ [b]).length ≤ len - 1 := by
          intro b
          rw [List.length_append, List.length_singleton]
          omega
        refine hite (fun h => ?_) (fun h => hgo (hmore _) hlt h) h
        cases p with
        | nil => cases h
        | cons e rest' =>
          have hlt' : rest'.length < n := by
            rw [List.length_cons] at hlt
            omega
          -- the characters behind a backslash, up to the letter `u`
          refine hite (fun h => hgo (hmore _) hlt' h) (fun h => ?_) h
          refine hite (fun h => hgo (hmore _) hlt' h) (fun h => ?_) h
          refine hite (fun h => hgo (hmore _) hlt' h) (fun h => ?_) h
          refine hite (fun h => hgo (hmore _) hlt' h) (fun h => ?_) h
          refine hite (fun h => hgo (hmore _) hlt' h) (fun h => ?_) h
          refine hite (fun h => hgo (hmore _) hlt' h) (fun h => ?_) h
          refine hite (fun h => ?_) (fun h => hgo hout hlt' h) h
          split at h
          · rename_i h3 h4 rest''
            refine hgo (hmore _) ?_ h
            simp only [List.length_cons] at hlt'
            omega
          · cases h
      · rw [if_neg hroom] at h
        exact hgo hout hlt h

theorem length_pairNext_lt {p : Option Bytes} {pair : Bytes × Bytes} {len : ℕ} (hlen : 0 < len)
    (h : zbxJsonPairNext jp p len = some pair) :
  pair.1.length < len
  := by
  simp only [zbxJsonPairNext, Option.bind_eq_bind, Option.bind_eq_some_iff] at h
  obtain ⟨q, -, h⟩ := h
  split at h
  · obtain ⟨⟨name, rest⟩, hdecode, h⟩ := Option.bind_eq_some_iff.mp h
    split at h
    · cases h
      rw [decodeString] at hdecode
      split at hdecode
      · have hle := length_decodeLoop_le (Nat.zero_le _) hdecode
        change name.length < len
        omega
      · cases hdecode
    · cases h
  · cases h

/-- The first pair with the name is found. -/
theorem pairByNameLoop_eq {name : Bytes} {rounds : ℕ} {p : Option Bytes}
    {pairs : List (Bytes × Bytes)}
    (h : Enumerates (fun p => zbxJsonPairNext jp p maxStringLen) Prod.snd p pairs)
    (hnul : ∀ pair ∈ pairs, 0 ∉ pair.1) (hrounds : pairs.length < rounds) :
  pairByNameLoop jp name rounds p = (pairs.find? fun pair => pair.1 = name).map Prod.snd
  := by
  induction rounds generalizing p pairs with
  | zero => exact absurd hrounds (Nat.not_lt_zero _)
  | succ rounds ih =>
    cases pairs with
    | nil =>
      have hnone : zbxJsonPairNext jp p maxStringLen = none := h
      rw [pairByNameLoop, hnone]
      rfl
    | cons pair pairs =>
      obtain ⟨hnext, hrest⟩ := h
      have hnext' : zbxJsonPairNext jp p maxStringLen = some pair := hnext
      have hname : cString pair.1 = pair.1 := by
        rw [cString, List.takeWhile_eq_self_iff]
        intro c hc
        have hne : c ≠ 0 := by
          rintro rfl
          exact hnul pair List.mem_cons_self hc
        simpa using hne
      rw [pairByNameLoop, hnext']
      change (if cString pair.1 = name then _ else _) = _
      rw [hname, List.find?_cons]
      by_cases heq : pair.1 = name
      · simp [heq]
      · simp only [heq, if_false, decide_false]
        exact ih hrest (fun q hq => hnul q (List.mem_cons_of_mem _ hq))
          (Nat.lt_of_succ_lt_succ hrounds)

/-! ### Strings -/

theorem decoded_escapeUnit (c : UInt8) :
  (escapeUnit c).decoded = c
  := by
  rw [escapeUnit]
  split_ifs with hself hb hf hn hr ht hcontrol
  · obtain rfl | rfl | rfl := hself <;> rfl
  · rw [hb]
    rfl
  · rw [hf]
    rfl
  · rw [hn]
    rfl
  · rw [hr]
    rfl
  · rw [ht]
    rfl
  · have hbytes : ∀ n < 32, (StringUnit.unicode '0'.toUInt8 '0'.toUInt8
        (num2hex (UInt8.ofNat n >>> 4 &&& 0xf)) (num2hex (UInt8.ofNat n &&& 0xf))).decoded =
          UInt8.ofNat n := by
      decide +kernel
    have hunit := hbytes c.toNat hcontrol
    rwa [UInt8.ofNat_toNat] at hunit
  · rfl

theorem decodedUnits_units (s : Bytes) :
  decodedUnits (units s) = s
  := by
  rw [decodedUnits, units, List.map_map]
  conv_rhs => rw [← List.map_id s]
  apply List.map_congr_left
  intro c _
  exact decoded_escapeUnit c

/-- A string is read back. -/
theorem decodesTo_string (s rest : Bytes) :
  DecodesTo (stringText (units s) ++ rest) s
  := by
  have hlength : (units s).length = s.length := List.length_map ..
  have htype := jsonType_string (units s) rest
  have hdecode : ∀ len, s.length < len →
      decodeString (stringText (units s) ++ rest) len = some (s, rest) := by
    intro len hlen
    rw [decodeString_eq (units_valid s) (fits_of_length_le (by omega)), decodedUnits_units,
      List.take_of_length_le (by omega)]
  refine ⟨rest, ?_, ?_⟩
  · intro len hlen
    simp [decodeValue, htype, hdecode len hlen]
  · intro alloc
    obtain ⟨more, hmore⟩ := stringSizeLoop_units (units_valid s) 0 rest
    have hsize : valueSize (stringText (units s) ++ rest) .string =
        some (0 + (units s).length + more) := by
      rw [stringText_append, valueSize, List.head?_cons, if_pos rfl, List.tail_cons, hmore]
    simp only [decodeValueDyn, htype, hsize]
    refine ⟨if alloc ≤ 0 + (units s).length + more then 0 + (units s).length + more + 1
      else alloc, ?_⟩
    rw [hdecode]
    · rfl
    · split <;> omega

/-- A number is read back exactly when it is an integer. -/
theorem decodesTo_number_iff {raw rest : Bytes} (h : validated.number raw) (hrest : GoesOn rest) :
  DecodesTo (raw ++ rest) raw ↔ IsInteger raw
  := by
  have hcopied := numberCopied_iff h hrest
  constructor
  · rintro ⟨rest', hfixed, -⟩
    have htype := jsonType_number h rest
    have hcopy := hfixed (raw.length + 1) (by omega)
    simp only [decodeValue, htype] at hcopy
    obtain ⟨⟨string, tail⟩, hdecode, heq⟩ := Option.map_eq_some_iff.mp hcopy
    obtain rfl : string = raw := congrArg Decoded.string heq
    exact decodeIntLoop_isInteger (by intro c hc; cases hc) hdecode
  · intro hint
    obtain ⟨hfixed, hdyn⟩ := hcopied.mpr hint
    exact ⟨rest, hfixed, hdyn⟩

/-! ### Values -/

/-- What is read of a value, of elements or of members is what was added, exactly when it is
readable. -/
def ReadsExactly : (kind : Kind) → Content kind → Prop
  | .value, c => ∀ (level : ℕ) (rest : Bytes), (c.tree level).Valid validated →
      c.All nulFree → (GoesOn rest ∨ (c.tree level).IsObject) →
        (c.Reads ((c.tree level).text ++ rest : Bytes) ↔ c.All readable)
  | .elements, es => ∀ (level : ℕ) (after : Bytes), (es.tree level).Valid validated →
      es.All nulFree → GoesOn after →
        (es.Reads ((es.tree level).items after : List Bytes) ↔ es.All readable)
  | .members, ms => ∀ (level : ℕ) (after : Bytes), (ms.tree level).Valid validated →
      ms.All nulFree → GoesOn after →
        (ms.Reads (((ms.tree level).pairs after).map (readPair maxStringLen) :
          List (Bytes × Bytes)) ↔ ms.All readable)

/-- The names of members, or of an object. -/
def Content.memberNames : {kind : Kind} → Content kind → List Bytes
  | _, object ms => ms.memberNames
  | _, member name _ => [name]
  | _, moreMembers name _ rest => name :: rest.memberNames
  | _, _ => []

theorem names_tree {kind : Kind} (c : Content kind) (level : ℕ) :
  (c.tree level).names = c.memberNames.map units
  := by
  induction c generalizing level with
  | object ms ih => exact ih (level + 1)
  | moreMembers name v rest ihv ihrest =>
    change units name :: (rest.tree level).names = units name :: rest.memberNames.map units
    rw [ihrest]
  | null => rfl
  | string => rfl
  | number => rfl
  | emptyArray => rfl
  | array => rfl
  | emptyObject => rfl
  | element => rfl
  | moreElements => rfl
  | member => rfl

theorem names_of_all {check : Content.Check} {kind : Kind} {c : Content kind}
    (h : c.All check) :
  ∀ name ∈ c.memberNames, check.name name
  := by
  induction c with
  | object ms ih => exact ih h
  | member name v ih => exact List.forall_mem_singleton.mpr h.1
  | moreMembers name v rest ihv ihrest =>
    exact List.forall_mem_cons.mpr ⟨h.1, ihrest h.2.2⟩
  | null => exact fun _ hname => nomatch hname
  | string => exact fun _ hname => nomatch hname
  | number => exact fun _ hname => nomatch hname
  | emptyArray => exact fun _ hname => nomatch hname
  | array => exact fun _ hname => nomatch hname
  | emptyObject => exact fun _ hname => nomatch hname
  | element => exact fun _ hname => nomatch hname
  | moreElements => exact fun _ hname => nomatch hname

/-- The names that are read are those of the members. -/
theorem names_of_reads : ∀ {ms : Content .members} {pairs : List (Bytes × Bytes)},
    ms.Reads pairs → pairs.map Prod.fst = ms.memberNames
  | .member name v, _, ⟨p, hpairs, _⟩ => by
    rw [hpairs]
    rfl
  | .moreMembers name v rest, _, ⟨p, pairs', hpairs, _, hrest⟩ => by
    rw [hpairs, List.map_cons, names_of_reads hrest]
    rfl

/-- The names in the pairs that are expected fit into the buffer, when they are short. -/
theorem fits_names {ms : Content .members} {level : ℕ}
    (h : ∀ name ∈ ms.memberNames, name.length < maxStringLen) :
  ∀ name ∈ (Tree.object (ms.tree level)).names, Fits (maxStringLen - 1) name
  := by
  intro name hname
  change name ∈ (ms.tree level).names at hname
  rw [names_tree] at hname
  obtain ⟨s, hs, rfl⟩ := List.mem_map.mp hname
  apply fits_of_length_le
  have hlength : (units s).length = s.length := List.length_map ..
  have hlt := h s hs
  omega

/-- The name that is read is the one that was added exactly when it is short. -/
theorem readPair_eq_iff (name p : Bytes) :
  readPair maxStringLen (units name, p) = (name, p) ↔ name.length < maxStringLen
  := by
  simp only [readPair, decodedUnits_units, Prod.mk.injEq, and_true]
  constructor
  · intro htake
    have hlength := congrArg List.length htake
    rw [List.length_take, maxStringLen] at hlength
    rw [maxStringLen]
    omega
  · intro hlt
    exact List.take_of_length_le (Nat.le_sub_one_of_lt hlt)

/-- There are no more pairs than bytes. -/
theorem length_pairs_le {kind : Kind} {t : Tree kind} (after : Bytes) :
  (t.pairs after).length ≤ t.text.length
  := by
  induction t generalizing after with
  | object ms ih =>
    have hms := ih (rightBrace :: after)
    simp only [Tree.pairs, Tree.text, List.length_cons, List.length_append]
    omega
  | member before name ws1 ws2 v ws ih =>
    simp only [Tree.pairs, Tree.text, stringText, List.length_cons, List.length_append,
      List.length_nil]
    omega
  | moreMembers before name ws1 ws2 v ws ms ihv ihms =>
    have hms := ihms after
    simp only [Tree.pairs, Tree.text, stringText, List.length_cons, List.length_append]
    omega
  | string => exact Nat.zero_le _
  | number => exact Nat.zero_le _
  | literal => exact Nat.zero_le _
  | emptyArray => exact Nat.zero_le _
  | emptyObject => exact Nat.zero_le _
  | array => exact Nat.zero_le _
  | element => exact Nat.zero_le _
  | moreElements => exact Nat.zero_le _

/-- The pairs of an object are read exactly when the pairs that are expected are. -/
theorem reads_object_iff {ms : Content .members} {level : ℕ} {rest : Bytes}
    (hvalid : (ms.tree (level + 1)).Valid validated) (hnul : ms.All nulFree)
    (hnames : ms.All readable → ∀ name ∈ ms.memberNames, name.length < maxStringLen)
    (hms : ms.Reads (((ms.tree (level + 1)).pairs (rightBrace :: rest)).map
      (readPair maxStringLen) : List (Bytes × Bytes)) ↔ ms.All readable) :
  (Content.object ms).Reads (((Content.object ms).tree level).text ++ rest : Bytes) ↔
    ms.All readable
  := by
  have hobject : ((Content.object ms).tree level).IsObject := trivial
  have hopen := bracketsOpen_container (object_isContainer hobject).1 hvalid rest
  have hpairs := enumerates_pairs_iff maxStringLen hobject hvalid rest
  constructor
  · rintro ⟨jp, pairs, hbrackets, henum, -, hreads⟩
    rw [hopen] at hbrackets
    obtain rfl := Option.some.inj hbrackets
    -- the names that are read are short, so that the pairs are the expected ones
    have hshort : ∀ name ∈ ms.memberNames, name.length < maxStringLen := by
      intro name hname
      rw [← names_of_reads hreads] at hname
      obtain ⟨pair, hpair, rfl⟩ := List.mem_map.mp hname
      have hnext : ∀ p a, zbxJsonPairNext ((Content.object ms).tree level |>.bracketed rest) p
          maxStringLen = some a → a.1.length < maxStringLen :=
        fun p a ha => length_pairNext_lt (by decide) ha
      exact henum.forall hnext pair hpair
    have hexpected := hpairs.mpr (fits_names hshort)
    rw [henum.unique hexpected] at hreads
    exact hms.mp hreads
  · intro hall
    have hreads := hms.mpr hall
    have hexpected := hpairs.mpr (fits_names (hnames hall))
    refine ⟨_, _, hopen, hexpected, ?_, hreads⟩
    intro name
    rw [zbxJsonPairByName]
    apply pairByNameLoop_eq hexpected
    · intro pair hpair
      have hname : pair.1 ∈ ms.memberNames := by
        rw [← names_of_reads hreads]
        exact List.mem_map_of_mem hpair
      exact names_of_all hnul _ hname
    · have hlength := length_pairs_le (t := (Content.object ms).tree level) rest
      rw [List.length_map]
      simp only [Tree.bracketed, List.length_append]
      omega

/-- Values, elements and members are read exactly when they are readable. -/
theorem reads_iff {kind : Kind} (c : Content kind) :
  ReadsExactly kind c
  := by
  induction c with
  | null =>
    intro level rest _ _ _
    refine iff_of_true ⟨rest, fun len => ?_⟩ trivial
    rfl
  | string s =>
    intro level rest hvalid _ _
    have hdelete : delete ∉ stringText (units s) := text_no_delete (t := .string (units s)) hvalid
    rw [delete_mem_string] at hdelete
    exact iff_of_true (decodesTo_string s rest) hdelete
  | number raw =>
    intro level rest hvalid _ hrest
    exact decodesTo_number_iff hvalid (hrest.resolve_right fun h => h)
  | emptyArray =>
    intro level rest hvalid _ _
    have hcontainer : (Tree.emptyArray []).IsContainer := trivial
    have hopen := bracketsOpen_container hcontainer hvalid rest
    have hitems : Enumerates (zbxJsonNext ((Tree.emptyArray []).bracketed rest)) id none [] :=
      next_empty (c := leftBracket) rfl none
    exact iff_of_true ⟨_, hopen, hitems, countLoop_eq hitems (Nat.succ_pos _)⟩ trivial
  | array es ih =>
    intro level rest hvalid hnul _
    have hes := ih (level + 1) (rightBracket :: rest) hvalid hnul
      (goesOn_cons (.inr (.inr (.inl rfl))))
    have hcontainer : ((Content.array es).tree level).IsContainer := trivial
    have hopen := bracketsOpen_container hcontainer hvalid rest
    have htraversed := (traversed_iff maxStringLen hcontainer hvalid rest).mpr
      ⟨fun h => h, fun _ hname => nomatch hname⟩
    constructor
    · rintro ⟨jp, ps, hbrackets, henum, -, hreads⟩
      rw [hopen] at hbrackets
      obtain rfl := Option.some.inj hbrackets
      rw [henum.unique htraversed.items] at hreads
      exact hes.mp hreads
    · intro hall
      exact ⟨_, _, hopen, htraversed.items, htraversed.count, hes.mpr hall⟩
  | emptyObject =>
    intro level rest hvalid _ _
    have hcontainer : (Tree.emptyObject []).IsContainer := trivial
    have hopen := bracketsOpen_container hcontainer hvalid rest
    refine iff_of_true ⟨_, hopen, next_empty (c := leftBrace) rfl none, fun name => ?_⟩ trivial
    have hpairs : Enumerates (fun p => zbxJsonPairNext ((Tree.emptyObject []).bracketed rest) p
        maxStringLen) Prod.snd none [] := pairNext_empty [] rest isWs_nil
    exact pairByNameLoop_eq hpairs (fun _ hpair => nomatch hpair) (Nat.succ_pos _)
  | object ms ih =>
    intro level rest hvalid hnul _
    have hms := ih (level + 1) (rightBrace :: rest) hvalid hnul
      (goesOn_cons (.inr (.inr (.inr rfl))))
    exact reads_object_iff hvalid hnul (fun hall name hname => (names_of_all hall name hname).2) hms
  | element v ih =>
    intro level after hvalid hnul hafter
    have hv := ih level after hvalid.2.1 hnul (.inl hafter)
    constructor
    · rintro ⟨p, hp, hreads⟩
      obtain rfl := List.head_eq_of_cons_eq hp
      exact hv.mp hreads
    · intro hall
      exact ⟨_, rfl, hv.mpr hall⟩
  | moreElements v rest ihv ihrest =>
    intro level after hvalid hnul hafter
    have hv := ihv level (comma :: ((rest.tree level).text ++ after)) hvalid.2.1 hnul.1
      (.inl (goesOn_cons (.inr (.inl rfl))))
    have hrest := ihrest level after hvalid.2.2.2 hnul.2 hafter
    constructor
    · rintro ⟨p, ps', hps, hreads, hreads'⟩
      obtain rfl := List.head_eq_of_cons_eq hps
      obtain rfl := List.tail_eq_of_cons_eq hps
      exact ⟨hv.mp hreads, hrest.mp hreads'⟩
    · rintro ⟨hall, hall'⟩
      exact ⟨_, _, rfl, hv.mpr hall, hrest.mpr hall'⟩
  | member name v ih =>
    intro level after hvalid hnul hafter
    have hv := ih level after hvalid.2.2.2.2.1 hnul.2 (.inl hafter)
    have hdelete := (delete_mem_string name).not.mp
      (text_no_delete (t := .string (units name)) hvalid.2.1)
    constructor
    · rintro ⟨p, hp, hreads⟩
      have hpair : readPair maxStringLen (units name, (v.tree level).text ++ after) = (name, p) :=
        List.head_eq_of_cons_eq hp
      obtain rfl : (v.tree level).text ++ after = p := congrArg Prod.snd hpair
      exact ⟨⟨hdelete, (readPair_eq_iff name _).mp hpair⟩, hv.mp hreads⟩
    · rintro ⟨⟨-, hshort⟩, hall⟩
      refine ⟨_, ?_, hv.mpr hall⟩
      exact congrArg (fun pair => [pair]) ((readPair_eq_iff name _).mpr hshort)
  | moreMembers name v rest ihv ihrest =>
    intro level after hvalid hnul hafter
    have hv := ihv level (comma :: ((rest.tree level).text ++ after)) hvalid.2.2.2.2.1 hnul.2.1
      (.inl (goesOn_cons (.inr (.inl rfl))))
    have hrest := ihrest level after hvalid.2.2.2.2.2.2 hnul.2.2 hafter
    have hdelete := (delete_mem_string name).not.mp
      (text_no_delete (t := .string (units name)) hvalid.2.1)
    constructor
    · rintro ⟨p, pairs', hp, hreads, hreads'⟩
      have hpair : readPair maxStringLen (units name, (v.tree level).text ++
          comma :: ((rest.tree level).text ++ after)) = (name, p) := List.head_eq_of_cons_eq hp
      obtain rfl : (v.tree level).text ++ comma :: ((rest.tree level).text ++ after) = p :=
        congrArg Prod.snd hpair
      obtain rfl := List.tail_eq_of_cons_eq hp
      exact ⟨⟨hdelete, (readPair_eq_iff name _).mp hpair⟩, hv.mp hreads, hrest.mp hreads'⟩
    · rintro ⟨⟨-, hshort⟩, hall, hall'⟩
      refine ⟨_, _, ?_, hv.mpr hall, hrest.mpr hall'⟩
      exact congrArg (fun pair => pair :: ((rest.tree level).pairs after).map
        (readPair maxStringLen)) ((readPair_eq_iff name _).mpr hshort)

/-! ### The round trip -/

/-- Everything that was written is read back: the text is opened, and what the readers give
of it is the document. -/
def ReadBack (text : Bytes) (content : Content .value) : Prop :=
  ∃ jp, zbxJsonOpen text = some jp ∧ zbxJsonBracketsOpen text = some jp ∧ content.Reads text

/-- The buffer holds the text so far, the closing brackets and a zero byte, the computed
sizes of strings are the numbers of bytes stored for them, and everything is read back. -/
def RoundTrips (fresh : ℕ → UInt8) (allocate : ℕ) (calls : List Call) (d : Document) : Prop :=
  ∃ j, written fresh allocate calls = some j ∧ Buffered j d ∧
    (∀ string type, (jsonInsstring string type).length = jsonStringsize string type) ∧
    ReadBack j.text d.content

theorem all_and {check check' check'' : Content.Check}
    (hname : ∀ s, check.name s ↔ check'.name s ∧ check''.name s)
    (hstring : ∀ s, check.string s ↔ check'.string s ∧ check''.string s)
    (hnumber : ∀ raw, check.number raw ↔ check'.number raw ∧ check''.number raw)
    {kind : Kind} (c : Content kind) :
  c.All check ↔ c.All check' ∧ c.All check''
  := by
  induction c with
  | null => simp [Content.All]
  | string s => exact hstring s
  | number raw => exact hnumber raw
  | emptyArray => simp [Content.All]
  | array es ih => exact ih
  | emptyObject => simp [Content.All]
  | object ms ih => exact ih
  | element v ih => exact ih
  | moreElements v rest ihv ihrest =>
    simp only [Content.All, ihv, ihrest]
    tauto
  | member name v ih =>
    simp only [Content.All, ih, hname]
    tauto
  | moreMembers name v rest ihv ihrest =>
    simp only [Content.All, ihv, ihrest, hname]
    tauto

/-- What was written is read back exactly when it is readable. -/
theorem readBack_iff {calls : List Call} {d : Document} (htyped : ∀ call ∈ calls, call.IsTyped)
    (hnul : ∀ call ∈ calls, call.All nulFree) (hbuilt : built calls = some d) :
  ReadBack (d.done ++ d.closers) d.content ↔ d.content.All readable
  := by
  have htext := built_objectText htyped hbuilt
  have hnumbers := (built_all hbuilt).mpr (numbersStandard_of_isTyped htyped)
  have hsplit : d.content.All readable ↔ d.content.All noDelete ∧ d.content.All readable := by
    apply all_and
    · intro s
      exact ⟨fun h => ⟨h.1, h⟩, fun h => h.2⟩
    · intro s
      exact ⟨fun h => ⟨h, h⟩, fun h => h.2⟩
    · intro raw
      exact ⟨fun h => ⟨trivial, h⟩, fun h => h.2⟩
  have hreads : delete ∉ (d.content.tree 0).text →
      (d.content.Reads (d.done ++ d.closers : Bytes) ↔ d.content.All readable) := by
    intro hdelete
    have hexact := reads_iff d.content 0 [] (valid_of_standard htext.valid hdelete)
      ((built_all hbuilt).mpr hnul) (.inr htext.isObject)
    rw [List.append_nil] at hexact
    rw [d.text_eq]
    exact hexact
  constructor
  · rintro ⟨jp, hopen, -, hread⟩
    obtain ⟨before, object, after, hobject, -⟩ := objectText_of_open hopen
    have hdelete := hobject.no_delete
    rw [d.text_eq] at hdelete
    exact (hreads hdelete).mp hread
  · intro hall
    have hdelete := (delete_not_mem_iff hnumbers 0).mpr (hsplit.mp hall).1
    have hvalidated := htext.validated_of_standard (by rw [d.text_eq]; exact hdelete)
    have hbrackets := bracketsOpen_container (object_isContainer htext.isObject).1
      hvalidated.valid []
    rw [List.append_nil, ← d.text_eq] at hbrackets
    exact ⟨_, open_eq hvalidated, hbrackets, (hreads hdelete).mpr hall⟩

/-- Behind every well nested sequence of calls the buffer is right, and everything is read
back exactly when no name and no string contains the byte 127, no name is longer than the
buffer of `zbx_json_pair_by_name`, and all numbers are integers. -/
theorem roundTrips_iff (fresh : ℕ → UInt8) (allocate : ℕ) (calls : List Call) (d : Document)
    (htyped : ∀ call ∈ calls, call.IsTyped) (hnul : ∀ call ∈ calls, call.All nulFree)
    (hbuilt : built calls = some d) :
  RoundTrips fresh allocate calls d ↔ ∀ call ∈ calls, call.All readable
  := by
  obtain ⟨j, hj, hbuffered⟩ := written_buffered fresh allocate htyped
    hbuilt
  rw [← built_all hbuilt, ← readBack_iff htyped hnul hbuilt, ← hbuffered.text]
  constructor
  · rintro ⟨j', hj', -, -, hread⟩
    rw [hj] at hj'
    obtain rfl := Option.some.inj hj'
    exact hread
  · intro hread
    exact ⟨j, hj, hbuffered, length_jsonInsstring, hread⟩

theorem sampleCalls_roundTrip :
  ∃ d, RoundTrips (fun _ => 0xff) 0 sampleCalls d
  := by
  obtain ⟨d, hbuilt⟩ := Option.isSome_iff_exists.mp
    (show (built sampleCalls).isSome = true by decide)
  have hunnamed : ∀ (p : Bytes → Prop), ∀ n ∈ (none : Option Bytes), p n := by
    intro p n hn
    cases hn
  refine ⟨d, (roundTrips_iff _ 0 sampleCalls d sampleCalls_typed ?_ hbuilt).mpr ?_⟩
  · intro call hcall
    simp only [sampleCalls, List.mem_cons, List.not_mem_nil, or_false] at hcall
    obtain rfl | rfl | rfl | rfl := hcall
    · refine ⟨?_, show 0 ∉ bytes ['a', '"', 'b'] by decide⟩
      intro n hn
      cases hn
      exact (by decide : 0 ∉ bytes ['h', 'o', 's', 't'])
    · intro n hn
      cases hn
      exact (by decide : 0 ∉ bytes ['d', 'a', 't', 'a'])
    · exact ⟨hunnamed _, trivial⟩
    · exact ⟨hunnamed _, trivial⟩
  · intro call hcall
    simp only [sampleCalls, List.mem_cons, List.not_mem_nil, or_false] at hcall
    obtain rfl | rfl | rfl | rfl := hcall
    · refine ⟨?_, show delete ∉ bytes ['a', '"', 'b'] by decide⟩
      intro n hn
      cases hn
      exact ⟨(by decide : delete ∉ bytes ['h', 'o', 's', 't']), by decide⟩
    · intro n hn
      cases hn
      exact ⟨(by decide : delete ∉ bytes ['d', 'a', 't', 'a']), by decide⟩
    · exact ⟨hunnamed _, (validated_decimal _).2⟩
    · exact ⟨hunnamed _, show IsInteger (bytes ['-', '5']) by decide +kernel⟩

/-- A name that fills the buffer of `zbx_json_pair_by_name`. -/
def longName : Bytes := List.replicate 2048 'a'.toUInt8

/-- The pair with the long name is written and is not found again. -/
theorem longName_lost :
  ¬ ∃ d, built [.addstring (some longName) (some (bytes ['b'])) .string] = some d ∧
    RoundTrips (fun _ => 0xff) 0
      [.addstring (some longName) (some (bytes ['b'])) .string] d
  := by
  rintro ⟨d, hbuilt, j, -, hbuffered, -, hread⟩
  have htyped : ∀ call ∈ [Call.addstring (some longName) (some (bytes ['b'])) .string],
      call.IsTyped := by
    intro call hcall
    rw [List.mem_singleton.mp hcall]
    exact fun hne => absurd rfl hne
  have hnul : ∀ call ∈ [Call.addstring (some longName) (some (bytes ['b'])) .string],
      call.All nulFree := by
    intro call hcall
    rw [List.mem_singleton.mp hcall]
    refine ⟨?_, show 0 ∉ bytes ['b'] by decide⟩
    rintro n ⟨⟩ hmem
    exact absurd (List.eq_of_mem_replicate hmem) (by decide)
  rw [hbuffered.text] at hread
  have hall := (built_all hbuilt).mp ((readBack_iff htyped hnul hbuilt).mp hread) _
    List.mem_cons_self
  have hlength : longName.length < maxStringLen := (hall.1 longName rfl).2
  rw [longName, List.length_replicate] at hlength
  exact absurd hlength (by decide)

end Json
