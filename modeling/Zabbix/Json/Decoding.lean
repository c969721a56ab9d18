import Zabbix.Json.Levels

/-!
# Decoding strings

What the decoding functions write for the characters of a string, and where they stop when
the buffer is too short for it.
-/

open Ascii

namespace Json

/-- The byte that is written for a character. -/
def StringUnit.decoded : StringUnit → UInt8
  | plain c => c
  | escape c =>
    if c = 'b'.toUInt8 then 0x08
    else if c = 'f'.toUInt8 then 0x0c
    else if c = 'n'.toUInt8 then newline
    else if c = 'r'.toUInt8 then carriageReturn
    else if c = 't'.toUInt8 then tab
    else c
  | unicode _ _ h3 h4 => hex2num h3 <<< 4 + hex2num h4

/-- The bytes of a string. -/
def decodedUnits (units : List StringUnit) : Bytes := units.map StringUnit.decoded

@[simp] theorem length_decodedUnits (units : List StringUnit) :
  (decodedUnits units).length = units.length
  := List.length_map ..

@[simp] theorem unitsText_nil :
  unitsText [] = []
  := rfl

@[simp] theorem unitsText_cons (u : StringUnit) (units : List StringUnit) :
  unitsText (u :: units) = u.text ++ unitsText units
  := rfl

theorem stringText_append (units : List StringUnit) (rest : Bytes) :
  stringText units ++ rest = quote :: (unitsText units ++ quote :: rest)
  := by
  simp [stringText]

theorem isEscape_iff {c : UInt8} :
  isEscape c = true ↔ c = quote ∨ c = backslash ∨ c = slash ∨ c = 'b'.toUInt8 ∨
    c = 'f'.toUInt8 ∨ c = 'n'.toUInt8 ∨ c = 'r'.toUInt8 ∨ c = 't'.toUInt8
  := by
  simp [isEscape, or_assoc]

/-- While there is room, a character is decoded. -/
theorem decodeLoop_unit {g : Grammar} {u : StringUnit} (hu : u.Valid g) {len : ℕ} {out : Bytes}
    (hroom : out.length < len - 1) (rest : Bytes) :
  decodeLoop len out (u.text ++ rest) = decodeLoop len (out ++ [u.decoded]) rest
  := by
  cases u with
  | plain c =>
    obtain ⟨hquote, hback, -⟩ := hu
    change decodeLoop len out (c :: rest) = _
    rw [decodeLoop_cons, if_neg hquote, if_pos hroom, if_neg hback]
    rfl
  | escape c =>
    change decodeLoop len out (backslash :: c :: rest) = _
    rw [decodeLoop_cons, if_neg backslash_ne_quote, if_pos hroom, if_pos rfl]
    obtain rfl | rfl | rfl | rfl | rfl | rfl | rfl | rfl := isEscape_iff.mp hu <;> rfl
  | unicode h1 h2 h3 h4 =>
    change decodeLoop len out (backslash :: 'u'.toUInt8 :: h1 :: h2 :: h3 :: h4 :: rest) = _
    rw [decodeLoop_cons, if_neg backslash_ne_quote, if_pos hroom, if_pos rfl]
    rfl

/-- Without room a byte is passed. -/
theorem decodeLoop_full {len : ℕ} {out : Bytes} (hfull : ¬ out.length < len - 1) {c : UInt8}
    (hc : c ≠ quote) (rest : Bytes) :
  decodeLoop len out (c :: rest) = decodeLoop len out rest
  := by
  rw [decodeLoop_cons, if_neg hc, if_neg hfull]

/-- Without room a character is passed, unless it is an escaped quote. -/
theorem decodeLoop_full_unit {g : Grammar} {u : StringUnit} (hu : u.Valid g) {len : ℕ}
    {out : Bytes} (hfull : ¬ out.length < len - 1) (hne : u ≠ .escape quote) (rest : Bytes) :
  decodeLoop len out (u.text ++ rest) = decodeLoop len out rest
  := by
  cases u with
  | plain c => exact decodeLoop_full hfull hu.1 rest
  | escape c =>
    have hc : c ≠ quote := by
      rintro rfl
      exact hne rfl
    change decodeLoop len out (backslash :: c :: rest) = _
    rw [decodeLoop_full hfull backslash_ne_quote, decodeLoop_full hfull hc]
  | unicode h1 h2 h3 h4 =>
    obtain ⟨hh1, hh2, hh3, hh4⟩ := hu
    change decodeLoop len out (backslash :: 'u'.toUInt8 :: h1 :: h2 :: h3 :: h4 :: rest) = _
    rw [decodeLoop_full hfull backslash_ne_quote, decodeLoop_full hfull u_ne_quote,
      decodeLoop_full hfull (ne_of_isHexDigit hh1).1, decodeLoop_full hfull (ne_of_isHexDigit hh2).1,
      decodeLoop_full hfull (ne_of_isHexDigit hh3).1, decodeLoop_full hfull (ne_of_isHexDigit hh4).1]

/-- No escaped quote stands behind the first `room` characters. -/
def Fits (room : ℕ) (units : List StringUnit) : Prop :=
  StringUnit.escape quote ∉ units.drop room

instance (room : ℕ) (units : List StringUnit) : Decidable (Fits room units) :=
  inferInstanceAs (Decidable (_ ∉ _))

theorem fits_of_length_le {room : ℕ} {units : List StringUnit} (h : units.length ≤ room) :
  Fits room units
  := by
  rw [Fits, List.drop_eq_nil_of_le h]
  exact List.not_mem_nil

/-- A string that fits is decoded as far as there is room, and the pointer comes to stand
behind it. -/
theorem decodeLoop_units {g : Grammar} {units : List StringUnit}
    (hunits : ∀ u ∈ units, u.Valid g) {len : ℕ} {out : Bytes} (hout : out.length ≤ len - 1)
    (hfits : Fits (len - 1 - out.length) units) (rest : Bytes) :
  decodeLoop len out (unitsText units ++ quote :: rest) =
    some (out ++ (decodedUnits units).take (len - 1 - out.length), rest)
  := by
  induction units generalizing out with
  | nil =>
    rw [unitsText_nil, List.nil_append, decodeLoop_cons, if_pos rfl]
    simp [decodedUnits]
  | cons u units ih =>
    have hu := hunits u List.mem_cons_self
    have hrest : ∀ u ∈ units, u.Valid g := fun v hv => hunits v (List.mem_cons_of_mem _ hv)
    rw [unitsText_cons, List.append_assoc]
    by_cases hroom : out.length < len - 1
    · have hlen : (out ++ [u.decoded]).length = out.length + 1 := by simp
      have hk : len - 1 - out.length = len - 1 - (out.length + 1) + 1 := by omega
      rw [hk] at hfits
      rw [decodeLoop_unit hu hroom, ih hrest (by omega) (by rw [hlen]; exact hfits), hlen, hk,
        List.append_assoc]
      rfl
    · have hk : len - 1 - out.length = 0 := by omega
      rw [hk] at hfits ⊢
      have hne : u ≠ .escape quote := by
        rintro rfl
        exact hfits List.mem_cons_self
      have hfits' : Fits 0 units := fun hmem => hfits (List.mem_cons_of_mem _ hmem)
      rw [decodeLoop_full_unit hu hroom hne]
      have hloop := ih hrest hout
      rw [hk] at hloop
      rw [hloop hfits', List.take_zero, List.take_zero]

/-- In a string that does not fit the pointer comes to stand inside of the string. -/
theorem decodeLoop_units_inside {g : Grammar} {units : List StringUnit}
    (hunits : ∀ u ∈ units, u.Valid g) {len : ℕ} {out : Bytes} (hout : out.length ≤ len - 1)
    (hfits : ¬ Fits (len - 1 - out.length) units) (rest : Bytes) :
  ∃ out' inside, decodeLoop len out (unitsText units ++ quote :: rest) =
    some (out', inside ++ quote :: rest)
  := by
  induction units generalizing out with
  | nil => exact absurd (fits_of_length_le (Nat.zero_le _)) hfits
  | cons u units ih =>
    have hu := hunits u List.mem_cons_self
    have hrest : ∀ u ∈ units, u.Valid g := fun v hv => hunits v (List.mem_cons_of_mem _ hv)
    rw [unitsText_cons, List.append_assoc]
    by_cases hroom : out.length < len - 1
    · have hlen : (out ++ [u.decoded]).length = out.length + 1 := by simp
      have hk : len - 1 - out.length = len - 1 - (out.length + 1) + 1 := by omega
      rw [hk] at hfits
      rw [decodeLoop_unit hu hroom]
      exact ih hrest (by omega) (by rw [hlen]; exact hfits)
    · have hk : len - 1 - out.length = 0 := by omega
      by_cases hne : u = .escape quote
      · subst hne
        refine ⟨out, unitsText units, ?_⟩
        change decodeLoop len out (backslash :: quote :: _) = _
        rw [decodeLoop_full hroom backslash_ne_quote, decodeLoop_cons, if_pos rfl]
        rfl
      · rw [decodeLoop_full_unit hu hroom hne]
        apply ih hrest hout
        rw [hk] at hfits ⊢
        intro hfits'
        apply hfits
        rw [Fits, List.drop_zero, List.mem_cons, not_or]
        exact ⟨fun heq => hne heq.symm, hfits'⟩

theorem decodeString_eq {g : Grammar} {units : List StringUnit}
    (hunits : ∀ u ∈ units, u.Valid g) {len : ℕ} (hfits : Fits (len - 1) units) (rest : Bytes) :
  decodeString (stringText units ++ rest) len =
    some ((decodedUnits units).take (len - 1), rest)
  := by
  rw [stringText_append, decodeString, List.head?_cons, if_pos rfl, List.tail_cons]
  exact decodeLoop_units hunits (Nat.zero_le _) hfits rest

theorem decodeString_inside {g : Grammar} {units : List StringUnit}
    (hunits : ∀ u ∈ units, u.Valid g) {len : ℕ} (hfits : ¬ Fits (len - 1) units)
    (rest : Bytes) :
  ∃ out inside, decodeString (stringText units ++ rest) len =
    some (out, inside ++ quote :: rest)
  := by
  rw [stringText_append, decodeString, List.head?_cons, if_pos rfl, List.tail_cons]
  exact decodeLoop_units_inside hunits (Nat.zero_le _) hfits rest

/-! ### The size of a string -/

/-- A character counts as one byte, except that the last two digits of `\u` count as
well. -/
theorem stringSizeLoop_unit {g : Grammar} {u : StringUnit} (hu : u.Valid g) (sz : ℕ)
    (rest : Bytes) :
  ∃ more, stringSizeLoop sz (u.text ++ rest) = stringSizeLoop (sz + 1 + more) rest
  := by
  cases u with
  | plain c =>
    refine ⟨0, ?_⟩
    change stringSizeLoop sz (c :: rest) = _
    rw [stringSizeLoop_cons, if_neg hu.1, if_neg hu.2.1]
  | escape c =>
    refine ⟨0, ?_⟩
    have hc : isEscape c = true := hu
    have hne : c ≠ 'u'.toUInt8 := by
      rintro rfl
      exact absurd hc (by decide)
    change stringSizeLoop sz (backslash :: c :: rest) = _
    rw [stringSizeLoop_cons, if_neg backslash_ne_quote, if_pos rfl]
    change (if c = 'u'.toUInt8 then _ else _) = _
    rw [if_neg hne, if_pos hc]
  | unicode h1 h2 h3 h4 =>
    refine ⟨2, ?_⟩
    obtain ⟨-, -, hh3, hh4⟩ := hu
    have hne3 := ne_of_isHexDigit hh3
    have hne4 := ne_of_isHexDigit hh4
    change stringSizeLoop sz (backslash :: 'u'.toUInt8 :: h1 :: h2 :: h3 :: h4 :: rest) = _
    rw [stringSizeLoop_cons, if_neg backslash_ne_quote, if_pos rfl]
    change stringSizeLoop (sz + 1) (h3 :: h4 :: rest) = _
    rw [stringSizeLoop_cons, if_neg hne3.1, if_neg hne3.2, stringSizeLoop_cons,
      if_neg hne4.1, if_neg hne4.2]

/-- The size is not smaller than the string. -/
theorem stringSizeLoop_units {g : Grammar} {units : List StringUnit}
    (hunits : ∀ u ∈ units, u.Valid g) (sz : ℕ) (rest : Bytes) :
  ∃ more, stringSizeLoop sz (unitsText units ++ quote :: rest) =
    some (sz + units.length + more)
  := by
  induction units generalizing sz with
  | nil =>
    refine ⟨0, ?_⟩
    rw [unitsText_nil, List.nil_append, stringSizeLoop_cons, if_pos rfl]
    rfl
  | cons u units ih =>
    obtain ⟨more, hmore⟩ := stringSizeLoop_unit (hunits u List.mem_cons_self) sz
      (unitsText units ++ quote :: rest)
    obtain ⟨more', hmore'⟩ := ih (fun v hv => hunits v (List.mem_cons_of_mem _ hv))
      (sz + 1 + more)
    refine ⟨more + more', ?_⟩
    rw [unitsText_cons, List.append_assoc, hmore, hmore']
    congr 1
    simp only [List.length_cons]
    omega

end Json
