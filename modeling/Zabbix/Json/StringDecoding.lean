import Mathlib.Data.List.Forall2
import Zabbix.Json.Traversal
import Zabbix.Library.Digits

/-!
# Strings in buffers

What is read of the string literals of the standard into a buffer, whatever its size. Behind the
characters there is room for, an escaped quote is taken for the end of the string, and a buffer
that grows never comes to that.
-/

open Ascii

namespace Json

/-! ### The bytes of a literal -/

/-- The byte that a character of a literal stands for. The first two digits behind `\u` are
zeros. -/
def StringUnit.byte : StringUnit → UInt8
  | plain c => c
  | escape c =>
    if c = 'b'.toUInt8 then 0x08
    else if c = 'f'.toUInt8 then 0x0c
    else if c = 'n'.toUInt8 then newline
    else if c = 'r'.toUInt8 then carriageReturn
    else if c = 't'.toUInt8 then tab
    else c
  | unicode _ _ h3 h4 => (16 * Digits.digit h3 + Digits.digit h4).toUInt8

/-- The last two digits behind `\u` are no letters of the upper case. -/
def StringUnit.LowerCase : StringUnit → Prop
  | unicode _ _ h3 h4 => (isDigit h3 ∨ 0x61 ≤ h3) ∧ (isDigit h4 ∨ 0x61 ≤ h4)
  | _ => True

/-- The bytes are those of the characters, one for each. -/
def Shows (out : Bytes) (units : List StringUnit) : Prop :=
  List.Forall₂ (fun b u => u.LowerCase → b = u.byte) out units

theorem hex2num_eq {c : UInt8} (h : isHexDigit c = true) (hlower : isDigit c ∨ 0x61 ≤ c) :
  hex2num c = (Digits.digit c).toUInt8
  := by
  have hall : ∀ n < 256, isHexDigit (UInt8.ofNat n) = true →
      isDigit (UInt8.ofNat n) ∨ 0x61 ≤ UInt8.ofNat n →
      hex2num (UInt8.ofNat n) = (Digits.digit (UInt8.ofNat n)).toUInt8 := by
    decide +kernel
  exact forall_byte (p := fun c => isHexDigit c = true → isDigit c ∨ 0x61 ≤ c →
    hex2num c = (Digits.digit c).toUInt8) hall c h hlower

theorem shift_add {n m : ℕ} (hn : n < 16) (hm : m < 16) :
  n.toUInt8 <<< 4 + m.toUInt8 = (16 * n + m).toUInt8
  := by
  have hall : ∀ n : ℕ, n < 16 → ∀ m : ℕ, m < 16 →
      n.toUInt8 <<< 4 + m.toUInt8 = (16 * n + m).toUInt8 := by
    decide
  exact hall n hn m hm

theorem StringUnit.decoded_eq_byte {g : Grammar} {u : StringUnit} (hu : u.Valid g)
    (hlower : u.LowerCase) :
  u.decoded = u.byte
  := by
  cases u with
  | plain c => rfl
  | escape c => rfl
  | unicode h1 h2 h3 h4 =>
    obtain ⟨-, -, hh3, hh4⟩ := hu
    obtain ⟨hlower3, hlower4⟩ := hlower
    change hex2num h3 <<< 4 + hex2num h4 = (16 * Digits.digit h3 + Digits.digit h4).toUInt8
    rw [hex2num_eq hh3 hlower3, hex2num_eq hh4 hlower4]
    exact shift_add (Digits.digit_lt_sixteen hh3) (Digits.digit_lt_sixteen hh4)

theorem shows_decodedUnits {g : Grammar} {units : List StringUnit}
    (hunits : ∀ u ∈ units, u.Valid g) :
  Shows (decodedUnits units) units
  := by
  rw [Shows, decodedUnits, List.forall₂_map_left_iff, List.forall₂_same]
  exact fun u hu => u.decoded_eq_byte (hunits u hu)

/-! ### Reading a literal -/

/-- Whatever stands behind the characters there is room for, those are read. -/
theorem decodeLoop_bytes {g : Grammar} {units : List StringUnit}
    (hunits : ∀ u ∈ units, u.Valid g) {len : ℕ} {out : Bytes} (hout : out.length ≤ len - 1)
    (rest : Bytes) :
  ∃ p, decodeLoop len out (unitsText units ++ quote :: rest)
    = some (out ++ decodedUnits (units.take (len - 1 - out.length)), p)
  := by
  induction units generalizing out with
  | nil =>
    refine ⟨rest, ?_⟩
    rw [unitsText_nil, List.nil_append, decodeLoop_cons, if_pos rfl, List.take_nil]
    simp [decodedUnits]
  | cons u units ih =>
    have hu := hunits u List.mem_cons_self
    have hrest : ∀ u ∈ units, u.Valid g := fun v hv => hunits v (List.mem_cons_of_mem _ hv)
    rw [unitsText_cons, List.append_assoc]
    by_cases hroom : out.length < len - 1
    · have hlen : (out ++ [u.decoded]).length = out.length + 1 := by simp
      have hk : len - 1 - out.length = len - 1 - (out.length + 1) + 1 := by omega
      have hout' : (out ++ [u.decoded]).length ≤ len - 1 := by omega
      obtain ⟨p, hp⟩ := ih hrest hout'
      refine ⟨p, ?_⟩
      rw [decodeLoop_unit hu hroom, hp, hlen, hk, List.take_succ_cons, List.append_assoc]
      rfl
    · have hk : len - 1 - out.length = 0 := by omega
      obtain ⟨p, hp⟩ := ih hrest hout
      rw [hk, List.take_zero] at hp ⊢
      by_cases hne : u = .escape quote
      · subst hne
        refine ⟨unitsText units ++ quote :: rest, ?_⟩
        change decodeLoop len out (backslash :: quote :: _) = _
        rw [decodeLoop_full hroom (by decide), decodeLoop_cons, if_pos rfl]
        simp [decodedUnits]
      · exact ⟨p, (decodeLoop_full_unit hu hroom hne _).trans hp⟩

section Literal

variable {g : Grammar} {units : List StringUnit} (hunits : ∀ u ∈ units, u.Valid g) (rest : Bytes)

include hunits

theorem decodeString_bytes (room : ℕ) :
  ∃ p, decodeString (stringText units ++ rest) (room + 1)
    = some (decodedUnits (units.take room), p)
  := by
  rw [stringText_append, decodeString, List.head?_cons, if_pos rfl, List.tail_cons]
  exact decodeLoop_bytes hunits (Nat.zero_le _) rest

theorem exists_valueSize :
  ∃ sz, valueSize (stringText units ++ rest) .string = some sz ∧ units.length ≤ sz
  := by
  obtain ⟨more, hmore⟩ := stringSizeLoop_units hunits 0 rest
  refine ⟨_, ?_, Nat.le_add_right units.length more⟩
  rw [stringText_append, valueSize, List.head?_cons, if_pos rfl, List.tail_cons, hmore,
    Nat.zero_add]

theorem decodeValueDyn_string (alloc : ℕ) :
  ∃ alloc', units.length < alloc' ∧
    decodeValueDyn (stringText units ++ rest) alloc = some (decodedUnits units, alloc', rest)
  := by
  obtain ⟨sz, hsize, hle⟩ := exists_valueSize hunits rest
  have halloc : units.length < if alloc ≤ sz then sz + 1 else alloc := by
    split <;> omega
  refine ⟨_, halloc, ?_⟩
  simp only [decodeValueDyn, jsonType_string, hsize]
  rw [decodeString_eq hunits (fits_of_length_le (by omega)), List.take_of_length_le]
  · rfl
  · rw [length_decodedUnits]
    omega

end Literal

/-- What the reading of a literal is to come to, with a buffer that has room for a number of
bytes and the terminating zero. -/
structure Decodes (units : List StringUnit) (rest : Bytes) (room : ℕ) : Prop where
  bytes : ∃ out p, decodeString (stringText units ++ rest) (room + 1) = some (out, p) ∧
    Shows out (units.take room)
  position : Fits room units →
    (decodeString (stringText units ++ rest) (room + 1)).map Prod.snd = some rest
  size : ∃ sz, valueSize (stringText units ++ rest) .string = some sz ∧ units.length ≤ sz
  dyn : ∀ alloc, ∃ out alloc', decodeValueDyn (stringText units ++ rest) alloc
    = some (out, alloc', rest) ∧ Shows out units ∧ out.length < alloc'
  byName : ∀ jp name alloc, zbxJsonPairByName jp name = some (stringText units ++ rest) →
    ∃ out alloc', zbxJsonValueByNameDyn jp name alloc = some (out, alloc') ∧ Shows out units

/-- Every literal of the standard is read into a buffer of any size: as many bytes as there is
room for, and to the end of the literal unless an escaped quote stands behind them. -/
theorem decodes (units : List StringUnit) (hunits : ∀ u ∈ units, u.Valid standard)
    (rest : Bytes) (room : ℕ) :
  Decodes units rest room
  := by
  have hshows := shows_decodedUnits hunits
  refine ⟨?_, ?_, exists_valueSize hunits rest, ?_, ?_⟩
  · obtain ⟨p, hp⟩ := decodeString_bytes hunits rest room
    exact ⟨_, p, hp, shows_decodedUnits fun u hu => hunits u (List.mem_of_mem_take hu)⟩
  · intro hfits
    change Fits (room + 1 - 1) units at hfits
    have hdecode : decodeString (stringText units ++ rest) (room + 1)
        = some ((decodedUnits units).take room, rest) :=
      decodeString_eq hunits hfits rest
    rw [hdecode]
    rfl
  · intro alloc
    obtain ⟨alloc', hlen, hdyn⟩ := decodeValueDyn_string hunits rest alloc
    exact ⟨_, alloc', hdyn, hshows, by rwa [length_decodedUnits]⟩
  · intro jp name alloc hp
    obtain ⟨alloc', -, hdyn⟩ := decodeValueDyn_string hunits rest alloc
    refine ⟨_, alloc', ?_, hshows⟩
    rw [zbxJsonValueByNameDyn, hp, Option.bind_some, hdyn]
    rfl

/-- The string `a"b` with a buffer for one byte: the second character is an escaped quote. -/
def quotedText : List StringUnit := [.plain 'a'.toUInt8, .escape quote, .plain 'b'.toUInt8]

theorem decodes_quotedText :
  (∀ u ∈ quotedText, u.Valid standard) ∧ Decodes quotedText [] 3
  := by
  have hvalid : ∀ u ∈ quotedText, u.Valid standard := by
    refine List.forall_mem_cons.mpr ⟨⟨by decide, by decide, ?_⟩,
      List.forall_mem_cons.mpr ⟨rfl, List.forall_mem_singleton.mpr ⟨by decide, by decide, ?_⟩⟩⟩
    · change (0x20 : UInt8) ≤ 'a'.toUInt8
      decide
    · change (0x20 : UInt8) ≤ 'b'.toUInt8
      decide
  exact ⟨hvalid, decodes quotedText hvalid [] 3⟩

/-- The size of a string does not count its terminating zero; with a buffer for one byte the
pointer comes to stand in front of the `b`; of the three bytes for `\u20ac` only the last byte of
the number is read; and the letter in `\u004A` is taken for 17, so that it is not read as `J`. -/
theorem literals_not_decoded :
  (¬ ∃ sz, valueSize (stringText quotedText) .string = some sz ∧ quotedText.length + 1 ≤ sz) ∧
    (decodeString (stringText quotedText) 2).map Prod.snd ≠ some [] ∧
    decodeString (stringText [.unicode '2'.toUInt8 '0'.toUInt8 'a'.toUInt8 'c'.toUInt8]) 8
      ≠ some ([0xe2, 0x82, 0xac], []) ∧
    decodeString (stringText [.unicode '0'.toUInt8 '0'.toUInt8 '4'.toUInt8 'A'.toUInt8]) 8
      ≠ some (['J'.toUInt8], [])
  := by
  refine ⟨?_, ?_, ?_, ?_⟩
  · rintro ⟨sz, hsize, hle⟩
    have hthree : valueSize (stringText quotedText) .string = some 3 := by decide
    rw [Option.some.inj (hsize.symm.trans hthree)] at hle
    exact absurd hle (by decide)
  · decide
  · decide
  · decide

end Json
