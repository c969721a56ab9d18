import Mathlib.Data.List.TakeWhile
import Mathlib.Tactic.IntervalCases
import Mathlib.Tactic.Set
import Zabbix.Crypto.Base64

/-!
# The round trip of Base64

`groups` is the encoding of a text of any length, group after group, without a limit.  The
dynamic encoder produces it (`strBase64EncodeDyn_eq`), as the blocks consist of whole groups
and each is short enough to be encoded in one go.  The decoder, which passes over the
characters inserted into it, gives the text back (`decode_encodeDyn`).
-/

open Ascii

namespace Base64

/-! ### The bits of a group -/

theorem to1_to2 (from1 from2 : UInt8) :
  (to1 from1 <<< 2) ||| (to2 from1 from2 >>> 4) = from1
  := by
  apply UInt8.eq_of_toBitVec_eq
  apply BitVec.eq_of_getLsbD_eq
  intro i hi
  interval_cases i <;> simp [to1, to2]

theorem to2_to3 (from1 from2 from3 : UInt8) :
  ((to2 from1 from2 &&& 0xf) <<< 4) ||| (to3 from2 from3 >>> 2) = from2
  := by
  apply UInt8.eq_of_toBitVec_eq
  apply BitVec.eq_of_getLsbD_eq
  intro i hi
  interval_cases i <;> simp [to2, to3]

theorem to3_to4 (from2 from3 : UInt8) :
  ((to3 from2 from3 &&& 0x3) <<< 6) ||| to4 from3 = from3
  := by
  apply UInt8.eq_of_toBitVec_eq
  apply BitVec.eq_of_getLsbD_eq
  intro i hi
  interval_cases i <;> simp [to3, to4]

theorem sixBits {v : UInt8} (h : v &&& 0x3f = v) :
  v.toNat < 64
  := by
  rw [← h, UInt8.toNat_and]
  exact Nat.lt_succ_of_le Nat.and_le_right

theorem to1_lt (from1 : UInt8) :
  (to1 from1).toNat < 64
  := by
  apply sixBits
  rw [to1, UInt8.and_assoc, UInt8.and_self]

theorem to2_lt (from1 from2 : UInt8) :
  (to2 from1 from2).toNat < 64
  := by
  apply sixBits
  apply UInt8.eq_of_toBitVec_eq
  apply BitVec.eq_of_getLsbD_eq
  intro i hi
  interval_cases i <;> simp [to2]

theorem to3_lt (from2 from3 : UInt8) :
  (to3 from2 from3).toNat < 64
  := by
  apply sixBits
  apply UInt8.eq_of_toBitVec_eq
  apply BitVec.eq_of_getLsbD_eq
  intro i hi
  interval_cases i <;> simp [to3]

theorem to4_lt (from3 : UInt8) :
  (to4 from3).toNat < 64
  := by
  apply sixBits
  rw [to4, UInt8.and_assoc, UInt8.and_self]

/-! ### The characters -/

/-- The characters are those of Base64, but not the padding, and they are decoded. -/
theorem char_table :
  ∀ n < 64, charBase64Decode (charBase64Encode (UInt8.ofNat n)) = UInt8.ofNat n ∧
    isBase64 (charBase64Encode (UInt8.ofNat n)) = true ∧
      charBase64Encode (UInt8.ofNat n) ≠ equals
  := by decide +kernel

theorem char_spec {v : UInt8} (h : v.toNat < 64) :
  charBase64Decode (charBase64Encode v) = v ∧ isBase64 (charBase64Encode v) = true ∧
    charBase64Encode v ≠ equals
  := by
  have htable := char_table v.toNat h
  rwa [UInt8.ofNat_toNat] at htable

theorem ne_zero_of_isBase64 {c : UInt8} (h : isBase64 c = true) :
  c ≠ 0
  := by
  rintro rfl
  revert h
  decide

/-! ### Encoding -/

/-- The encoding of a text, by groups of three bytes. -/
def groups : Bytes → Bytes
  | [] => []
  | [from1] =>
    [charBase64Encode (to1 from1), charBase64Encode (to2 from1 0), equals, equals]
  | [from1, from2] =>
    [charBase64Encode (to1 from1), charBase64Encode (to2 from1 from2),
      charBase64Encode (to3 from2 0), equals]
  | from1 :: from2 :: from3 :: rest =>
    charBase64Encode (to1 from1) :: charBase64Encode (to2 from1 from2) ::
      charBase64Encode (to3 from2 from3) :: charBase64Encode (to4 from3) :: groups rest

theorem length_groups (str : Bytes) :
  (groups str).length = (str.length + 2) / 3 * 4
  := by
  fun_induction groups str with
  | case1 => rfl
  | case2 => simp
  | case3 => simp
  | case4 from1 from2 from3 rest ih =>
    simp only [List.length_cons, ih]
    omega

theorem isBase64_groups (str : Bytes) :
  ∀ c ∈ groups str, isBase64 c = true
  := by
  have hequals : isBase64 equals = true := by decide
  fun_induction groups str with
  | case1 => simp
  | case2 from1 =>
    simp [hequals, (char_spec (to1_lt from1)).2.1, (char_spec (to2_lt from1 0)).2.1]
  | case3 from1 from2 =>
    simp [hequals, (char_spec (to1_lt from1)).2.1, (char_spec (to2_lt from1 from2)).2.1,
      (char_spec (to3_lt from2 0)).2.1]
  | case4 from1 from2 from3 rest ih =>
    simp only [List.forall_mem_cons]
    exact ⟨(char_spec (to1_lt _)).2.1, (char_spec (to2_lt _ _)).2.1,
      (char_spec (to3_lt _ _)).2.1, (char_spec (to4_lt _)).2.1, ih⟩

/-- Whole groups are encoded on their own. -/
theorem groups_append {front : Bytes} (h : 3 ∣ front.length) (rest : Bytes) :
  groups (front ++ rest) = groups front ++ groups rest
  := by
  fun_induction groups front with
  | case1 => rfl
  | case2 =>
    rw [List.length_singleton] at h
    omega
  | case3 =>
    rw [List.length_cons, List.length_singleton] at h
    omega
  | case4 from1 from2 from3 front ih =>
    simp only [List.length_cons] at h
    simp only [List.cons_append, groups, ih (by omega)]

/-- Without a limit the loop of the encoder would encode every text; it does when the last
group begins soon enough. -/
theorem encodeLoop_eq {written : ℕ} {str : Bytes}
    (h : written + (str.length + 2) / 3 * 4 < maxB64Len) :
  encodeLoop written str = groups str
  := by
  fun_induction groups str generalizing written with
  | case1 => rw [encodeLoop]
  | case2 from1 =>
    rw [List.length_singleton] at h
    rw [encodeLoop, if_neg (by omega)]
    simp [encodeLoop]
  | case3 from1 from2 =>
    simp only [List.length_cons, List.length_nil] at h
    rw [encodeLoop, if_neg (by omega)]
    simp [encodeLoop]
  | case4 from1 from2 from3 rest ih =>
    simp only [List.length_cons] at h
    rw [encodeLoop, if_neg (by omega)]
    simp [ih (by omega : written + 4 + (rest.length + 2) / 3 * 4 < maxB64Len)]

/-- The encoder writes the encoding and a zero byte. -/
theorem strBase64Encode_eq {str : Bytes} (hpos : str.length ≠ 0)
    (h : (str.length + 2) / 3 * 4 < maxB64Len) :
  strBase64Encode str = groups str ++ [0]
  := by
  rw [strBase64Encode, if_neg hpos, encodeLoop_eq (by omega)]

theorem cPerBlock_eq : cPerBlock = 12285 := rfl

theorem bPerBlock_eq : bPerBlock = 16380 := rfl

/-- A text is written behind what the buffer begins with. -/
theorem write_encoded {buf front : Bytes} (str : Bytes) (hpos : str.length ≠ 0)
    (hshort : (str.length + 2) / 3 * 4 < maxB64Len) (hfront : front <+: buf)
    (hroom : front.length + ((str.length + 2) / 3 * 4 + 1) ≤ buf.length) :
  ∃ buf', Buffer.write buf front.length (strBase64Encode str) = some buf' ∧
    front ++ groups str <+: buf' ∧ buf'.length = buf.length
  := by
  rw [strBase64Encode_eq hpos hshort]
  obtain ⟨buf', hwrite, hprefix, hlength⟩ := Buffer.write_behind (groups str ++ [0]) hfront
    (by rwa [List.length_append, length_groups])
  refine ⟨buf', hwrite, ?_, hlength⟩
  rw [← List.append_assoc] at hprefix
  exact (List.prefix_append _ _).trans hprefix

/-- The loop over the blocks leaves the encoding of the blocks in the buffer. -/
theorem encodeBlocks_spec (n : ℕ) (pc buf : Bytes) {front : Bytes} (hpc : n * cPerBlock ≤ pc.length)
    (hfront : front <+: buf) (hroom : front.length + (pc.length + 2) / 3 * 4 + 1 ≤ buf.length) :
  ∃ buf', encodeBlocks n pc front.length buf =
      some (pc.drop (n * cPerBlock), front.length + n * bPerBlock, buf') ∧
    front ++ groups (pc.take (n * cPerBlock)) <+: buf' ∧ buf'.length = buf.length
  := by
  induction n generalizing pc front buf with
  | zero => exact ⟨buf, by simp [encodeBlocks], by simpa [groups] using hfront, rfl⟩
  | succ n ih =>
    have hc := cPerBlock_eq
    have hb := bPerBlock_eq
    rw [Nat.succ_mul] at hpc
    have hlen : (pc.take cPerBlock).length = cPerBlock := by
      rw [List.length_take]
      omega
    have hblock : (groups (pc.take cPerBlock)).length = bPerBlock := by
      rw [length_groups, hlen, hc, hb]
    obtain ⟨buf1, hwrite, hprefix1, hlength1⟩ := write_encoded (pc.take cPerBlock)
      (by omega) (by rw [hlen, hc]; decide) hfront (by rw [hlen]; omega)
    obtain ⟨buf2, hrest, hprefix2, hlength2⟩ := ih (pc.drop cPerBlock) buf1
      (by rw [List.length_drop]; omega) hprefix1
      (by rw [List.length_append, hblock, List.length_drop, hlength1]; omega)
    refine ⟨buf2, ?_, ?_, hlength2.trans hlength1⟩
    · rw [List.length_append, hblock] at hrest
      rw [encodeBlocks, hwrite, Option.bind_some, hrest, List.drop_drop, Nat.succ_mul,
        Nat.succ_mul, Nat.add_comm cPerBlock, Nat.add_assoc front.length,
        Nat.add_comm bPerBlock]
    · have hsplit : pc.take ((n + 1) * cPerBlock) =
          pc.take cPerBlock ++ (pc.drop cPerBlock).take (n * cPerBlock) := by
        rw [Nat.succ_mul, Nat.add_comm, List.take_add]
      rw [hsplit, groups_append (by rw [hlen, hc]; decide), ← List.append_assoc]
      exact hprefix2

/-- The dynamic encoder stays inside the memory it allocates and produces the encoding. -/
theorem strBase64EncodeDyn_eq (garbage : ℕ → UInt8) (str : Bytes) :
  strBase64EncodeDyn garbage str = some (groups str)
  := by
  have hc := cPerBlock_eq
  have hb := bPerBlock_eq
  set blocks := str.length / cPerBlock with hblocks
  set left := str.length % cPerBlock with hleft
  have hdiv : blocks * cPerBlock + left = str.length := Nat.div_add_mod' str.length cPerBlock
  have hmod : left < cPerBlock := Nat.mod_lt _ (by decide)
  have hrest : (str.drop (blocks * cPerBlock)).length = left := by
    rw [List.length_drop]
    omega
  have hfront : (str.take (blocks * cPerBlock)).length = blocks * cPerBlock := by
    rw [List.length_take]
    omega
  have hfrontGroups : (groups (str.take (blocks * cPerBlock))).length = blocks * bPerBlock := by
    rw [length_groups, hfront, hc, hb]
    omega
  have hsplit : groups (str.take (blocks * cPerBlock)) ++ groups (str.drop (blocks * cPerBlock)) =
      groups str := by
    rw [← groups_append (by rw [hfront, hc]; omega), List.take_append_drop]
  have hoffset : (groups (str.take (blocks * cPerBlock))).length + (left + 2) / 3 * 4 =
      (groups str).length := by
    rw [← hsplit, List.length_append, length_groups (str.drop _), hrest]
  have hnonzero : ∀ c ∈ groups str, c ≠ 0 := fun c hmem =>
    ne_zero_of_isBase64 (isBase64_groups str c hmem)
  have hlength := length_groups str
  -- the last zero byte
  have hfinish : ∀ buf : Bytes, groups str <+: buf → (groups str).length + 1 ≤ buf.length →
      (Buffer.write buf (groups str).length [0]).map Buffer.text = some (groups str) := by
    intro buf hprefix hroom
    obtain ⟨buf', hwrite, hprefix', -⟩ := Buffer.write_behind [0] hprefix hroom
    rw [hwrite, Option.map_some, Buffer.text_of_prefix hnonzero hprefix']
  obtain ⟨buf, hencoded, hprefix, hsize⟩ := encodeBlocks_spec blocks str
    ((List.range ((str.length + 2) / 3 * 4 + 1)).map garbage) (by omega)
    List.nil_prefix (by simp)
  rw [List.length_map, List.length_range] at hsize
  rw [List.length_nil, Nat.zero_add] at hencoded
  rw [List.nil_append] at hprefix
  rw [strBase64EncodeDyn]
  dsimp only
  rw [← hblocks, ← hleft, hencoded, Option.bind_some]
  dsimp only
  by_cases hzero : left = 0
  · rw [if_neg (by omega), ← hfrontGroups]
    rw [List.eq_nil_of_length_eq_zero (hrest.trans hzero)] at hsplit
    rw [groups, List.append_nil] at hsplit
    rw [hsplit] at hprefix ⊢
    exact hfinish buf hprefix (by omega)
  · obtain ⟨buf', hwrite, hprefix', hsize'⟩ := write_encoded
      (str.drop (blocks * cPerBlock)) (by omega) (by rw [hrest, maxB64Len]; omega) hprefix
      (by rw [hrest]; omega)
    rw [hsplit] at hprefix'
    rw [if_pos hzero, List.take_of_length_le hrest.le, ← hfrontGroups, hwrite,
      Option.bind_some, hoffset]
    exact hfinish buf' hprefix' (by omega)

/-! ### Decoding -/

/-- A text into which characters that do not belong to Base64 are inserted. -/
inductive Inserted : Bytes → Bytes → Prop
  | nil : Inserted [] []
  | keep {b64 text : Bytes} (c : UInt8) : Inserted b64 text → Inserted (c :: b64) (c :: text)
  | insert {b64 text : Bytes} (c : UInt8) :
    isBase64 c = false → c ≠ 0 → Inserted b64 text → Inserted b64 (c :: text)

theorem Inserted.ne_zero {b64 text : Bytes} (h : Inserted b64 text) (hb64 : ∀ c ∈ b64, c ≠ 0) :
  ∀ c ∈ text, c ≠ 0
  := by
  induction h with
  | nil => exact hb64
  | keep c _ ih =>
    obtain ⟨hc, hrest⟩ := List.forall_mem_cons.mp hb64
    exact List.forall_mem_cons.mpr ⟨hc, ih hrest⟩
  | insert c _ hc _ ih => exact List.forall_mem_cons.mpr ⟨hc, ih hb64⟩

/-- The inserted characters are passed over. -/
theorem Inserted.decodeLoop {b64 text : Bytes} (h : Inserted b64 text) (maxsize : ℕ)
    (collected out : Bytes) :
  decodeLoop maxsize text collected out = Base64.decodeLoop maxsize b64 collected out
  := by
  induction h generalizing collected out with
  | nil => rfl
  | keep c _ ih => simp only [Base64.decodeLoop, ih]
  | insert c hforeign _ _ ih =>
    rw [Base64.decodeLoop, if_neg (by rw [hforeign]; decide)]
    exact ih collected out

/-- The loop at four characters of Base64. -/
theorem decodeLoop_block {c1 c2 c3 c4 : UInt8} (h1 : isBase64 c1 = true)
    (h2 : isBase64 c2 = true) (h3 : isBase64 c3 = true) (h4 : isBase64 c4 = true)
    (maxsize : ℕ) (rest out : Bytes) :
  decodeLoop maxsize (c1 :: c2 :: c3 :: c4 :: rest) [] out =
    let d := decodeBlock maxsize [c1, c2, c3, c4] out
    if d.full then d.out else decodeLoop maxsize rest [] d.out
  := by
  simp [decodeLoop, h1, h2, h3, h4]

variable {maxsize : ℕ} {out : Bytes}

theorem decodeBlock_one (from1 : UInt8) :
  decodeBlock maxsize
      [charBase64Encode (to1 from1), charBase64Encode (to2 from1 0), equals, equals] out =
    { out := out ++ [from1], full := out.length + 1 = maxsize }
  := by
  simp [decodeBlock, Decoded.put, (char_spec (to1_lt _)).1, (char_spec (to2_lt _ _)).1,
    to1_to2]

theorem decodeBlock_two (from1 from2 : UInt8) (hroom : out.length + 1 < maxsize) :
  decodeBlock maxsize
      [charBase64Encode (to1 from1), charBase64Encode (to2 from1 from2),
        charBase64Encode (to3 from2 0), equals] out =
    { out := out ++ [from1, from2], full := out.length + 2 = maxsize }
  := by
  have hne : charBase64Encode (to3 from2 0) ≠ equals := (char_spec (to3_lt _ _)).2.2
  simp [decodeBlock, Decoded.put, (char_spec (to1_lt _)).1, (char_spec (to2_lt _ _)).1,
    (char_spec (to3_lt _ _)).1, hne, to1_to2, to2_to3, hroom.ne]

theorem decodeBlock_three (from1 from2 from3 : UInt8) (hroom : out.length + 2 < maxsize) :
  decodeBlock maxsize
      [charBase64Encode (to1 from1), charBase64Encode (to2 from1 from2),
        charBase64Encode (to3 from2 from3), charBase64Encode (to4 from3)] out =
    { out := out ++ [from1, from2, from3], full := out.length + 3 = maxsize }
  := by
  have hne : charBase64Encode (to3 from2 from3) ≠ equals := (char_spec (to3_lt _ _)).2.2
  have hne' : charBase64Encode (to4 from3) ≠ equals := (char_spec (to4_lt _)).2.2
  have hroom' : out.length + 1 ≠ maxsize := by omega
  simp [decodeBlock, Decoded.put, (char_spec (to1_lt _)).1, (char_spec (to2_lt _ _)).1,
    (char_spec (to3_lt _ _)).1, (char_spec (to4_lt _)).1, hne, hne', to1_to2, to2_to3,
    to3_to4, hroom.ne, hroom']

/-- The encoding is decoded when there is room for the text. -/
theorem decodeLoop_groups {str : Bytes} (hroom : out.length + str.length ≤ maxsize) :
  decodeLoop maxsize (groups str) [] out = out ++ str
  := by
  have hequals : isBase64 equals = true := by decide
  fun_induction groups str generalizing out with
  | case1 => simp [decodeLoop]
  | case2 from1 =>
    rw [decodeLoop_block (char_spec (to1_lt _)).2.1 (char_spec (to2_lt _ _)).2.1 hequals hequals,
      decodeBlock_one]
    simp [decodeLoop]
  | case3 from1 from2 =>
    simp only [List.length_cons, List.length_nil] at hroom
    rw [decodeLoop_block (char_spec (to1_lt _)).2.1 (char_spec (to2_lt _ _)).2.1
      (char_spec (to3_lt _ _)).2.1 hequals, decodeBlock_two _ _ (by omega)]
    simp [decodeLoop]
  | case4 from1 from2 from3 rest ih =>
    simp only [List.length_cons] at hroom
    rw [decodeLoop_block (char_spec (to1_lt _)).2.1 (char_spec (to2_lt _ _)).2.1
      (char_spec (to3_lt _ _)).2.1 (char_spec (to4_lt _)).2.1,
      decodeBlock_three _ _ _ (by omega)]
    dsimp only
    split
    case isTrue hfull =>
      -- the buffer is full, so that nothing is left to decode
      have hnil : rest = [] := by
        apply List.eq_nil_of_length_eq_zero
        have hlength : out.length + 3 = maxsize := by simpa using hfull
        omega
      rw [hnil]
    case isFalse =>
      rw [ih (by rw [List.length_append, List.length_cons, List.length_cons,
        List.length_singleton]; omega)]
      simp

/-- The decoder gives back every text that the dynamic encoder was given, also when
characters foreign to Base64 have been inserted. -/
theorem decode_encodeDyn (garbage : ℕ → UInt8) (str : Bytes) {maxsize : ℕ}
    (hroom : str.length ≤ maxsize) :
  ∃ b64, strBase64EncodeDyn garbage str = some b64 ∧
    ∀ text, Inserted b64 text → strBase64Decode text maxsize = str
  := by
  refine ⟨groups str, strBase64EncodeDyn_eq garbage str, fun text htext => ?_⟩
  have hnonzero : ∀ c ∈ text, c ≠ 0 :=
    htext.ne_zero fun c hmem => ne_zero_of_isBase64 (isBase64_groups str c hmem)
  have htext0 : Buffer.text text = text := by
    apply List.takeWhile_eq_self_iff.mpr
    simpa using hnonzero
  rw [strBase64Decode, htext0, htext.decodeLoop]
  have hdecode : decodeLoop maxsize (groups str) [] [] = [] ++ str :=
    decodeLoop_groups (by simpa using hroom)
  rwa [List.nil_append] at hdecode

theorem decode_encodeDyn_four :
  [1, 2, 3, 4].length ≤ 5 ∧ ∃ b64, strBase64EncodeDyn (fun _ => 7) [1, 2, 3, 4] = some b64 ∧
    ∀ text, Inserted b64 text → strBase64Decode text 5 = [1, 2, 3, 4]
  := ⟨by decide, decode_encodeDyn (fun _ => 7) [1, 2, 3, 4] (by decide)⟩

end Base64
