import Mathlib.Tactic.Ring
import Zabbix.Library.Ascii

/-!
# Reading a line

`zbx_read` reads a buffer, looks for the end of its first line one character at a time, and
moves the offset of the file behind it.  Behind a carriage return it looks one character ahead.
When only a part of a character has been read there, the bytes that the buffer held before
take the place of the rest of it.
-/

open Ascii

namespace LogLines

/-- `strcasecmp` finds no difference. -/
def sameLetters (a b : Bytes) : Bool :=
  let lower (c : UInt8) : UInt8 := if 0x41 ≤ c ∧ c ≤ 0x5a then c + 0x20 else c
  a.map lower = b.map lower

/-- The characters `cr` and `lf` of `zbx_read` in an encoding. -/
def lineEnd (encoding : Bytes) : Bytes × Bytes :=
  let isOneOf (names : List String) : Bool :=
    names.any fun name => sameLetters encoding (bytes name.toList)
  if isOneOf ["UNICODE", "UNICODELITTLE", "UTF-16", "UTF-16LE", "UTF16", "UTF16LE"] then
    ([0x0d, 0], [0x0a, 0])
  else if isOneOf ["UNICODEBIG", "UNICODEFFFE", "UTF-16BE", "UTF16BE"] then
    ([0, 0x0d], [0, 0x0a])
  else if isOneOf ["UTF-32", "UTF-32LE", "UTF32", "UTF32LE"] then
    ([0x0d, 0, 0, 0], [0x0a, 0, 0, 0])
  else if isOneOf ["UTF-32BE", "UTF32BE"] then ([0, 0, 0, 0x0d], [0, 0, 0, 0x0a])
  else ([carriageReturn], [newline])

/-- The characters that end lines, and their width. -/
structure LineEnds where
  cr : Bytes
  lf : Bytes
  szbyte : ℕ
  cr_length : cr.length = szbyte
  lf_length : lf.length = szbyte
  szbyte_pos : 0 < szbyte
  cr_ne_lf : cr ≠ lf

/-- The characters that `zbx_read` chooses for an encoding. -/
def LineEnds.of (encoding : Bytes) : LineEnds where
  cr := (lineEnd encoding).1
  lf := (lineEnd encoding).2
  szbyte := (lineEnd encoding).2.length
  cr_length := by
    unfold lineEnd
    dsimp only
    split_ifs <;> rfl
  lf_length := rfl
  szbyte_pos := by
    unfold lineEnd
    dsimp only
    split_ifs <;> decide
  cr_ne_lf := by
    unfold lineEnd
    dsimp only
    split_ifs <;> decide

/-- The loop of `zbx_read` from a position of the buffer on, with what is left of `nbytes`: the
number of bytes up to the end of the line. -/
def lineLength (ends : LineEnds) : ℕ → Bytes → ℕ → ℕ
  | 0, _, _ => 0
  | fuel + 1, buf, nbytes =>
    if ends.szbyte ≤ nbytes then
      if ends.lf <+: buf then ends.szbyte
      else if ends.cr <+: buf then
        if ends.szbyte < nbytes ∧ ends.lf <+: buf.drop ends.szbyte then
          ends.szbyte + ends.szbyte
        else ends.szbyte
      else ends.szbyte + lineLength ends fuel (buf.drop ends.szbyte) (nbytes - ends.szbyte)
    else 0

/-- `zbx_read` at an offset of a file: what it returns, and the buffer, which held `stale`
before. -/
def zbxRead (ends : LineEnds) (count : ℕ) (stale file : Bytes) (offset : ℕ) : ℕ × Bytes :=
  let bytes := (file.drop offset).take count
  let buf := bytes ++ stale.drop bytes.length
  (lineLength ends bytes.length buf bytes.length, buf)

/-! ### Characters -/

/-- The characters have the width of the line ends. -/
def Whole (ends : LineEnds) (chars : List Bytes) : Prop := ∀ c ∈ chars, c.length = ends.szbyte

/-- How many characters the loop takes; `ahead` says whether a line feed is seen behind the
last of them. -/
def charsTaken (ends : LineEnds) (ahead : Prop) [Decidable ahead] : List Bytes → ℕ
  | [] => 0
  | c :: rest =>
    if c = ends.lf then 1
    else if c = ends.cr then
      match rest with
      | [] => if ahead then 2 else 1
      | d :: _ => if d = ends.lf then 2 else 1
    else 1 + charsTaken ends ahead rest

variable {ends : LineEnds}

theorem Whole.append {chars chars' : List Bytes} :
  Whole ends (chars ++ chars') ↔ Whole ends chars ∧ Whole ends chars'
  := List.forall_mem_append

theorem Whole.length_flatten {chars : List Bytes} (h : Whole ends chars) :
  chars.flatten.length = chars.length * ends.szbyte
  := by
  induction chars with
  | nil => simp
  | cons c chars ih =>
    obtain ⟨hc, hchars⟩ := List.forall_mem_cons.mp h
    rw [List.flatten_cons, List.length_append, hc, ih hchars, List.length_cons]
    ring

/-- Characters of one width are read back from their bytes. -/
theorem Whole.flatten_injective {chars chars' : List Bytes} (h : Whole ends chars)
    (h' : Whole ends chars') (heq : chars.flatten = chars'.flatten) :
  chars = chars'
  := by
  have hpos := ends.szbyte_pos
  induction chars generalizing chars' with
  | nil =>
    cases chars' with
    | nil => rfl
    | cons d chars' =>
      have hd := h' d List.mem_cons_self
      have hnil : d = [] := (List.append_eq_nil_iff.mp heq.symm).1
      rw [hnil, List.length_nil] at hd
      omega
  | cons c chars ih =>
    obtain ⟨hc, hchars⟩ := List.forall_mem_cons.mp h
    cases chars' with
    | nil =>
      have hnil : c = [] := (List.append_eq_nil_iff.mp heq).1
      rw [hnil, List.length_nil] at hc
      omega
    | cons d chars' =>
      obtain ⟨hd, hchars'⟩ := List.forall_mem_cons.mp h'
      rw [List.flatten_cons, List.flatten_cons] at heq
      obtain ⟨rfl, hrest⟩ := List.append_inj heq (hc.trans hd.symm)
      rw [ih hchars hchars' hrest]

theorem prefix_char_iff {mark c text : Bytes} (h : mark.length = c.length) :
  mark <+: c ++ text ↔ c = mark
  := by
  constructor
  · intro hprefix
    have hmark := List.prefix_of_prefix_length_le hprefix (List.prefix_append c text) h.le
    exact (hmark.eq_of_length h).symm
  · rintro rfl
    exact List.prefix_append _ _

/-- Among whole characters with a part of another one behind them the loop takes characters. -/
theorem lineLength_flatten {chars : List Bytes} (hchars : Whole ends chars) (behind : Bytes)
    {part fuel : ℕ} (hpart : part < ends.szbyte) (hfuel : chars.length ≤ fuel) :
  lineLength ends fuel (chars.flatten ++ behind) (chars.length * ends.szbyte + part) =
    charsTaken ends (0 < part ∧ ends.lf <+: behind) chars * ends.szbyte
  := by
  induction chars generalizing fuel with
  | nil =>
    rw [charsTaken, Nat.zero_mul]
    cases fuel with
    | zero => rfl
    | succ fuel => rw [lineLength, if_neg (by simpa using hpart)]
  | cons c chars ih =>
    obtain ⟨hc, hrest⟩ := List.forall_mem_cons.mp hchars
    obtain ⟨fuel, rfl⟩ : ∃ n, fuel = n + 1 := Nat.exists_eq_succ_of_ne_zero (by
      rintro rfl
      simp at hfuel)
    have hlf : ∀ text, ends.lf <+: c ++ text ↔ c = ends.lf := fun text =>
      prefix_char_iff (ends.lf_length.trans hc.symm)
    have hcr : ∀ text, ends.cr <+: c ++ text ↔ c = ends.cr := fun text =>
      prefix_char_iff (ends.cr_length.trans hc.symm)
    have hdrop : ∀ text : Bytes, (c ++ text).drop ends.szbyte = text := by
      intro text
      rw [← hc, List.drop_left]
    have hnbytes : (c :: chars).length * ends.szbyte + part =
        ends.szbyte + (chars.length * ends.szbyte + part) := by
      rw [List.length_cons]
      ring
    rw [hnbytes, List.flatten_cons, List.append_assoc, lineLength,
      if_pos (Nat.le_add_right _ _)]
    simp only [hlf, hcr, hdrop, Nat.add_sub_cancel_left]
    rw [charsTaken.eq_def]
    dsimp only
    by_cases hcl : c = ends.lf
    · rw [if_pos hcl, if_pos hcl, Nat.one_mul]
    rw [if_neg hcl, if_neg hcl]
    by_cases hcc : c = ends.cr
    · rw [if_pos hcc, if_pos hcc]
      cases chars with
      | nil =>
        have hseen : ends.szbyte < ends.szbyte + (([] : List Bytes).length * ends.szbyte + part) ↔
            0 < part := by simp
        simp only [hseen, List.flatten_nil, List.nil_append]
        split
        · ring
        · rw [Nat.one_mul]
      | cons d chars =>
        have hd := hrest d List.mem_cons_self
        have hseen : ends.szbyte <
            ends.szbyte + ((d :: chars).length * ends.szbyte + part) := by
          have hpos := ends.szbyte_pos
          rw [List.length_cons, Nat.succ_mul]
          omega
        have hnext : ends.lf <+: d ++ (chars.flatten ++ behind) ↔ d = ends.lf :=
          prefix_char_iff (ends.lf_length.trans hd.symm)
        simp only [List.flatten_cons, List.append_assoc, hnext, hseen, true_and]
        split
        · ring
        · rw [Nat.one_mul]
    · rw [if_neg hcc, if_neg hcc, ih hrest (Nat.le_of_succ_le_succ hfuel)]
      ring

/-- A line feed seems to follow the last of the characters that are left, though only a part of
it does. -/
def Ahead (ends : LineEnds) (n : ℕ) (stale : Bytes) (chars : List Bytes) (part : Bytes) : Prop :=
  chars.length < n ∧ part ≠ [] ∧
    ends.lf <+: part ++ stale.drop (chars.length * ends.szbyte + part.length)

instance (n : ℕ) (stale : Bytes) (chars : List Bytes) (part : Bytes) :
    Decidable (Ahead ends n stale chars part) :=
  inferInstanceAs (Decidable (_ ∧ _))

theorem charsTaken_congr {ahead ahead' : Prop} [Decidable ahead] [Decidable ahead']
    (h : ahead ↔ ahead') (chars : List Bytes) :
  charsTaken ends ahead chars = charsTaken ends ahead' chars
  := by
  obtain rfl := propext h
  congr

/-- One call takes characters from the first ones that are left in the file. -/
theorem zbxRead_eq {n offset : ℕ} {stale file part : Bytes} {chars : List Bytes}
    (hchars : Whole ends chars) (hpart : part.length < ends.szbyte)
    (hfile : file.drop offset = chars.flatten ++ part) :
  ∃ behind, zbxRead ends (n * ends.szbyte) stale file offset =
    (charsTaken ends (Ahead ends n stale chars part) (chars.take n) * ends.szbyte,
      (chars.take n).flatten ++ behind)
  := by
  have hpos := ends.szbyte_pos
  have hlength := hchars.length_flatten
  by_cases hlt : chars.length < n
  · -- all that is left is read, the part of a character included
    have htake : (chars.flatten ++ part).take (n * ends.szbyte) = chars.flatten ++ part := by
      apply List.take_of_length_le
      rw [List.length_append, hlength]
      calc chars.length * ends.szbyte + part.length
          ≤ chars.length * ends.szbyte + ends.szbyte := by omega
        _ = (chars.length + 1) * ends.szbyte := by ring
        _ ≤ n * ends.szbyte := Nat.mul_le_mul_right _ hlt
    have hfuel : chars.length ≤ chars.length * ends.szbyte + part.length :=
      (Nat.le_mul_of_pos_right _ hpos).trans (Nat.le_add_right _ _)
    use part ++ stale.drop (chars.length * ends.szbyte + part.length)
    rw [zbxRead, hfile, htake, List.take_of_length_le hlt.le, List.length_append, hlength]
    simp only [List.append_assoc]
    rw [lineLength_flatten hchars _ hpart hfuel]
    congr 2
    apply charsTaken_congr
    rw [Ahead, List.length_pos_iff]
    exact ⟨fun h => ⟨hlt, h⟩, fun h => h.2⟩
  · have hwindow : Whole ends (chars.take n) := fun c hc => hchars c (List.mem_of_mem_take hc)
    have hn : (chars.take n).length = n := List.length_take_of_le (Nat.not_lt.mp hlt)
    have htake : (chars.flatten ++ part).take (n * ends.szbyte) = (chars.take n).flatten := by
      conv_lhs => rw [← List.take_append_drop n chars, List.flatten_append, List.append_assoc]
      apply List.take_left'
      rw [hwindow.length_flatten, hn]
    have hread := lineLength_flatten hwindow
      (stale.drop ((chars.take n).length * ends.szbyte)) hpos (Nat.le_mul_of_pos_right _ hpos)
    use stale.drop ((chars.take n).length * ends.szbyte)
    rw [zbxRead, hfile, htake]
    simp only [hwindow.length_flatten]
    rw [Nat.add_zero] at hread
    rw [hread]
    congr 2
    apply charsTaken_congr
    exact ⟨fun h => absurd h.1 (lt_irrefl 0), fun h => absurd h.1 hlt⟩

end LogLines
