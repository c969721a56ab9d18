import Mathlib.Data.List.Induction
import Zabbix.Json.Writer
import Zabbix.Library.Buffer
import Zabbix.Library.CInt

/-!
# Hexadecimal texts

Bytes are printed as two digits each, and a text of digits is replaced in place by the bytes it
stands for. The second loop reads two characters at a time and looks for the terminating zero
byte in front of the first one only.
-/

open Ascii Buffer Json

namespace Hexadecimal

/-- The two digits of a byte. -/
def pair (c : UInt8) : Bytes := [num2hex ((c >>> 4) &&& 0xf), num2hex (c &&& 0xf)]

/-- The byte for two digits. -/
def unpair (first second : UInt8) : UInt8 := (hex2num first <<< 4) + hex2num second

/-- The loop of `zbx_binary2hex`, which writes at `o`, and the zero byte behind it. -/
def binary2hexLoop (output : Bytes) (o : ℕ) : Bytes → Option Bytes
  | [] => write output o [0]
  | c :: input => (write output o (pair c)).bind fun output => binary2hexLoop output (o + 2) input

/-- `zbx_binary2hex`. The bytes a reallocation adds have the contents of `fresh`. -/
def binary2hex (fresh : ℕ → UInt8) (input output : Bytes) : Option (Bytes × ℕ) :=
  let len := 2 * input.length + 1
  let output := if output.length < len
    then output ++ (List.range (len - output.length)).map fresh else output
  (binary2hexLoop output 0 input).map fun output => (output, len - 1)

/-- The loop of `zbx_hex2binary`, which reads at `i` and writes at `o`, and the zero byte behind
it. There is no result when it reads or writes outside of the memory. The first argument bounds
the number of rounds. -/
def hex2binaryLoop : ℕ → Bytes → ℕ → ℕ → Option (Bytes × ℕ)
  | 0, _, _, _ => none
  | rounds + 1, io, i, o =>
    io[i]?.bind fun first =>
      if first = 0 then (write io o [0]).map fun io => (io, o)
      else
        io[i + 1]?.bind fun second =>
          (write io o [unpair first second]).bind fun io => hex2binaryLoop rounds io (i + 2) (o + 1)

/-- A length that is converted to `int` and then to `size_t`. -/
def intLength (length : ℕ) : ℕ := (CInt.wrap length % 18446744073709551616).toNat

/-- `zbx_hex2binary`. -/
def hex2binary (io : Bytes) : Option (Bytes × ℕ) :=
  (hex2binaryLoop io.length io 0 0).map fun (io, o) => (io, intLength o)

/-! ### Printing -/

/-- The digits of bytes. -/
def digits (input : Bytes) : Bytes := input.flatMap pair

theorem digits_cons (c : UInt8) (input : Bytes) :
  digits (c :: input) = pair c ++ digits input
  := rfl

theorem unpair_pair (c : UInt8) :
  unpair (num2hex ((c >>> 4) &&& 0xf)) (num2hex (c &&& 0xf)) = c
  := by
  have hall : (List.range 256).all (fun n => unpair (num2hex ((UInt8.ofNat n >>> 4) &&& 0xf))
      (num2hex (UInt8.ofNat n &&& 0xf)) == UInt8.ofNat n) = true := by decide +kernel
  revert c
  exact forall_byte fun n hn => by simpa using List.all_eq_true.mp hall n (List.mem_range.mpr hn)

theorem pair_ne_zero (c : UInt8) :
  ∀ d ∈ pair c, d ≠ 0
  := by
  have hall : (List.range 256).all (fun n => (pair (UInt8.ofNat n)).all (· != 0)) = true := by
    decide +kernel
  revert c
  exact forall_byte fun n hn => by simpa using List.all_eq_true.mp hall n (List.mem_range.mpr hn)

theorem length_digits (input : Bytes) :
  (digits input).length = 2 * input.length
  := by
  induction input with
  | nil => rfl
  | cons c input ih =>
    rw [digits_cons, List.length_append, ih, List.length_cons]
    simp only [pair, List.length_cons, List.length_nil]
    omega

theorem digits_ne_zero (input : Bytes) :
  ∀ d ∈ digits input, d ≠ 0
  := by
  intro d hd
  obtain ⟨c, -, hd⟩ := List.mem_flatMap.mp hd
  exact pair_ne_zero c d hd

/-- The loop writes the digits and the zero byte behind what stands in the buffer. -/
theorem binary2hexLoop_eq {output front input : Bytes} (hfront : front <+: output)
    (hroom : front.length + 2 * input.length + 1 ≤ output.length) :
  ∃ output', binary2hexLoop output front.length input = some output' ∧
    front ++ (digits input ++ [0]) <+: output'
  := by
  induction input generalizing output front with
  | nil =>
    obtain ⟨output', hwrite, hwritten, -⟩ := write_behind [0] hfront hroom
    exact ⟨output', hwrite, hwritten⟩
  | cons c input ih =>
    rw [List.length_cons] at hroom
    obtain ⟨output', hwrite, hwritten, hsame⟩ := write_behind (pair c) hfront (by
      change front.length + 2 ≤ output.length
      omega)
    have hlength : (front ++ pair c).length = front.length + 2 := List.length_append
    obtain ⟨output'', hloop, hbegins⟩ := ih hwritten (by rw [hlength, hsame]; omega)
    refine ⟨output'', ?_, ?_⟩
    · rw [binary2hexLoop, hwrite, Option.bind_some, ← hlength]
      exact hloop
    · rwa [List.append_assoc, ← List.append_assoc (pair c), ← digits_cons] at hbegins

/-- Every copy stays inside of the buffer, which holds the digits and a zero byte in the end. -/
theorem binary2hex_eq (fresh : ℕ → UInt8) (input output : Bytes) :
  ∃ output', binary2hex fresh input output = some (output', 2 * input.length) ∧
    digits input ++ [0] <+: output'
  := by
  rw [binary2hex]
  generalize hgrown : (if output.length < 2 * input.length + 1
    then output ++ (List.range (2 * input.length + 1 - output.length)).map fresh
    else output) = grown
  have hroom : 2 * input.length + 1 ≤ grown.length := by
    rw [← hgrown]
    split_ifs with hshort
    · rw [List.length_append, List.length_map, List.length_range]
      omega
    · omega
  obtain ⟨output', hloop, hbegins⟩ := @binary2hexLoop_eq grown [] input List.nil_prefix
    (by rw [List.length_nil]; omega)
  exact ⟨output', by rw [← List.length_nil (α := UInt8), hloop]; rfl, hbegins⟩

/-! ### Reading -/

/-- The bytes a text of digits stands for. -/
def bytes : Bytes → Bytes
  | first :: second :: text => unpair first second :: bytes text
  | _ => []

theorem bytes_nil :
  bytes [] = []
  := rfl

theorem bytes_cons (first second : UInt8) (text : Bytes) :
  bytes (first :: second :: text) = unpair first second :: bytes text
  := rfl

theorem bytes_digits (input : Bytes) :
  bytes (digits input) = input
  := by
  induction input with
  | nil => rfl
  | cons c input ih =>
    rw [digits_cons, pair, List.cons_append, List.singleton_append, bytes_cons, unpair_pair, ih]

theorem hex2binaryLoop_succ (rounds : ℕ) (io : Bytes) (i o : ℕ) :
  hex2binaryLoop (rounds + 1) io i o =
    io[i]?.bind fun first =>
      if first = 0 then (write io o [0]).map fun io => (io, o)
      else
        io[i + 1]?.bind fun second =>
          (write io o [unpair first second]).bind fun io => hex2binaryLoop rounds io (i + 2) (o + 1)
  := rfl

section

variable {done gap rest : Bytes} {first second : UInt8}

/-- What the loop finds at its position in front of `rest`. -/
theorem reads_at (done gap : Bytes) (rest : Bytes) (k : ℕ) :
  (done ++ (gap ++ rest))[done.length + gap.length + k]? = rest[k]?
  := by
  rw [Nat.add_assoc, List.getElem?_append_right (Nat.le_add_right _ _), Nat.add_sub_cancel_left,
    List.getElem?_append_right (Nat.le_add_right _ _), Nat.add_sub_cancel_left]

/-- One round: two characters are read, and their byte is written behind those before. -/
theorem hex2binaryLoop_pair (rounds : ℕ) (hfirst : first ≠ 0) :
  ∃ gap', gap'.length = gap.length + 1 ∧
    hex2binaryLoop (rounds + 1) (done ++ (gap ++ first :: second :: rest))
      (done.length + gap.length) done.length =
    hex2binaryLoop rounds ((done ++ [unpair first second]) ++ (gap' ++ rest))
      ((done ++ [unpair first second]).length + gap'.length)
      (done ++ [unpair first second]).length
  := by
  refine ⟨(gap ++ [first, second]).tail, ?_, ?_⟩
  · rw [List.length_tail, List.length_append]
    rfl
  · have hat := reads_at done gap (first :: second :: rest) 0
    have hnext := reads_at done gap (first :: second :: rest) 1
    have hposition : (done ++ [unpair first second]).length + (gap ++ [first, second]).tail.length =
        done.length + gap.length + 2 := by
      simp only [List.length_append, List.length_tail, List.length_cons, List.length_nil]
      omega
    have hwrite : write (done ++ (gap ++ first :: second :: rest)) done.length
        [unpair first second] =
        some ((done ++ [unpair first second]) ++ ((gap ++ [first, second]).tail ++ rest)) := by
      have hmemory : gap ++ first :: second :: rest =
          (gap ++ [first, second]).head (by simp) :: ((gap ++ [first, second]).tail ++ rest) := by
        rw [← List.cons_append, List.cons_head_tail, List.append_assoc]
        rfl
      rw [hmemory, write, if_pos (by simp), List.take_left, List.length_singleton,
        ← List.drop_drop, List.drop_left, List.append_assoc]
      rfl
    rw [Nat.add_zero] at hat
    rw [hex2binaryLoop_succ, hat, hnext, List.getElem?_cons_zero, Option.bind_some, if_neg hfirst,
      List.getElem?_cons_succ, List.getElem?_cons_zero, Option.bind_some, hwrite, Option.bind_some,
      hposition, List.length_append]
    rfl

/-- The end of the text. -/
theorem hex2binaryLoop_end (rounds : ℕ) :
  ∃ io, hex2binaryLoop (rounds + 1) (done ++ (gap ++ 0 :: rest)) (done.length + gap.length)
      done.length = some (io, done.length) ∧ done ++ [0] <+: io
  := by
  have hat := reads_at done gap (0 :: rest) 0
  rw [Nat.add_zero] at hat
  obtain ⟨io, hwrite, hwritten, -⟩ := write_behind [0] (List.prefix_append done (gap ++ 0 :: rest))
    (by simp only [List.length_append, List.length_cons, List.length_nil]; omega)
  refine ⟨io, ?_, hwritten⟩
  rw [hex2binaryLoop_succ, hat, List.getElem?_cons_zero, Option.bind_some, if_pos rfl, hwrite]
  rfl

end

/-- A text of an even length is replaced by its bytes, whatever stands behind it. -/
theorem hex2binaryLoop_even {text : Bytes} (hzero : ∀ c ∈ text, c ≠ 0)
    (heven : text.length % 2 = 0) (done gap behind : Bytes) {rounds : ℕ}
    (hrounds : text.length < rounds) :
  ∃ io, hex2binaryLoop rounds (done ++ (gap ++ (text ++ 0 :: behind)))
      (done.length + gap.length) done.length = some (io, done.length + text.length / 2) ∧
    done ++ bytes text ++ [0] <+: io
  := by
  obtain ⟨rounds, rfl⟩ := Nat.exists_eq_add_one_of_ne_zero (Nat.ne_zero_of_lt hrounds)
  induction text using List.twoStepInduction generalizing done gap rounds with
  | nil =>
    rw [bytes_nil, List.append_nil]
    exact hex2binaryLoop_end rounds
  | singleton first => exact absurd heven (by simp)
  | cons_cons first second text ih _ =>
    obtain ⟨hfirst, hzero⟩ := List.forall_mem_cons.mp hzero
    obtain ⟨-, hzero⟩ := List.forall_mem_cons.mp hzero
    simp only [List.length_cons] at heven hrounds
    obtain ⟨rounds, rfl⟩ := Nat.exists_eq_add_one_of_ne_zero (show rounds ≠ 0 by omega)
    obtain ⟨gap', -, hround⟩ := @hex2binaryLoop_pair done gap (text ++ 0 :: behind) first second
      (rounds + 1) hfirst
    obtain ⟨io, hloop, hbegins⟩ := ih hzero (by omega) (done ++ [unpair first second]) gap' rounds
      (by omega)
    refine ⟨io, ?_, ?_⟩
    · rw [List.cons_append, List.cons_append, hround, hloop]
      simp only [List.length_append, List.length_cons, List.length_nil, Option.some.injEq,
        Prod.mk.injEq, true_and]
      omega
    · rwa [List.append_assoc done, List.singleton_append, ← bytes_cons] at hbegins

/-- For a text of an odd length the loop passes the zero byte and leaves the memory. -/
theorem hex2binaryLoop_odd {text : Bytes} (hzero : ∀ c ∈ text, c ≠ 0)
    (hodd : text.length % 2 = 1) (done gap : Bytes) (rounds : ℕ) :
  hex2binaryLoop rounds (done ++ (gap ++ (text ++ [0]))) (done.length + gap.length)
    done.length = none
  := by
  induction text using List.twoStepInduction generalizing done gap rounds with
  | nil => exact absurd hodd (by simp)
  | singleton first =>
    have hfirst := List.forall_mem_singleton.mp hzero
    cases rounds with
    | zero => rfl
    | succ rounds =>
      -- the second character is the zero byte, and the next round reads behind it
      obtain ⟨gap', -, hround⟩ := @hex2binaryLoop_pair done gap [] first 0 rounds hfirst
      rw [List.singleton_append, hround]
      cases rounds with
      | zero => rfl
      | succ rounds =>
        have hat := reads_at (done ++ [unpair first 0]) gap' [] 0
        rw [Nat.add_zero] at hat
        rw [hex2binaryLoop_succ, hat]
        rfl
  | cons_cons first second text ih _ =>
    obtain ⟨hfirst, hzero⟩ := List.forall_mem_cons.mp hzero
    obtain ⟨-, hzero⟩ := List.forall_mem_cons.mp hzero
    simp only [List.length_cons] at hodd
    cases rounds with
    | zero => rfl
    | succ rounds =>
      obtain ⟨gap', -, hround⟩ := @hex2binaryLoop_pair done gap (text ++ [0]) first second rounds
        hfirst
      rw [List.cons_append, List.cons_append, hround]
      exact ih hzero (by omega) _ _ _

/-- A text of an even length is replaced by its bytes. -/
theorem hex2binary_even {text : Bytes} (hzero : ∀ c ∈ text, c ≠ 0)
    (heven : text.length % 2 = 0) (behind : Bytes) :
  ∃ io, hex2binary (text ++ 0 :: behind) = some (io, intLength (text.length / 2)) ∧
    bytes text ++ [0] <+: io
  := by
  obtain ⟨io, hloop, hbegins⟩ := @hex2binaryLoop_even text hzero heven [] [] behind
    (text ++ 0 :: behind).length (by
      rw [List.length_append, List.length_cons]
      omega)
  rw [List.length_nil, Nat.zero_add, Nat.zero_add, List.nil_append, List.nil_append] at hloop
  exact ⟨io, by rw [hex2binary, hloop, Option.map_some], hbegins⟩

/-- A length that an `int` can hold is kept. -/
theorem intLength_eq {length : ℕ} (h : length < 2147483648) :
  intLength length = length
  := by
  have hfits : CInt.Fits length := ⟨by omega, by omega⟩
  rw [intLength, CInt.wrap_of_fits hfits]
  omega

/-- What is printed are the digits of the bytes and a zero byte, and reading them gives the bytes
again. Both loops stay inside of their memory, and both report the length of what they wrote, the
second one as far as an `int` can hold it. -/
theorem hex2binary_binary2hex (fresh : ℕ → UInt8) (input output : Bytes) :
  ∃ printed io length, binary2hex fresh input output = some (printed, 2 * input.length) ∧
    digits input ++ [0] <+: printed ∧
    hex2binary printed = some (io, length) ∧ input ++ [0] <+: io ∧
    (input.length < 2147483648 → length = input.length)
  := by
  obtain ⟨printed, hprinted, hdigits⟩ := binary2hex_eq fresh input output
  obtain ⟨behind, hbehind⟩ := hdigits
  have hlength := length_digits input
  obtain ⟨io, hread, hbegins⟩ := hex2binary_even (digits_ne_zero input)
    (by rw [hlength, Nat.mul_mod_right]) behind
  rw [hlength, Nat.mul_div_cancel_left _ (by decide)] at hread
  rw [bytes_digits] at hbegins
  have hmemory : printed = digits input ++ 0 :: behind := by
    rw [← hbehind, List.append_assoc, List.singleton_append]
  exact ⟨printed, io, _, hprinted, ⟨behind, hbehind⟩, by rw [hmemory, hread], hbegins,
    intLength_eq⟩

/-- A text without memory behind it is read inside of its memory exactly when it has an even
number of characters. -/
theorem hex2binary_inside_iff {text : Bytes} (hzero : ∀ c ∈ text, c ≠ 0) :
  (hex2binary (text ++ [0])).isSome ↔ text.length % 2 = 0
  := by
  constructor
  · intro hsome
    by_contra hodd
    have hnone := hex2binaryLoop_odd hzero (by omega) [] [] (text ++ [0]).length
    rw [List.length_nil, Nat.zero_add, List.nil_append, List.nil_append] at hnone
    rw [hex2binary, hnone, Option.map_none] at hsome
    exact absurd hsome (by simp)
  · intro heven
    obtain ⟨io, hread, -⟩ := hex2binary_even hzero heven []
    rw [hread]
    rfl

theorem oddText_not_inside :
  ¬(hex2binary ([0x61, 0x62, 0x63] ++ [0])).isSome
  := by
  rw [hex2binary_inside_iff (by simp)]
  simp

end Hexadecimal
