import Zabbix.Library.Ascii
import Zabbix.Library.Memmove

/-!
# Buffers

A buffer is allocated memory of a fixed length; a write outside of it has no result.  What
stands at its beginning is a prefix of the list of its bytes, and a text in it ends before the
first zero byte.
-/

namespace Buffer

/-- Writes bytes at an offset. -/
def write (buf : Bytes) (offset : ℕ) (bytes : Bytes) : Option Bytes :=
  if offset + bytes.length ≤ buf.length then
    some (buf.take offset ++ (bytes ++ buf.drop (offset + bytes.length)))
  else none

/-- The text that begins at the beginning of a buffer. -/
def text (buf : Bytes) : Bytes := buf.takeWhile (· ≠ 0)

/-- An allocated length, doubled as long as a length is not below it. -/
def doubled (alloc need : ℕ) : ℕ :=
  if 0 < alloc ∧ alloc ≤ need then doubled (alloc * 2) need else alloc
  termination_by need + 1 - alloc

theorem lt_doubled {alloc : ℕ} (halloc : 0 < alloc) (need : ℕ) :
  need < doubled alloc need ∧ alloc ≤ doubled alloc need
  := by
  fun_induction doubled alloc need with
  | case1 alloc hsmall ih =>
    obtain ⟨hlt, hle⟩ := ih (by omega)
    exact ⟨hlt, by omega⟩
  | case2 alloc hlarge => exact ⟨by omega, Nat.le_refl alloc⟩

/-- A write behind what stands at the beginning of the buffer. -/
theorem write_behind {buf front : Bytes} (bytes : Bytes) (hfront : front <+: buf)
    (hroom : front.length + bytes.length ≤ buf.length) :
  ∃ buf', write buf front.length bytes = some buf' ∧ front ++ bytes <+: buf' ∧
    buf'.length = buf.length
  := by
  obtain ⟨rest, rfl⟩ := hfront
  rw [List.length_append] at hroom
  have hbytes : bytes.length ≤ rest.length := by omega
  refine ⟨front ++ (bytes ++ rest.drop bytes.length), ?_, ?_, ?_⟩
  · rw [write, if_pos (by rw [List.length_append]; omega), List.take_left,
      List.drop_append, Nat.add_sub_cancel_left, List.drop_eq_nil_of_le (Nat.le_add_right _ _),
      List.nil_append]
  · rw [← List.append_assoc]
    exact List.prefix_append _ _
  · simp only [List.length_append, List.length_drop]
    omega

/-- A write at the beginning of the buffer. -/
theorem write_front {buf : Bytes} (bytes : Bytes) (hroom : bytes.length ≤ buf.length) :
  ∃ buf', write buf 0 bytes = some buf' ∧ bytes <+: buf' ∧ buf'.length = buf.length
  := @write_behind buf [] bytes List.nil_prefix (by rwa [List.length_nil, Nat.zero_add])

/-- The text of a buffer that begins with it and a zero byte. -/
theorem text_of_prefix {buf bytes : Bytes} (hbytes : ∀ c ∈ bytes, c ≠ 0)
    (h : bytes ++ [0] <+: buf) :
  text buf = bytes
  := by
  obtain ⟨rest, rfl⟩ := h
  rw [text, List.append_assoc, List.takeWhile_append_of_pos (by simpa using hbytes)]
  simp

/-- A text of which it can be computed that it has no zero byte. -/
theorem forall_ne_zero {bytes : Bytes} (h : (bytes.all fun c => c != 0) = true) :
  ∀ c ∈ bytes, c ≠ 0
  := by simpa using h

/-! ### Searching -/

/-- The position of a character in front of the next zero byte, counted on from `p`; there is no
result when the memory ends before. -/
def scanTo (c : UInt8) : Bytes → ℕ → Option (Option ℕ)
  | [], _ => none
  | d :: rest, p =>
    if d = c then some (some p) else if d = 0 then some none else scanTo c rest (p + 1)

/-- `strchr` from a position on. -/
def strchr (buf : Bytes) (p : ℕ) (c : UInt8) : Option (Option ℕ) := scanTo c (buf.drop p) p

/-- The position of the first character from `p` on that does not satisfy the condition; there is
no result when the memory ends before. -/
def scanWhile (holds : UInt8 → Bool) : Bytes → ℕ → Option ℕ
  | [], _ => none
  | c :: rest, p => if holds c then scanWhile holds rest (p + 1) else some p

/-- A pointer that is moved on from a position. -/
def skip (holds : UInt8 → Bool) (buf : Bytes) (p : ℕ) : Option ℕ :=
  scanWhile holds (buf.drop p) p

section

variable {c : UInt8} {left : Bytes}

theorem skip_found {holds : UInt8 → Bool} {front buf : Bytes}
    (hleft : ∀ d ∈ left, holds d = true) (hc : holds c = false)
    (hbuf : front ++ (left ++ [c]) <+: buf) :
  skip holds buf front.length = some (front.length + left.length)
  := by
  obtain ⟨rest, rfl⟩ := hbuf
  rw [skip, List.append_assoc, List.drop_left, List.append_assoc]
  generalize front.length = p
  clear front
  induction left generalizing p with
  | nil => simp [scanWhile, hc]
  | cons d left ih =>
    obtain ⟨hd, hleft⟩ := List.forall_mem_cons.mp hleft
    rw [List.cons_append, scanWhile, if_pos hd, ih hleft, List.length_cons, Nat.add_assoc,
      Nat.add_comm 1]

theorem scanTo_append (hc : c ∉ left) (hleft : ∀ d ∈ left, d ≠ 0) (rest : Bytes) (p : ℕ) :
  scanTo c (left ++ rest) p = scanTo c rest (p + left.length)
  := by
  induction left generalizing p with
  | nil => rfl
  | cons d left ih =>
    obtain ⟨hd, hc⟩ := not_or.mp (mt List.mem_cons.mpr hc)
    obtain ⟨hzero, hleft⟩ := List.forall_mem_cons.mp hleft
    rw [List.cons_append, scanTo, if_neg (Ne.symm hd), if_neg hzero, ih hc hleft,
      List.length_cons, Nat.add_assoc, Nat.add_comm 1]

/-- The search passes over what does not contain the character. -/
theorem strchr_append {front buf : Bytes} (hc : c ∉ left) (hleft : ∀ d ∈ left, d ≠ 0)
    (hbuf : front ++ left <+: buf) :
  strchr buf front.length c = strchr buf (front.length + left.length) c
  := by
  obtain ⟨rest, rfl⟩ := hbuf
  rw [strchr, strchr, ← List.length_append, List.drop_left, List.append_assoc, List.drop_left,
    scanTo_append hc hleft, List.length_append]

theorem strchr_found {front buf : Bytes} (hc : c ∉ left) (hleft : ∀ d ∈ left, d ≠ 0)
    (hbuf : front ++ (left ++ [c]) <+: buf) :
  strchr buf front.length c = some (some (front.length + left.length))
  := by
  obtain ⟨rest, rfl⟩ := hbuf
  rw [strchr, List.append_assoc, List.drop_left, List.append_assoc, scanTo_append hc hleft,
    List.singleton_append, scanTo, if_pos rfl]

theorem strchr_missing {front buf : Bytes} (hc : c ∉ left) (hzero : c ≠ 0)
    (hleft : ∀ d ∈ left, d ≠ 0) (hbuf : front ++ (left ++ [0]) <+: buf) :
  strchr buf front.length c = some none
  := by
  obtain ⟨rest, rfl⟩ := hbuf
  rw [strchr, List.append_assoc, List.drop_left, List.append_assoc, scanTo_append hc hleft,
    List.singleton_append, scanTo, if_neg (Ne.symm hzero), if_pos rfl]

/-- A search that ends at a zero byte finds nothing before the position it begins at. -/
theorem strchr_from {buf : Bytes} {p : ℕ} (c : UInt8) (hzero : 0 ∈ buf.drop p) :
  ∃ found, strchr buf p c = some found ∧ ∀ q ∈ found, p ≤ q
  := by
  have hscan : ∀ (rest : Bytes) (p : ℕ), 0 ∈ rest →
      ∃ found, scanTo c rest p = some found ∧ ∀ q ∈ found, p ≤ q := by
    intro rest
    induction rest with
    | nil => exact fun _ hmem => absurd hmem List.not_mem_nil
    | cons d rest ih =>
      intro p hmem
      rw [scanTo]
      split_ifs with hd hend
      · exact ⟨some p, rfl, fun q hq => le_of_eq (Option.mem_some_iff.mp hq)⟩
      · exact ⟨none, rfl, fun q hq => absurd hq (Option.not_mem_none q)⟩
      · obtain ⟨found, hfound, hle⟩ :=
          ih (p + 1) ((List.mem_cons.mp hmem).resolve_left (Ne.symm hend))
        exact ⟨found, hfound, fun q hq => Nat.le_of_succ_le (hle q hq)⟩
  exact hscan _ p hzero

end

/-! ### Replacing a block -/

/-- Another allocation with the same beginning, where `junk` is what stands in new memory. -/
def realloc (junk : ℕ → UInt8) (buf : Bytes) (alloc : ℕ) : Bytes :=
  buf.take alloc ++ (List.range (alloc - buf.length)).map fun j => junk (buf.length + j)

@[simp]
theorem length_realloc (junk : ℕ → UInt8) (buf : Bytes) (alloc : ℕ) :
  (realloc junk buf alloc).length = alloc
  := by
  rw [realloc, List.length_append, List.length_take, List.length_map, List.length_range]
  omega

theorem prefix_realloc (junk : ℕ → UInt8) {buf front : Bytes} {alloc : ℕ} (h : front <+: buf)
    (halloc : front.length ≤ alloc) :
  front <+: realloc junk buf alloc
  := (List.prefix_take_iff.mpr ⟨h, halloc⟩).trans (List.prefix_append _ _)

/-- What stands behind a block is moved to its new end, and the new block is written over the old
one. -/
theorem replace_block {buf front block behind value : Bytes}
    (hbuf : front ++ (block ++ behind) <+: buf)
    (hroom : front.length + value.length + behind.length ≤ buf.length) :
  ∃ moved buf', memmove buf
      ⟨front.length + value.length, front.length + block.length, behind.length⟩ = some moved ∧
    write moved front.length value = some buf' ∧ front ++ (value ++ behind) <+: buf' ∧
    buf'.length = buf.length
  := by
  have hlength := hbuf.length_le
  simp only [List.length_append] at hlength
  have hsource : (buf.drop (front.length + block.length)).take behind.length = behind := by
    obtain ⟨rest, rfl⟩ := hbuf
    rw [← List.length_append, ← List.append_assoc, List.append_assoc, List.drop_left,
      List.take_left]
  -- the move leaves the beginning and what has to be written over
  have hbegin : front <+: buf.take (front.length + value.length) :=
    List.prefix_take_iff.mpr ⟨(List.prefix_append _ _).trans hbuf, Nat.le_add_right _ _⟩
  obtain ⟨middle, hmiddle⟩ := hbegin
  have hsize : middle.length = value.length := by
    have htake := congrArg List.length hmiddle
    rw [List.length_append, List.length_take] at htake
    omega
  let behindMoved := buf.drop (front.length + value.length + behind.length)
  have hmove : memmove buf
      ⟨front.length + value.length, front.length + block.length, behind.length⟩ =
        some (front ++ (middle ++ (behind ++ behindMoved))) := by
    rw [memmove, if_pos ⟨hroom, by dsimp only; omega⟩]
    dsimp only
    rw [hsource, ← hmiddle, List.append_assoc]
  refine ⟨_, front ++ (value ++ (behind ++ behindMoved)), hmove, ?_, ?_, ?_⟩
  · rw [write, if_pos (by simp only [List.length_append]; omega), List.take_left,
      ← hsize, ← List.length_append, ← List.append_assoc front middle, List.drop_left]
  · simp only [List.prefix_append_right_inj]
    exact List.prefix_append _ _
  · simp only [behindMoved, List.length_append, List.length_drop]
    omega

/-- A block is written over one of its length. -/
theorem write_block {buf front block behind value : Bytes}
    (hbuf : front ++ (block ++ behind) <+: buf) (hsize : value.length = block.length) :
  ∃ buf', write buf front.length value = some buf' ∧ front ++ (value ++ behind) <+: buf' ∧
    buf'.length = buf.length
  := by
  obtain ⟨rest, rfl⟩ := hbuf
  refine ⟨front ++ (value ++ behind) ++ rest, ?_, List.prefix_append _ _, ?_⟩
  · rw [write, if_pos (by simp only [List.length_append]; omega), hsize, ← List.length_append]
    simp only [List.append_assoc, List.take_left]
    rw [← List.append_assoc front block, List.drop_left]
  · simp only [List.length_append, hsize]

/-- A zero byte that ends a text for a while; the byte that stood there is put back. -/
theorem write_restore {buf front block : Bytes} {c : UInt8}
    (hbuf : front ++ (block ++ [c]) <+: buf) (hblock : ∀ d ∈ block, d ≠ 0) :
  ∃ closed, write buf (front.length + block.length) [0] = some closed ∧
    text (closed.drop front.length) = block ∧
    write closed (front.length + block.length) [c] = some buf
  := by
  obtain ⟨rest, rfl⟩ := hbuf
  have hwrite : ∀ d d' : UInt8, write (front ++ (block ++ [d]) ++ rest)
      (front.length + block.length) [d'] = some (front ++ (block ++ [d']) ++ rest) := by
    intro d d'
    have hdrop : (front ++ (block ++ [d]) ++ rest).drop
        (front.length + block.length + [d'].length) = rest := by
      rw [← List.append_assoc, ← List.length_append]
      exact List.drop_left' (by simp only [List.length_append, List.length_singleton])
    rw [write, if_pos (by simp only [List.length_append, List.length_singleton]; omega), hdrop,
      ← List.length_append, ← List.append_assoc front block, List.append_assoc _ [d],
      List.take_left, List.append_assoc, List.append_assoc, List.append_assoc]
  refine ⟨_, hwrite c 0, ?_, hwrite 0 c⟩
  rw [List.append_assoc, List.drop_left]
  exact text_of_prefix hblock (List.prefix_append _ _)

end Buffer
