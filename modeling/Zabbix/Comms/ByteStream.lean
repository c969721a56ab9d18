import Zabbix.Library.Ascii

/-!
# Byte streams

The receiving end of a connection.  A read of up to `requested` bytes returns between one and
all of the bytes that have arrived and are not yet read; how many is not up to the reader.
When there are none, a read of a closed connection returns no bytes, and a read of an open one
does not succeed.
-/

/-- What has arrived, whether the other end has closed the connection, and how many bytes the
next reads would like to return. When no more is said, they return all they can. -/
structure ByteStream where
  unread : Bytes
  closed : Bool
  cuts : List ℕ

namespace ByteStream

/-- How many bytes the next read returns. -/
def count (s : ByteStream) (requested : ℕ) : ℕ :=
  min (min requested s.unread.length) (max 1 (s.cuts.headD s.unread.length))

/-- The stream after the next read. -/
def skip (s : ByteStream) (requested : ℕ) : ByteStream :=
  { s with unread := s.unread.drop (s.count requested), cuts := s.cuts.tail }

/-- A read; `none` when it fails or does not return in time. -/
def read (s : ByteStream) (requested : ℕ) : Option (Bytes × ByteStream) :=
  if s.unread.length ≠ 0 then some (s.unread.take (s.count requested), s.skip requested)
  else if s.closed then some ([], s)
  else none

variable {s s' : ByteStream} {requested : ℕ} {bytes : Bytes}

theorem count_le (s : ByteStream) (requested : ℕ) :
  s.count requested ≤ requested
  := Nat.le_trans (Nat.min_le_left _ _) (Nat.min_le_left _ _)

theorem count_le_length (s : ByteStream) (requested : ℕ) :
  s.count requested ≤ s.unread.length
  := Nat.le_trans (Nat.min_le_left _ _) (Nat.min_le_right _ _)

theorem count_pos (h : s.unread.length ≠ 0) (hreq : requested ≠ 0) :
  0 < s.count requested
  := by
  unfold count
  omega

theorem skip_unread : (s.skip requested).unread = s.unread.drop (s.count requested)
  := rfl

theorem skip_closed : (s.skip requested).closed = s.closed
  := rfl

theorem read_of_unread (h : s.unread.length ≠ 0) :
  s.read requested = some (s.unread.take (s.count requested), s.skip requested)
  := if_pos h

theorem read_closed (h : s.unread.length = 0) (hclosed : s.closed = true) :
  s.read requested = some ([], s)
  := by
  rw [read, if_neg (not_not.mpr h), if_pos hclosed]

/-- A read fails exactly when it would have to wait for more bytes. -/
theorem read_eq_none_iff :
  s.read requested = none ↔ s.unread.length = 0 ∧ s.closed = false
  := by
  unfold read
  by_cases h : s.unread.length = 0 <;> cases s.closed <;> simp [h]

/-- A read takes bytes from the front of the stream. -/
theorem read_spec (h : s.read requested = some (bytes, s')) :
  s.unread = bytes ++ s'.unread ∧ bytes.length ≤ requested ∧ s'.closed = s.closed
  := by
  unfold read at h
  split at h
  case isTrue =>
    obtain ⟨rfl, rfl⟩ := Prod.mk.inj (Option.some.inj h)
    refine ⟨(List.take_append_drop _ _).symm, ?_, rfl⟩
    rw [List.length_take]
    exact Nat.le_trans (Nat.min_le_left _ _) (count_le _ _)
  case isFalse =>
    split at h
    case isTrue =>
      obtain ⟨rfl, rfl⟩ := Prod.mk.inj (Option.some.inj h)
      exact ⟨rfl, Nat.zero_le _, rfl⟩
    case isFalse => contradiction

end ByteStream
