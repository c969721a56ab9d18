import Mathlib.Algebra.Order.Ring.Nat
import Mathlib.Data.List.TakeWhile
import Mathlib.Tactic.Set
import Zabbix.Comms.Tcp

/-!
# What is received of a message

The receiver returns the payload of a message whenever its first read returns the whole
header and its second the whole length, and gives up when the second does not.  When the
first read returns less than the header, it takes the message for a request without header;
and it takes what has arrived before the connection was closed for the payload.
`recvExt_meets_iff` says exactly when what it returns is right.
-/

open Ascii

namespace Tcp

/-! ### What is sent -/

/-- The bytes of a message. -/
def wire (payload : Bytes) : Bytes := header ++ (htole payload.length ++ payload)

theorem sendLoop_eq (data : Bytes) (cuts : List ℕ) :
  sendLoop data cuts = data
  := by
  fun_induction sendLoop data cuts with
  | case1 data cuts h => exact (List.eq_nil_of_length_eq_zero h).symm
  | case2 data cuts h written ih => rw [ih, List.take_append_drop]

/-- However the payload is cut, the bytes of the message are written. -/
theorem sendExt_eq (payload : Bytes) (cuts : List ℕ) :
  sendExt true payload cuts = wire payload
  := by
  rw [sendExt, if_pos rfl, sendLoop_eq, wire, List.append_assoc]

theorem length_htole (n : ℕ) :
  (htole n).length = 8
  := by
  rw [htole, List.length_map, List.length_range]

theorem letoh_htole {n : ℕ} (h : n < 2 ^ 64) :
  letoh (htole n) = n
  := by
  simp only [letoh, htole, List.range, List.range.loop, List.map_cons, List.map_nil,
    List.foldr_cons, List.foldr_nil, Nat.toUInt8, UInt8.toNat_ofNat']
  omega

theorem length_wire (payload : Bytes) :
  (wire payload).length = 13 + payload.length
  := by
  rw [wire, List.length_append, List.length_append, length_htole]
  simp only [header, List.length_cons, List.length_nil]
  omega

/-! ### The loops -/

variable {expectedLen readBytes : ℕ} {buf : Bytes} {s : ByteStream}

/-- The bytes after a read. -/
theorem length_skip (s : ByteStream) (requested : ℕ) :
  (s.skip requested).unread.length = s.unread.length - s.count requested
  := by
  rw [ByteStream.skip_unread, List.length_drop]

theorem length_take_count (s : ByteStream) (requested : ℕ) :
  (s.unread.take (s.count requested)).length = s.count requested
  := by
  rw [List.length_take]
  exact Nat.min_eq_left (s.count_le_length _)

/-- The loop over the static buffer, while there are bytes to read. -/
theorem fillStatic_read (hmore : buf.length < expectedLen)
    (hleft : 0 < statBufLen - 1 - buf.length) (hunread : s.unread.length ≠ 0) :
  fillStatic true expectedLen buf s =
    fillStatic true expectedLen
      (buf ++ s.unread.take (s.count (statBufLen - 1 - buf.length)))
      (s.skip (statBufLen - 1 - buf.length))
  := by
  have hcount := ByteStream.count_pos hunread hleft.ne'
  have hlength := length_take_count s (statBufLen - 1 - buf.length)
  rw [fillStatic, if_pos ⟨hmore, hleft⟩, ByteStream.read_of_unread hunread]
  dsimp only
  rw [if_neg (by omega), if_pos rfl]

/-- The loop at the end of a closed stream. -/
theorem fillStatic_closed (hmore : buf.length < expectedLen)
    (hleft : 0 < statBufLen - 1 - buf.length) (hunread : s.unread.length = 0)
    (hclosed : s.closed = true) :
  fillStatic true expectedLen buf s = .done buf buf.length s
  := by
  rw [fillStatic, if_pos ⟨hmore, hleft⟩, ByteStream.read_closed hunread hclosed]
  simp

/-- The loop where it would have to wait. -/
theorem fillStatic_open (hmore : buf.length < expectedLen)
    (hleft : 0 < statBufLen - 1 - buf.length) (hunread : s.unread.length = 0)
    (hopen : s.closed = false) :
  fillStatic true expectedLen buf s = .error
  := by
  rw [fillStatic, if_pos ⟨hmore, hleft⟩, ByteStream.read_eq_none_iff.mpr ⟨hunread, hopen⟩]

theorem fillStatic_enough
    (henough : ¬ (buf.length < expectedLen ∧ 0 < statBufLen - 1 - buf.length)) :
  fillStatic true expectedLen buf s = .done buf buf.length s
  := by
  rw [fillStatic, if_neg henough]

/-- A loop that reads until the connection is closed fills the static buffer with the bytes
that arrive. -/
theorem fillStatic_done (expectedLen : ℕ) (buf : Bytes) (s : ByteStream)
    (hbuf : buf.length < statBufLen)
    (hlen : statBufLen - 1 ≤ expectedLen ∨ buf.length + s.unread.length ≤ expectedLen)
    (henough : min (statBufLen - 1) expectedLen ≤ buf.length + s.unread.length ∨
      s.closed = true) :
  ∃ s', fillStatic true expectedLen buf s =
      .done ((buf ++ s.unread).take (statBufLen - 1))
        ((buf ++ s.unread).take (statBufLen - 1)).length s' ∧
    s'.unread = (buf ++ s.unread).drop (statBufLen - 1) ∧ s'.closed = s.closed
  := by
  induction hn : s.unread.length using Nat.strong_induction_on generalizing buf s with
  | _ n ih =>
    by_cases hunread : s.unread.length = 0
    · -- nothing more arrives
      rw [List.eq_nil_of_length_eq_zero hunread, List.append_nil,
        List.take_of_length_le (by omega), List.drop_eq_nil_of_le (by omega)]
      refine ⟨s, ?_, List.eq_nil_of_length_eq_zero hunread, rfl⟩
      by_cases hcond : buf.length < expectedLen ∧ 0 < statBufLen - 1 - buf.length
      · exact fillStatic_closed hcond.1 hcond.2 hunread (henough.resolve_left (by omega))
      · exact fillStatic_enough hcond
    · by_cases hcond : buf.length < expectedLen ∧ 0 < statBufLen - 1 - buf.length
      · rw [fillStatic_read hcond.1 hcond.2 hunread]
        have hcount := ByteStream.count_pos hunread hcond.2.ne'
        have hcountLe : s.count (statBufLen - 1 - buf.length) ≤ statBufLen - 1 - buf.length :=
          s.count_le _
        have hlength := length_skip s (statBufLen - 1 - buf.length)
        have hcountLen : s.count (statBufLen - 1 - buf.length) ≤ s.unread.length :=
          s.count_le_length _
        have htake := length_take_count s (statBufLen - 1 - buf.length)
        set count := s.count (statBufLen - 1 - buf.length)
        have hbuf' : (buf ++ s.unread.take count).length = buf.length + count := by
          rw [List.length_append, htake]
        have hall : buf ++ s.unread.take count ++ (s.skip (statBufLen - 1 - buf.length)).unread =
            buf ++ s.unread := by
          rw [ByteStream.skip_unread, List.append_assoc, List.take_append_drop]
        obtain ⟨s', hdone, hrest, hclosed⟩ := ih _ (by omega) (buf ++ s.unread.take count)
          (s.skip (statBufLen - 1 - buf.length)) (by omega) (by omega)
          (henough.imp (fun h => by omega) id) rfl
        rw [hall] at hdone hrest
        exact ⟨s', hdone, hrest, hclosed⟩
      · -- the buffer is full
        rw [fillStatic_enough hcond]
        have hfull : buf.length = statBufLen - 1 := by omega
        rw [← hfull, List.take_left, List.drop_left]
        exact ⟨s, rfl, rfl, rfl⟩

/-- The loop over the static buffer fails on an open stream that does not fill it. -/
theorem fillStatic_error (hfew : buf.length + s.unread.length < min (statBufLen - 1) expectedLen)
    (hopen : s.closed = false) :
  fillStatic true expectedLen buf s = .error
  := by
  induction hn : s.unread.length using Nat.strong_induction_on generalizing buf s with
  | _ n ih =>
    by_cases hunread : s.unread.length = 0
    · exact fillStatic_open (by omega) (by omega) hunread hopen
    · rw [fillStatic_read (by omega) (by omega) hunread]
      have hcount : 0 < s.count (statBufLen - 1 - buf.length) :=
        ByteStream.count_pos hunread (by omega)
      have hlength := length_skip s (statBufLen - 1 - buf.length)
      have hcountLen : s.count (statBufLen - 1 - buf.length) ≤ s.unread.length :=
        s.count_le_length _
      have htake := length_take_count s (statBufLen - 1 - buf.length)
      refine ih _ (by omega) ?_ (ByteStream.skip_closed.trans hopen) rfl
      rw [List.length_append, htake]
      omega

/-- The loop over the dynamic buffer, while there are bytes to read. -/
theorem fillDynamic_read (hmore : readBytes < expectedLen) (hunread : s.unread.length ≠ 0) :
  fillDynamic true expectedLen buf readBytes s =
    fillDynamic true expectedLen (buf ++ Buffer.text (s.unread.take (s.count statBufLen)))
      (readBytes + s.count statBufLen) (s.skip statBufLen)
  := by
  have hcount : 0 < s.count statBufLen := ByteStream.count_pos hunread (by decide)
  have hlength := length_take_count s statBufLen
  rw [fillDynamic, if_pos hmore]
  split
  case h_1 hread =>
    rw [ByteStream.read_of_unread hunread] at hread
    contradiction
  case h_2 bytes s' hread =>
    rw [ByteStream.read_of_unread hunread] at hread
    obtain ⟨rfl, rfl⟩ := Prod.mk.inj (Option.some.inj hread)
    simp [hlength, hcount.ne']

/-- The loop at the end of a closed stream. -/
theorem fillDynamic_closed (hmore : readBytes < expectedLen) (hunread : s.unread.length = 0)
    (hclosed : s.closed = true) :
  fillDynamic true expectedLen buf readBytes s = .done buf readBytes s
  := by
  rw [fillDynamic, if_pos hmore]
  split
  case h_1 hread =>
    rw [ByteStream.read_closed hunread hclosed] at hread
    contradiction
  case h_2 bytes s' hread =>
    rw [ByteStream.read_closed hunread hclosed] at hread
    obtain ⟨rfl, rfl⟩ := Prod.mk.inj (Option.some.inj hread)
    simp [Buffer.text]

/-- The loop where it would have to wait. -/
theorem fillDynamic_open (hmore : readBytes < expectedLen) (hunread : s.unread.length = 0)
    (hopen : s.closed = false) :
  fillDynamic true expectedLen buf readBytes s = .error
  := by
  have hnone : s.read statBufLen = none := ByteStream.read_eq_none_iff.mpr ⟨hunread, hopen⟩
  rw [fillDynamic, if_pos hmore]
  split
  case h_1 => rfl
  case h_2 hread =>
    rw [hnone] at hread
    contradiction

theorem fillDynamic_enough (hmore : ¬ readBytes < expectedLen) :
  fillDynamic true expectedLen buf readBytes s = .done buf readBytes s
  := by
  rw [fillDynamic, if_neg hmore]

/-- The loop over the dynamic buffer ends without an error when enough bytes arrive or the
connection is closed. -/
theorem fillDynamic_done (expectedLen readBytes : ℕ) (buf : Bytes) (s : ByteStream)
    (henough : expectedLen ≤ readBytes + s.unread.length ∨ s.closed = true) :
  ∃ buf' readBytes' s', fillDynamic true expectedLen buf readBytes s = .done buf' readBytes' s'
  := by
  induction hn : s.unread.length using Nat.strong_induction_on generalizing buf readBytes s with
  | _ n ih =>
    by_cases hmore : readBytes < expectedLen
    · by_cases hunread : s.unread.length = 0
      · exact ⟨_, _, _, fillDynamic_closed hmore hunread (henough.resolve_left (by omega))⟩
      · rw [fillDynamic_read hmore hunread]
        have hcount : 0 < s.count statBufLen := ByteStream.count_pos hunread (by decide)
        have hcountLe : s.count statBufLen ≤ s.unread.length := s.count_le_length _
        have hlength := length_skip s statBufLen
        exact ih _ (by omega) _ _ _ (henough.imp (fun h => by omega) id) rfl
    · exact ⟨_, _, _, fillDynamic_enough hmore⟩

/-- The loop over the dynamic buffer keeps what is in the buffer. -/
theorem fillDynamic_prefix {buf' : Bytes} {readBytes' : ℕ} {s' : ByteStream}
    (h : fillDynamic true expectedLen buf readBytes s = .done buf' readBytes' s') :
  buf <+: buf'
  := by
  induction hn : s.unread.length using Nat.strong_induction_on generalizing buf readBytes s with
  | _ n ih =>
    by_cases hmore : readBytes < expectedLen
    · by_cases hunread : s.unread.length = 0
      · cases hclosed : s.closed with
        | false =>
          rw [fillDynamic_open hmore hunread hclosed] at h
          contradiction
        | true =>
          rw [fillDynamic_closed hmore hunread hclosed] at h
          obtain ⟨rfl, -, -⟩ := Filled.done.inj h
          exact List.prefix_rfl
      · rw [fillDynamic_read hmore hunread] at h
        have hcount : 0 < s.count statBufLen := ByteStream.count_pos hunread (by decide)
        have hcountLe : s.count statBufLen ≤ s.unread.length := s.count_le_length _
        have hlength := length_skip s statBufLen
        exact (List.prefix_append _ _).trans (ih _ (by omega) h rfl)
    · rw [fillDynamic_enough hmore] at h
      obtain ⟨rfl, -, -⟩ := Filled.done.inj h
      exact List.prefix_rfl

/-- Bytes without a zero byte are all appended. -/
theorem fillDynamic_eq (expectedLen readBytes : ℕ) (buf : Bytes) (s : ByteStream)
    (hnonzero : ∀ c ∈ s.unread, c ≠ 0)
    (hlen : readBytes + s.unread.length = expectedLen) :
  ∃ s', fillDynamic true expectedLen buf readBytes s =
    .done (buf ++ s.unread) (readBytes + s.unread.length) s'
  := by
  induction hn : s.unread.length using Nat.strong_induction_on generalizing buf readBytes s with
  | _ n ih =>
    by_cases hunread : s.unread.length = 0
    · rw [fillDynamic_enough (by omega), List.eq_nil_of_length_eq_zero hunread, List.append_nil]
      exact ⟨s, by rw [← hn, hunread, Nat.add_zero]⟩
    · rw [fillDynamic_read (by omega) hunread]
      have hcount : 0 < s.count statBufLen := ByteStream.count_pos hunread (by decide)
      have hcountLe : s.count statBufLen ≤ s.unread.length := s.count_le_length _
      have hlength := length_skip s statBufLen
      have htext : Buffer.text (s.unread.take (s.count statBufLen)) =
          s.unread.take (s.count statBufLen) := by
        apply List.takeWhile_eq_self_iff.mpr
        intro c hc
        simpa using hnonzero c (List.mem_of_mem_take hc)
      obtain ⟨s', hdone⟩ := ih _ (by omega) (readBytes + s.count statBufLen)
        (buf ++ s.unread.take (s.count statBufLen)) (s.skip statBufLen)
        (fun c hc => hnonzero c (List.mem_of_mem_drop hc)) (by omega) rfl
      refine ⟨s', ?_⟩
      rw [htext, hdone, ByteStream.skip_unread, List.append_assoc, List.take_append_drop,
        List.length_drop]
      congr 1
      omega

/-! ### The rest of a message -/

theorem text_eq_self {bytes : Bytes} (h : ∀ c ∈ bytes, c ≠ 0) :
  Buffer.text bytes = bytes
  := by
  apply List.takeWhile_eq_self_iff.mpr
  simpa using h

/-- A text ends before what follows a zero byte. -/
theorem text_append {front : Bytes} (h : 0 ∈ front) (rest : Bytes) :
  Buffer.text (front ++ rest) = Buffer.text front
  := by
  rw [Buffer.text, List.takeWhile_append, if_neg]
  · rfl
  · intro hlength
    have hall := List.takeWhile_eq_self_iff.mp
      ((List.takeWhile_prefix _).eq_of_length hlength) 0 h
    simp at hall

/-- The payload is received when it is what remains of the stream. -/
theorem recvRest_payload (hnonzero : ∀ c ∈ s.unread, c ≠ 0) :
  recvRest true s.unread.length headerLen [] s =
    .received (headerLen + s.unread.length) s.unread
  := by
  obtain ⟨s', hdone, hrest, -⟩ := fillStatic_done s.unread.length [] s (by decide)
    (Or.inr (by simp)) (Or.inl (by simp))
  rw [List.nil_append] at hdone hrest
  have hlengths := congrArg List.length (List.take_append_drop (statBufLen - 1) s.unread)
  rw [List.length_append] at hlengths
  rw [recvRest, if_pos (by simp), hdone]
  dsimp only
  by_cases hfull : statBufLen - 1 = (s.unread.take (statBufLen - 1)).length
  · obtain ⟨s'', hdone'⟩ := fillDynamic_eq s.unread.length (s.unread.take (statBufLen - 1)).length
      (s.unread.take (statBufLen - 1)) s'
      (fun c hc => hnonzero c (List.mem_of_mem_drop (hrest ▸ hc))) (by rw [hrest, hlengths])
    rw [if_pos hfull, hdone', hrest, List.take_append_drop]
    dsimp only
    rw [hlengths, text_eq_self hnonzero]
  · have hall : s.unread.take (statBufLen - 1) = s.unread := by
      apply List.take_of_length_le
      rw [List.length_take] at hfull
      omega
    rw [if_neg hfull, hall, text_eq_self hnonzero]

/-- Something is received when the connection is closed. -/
theorem recvRest_closed (expectedLen : ℕ) (buf : Bytes) (s : ByteStream)
    (hclosed : s.closed = true) (hbuf : buf.length < statBufLen)
    (hlen : statBufLen - 1 ≤ expectedLen ∨ buf.length + s.unread.length ≤ expectedLen)
    (total : ℕ) :
  ∃ total' data, recvRest true expectedLen total buf s = .received total' data
  := by
  have hfilled : ∃ buf' readBytes s', (if buf.getLast? ≠ some newline then
      fillStatic true expectedLen buf s else .done buf buf.length s) = .done buf' readBytes s' ∧
        s'.closed = true := by
    split
    · obtain ⟨s', hdone, -, hclosed'⟩ := fillStatic_done expectedLen buf s hbuf hlen (Or.inr hclosed)
      exact ⟨_, _, s', hdone, hclosed'.trans hclosed⟩
    · exact ⟨_, _, s, rfl, hclosed⟩
  obtain ⟨buf', readBytes, s', hdone, hclosed'⟩ := hfilled
  rw [recvRest, hdone]
  dsimp only
  split
  · obtain ⟨buf'', readBytes', s'', hdone'⟩ := fillDynamic_done expectedLen readBytes buf' s'
      (Or.inr hclosed')
    rw [hdone']
    exact ⟨_, _, rfl⟩
  · exact ⟨_, _, rfl⟩

theorem zero_mem_htole {n : ℕ} (h : n < 2 ^ 56) :
  0 ∈ htole n
  := by
  refine List.mem_map.mpr ⟨7, by decide, ?_⟩
  rw [Nat.div_eq_of_lt (by simpa using h)]
  rfl

/-- When the header is not received at once, the text received ends with the length. -/
theorem recvRest_text {payload data : Bytes} {total : ℕ} (hall : buf ++ s.unread = wire payload)
    (hbuf : buf.length < headerLen) (hlast : buf.getLast? ≠ some newline)
    (hsize : payload.length ≤ maxRecvDataSize)
    (h : recvRest true (16 * 1048576) 0 buf s = .received total data) :
  data = Buffer.text (header ++ htole payload.length) ∧
    (s.closed = true ∨ statBufLen - 1 ≤ (wire payload).length)
  := by
  have hlength := congrArg List.length hall
  rw [List.length_append] at hlength
  have hzero : 0 ∈ header ++ htole payload.length := by
    apply List.mem_append_right
    apply zero_mem_htole
    rw [maxRecvDataSize] at hsize
    omega
  have htext : ∀ rest, Buffer.text ((wire payload).take (statBufLen - 1) ++ rest) =
      Buffer.text (header ++ htole payload.length) := by
    intro rest
    have hsplit : (wire payload).take (statBufLen - 1) =
        header ++ htole payload.length ++ payload.take (statBufLen - 1 - 13) := by
      rw [wire, ← List.append_assoc, List.take_append, List.take_of_length_le (by
        rw [List.length_append, length_htole]; decide), List.length_append, length_htole]
      rfl
    rw [hsplit, List.append_assoc, text_append hzero]
  have hsmall : buf.length < statBufLen := hbuf.trans (by decide)
  rw [recvRest, if_pos hlast] at h
  by_cases henough : s.closed = true ∨ statBufLen - 1 ≤ (wire payload).length
  · refine ⟨?_, henough⟩
    obtain ⟨s', hdone, -, -⟩ := fillStatic_done (16 * 1048576) buf s hsmall
      (Or.inl (by decide)) (henough.symm.imp (fun hfull => by
        rw [hlength]
        exact (Nat.min_le_left _ _).trans hfull) id)
    rw [hdone, hall] at h
    dsimp only at h
    split at h
    case isTrue =>
      split at h
      case h_1 => contradiction
      case h_2 => contradiction
      case h_3 hdynamic =>
        obtain ⟨rest, rfl⟩ := fillDynamic_prefix hdynamic
        obtain ⟨-, rfl⟩ := Received.received.inj h
        exact htext rest
    case isFalse =>
      obtain ⟨-, rfl⟩ := Received.received.inj h
      rw [← htext [], List.append_nil]
  · rw [not_or, Bool.not_eq_true, Nat.not_le] at henough
    rw [fillStatic_error (by rw [hlength]; exact lt_min henough.2 (henough.2.trans (by decide)))
      henough.1] at h
    contradiction

/-- The text is the payload of a message only when it is the header and the byte 6. -/
theorem text_eq_payload_iff (payload : Bytes) :
  Buffer.text (header ++ htole payload.length) = payload ↔ payload = header ++ [6]
  := by
  constructor
  · intro h
    have hlength := congrArg List.length h
    have hle : (Buffer.text (header ++ htole payload.length)).length ≤ 13 := by
      refine (List.takeWhile_prefix _).length_le.trans ?_
      rw [List.length_append, length_htole]
      decide
    have hsix : ∀ n ≤ 13, (Buffer.text (header ++ htole n)).length = n → n = 6 := by
      decide
    rw [← h, hsix payload.length (by omega) hlength]
    decide
  · rintro rfl
    decide

/-! ### The first two reads -/

/-- When the first read returns the header, the second decides about the length. -/
theorem recvExt_header {untilClose : Bool} (hcount : s.count headerLen = headerLen)
    (hheader : s.unread.take headerLen = header) :
  recvExt untilClose s =
    match (s.skip headerLen).read 8 with
    | none => .fail
    | some (len, s) =>
      if len.length ≠ 8 then .fail
      else if maxRecvDataSize < letoh len then .fail
      else recvRest true (letoh len) headerLen [] s
  := by
  have hunread : s.unread.length ≠ 0 := by
    intro hzero
    have hle := s.count_le_length headerLen
    rw [hcount, hzero] at hle
    exact absurd hle (by decide)
  rw [recvExt, ByteStream.read_of_unread hunread, hcount, hheader]
  exact if_pos ⟨rfl, rfl⟩

/-- The receiver gives up when the second read does not return the length. -/
theorem recvExt_length_short {untilClose : Bool} (hcount : s.count headerLen = headerLen)
    (hheader : s.unread.take headerLen = header) (hlen : (s.skip headerLen).count 8 ≠ 8) :
  recvExt untilClose s = .fail
  := by
  rw [recvExt_header hcount hheader]
  split
  case h_1 => rfl
  case h_2 len s' hread =>
    apply if_pos
    intro height
    apply hlen
    by_cases hunread : (s.skip headerLen).unread.length = 0
    · obtain ⟨happend, -, -⟩ := ByteStream.read_spec hread
      rw [happend, List.length_append] at hunread
      omega
    · rw [ByteStream.read_of_unread hunread] at hread
      obtain ⟨rfl, -⟩ := Prod.mk.inj (Option.some.inj hread)
      rwa [length_take_count] at height

/-- When both reads return what is asked for, the rest of the stream is the payload. -/
theorem recvExt_length {untilClose : Bool} (hcount : s.count headerLen = headerLen)
    (hheader : s.unread.take headerLen = header) (hlen : (s.skip headerLen).count 8 = 8)
    {n : ℕ} (hn : ((s.skip headerLen).unread.take 8) = htole n) (hsize : n ≤ maxRecvDataSize) :
  recvExt untilClose s = recvRest true n headerLen [] ((s.skip headerLen).skip 8)
  := by
  have hunread : (s.skip headerLen).unread.length ≠ 0 := by
    intro hzero
    have hle := (s.skip headerLen).count_le_length 8
    omega
  have hletoh : letoh (htole n) = n := by
    apply letoh_htole
    rw [maxRecvDataSize] at hsize
    omega
  rw [recvExt_header hcount hheader, ByteStream.read_of_unread hunread, hlen, hn]
  dsimp only
  rw [if_neg (not_not.mpr (length_htole n)), hletoh, if_neg (Nat.not_lt.mpr hsize)]

/-- When the first read returns less than the header, it is taken for a request. -/
theorem recvExt_short {untilClose : Bool} (hunread : s.unread.length ≠ 0)
    (hcount : s.count headerLen < headerLen) :
  recvExt untilClose s =
    if untilClose then
      recvRest true (16 * 1048576) 0 (s.unread.take (s.count headerLen)) (s.skip headerLen)
    else .received (s.count headerLen) (Buffer.text (s.unread.take (s.count headerLen)))
  := by
  have hpos : 0 < s.count headerLen := ByteStream.count_pos hunread (by decide)
  have hlength := length_take_count s headerLen
  rw [recvExt, ByteStream.read_of_unread hunread]
  dsimp only
  rw [hlength, if_neg (fun h => hcount.ne h.1)]
  cases untilClose <;> simp [hpos.ne', hcount]

/-! ### Messages -/

/-- The receiver meets its purpose: of a whole message it returns the payload, and when the
connection was closed before the whole message had arrived, it fails. -/
def Meets (untilClose : Bool) (payload sent : Bytes) (s : ByteStream) : Prop :=
  if s.unread = sent then ∃ total, recvExt untilClose s = .received total payload
  else recvExt untilClose s = .fail

/-- The first read returns the whole header.  Of a whole message the second read returns the
whole length, of a part of a message it does not.  (When the first read returns less, the
payload may happen to be the text that is returned in its place.) -/
def MeetsWhen (untilClose : Bool) (payload sent : Bytes) (s : ByteStream) : Prop :=
  if s.unread = sent then
    s.count headerLen = headerLen ∧ (s.skip headerLen).count 8 = 8 ∨
      s.count headerLen < headerLen ∧
        if untilClose then s.closed = true ∧ payload = header ++ [6]
        else payload = header.take (s.count headerLen)
  else s.count headerLen = headerLen ∧ (s.skip headerLen).count 8 ≠ 8

variable {payload : Bytes}

theorem wire_take_header (payload : Bytes) {k : ℕ} (hk : k ≤ headerLen) :
  (wire payload).take k = header.take k
  := List.take_append_of_le_length hk

/-- The bytes that arrived begin with the header and the length, as far as they go. -/
theorem take_wire_part {bytes : Bytes} (h : bytes <+: wire payload) {k : ℕ}
    (hk : k ≤ bytes.length) :
  bytes.take k = (wire payload).take k
  := by
  obtain ⟨rest, hrest⟩ := h
  rw [← hrest, List.take_append_of_le_length hk]

theorem drop_wire_header (payload : Bytes) :
  (wire payload).drop headerLen = htole payload.length ++ payload
  := rfl

theorem header_ne_zero :
  ∀ c ∈ header, c ≠ 0
  := by decide +kernel

/-- No part of the header ends like a request to a passive agent. -/
theorem header_getLast_ne (k : ℕ) :
  (header.take k).getLast? ≠ some newline
  := by
  intro h
  have hmem := List.mem_of_mem_take (List.mem_of_getLast? h)
  revert hmem
  decide

/-- A whole message. -/
theorem meets_whole_iff (untilClose : Bool) (hnonzero : ∀ c ∈ payload, c ≠ 0)
    (hsize : payload.length ≤ maxRecvDataSize) (hs : s.unread = wire payload) :
  (∃ total, recvExt untilClose s = .received total payload) ↔
    s.count headerLen = headerLen ∧ (s.skip headerLen).count 8 = 8 ∨
      s.count headerLen < headerLen ∧
        if untilClose then s.closed = true ∧ payload = header ++ [6]
        else payload = header.take (s.count headerLen)
  := by
  have hlength : s.unread.length = 13 + payload.length := by rw [hs, length_wire]
  obtain hcount | hcount := (s.count_le headerLen).eq_or_lt
  · have hheader : s.unread.take headerLen = header := by
      rw [hs, wire_take_header payload (Nat.le_refl _)]
      rfl
    have hskip : (s.skip headerLen).unread = htole payload.length ++ payload := by
      rw [ByteStream.skip_unread, hcount, hs, drop_wire_header]
    by_cases hlen : (s.skip headerLen).count 8 = 8
    · refine iff_of_true ⟨headerLen + payload.length, ?_⟩ (Or.inl ⟨hcount, hlen⟩)
      have hn : (s.skip headerLen).unread.take 8 = htole payload.length := by
        rw [hskip, List.take_left' (length_htole _)]
      have hrest : ((s.skip headerLen).skip 8).unread = payload := by
        rw [ByteStream.skip_unread, hlen, hskip, List.drop_left' (length_htole _)]
      rw [recvExt_length hcount hheader hlen hn hsize, ← congrArg List.length hrest]
      have hreceived := recvRest_payload (s := (s.skip headerLen).skip 8)
        (by rw [hrest]; exact hnonzero)
      rw [hreceived, hrest]
    · refine iff_of_false ?_ ?_
      · rintro ⟨total, h⟩
        rw [recvExt_length_short hcount hheader hlen] at h
        contradiction
      · rintro (⟨-, h⟩ | ⟨h, -⟩)
        · exact hlen h
        · exact absurd hcount h.ne
  · have hunread : s.unread.length ≠ 0 := by omega
    have hpos : 0 < s.count headerLen := ByteStream.count_pos hunread (by decide)
    have htake : s.unread.take (s.count headerLen) = header.take (s.count headerLen) := by
      rw [hs, wire_take_header payload hcount.le]
    rw [recvExt_short hunread hcount, htake]
    have hchoice : (s.count headerLen = headerLen ∧ (s.skip headerLen).count 8 = 8 ∨
        s.count headerLen < headerLen ∧
          if untilClose then s.closed = true ∧ payload = header ++ [6]
          else payload = header.take (s.count headerLen)) ↔
        if untilClose then s.closed = true ∧ payload = header ++ [6]
        else payload = header.take (s.count headerLen) := by
      constructor
      · rintro (⟨h, -⟩ | ⟨-, h⟩)
        · exact absurd h hcount.ne
        · exact h
      · exact fun h => Or.inr ⟨hcount, h⟩
    rw [hchoice]
    cases untilClose with
    | false =>
      have htext : Buffer.text (header.take (s.count headerLen)) =
          header.take (s.count headerLen) :=
        text_eq_self fun c hc => header_ne_zero c (List.mem_of_mem_take hc)
      rw [if_neg (by decide), if_neg (by decide), htext]
      exact ⟨fun ⟨_, h⟩ => (Received.received.inj h).2.symm, fun h => ⟨_, by rw [h]⟩⟩
    | true =>
      rw [if_pos rfl, if_pos rfl]
      have hlast : (header.take (s.count headerLen)).getLast? ≠ some newline :=
        header_getLast_ne _
      have hshort : (header.take (s.count headerLen)).length < headerLen := by
        rw [List.length_take]
        exact (Nat.min_le_left _ _).trans_lt hcount
      have hall : header.take (s.count headerLen) ++ (s.skip headerLen).unread =
          wire payload := by
        rw [← htake, ByteStream.skip_unread, List.take_append_drop, hs]
      constructor
      · rintro ⟨total, h⟩
        obtain ⟨htext, henough⟩ := recvRest_text hall hshort hlast hsize h
        have hpayload := (text_eq_payload_iff payload).mp htext.symm
        refine ⟨henough.resolve_right ?_, hpayload⟩
        rw [length_wire, hpayload]
        decide
      · rintro ⟨hclosed, hpayload⟩
        obtain ⟨total, data, h⟩ := recvRest_closed (16 * 1048576) _ (s.skip headerLen)
          hclosed (hshort.trans (by decide)) (Or.inl (by decide)) 0
        obtain ⟨htext, -⟩ := recvRest_text hall hshort hlast hsize h
        rw [htext, (text_eq_payload_iff payload).mpr hpayload] at h
        exact ⟨total, h⟩

/-- A part of a message. -/
theorem meets_part_iff (untilClose : Bool) (hsize : payload.length ≤ maxRecvDataSize)
    (hpart : s.unread <+: wire payload) (hclosed : s.closed = true) :
  recvExt untilClose s = .fail ↔
    s.count headerLen = headerLen ∧ (s.skip headerLen).count 8 ≠ 8
  := by
  obtain ⟨rest, hwire⟩ := id hpart
  by_cases hunread : s.unread.length = 0
  · -- nothing has arrived, and the receiver returns no bytes
    have hle := s.count_le_length headerLen
    refine iff_of_false ?_ fun h => ?_
    · rw [recvExt, ByteStream.read_closed hunread hclosed]
      cases untilClose <;> simp [headerLen]
    · rw [h.1, hunread] at hle
      exact absurd hle (by decide)
  · obtain hcount | hcount := (s.count_le headerLen).eq_or_lt
    · have hle := s.count_le_length headerLen
      have hheader : s.unread.take headerLen = header := by
        rw [take_wire_part hpart (by omega), wire_take_header payload (Nat.le_refl _)]
        rfl
      by_cases hlen : (s.skip headerLen).count 8 = 8
      · refine iff_of_false ?_ fun h => h.2 hlen
        have hle8 := (s.skip headerLen).count_le_length 8
        have hskip : (s.skip headerLen).unread ++ rest = htole payload.length ++ payload := by
          rw [ByteStream.skip_unread, hcount, ← drop_wire_header, ← hwire,
            List.drop_append_of_le_length (by omega)]
        have hn : (s.skip headerLen).unread.take 8 = htole payload.length := by
          have htake := congrArg (List.take 8) hskip
          rwa [List.take_append_of_le_length (by omega), List.take_left' (length_htole _)]
            at htake
        have hrest : ((s.skip headerLen).skip 8).unread.length ≤ payload.length := by
          have hlengths := congrArg List.length hskip
          rw [List.length_append, List.length_append, length_htole] at hlengths
          rw [length_skip, hlen]
          omega
        obtain ⟨total, data, h⟩ := recvRest_closed payload.length []
          ((s.skip headerLen).skip 8) hclosed (by decide)
          (Or.inr (by simpa using hrest)) headerLen
        rw [recvExt_length hcount hheader hlen hn hsize, h]
        exact nofun
      · exact iff_of_true (recvExt_length_short hcount hheader hlen) ⟨hcount, hlen⟩
    · refine iff_of_false ?_ fun h => hcount.ne h.1
      rw [recvExt_short hunread hcount]
      cases untilClose with
      | false =>
        rw [if_neg (by decide)]
        exact nofun
      | true =>
        have hshort : (s.unread.take (s.count headerLen)).length < statBufLen := by
          rw [length_take_count]
          exact hcount.trans (by decide)
        obtain ⟨total, data, h⟩ := recvRest_closed (16 * 1048576) _ (s.skip headerLen)
          hclosed hshort (Or.inl (by decide)) 0
        rw [if_pos rfl, h]
        exact nofun

/-- Exactly when a message is received as it should be. -/
theorem recvExt_meets_iff (untilClose : Bool) (payload : Bytes) (cuts : List ℕ) (s : ByteStream)
    (hnonzero : ∀ c ∈ payload, c ≠ 0) (hsize : payload.length ≤ maxRecvDataSize)
    (harrived : s.unread <+: sendExt true payload cuts)
    (hclosed : s.unread ≠ sendExt true payload cuts → s.closed = true) :
  Meets untilClose payload (sendExt true payload cuts) s ↔
    MeetsWhen untilClose payload (sendExt true payload cuts) s
  := by
  rw [sendExt_eq] at harrived hclosed ⊢
  unfold Meets MeetsWhen
  by_cases hs : s.unread = wire payload
  · rw [if_pos hs, if_pos hs]
    exact meets_whole_iff untilClose hnonzero hsize hs
  · rw [if_neg hs, if_neg hs]
    exact meets_part_iff untilClose hsize harrived (hclosed hs)

/-- The message of the payload `ABC`. -/
def sampleSent : Bytes := sendExt true [0x41, 0x42, 0x43] [1]

/-- All of it arrives, and the reads return the header, the length and two bytes. -/
def sampleStream : ByteStream := ⟨sampleSent, false, [5, 8, 2]⟩

theorem recvExt_meets_iff_sample :
  Meets false [0x41, 0x42, 0x43] sampleSent sampleStream ↔
    MeetsWhen false [0x41, 0x42, 0x43] sampleSent sampleStream
  := recvExt_meets_iff false [0x41, 0x42, 0x43] [1] sampleStream (by decide +kernel)
    (by decide +kernel)
    List.prefix_rfl fun h => absurd rfl h

/-- All of it arrives, and the first read returns three bytes. -/
def cutStream : ByteStream := ⟨sampleSent, false, [3]⟩

/-- The connection is closed before the last byte of the payload. -/
def closedStream : ByteStream := ⟨sampleSent.take 15, true, []⟩

/-- Three bytes of the header are received in place of the payload, and a payload without its
last byte. -/
theorem recvExt_cut :
  recvExt false cutStream = .received 3 [0x5a, 0x42, 0x58] ∧
    ¬ Meets false [0x41, 0x42, 0x43] sampleSent cutStream ∧
    recvExt false closedStream = .received 7 [0x41, 0x42] ∧
    ¬ Meets false [0x41, 0x42, 0x43] sampleSent closedStream
  := by
  have hcut : recvExt false cutStream = .received 3 [0x5a, 0x42, 0x58] := by decide +kernel
  have hclosed : recvExt false closedStream = .received 7 [0x41, 0x42] := by decide +kernel
  refine ⟨hcut, ?_, hclosed, ?_⟩
  · rw [Meets, if_pos (by rfl), hcut]
    rintro ⟨total, h⟩
    exact absurd (Received.received.inj h).2 (by decide)
  · rw [Meets, if_neg (by decide +kernel), hclosed]
    exact nofun

end Tcp
