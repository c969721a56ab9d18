import Zabbix.Library.BlockFold
import Zabbix.Library.Buffer

/-!
# MD5

The digest of a message that is appended in pieces. The message is processed in blocks of 64
bytes: `md5_append` keeps what does not fill a block in a buffer, and `md5_finish` pads the
message and appends its length. `messageDigest` is the digest of a message that is known as a
whole. However the message is cut into pieces, the digest is that one, and every copy stays
inside of the buffer.
-/

open BlockFold Buffer

namespace Md5

/-! ### Processing a block -/

/-- `T_MASK`. -/
def tMask : UInt32 := 0xffffffff

/-- `ROTATE_LEFT`. -/
def rotateLeft (x n : UInt32) : UInt32 := (x <<< n) ||| (x >>> (32 - n))

/-- `F` of the first round. -/
def f (x y z : UInt32) : UInt32 := (x &&& y) ||| (~~~x &&& z)

/-- `G` of the second round. -/
def g (x y z : UInt32) : UInt32 := (x &&& z) ||| (y &&& ~~~z)

/-- `H` of the third round. -/
def h (x y z : UInt32) : UInt32 := x ^^^ y ^^^ z

/-- `I` of the fourth round. -/
def i (x y z : UInt32) : UInt32 := y ^^^ (x ||| ~~~z)

/-- `abcd`. -/
structure Registers where
  a : UInt32
  b : UInt32
  c : UInt32
  d : UInt32
deriving DecidableEq

/-- The word `X[k]` of a block, its lowest byte first. -/
def word (data : Bytes) (k : ℕ) : UInt32 :=
  (data.getD (4 * k) 0).toUInt32 + ((data.getD (4 * k + 1) 0).toUInt32 <<< 8) +
    ((data.getD (4 * k + 2) 0).toUInt32 <<< 16) + ((data.getD (4 * k + 3) 0).toUInt32 <<< 24)

/-- `SET`. The four variables change their roles with every operation, so that the result
stands in `b` for the next one. -/
def set (mix : UInt32 → UInt32 → UInt32 → UInt32) (data : Bytes) (r : Registers)
    (operation : ℕ × UInt32 × UInt32) : Registers :=
  let t := r.a + mix r.b r.c r.d + word data operation.1 + operation.2.2
  ⟨r.d, rotateLeft t operation.2.1 + r.b, r.b, r.c⟩

/-- The operations of the first round: the word, the rotation and the constant. -/
def firstRound : List (ℕ × UInt32 × UInt32) :=
  [(0, 7, tMask ^^^ 0x28955b87), (1, 12, tMask ^^^ 0x173848a9), (2, 17, 0x242070db),
    (3, 22, tMask ^^^ 0x3e423111), (4, 7, tMask ^^^ 0x0a83f050), (5, 12, 0x4787c62a),
    (6, 17, tMask ^^^ 0x57cfb9ec), (7, 22, tMask ^^^ 0x02b96afe), (8, 7, 0x698098d8),
    (9, 12, tMask ^^^ 0x74bb0850), (10, 17, tMask ^^^ 0x0000a44e), (11, 22, tMask ^^^ 0x76a32841),
    (12, 7, 0x6b901122), (13, 12, tMask ^^^ 0x02678e6c), (14, 17, tMask ^^^ 0x5986bc71),
    (15, 22, 0x49b40821)]

/-- The operations of the second round: the word, the rotation and the constant. -/
def secondRound : List (ℕ × UInt32 × UInt32) :=
  [(1, 5, tMask ^^^ 0x09e1da9d), (6, 9, tMask ^^^ 0x3fbf4cbf), (11, 14, 0x265e5a51),
    (0, 20, tMask ^^^ 0x16493855), (5, 5, tMask ^^^ 0x29d0efa2), (10, 9, 0x02441453),
    (15, 14, tMask ^^^ 0x275e197e), (4, 20, tMask ^^^ 0x182c0437), (9, 5, 0x21e1cde6),
    (14, 9, tMask ^^^ 0x3cc8f829), (3, 14, tMask ^^^ 0x0b2af278), (8, 20, 0x455a14ed),
    (13, 5, tMask ^^^ 0x561c16fa), (2, 9, tMask ^^^ 0x03105c07), (7, 14, 0x676f02d9),
    (12, 20, tMask ^^^ 0x72d5b375)]

/-- The operations of the third round: the word, the rotation and the constant. -/
def thirdRound : List (ℕ × UInt32 × UInt32) :=
  [(5, 4, tMask ^^^ 0x0005c6bd), (8, 11, tMask ^^^ 0x788e097e), (11, 16, 0x6d9d6122),
    (14, 23, tMask ^^^ 0x021ac7f3), (1, 4, tMask ^^^ 0x5b4115bb), (4, 11, 0x4bdecfa9),
    (7, 16, tMask ^^^ 0x0944b49f), (10, 23, tMask ^^^ 0x4140438f), (13, 4, 0x289b7ec6),
    (0, 11, tMask ^^^ 0x155ed805), (3, 16, tMask ^^^ 0x2b10cf7a), (6, 23, 0x04881d05),
    (9, 4, tMask ^^^ 0x262b2fc6), (12, 11, tMask ^^^ 0x1924661a), (15, 16, 0x1fa27cf8),
    (2, 23, tMask ^^^ 0x3b53a99a)]

/-- The operations of the fourth round: the word, the rotation and the constant. -/
def fourthRound : List (ℕ × UInt32 × UInt32) :=
  [(0, 6, tMask ^^^ 0x0bd6ddbb), (7, 10, 0x432aff97), (14, 15, tMask ^^^ 0x546bdc58),
    (5, 21, tMask ^^^ 0x036c5fc6), (12, 6, 0x655b59c3), (3, 10, tMask ^^^ 0x70f3336d),
    (10, 15, tMask ^^^ 0x00100b82), (1, 21, tMask ^^^ 0x7a7ba22e), (8, 6, 0x6fa87e4f),
    (15, 10, tMask ^^^ 0x01d3191f), (6, 15, tMask ^^^ 0x5cfebceb), (13, 21, 0x4e0811a1),
    (4, 6, tMask ^^^ 0x08ac817d), (11, 10, tMask ^^^ 0x42c50dca), (2, 15, 0x2ad7d2bb),
    (9, 21, tMask ^^^ 0x14792c6e)]

/-- `md5_process` on a block. -/
def md5Process (abcd : Registers) (data : Bytes) : Registers :=
  let r := firstRound.foldl (set f data) abcd
  let r := secondRound.foldl (set g data) r
  let r := thirdRound.foldl (set h data) r
  let r := fourthRound.foldl (set i data) r
  ⟨abcd.a + r.a, abcd.b + r.b, abcd.c + r.c, abcd.d + r.d⟩

/-! ### A message in pieces -/

/-- `md5_state_t`, with `count[0]` and `count[1]`. -/
structure State where
  count0 : UInt32
  count1 : UInt32
  abcd : Registers
  buf : Bytes

/-- The registers `md5_init` sets. -/
def initial : Registers :=
  ⟨0x67452301, tMask ^^^ 0x10325476, tMask ^^^ 0x67452301, 0x10325476⟩

/-- `md5_init`, which leaves the buffer as it is. -/
def md5Init (buf : Bytes) : State := ⟨0, 0, initial, buf⟩

/-- The loop of `md5_append` over full blocks, with the registers and what is left. Its first
argument bounds the number of blocks. -/
def fullBlocks : ℕ → Registers → Bytes → Registers × Bytes
  | 0, abcd, p => (abcd, p)
  | rounds + 1, abcd, p =>
    if 64 ≤ p.length then fullBlocks rounds (md5Process abcd (p.take 64)) (p.drop 64)
    else (abcd, p)

/-- The end of `md5_append`, with the length counted and no partial block to process. -/
def appendBlocks (s : State) (p : Bytes) : Option State :=
  let (abcd, left) := fullBlocks p.length s.abcd p
  let s := { s with abcd }
  if left.isEmpty then some s else (write s.buf 0 left).map fun buf => { s with buf }

/-- The update of the message length in `md5_append`. -/
def State.counted (s : State) (nbytes : ℕ) : State :=
  let nbits := (nbytes <<< 3).toUInt32
  let count1 := s.count1 + (nbytes >>> 29).toUInt32
  let count0 := s.count0 + nbits
  { s with count0, count1 := if count0 < nbits then count1 + 1 else count1 }

/-- `md5_append`. A copy outside of the buffer has no result. -/
def md5Append (s : State) (data : Bytes) : Option State :=
  let offset := ((s.count0 >>> 3) &&& 63).toNat
  if data.length = 0 then some s
  else
    let s := s.counted data.length
    if offset ≠ 0 then
      let copy := if 64 < offset + data.length then 64 - offset else data.length
      (write s.buf offset (data.take copy)).bind fun buf =>
        let s := { s with buf }
        if offset + copy < 64 then some s
        else appendBlocks { s with abcd := md5Process s.abcd (buf.take 64) } (data.drop copy)
    else appendBlocks s data

/-- `pad` of `md5_finish`. -/
def pad : Bytes := 0x80 :: List.replicate 63 0

/-- The four bytes of a word, the lowest one first. -/
def wordBytes (w : UInt32) : Bytes :=
  [w.toUInt8, (w >>> 8).toUInt8, (w >>> 16).toUInt8, (w >>> 24).toUInt8]

/-- The bytes of the registers. -/
def Registers.digest (r : Registers) : Bytes :=
  wordBytes r.a ++ wordBytes r.b ++ wordBytes r.c ++ wordBytes r.d

/-- `md5_finish`. -/
def md5Finish (s : State) : Option Bytes :=
  let data := wordBytes s.count0 ++ wordBytes s.count1
  let npad := (((55 : UInt32) - (s.count0 >>> 3)) &&& 63) + 1
  (md5Append s (pad.take npad.toNat)).bind fun s =>
    (md5Append s data).map fun s => s.abcd.digest

/-! ### The digest of a message -/

/-- The length of a message in bits, in 64 bits, the lowest byte first. -/
def lengthBytes (message : Bytes) : Bytes :=
  let bits := 8 * message.length
  wordBytes bits.toUInt32 ++ wordBytes (bits / 2 ^ 32).toUInt32

/-- The message with its padding, whose length is a multiple of 64. -/
def padded (message : Bytes) : Bytes :=
  message ++ (0x80 :: List.replicate ((55 + 63 * message.length) % 64) 0) ++ lengthBytes message

/-- The digest of a message: the blocks of the padded message are processed one after
another. -/
def messageDigest (message : Bytes) : Bytes :=
  (whole md5Process 64 initial (padded message)).digest

/-! ### What has been appended -/

theorem fullBlocks_eq {rounds : ℕ} {p : Bytes} (hrounds : p.length ≤ rounds) (abcd : Registers) :
  fullBlocks rounds abcd p = (whole md5Process 64 abcd p, remains 64 p)
  := by
  induction rounds generalizing abcd p with
  | zero =>
    have hlt : p.length < 64 := by omega
    rw [fullBlocks, whole_of_lt md5Process 64 hlt, remains_of_lt 64 hlt]
  | succ rounds ih =>
    rw [fullBlocks]
    split_ifs with hfull
    · have hblock : (p.take 64).length = 64 := by rw [List.length_take]; omega
      have hsplit := List.take_append_drop 64 p
      rw [ih (by rw [List.length_drop]; omega), ← whole_block md5Process (by decide) abcd hblock,
        ← remains_block (by decide) hblock, hsplit]
    · have hlt : p.length < 64 := by omega
      rw [whole_of_lt md5Process 64 hlt, remains_of_lt 64 hlt]

/-- The counters hold the length of a message in bits. -/
def Counts (count0 count1 : UInt32) (length : ℕ) : Prop :=
  count1.toNat * 2 ^ 32 + count0.toNat = 8 * length % 2 ^ 64

/-- The state after a message has been appended: its length is counted in bits, its whole
blocks have been processed, and the rest of it stands in the buffer. -/
structure Absorbed (message : Bytes) (s : State) : Prop where
  count : Counts s.count0 s.count1 message.length
  abcd : s.abcd = whole md5Process 64 initial message
  rest : remains 64 message <+: s.buf
  room : s.buf.length = 64

theorem absorbed_init {buf : Bytes} (hbuf : buf.length = 64) :
  Absorbed [] (md5Init buf)
  where
  count := by simp [Counts, md5Init]
  abcd := rfl
  rest := List.nil_prefix
  room := hbuf

/-- The blocks of a piece are processed, once its length is counted. -/
theorem appendBlocks_spec {count0 count1 : UInt32} {abcd : Registers} {buf message p : Bytes}
    (hcount : Counts count0 count1 message.length)
    (habcd : whole md5Process 64 abcd p = whole md5Process 64 initial message)
    (hrest : remains 64 p = remains 64 message) (hroom : buf.length = 64) :
  ∃ s', appendBlocks ⟨count0, count1, abcd, buf⟩ p = some s' ∧ Absorbed message s'
  := by
  rw [appendBlocks, fullBlocks_eq (Nat.le_refl _)]
  dsimp only
  split_ifs with hempty
  · refine ⟨_, rfl, hcount, habcd, ?_, hroom⟩
    rw [← hrest, List.isEmpty_iff.mp hempty]
    exact List.nil_prefix
  · have hlength : (remains 64 p).length ≤ buf.length := by
      rw [length_remains, hroom]
      omega
    obtain ⟨buf', hwrite, hprefix, hbuf'⟩ := write_front (remains 64 p) hlength
    rw [hwrite]
    exact ⟨_, rfl, hcount, habcd, hrest ▸ hprefix, by rw [hbuf', hroom]⟩

theorem size_pos : 0 < 64 := by decide

section

variable {message data : Bytes} {s : State}

/-- The number of bytes in the buffer. -/
theorem Absorbed.offset (habsorbed : Absorbed message s) :
  ((s.count0 >>> 3) &&& 63).toNat = (remains 64 message).length
  := by
  have hcount : s.count1.toNat * 2 ^ 32 + s.count0.toNat = 8 * message.length % 2 ^ 64 :=
    habsorbed.count
  have hlt := s.count0.toNat_lt
  have hand := Nat.and_two_pow_sub_one_eq_mod (s.count0.toNat / 8) 6
  rw [UInt32.toNat_and, UInt32.toNat_shiftRight, length_remains]
  change (s.count0.toNat >>> 3) &&& 63 = _
  rw [Nat.shiftRight_eq_div_pow]
  change s.count0.toNat / 8 &&& 63 = _ at hand ⊢
  rw [hand]
  omega

/-- A carry from the lower of two digits into the upper one. -/
theorem carry {base low high total more rest : ℕ} (hhigh : high < base)
    (htotal : high * base + low = total % (base * base)) (hmore : low + more = base + rest)
    (hrest : rest < base) :
  (high + 1) % base * base + rest = (total + more) % (base * base)
  := by
  have hdiv := Nat.div_add_mod total (base * base)
  have hsum : total + more = base * base * (total / (base * base)) + ((high + 1) * base + rest) := by
    rw [Nat.add_mul, Nat.one_mul]
    omega
  have hone : base ≤ base * base := Nat.le_mul_of_pos_left base (by omega)
  rw [hsum, Nat.mul_add_mod]
  by_cases hfull : high + 1 = base
  · rw [hfull, Nat.mod_self, Nat.zero_mul, Nat.zero_add, Nat.add_mod_left,
      Nat.mod_eq_of_lt (by omega)]
  · have hroom : (high + 1 + 1) * base ≤ base * base := Nat.mul_le_mul_right base (by omega)
    rw [Nat.add_mul (high + 1), Nat.one_mul] at hroom
    rw [Nat.mod_eq_of_lt (show high + 1 < base by omega), Nat.mod_eq_of_lt (by omega)]

/-- The counters after a piece. -/
theorem Absorbed.counted (habsorbed : Absorbed message s) (hdata : data.length < 2 ^ 28) :
  Counts (s.counted data.length).count0 (s.counted data.length).count1 (message ++ data).length
  := by
  have hcount : s.count1.toNat * 2 ^ 32 + s.count0.toNat = 8 * message.length % 2 ^ 64 :=
    habsorbed.count
  have hlt0 := s.count0.toNat_lt
  have hlt1 := s.count1.toNat_lt
  have hnbits : (data.length <<< 3).toUInt32.toNat = 8 * data.length := by
    rw [Nat.shiftLeft_eq, Nat.mul_comm]
    exact Nat.mod_eq_of_lt (by omega)
  have hhigh : s.count1 + (data.length >>> 29).toUInt32 = s.count1 := by
    rw [Nat.shiftRight_eq_div_pow, Nat.div_eq_of_lt (by omega)]
    exact UInt32.add_zero _
  have hcount0 : (s.count0 + (data.length <<< 3).toUInt32).toNat =
      (s.count0.toNat + 8 * data.length) % 2 ^ 32 := by
    rw [UInt32.toNat_add, hnbits]
  have hone : (1 : UInt32).toNat = 1 := rfl
  rw [State.counted, List.length_append, Counts]
  dsimp only
  rw [hhigh, hcount0]
  split_ifs with hless
  · rw [UInt32.lt_iff_toNat_lt, hnbits, hcount0] at hless
    rw [UInt32.toNat_add, hone, Nat.mul_add]
    exact carry hlt1 hcount (by omega) (Nat.mod_lt _ (by decide))
  · rw [UInt32.lt_iff_toNat_lt, hnbits, hcount0] at hless
    omega

/-- A piece that does not fill the block in the buffer. -/
theorem Absorbed.kept (habsorbed : Absorbed message s) (hdata : data.length < 2 ^ 28)
    (hshort : (remains 64 message).length + data.length < 64) :
  ∃ buf, write s.buf (remains 64 message).length data = some buf ∧
    Absorbed (message ++ data) { s.counted data.length with buf }
  := by
  obtain ⟨buf, hwrite, hprefix, hbuf⟩ := write_behind data habsorbed.rest
    (by rw [habsorbed.room]; omega)
  have hlength : (remains 64 message ++ data).length < 64 := by
    rw [List.length_append]
    exact hshort
  refine ⟨buf, hwrite, habsorbed.counted hdata, ?_, ?_, hbuf.trans habsorbed.room⟩
  · rw [whole_append md5Process size_pos, whole_of_lt md5Process 64 hlength]
    exact habsorbed.abcd
  · rw [remains_append size_pos, remains_of_lt 64 hlength]
    exact hprefix

/-- A piece whose first part fills the block in the buffer. -/
theorem Absorbed.filled (habsorbed : Absorbed message s) (hdata : data.length < 2 ^ 28)
    {front back : Bytes} (hsplit : data = front ++ back)
    (hfull : (remains 64 message).length + front.length = 64) :
  ∃ buf, write s.buf (remains 64 message).length front = some buf ∧
    ∃ s', appendBlocks { s.counted data.length with
      buf, abcd := md5Process s.abcd (buf.take 64) } back = some s' ∧
      Absorbed (message ++ data) s'
  := by
  obtain ⟨buf, hwrite, hprefix, hbuf⟩ := write_behind front habsorbed.rest
    (by rw [habsorbed.room]; omega)
  have hblock : (remains 64 message ++ front).length = 64 := by
    rw [List.length_append]
    exact hfull
  have hbuffer : buf.take 64 = remains 64 message ++ front := by
    have htake := List.prefix_iff_eq_take.mp hprefix
    rw [hblock] at htake
    exact htake.symm
  have hwhole := whole_append md5Process size_pos initial message data
  have hremains := remains_append size_pos message data
  rw [← habsorbed.abcd, hsplit, ← List.append_assoc (remains 64 message),
    whole_block md5Process size_pos _ hblock] at hwhole
  rw [hsplit, ← List.append_assoc (remains 64 message), remains_block size_pos hblock] at hremains
  refine ⟨buf, hwrite, ?_⟩
  rw [hbuffer]
  exact appendBlocks_spec (habsorbed.counted hdata) (by rw [hsplit, hwhole])
    (by rw [hsplit, hremains]) (hbuf.trans habsorbed.room)

/-- A piece is appended. -/
theorem Absorbed.append (habsorbed : Absorbed message s) (hdata : data.length < 2 ^ 28) :
  ∃ s', md5Append s data = some s' ∧ Absorbed (message ++ data) s'
  := by
  have hpartial : (remains 64 message).length < 64 := by
    rw [length_remains]
    exact Nat.mod_lt _ (by decide)
  rw [md5Append, habsorbed.offset]
  dsimp only
  split_ifs with hempty hoffset hcopy hshort hshort
  · rw [List.length_eq_zero_iff.mp hempty, List.append_nil]
    exact ⟨s, rfl, habsorbed⟩
  · omega
  · obtain ⟨buf, hwrite, s', happend, hs'⟩ := habsorbed.filled hdata
      (List.take_append_drop (64 - (remains 64 message).length) data).symm
      (by rw [List.length_take]; omega)
    exact ⟨s', by rw [State.counted, hwrite]; exact happend, hs'⟩
  · obtain ⟨buf, hwrite, hs'⟩ := habsorbed.kept hdata hshort
    exact ⟨_, by rw [List.take_length, State.counted, hwrite]; rfl, hs'⟩
  · obtain ⟨buf, hwrite, s', happend, hs'⟩ := habsorbed.filled hdata
      (List.take_append_drop data.length data).symm (by rw [List.length_take]; omega)
    exact ⟨s', by rw [State.counted, hwrite]; exact happend, hs'⟩
  · -- no partial block stands in the buffer
    have hnone : remains 64 message = [] := List.length_eq_zero_iff.mp (by omega)
    have hwhole := whole_append md5Process size_pos initial message data
    have hremains := remains_append size_pos message data
    rw [hnone, List.nil_append] at hwhole hremains
    rw [← habsorbed.abcd] at hwhole
    exact appendBlocks_spec (habsorbed.counted hdata) hwhole.symm hremains.symm habsorbed.room

/-- All pieces are appended. -/
theorem Absorbed.appends {chunks : List Bytes} (habsorbed : Absorbed message s)
    (hchunks : ∀ chunk ∈ chunks, chunk.length < 2 ^ 28) :
  ∃ s', chunks.foldlM md5Append s = some s' ∧ Absorbed (message ++ chunks.flatten) s'
  := by
  induction chunks generalizing message s with
  | nil => exact ⟨s, rfl, by rwa [List.flatten_nil, List.append_nil]⟩
  | cons chunk chunks ih =>
    obtain ⟨hchunk, hrest⟩ := List.forall_mem_cons.mp hchunks
    obtain ⟨s', happend, hs'⟩ := habsorbed.append hchunk
    obtain ⟨s'', happends, hs''⟩ := ih hs' hrest
    refine ⟨s'', ?_, ?_⟩
    · rw [List.foldlM_cons, happend]
      exact happends
    · rwa [List.flatten_cons, ← List.append_assoc]

/-- The number of padding bytes. -/
theorem Absorbed.padding (habsorbed : Absorbed message s) :
  ((((55 : UInt32) - (s.count0 >>> 3)) &&& 63) + 1).toNat = (55 + 63 * message.length) % 64 + 1
  := by
  have hoffset := habsorbed.offset
  have hlt := s.count0.toNat_lt
  have hfrom : (s.count0 >>> 3).toNat = s.count0.toNat / 8 := by
    rw [UInt32.toNat_shiftRight]
    exact Nat.shiftRight_eq_div_pow _ 3
  have hlow : ∀ w : UInt32, (w &&& 63).toNat = w.toNat % 64 := fun w => by
    rw [UInt32.toNat_and]
    exact Nat.and_two_pow_sub_one_eq_mod w.toNat 6
  have hone : (1 : UInt32).toNat = 1 := rfl
  have hdistance : (55 : UInt32).toNat = 55 := rfl
  rw [length_remains, hlow, hfrom] at hoffset
  rw [UInt32.toNat_add, hlow, UInt32.toNat_sub, hone, hdistance, hfrom]
  have hback : (2 ^ 32 - s.count0.toNat / 8 + 55) % 64 = (55 + 63 * message.length) % 64 := by
    omega
  rw [Nat.mod_mod_of_dvd _ (by decide), hback, Nat.mod_eq_of_lt (by omega)]

/-- The bytes of the counters are the length of the message. -/
theorem Absorbed.lengthBytes_eq (habsorbed : Absorbed message s) :
  wordBytes s.count0 ++ wordBytes s.count1 = lengthBytes message
  := by
  have hcount : s.count1.toNat * 2 ^ 32 + s.count0.toNat = 8 * message.length % (2 ^ 32 * 2 ^ 32) :=
    habsorbed.count
  have hlow : s.count0 = (8 * message.length).toUInt32 := by
    apply UInt32.toNat_inj.mp
    rw [UInt32.toNat_ofNat', ← Nat.mod_mul_right_mod _ (2 ^ 32) (2 ^ 32), ← hcount,
      Nat.mul_add_mod_of_lt s.count0.toNat_lt]
  have hhigh : s.count1 = (8 * message.length / 2 ^ 32).toUInt32 := by
    apply UInt32.toNat_inj.mp
    rw [UInt32.toNat_ofNat', ← Nat.mod_mul_right_div_self, ← hcount, Nat.mul_comm,
      Nat.mul_add_div (by decide), Nat.div_eq_of_lt s.count0.toNat_lt, Nat.add_zero]
  rw [lengthBytes, ← hlow, ← hhigh]

/-- The digest is that of the message. -/
theorem Absorbed.finish (habsorbed : Absorbed message s) :
  md5Finish s = some (messageDigest message)
  := by
  have hpad : pad.take ((55 + 63 * message.length) % 64 + 1) =
      0x80 :: List.replicate ((55 + 63 * message.length) % 64) 0 := by
    rw [pad, List.take_succ_cons, List.take_replicate, Nat.min_eq_left (by omega)]
  have hshort : (0x80 :: List.replicate ((55 + 63 * message.length) % 64) (0 : UInt8)).length
      < 2 ^ 28 := by
    rw [List.length_cons, List.length_replicate]
    omega
  obtain ⟨s', hpadded, hs'⟩ := habsorbed.append hshort
  have hlength : (lengthBytes message).length < 2 ^ 28 := by
    change 8 < 2 ^ 28
    decide
  obtain ⟨s'', hfinished, hs''⟩ := hs'.append hlength
  rw [md5Finish]
  rw [habsorbed.padding, hpad, hpadded, habsorbed.lengthBytes_eq, Option.bind_some, hfinished,
    Option.map_some, hs''.abcd]
  rfl

end

/-- However a message is cut into pieces, its digest is that of the whole message, and no
copy goes outside of the buffer. -/
theorem digest_of_chunks {buf : Bytes} (hbuf : buf.length = 64) {chunks : List Bytes}
    (hchunks : ∀ chunk ∈ chunks, chunk.length < 2 ^ 28) :
  ((chunks.foldlM md5Append (md5Init buf)).bind md5Finish) = some (messageDigest chunks.flatten)
  := by
  obtain ⟨s, happends, hs⟩ := (absorbed_init hbuf).appends hchunks
  rw [happends, Option.bind_some, hs.finish, List.nil_append]

theorem digest_of_abc :
  ([[0x61], [0x62, 0x63]].foldlM md5Append (md5Init (List.replicate 64 0))).bind md5Finish =
    some (messageDigest [0x61, 0x62, 0x63])
  := digest_of_chunks (List.length_replicate ..) (by simp)

end Md5
