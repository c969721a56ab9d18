import Mathlib.Data.Nat.Bitwise
import Mathlib.Tactic.Linarith
import Mathlib.Tactic.Ring

/-!
# Unsigned numbers of 128 bits

A number of 128 bits is a pair of numbers of 64 bits. Sums and products are made of sums and
products of 64 bits and of shifts; the quotient of the low half is found by subtracting the
divisor, shifted to the right bit by bit, from the dividend.

`udiv128_64` is given the addresses of the result and of the dividend, which may be the same.
A shift has a meaning for less than 128 bits only.
-/

namespace Int128

/-- `zbx_uint128_t` -/
@[ext]
structure Uint128 where
  hi : UInt64
  lo : UInt64
deriving DecidableEq, Repr

namespace Uint128

/-- The number that the two halves stand for. -/
def value (a : Uint128) : ℕ := a.hi.toNat * 2 ^ 64 + a.lo.toNat

end Uint128

/-- `UINT32_BIT_MASK` -/
def uint32BitMask : UInt64 := ~~~((~~~(0 : UInt64)) <<< 32)

/-- `udec128_128` -/
def udec128_128 (base value : Uint128) : Uint128 :=
  let lo := base.lo
  let base := { base with lo := base.lo - value.lo }
  let base := if lo < base.lo then { base with hi := base.hi - 1 } else base
  { base with hi := base.hi - value.hi }

/-- `ushiftr128` -/
def ushiftr128 (base : Uint128) (bits : ℕ) : Uint128 :=
  if bits = 0 then base
  else if 64 ≤ bits then ⟨0, base.hi >>> (bits - 64).toUInt64⟩
  else ⟨base.hi >>> bits.toUInt64,
    base.lo >>> bits.toUInt64 ||| base.hi <<< (64 - bits).toUInt64⟩

/-- `ushiftl128` -/
def ushiftl128 (base : Uint128) (bits : ℕ) : Uint128 :=
  if bits = 0 then base
  else if 64 ≤ bits then ⟨base.lo <<< (bits - 64).toUInt64, 0⟩
  else ⟨base.hi <<< bits.toUInt64 ||| base.lo >>> (64 - bits).toUInt64,
    base.lo <<< bits.toUInt64⟩

/-- `ucmp128_128` -/
def ucmp128_128 (value1 value2 : Uint128) : ℤ :=
  if value1.hi ≠ value2.hi then if value1.hi < value2.hi then -1 else 1
  else if value1.lo = value2.lo then 0
  else if value1.lo < value2.lo then -1 else 1

/-- `uinc128_64` -/
def uinc128_64 (base : Uint128) (value : UInt64) : Uint128 :=
  let low := base.lo
  let base := { base with lo := base.lo + value }
  if low > base.lo then { base with hi := base.hi + 1 } else base

/-- `uinc128_128`, where the base and the value stand at different addresses. -/
def uinc128_128 (base value : Uint128) : Uint128 :=
  let low := base.lo
  let base := { base with lo := base.lo + value.lo }
  let base := if low > base.lo then { base with hi := base.hi + 1 } else base
  { base with hi := base.hi + value.hi }

/-- `umul64_32_shift` -/
def umul64_32_shift (base : Uint128) (value factor : UInt64) (shift : ℕ) : Uint128 :=
  let base := uinc128_128 base (ushiftl128 ⟨0, (value &&& uint32BitMask) * factor⟩ shift)
  uinc128_128 base (ushiftl128 ⟨0, (value >>> 32) * factor⟩ (32 + shift))

/-- `umul64_64` -/
def umul64_64 (value factor : UInt64) : Uint128 :=
  let result := umul64_32_shift ⟨0, 0⟩ value (factor &&& uint32BitMask) 0
  umul64_32_shift result value (factor >>> 32) 32

/-- The numbers in memory, by their addresses. -/
abbrev Memory := ℕ → Uint128

/-- The inner loop of `udiv128_64`: the divisor and `result_mask` when the divisor is not
greater than the reminder any more. -/
def shiftDivisor (reminder : Uint128) :
    (rounds : ℕ) → (divisor : Uint128) → (resultMask : UInt64) → Option (Uint128 × UInt64)
  | 0, _, _ => none
  | rounds + 1, divisor, resultMask =>
    if ucmp128_128 reminder divisor < 0 then
      shiftDivisor reminder rounds (ushiftr128 divisor 1) (resultMask >>> 1)
    else some (divisor, resultMask)

/-- The outer loop of `udiv128_64`: the memory and the reminder behind it. -/
def divideManually (result : ℕ) : (rounds : ℕ) → (mem : Memory) → (reminder divisor : Uint128) →
    (resultMask : UInt64) → Option (Memory × Uint128)
  | 0, _, _, _, _ => none
  | rounds + 1, mem, reminder, divisor, resultMask =>
    if reminder.hi ≠ 0 then do
      let (divisor, resultMask) ← shiftDivisor reminder rounds divisor resultMask
      divideManually result rounds
        (Function.update mem result { mem result with lo := (mem result).lo ||| resultMask })
        (udec128_128 reminder divisor) divisor resultMask
    else some (mem, reminder)

/-- `udiv128_64`: the memory behind it. Nothing is divided by zero. -/
def udiv128_64 (rounds : ℕ) (result dividend : ℕ) (value : UInt64) (mem : Memory) :
    Option Memory :=
  if value = 0 then none
  else if (mem dividend).hi = 0 then
    let mem := Function.update mem result { mem result with hi := 0 }
    some (Function.update mem result { mem result with lo := (mem dividend).lo / value })
  else do
    let reminder := mem dividend
    let (mem, reminder) :=
      if (mem dividend).hi ≥ value then
        let mem := Function.update mem result
          { mem result with hi := (mem dividend).hi / value }
        (mem, { reminder with hi := reminder.hi - (mem result).hi * value })
      else (Function.update mem result { mem result with hi := 0 }, reminder)
    let mem := Function.update mem result { mem result with lo := 0 }
    let divisor := ushiftr128 ⟨value, 0⟩ 1
    let (mem, reminder) ← divideManually result rounds mem reminder divisor ((1 : UInt64) <<< 63)
    some (Function.update mem result
      { mem result with lo := (mem result).lo ||| reminder.lo / value })

/-! ### Shifts and sums -/

namespace Uint128

theorem value_eq_lo {a : Uint128} (h : a.hi = 0) :
  a.value = a.lo.toNat
  := by
  simp [value, h]

theorem hi_eq_zero_iff (a : Uint128) :
  a.hi = 0 ↔ a.value < 2 ^ 64
  := by
  have hlo := a.lo.toNat_lt
  rw [← UInt64.toNat_inj, UInt64.toNat_zero, value]
  omega

end Uint128

theorem value_uinc128_64 (base : Uint128) (value : UInt64) :
  (uinc128_64 base value).value = (base.value + value.toNat) % 2 ^ 128
  := by
  have hhi := base.hi.toNat_lt
  have hlo := base.lo.toNat_lt
  have hvalue := value.toNat_lt
  unfold uinc128_64 Uint128.value
  dsimp only
  split_ifs with hcarry
  · rw [gt_iff_lt, UInt64.lt_iff_toNat_lt, UInt64.toNat_add] at hcarry
    rw [UInt64.toNat_add, UInt64.toNat_add, UInt64.toNat_one]
    omega
  · rw [gt_iff_lt, UInt64.lt_iff_toNat_lt, UInt64.toNat_add] at hcarry
    dsimp only
    rw [UInt64.toNat_add]
    omega

theorem value_uinc128_128 (base value : Uint128) :
  (uinc128_128 base value).value = (base.value + value.value) % 2 ^ 128
  := by
  have hhi := base.hi.toNat_lt
  have hlo := base.lo.toNat_lt
  have hhi' := value.hi.toNat_lt
  have hlo' := value.lo.toNat_lt
  unfold uinc128_128 Uint128.value
  dsimp only
  split_ifs with hcarry
  · rw [gt_iff_lt, UInt64.lt_iff_toNat_lt, UInt64.toNat_add] at hcarry
    rw [UInt64.toNat_add, UInt64.toNat_add, UInt64.toNat_add, UInt64.toNat_one]
    omega
  · rw [gt_iff_lt, UInt64.lt_iff_toNat_lt, UInt64.toNat_add] at hcarry
    dsimp only
    rw [UInt64.toNat_add, UInt64.toNat_add]
    omega

/-- The difference of a number and one that is not greater. -/
theorem value_udec128_128 {base value : Uint128} (h : value.value ≤ base.value) :
  (udec128_128 base value).value = base.value - value.value
  := by
  have hhi := base.hi.toNat_lt
  have hlo := base.lo.toNat_lt
  have hhi' := value.hi.toNat_lt
  have hlo' := value.lo.toNat_lt
  unfold Uint128.value at h
  unfold udec128_128 Uint128.value
  dsimp only
  split_ifs with hborrow
  · rw [UInt64.lt_iff_toNat_lt, UInt64.toNat_sub] at hborrow
    rw [UInt64.toNat_sub, UInt64.toNat_sub, UInt64.toNat_sub, UInt64.toNat_one]
    omega
  · rw [UInt64.lt_iff_toNat_lt, UInt64.toNat_sub] at hborrow
    dsimp only
    rw [UInt64.toNat_sub, UInt64.toNat_sub]
    omega

theorem ucmp128_128_neg_iff (value1 value2 : Uint128) :
  ucmp128_128 value1 value2 < 0 ↔ value1.value < value2.value
  := by
  have hlo := value1.lo.toNat_lt
  have hlo' := value2.lo.toNat_lt
  unfold ucmp128_128 Uint128.value
  simp only [ne_eq, ← UInt64.toNat_inj, UInt64.lt_iff_toNat_lt]
  split_ifs <;> omega

/-- The divisor is moved by one bit in a round. -/
theorem value_ushiftr128_one (base : Uint128) :
  (ushiftr128 base 1).value = base.value / 2
  := by
  have hlo := base.lo.toNat_lt
  have hhalf : base.lo.toNat / 2 < 2 ^ 63 := by omega
  have hhigh : base.hi.toNat <<< 63 % 2 ^ 64 = 2 ^ 63 * (base.hi.toNat % 2) := by
    rw [Nat.shiftLeft_eq]
    omega
  have hor : (base.lo >>> 1 ||| base.hi <<< 63).toNat
      = base.lo.toNat / 2 + 2 ^ 63 * (base.hi.toNat % 2) := by
    rw [UInt64.toNat_or, UInt64.toNat_shiftRight, UInt64.toNat_shiftLeft]
    change base.lo.toNat >>> 1 ||| base.hi.toNat <<< 63 % 2 ^ 64 = _
    rw [hhigh, Nat.shiftRight_eq_div_pow, Nat.or_comm, ← Nat.two_pow_add_eq_or_of_lt hhalf]
    omega
  change (base.hi >>> 1).toNat * 2 ^ 64 + (base.lo >>> 1 ||| base.hi <<< 63).toNat = _
  have hshift : (base.hi >>> 1).toNat = base.hi.toNat / 2 := by
    rw [UInt64.toNat_shiftRight]
    exact Nat.shiftRight_eq_div_pow ..
  rw [hor, hshift, Uint128.value]
  omega

/-- The halves of a product are moved by whole and half words. -/
theorem value_ushiftl128 (low : UInt64) {bits : ℕ} (h : bits = 0 ∨ bits = 32 ∨ bits = 64) :
  (ushiftl128 ⟨0, low⟩ bits).value = low.toNat * 2 ^ bits
  := by
  have hlow := low.toNat_lt
  obtain rfl | rfl | rfl := h
  · simp [ushiftl128, Uint128.value]
  · change ((0 : UInt64) <<< 32 ||| low >>> 32).toNat * 2 ^ 64 + (low <<< 32).toNat = _
    rw [UInt64.toNat_or, UInt64.toNat_shiftRight, UInt64.toNat_shiftLeft, UInt64.toNat_shiftLeft]
    change ((0 : ℕ) <<< 32 % 2 ^ 64 ||| low.toNat >>> 32) * 2 ^ 64
      + low.toNat <<< 32 % 2 ^ 64 = _
    rw [Nat.zero_shiftLeft, Nat.zero_mod, Nat.zero_or, Nat.shiftRight_eq_div_pow,
      Nat.shiftLeft_eq]
    omega
  · change (low <<< 0).toNat * 2 ^ 64 + 0 = _
    rw [UInt64.toNat_shiftLeft]
    change low.toNat <<< 0 % 2 ^ 64 * 2 ^ 64 + 0 = _
    rw [Nat.shiftLeft_zero, Nat.mod_eq_of_lt hlow, Nat.add_zero]

/-! ### The product -/

theorem toNat_lowHalf (value : UInt64) :
  (value &&& uint32BitMask).toNat = value.toNat % 2 ^ 32
  := by
  have hmask : uint32BitMask.toNat = 2 ^ 32 - 1 := by decide
  rw [UInt64.toNat_and, hmask, Nat.and_two_pow_sub_one_eq_mod]

theorem toNat_highHalf (value : UInt64) :
  (value >>> 32).toNat = value.toNat / 2 ^ 32
  := by
  rw [UInt64.toNat_shiftRight]
  exact Nat.shiftRight_eq_div_pow ..

/-- A product with half a word is moved and added. -/
theorem value_umul64_32_shift (base : Uint128) (value : UInt64) {factor : UInt64}
    (hfactor : factor.toNat < 2 ^ 32) {shift : ℕ} (hshift : shift = 0 ∨ shift = 32) :
  (umul64_32_shift base value factor shift).value
    = (base.value + value.toNat * factor.toNat * 2 ^ shift) % 2 ^ 128
  := by
  have hvalue := value.toNat_lt
  have hproduct : ∀ half : UInt64, half.toNat < 2 ^ 32 →
      (half * factor).toNat = half.toNat * factor.toNat := by
    intro half hhalf
    rw [UInt64.toNat_mul]
    apply Nat.mod_eq_of_lt
    calc half.toNat * factor.toNat < 2 ^ 32 * 2 ^ 32 := Nat.mul_lt_mul'' hhalf hfactor
      _ = 2 ^ 64 := by norm_num
  have hlow : (value &&& uint32BitMask).toNat < 2 ^ 32 := by
    rw [toNat_lowHalf]
    omega
  have hhigh : (value >>> 32).toNat < 2 ^ 32 := by
    rw [toNat_highHalf]
    omega
  have hsum : value.toNat % 2 ^ 32 * factor.toNat * 2 ^ shift
        + value.toNat / 2 ^ 32 * factor.toNat * 2 ^ (32 + shift)
      = value.toNat * factor.toNat * 2 ^ shift :=
    calc value.toNat % 2 ^ 32 * factor.toNat * 2 ^ shift
          + value.toNat / 2 ^ 32 * factor.toNat * 2 ^ (32 + shift)
        = (2 ^ 32 * (value.toNat / 2 ^ 32) + value.toNat % 2 ^ 32) * factor.toNat * 2 ^ shift := by
          ring
      _ = value.toNat * factor.toNat * 2 ^ shift := by rw [Nat.div_add_mod]
  unfold umul64_32_shift
  dsimp only
  rw [value_uinc128_128, value_uinc128_128, value_ushiftl128 _ (by omega),
    value_ushiftl128 _ (by omega), hproduct _ hlow, hproduct _ hhigh, Nat.mod_add_mod,
    toNat_lowHalf, toNat_highHalf, Nat.add_assoc, hsum]

theorem value_umul64_64 (value factor : UInt64) :
  (umul64_64 value factor).value = value.toNat * factor.toNat
  := by
  have hvalue := value.toNat_lt
  have hfactor := factor.toNat_lt
  have hbound : value.toNat * factor.toNat < 2 ^ 128 :=
    calc value.toNat * factor.toNat < 2 ^ 64 * 2 ^ 64 := Nat.mul_lt_mul'' hvalue hfactor
      _ = 2 ^ 128 := by norm_num
  have hzero : (⟨0, 0⟩ : Uint128).value = 0 := rfl
  unfold umul64_64
  dsimp only
  rw [value_umul64_32_shift _ _ (by rw [toNat_highHalf]; omega) (.inr rfl),
    value_umul64_32_shift _ _ (by rw [toNat_lowHalf]; omega) (.inl rfl), Nat.mod_add_mod,
    toNat_lowHalf, toNat_highHalf, hzero, Nat.zero_add, pow_zero, Nat.mul_one]
  calc (value.toNat * (factor.toNat % 2 ^ 32) + value.toNat * (factor.toNat / 2 ^ 32) * 2 ^ 32)
        % 2 ^ 128
      = value.toNat * (2 ^ 32 * (factor.toNat / 2 ^ 32) + factor.toNat % 2 ^ 32) % 2 ^ 128 := by
        ring_nf
    _ = value.toNat * factor.toNat := by rw [Nat.div_add_mod, Nat.mod_eq_of_lt hbound]

/-! ### The quotient -/

/-- The divisor at bit `k`, and the mask of this bit. -/
structure AtBit (value : UInt64) (k : ℕ) (divisor : Uint128) (resultMask : UInt64) : Prop where
  divisor : divisor.value = value.toNat * 2 ^ k
  mask : resultMask.toNat = 2 ^ k

theorem AtBit.next {value : UInt64} {k : ℕ} {divisor : Uint128} {resultMask : UInt64}
    (h : AtBit value (k + 1) divisor resultMask) :
  AtBit value k (ushiftr128 divisor 1) (resultMask >>> 1)
  := by
  constructor
  · rw [value_ushiftr128_one, h.divisor, pow_succ, ← Nat.mul_assoc,
      Nat.mul_div_cancel _ Nat.two_pos]
  · rw [UInt64.toNat_shiftRight, h.mask]
    change 2 ^ (k + 1) >>> 1 = _
    rw [Nat.shiftRight_eq_div_pow, pow_succ, pow_one, Nat.mul_div_cancel _ Nat.two_pos]

/-- The divisor is shifted to the first bit where it is not greater than the reminder. -/
theorem shiftDivisor_spec {value : UInt64} {reminder divisor : Uint128} {resultMask : UInt64}
    {k rounds : ℕ} (h : AtBit value k divisor resultMask)
    (hle : value.toNat ≤ reminder.value) (hrounds : k < rounds) :
  ∃ j divisor' resultMask',
    shiftDivisor reminder rounds divisor resultMask = some (divisor', resultMask') ∧
      AtBit value j divisor' resultMask' ∧ j ≤ k ∧ value.toNat * 2 ^ j ≤ reminder.value ∧
      (j = k ∨ reminder.value < value.toNat * 2 ^ (j + 1))
  := by
  induction k generalizing rounds divisor resultMask with
  | zero =>
    obtain ⟨rounds, rfl⟩ := Nat.exists_eq_add_of_lt hrounds
    have hnot : ¬ ucmp128_128 reminder divisor < 0 := by
      rw [ucmp128_128_neg_iff, h.divisor, pow_zero]
      omega
    refine ⟨0, divisor, resultMask, if_neg hnot, h, le_rfl, ?_, .inl rfl⟩
    rw [pow_zero, Nat.mul_one]
    exact hle
  | succ k ih =>
    obtain ⟨rounds, rfl⟩ : ∃ m, rounds = m + 1 := ⟨rounds - 1, by omega⟩
    by_cases hless : ucmp128_128 reminder divisor < 0
    · obtain ⟨j, divisor', resultMask', hshift, hbit, hjk, hfits, hlast⟩ :=
        ih h.next (Nat.lt_of_succ_lt_succ hrounds)
      refine ⟨j, divisor', resultMask', ?_, hbit, Nat.le_succ_of_le hjk, hfits, .inr ?_⟩
      · rw [shiftDivisor, if_pos hless, hshift]
      · rw [ucmp128_128_neg_iff, h.divisor] at hless
        obtain rfl | hlast := hlast
        · exact hless
        · exact hlast
    · refine ⟨k + 1, divisor, resultMask, if_neg hless, h, le_rfl, ?_, .inl rfl⟩
      rw [ucmp128_128_neg_iff, h.divisor] at hless
      exact Nat.le_of_not_lt hless

/-- Setting a bit below those that are set. -/
theorem toNat_or_of_dvd {a b : UInt64} {m : ℕ} (ha : 2 ^ m ∣ a.toNat) (hb : b.toNat < 2 ^ m) :
  (a ||| b).toNat = a.toNat + b.toNat
  := by
  obtain ⟨c, hc⟩ := ha
  rw [UInt64.toNat_or, hc, Nat.two_pow_add_eq_or_of_lt hb]

/-- The state of the division before a round: `total` is still to be divided, the reminder is
less than the divisor at bit `m`, and no bit below `m` of the result is set. -/
structure Dividing (value : UInt64) (total m : ℕ) (reminder : Uint128) (lo : UInt64) : Prop where
  total : lo.toNat * value.toNat + reminder.value = total
  small : reminder.value < value.toNat * 2 ^ m
  clear : 2 ^ m ∣ lo.toNat

/-- Subtracting the divisor at a bit and setting this bit. -/
theorem Dividing.subtract {value : UInt64} {total m j : ℕ} {reminder divisor : Uint128}
    {lo resultMask : UInt64} (h : Dividing value total m reminder lo)
    (hbit : AtBit value j divisor resultMask) (hjm : j < m)
    (hfits : value.toNat * 2 ^ j ≤ reminder.value)
    (hlast : reminder.value < value.toNat * 2 ^ (j + 1)) :
  Dividing value total j (udec128_128 reminder divisor) (lo ||| resultMask)
  := by
  have hor := toNat_or_of_dvd h.clear (hbit.mask ▸ Nat.pow_lt_pow_right Nat.one_lt_two hjm)
  have hdec : (udec128_128 reminder divisor).value = reminder.value - divisor.value := by
    apply value_udec128_128
    rw [hbit.divisor]
    exact hfits
  rw [hbit.divisor] at hdec
  rw [hbit.mask] at hor
  refine ⟨?_, ?_, ?_⟩
  · rw [hor, hdec, ← h.total, Nat.add_mul, Nat.mul_comm (2 ^ j)]
    omega
  · rw [pow_succ, ← Nat.mul_assoc] at hlast
    omega
  · rw [hor]
    exact Nat.dvd_add ((Nat.pow_dvd_pow 2 hjm.le).trans h.clear) (Nat.dvd_refl _)

/-- The manual division ends after at most one round for each bit, with a reminder of 64
bits. It writes to the low half of the result only. -/
theorem divideManually_spec {value : UInt64} {total m k rounds result : ℕ} {mem : Memory}
    {reminder divisor : Uint128} {resultMask : UInt64}
    (h : Dividing value total m reminder (mem result).lo)
    (hbit : AtBit value k divisor resultMask) (hk : k = m ∨ k + 1 = m)
    (hrounds : m + 1 < rounds) :
  ∃ j mem' reminder',
    divideManually result rounds mem reminder divisor resultMask = some (mem', reminder') ∧
      Dividing value total j reminder' (mem' result).lo ∧ reminder'.hi = 0 ∧
      (mem' result).hi = (mem result).hi ∧ ∀ a ≠ result, mem' a = mem a
  := by
  obtain ⟨rounds, rfl⟩ : ∃ n, rounds = n + 1 := ⟨rounds - 1, by omega⟩
  induction rounds generalizing m k mem reminder divisor resultMask with
  | zero => omega
  | succ rounds ih =>
    by_cases hhi : reminder.hi = 0
    · refine ⟨m, mem, reminder, ?_, h, hhi, rfl, fun _ _ => rfl⟩
      rw [divideManually, if_neg (not_not.mpr hhi)]
    · have hge : 2 ^ 64 ≤ reminder.value := by
        rw [reminder.hi_eq_zero_iff] at hhi
        omega
      have hle : value.toNat ≤ reminder.value := value.toNat_lt.le.trans hge
      obtain ⟨j, divisor', resultMask', hshift, hbit', hjk, hfits, hlast⟩ :=
        shiftDivisor_spec hbit hle (show k < rounds + 1 by omega)
      have hjm : j < m := by
        by_contra hmj
        have hpow := Nat.mul_le_mul_left value.toNat
          (Nat.pow_le_pow_right Nat.two_pos (Nat.le_of_not_lt hmj))
        have hsmall := h.small
        omega
      have hlast' : reminder.value < value.toNat * 2 ^ (j + 1) := by
        obtain rfl | hlast := hlast
        · obtain rfl | rfl := hk
          · omega
          · exact h.small
        · exact hlast
      have hnext : Dividing value total j (udec128_128 reminder divisor')
          (Function.update mem result
            { mem result with lo := (mem result).lo ||| resultMask' } result).lo := by
        rw [Function.update_self]
        exact h.subtract hbit' hjm hfits hlast'
      obtain ⟨i, mem', reminder', hdivide, hdone, hzero, hkeep, hothers⟩ :=
        ih hnext hbit' (.inl rfl) (by omega)
      refine ⟨i, mem', reminder', ?_, hdone, hzero, ?_, ?_⟩
      · rw [divideManually, if_pos hhi, hshift]
        exact hdivide
      · rw [hkeep, Function.update_self]
      · intro a ha
        rw [hothers a ha, Function.update_of_ne ha]

/-- The last bits of the quotient come from a division of 64 bits. -/
theorem Dividing.finish {value : UInt64} {total m : ℕ} {reminder : Uint128} {lo : UInt64}
    (h : Dividing value total m reminder lo) (hhi : reminder.hi = 0) (hvalue : value ≠ 0) :
  (lo ||| reminder.lo / value).toNat = total / value.toNat
  := by
  have hpos : 0 < value.toNat := Nat.pos_of_ne_zero fun hzero => hvalue (UInt64.toNat_inj.mp hzero)
  have hsmall := h.small
  rw [Uint128.value_eq_lo hhi] at hsmall
  have hquotient : (reminder.lo / value).toNat < 2 ^ m := by
    rw [UInt64.toNat_div]
    exact Nat.div_lt_of_lt_mul hsmall
  rw [toNat_or_of_dvd h.clear hquotient, UInt64.toNat_div, ← h.total, Uint128.value_eq_lo hhi,
    Nat.mul_comm, Nat.mul_add_div hpos]

/-- The division of the low half, when the high half of the dividend is less than the divisor
and the low half of the result is zero. -/
theorem divideLow_spec {value : UInt64} (reminder : Uint128) (mem : Memory) (result : ℕ)
    (hvalue : value ≠ 0) (hless : reminder.hi < value) (hlo : (mem result).lo = 0) {rounds : ℕ}
    (hrounds : 65 < rounds) :
  ∃ mem' reminder',
    divideManually result rounds mem reminder (ushiftr128 ⟨value, 0⟩ 1) ((1 : UInt64) <<< 63)
        = some (mem', reminder') ∧
      (mem' result).hi = (mem result).hi ∧
      ((mem' result).lo ||| reminder'.lo / value).toNat = reminder.value / value.toNat ∧
      ∀ a ≠ result, mem' a = mem a
  := by
  have hstart : Dividing value reminder.value 64 reminder (mem result).lo := by
    have hlow := reminder.lo.toNat_lt
    rw [UInt64.lt_iff_toNat_lt] at hless
    refine ⟨?_, ?_, ?_⟩
    · rw [hlo, UInt64.toNat_zero, Nat.zero_mul, Nat.zero_add]
    · have hmul := Nat.mul_le_mul_right (2 ^ 64) (Nat.succ_le_of_lt hless)
      rw [Nat.succ_mul] at hmul
      unfold Uint128.value
      omega
    · rw [hlo]
      exact Nat.dvd_zero _
  have hbit : AtBit value 63 (ushiftr128 ⟨value, 0⟩ 1) ((1 : UInt64) <<< 63) := by
    refine ⟨?_, by decide⟩
    rw [value_ushiftr128_one]
    change (value.toNat * 2 ^ 64 + 0) / 2 = _
    omega
  obtain ⟨j, mem', reminder', hdivide, hdone, hzero, hkeep, hothers⟩ :=
    divideManually_spec hstart hbit (.inr rfl) hrounds
  exact ⟨mem', reminder', hdivide, hkeep, hdone.finish hzero hvalue, hothers⟩

/-- The result and the dividend may stand at one address: the dividend is read before the
result is written. Nothing but the result changes. -/
theorem udiv128_64_spec (result dividend : ℕ) {value : UInt64} (mem : Memory) (hvalue : value ≠ 0)
    {rounds : ℕ} (hrounds : 65 < rounds) :
  ∃ mem', udiv128_64 rounds result dividend value mem = some mem' ∧
    (mem' result).value = (mem dividend).value / value.toNat ∧
    ∀ a ≠ result, mem' a = mem a
  := by
  have hpos : 0 < value.toNat := Nat.pos_of_ne_zero fun hzero => hvalue (UInt64.toNat_inj.mp hzero)
  obtain ⟨⟨hi, lo⟩, hdividend⟩ : ∃ a, mem dividend = a := ⟨_, rfl⟩
  rw [udiv128_64, if_neg hvalue, hdividend]
  by_cases hhi : hi = 0
  · subst hhi
    have hlo : (Function.update mem result { mem result with hi := 0 } dividend).lo = lo := by
      by_cases hsame : dividend = result
      · subst hsame
        rw [Function.update_self, hdividend]
      · rw [Function.update_of_ne hsame, hdividend]
    refine ⟨_, if_pos rfl, ?_, fun a ha => ?_⟩
    · rw [Function.update_self, Function.update_self, hlo]
      simp [Uint128.value, UInt64.toNat_div]
    · rw [Function.update_of_ne ha, Function.update_of_ne ha]
  · rw [if_neg hhi]
    -- the high half: its quotient is the high half of the result, what is left is `high`
    obtain ⟨quotient, high, hsplit, hless, hhalf⟩ : ∃ quotient high : UInt64,
        quotient.toNat * value.toNat + high.toNat = hi.toNat ∧ high < value ∧
        (if hi ≥ value then
            (Function.update mem result { mem result with hi := hi / value },
              ({ hi := hi - (Function.update mem result
                  { mem result with hi := hi / value } result).hi * value, lo := lo } : Uint128))
          else (Function.update mem result { mem result with hi := 0 }, ⟨hi, lo⟩))
        = (Function.update mem result { mem result with hi := quotient }, ⟨high, lo⟩) := by
      by_cases hge : hi ≥ value
      · have hmod := Nat.div_add_mod' hi.toNat value.toNat
        have hprod : (hi / value * value).toNat = hi.toNat / value.toNat * value.toNat := by
          rw [UInt64.toNat_mul, UInt64.toNat_div]
          apply Nat.mod_eq_of_lt
          have hlt := hi.toNat_lt
          omega
        have hsub : (hi - hi / value * value).toNat = hi.toNat % value.toNat := by
          rw [UInt64.toNat_sub_of_le, hprod]
          · omega
          · rw [UInt64.le_iff_toNat_le, hprod]
            omega
        refine ⟨hi / value, hi - hi / value * value, ?_, ?_, ?_⟩
        · rw [hsub, UInt64.toNat_div, hmod]
        · rw [UInt64.lt_iff_toNat_lt, hsub]
          exact Nat.mod_lt _ hpos
        · rw [if_pos hge, Function.update_self]
      · exact ⟨0, hi, by simp, UInt64.not_le.mp hge, if_neg hge⟩
    obtain ⟨mem', reminder', hdivide, hkeep, hfinish, hothers⟩ :=
      divideLow_spec ⟨high, lo⟩ (Function.update mem result ⟨quotient, 0⟩) result
        hvalue hless (by rw [Function.update_self]) hrounds
    dsimp only
    rw [hhalf]
    dsimp only
    rw [Function.update_idem, Function.update_self, hdivide]
    refine ⟨_, rfl, ?_, fun a ha => ?_⟩
    · rw [Function.update_self, Uint128.value]
      dsimp only
      rw [hfinish, hkeep, Function.update_self, Uint128.value, Uint128.value]
      dsimp only
      rw [← hsplit, Nat.add_mul, Nat.add_assoc, Nat.mul_right_comm, Nat.add_comm,
        ← Nat.add_mul_div_right _ _ hpos, Nat.add_comm]
    · dsimp only
      rw [Function.update_of_ne ha, hothers a ha, Function.update_of_ne ha]

/-- Sums are exact up to 2^128, products and quotients are exact, and a quotient may be written
over its dividend. The loops of a division end within 66 rounds. -/
theorem exact_arithmetic :
  (∀ base value, (uinc128_64 base value).value = (base.value + value.toNat) % 2 ^ 128) ∧
  (∀ base value, (uinc128_128 base value).value = (base.value + value.value) % 2 ^ 128) ∧
  (∀ value factor, (umul64_64 value factor).value = value.toNat * factor.toNat) ∧
  ∀ (result dividend : ℕ) (value : UInt64) (mem : Memory) (rounds : ℕ), value ≠ 0 →
    65 < rounds →
    ∃ mem', udiv128_64 rounds result dividend value mem = some mem' ∧
      (mem' result).value = (mem dividend).value / value.toNat ∧
      ∀ a ≠ result, mem' a = mem a
  := by
  refine ⟨value_uinc128_64, value_uinc128_128, value_umul64_64, ?_⟩
  intro result dividend value mem rounds hvalue hrounds
  exact udiv128_64_spec result dividend mem hvalue hrounds

/-- A dividend of 128 bits is divided in place by a divisor with the highest bit set. -/
theorem exact_arithmetic_inPlace :
  ∃ mem', udiv128_64 66 0 0 0x8000000000000001 (fun _ => ⟨0xffffffffffffffff, 5⟩) = some mem' ∧
    (mem' 0).value = 0xffffffffffffffff0000000000000005 / 0x8000000000000001
  := by
  obtain ⟨mem', hdivide, hquotient, -⟩ :=
    exact_arithmetic.2.2.2 0 0 0x8000000000000001 (fun _ => ⟨0xffffffffffffffff, 5⟩) 66
      (by decide) (by decide)
  exact ⟨mem', hdivide, hquotient⟩

end Int128
