import Zabbix.Library.Digits

/-!
# Unsigned numbers in texts

`is_uint_n_range` reads decimal digits up to a given number of characters, and `str2uint64`
reads a decimal number with a suffix. Numbers of 64 bits are of type `UInt64`. The characters
read are counted in an `int`; counting further than an `int` goes has no result.
-/

namespace Unsigned

open Ascii

/-- The greatest number of type `int`. -/
def intMax : ℕ := 2147483647

/-- `max_uint64` -/
def maxUint64 : UInt64 := ~~~0

/-- What `is_uint_n_range` returns, and what it has written to the output buffer. -/
inductive Result
  | fail
  | succeed (stored : Option ℕ)
deriving DecidableEq, Repr

/-- The loop of `is_uint_n_range`: the value behind it, or `none` when it returns `FAIL`. -/
def uintLoop : Bytes → (n : ℕ) → (valueUint64 : UInt64) → (len : ℕ) → Option (Option UInt64)
  | [], _, valueUint64, _ => some (some valueUint64)
  | c :: str, n, valueUint64, len =>
    if n = 0 then some (some valueUint64)
    else if ¬ isDigit c then some none
    else
      let digit := (c - 0x30).toUInt64
      if len = intMax then none
      else if 20 ≤ len + 1 ∧ (maxUint64 - digit) / 10 < valueUint64 then some none
      else uintLoop str (n - 1) (valueUint64 * 10 + digit) (len + 1)

/-- `is_uint_n_range`, with the information whether an output buffer is given. The output buffer
gets the last `size` bytes of the number. -/
def isUintNRange (str : Bytes) (n : ℕ) (hasBuffer : Bool) (size : ℕ) (min max : UInt64) :
    Option Result :=
  if str = [] ∨ n = 0 ∨ 8 < size ∨ size = 0 ∧ hasBuffer then some .fail
  else
    (uintLoop str n 0 0).map fun
      | none => .fail
      | some valueUint64 =>
        if min > valueUint64 ∨ valueUint64 > max then .fail
        else .succeed (if hasBuffer then some (valueUint64.toNat % 2 ^ (8 * size)) else none)

/-- `is_uint64_n` -/
def isUint64N (str : Bytes) (n : ℕ) : Option Result := isUintNRange str n true 8 0 maxUint64

/-- The factor of a suffix in `str2uint64`. -/
def suffixFactor (c : UInt8) : UInt64 :=
  if c = 'K'.toUInt8 then 1024
  else if c = 'M'.toUInt8 then 1048576
  else if c = 'G'.toUInt8 then 1073741824
  else if c = 'T'.toUInt8 then 1099511627776
  else if c = 's'.toUInt8 then 1
  else if c = 'm'.toUInt8 then 60
  else if c = 'h'.toUInt8 then 3600
  else if c = 'd'.toUInt8 then 86400
  else if c = 'w'.toUInt8 then 604800
  else 1

/-- `str2uint64`. Of an empty string the byte before it is looked at, and the number of
characters left of it is that before zero in a `size_t`. `strchr` finds the zero byte behind
the suffixes too. -/
def str2uint64 (before : UInt8) (str suffixes : Bytes) : Option Result :=
  let last := str.getLast?.getD before
  let found := last ∈ suffixes ∨ last = 0
  let factor := if found then suffixFactor last else 1
  let sz := if found then if str.length = 0 then 2 ^ 64 - 1 else str.length - 1 else str.length
  (isUint64N str sz).map fun
    | .succeed (some value) => .succeed (some (value * factor.toNat % 2 ^ 64))
    | result => result

/-! ### Numbers in a range -/

/-- The text is a number in the range. -/
structure NumberIn (text : Bytes) (min max : UInt64) (v : ℕ) : Prop where
  nonempty : text ≠ []
  digits : ∀ c ∈ text, isDigit c = true
  value : Digits.value 10 text = v
  min_le : min.toNat ≤ v
  le_max : v ≤ max.toNat

/-- `is_uint_n_range` succeeds exactly when the first `n` characters are a number in the range,
and then stores this number. -/
def RangeExact (str : Bytes) (n : ℕ) (min max : UInt64) : Prop :=
  ∀ hasBuffer,
    (∃ v, NumberIn (str.take n) min max v ∧
      isUintNRange str n hasBuffer 8 min max
        = some (.succeed (if hasBuffer then some v else none))) ∨
    (¬ ∃ v, NumberIn (str.take n) min max v) ∧
      isUintNRange str n hasBuffer 8 min max = some .fail

/-- More digits than an `int` counts, the first of them being a number of 64 bits. -/
def TooLong (text : Bytes) : Prop :=
  intMax < (text.takeWhile isDigit).length ∧ Digits.value 10 (text.take intMax) < 2 ^ 64

theorem not_tooLong {text : Bytes} (h : (text.takeWhile isDigit).length ≤ intMax) :
  ¬ TooLong text
  := fun hlong => absurd hlong.1 (Nat.not_lt.mpr h)

theorem takeWhile_digits_append {digits : Bytes} (h : ∀ c ∈ digits, isDigit c = true)
    (text : Bytes) :
  (digits ++ text).takeWhile isDigit = digits ++ text.takeWhile isDigit
  := List.takeWhile_append_of_pos h

theorem toNat_digit {c : UInt8} (h : isDigit c = true) :
  (c - 0x30).toUInt64.toNat = Digits.digit c ∧ Digits.digit c < 10
  := by
  have hall : ∀ n < 256, isDigit (UInt8.ofNat n) = true →
      (UInt8.ofNat n - 0x30).toUInt64.toNat = Digits.digit (UInt8.ofNat n) := by
    decide +kernel
  have hc := hall c.toNat c.toNat_lt
  rw [c.ofNat_toNat] at hc
  exact ⟨hc h, Digits.digit_lt_ten h⟩

/-- The test for the greatest value is exact from the twentieth digit on, and before it every
value is small enough. -/
theorem exceeds_iff {digits : Bytes} (hdigits : ∀ c ∈ digits, isDigit c = true)
    {valueUint64 : UInt64} (hvalue : valueUint64.toNat = Digits.value 10 digits) {c : UInt8}
    (hc : isDigit c = true) :
  (20 ≤ digits.length + 1 ∧ (maxUint64 - (c - 0x30).toUInt64) / 10 < valueUint64)
    ↔ 2 ^ 64 ≤ Digits.value 10 (digits ++ [c])
  := by
  obtain ⟨hdigit, hlt⟩ := toNat_digit hc
  have hsmall : Digits.value 10 digits < 10 ^ digits.length :=
    Digits.value_lt fun c hc => Digits.digit_lt_ten (hdigits c hc)
  have hmax : (maxUint64 - (c - 0x30).toUInt64).toNat = 2 ^ 64 - 1 - Digits.digit c := by
    have hle : (c - 0x30).toUInt64 ≤ maxUint64 := by
      rw [UInt64.le_iff_toNat_le, hdigit]
      change Digits.digit c ≤ 2 ^ 64 - 1
      omega
    rw [UInt64.toNat_sub_of_le _ _ hle, hdigit]
    rfl
  rw [Digits.value_concat, UInt64.lt_iff_toNat_lt, UInt64.toNat_div, hmax, hvalue]
  change 20 ≤ _ ∧ (2 ^ 64 - 1 - Digits.digit c) / 10 < _ ↔ _
  constructor
  · rintro ⟨-, hless⟩
    omega
  · intro hle
    refine ⟨?_, by omega⟩
    by_contra hshort
    have hpow : 10 ^ digits.length ≤ 10 ^ 18 := Nat.pow_le_pow_right (by decide) (by omega)
    omega

/-- The loop, when `digits` have been read. -/
theorem uintLoop_spec (str : Bytes) {n : ℕ} {digits : Bytes}
    (hdigits : ∀ c ∈ digits, isDigit c = true) (hlength : digits.length ≤ intMax)
    {valueUint64 : UInt64} (hvalue : valueUint64.toNat = Digits.value 10 digits) :
  (TooLong (digits ++ str.take n) ∧ uintLoop str n valueUint64 digits.length = none) ∨
  ¬ TooLong (digits ++ str.take n) ∧
    ((∃ v : UInt64, (∀ c ∈ str.take n, isDigit c = true) ∧
        v.toNat = Digits.value 10 (digits ++ str.take n) ∧
        uintLoop str n valueUint64 digits.length = some (some v)) ∨
      ¬ ((∀ c ∈ str.take n, isDigit c = true) ∧
          Digits.value 10 (digits ++ str.take n) < 2 ^ 64) ∧
        uintLoop str n valueUint64 digits.length = some none)
  := by
  have hdone : ¬ TooLong (digits ++ []) := by
    apply not_tooLong
    rw [takeWhile_digits_append hdigits, List.takeWhile_nil, List.append_nil]
    exact hlength
  induction str generalizing n digits valueUint64 with
  | nil =>
    rw [List.take_nil]
    refine .inr ⟨hdone, .inl ⟨valueUint64, nofun, ?_, rfl⟩⟩
    rw [hvalue, List.append_nil]
  | cons c str ih =>
    cases n with
    | zero =>
      rw [List.take_zero]
      refine .inr ⟨hdone, .inl ⟨valueUint64, nofun, ?_, if_pos rfl⟩⟩
      rw [hvalue, List.append_nil]
    | succ n =>
      rw [List.take_succ_cons, uintLoop, if_neg (Nat.succ_ne_zero n)]
      by_cases hc : isDigit c = true
      · rw [if_neg (not_not.mpr hc)]
        dsimp only
        by_cases hmax : digits.length = intMax
        · refine .inl ⟨⟨?_, ?_⟩, if_pos hmax⟩
          · rw [takeWhile_digits_append hdigits, List.takeWhile_cons_of_pos hc,
              List.length_append, List.length_cons]
            omega
          · rw [← hmax, List.take_left, ← hvalue]
            exact valueUint64.toNat_lt
        · have hexceeds := exceeds_iff hdigits hvalue hc
          have hassoc : digits ++ c :: str.take n = (digits ++ [c]) ++ str.take n :=
            (List.append_assoc digits [c] _).symm
          rw [if_neg hmax, hassoc, List.forall_mem_cons]
          by_cases hover : 20 ≤ digits.length + 1
              ∧ (maxUint64 - (c - 0x30).toUInt64) / 10 < valueUint64
          · have hle := hexceeds.mp hover
            refine .inr ⟨fun hlong => ?_, .inr ⟨fun hfits => ?_, if_pos hover⟩⟩
            · have hfront : (digits ++ [c] ++ str.take n).take intMax
                  = digits ++ [c] ++ (str.take n).take (intMax - (digits ++ [c]).length) := by
                rw [List.take_append, List.take_of_length_le]
                rw [List.length_append, List.length_singleton]
                omega
              have hlt := hlong.2
              rw [hfront] at hlt
              exact absurd (hle.trans (Digits.value_le_append (by decide) _ _))
                (Nat.not_le.mpr hlt)
            · exact absurd (hle.trans (Digits.value_le_append (by decide) _ _))
                (Nat.not_le.mpr hfits.2)
          · rw [if_neg hover]
            have hdigits' : ∀ d ∈ digits ++ [c], isDigit d = true :=
              List.forall_mem_append.mpr ⟨hdigits, List.forall_mem_singleton.mpr hc⟩
            have hlength' : (digits ++ [c]).length ≤ intMax := by
              rw [List.length_append, List.length_singleton]
              omega
            have hvalue' : (valueUint64 * 10 + (c - 0x30).toUInt64).toNat
                = Digits.value 10 (digits ++ [c]) := by
              rw [hexceeds] at hover
              rw [Digits.value_concat, ← hvalue] at hover ⊢
              rw [UInt64.toNat_add, UInt64.toNat_mul, (toNat_digit hc).1]
              change (valueUint64.toNat * 10 % 2 ^ 64 + Digits.digit c) % 2 ^ 64 = _
              omega
            have hrest := ih (n := n) hdigits' hlength' hvalue' (by
              apply not_tooLong
              rw [takeWhile_digits_append hdigits', List.takeWhile_nil, List.append_nil]
              exact hlength')
            rw [List.length_append, List.length_singleton] at hrest
            simpa only [hc, true_and, Nat.add_sub_cancel] using hrest
      · rw [if_pos hc]
        refine .inr ⟨?_, .inr ⟨fun hfits => hc (hfits.1 c List.mem_cons_self), rfl⟩⟩
        apply not_tooLong
        rw [takeWhile_digits_append hdigits, List.takeWhile_cons_of_neg hc, List.append_nil]
        exact hlength

/-- Reading a text of which the first `n` characters are all there is to read. -/
theorem uintLoop_start (str : Bytes) (n : ℕ) :
  (TooLong (str.take n) ∧ uintLoop str n 0 0 = none) ∨
  ¬ TooLong (str.take n) ∧
    ((∃ v : UInt64, (∀ c ∈ str.take n, isDigit c = true) ∧
        v.toNat = Digits.value 10 (str.take n) ∧ uintLoop str n 0 0 = some (some v)) ∨
      ¬ ((∀ c ∈ str.take n, isDigit c = true) ∧ Digits.value 10 (str.take n) < 2 ^ 64) ∧
        uintLoop str n 0 0 = some none)
  := by
  have hdigits : ∀ c ∈ ([] : Bytes), isDigit c = true := nofun
  simpa using uintLoop_spec str (n := n) hdigits (Nat.zero_le _) rfl

theorem isUintNRange_spec (str : Bytes) (n : ℕ) (hasBuffer : Bool) (min max : UInt64) :
  (TooLong (str.take n) ∧ isUintNRange str n hasBuffer 8 min max = none) ∨
  ¬ TooLong (str.take n) ∧
    ((∃ v, NumberIn (str.take n) min max v ∧
        isUintNRange str n hasBuffer 8 min max
          = some (.succeed (if hasBuffer then some v else none))) ∨
      (¬ ∃ v, NumberIn (str.take n) min max v) ∧
        isUintNRange str n hasBuffer 8 min max = some .fail)
  := by
  by_cases hempty : str.take n = []
  · have hnot : ¬ ∃ v, NumberIn (str.take n) min max v := fun ⟨v, hv⟩ => hv.nonempty hempty
    refine .inr ⟨?_, .inr ⟨hnot, if_pos ?_⟩⟩
    · rw [hempty]
      exact not_tooLong (Nat.zero_le _)
    · obtain hzero | hnil := List.take_eq_nil_iff.mp hempty
      · exact .inr (.inl hzero)
      · exact .inl hnil
  · have hguard : ¬ (str = [] ∨ n = 0 ∨ 8 < 8 ∨ 8 = 0 ∧ hasBuffer = true) := by
      rintro (rfl | rfl | hlt | ⟨hzero, -⟩)
      · exact hempty List.take_nil
      · exact hempty List.take_zero
      · exact absurd hlt (by decide)
      · exact absurd hzero (by decide)
    rw [isUintNRange, if_neg hguard]
    obtain ⟨hlong, hloop⟩ | ⟨hshort, ⟨v, hdigits, hvalue, hloop⟩ | ⟨hfits, hloop⟩⟩ :=
      uintLoop_start str n
    · rw [hloop]
      exact .inl ⟨hlong, rfl⟩
    · have hmod : v.toNat % 2 ^ (8 * 8) = v.toNat := Nat.mod_eq_of_lt v.toNat_lt
      refine .inr ⟨hshort, ?_⟩
      rw [hloop, Option.map_some]
      dsimp only
      by_cases hrange : min > v ∨ v > max
      · refine .inr ⟨?_, by rw [if_pos hrange]⟩
        rintro ⟨w, hw⟩
        rw [gt_iff_lt, gt_iff_lt, UInt64.lt_iff_toNat_lt, UInt64.lt_iff_toNat_lt, hvalue,
          hw.value] at hrange
        exact absurd hrange (not_or.mpr ⟨Nat.not_lt.mpr hw.min_le, Nat.not_lt.mpr hw.le_max⟩)
      · rw [if_neg hrange, hmod]
        rw [gt_iff_lt, gt_iff_lt, UInt64.lt_iff_toNat_lt, UInt64.lt_iff_toNat_lt, not_or,
          Nat.not_lt, Nat.not_lt] at hrange
        exact .inl ⟨v.toNat, ⟨hempty, hdigits, hvalue.symm, hrange.1, hrange.2⟩, rfl⟩
    · rw [hloop]
      refine .inr ⟨hshort, .inr ⟨?_, rfl⟩⟩
      rintro ⟨w, hw⟩
      refine hfits ⟨hw.digits, ?_⟩
      rw [hw.value]
      exact hw.le_max.trans_lt max.toNat_lt

theorem rangeExact_iff (str : Bytes) (n : ℕ) (min max : UInt64) :
  RangeExact str n min max ↔ ¬ TooLong (str.take n)
  := by
  constructor
  · intro hexact hlong
    obtain ⟨-, hnone⟩ | ⟨hshort, -⟩ := isUintNRange_spec str n true min max
    · obtain ⟨v, -, hresult⟩ | ⟨-, hresult⟩ := hexact true
      · rw [hnone] at hresult
        cases hresult
      · rw [hnone] at hresult
        cases hresult
    · exact hshort hlong
  · intro hshort hasBuffer
    obtain ⟨hlong, -⟩ | ⟨-, hresult⟩ := isUintNRange_spec str n hasBuffer min max
    · exact absurd hlong hshort
    · exact hresult

/-! ### Numbers with a suffix -/

/-- What a suffix multiplies a number with. -/
def factor (c : UInt8) : ℕ :=
  if c = 'K'.toUInt8 then 2 ^ 10
  else if c = 'M'.toUInt8 then 2 ^ 20
  else if c = 'G'.toUInt8 then 2 ^ 30
  else if c = 'T'.toUInt8 then 2 ^ 40
  else if c = 's'.toUInt8 then 1
  else if c = 'm'.toUInt8 then 60
  else if c = 'h'.toUInt8 then 60 * 60
  else if c = 'd'.toUInt8 then 24 * 60 * 60
  else if c = 'w'.toUInt8 then 7 * 24 * 60 * 60
  else 1

/-- The number that decimal digits and an allowed suffix, or no suffix, stand for. -/
inductive Reads (suffixes : Bytes) : Bytes → ℕ → Prop
  | plain {digits : Bytes} (hne : digits ≠ []) (hdigits : ∀ c ∈ digits, isDigit c = true) :
    Reads suffixes digits (Digits.value 10 digits)
  | suffix {digits : Bytes} {c : UInt8} (hne : digits ≠ [])
    (hdigits : ∀ c ∈ digits, isDigit c = true) (hc : c ∈ suffixes) :
    Reads suffixes (digits ++ [c]) (Digits.value 10 digits * factor c)

/-- `str2uint64` succeeds exactly for the numbers of 64 bits, and then stores the number. -/
def SuffixExact (before : UInt8) (str suffixes : Bytes) : Prop :=
  (∃ v, Reads suffixes str v ∧ v < 2 ^ 64 ∧
    str2uint64 before str suffixes = some (.succeed (some v))) ∨
  (¬ ∃ v, Reads suffixes str v ∧ v < 2 ^ 64) ∧ str2uint64 before str suffixes = some .fail

/-- The digits are a number of 64 bits, but the number is not when it is multiplied. -/
def Wraps (suffixes str : Bytes) : Prop :=
  ∃ digits c, str = digits ++ [c] ∧ c ∈ suffixes ∧ digits ≠ [] ∧
    (∀ d ∈ digits, isDigit d = true) ∧ Digits.value 10 digits < 2 ^ 64 ∧
    2 ^ 64 ≤ Digits.value 10 digits * factor c

theorem toNat_suffixFactor (c : UInt8) :
  (suffixFactor c).toNat = factor c
  := by
  unfold suffixFactor factor
  simp only [apply_ite UInt64.toNat]
  rfl

theorem not_digit_of_alpha {c : UInt8} (h : isAlpha c = true) :
  isDigit c = false
  := by
  have hall : ∀ n < 256, isAlpha (UInt8.ofNat n) = true → isDigit (UInt8.ofNat n) = false := by
    decide +kernel
  rw [← c.ofNat_toNat] at h ⊢
  exact hall _ c.toNat_lt h

/-- A letter behind a text does not make it longer in digits. -/
theorem tooLong_concat {c : UInt8} (hc : isDigit c = false) (text : Bytes) :
  TooLong (text ++ [c]) ↔ TooLong text
  := by
  have hdigits : (text ++ [c]).takeWhile isDigit = text.takeWhile isDigit := by
    rw [List.takeWhile_append]
    split_ifs
    · rw [List.takeWhile_cons_of_neg (by simp [hc]), List.append_nil]
      exact (List.takeWhile_prefix _).eq_of_length ‹_› |>.symm
    · rfl
  unfold TooLong
  rw [hdigits]
  refine and_congr_right fun hlt => ?_
  have hle := hlt.le.trans (List.takeWhile_prefix isDigit).length_le
  rw [List.take_append_of_le_length hle]

/-- A text that ends in a letter is read with this letter as its suffix. -/
theorem reads_concat_iff {suffixes digits : Bytes} {c : UInt8} (hc : isDigit c = false) {v : ℕ} :
  Reads suffixes (digits ++ [c]) v ↔
    digits ≠ [] ∧ (∀ d ∈ digits, isDigit d = true) ∧ c ∈ suffixes ∧
      v = Digits.value 10 digits * factor c
  := by
  constructor
  · intro h
    generalize htext : digits ++ [c] = text at h
    cases h with
    | plain hne hdigits =>
      have hdigit := hdigits c (htext ▸ List.mem_append_right _ (List.mem_singleton_self c))
      rw [hc] at hdigit
      cases hdigit
    | suffix hne hdigits hmem =>
      obtain ⟨rfl, hlast⟩ := List.append_inj' htext rfl
      obtain rfl := List.singleton_inj.mp hlast
      exact ⟨hne, hdigits, hmem, rfl⟩
  · rintro ⟨hne, hdigits, hmem, rfl⟩
    exact .suffix hne hdigits hmem

/-- A text that does not end in an allowed suffix is read without one. -/
theorem reads_plain_iff {suffixes str : Bytes} (hlast : ∀ c ∈ str.getLast?, c ∉ suffixes) {v : ℕ} :
  Reads suffixes str v ↔
    str ≠ [] ∧ (∀ d ∈ str, isDigit d = true) ∧ v = Digits.value 10 str
  := by
  constructor
  · intro h
    cases h with
    | plain hne hdigits => exact ⟨hne, hdigits, rfl⟩
    | suffix hne hdigits hmem => exact absurd hmem (hlast _ List.getLast?_concat)
  · rintro ⟨hne, hdigits, rfl⟩
    exact .plain hne hdigits

theorem isUint64N_spec (digits str : Bytes) {sz : ℕ} (hsz : str.take sz = digits) :
  (TooLong digits ∧ isUint64N str sz = none) ∨
  ¬ TooLong digits ∧
    ((digits ≠ [] ∧ (∀ d ∈ digits, isDigit d = true) ∧ Digits.value 10 digits < 2 ^ 64 ∧
        isUint64N str sz = some (.succeed (some (Digits.value 10 digits)))) ∨
      ¬ (digits ≠ [] ∧ (∀ d ∈ digits, isDigit d = true) ∧ Digits.value 10 digits < 2 ^ 64) ∧
        isUint64N str sz = some .fail)
  := by
  have hspec := isUintNRange_spec str sz true 0 maxUint64
  rw [hsz] at hspec
  obtain hlong | ⟨hshort, ⟨v, hv, hresult⟩ | ⟨hnot, hresult⟩⟩ := hspec
  · exact .inl hlong
  · refine .inr ⟨hshort, .inl ⟨hv.nonempty, hv.digits, ?_, ?_⟩⟩
    · rw [hv.value]
      exact hv.le_max.trans_lt maxUint64.toNat_lt
    · rw [hv.value]
      exact hresult
  · refine .inr ⟨hshort, .inr ⟨?_, hresult⟩⟩
    rintro ⟨hne, hdigits, hlt⟩
    exact hnot ⟨_, hne, hdigits, rfl, Nat.zero_le _, Nat.le_sub_one_of_lt hlt⟩

theorem factor_pos (c : UInt8) :
  0 < factor c
  := by
  unfold factor
  repeat' split
  all_goals decide

theorem suffixExact_nil (before : UInt8) (suffixes : Bytes) :
  SuffixExact before [] suffixes
  := by
  refine .inr ⟨?_, ?_⟩
  · rintro ⟨v, hreads, -⟩
    generalize htext : ([] : Bytes) = text at hreads
    cases hreads with
    | plain hne hdigits => exact hne htext.symm
    | suffix hne hdigits hmem => exact List.append_ne_nil_of_right_ne_nil _ (by simp) htext.symm
  · have hfail : ∀ sz, isUint64N [] sz = some .fail := by
      intro sz
      rw [isUint64N, isUintNRange, if_pos (Or.inl rfl)]
    rw [str2uint64, hfail]
    rfl

theorem wraps_concat_iff {suffixes init : Bytes} {c : UInt8} :
  Wraps suffixes (init ++ [c]) ↔
    c ∈ suffixes ∧ init ≠ [] ∧ (∀ d ∈ init, isDigit d = true) ∧
      Digits.value 10 init < 2 ^ 64 ∧ 2 ^ 64 ≤ Digits.value 10 init * factor c
  := by
  constructor
  · rintro ⟨digits, c', heq, hc, hrest⟩
    obtain ⟨rfl, hlast⟩ := List.append_inj' heq rfl
    obtain rfl := List.singleton_inj.mp hlast
    exact ⟨hc, hrest⟩
  · rintro ⟨hc, hrest⟩
    exact ⟨init, c, rfl, hc, hrest⟩

/-- A text that ends in an allowed suffix. -/
theorem suffixExact_suffix {before : UInt8} {init suffixes : Bytes} {c : UInt8}
    (hletter : isDigit c = false) (hc : c ∈ suffixes) :
  SuffixExact before (init ++ [c]) suffixes ↔
    ¬ TooLong (init ++ [c]) ∧ ¬ Wraps suffixes (init ++ [c])
  := by
  have hlength : (init ++ [c]).length - 1 = init.length := by simp
  have hstr2uint64 : str2uint64 before (init ++ [c]) suffixes =
      (isUint64N (init ++ [c]) init.length).map fun
        | .succeed (some value) => .succeed (some (value * factor c % 2 ^ 64))
        | result => result := by
    have hzero : (init ++ [c]).length ≠ 0 := by simp
    unfold str2uint64
    rw [List.getLast?_concat]
    dsimp only [Option.getD_some]
    rw [if_pos (.inl hc), if_pos (.inl hc), if_neg hzero, hlength, toNat_suffixFactor]
  unfold SuffixExact
  rw [tooLong_concat hletter, wraps_concat_iff, hstr2uint64]
  simp only [reads_concat_iff hletter]
  obtain ⟨hlong, hresult⟩ | ⟨hshort, ⟨hne, hdigits, hlt, hresult⟩ | ⟨hnot, hresult⟩⟩ :=
    isUint64N_spec init (init ++ [c]) List.take_left
  · rw [hresult]
    refine iff_of_false ?_ fun h => h.1 hlong
    rintro (⟨v, -, -, hsome⟩ | ⟨-, hsome⟩) <;> cases hsome
  · rw [hresult, Option.map_some]
    dsimp only
    by_cases hfits : Digits.value 10 init * factor c < 2 ^ 64
    · rw [Nat.mod_eq_of_lt hfits]
      refine iff_of_true (.inl ⟨_, ⟨hne, hdigits, hc, rfl⟩, hfits, rfl⟩) ⟨hshort, ?_⟩
      exact fun hwrap => absurd hfits (Nat.not_lt.mpr hwrap.2.2.2.2)
    · refine iff_of_false ?_ fun h => h.2 ⟨hc, hne, hdigits, hlt, Nat.le_of_not_lt hfits⟩
      rintro (⟨v, ⟨-, -, -, rfl⟩, hv, -⟩ | ⟨-, hsome⟩)
      · exact hfits hv
      · cases hsome
  · rw [hresult]
    refine iff_of_true (.inr ⟨?_, rfl⟩) ⟨hshort, fun hwrap => ?_⟩
    · rintro ⟨v, ⟨hne, hdigits, -, rfl⟩, hv⟩
      have hle := Nat.le_mul_of_pos_right (Digits.value 10 init) (factor_pos c)
      exact hnot ⟨hne, hdigits, hle.trans_lt hv⟩
    · exact hnot ⟨hwrap.2.1, hwrap.2.2.1, hwrap.2.2.2.1⟩

/-- A text that ends in something else. -/
theorem suffixExact_plain {before : UInt8} {str suffixes : Bytes} {c : UInt8}
    (hlast : str.getLast? = some c) (hc : c ∉ suffixes) (hzero : c ≠ 0) :
  SuffixExact before str suffixes ↔ ¬ TooLong str ∧ ¬ Wraps suffixes str
  := by
  have hplain : ∀ d ∈ str.getLast?, d ∉ suffixes := by
    intro d hd
    rw [hlast] at hd
    obtain rfl := Option.some.inj hd
    exact hc
  have hfound : ¬ (c ∈ suffixes ∨ c = 0) := not_or.mpr ⟨hc, hzero⟩
  have hstr2uint64 : str2uint64 before str suffixes =
      (isUint64N str str.length).map fun
        | .succeed (some value) => .succeed (some (value % 2 ^ 64))
        | result => result := by
    unfold str2uint64
    rw [hlast]
    dsimp only [Option.getD_some]
    rw [if_neg hfound, if_neg hfound]
    simp only [UInt64.toNat_one, Nat.mul_one]
  have hwraps : ¬ Wraps suffixes str := by
    rintro ⟨digits, d, rfl, hd, -⟩
    exact hplain d List.getLast?_concat hd
  unfold SuffixExact
  rw [hstr2uint64, and_iff_left hwraps]
  simp only [reads_plain_iff hplain]
  obtain ⟨hlong, hresult⟩ | ⟨hshort, ⟨hne, hdigits, hlt, hresult⟩ | ⟨hnot, hresult⟩⟩ :=
    isUint64N_spec str str List.take_length
  · rw [hresult]
    refine iff_of_false ?_ (not_not.mpr hlong)
    rintro (⟨v, -, -, hsome⟩ | ⟨-, hsome⟩) <;> cases hsome
  · rw [hresult, Option.map_some]
    dsimp only
    rw [Nat.mod_eq_of_lt hlt]
    exact iff_of_true (.inl ⟨_, ⟨hne, hdigits, rfl⟩, hlt, rfl⟩) hshort
  · rw [hresult]
    refine iff_of_true (.inr ⟨?_, rfl⟩) hshort
    rintro ⟨v, ⟨hne, hdigits, rfl⟩, hv⟩
    exact hnot ⟨hne, hdigits, hv⟩

/-- `is_uint_n_range` is exact for all strings, and `str2uint64` for those whose number fits into
64 bits when it is multiplied, as long as an `int` can count the digits. The suffixes are
letters, and there is no zero byte in a string. -/
theorem parses_exactly_iff (str : Bytes) (n : ℕ) (min max : UInt64) (before : UInt8)
    (str' suffixes : Bytes) (hsuffixes : ∀ c ∈ suffixes, isAlpha c = true) (hstr : 0 ∉ str') :
  (RangeExact str n min max ↔ ¬ TooLong (str.take n)) ∧
    (SuffixExact before str' suffixes ↔ ¬ TooLong str' ∧ ¬ Wraps suffixes str')
  := by
  refine ⟨rangeExact_iff str n min max, ?_⟩
  obtain rfl | ⟨init, c, rfl⟩ := List.eq_nil_or_concat' str'
  · refine iff_of_true (suffixExact_nil before suffixes) ⟨not_tooLong (Nat.zero_le _), ?_⟩
    rintro ⟨digits, c, heq, -⟩
    exact List.append_ne_nil_of_right_ne_nil _ (by simp) heq.symm
  · by_cases hc : c ∈ suffixes
    · exact suffixExact_suffix (not_digit_of_alpha (hsuffixes c hc)) hc
    · refine suffixExact_plain List.getLast?_concat hc ?_
      rintro rfl
      exact hstr (List.mem_append_right _ (List.mem_singleton_self 0))

/-- The suffixes `KMGTsmhdw`, and a number of twenty digits. -/
theorem parses_exactly_iff_weeks :
  RangeExact (bytes "18446744073709551615".toList) 21 0 maxUint64 ∧
    SuffixExact 0 (bytes "30w".toList) (bytes "KMGTsmhdw".toList)
  := by
  have hexact := parses_exactly_iff (bytes "18446744073709551615".toList) 21 0 maxUint64 0
    (bytes "30w".toList) (bytes "KMGTsmhdw".toList)
    (List.forall_iff_forall_mem.mp (by decide)) (by decide)
  refine ⟨hexact.1.mpr (not_tooLong (by decide)), hexact.2.mpr ⟨not_tooLong (by decide), ?_⟩⟩
  change ¬ Wraps _ (bytes "30".toList ++ ['w'.toUInt8])
  rw [wraps_concat_iff]
  rintro ⟨-, -, -, -, hle⟩
  exact absurd hle (by decide)

/-- The number 2^24 times 2^40 is zero in 64 bits. -/
theorem str2uint64_wraps :
  str2uint64 0 (bytes "16777216T".toList) (bytes "KMGT".toList) = some (.succeed (some 0)) ∧
    ¬ SuffixExact 0 (bytes "16777216T".toList) (bytes "KMGT".toList)
  := by
  refine ⟨by decide, fun hexact => ?_⟩
  have hsplit : bytes "16777216T".toList = bytes "16777216".toList ++ ['T'.toUInt8] := by decide
  rw [hsplit, suffixExact_suffix (by decide) (by decide), wraps_concat_iff] at hexact
  exact hexact.2 ⟨by decide, by decide, List.forall_iff_forall_mem.mp (by decide), by decide,
    by decide⟩

end Unsigned
