import Mathlib.NumberTheory.Bertrand

/-!
# Prime numbers of slots

`is_prime` and `next_prime` of the algorithm library, by trial division. The loop of
`next_prime` ends because there is a prime between a number and its double.
-/

/-- The loop of `is_prime` over the odd numbers from `i` on, for at most `rounds`
rounds. -/
def noOddDivisor (n : ℕ) : ℕ → ℕ → Bool
  | 0, _ => true
  | rounds + 1, i =>
    if i * i ≤ n then
      if n % i = 0 then false else noOddDivisor n rounds (i + 2)
    else true

def isPrime (n : ℕ) : Bool :=
  if n ≤ 1 then false
  else if n = 2 then true
  else if n % 2 = 0 then false
  else noOddDivisor n n 3

/-- The loop of `next_prime`, for at most `rounds` rounds. -/
def nextPrimeFrom : ℕ → ℕ → ℕ
  | 0, n => n
  | rounds + 1, n => if isPrime n then n else nextPrimeFrom rounds (n + 1)

def nextPrime (n : ℕ) : ℕ := nextPrimeFrom (n + 2) n

theorem noOddDivisor_iff {n rounds i : ℕ} (hodd : i % 2 = 1)
    (hrounds : n < i + 2 * rounds) :
  noOddDivisor n rounds i = true ↔
    ∀ j, i ≤ j → j % 2 = 1 → j * j ≤ n → ¬ j ∣ n
  := by
  induction rounds generalizing i with
  | zero =>
    simp only [noOddDivisor, true_iff]
    intro j hij _ hsq _
    have hj : j ≤ j * j := Nat.le_mul_self j
    omega
  | succ rounds ih =>
    unfold noOddDivisor
    by_cases hsq : i * i ≤ n
    · rw [if_pos hsq]
      by_cases hdvd : n % i = 0
      · simp only [hdvd, if_true, Bool.false_eq_true, false_iff, not_forall]
        exact ⟨i, le_refl i, hodd, hsq, not_not.mpr (Nat.dvd_of_mod_eq_zero hdvd)⟩
      · rw [if_neg hdvd, ih (by omega) (by omega)]
        constructor
        · intro h j hij hj hjsq
          by_cases heq : j = i
          · rw [heq]
            exact fun hd => hdvd (Nat.mod_eq_zero_of_dvd hd)
          · exact h j (by omega) hj hjsq
        · intro h j hij
          exact h j (by omega)
    · simp only [hsq, if_false, true_iff]
      intro j hij _ hjsq _
      exact hsq (le_trans (Nat.mul_le_mul hij hij) hjsq)

/-- Trial division is right. -/
theorem isPrime_iff (n : ℕ) :
  isPrime n = true ↔ n.Prime
  := by
  unfold isPrime
  by_cases h1 : n ≤ 1
  · simp only [h1, if_true, Bool.false_eq_true, false_iff]
    intro hp
    exact absurd hp.two_le (by omega)
  by_cases h2 : n = 2
  · simp [h2, Nat.prime_two]
  by_cases heven : n % 2 = 0
  · simp only [h1, h2, heven, if_false, if_true, Bool.false_eq_true, false_iff]
    intro hp
    exact h2 ((Nat.prime_dvd_prime_iff_eq Nat.prime_two hp).mp
      (Nat.dvd_of_mod_eq_zero heven)).symm
  simp only [h1, h2, heven, if_false]
  rw [noOddDivisor_iff (by decide) (by omega), Nat.prime_def_le_sqrt]
  constructor
  · intro h
    refine ⟨by omega, fun m hm hsqrt hd => ?_⟩
    have hmodd : m % 2 = 1 := by
      by_contra hm2
      have htwo : 2 ∣ n := dvd_trans (Nat.dvd_of_mod_eq_zero (by omega)) hd
      exact heven (Nat.mod_eq_zero_of_dvd htwo)
    exact h m (by omega) hmodd (Nat.le_sqrt.mp hsqrt) hd
  · rintro ⟨_, h⟩ j hj _ hsq
    exact h j (by omega) (Nat.le_sqrt.mpr hsq)

theorem le_nextPrimeFrom (rounds n : ℕ) :
  n ≤ nextPrimeFrom rounds n
  := by
  induction rounds generalizing n with
  | zero => exact le_refl n
  | succ rounds ih =>
    unfold nextPrimeFrom
    split
    · exact le_refl n
    · exact le_trans (Nat.le_succ n) (ih (n + 1))

theorem isPrime_nextPrimeFrom {rounds n p : ℕ} (hp : p.Prime) (hle : n ≤ p)
    (hrounds : p ≤ n + rounds) :
  isPrime (nextPrimeFrom rounds n) = true
  := by
  induction rounds generalizing n with
  | zero =>
    obtain rfl : n = p := by omega
    exact (isPrime_iff n).mpr hp
  | succ rounds ih =>
    unfold nextPrimeFrom
    by_cases hn : isPrime n = true
    · rwa [if_pos hn]
    · rw [if_neg hn]
      have hne : n ≠ p := by
        rintro rfl
        exact hn ((isPrime_iff n).mpr hp)
      exact ih (by omega) (by omega)

theorem le_nextPrime (n : ℕ) :
  n ≤ nextPrime n
  := le_nextPrimeFrom (n + 2) n

/-- The loop of `next_prime` reaches a prime. -/
theorem nextPrime_prime (n : ℕ) :
  (nextPrime n).Prime
  := by
  rw [← isPrime_iff]
  by_cases hn : n = 0
  · subst hn
    decide
  · obtain ⟨p, hp, hlt, hle⟩ := Nat.exists_prime_lt_and_le_two_mul n hn
    exact isPrime_nextPrimeFrom hp (by omega) (by omega)

theorem nextPrime_pos (n : ℕ) :
  0 < nextPrime n
  := (nextPrime_prime n).pos
