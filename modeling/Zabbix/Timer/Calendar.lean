import Mathlib.Tactic.Ring

/-!
# The calendar

Days are numbered from 1970-01-01 on.  The date of a day is found in the four centuries that
belong to it, which have the same number of days everywhere.
-/

namespace Timer

def isLeapYear (year : ℤ) : Bool := year % 4 = 0 ∧ year % 100 ≠ 0 ∨ year % 400 = 0

def yearLength (year : ℤ) : ℤ := if isLeapYear year then 366 else 365

def monthLengths (leap : Bool) : List ℤ :=
  [31, if leap then 29 else 28, 31, 30, 31, 30, 31, 31, 30, 31, 30, 31]

/-- A date; months are numbered from 0 on, days from 1 on. -/
structure Date where
  year : ℤ
  mon : ℕ
  mday : ℤ
deriving DecidableEq

/-- The year of a day, and the days of the year before it. -/
def splitYear : ℕ → (year days : ℤ) → ℤ × ℤ
  | 0, year, days => (year, days)
  | fuel + 1, year, days =>
    if days < yearLength year then (year, days)
    else splitYear fuel (year + 1) (days - yearLength year)

/-- The month of a day, and the days of the month before it. -/
def splitMonth : List ℤ → (mon : ℕ) → (days : ℤ) → ℕ × ℤ
  | [], mon, days => (mon, days)
  | length :: lengths, mon, days =>
    if days < length then (mon, days) else splitMonth lengths (mon + 1) (days - length)

/-- The date of a day. Day 10957 is 2000-01-01, and four centuries have 146097 days. -/
def dateOf (day : ℤ) : Date :=
  let (year, days) :=
    splitYear 400 (2000 + 400 * ((day - 10957) / 146097)) ((day - 10957) % 146097)
  let (mon, days) := splitMonth (monthLengths (isLeapYear year)) 0 days
  ⟨year, mon, days + 1⟩

/-! ### Dates -/

/-- The days from 1970-01-01 to the start of a year. -/
def daysBeforeYear (year : ℤ) : ℤ :=
  365 * (year - 1970) + ((year - 1) / 4 - (year - 1) / 100 + (year - 1) / 400) - 477

theorem daysBeforeYear_succ (year : ℤ) :
  daysBeforeYear (year + 1) = daysBeforeYear year + yearLength year
  := by
  unfold daysBeforeYear yearLength isLeapYear
  split
  · rename_i hleap
    simp only [decide_eq_true_eq] at hleap
    omega
  · rename_i hleap
    simp only [decide_eq_true_eq] at hleap
    omega

theorem splitMonth_days (lengths : List ℤ) (mon : ℕ) (days : ℤ) :
  mon ≤ (splitMonth lengths mon days).1 ∧
    (lengths.take ((splitMonth lengths mon days).1 - mon)).sum +
      (splitMonth lengths mon days).2 = days
  := by
  induction lengths generalizing mon days with
  | nil => simp [splitMonth]
  | cons length lengths ih =>
    rw [splitMonth]
    split
    · simp
    · obtain ⟨hle, hsum⟩ := ih (mon + 1) (days - length)
      refine ⟨by omega, ?_⟩
      obtain ⟨k, hk⟩ := Nat.exists_eq_add_of_le hle
      rw [hk] at hsum ⊢
      rw [Nat.add_sub_cancel_left] at hsum
      rw [show mon + 1 + k - mon = k + 1 by omega, List.take_succ_cons, List.sum_cons]
      omega

theorem splitYear_lt (fuel : ℕ) {year days : ℤ} (hpos : 0 ≤ days)
    (hlt : days < daysBeforeYear (year + fuel) - daysBeforeYear year) :
  0 ≤ (splitYear fuel year days).2 ∧
    (splitYear fuel year days).2 < yearLength (splitYear fuel year days).1
  := by
  induction fuel generalizing year days with
  | zero =>
    rw [Nat.cast_zero, add_zero] at hlt
    omega
  | succ fuel ih =>
    rw [splitYear]
    split
    · exact ⟨hpos, by assumption⟩
    · rename_i hlong
      apply ih (by omega)
      rw [daysBeforeYear_succ, show year + 1 + (fuel : ℤ) = year + ((fuel + 1 : ℕ) : ℤ) by
        push_cast
        ring]
      omega

theorem splitMonth_lt {lengths : List ℤ} (mon : ℕ) {days : ℤ} (hpos : 0 ≤ days)
    (hlt : days < lengths.sum) :
  0 ≤ (splitMonth lengths mon days).2 ∧
    ∃ length, lengths[(splitMonth lengths mon days).1 - mon]? = some length ∧
      (splitMonth lengths mon days).2 < length
  := by
  induction lengths generalizing mon days with
  | nil =>
    rw [List.sum_nil] at hlt
    omega
  | cons length lengths ih =>
    rw [splitMonth]
    split
    · rename_i hshort
      exact ⟨hpos, length, by simp, hshort⟩
    · rename_i hlong
      rw [List.sum_cons] at hlt
      obtain ⟨hpos', length', hget, hlt'⟩ := ih (mon + 1)
        (show 0 ≤ days - length by omega) (by omega)
      have hle := (splitMonth_days lengths (mon + 1) (days - length)).1
      refine ⟨hpos', length', ?_, hlt'⟩
      rw [← hget, show (splitMonth lengths (mon + 1) (days - length)).1 - mon =
        (splitMonth lengths (mon + 1) (days - length)).1 - (mon + 1) + 1 by omega,
        List.getElem?_cons_succ]

/-- The date of a day is a date of the calendar. -/
theorem valid_dateOf (day : ℤ) :
  1 ≤ (dateOf day).mday ∧
    ∃ length, (monthLengths (isLeapYear (dateOf day).year))[(dateOf day).mon]? = some length ∧
      (dateOf day).mday ≤ length
  := by
  have hlt : (day - 10957) % 146097 <
      daysBeforeYear (2000 + 400 * ((day - 10957) / 146097) + (400 : ℕ)) -
        daysBeforeYear (2000 + 400 * ((day - 10957) / 146097)) := by
    unfold daysBeforeYear
    omega
  have hyear := splitYear_lt 400 (Int.emod_nonneg (day - 10957) (by decide)) hlt
  unfold dateOf
  generalize splitYear 400 (2000 + 400 * ((day - 10957) / 146097))
    ((day - 10957) % 146097) = split at hyear ⊢
  obtain ⟨year, days⟩ := split
  have hsum : (monthLengths (isLeapYear year)).sum = yearLength year := by
    unfold monthLengths yearLength
    cases isLeapYear year <;> rfl
  dsimp only at hyear ⊢
  have hmonth := splitMonth_lt 0 hyear.1 (hsum ▸ hyear.2)
  generalize splitMonth (monthLengths (isLeapYear year)) 0 days = month at hmonth ⊢
  obtain ⟨mon, rest⟩ := month
  obtain ⟨hpos, length, hget, hlt⟩ := hmonth
  dsimp only at hpos hget hlt ⊢
  exact ⟨by omega, length, hget, by omega⟩

end Timer
