import Mathlib.Tactic.SplitIfs
import Zabbix.Library.Latest
import Zabbix.Timer.Calendar

/-!
# Maintenance periods

`process_maintenance` looks for the last start of a time period of a maintenance, and takes the
period for running when less time than its length has passed since then.  The starts of periodic
ones are looked for day by day, back to the time since which the maintenance is active.

The clock has a fixed offset to UTC.
-/

namespace Timer

open Latest

def secPerDay : ℤ := 86400

def secPerWeek : ℤ := 604800

/-! ### The clock -/

/-- `struct tm`, as far as it is used. -/
structure Tm where
  tmSec : ℤ
  tmMin : ℤ
  tmHour : ℤ
  tmMday : ℤ
  tmMon : ℕ
  tmYear : ℤ
  tmWday : ℤ

/-- The day of a time. -/
def dayOf (offset t : ℤ) : ℤ := (t + offset) / secPerDay

/-- `localtime` of a clock with an offset to UTC. -/
def localtime (offset t : ℤ) : Tm :=
  let sec := (t + offset) % secPerDay
  let date := dateOf (dayOf offset t)
  { tmSec := sec % 60
    tmMin := sec % 3600 / 60
    tmHour := sec / 3600
    tmMday := date.mday
    tmMon := date.mon
    tmYear := date.year - 1900
    tmWday := (dayOf offset t + 4) % 7 }

/-- The seconds of the day. -/
def Tm.sec (tm : Tm) : ℤ := tm.tmHour * 3600 + tm.tmMin * 60 + tm.tmSec

/-- The number of the day of the week, from Monday on. -/
def Tm.wday (tm : Tm) : ℤ := (if tm.tmWday = 0 then 7 else tm.tmWday) - 1

/-- `day_in_month`. -/
def dayInMonth (year : ℤ) (mon : ℕ) : ℤ := (monthLengths (isLeapYear year)).getD mon 0

/-! ### Time periods -/

inductive TimeperiodType where
  | onetime
  | daily
  | weekly
  | monthly
deriving DecidableEq

/-- A row of `timeperiods`; a start time is a time of the day. -/
structure Timeperiod where
  timeperiodType : TimeperiodType
  every : ℤ
  month : ℕ
  dayofweek : ℕ
  day : ℤ
  startTime : ℤ
  period : ℤ
  startDate : ℤ
  every_pos : 1 ≤ every
  startTime_nonneg : 0 ≤ startTime
  startTime_lt : startTime < secPerDay

/-- The last time of the day up to now. -/
def lastStart (offset now startTime : ℤ) : ℤ :=
  let sec := (localtime offset now).sec
  if sec < startTime then now - sec + startTime - secPerDay else now - sec + startTime

/-- The loops that step back by days while the maintenance is active. -/
def stepBack (accept : ℤ → Bool) (activeSince startDate : ℤ) : ℤ :=
  if activeSince ≤ startDate then
    if accept startDate then startDate
    else stepBack accept activeSince (startDate - secPerDay)
  else startDate
  termination_by (startDate + 1 - activeSince).toNat
  decreasing_by
    unfold secPerDay
    omega

/-- The checks of the loop for weekly periods. -/
def acceptWeekly (offset activeSince : ℤ) (tp : Timeperiod) (startDate : ℤ) : Bool :=
  let tm := localtime offset activeSince
  let week := (startDate - (activeSince - (tm.wday * secPerDay + tm.sec))) / secPerWeek
  week % tp.every = 0 ∧ tp.dayofweek.testBit (localtime offset startDate).wday.toNat

/-- The checks of the loop for monthly periods. -/
def acceptMonthly (offset : ℤ) (tp : Timeperiod) (startDate : ℤ) : Bool :=
  let tm := localtime offset startDate
  if ¬ tp.month.testBit tm.tmMon then false
  else if tp.day ≠ 0 then tp.day = tm.tmMday
  else if ¬ tp.dayofweek.testBit tm.wday.toNat then false
  else
    let day := (tm.tmMday - 1) / 7 + 1
    if tp.every = 5 ∧ day = 4 then dayInMonth tm.tmYear tm.tmMon < tm.tmMday + 7
    else tp.every = day

/-- The start of the period that `process_maintenance` finds, if it does not go on with the next
row before. -/
def startDate (offset now activeSince : ℤ) (tp : Timeperiod) : Option ℤ :=
  let last := lastStart offset now tp.startTime
  match tp.timeperiodType with
  | .onetime => some tp.startDate
  | .daily =>
    if last < activeSince then none
    else
      let day := (last - (activeSince - (localtime offset activeSince).sec)) / secPerDay
      some (last - secPerDay * (day % tp.every))
  | .weekly =>
    if last < activeSince then none
    else some (stepBack (acceptWeekly offset activeSince tp) activeSince last)
  | .monthly => some (stepBack (acceptMonthly offset tp) activeSince last)

/-- The time from which a period is in force for `process_maintenance`. -/
def maintenanceFrom (offset now activeSince : ℤ) (tp : Timeperiod) : Option ℤ :=
  (startDate offset now activeSince tp).bind fun startDate =>
    if startDate < activeSince ∧ tp.timeperiodType ≠ .onetime then none
    else if now < startDate ∨ startDate + tp.period ≤ now then none
    else if startDate < activeSince then some activeSince
    else some startDate

/-! ### Occurrences -/

/-- The day of the week of a day, from Monday on. -/
def weekday (day : ℤ) : ℤ := (day + 3) % 7

/-- The number of the week of a day. -/
def weekOf (day : ℤ) : ℤ := (day + 3) / 7

/-- The days of a periodic time period, counted from the day `since`. -/
def OccursOn (since : ℤ) (tp : Timeperiod) (day : ℤ) : Prop :=
  match tp.timeperiodType with
  | .onetime => False
  | .daily => (day - since) % tp.every = 0
  | .weekly =>
    (weekOf day - weekOf since) % tp.every = 0 ∧ tp.dayofweek.testBit (weekday day).toNat
  | .monthly =>
    tp.month.testBit (dateOf day).mon ∧
      if tp.day ≠ 0 then (dateOf day).mday = tp.day
      else
        tp.dayofweek.testBit (weekday day).toNat ∧
          if tp.every = 5 then
            dayInMonth (dateOf day).year (dateOf day).mon - 7 < (dateOf day).mday
          else ((dateOf day).mday - 1) / 7 + 1 = tp.every

/-- The time on a day at which a period starts. -/
def startOn (offset : ℤ) (tp : Timeperiod) (day : ℤ) : ℤ :=
  day * secPerDay - offset + tp.startTime

/-- The times at which a period starts; a periodic one starts while the maintenance is active. -/
def Occurs (offset activeSince : ℤ) (tp : Timeperiod) (s : ℤ) : Prop :=
  if tp.timeperiodType = .onetime then s = tp.startDate
  else
    activeSince ≤ s ∧
      ∃ day, OccursOn (dayOf offset activeSince) tp day ∧ s = startOn offset tp day

/-- A period is in force. -/
def InForce (offset now activeSince : ℤ) (tp : Timeperiod) : Prop :=
  ∃ s, Occurs offset activeSince tp s ∧ s ≤ now ∧ now < s + tp.period

/-- The last start of a period that is in force. -/
def CurrentStart (offset now activeSince : ℤ) (tp : Timeperiod) (s : ℤ) : Prop :=
  Occurs offset activeSince tp s ∧ s ≤ now ∧ now < s + tp.period ∧
    ∀ s', Occurs offset activeSince tp s' → s' ≤ now → s' ≤ s

/-- A period counts when it is in force, and from its last start on, or from the time since which
the maintenance is active. -/
def PeriodMeets (offset now activeSince : ℤ) (tp : Timeperiod) : Prop :=
  ((maintenanceFrom offset now activeSince tp).isSome = true ↔
      InForce offset now activeSince tp) ∧
    ∀ t, maintenanceFrom offset now activeSince tp = some t →
      ∃ s, CurrentStart offset now activeSince tp s ∧ t = max s activeSince

/-! ### Days and times -/

variable {offset now activeSince : ℤ} {tp : Timeperiod}

theorem sec_localtime (offset t : ℤ) :
  (localtime offset t).sec = (t + offset) % secPerDay
  := by
  simp only [localtime, Tm.sec]
  omega

theorem wday_localtime (offset t : ℤ) :
  (localtime offset t).wday = weekday (dayOf offset t)
  := by
  simp only [localtime, Tm.wday, weekday]
  split_ifs <;> omega

theorem dayOf_startOn (offset : ℤ) (tp : Timeperiod) (day : ℤ) :
  dayOf offset (startOn offset tp day) = day
  := by
  have hnonneg := tp.startTime_nonneg
  have hlt := tp.startTime_lt
  unfold dayOf startOn secPerDay at *
  omega

/-- The last day on which the period can have started. -/
def lastDay (offset now : ℤ) (tp : Timeperiod) : ℤ :=
  if (now + offset) % secPerDay < tp.startTime then dayOf offset now - 1 else dayOf offset now

theorem lastStart_eq (offset now : ℤ) (tp : Timeperiod) :
  lastStart offset now tp.startTime = startOn offset tp (lastDay offset now tp)
  := by
  simp only [lastStart, sec_localtime, startOn, lastDay, dayOf, secPerDay]
  split_ifs <;> omega

theorem startOn_le_now_iff (offset now : ℤ) (tp : Timeperiod) (day : ℤ) :
  startOn offset tp day ≤ now ↔ day ≤ lastDay offset now tp
  := by
  have hnonneg := tp.startTime_nonneg
  have hlt := tp.startTime_lt
  simp only [startOn, lastDay, dayOf, secPerDay] at *
  split_ifs <;> omega

theorem startOn_le_iff (offset : ℤ) (tp : Timeperiod) (day day' : ℤ) :
  startOn offset tp day ≤ startOn offset tp day' ↔ day ≤ day'
  := by
  simp only [startOn, secPerDay]
  omega

theorem startOn_sub (offset : ℤ) (tp : Timeperiod) (day k : ℤ) :
  startOn offset tp day - secPerDay * k = startOn offset tp (day - k)
  := by
  simp only [startOn, secPerDay]
  omega

/-! ### The days that are found -/

/-- The days that the search accepts, counted from the time since which the maintenance is
active. -/
def FoundOn (offset activeSince : ℤ) (tp : Timeperiod) (day : ℤ) : Prop :=
  match tp.timeperiodType with
  | .onetime => False
  | .daily => (day - dayOf offset activeSince) % tp.every = 0
  | .weekly => acceptWeekly offset activeSince tp (startOn offset tp day) = true
  | .monthly => acceptMonthly offset tp (startOn offset tp day) = true

/-- The 22nd of February of a year that is taken for a leap year, or a common year, by the years
since 1900, with a period on the last of the days of a week. -/
def Misread (tp : Timeperiod) (day : ℤ) : Prop :=
  tp.timeperiodType = .monthly ∧ tp.day = 0 ∧ tp.every = 5 ∧ tp.month.testBit 1 = true ∧
    tp.dayofweek.testBit (weekday day).toNat = true ∧ (dateOf day).mon = 1 ∧
      (dateOf day).mday = 22 ∧ ((dateOf day).year % 400 = 0 ∨ (dateOf day).year % 400 = 300)

theorem acceptWeekly_iff (day : ℤ) :
  acceptWeekly offset activeSince tp (startOn offset tp day) = true ↔
    (weekOf day - weekOf (dayOf offset activeSince)) % tp.every = 0 ∧
      tp.dayofweek.testBit (weekday day).toNat = true
  := by
  have hnonneg := tp.startTime_nonneg
  have hlt := tp.startTime_lt
  have hweek : (startOn offset tp day - (activeSince -
      (weekday (dayOf offset activeSince) * secPerDay + (activeSince + offset) % secPerDay))) /
        secPerWeek = weekOf day - weekOf (dayOf offset activeSince) := by
    simp only [startOn, weekday, weekOf, dayOf, secPerDay, secPerWeek] at *
    omega
  unfold acceptWeekly
  simp only [wday_localtime, sec_localtime, dayOf_startOn, hweek, decide_eq_true_eq]

theorem isLeapYear_of_misread {year : ℤ} (h : year % 400 = 0 ∨ year % 400 = 300) :
  isLeapYear year = decide (year % 400 = 0)
  := by
  simp only [isLeapYear, decide_eq_decide]
  omega

/-- The years since 1900 are leap years as the years are, but for some that close a century. -/
theorem isLeapYear_since (year : ℤ) :
  isLeapYear (year - 1900) =
    if year % 400 = 0 ∨ year % 400 = 300 then decide (year % 400 = 300) else isLeapYear year
  := by
  split_ifs with hmisread
  · simp only [isLeapYear, decide_eq_decide]
    omega
  · simp only [isLeapYear, decide_eq_decide]
    omega

theorem dayInMonth_of_ne {mon : ℕ} (h : mon ≠ 1) (year year' : ℤ) :
  dayInMonth year mon = dayInMonth year' mon
  := by
  match mon with
  | 0 => rfl
  | 1 => exact absurd rfl h
  | mon + 2 => rfl

theorem dayInMonth_february (year : ℤ) :
  dayInMonth year 1 = if isLeapYear year then 29 else 28
  := rfl

theorem bounds_dateOf (day : ℤ) :
  1 ≤ (dateOf day).mday ∧
    (dateOf day).mday ≤ dayInMonth (dateOf day).year (dateOf day).mon ∧
    28 ≤ dayInMonth (dateOf day).year (dateOf day).mon ∧
    dayInMonth (dateOf day).year (dateOf day).mon ≤ 31
  := by
  obtain ⟨hpos, length, hget, hle⟩ := valid_dateOf day
  have hlength : dayInMonth (dateOf day).year (dateOf day).mon = length := by
    rw [dayInMonth, List.getD_eq_getElem?_getD, hget]
    rfl
  have hbounds : ∀ leap, ∀ length ∈ monthLengths leap, 28 ≤ length ∧ length ≤ 31 := by decide
  rw [hlength]
  exact ⟨hpos, hle, hbounds _ length (List.mem_of_getElem? hget)⟩

/-- The test for the last of the days of a week errs on a single day of a year that is
misread. -/
theorem lastInMonth_iff (day : ℤ) :
  (if ((dateOf day).mday - 1) / 7 + 1 = 4 then
      dayInMonth ((dateOf day).year - 1900) (dateOf day).mon < (dateOf day).mday + 7
    else 5 = ((dateOf day).mday - 1) / 7 + 1) ↔
    if (dateOf day).mon = 1 ∧ (dateOf day).mday = 22 ∧
        ((dateOf day).year % 400 = 0 ∨ (dateOf day).year % 400 = 300) then
      (dateOf day).year % 400 = 0
    else dayInMonth (dateOf day).year (dateOf day).mon - 7 < (dateOf day).mday
  := by
  obtain ⟨hpos, hle, hlow, hhigh⟩ := bounds_dateOf day
  generalize dateOf day = date at *
  obtain ⟨year, mon, mday⟩ := date
  dsimp only at *
  by_cases hmon : mon = 1
  · subst hmon
    simp only [dayInMonth_february] at *
    -- the month length of the source is that of the years since 1900
    rw [isLeapYear_since]
    by_cases hmisread : year % 400 = 0 ∨ year % 400 = 300
    · rw [isLeapYear_of_misread hmisread] at hle ⊢
      simp only [hmisread, if_true, decide_eq_true_eq, true_and, and_true] at hle ⊢
      split_ifs at * <;> omega
    · simp only [hmisread, and_false, if_false] at hle ⊢
      split_ifs at * <;> omega
  · rw [dayInMonth_of_ne hmon (year - 1900) year]
    simp only [hmon, false_and, if_false]
    split_ifs <;> omega

theorem acceptMonthly_iff (day : ℤ) :
  acceptMonthly offset tp (startOn offset tp day) = true ↔
    tp.month.testBit (dateOf day).mon = true ∧
      if tp.day ≠ 0 then (dateOf day).mday = tp.day
      else
        tp.dayofweek.testBit (weekday day).toNat = true ∧
          if tp.every = 5 then
            if ((dateOf day).mday - 1) / 7 + 1 = 4 then
              dayInMonth ((dateOf day).year - 1900) (dateOf day).mon < (dateOf day).mday + 7
            else 5 = ((dateOf day).mday - 1) / 7 + 1
          else ((dateOf day).mday - 1) / 7 + 1 = tp.every
  := by
  have hdate : (localtime offset (startOn offset tp day)).tmMon = (dateOf day).mon ∧
      (localtime offset (startOn offset tp day)).tmMday = (dateOf day).mday ∧
      (localtime offset (startOn offset tp day)).tmYear = (dateOf day).year - 1900 := by
    simp only [localtime, dayOf_startOn, and_self]
  obtain ⟨hmon, hmday, hyear⟩ := hdate
  unfold acceptMonthly
  simp only [hmon, hmday, hyear, wday_localtime, dayOf_startOn]
  by_cases hmonth : tp.month.testBit (dateOf day).mon = true
  · by_cases hday : tp.day = 0
    · by_cases hweek : tp.dayofweek.testBit (weekday day).toNat = true
      · by_cases hevery : tp.every = 5
        · simp only [hmonth, hday, hweek, hevery]
          split_ifs <;> simp_all
        · simp [hmonth, hday, hweek, hevery, eq_comm]
      · simp [hmonth, hday, hweek]
    · simp [hmonth, hday, eq_comm]
  · simp [hmonth]

/-- The search accepts the days of the period but for those that are misread. -/
theorem foundOn_iff (offset activeSince : ℤ) (tp : Timeperiod) (day : ℤ) :
  (FoundOn offset activeSince tp day ↔ OccursOn (dayOf offset activeSince) tp day) ↔
    ¬ Misread tp day
  := by
  unfold FoundOn OccursOn Misread
  cases htype : tp.timeperiodType with
  | onetime => simp
  | daily => simp
  | weekly => simp [acceptWeekly_iff]
  | monthly =>
    dsimp only
    rw [acceptMonthly_iff, lastInMonth_iff]
    by_cases hday : tp.day = 0
    · by_cases hevery : tp.every = 5
      · by_cases hmisread : (dateOf day).mon = 1 ∧ (dateOf day).mday = 22 ∧
            ((dateOf day).year % 400 = 0 ∨ (dateOf day).year % 400 = 300)
        · obtain ⟨hmon, hmday, hyear⟩ := hmisread
          have hlast : ¬ ((dateOf day).year % 400 = 0 ↔
              dayInMonth (dateOf day).year 1 - 7 < 22) := by
            rw [dayInMonth_february, isLeapYear_of_misread hyear]
            split_ifs with hleap <;> simp_all
          simp only [hday, hevery, hmon, hmday, hyear, if_true, ne_eq, not_true_eq_false,
            if_false, true_and, and_true]
          tauto
        · simp only [hday, hevery, hmisread, if_true, ne_eq, not_true_eq_false, if_false,
            and_false, not_false_eq_true]
      · simp [hday, hevery]
    · simp [hday]

/-! ### The search -/

/-- The day that a search among the days up to `high` ends with. -/
structure Reached (offset activeSince : ℤ) (tp : Timeperiod) (found : ℤ → Prop)
    (high : ℤ) (s : ℤ) (day : ℤ) : Prop where
  eq : s = startOn offset tp day
  le : day ≤ high
  later : ∀ day', day < day' → day' ≤ high → ¬ found day'
  found : activeSince ≤ s → found day

theorem reached_stepBack (accept : ℤ → Bool) (day : ℤ) :
  ∃ day', Reached offset activeSince tp (fun day => accept (startOn offset tp day) = true) day
    (stepBack accept activeSince (startOn offset tp day)) day'
  := by
  generalize hstart : startOn offset tp day = start
  fun_induction stepBack accept activeSince start generalizing day with
  | case1 start hle haccept =>
    refine ⟨day, hstart.symm, le_rfl, fun day' hlt hle' => ?_, fun _ => ?_⟩
    · omega
    · rw [hstart]
      exact haccept
  | case2 start hle hreject ih =>
    have hprev : startOn offset tp (day - 1) = start - secPerDay := by
      rw [← startOn_sub, hstart, mul_one]
    obtain ⟨day', hreached⟩ := ih (day - 1) hprev
    refine ⟨day', hreached.eq, ?_, fun day'' hlt hle' => ?_, hreached.found⟩
    · have := hreached.le
      omega
    · obtain hbefore | rfl : day'' ≤ day - 1 ∨ day'' = day := by omega
      · exact hreached.later day'' hlt hbefore
      · rw [hstart]
        exact hreject
  | case3 start hlt =>
    refine ⟨day, hstart.symm, le_rfl, fun day' hlt' hle' => ?_, fun hle => ?_⟩
    · omega
    · omega

theorem daysSince_lastStart (offset now activeSince : ℤ) (tp : Timeperiod) :
  (lastStart offset now tp.startTime - (activeSince - (localtime offset activeSince).sec)) /
      secPerDay = lastDay offset now tp - dayOf offset activeSince
  := by
  have hnonneg := tp.startTime_nonneg
  have hlt := tp.startTime_lt
  rw [lastStart_eq, sec_localtime]
  generalize lastDay offset now tp = day
  simp only [startOn, dayOf, secPerDay] at *
  omega

/-- The days counted by some number from a day on come to one at most that number less one
before any day. -/
theorem emod_days {every : ℤ} (hevery : 1 ≤ every) (days : ℤ) :
  (days - days % every) % every = 0 ∧
    ∀ days', days - days % every < days' → days' ≤ days → days' % every ≠ 0
  := by
  constructor
  · rw [Int.sub_emod, Int.emod_emod, sub_self, Int.zero_emod]
  · intro days' hlt hle hzero
    have hdiff : (days - days') % every = days % every := by
      rw [Int.sub_emod, hzero, sub_zero, Int.emod_emod]
    have hsmall : (days - days') % every = days - days' := by
      have := Int.emod_lt_of_pos days (by omega : 0 < every)
      exact Int.emod_eq_of_lt (by omega) (by omega)
    omega

theorem startDate_eq_none (hnone : startDate offset now activeSince tp = none) :
  startOn offset tp (lastDay offset now tp) < activeSince
  := by
  rw [← lastStart_eq]
  unfold startDate at hnone
  cases htype : tp.timeperiodType <;> simp only [htype] at hnone <;> simp_all

theorem reached_startDate (htype : tp.timeperiodType ≠ .onetime) {s : ℤ}
    (hstart : startDate offset now activeSince tp = some s) :
  ∃ day, Reached offset activeSince tp (FoundOn offset activeSince tp) (lastDay offset now tp)
    s day
  := by
  unfold startDate at hstart
  cases hperiodic : tp.timeperiodType with
  | onetime => exact absurd hperiodic htype
  | daily =>
    simp only [hperiodic, daysSince_lastStart, Option.ite_none_left_eq_some,
      Option.some.injEq] at hstart
    obtain ⟨-, rfl⟩ := hstart
    obtain ⟨hmod, hlater⟩ := emod_days tp.every_pos
      (lastDay offset now tp - dayOf offset activeSince)
    have hnonneg := Int.emod_nonneg (lastDay offset now tp - dayOf offset activeSince)
      (by have := tp.every_pos; omega : tp.every ≠ 0)
    refine ⟨_, by rw [lastStart_eq, startOn_sub], by omega, fun day' hlt hle => ?_, fun _ => ?_⟩
    · simp only [FoundOn, hperiodic]
      exact hlater (day' - dayOf offset activeSince) (by omega) (by omega)
    · simp only [FoundOn, hperiodic]
      rw [sub_right_comm]
      exact hmod
  | weekly =>
    simp only [hperiodic, lastStart_eq, Option.ite_none_left_eq_some,
      Option.some.injEq] at hstart
    obtain ⟨-, rfl⟩ := hstart
    have hfound : FoundOn offset activeSince tp = fun day =>
        acceptWeekly offset activeSince tp (startOn offset tp day) = true := by
      funext day
      simp only [FoundOn, hperiodic]
    rw [hfound]
    exact reached_stepBack _ _
  | monthly =>
    simp only [hperiodic, lastStart_eq, Option.some.injEq] at hstart
    subst hstart
    have hfound : FoundOn offset activeSince tp = fun day =>
        acceptMonthly offset tp (startOn offset tp day) = true := by
      funext day
      simp only [FoundOn, hperiodic]
    rw [hfound]
    exact reached_stepBack _ _

/-- A day on which a period has started late enough to run now, were it to start then. -/
def RunsFrom (offset now activeSince : ℤ) (tp : Timeperiod) (day : ℤ) : Prop :=
  activeSince ≤ startOn offset tp day ∧ now < startOn offset tp day + tp.period

theorem RunsFrom.mono (day day' : ℤ) (hruns : RunsFrom offset now activeSince tp day)
    (hle : day ≤ day') :
  RunsFrom offset now activeSince tp day'
  := by
  have := (startOn_le_iff offset tp day day').mpr hle
  unfold RunsFrom at *
  omega

/-- A periodic period counts from the latest day that the search accepts. -/
theorem maintenanceFrom_eq_some_iff (htype : tp.timeperiodType ≠ .onetime) (t : ℤ) :
  maintenanceFrom offset now activeSince tp = some t ↔
    ∃ day, IsLatest (FoundOn offset activeSince tp) (RunsFrom offset now activeSince tp)
      (lastDay offset now tp) day ∧ t = startOn offset tp day
  := by
  unfold maintenanceFrom
  cases hstart : startDate offset now activeSince tp with
  | none =>
    simp only [Option.bind_none, reduceCtorEq, false_iff, not_exists, not_and]
    intro day hlatest
    have := startDate_eq_none hstart
    have := (startOn_le_iff offset tp day _).mpr hlatest.le
    have := hlatest.enough.1
    omega
  | some s =>
    obtain ⟨day, hreached⟩ := reached_startDate htype hstart
    have hnow := (startOn_le_now_iff offset now tp day).mpr hreached.le
    simp only [Option.bind_some, htype, ne_eq, not_false_eq_true, and_true,
      Option.ite_none_left_eq_some]
    constructor
    · rintro ⟨hactive, hrunning, hfrom⟩
      rw [if_neg hactive, Option.some.injEq] at hfrom
      refine ⟨day, ⟨hreached.found (not_lt.mp hactive), ?_, hreached.le, hreached.later⟩, ?_⟩
      · have := hreached.eq
        unfold RunsFrom
        omega
      · rw [← hfrom, hreached.eq]
    · rintro ⟨day', hlatest, rfl⟩
      have heq : day' = day := by
        obtain hlt | heq | hgt := lt_trichotomy day' day
        · have hruns := RunsFrom.mono day' day hlatest.enough hlt.le
          have hfound := hreached.found (by rw [hreached.eq]; exact hruns.1)
          exact absurd hfound (hlatest.later day hlt hreached.le)
        · exact heq
        · exact absurd hlatest.prop (hreached.later day' hgt hlatest.le)
      subst heq
      have henough := hlatest.enough
      rw [hreached.eq]
      unfold RunsFrom at henough
      refine ⟨by omega, by omega, ?_⟩
      rw [if_neg (by omega)]

/-! ### Periods in force -/

theorem currentStart_iff (htype : tp.timeperiodType ≠ .onetime) (s : ℤ) :
  CurrentStart offset now activeSince tp s ↔
    ∃ day, IsLatest (OccursOn (dayOf offset activeSince) tp)
      (RunsFrom offset now activeSince tp) (lastDay offset now tp) day ∧
        s = startOn offset tp day
  := by
  unfold CurrentStart
  simp only [Occurs, htype, if_false]
  constructor
  · rintro ⟨⟨hactive, day, hoccurs, rfl⟩, hnow, hruns, hlast⟩
    have hle := (startOn_le_now_iff offset now tp day).mp hnow
    refine ⟨day, ⟨hoccurs, ⟨hactive, hruns⟩, hle, fun day' hlt hle' hoccurs' => ?_⟩, rfl⟩
    have hlater := (startOn_le_iff offset tp day day').mpr hlt.le
    have := (startOn_le_iff offset tp day' day).mp (hlast _ ⟨by omega, day', hoccurs', rfl⟩
      ((startOn_le_now_iff offset now tp day').mpr hle'))
    omega
  · rintro ⟨day, hlatest, rfl⟩
    refine ⟨⟨hlatest.enough.1, day, hlatest.prop, rfl⟩,
      (startOn_le_now_iff offset now tp day).mpr hlatest.le, hlatest.enough.2, ?_⟩
    rintro s' ⟨-, day', hoccurs', rfl⟩ hnow'
    rw [startOn_le_iff]
    by_contra hlt
    exact hlatest.later day' (not_le.mp hlt) ((startOn_le_now_iff offset now tp day').mp hnow')
      hoccurs'

theorem inForce_iff (htype : tp.timeperiodType ≠ .onetime) :
  InForce offset now activeSince tp ↔
    ∃ day, IsLatest (OccursOn (dayOf offset activeSince) tp)
      (RunsFrom offset now activeSince tp) (lastDay offset now tp) day
  := by
  rw [exists_isLatest_iff RunsFrom.mono]
  unfold InForce
  simp only [Occurs, htype, if_false]
  constructor
  · rintro ⟨s, ⟨hactive, day, hoccurs, rfl⟩, hnow, hruns⟩
    exact ⟨day, hoccurs, ⟨hactive, hruns⟩, (startOn_le_now_iff offset now tp day).mp hnow⟩
  · rintro ⟨day, hoccurs, ⟨hactive, hruns⟩, hle⟩
    exact ⟨_, ⟨hactive, day, hoccurs, rfl⟩, (startOn_le_now_iff offset now tp day).mpr hle,
      hruns⟩

/-- Every day of a period that is misread and could be that of the period in force is followed by
another day of the period. -/
def Recovers (offset now activeSince : ℤ) (tp : Timeperiod) : Prop :=
  ∀ day, Misread tp day → activeSince ≤ startOn offset tp day → startOn offset tp day ≤ now →
    now < startOn offset tp day + tp.period →
      ∃ day', day < day' ∧ startOn offset tp day' ≤ now ∧
        OccursOn (dayOf offset activeSince) tp day' ∧ ¬ Misread tp day'

theorem recovers_iff (offset now activeSince : ℤ) (tp : Timeperiod) :
  Recovers offset now activeSince tp ↔
    ∀ day, IsLatest (FoundOn offset activeSince tp) (RunsFrom offset now activeSince tp)
        (lastDay offset now tp) day ↔
      IsLatest (OccursOn (dayOf offset activeSince) tp) (RunsFrom offset now activeSince tp)
        (lastDay offset now tp) day
  := by
  have hboth : ∀ day, OccursOn (dayOf offset activeSince) tp day ∧ ¬ Misread tp day ↔
      FoundOn offset activeSince tp day ∧ OccursOn (dayOf offset activeSince) tp day := by
    intro day
    have := foundOn_iff offset activeSince tp day
    tauto
  rw [isLatest_congr_iff RunsFrom.mono]
  unfold Recovers
  simp only [foundOn_iff, not_not, startOn_le_now_iff, hboth, RunsFrom]
  constructor
  · intro hrecovers day hruns hle hmisread
    exact hrecovers day hmisread hruns.1 hle hruns.2
  · intro hfollowed day hmisread hactive hle hruns
    exact hfollowed day ⟨hactive, hruns⟩ hle hmisread

theorem periodMeets_onetime (htype : tp.timeperiodType = .onetime) :
  PeriodMeets offset now activeSince tp
  := by
  have hfrom : maintenanceFrom offset now activeSince tp =
      if now < tp.startDate ∨ tp.startDate + tp.period ≤ now then none
      else some (max tp.startDate activeSince) := by
    simp only [maintenanceFrom, startDate, htype, Option.bind_some, ne_eq, not_true_eq_false,
      and_false, if_false]
    split_ifs with hend hactive
    · rfl
    · rw [max_eq_right hactive.le]
    · rw [max_eq_left (not_lt.mp hactive)]
  unfold PeriodMeets InForce CurrentStart
  simp only [hfrom, Occurs, htype, if_true]
  constructor
  · simp
  · intro t ht
    rw [Option.ite_none_left_eq_some, Option.some.injEq] at ht
    obtain ⟨hend, rfl⟩ := ht
    refine ⟨tp.startDate, ⟨rfl, by omega, by omega, ?_⟩, rfl⟩
    rintro s' rfl -
    exact le_rfl

/-- A period counts as it should exactly when every misread day is followed by another day. -/
theorem periodMeets_iff (offset now activeSince : ℤ) (tp : Timeperiod) :
  PeriodMeets offset now activeSince tp ↔ Recovers offset now activeSince tp
  := by
  by_cases htype : tp.timeperiodType = .onetime
  · refine iff_of_true (periodMeets_onetime htype) fun day hmisread => ?_
    rw [hmisread.1] at htype
    nomatch htype
  rw [recovers_iff]
  unfold PeriodMeets
  rw [inForce_iff htype, Option.isSome_iff_exists]
  simp only [maintenanceFrom_eq_some_iff htype, currentStart_iff htype]
  constructor
  · rintro ⟨hforce, hfrom⟩ day
    have hfound : ∀ day, IsLatest (FoundOn offset activeSince tp)
        (RunsFrom offset now activeSince tp) (lastDay offset now tp) day →
      IsLatest (OccursOn (dayOf offset activeSince) tp)
        (RunsFrom offset now activeSince tp) (lastDay offset now tp) day := by
      intro day hlatest
      obtain ⟨s, ⟨day', hlatest', rfl⟩, hmax⟩ := hfrom _ ⟨day, hlatest, rfl⟩
      rw [max_eq_left hlatest'.enough.1] at hmax
      have heq : day = day' := by
        unfold startOn secPerDay at hmax
        omega
      rw [heq]
      exact hlatest'
    refine ⟨hfound day, fun hlatest => ?_⟩
    obtain ⟨t, day', hlatest', -⟩ := hforce.mpr ⟨day, hlatest⟩
    rw [hlatest.unique (hfound day' hlatest')]
    exact hlatest'
  · intro hsame
    constructor
    · constructor
      · rintro ⟨t, day, hlatest, -⟩
        exact ⟨day, (hsame day).mp hlatest⟩
      · rintro ⟨day, hlatest⟩
        exact ⟨_, day, (hsame day).mpr hlatest, rfl⟩
    · rintro t ⟨day, hlatest, rfl⟩
      refine ⟨_, ⟨day, (hsame day).mp hlatest, rfl⟩, ?_⟩
      rw [max_eq_left hlatest.enough.1]

end Timer
