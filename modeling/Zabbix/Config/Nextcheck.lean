import Zabbix.Config.Items

/-!
# The time of the next check

`calculate_item_nextcheck` looks for the nearest time at which an item is due: a multiple
of its delay, shifted by its id, and within a period in which this delay applies. The
delay may be overridden by flexible intervals, a text that is read anew at each use.

For a delay that is not negative and for flexible intervals that make sense the function
ends and gives a time that is still to come, as long as an `int` can hold it. The loops are
given a number of rounds; `none` says that they are not done after as many, or that the
`int` that they count up overflows.
-/

namespace DbConfig

/-! ### Reading numbers -/

/-- A part of a `sscanf` format: the conversion `%d` or a character. -/
inductive Directive
  | int
  | lit (c : Char)

/-- `isspace`. -/
def isSpace (c : Char) : Bool := c = ' ' ∨ ('\t' ≤ c ∧ c ≤ '\r')

/-- What `%d` makes of digits: a `long` that is as near as possible, stored in an `int`. -/
def intOfDigits (negative : Bool) (digits : List Char) : ℤ :=
  let n : ℤ := digits.foldl (fun n c => 10 * n + (c.toNat - '0'.toNat)) 0
  CInt.wrap (max (-2 ^ 63) (min (if negative then -n else n) (2 ^ 63 - 1)))

/-- The conversion `%d`, with the text that follows. -/
def scanInt (s : List Char) : Option (ℤ × List Char) :=
  let read := fun negative (s : List Char) =>
    if s.takeWhile Char.isDigit = [] then none
    else some (intOfDigits negative (s.takeWhile Char.isDigit), s.dropWhile Char.isDigit)
  match s.dropWhile isSpace with
  | '-' :: s => read true s
  | '+' :: s => read false s
  | s => read false s

/-- `sscanf`; gives the converted numbers. -/
def sscanf : List Directive → List Char → List ℤ
  | [], _ => []
  | .int :: format, s =>
    match scanInt s with
    | some (n, s) => n :: sscanf format s
    | none => []
  | .lit c :: format, c' :: s => if c = c' then sscanf format s else []
  | .lit _ :: _, [] => []

/-- The texts at which a list separated by semicolons is read: all of it, and what follows
each semicolon, unless there is nothing. -/
def starts (s : List Char) : List (List Char) :=
  (s :: s.tails.filterMap fun t => if t.head? = some ';' then some t.tail else none).filter
    (· ≠ [])

/-! ### Time periods -/

def secPerMin : ℤ := 60

def secPerHour : ℤ := 3600

def secPerDay : ℤ := 86400

def secPerYear : ℤ := 365 * secPerDay

/-- The parts of `struct tm` that are used. A minute has 60 seconds. -/
structure Tm where
  wday : Fin 7
  hour : Fin 24
  min : Fin 60
  sec : Fin 60

/-- `localtime`, and the time that `check_time_period` takes when it is given none. -/
structure Clock where
  localtime : ℤ → Tm
  time : ℤ

/-- The day of the week, where Sunday is the last. -/
def Tm.day (tm : Tm) : ℤ := if tm.wday = 0 then 7 else tm.wday.val

/-- The second of the day. -/
def Tm.secOfDay (tm : Tm) : ℤ :=
  secPerHour * tm.hour.val + secPerMin * tm.min.val + tm.sec.val

theorem Tm.day_bounds (tm : Tm) :
  1 ≤ tm.day ∧ tm.day ≤ 7
  := by
  have hlt := tm.wday.isLt
  unfold Tm.day
  split
  · omega
  · rename_i hne
    have hpos : tm.wday.val ≠ 0 := fun h => hne (Fin.ext h)
    omega

theorem Tm.secOfDay_bounds (tm : Tm) :
  0 ≤ tm.secOfDay ∧ tm.secOfDay < secPerDay
  := by
  have hhour := tm.hour.isLt
  have hmin := tm.min.isLt
  have hsec := tm.sec.isLt
  unfold Tm.secOfDay secPerHour secPerMin secPerDay
  omega

/-- A time period `d1-d2,hh:mm-hh:mm`. -/
structure Period where
  d1 : ℤ
  d2 : ℤ
  h1 : ℤ
  m1 : ℤ
  h2 : ℤ
  m2 : ℤ

namespace Period

def sec1 (p : Period) : ℤ := CInt.wrap (secPerHour * p.h1 + secPerMin * p.m1)

/-- The upper bound, which does not belong to the period. -/
def sec2 (p : Period) : ℤ := CInt.wrap (secPerHour * p.h2 + secPerMin * p.m2)

/-- `%d:%d-%d:%d`. -/
def times : List Directive := [.int, .lit ':', .int, .lit '-', .int, .lit ':', .int]

/-- `%d-%d,%d:%d-%d:%d`. -/
def days : List Directive := [.int, .lit '-', .int, .lit ','] ++ times

/-- `%d,%d:%d-%d:%d`. -/
def oneDay : List Directive := [.int, .lit ','] ++ times

/-- A time period as `check_time_period` reads it. -/
def read (s : List Char) : Option Period :=
  match sscanf days s with
  | [d1, d2, h1, m1, h2, m2] => some ⟨d1, d2, h1, m1, h2, m2⟩
  | _ =>
    match sscanf oneDay s with
    | [d1, h1, m1, h2, m2] => some ⟨d1, d1, h1, m1, h2, m2⟩
    | _ => none

/-- A time period behind a delay as `get_next_delay_interval` reads it. -/
def readDelayed (s : List Char) : Option Period :=
  match sscanf ([.int, .lit '/'] ++ days) s with
  | [_, d1, d2, h1, m1, h2, m2] => some ⟨d1, d2, h1, m1, h2, m2⟩
  | _ =>
    match sscanf ([.int, .lit '/'] ++ oneDay) s with
    | [_, d1, h1, m1, h2, m2] => some ⟨d1, d1, h1, m1, h2, m2⟩
    | _ => none

/-- The period is on. -/
def Active (p : Period) (tm : Tm) : Prop :=
  p.d1 ≤ tm.day ∧ tm.day ≤ p.d2 ∧ p.sec1 ≤ tm.secOfDay ∧ tm.secOfDay < p.sec2

instance (p : Period) (tm : Tm) : Decidable (p.Active tm) :=
  inferInstanceAs (Decidable (_ ∧ _))

/-- The days until a period that is neither on today nor tomorrow, -1 where the code could
not deduce them. -/
def dayDiff (p : Period) (day : ℤ) : ℤ :=
  if p.d1 ≤ day ∧ day < p.d2 then -1
  else if day ≥ p.d2 then CInt.wrap (p.d1 + 7 - day)
  else if day < p.d1 then CInt.wrap (p.d1 - day)
  else -1

/-- The time at which the period ends, if it is on at the given time, or begins. -/
def nextChange (p : Period) (tm : Tm) (now : ℤ) : Option ℤ :=
  let midnight := now - tm.secOfDay
  let nextDay := if 7 ≥ tm.day + 1 then tm.day + 1 else 1
  if p.Active tm then some (midnight + p.sec2)
  else if p.d1 ≤ tm.day ∧ tm.day ≤ p.d2 ∧ tm.secOfDay < p.sec1 then some (midnight + p.sec1)
  else if p.d1 ≤ nextDay ∧ nextDay ≤ p.d2 then some (midnight + secPerDay + p.sec1)
  else if p.dayDiff tm.day = -1 then none
  else some (midnight + CInt.wrap (secPerDay * p.dayDiff tm.day) + p.sec1)

/-- A period that begins on a day of the week, at a time that is not negative, and whose times in
seconds an `int` can hold. -/
def WellFormed (p : Period) : Prop :=
  (1 ≤ p.d1 ∧ p.d1 ≤ 7) ∧ (0 ≤ p.h1 ∧ 0 ≤ p.m1) ∧
    CInt.Fits (secPerHour * p.h1 + secPerMin * p.m1) ∧
    CInt.Fits (secPerHour * p.h2 + secPerMin * p.m2)

instance (p : Period) : Decidable p.WellFormed := inferInstanceAs (Decidable (_ ∧ _))

theorem WellFormed.sec1_nonneg {p : Period} (h : p.WellFormed) :
  0 ≤ p.sec1
  := by
  obtain ⟨-, ⟨hh1, hm1⟩, hsec1, -⟩ := h
  rw [sec1, CInt.wrap_of_fits hsec1]
  unfold secPerHour secPerMin
  omega

/-- Where the days until a period can be deduced, they are at least one and at most two weeks. -/
theorem WellFormed.dayDiff_bounds {p : Period} (h : p.WellFormed) (tm : Tm)
    (hdiff : p.dayDiff tm.day ≠ -1) :
  1 ≤ p.dayDiff tm.day ∧ p.dayDiff tm.day ≤ 14
  := by
  obtain ⟨⟨hd1, hd7⟩, -⟩ := h
  obtain ⟨hday, hday7⟩ := tm.day_bounds
  have hwrap : ∀ n : ℤ, 1 ≤ n → n ≤ 14 → 1 ≤ CInt.wrap n ∧ CInt.wrap n ≤ 14 := by
    intro n hlow hhigh
    rw [CInt.wrap_of_fits ⟨by omega, by omega⟩]
    exact ⟨hlow, hhigh⟩
  unfold dayDiff at hdiff ⊢
  split_ifs at hdiff ⊢
  · exact absurd rfl hdiff
  · exact hwrap _ (by omega) (by omega)
  · exact hwrap _ (by omega) (by omega)
  · exact absurd rfl hdiff

/-- The next change is still to come. -/
theorem WellFormed.lt_nextChange {p : Period} (h : p.WellFormed) (tm : Tm) {now next : ℤ}
    (hnext : p.nextChange tm now = some next) :
  now < next
  := by
  obtain ⟨hsec, hsecday⟩ := tm.secOfDay_bounds
  have hsec1 := h.sec1_nonneg
  unfold nextChange at hnext
  dsimp only at hnext
  generalize (if 7 ≥ tm.day + 1 then tm.day + 1 else 1) = nextDay at hnext
  split at hnext
  · rename_i hactive
    have hbefore : tm.secOfDay < p.sec2 := hactive.2.2.2
    rw [Option.some.injEq] at hnext
    omega
  · split at hnext
    · rw [Option.some.injEq] at hnext
      omega
    · split at hnext
      · rw [Option.some.injEq] at hnext
        omega
      · by_cases hdiff : p.dayDiff tm.day = -1
        · rw [if_pos hdiff] at hnext
          cases hnext
        · obtain ⟨hlow, hhigh⟩ := h.dayDiff_bounds tm hdiff
          unfold secPerDay at hsecday
          have hfits : CInt.Fits (secPerDay * p.dayDiff tm.day) := by
            unfold CInt.Fits secPerDay
            omega
          rw [if_neg hdiff, CInt.wrap_of_fits hfits, Option.some.injEq] at hnext
          unfold secPerDay at hnext
          omega

end Period

/-! ### Flexible intervals -/

/-- `check_time_period`. -/
def checkTimePeriod (clock : Clock) (period : List Char) (now : ℤ) : Bool :=
  let tm := clock.localtime (if now = 0 then clock.time else now)
  (starts period).any fun s => (Period.read s).any fun p => p.Active tm

/-- The delay of a flexible interval, and the text of its period, of which at most 29
characters are read: `%d/%29[^;]`. -/
def scanDelay (s : List Char) : Option (ℤ × List Char) :=
  match scanInt s with
  | some (delay, '/' :: s) =>
    let period := (s.takeWhile (· ≠ ';')).take 29
    if period = [] then none else some (delay, period)
  | _ => none

/-- The lesser delay, if the flexible interval applies now. -/
def lesserDelay (clock : Clock) (now current : ℤ) (s : List Char) : ℤ :=
  match scanDelay s with
  | some (delay, period) =>
    if delay < current ∧ checkTimePeriod clock period now then delay else current
  | none => current

/-- `get_current_delay`. -/
def getCurrentDelay (clock : Clock) (delay : ℤ) (flexIntervals : Option String) (now : ℤ) : ℤ :=
  let current :=
    (starts (flexIntervals.getD "").toList).foldl (lesserDelay clock now) secPerYear
  if current = secPerYear then delay
  else if current = 0 then secPerYear
  else current

/-- The sooner change; 0 stands for none. -/
def soonerChange (clock : Clock) (now next : ℤ) (s : List Char) : ℤ :=
  match (Period.readDelayed s).bind fun p => p.nextChange (clock.localtime now) now with
  | some change => if next = 0 ∨ next > change then change else next
  | none => next

/-- `get_next_delay_interval`. -/
def getNextDelayInterval (clock : Clock) (flexIntervals : Option String) (now : ℤ) : Option ℤ :=
  let next := (starts (flexIntervals.getD "").toList).foldl (soonerChange clock now) 0
  if next = 0 then none else some next

/-- `INT_MAX`. -/
def intMax : ℤ := 2 ^ 31 - 1

/-- Flexible intervals with delays that are not negative and well-formed periods. -/
def FlexWellFormed (flexIntervals : String) : Prop :=
  ∀ s ∈ starts flexIntervals.toList,
    (∀ read ∈ scanDelay s, 0 ≤ read.1) ∧ ∀ p ∈ Period.readDelayed s, p.WellFormed

instance (flexIntervals : String) : Decidable (FlexWellFormed flexIntervals) :=
  inferInstanceAs (Decidable (∀ s ∈ starts flexIntervals.toList, _))

section

variable {flexIntervals : Option String}
  (hflex : ∀ flex ∈ flexIntervals, FlexWellFormed flex)

include hflex

theorem starts_wellFormed :
  ∀ s ∈ starts (flexIntervals.getD "").toList,
    (∀ read ∈ scanDelay s, 0 ≤ read.1) ∧ ∀ p ∈ Period.readDelayed s, p.WellFormed
  := by
  cases flexIntervals with
  | none => simp [starts]
  | some flex => exact hflex flex rfl

/-- The current delay is positive, and not larger than the delay or a year. -/
theorem getCurrentDelay_bounds (clock : Clock) {delay : ℤ} (hpos : 0 < delay) (now : ℤ) :
  0 < getCurrentDelay clock delay flexIntervals now ∧
    getCurrentDelay clock delay flexIntervals now ≤ max delay secPerYear
  := by
  have hcurrent : 0 ≤ (starts (flexIntervals.getD "").toList).foldl (lesserDelay clock now)
      secPerYear ∧ (starts (flexIntervals.getD "").toList).foldl (lesserDelay clock now)
      secPerYear ≤ secPerYear := by
    apply List.foldlRecOn (motive := fun current => 0 ≤ current ∧ current ≤ secPerYear)
    · decide
    · intro current hbounds s hs
      unfold lesserDelay
      cases hread : scanDelay s with
      | none => exact hbounds
      | some read =>
        have hdelay := (starts_wellFormed hflex s hs).1 read hread
        dsimp only
        split
        · omega
        · exact hbounds
  have hyear : 0 < secPerYear := by decide
  unfold getCurrentDelay
  dsimp only
  split_ifs <;> omega

/-- The next interval begins later. -/
theorem lt_getNextDelayInterval {clock : Clock} {now next : ℤ}
    (hnext : getNextDelayInterval clock flexIntervals now = some next) :
  now < next
  := by
  unfold getNextDelayInterval at hnext
  dsimp only at hnext
  have hlater : (starts (flexIntervals.getD "").toList).foldl (soonerChange clock now) 0 = 0 ∨
      now < (starts (flexIntervals.getD "").toList).foldl (soonerChange clock now) 0 := by
    apply List.foldlRecOn (motive := fun next => next = 0 ∨ now < next)
    · exact Or.inl rfl
    · intro next hbounds s hs
      unfold soonerChange
      split
      · rename_i change hchange
        obtain ⟨p, hp, hchange⟩ := Option.bind_eq_some_iff.mp hchange
        have hlt := ((starts_wellFormed hflex s hs).2 p hp).lt_nextChange _ hchange
        split
        · exact Or.inr hlt
        · exact hbounds
      · exact hbounds
  split at hnext
  · contradiction
  · rename_i hne
    rw [← Option.some.inj hnext]
    exact hlater.resolve_left hne

end

/-! ### The next check -/

/-- Adds the delay until the limit is reached. -/
def advance (delay limit : ℤ) : (rounds : ℕ) → (nextcheck : ℤ) → Option ℤ
  | 0, _ => none
  | rounds + 1, nextcheck =>
    if limit ≤ nextcheck then some nextcheck
    else do
      let nextcheck ← CInt.fit (nextcheck + delay)
      advance delay limit rounds nextcheck

/-- The number that `%` gives for an unsigned number and an `int`, as an `int`. -/
def shiftBy (shift : UInt64) (delay : ℤ) : ℤ := CInt.wrap (shift.toNat % (delay % 2 ^ 64))

/-- The multiple of the delay, shifted, that the loop over the intervals begins with. -/
def firstNextcheck (shift : UInt64) (delay t : ℤ) : Option ℤ := do
  let product ← CInt.fit (delay * CInt.wrap (t.tdiv delay))
  CInt.fit (product + shiftBy shift delay)

/-- The loop over the intervals. In the first interval `nextcheck` has to be later than
`t`. The inner loops may make `steps` rounds each. -/
def searchNextcheck (clock : Clock) (delay : ℤ) (flexIntervals : Option String)
    (shift : UInt64) (tmax : ℤ) (steps : ℕ) :
    (rounds : ℕ) → (attempt : ℕ) → (nextcheck t : ℤ) → Option ℤ
  | 0, _, _, _ => none
  | rounds + 1, attempt, nextcheck, t =>
    if t < tmax then do
      let delay' := getCurrentDelay clock delay flexIntervals t
      let first ← firstNextcheck shift delay' t
      let nextcheck ← advance delay' (if attempt = 0 then t + 1 else t) steps first
      match getNextDelayInterval clock flexIntervals t with
      | some next =>
        if nextcheck ≥ next then
          searchNextcheck clock delay flexIntervals shift tmax steps rounds (attempt + 1)
            nextcheck next
        else some nextcheck
      | none => some nextcheck
    else some nextcheck

/-- `calculate_item_nextcheck`, of whose loops at most `rounds` rounds are made each. -/
def calculateItemNextcheck (clock : Clock) (rounds : ℕ) (interfaceid itemid : UInt64)
    (type : ItemType) (delay : ℤ) (flexIntervals : Option String) (now : ℤ) : Option ℤ :=
  let delay := if delay = 0 then secPerYear else delay
  if type = .zabbixActive then CInt.fit (CInt.wrap now + delay)
  else
    searchNextcheck clock delay flexIntervals (if type = .jmx then interfaceid else itemid)
      (now + secPerYear) rounds rounds 0 0 now

/-- The multiple of a positive delay is behind the time after one more delay. -/
theorem firstNextcheck_spec {delay t : ℤ} (shift : UInt64) (hpos : 0 < delay) (ht : 0 ≤ t)
    (hmax : t + delay ≤ intMax) :
  ∃ nextcheck, firstNextcheck shift delay t = some nextcheck ∧ t - delay < nextcheck
  := by
  unfold intMax at hmax
  have hshift : 0 ≤ shiftBy shift delay ∧ shiftBy shift delay < delay := by
    have hmod : delay % 2 ^ 64 = delay := Int.emod_eq_of_lt (by omega) (by omega)
    have hnonneg := Int.emod_nonneg shift.toNat hpos.ne'
    have hlt := Int.emod_lt_of_pos shift.toNat hpos
    rw [shiftBy, hmod, CInt.wrap_of_fits ⟨by omega, by omega⟩]
    exact ⟨hnonneg, hlt⟩
  have hdiv := Int.mul_tdiv_add_tmod t delay
  have hmod := Int.tmod_lt_of_pos t hpos
  have hmod' := Int.tmod_nonneg delay ht
  have hquotient : 0 ≤ t.tdiv delay ∧ t.tdiv delay ≤ t :=
    ⟨Int.tdiv_nonneg ht hpos.le, Int.tdiv_le_self delay ht⟩
  have hproduct : 0 ≤ delay * t.tdiv delay := Int.mul_nonneg hpos.le hquotient.1
  unfold firstNextcheck
  rw [CInt.wrap_of_fits ⟨by omega, by omega⟩, CInt.fit_of_fits ⟨by omega, by omega⟩,
    Option.bind_eq_bind, Option.bind_some, CInt.fit_of_fits ⟨by omega, by omega⟩]
  exact ⟨_, rfl, by omega⟩

/-- The limit is reached after one more delay. -/
theorem advance_spec {delay t limit nextcheck : ℤ} (ht : 0 ≤ t) (hmax : t + delay ≤ intMax)
    (hlimit : limit ≤ t + 1) (hlow : t - delay < nextcheck) {rounds : ℕ} (hrounds : 2 ≤ rounds) :
  ∃ nextcheck', advance delay limit rounds nextcheck = some nextcheck' ∧ limit ≤ nextcheck'
  := by
  unfold intMax at hmax
  obtain ⟨rounds, rfl⟩ := Nat.exists_eq_add_of_le hrounds
  rw [Nat.add_comm]
  by_cases hreached : limit ≤ nextcheck
  · exact ⟨_, if_pos hreached, hreached⟩
  · have hnext : limit ≤ nextcheck + delay := by omega
    refine ⟨_, ?_, hnext⟩
    rw [advance, if_neg hreached, CInt.fit_of_fits ⟨by omega, by omega⟩, Option.bind_eq_bind,
      Option.bind_some, advance, if_pos hnext]

/-- Without a positive delay the limit is not reached. -/
theorem advance_eq_none {delay limit nextcheck : ℤ} (hdelay : delay ≤ 0)
    (hlimit : nextcheck < limit) (rounds : ℕ) :
  advance delay limit rounds nextcheck = none
  := by
  induction rounds generalizing nextcheck with
  | zero => rfl
  | succ rounds ih =>
    rw [advance, if_neg (by omega), Option.bind_eq_bind, Option.bind_eq_none_iff]
    intro nextcheck' hnext
    unfold CInt.fit at hnext
    split at hnext
    · obtain rfl := Option.some.inj hnext
      exact ih (by omega)
    · cases hnext

/-- From any interval on, the loop ends with a time that is still to come: each round
brings it nearer to `tmax`. -/
theorem searchNextcheck_spec (clock : Clock) {flexIntervals : Option String}
    (hflex : ∀ flex ∈ flexIntervals, FlexWellFormed flex) {delay : ℤ} (hpos : 0 < delay)
    (shift : UInt64) {now tmax : ℤ} (hnow : 0 ≤ now) (hmax : tmax + delay ≤ intMax)
    (hyear : tmax + secPerYear ≤ intMax) {steps : ℕ} (hsteps : 2 ≤ steps)
    {rounds attempt : ℕ} {nextcheck t : ℤ} (hrounds : 0 < rounds) (hleft : tmax - t < rounds)
    (hfirst : attempt = 0 → t = now ∧ t < tmax)
    (hlater : attempt ≠ 0 → now < t ∧ now < nextcheck) :
  ∃ nextcheck', searchNextcheck clock delay flexIntervals shift tmax steps rounds attempt
      nextcheck t = some nextcheck' ∧ now < nextcheck'
  := by
  induction rounds generalizing attempt nextcheck t with
  | zero => omega
  | succ rounds ih =>
    unfold searchNextcheck
    by_cases hin : t < tmax
    · rw [if_pos hin]
      obtain ⟨hpos', hmax'⟩ := getCurrentDelay_bounds hflex clock hpos t
      have ht : 0 ≤ t := by
        by_cases h0 : attempt = 0
        · have := (hfirst h0).1
          omega
        · have := (hlater h0).1
          omega
      have hroom : t + getCurrentDelay clock delay flexIntervals t ≤ intMax := by
        have := max_le_iff.mpr ⟨hmax, hyear⟩
        omega
      have hlimit : (if attempt = 0 then t + 1 else t) ≤ t + 1 := by
        split <;> omega
      obtain ⟨first, hfirstcheck, hlow⟩ := firstNextcheck_spec shift hpos' ht hroom
      obtain ⟨nextcheck', hadvance, hreached⟩ := advance_spec ht hroom hlimit hlow hsteps
      have hcome : now < nextcheck' := by
        by_cases h0 : attempt = 0
        · rw [if_pos h0] at hreached
          have := (hfirst h0).1
          omega
        · rw [if_neg h0] at hreached
          have := (hlater h0).1
          omega
      dsimp only
      rw [hfirstcheck, Option.bind_eq_bind, Option.bind_some, hadvance, Option.bind_some]
      cases hnext : getNextDelayInterval clock flexIntervals t with
      | none => exact ⟨nextcheck', rfl, hcome⟩
      | some next =>
        have hlt := lt_getNextDelayInterval hflex hnext
        dsimp only
        by_cases hbeyond : nextcheck' ≥ next
        · rw [if_pos hbeyond]
          have hnow : now < next := by
            by_cases h0 : attempt = 0
            · have := (hfirst h0).1
              omega
            · have := (hlater h0).1
              omega
          apply ih
          · omega
          · omega
          · intro h0
            omega
          · intro _
            exact ⟨hnow, hcome⟩
        · rw [if_neg hbeyond]
          exact ⟨nextcheck', rfl, hcome⟩
    · rw [if_neg hin]
      have hattempt : attempt ≠ 0 := fun h0 => hin (hfirst h0).2
      exact ⟨nextcheck, rfl, (hlater hattempt).2⟩

/-- The number of rounds that is enough. -/
def nextcheckRounds : ℕ := (secPerYear + 1).toNat

/-- A time at which an `int` can hold the times of next checks up to two years ahead. -/
def InTime (now : ℤ) : Prop := 0 ≤ now ∧ now + 2 * secPerYear ≤ intMax

instance (now : ℤ) : Decidable (InTime now) := inferInstanceAs (Decidable (_ ∧ _))

/-- A delay that is not negative and that an `int` can hold a year from now. -/
def DelayInTime (now delay : ℤ) : Prop := 0 ≤ delay ∧ now + secPerYear + delay ≤ intMax

instance (now delay : ℤ) : Decidable (DelayInTime now delay) := inferInstanceAs (Decidable (_ ∧ _))

/-- For a delay that is not negative and well-formed flexible intervals the next check is
still to come. -/
theorem calculateItemNextcheck_spec (clock : Clock) {flexIntervals : Option String}
    (hflex : ∀ flex ∈ flexIntervals, FlexWellFormed flex) {now : ℤ} (hnow : InTime now)
    {delay : ℤ} (hdelay : DelayInTime now delay) (interfaceid itemid : UInt64) (type : ItemType)
    {rounds : ℕ} (hrounds : nextcheckRounds ≤ rounds) :
  ∃ nextcheck, calculateItemNextcheck clock rounds interfaceid itemid type delay flexIntervals
      now = some nextcheck ∧ now < nextcheck
  := by
  obtain ⟨hnow, htwo⟩ := hnow
  obtain ⟨hnonneg, hmax⟩ := hdelay
  have hyear : 0 < secPerYear := by decide
  have henough : nextcheckRounds = secPerYear + 1 ∧ 2 ≤ nextcheckRounds := by decide
  have hpos : 0 < (if delay = 0 then secPerYear else delay) := by
    split <;> omega
  have hmax' : now + secPerYear + (if delay = 0 then secPerYear else delay) ≤ intMax := by
    split <;> omega
  unfold calculateItemNextcheck
  dsimp only
  by_cases htype : type = .zabbixActive
  · have hintmax : intMax = 2147483647 := by decide
    have hkept : CInt.wrap now = now := CInt.wrap_of_fits ⟨by omega, by omega⟩
    rw [if_pos htype, hkept, CInt.fit_of_fits ⟨by omega, by omega⟩]
    exact ⟨_, rfl, by omega⟩
  · rw [if_neg htype]
    apply searchNextcheck_spec clock hflex hpos _ hnow hmax'
    · omega
    · omega
    · omega
    · omega
    · intro _
      exact ⟨rfl, by omega⟩
    · intro h0
      contradiction

namespace Environment

/-- The environment whose items are due when `calculate_item_nextcheck` says. -/
def withClock (env : Environment) (clock : Clock) : Environment :=
  { env with
    calculateItemNextcheck := fun interfaceid itemid type delay flexIntervals now =>
      (DbConfig.calculateItemNextcheck clock nextcheckRounds interfaceid itemid type delay
        flexIntervals now).getD 0 }

end Environment

namespace Config

/-- The times the cache is loaded with make sense: delays are not negative, an `int` can hold them
a year from now, and flexible intervals are well formed. -/
structure WellTimed (cfg : Config) (now : ℤ) : Prop where
  inTime : InTime now
  refresh : DelayInTime now cfg.refreshUnsupported
  delays : ∀ itemid item, cfg.items.rows.search itemid = some item → DelayInTime now item.delay
  flexible : ∀ itemid flex, cfg.flexitems.search itemid = some flex → FlexWellFormed flex

/-- The next check of an item that can be polled is still to come. -/
theorem WellTimed.lt_getReachableNextcheck {cfg : Config} {now : ℤ} (h : cfg.WellTimed now)
    (env : Environment) (clock : Clock) {item : Item} (hdelay : DelayInTime now item.delay)
    (itemid : UInt64) :
  now < cfg.getReachableNextcheck (env.withClock clock) itemid item now
  := by
  have hspec : ∀ delay flexIntervals, DelayInTime now delay →
      (∀ flex ∈ flexIntervals, FlexWellFormed flex) →
      now < (env.withClock clock).calculateItemNextcheck item.interfaceid itemid item.type delay
        flexIntervals now := by
    intro delay flexIntervals hdelay hflex
    obtain ⟨nextcheck, heq, hlt⟩ := calculateItemNextcheck_spec clock hflex h.inTime hdelay
      item.interfaceid itemid item.type le_rfl
    unfold Environment.withClock
    dsimp only
    rw [heq]
    exact hlt
  unfold Config.getReachableNextcheck
  cases item.state with
  | notSupported => exact hspec _ _ h.refresh (by simp)
  | normal => exact hspec _ _ hdelay (h.flexible itemid)

end Config

end DbConfig
