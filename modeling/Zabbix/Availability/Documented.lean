import Zabbix.Availability.Poll

/-!
# The availability machine

The availability of a host for one kind of item follows its failures: the first failure
after a success starts a period in which the host is tried again and again, and when the
period is over the host becomes unavailable. Failures shortly after the first one come
from other pollers and count for nothing.

`deactivate_host` tests for the latter in a structure that it has not written yet, so the
availability follows the machine exactly as long as the contents of that structure, or
the availability itself, happen to be right.
-/

namespace DbConfig

/-- The time of the first failure since the last success, after one more result. There is
none at time 0. -/
def failureTime (first : ℤ) : PollResult → ℤ
  | .success => 0
  | .failure ts _ => if first = 0 then ts else first

/-- A failure shortly after the first one. -/
def Early (periods : Periods) (first ts : ℤ) : Prop :=
  first ≠ 0 ∧ ts - first < periods.unreachableDelay

/-- A failure after the period in which the host is tried again. -/
def Late (periods : Periods) (first ts : ℤ) : Prop :=
  first ≠ 0 ∧ ¬ Early periods first ts ∧ periods.unreachablePeriod ≤ ts - first

instance (periods : Periods) (first ts : ℤ) : Decidable (Early periods first ts) :=
  inferInstanceAs (Decidable (_ ∧ _))

instance (periods : Periods) (first ts : ℤ) : Decidable (Late periods first ts) :=
  inferInstanceAs (Decidable (_ ∧ _))

/-- How long the host is left alone after a failure. -/
def Periods.delay (periods : Periods) (first ts : ℤ) : ℤ :=
  if Late periods first ts then periods.unavailableDelay else periods.unreachableDelay

/-- What one result makes of the availability, when the first failure since the last success
was at `first`. -/
structure Documented (periods : Periods) (first : ℤ) (a : Availability) (r : PollResult)
    (a' : Availability) : Prop where
  errorsFrom : a'.errorsFrom = failureTime first r
  success : r = .success → a'.available = hostAvailableTrue
  early : ∀ ts error, r = .failure ts error → Early periods first ts → a' = a
  available : ∀ ts error, r = .failure ts error →
    a'.available = if Late periods first ts then hostAvailableFalse else a.available
  disableUntil : ∀ ts error, r = .failure ts error → ¬ Early periods first ts →
    a'.disableUntil = ts + periods.delay first ts

/-- A time that is not that of no failure and fits into 32 bits. -/
def ValidTime (ts : ℤ) : Prop := 0 < ts ∧ ts < 2 ^ 31

instance : DecidablePred ValidTime := fun _ => inferInstanceAs (Decidable (_ ∧ _))

/-- The time of a failure is valid. -/
def PollResult.Valid : PollResult → Prop
  | .success => True
  | .failure ts _ => ValidTime ts

instance : DecidablePred PollResult.Valid := fun r => by
  unfold PollResult.Valid
  cases r <;> infer_instance

/-- The availability is already what the result makes of it. -/
def Settled (periods : Periods) (a : Availability) : PollResult → Prop
  | .success => a.errorsFrom = 0 ∧ a.available = hostAvailableTrue
  | .failure ts _ => a.errorsFrom ≠ 0 ∧ (Early periods a.errorsFrom ts ∨
      a.disableUntil = ts + periods.delay a.errorsFrom ts ∧
      (Late periods a.errorsFrom ts → a.available = hostAvailableFalse))

instance (periods : Periods) (a : Availability) (r : PollResult) :
    Decidable (Settled periods a r) := by
  unfold Settled
  cases r <;> infer_instance

theorem secondsSince_eq {ts first : ℤ} (hts : ValidTime ts) (hfirst : 0 ≤ first)
    (hfirst' : first < 2 ^ 31) :
  secondsSince ts first = ts - first
  := by
  obtain ⟨hpos, hlt⟩ := hts
  unfold secondsSince
  apply CInt.wrap_of_fits
  constructor <;> omega

theorem Documented.of_success {periods : Periods} {first : ℤ} {a a' : Availability}
    (herrors : a'.errorsFrom = 0) (havailable : a'.available = hostAvailableTrue) :
  Documented periods first a .success a'
  := by
  refine ⟨herrors, fun _ => havailable, ?_, ?_, ?_⟩ <;> (intro _ _ hr; contradiction)

theorem Documented.of_failure {periods : Periods} {first ts : ℤ} {error : String}
    {a a' : Availability} (herrors : a'.errorsFrom = if first = 0 then ts else first)
    (hearly : Early periods first ts → a' = a)
    (havailable : a'.available =
      if Late periods first ts then hostAvailableFalse else a.available)
    (hdisable : ¬ Early periods first ts → a'.disableUntil = ts + periods.delay first ts) :
  Documented periods first a (.failure ts error) a'
  := by
  constructor
  · exact herrors
  · intro hr
    contradiction
  · rintro _ _ ⟨⟩
    exact hearly
  · rintro _ _ ⟨⟩
    exact havailable
  · rintro _ _ ⟨⟩
    exact hdisable

/-- The end of the delay after a failure that counts is a number of `int`. -/
def DelayFits (periods : Periods) (a : Availability) : PollResult → Prop
  | .success => True
  | .failure ts _ => Early periods a.errorsFrom ts ∨
      CInt.Fits (ts + periods.delay a.errorsFrom ts)

instance (periods : Periods) (a : Availability) (r : PollResult) :
    Decidable (DelayFits periods a r) := by
  unfold DelayFits
  cases r <;> infer_instance

/-- What the code makes of the availability, where the end of the delay wraps. -/
theorem deactivated_eq (periods : Periods) {a : Availability} {ts : ℤ} (hts : ValidTime ts)
    (hfrom : 0 ≤ a.errorsFrom) (hfrom' : a.errorsFrom < 2 ^ 31) :
  deactivated periods ts a =
    if Early periods a.errorsFrom ts then a
    else
      { errorsFrom := if a.errorsFrom = 0 then ts else a.errorsFrom
        available := if Late periods a.errorsFrom ts then hostAvailableFalse else a.available
        disableUntil := CInt.wrap (ts + periods.delay a.errorsFrom ts) }
  := by
  unfold deactivated Periods.delay
  rw [secondsSince_eq hts hfrom hfrom']
  by_cases hzero : a.errorsFrom = 0
  · -- the first failure
    have hlate : ¬ Late periods a.errorsFrom ts := fun h => h.1 hzero
    have hearly : ¬ Early periods a.errorsFrom ts := fun h => h.1 hzero
    simp only [if_pos hzero, if_neg hlate, if_neg hearly]
  · rw [if_neg hzero]
    by_cases hdelay : periods.unreachableDelay ≤ ts - a.errorsFrom
    · have hearly : ¬ Early periods a.errorsFrom ts := fun h => not_le.mpr h.2 hdelay
      by_cases hperiod : periods.unreachablePeriod > ts - a.errorsFrom
      · -- the host is tried again
        have hlate : ¬ Late periods a.errorsFrom ts := fun h => not_le.mpr hperiod h.2.2
        simp only [if_pos hdelay, if_pos hperiod, if_neg hearly, if_neg hlate, if_neg hzero]
      · -- the host becomes unavailable
        have hlate : Late periods a.errorsFrom ts := ⟨hzero, hearly, not_lt.mp hperiod⟩
        simp only [if_pos hdelay, if_neg hperiod, if_neg hearly, if_pos hlate, if_neg hzero]
    · have hearly : Early periods a.errorsFrom ts := ⟨hzero, not_le.mp hdelay⟩
      rw [if_neg hdelay, if_pos hearly]

/-- The code makes of the availability what the machine says exactly when the end of the delay
fits. -/
theorem documented_next_iff (periods : Periods) (a : Availability) {r : PollResult}
    (hr : r.Valid) (hfrom : 0 ≤ a.errorsFrom) (hfrom' : a.errorsFrom < 2 ^ 31) :
  Documented periods a.errorsFrom a r (r.next periods a) ↔ DelayFits periods a r
  := by
  cases r with
  | success => exact iff_of_true (Documented.of_success rfl rfl) trivial
  | failure ts error =>
    change Documented periods a.errorsFrom a _ (deactivated periods ts a) ↔ _
    rw [deactivated_eq periods hr hfrom hfrom']
    by_cases hearly : Early periods a.errorsFrom ts
    · rw [if_pos hearly]
      refine iff_of_true ?_ (Or.inl hearly)
      apply Documented.of_failure
      · rw [if_neg hearly.1]
      · exact fun _ => rfl
      · rw [if_neg fun h => h.2.1 hearly]
      · intro h
        contradiction
    · rw [if_neg hearly]
      constructor
      · intro h
        right
        have hdisable := h.disableUntil ts error rfl hearly
        exact (CInt.wrap_eq_iff _).mp hdisable
      · intro hfits
        apply Documented.of_failure
        · rfl
        · intro h
          contradiction
        · rfl
        · intro _
          exact CInt.wrap_of_fits (hfits.resolve_left hearly)

/-- The machine leaves the availability exactly when it is settled. -/
theorem documented_self_iff (periods : Periods) (a : Availability) {r : PollResult}
    (hr : r.Valid) :
  Documented periods a.errorsFrom a r a ↔ Settled periods a r
  := by
  cases r with
  | success =>
    constructor
    · intro h
      exact ⟨h.errorsFrom, h.success rfl⟩
    · rintro ⟨herrors, havailable⟩
      exact Documented.of_success herrors havailable
  | failure ts error =>
    constructor
    · intro h
      have hne : a.errorsFrom ≠ 0 := by
        intro hzero
        have herrors := h.errorsFrom
        rw [failureTime, if_pos hzero, hzero] at herrors
        exact absurd herrors (ne_of_lt hr.1)
      refine ⟨hne, ?_⟩
      by_cases hearly : Early periods a.errorsFrom ts
      · exact Or.inl hearly
      · right
        refine ⟨h.disableUntil ts error rfl hearly, ?_⟩
        intro hlate
        have havailable := h.available ts error rfl
        rw [if_pos hlate] at havailable
        exact havailable
    · rintro ⟨hne, hsettled⟩
      apply Documented.of_failure
      · rw [if_neg hne]
      · exact fun _ => rfl
      · by_cases hlate : Late periods a.errorsFrom ts
        · obtain hearly | ⟨-, havailable⟩ := hsettled
          · exact absurd hearly hlate.2.1
          · rw [if_pos hlate]
            exact havailable hlate
        · rw [if_neg hlate]
      · intro hearly
        exact (hsettled.resolve_left hearly).1

/-! ### Sequences of results -/

/-- After each of the calls for one kind of a host the availability is what the machine
says. -/
def Follows (periods : Periods) (hostid : UInt64) (k : AvailabilityKind) :
    (first : ℤ) → HostState → List Call → Prop
  | _, _, [] => True
  | first, s, call :: calls =>
    (∃ a a', s.cached hostid k = some a ∧ (s.step periods call).cached hostid k = some a' ∧
      Documented periods first a call.result a') ∧
    Follows periods hostid k (failureTime first call.result) (s.step periods call) calls

/-- A call either gets past the first tests, and the end of the delay fits, or it has nothing to
change. -/
def Counts (periods : Periods) (hostid : UInt64) (k : AvailabilityKind) (s : HostState)
    (call : Call) : Prop :=
  if call.Proceeds periods k then ∀ a ∈ s.cached hostid k, DelayFits periods a call.result
  else ∀ a ∈ s.cached hostid k, Settled periods a call.result

instance (periods : Periods) (hostid : UInt64) (k : AvailabilityKind) (s : HostState)
    (call : Call) : Decidable (Counts periods hostid k s call) :=
  inferInstanceAs (Decidable (ite _ (∀ a ∈ s.cached hostid k, _) (∀ a ∈ s.cached hostid k, _)))

theorem failureTime_range {first : ℤ} {r : PollResult} (hr : r.Valid) (hfirst : 0 ≤ first)
    (hfirst' : first < 2 ^ 31) :
  0 ≤ failureTime first r ∧ failureTime first r < 2 ^ 31
  := by
  cases r with
  | success =>
    constructor
    · exact le_rfl
    · change (0 : ℤ) < 2 ^ 31
      decide
  | failure ts error =>
    obtain ⟨hpos, hlt⟩ := hr
    unfold failureTime
    dsimp only
    split
    · exact ⟨hpos.le, hlt⟩
    · exact ⟨hfirst, hfirst'⟩

/-- The availability follows the machine if and only if every call counts. -/
theorem follows_iff (periods : Periods) {hostid : UInt64} {k : AvailabilityKind}
    {calls : List Call} {s : HostState} {a : Availability}
    (hcalls : ∀ call ∈ calls, call.hostid = hostid ∧ call.type.kind = some k ∧
      call.result.Valid)
    (ha : s.cached hostid k = some a) (hfrom : 0 ≤ a.errorsFrom)
    (hfrom' : a.errorsFrom < 2 ^ 31) :
  Follows periods hostid k a.errorsFrom s calls ↔
    MeetsAll (fun s call => some (s.step periods call)) (Counts periods hostid k) s calls
  := by
  induction calls generalizing s a with
  | nil => exact Iff.rfl
  | cons call calls ih =>
    obtain ⟨hid, hk, hvalid⟩ := hcalls call List.mem_cons_self
    have hstep := s.cached_step periods call hk
    rw [hid, ha, Option.map_some] at hstep
    generalize ha' : (if call.Proceeds periods k then call.result.next periods a else a) = a'
      at hstep
    have hcounts : Documented periods a.errorsFrom a call.result a' ↔
        Counts periods hostid k s call := by
      unfold Counts
      by_cases hproceeds : call.Proceeds periods k
      · rw [if_pos hproceeds] at ha'
        rw [← ha', documented_next_iff periods a hvalid hfrom hfrom', if_pos hproceeds, ha]
        simp
      · rw [if_neg hproceeds] at ha'
        rw [← ha', documented_self_iff periods a hvalid, if_neg hproceeds, ha]
        simp
    have hrest : Documented periods a.errorsFrom a call.result a' →
        (Follows periods hostid k (failureTime a.errorsFrom call.result) (s.step periods call)
            calls ↔
          MeetsAll (fun s call => some (s.step periods call)) (Counts periods hostid k)
            (s.step periods call) calls) := by
      intro hdoc
      obtain ⟨hlow, hhigh⟩ := failureTime_range hvalid hfrom hfrom'
      rw [← hdoc.errorsFrom] at hlow hhigh ⊢
      exact ih (fun call' hmem => hcalls call' (List.mem_cons_of_mem _ hmem)) hstep hlow hhigh
    constructor
    · rintro ⟨⟨b, b', hb, hb', hdoc⟩, hfollows⟩
      obtain rfl : a = b := Option.some.inj (ha.symm.trans hb)
      obtain rfl : a' = b' := Option.some.inj (hstep.symm.trans hb')
      refine ⟨hcounts.mp hdoc, ?_⟩
      rintro _ ⟨⟩
      exact (hrest hdoc).mp hfollows
    · rintro ⟨hcount, hmeets⟩
      have hdoc := hcounts.mpr hcount
      exact ⟨⟨a, a', ha, hstep, hdoc⟩, (hrest hdoc).mpr (hmeets _ rfl)⟩

/-! ### A failure that counts and one that does not -/

def samplePeriods : Periods := ⟨15, 45, 60⟩

/-- A host without errors. -/
def reachableHost : Host where
  maintenanceStatus := 0
  maintenanceType := 0
  maintenanceFrom := 0
  agent := ⟨0, hostAvailableTrue, 0⟩
  snmp := ⟨0, hostAvailableTrue, 0⟩
  ipmi := ⟨0, hostAvailableTrue, 0⟩
  jmx := ⟨0, hostAvailableTrue, 0⟩
  proxyHostid := 0
  host := "host"
  name := "host"
  dataExpectedFrom := 0
  status := 0

/-- The cache and the database with one host without errors. -/
def reachableState : HostState where
  hosts := Table.empty.set 10 reachableHost
  db := Table.empty.set 10 fun column =>
    if column = "available" ∨ column = "snmp_available" ∨ column = "ipmi_available" ∨
        column = "jmx_available" then .int 1
    else if column = "error" ∨ column = "snmp_error" ∨ column = "ipmi_error" ∨
        column = "jmx_error" then .text ""
    else .int 0

/-- A failed check of an item of the host, with the time that is left in the structure. -/
def failedCall (type : ItemType) (ts garbage : ℤ) : Call where
  hostid := 10
  host := reachableHost
  type
  result := .failure ts "timeout"
  garbage := { errorsFrom := garbage, available := 0, disableUntil := 0, hostid := 0, type := type }

/-- Over clean structures three failures make the host unavailable. -/
theorem clean_follows :
  Follows samplePeriods 10 .agent 0 reachableState
    [failedCall .zabbix 1000 0, failedCall .zabbix 1020 0, failedCall .zabbix 1060 0]
  := by
  have ha : reachableState.cached 10 .agent = some ⟨0, hostAvailableTrue, 0⟩ := by decide
  apply (follows_iff samplePeriods _ ha _ _).mpr <;> decide

/-- The first failure is ignored when the structure has the time of the failure in it. -/
theorem garbage_not_follows :
  ¬ Follows samplePeriods 10 .agent 0 reachableState [failedCall .zabbix 1000 1000]
  := by
  rintro ⟨⟨a, a', -, ha', hdoc⟩, -⟩
  have hsame : (reachableState.step samplePeriods (failedCall .zabbix 1000 1000)).cached 10 .agent =
      some ⟨0, hostAvailableTrue, 0⟩ := by decide
  obtain rfl := Option.some.inj (hsame.symm.trans ha')
  exact absurd hdoc.errorsFrom (by decide)

end DbConfig
