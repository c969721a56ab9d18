import Mathlib.Algebra.GroupWithZero.Nat
import Zabbix.Library.RunLength
import Zabbix.ValueCache.Record

/-!
# Unique time stamps

`zbx_timespec` reads the clock. When the clock says the same as at the last call, the time
stamp is corrected by as many nanoseconds as there have been such calls; when the clock has
moved, the count starts again.

The numbers of the time stamps are of type `int`, and seconds of the clock are converted to
it. A sum that an `int` cannot hold has no result.
-/

namespace Timestamps

open ValueCache RunLength

/-- The greatest number of type `int`. -/
def intMax : ℤ := 2147483647

/-- The conversion of a number of 64 bits to `int`. -/
def toInt (n : ℤ) : ℤ := n.bmod (2 ^ 32)

/-- What the clock says, by the function that is asked: `clock_gettime`, or `gettimeofday` when
it is not there or fails, or `time` when both fail. -/
inductive Reading
  | clockGettime (tvSec : ℤ) (tvNsec : Fin 1000000000)
  | gettimeofday (tvSec : ℤ) (tvUsec : Fin 1000000)
  | time (sec : ℤ)
deriving DecidableEq

/-- The time in nanoseconds. -/
def Reading.nanoseconds : Reading → ℤ
  | clockGettime tvSec tvNsec => tvSec * 1000000000 + tvNsec.val
  | gettimeofday tvSec tvUsec => tvSec * 1000000000 + tvUsec.val * 1000
  | time sec => sec * 1000000000

/-- The time stamp before it is corrected. -/
def Reading.timespec : Reading → Timespec
  | clockGettime tvSec tvNsec => ⟨toInt tvSec, tvNsec.val⟩
  | gettimeofday tvSec tvUsec => ⟨toInt tvSec, tvUsec.val * 1000⟩
  | time sec => ⟨toInt sec, 0⟩

/-- The static variables `last_ts` and `corr` of `zbx_timespec`. -/
structure State where
  lastTs : Timespec
  corr : ℤ

/-- The variables before the first call. -/
def State.start : State := ⟨⟨0, 0⟩, 0⟩

/-- The loop of `zbx_timespec` that moves whole seconds from `ns` to `sec`. -/
def carrySeconds (ts : Timespec) : Option Timespec :=
  if 1000000000 ≤ ts.ns then
    if ts.sec = intMax then none else carrySeconds ⟨ts.sec + 1, ts.ns - 1000000000⟩
  else some ts
termination_by ts.ns.toNat
decreasing_by omega

/-- `zbx_timespec`: the time stamp and the variables behind the call. -/
def zbxTimespec (s : State) (reading : Reading) : Option (Timespec × State) :=
  let ts := reading.timespec
  if s.lastTs.ns = ts.ns ∧ s.lastTs.sec = ts.sec then
    let corr := s.corr + 1
    if intMax < corr ∨ intMax < ts.ns + corr then none
    else (carrySeconds ⟨ts.sec, ts.ns + corr⟩).map fun ts => (ts, { s with corr := corr })
  else some (ts, ⟨ts, 0⟩)

/-- The time stamps of successive calls. -/
def timestamps (s : State) : List Reading → Option (List Timespec)
  | [] => some []
  | reading :: readings => do
    let (ts, s) ← zbxTimespec s reading
    let rest ← timestamps s readings
    some (ts :: rest)

/-- The calls return, the time stamps increase, and their nanoseconds are less than a second. -/
def Unique (readings : List Reading) : Prop :=
  ∃ stamps, timestamps .start readings = some stamps ∧ stamps.Pairwise (· < ·) ∧
    ∀ ts ∈ stamps, 0 ≤ ts.ns ∧ ts.ns ≤ 999999999

/-! ### The condition on the readings -/

/-- A time stamp in nanoseconds. -/
def total (ts : Timespec) : ℤ := ts.sec * 1000000000 + ts.ns

/-- What the clock says, as time stamps. The variables are zero before the first call, so that
a first reading of zero counts as a repeated one. -/
def counted (readings : List Reading) : List Timespec :=
  let stamps := readings.map Reading.timespec
  if stamps.head? = some ⟨0, 0⟩ then ⟨0, 0⟩ :: stamps else stamps

/-- The time that follows comes after the nanoseconds added to a time for its repetitions. -/
def MovesOn (run next : Timespec × ℕ) : Prop := total run.1 + run.2 < total next.1

instance : DecidableRel MovesOn := fun _ _ => inferInstanceAs (Decidable (_ < _))

/-- The last time stamp of a run can be computed with numbers of type `int`. -/
def FitsInt (run : Timespec × ℕ) : Prop :=
  run.1.ns + run.2 ≤ intMax ∧ run.1.sec + (run.1.ns + run.2) / 1000000000 ≤ intMax

instance : DecidablePred FitsInt := fun _ => inferInstanceAs (Decidable (_ ∧ _))

/-- Each time the clock moves, it moves by more nanoseconds than it has said the same before,
and it does not say the same too often for an `int`. -/
def KeepsUp (readings : List Reading) : Prop :=
  (runs (counted readings)).IsChain MovesOn ∧ ∀ run ∈ runs (counted readings), FitsInt run

instance (readings : List Reading) : Decidable (KeepsUp readings) :=
  inferInstanceAs (Decidable (_ ∧ _))

/-! ### One call -/

theorem total_lt_total {t t' : Timespec} (ht : 0 ≤ t.ns ∧ t.ns ≤ 999999999)
    (ht' : 0 ≤ t'.ns ∧ t'.ns ≤ 999999999) :
  t < t' ↔ total t < total t'
  := by
  rw [Timespec.lt_iff, total, total]
  omega

/-- The loop ends with less than a second of nanoseconds, and has no result exactly when the
seconds become too many. -/
theorem carrySeconds_spec {ts : Timespec} (hns : 0 ≤ ts.ns) (hsec : ts.sec ≤ intMax) :
  (ts.sec + ts.ns / 1000000000 ≤ intMax →
    ∃ ts', carrySeconds ts = some ts' ∧ total ts' = total ts ∧ 0 ≤ ts'.ns ∧ ts'.ns ≤ 999999999) ∧
  (intMax < ts.sec + ts.ns / 1000000000 → carrySeconds ts = none)
  := by
  induction ts using carrySeconds.induct with
  | case1 ts hge hmax =>
    rw [carrySeconds, if_pos hge, if_pos hmax]
    refine ⟨fun hle => absurd hle ?_, fun _ => rfl⟩
    omega
  | case2 ts hge hmax ih =>
    rw [carrySeconds, if_pos hge, if_neg hmax]
    have hnext : (ts.ns - 1000000000) / 1000000000 = ts.ns / 1000000000 - 1 := by omega
    have hroom : ts.sec + 1 ≤ intMax := Int.add_one_le_of_lt (lt_of_le_of_ne hsec hmax)
    obtain ⟨hfits, hover⟩ := ih (Int.sub_nonneg_of_le hge) hroom
    dsimp only at hfits hover
    rw [hnext] at hfits hover
    refine ⟨fun hle => ?_, fun hlt => hover (by omega)⟩
    obtain ⟨ts', hcarry, htotal, hrange⟩ := hfits (by omega)
    refine ⟨ts', hcarry, ?_, hrange⟩
    rw [htotal, total, total]
    dsimp only
    omega
  | case3 ts hlt =>
    rw [carrySeconds, if_neg hlt]
    exact ⟨fun _ => ⟨ts, rfl, rfl, hns, by omega⟩, fun hover => by omega⟩

/-- What a reading is converted to: an `int` and less than a second of nanoseconds. -/
theorem timespec_range (reading : Reading) :
  reading.timespec.sec ≤ intMax ∧ 0 ≤ reading.timespec.ns ∧ reading.timespec.ns ≤ 999999999
  := by
  have hint : ∀ n, toInt n ≤ intMax := by
    intro n
    have hlt := Int.bmod_lt (x := n) (m := 2 ^ 32) (by decide)
    unfold toInt intMax
    omega
  cases reading with
  | clockGettime tvSec tvNsec =>
    have hlt := tvNsec.isLt
    exact ⟨hint tvSec, by dsimp only [Reading.timespec]; omega,
      by dsimp only [Reading.timespec]; omega⟩
  | gettimeofday tvSec tvUsec =>
    have hlt := tvUsec.isLt
    exact ⟨hint tvSec, by dsimp only [Reading.timespec]; omega,
      by dsimp only [Reading.timespec]; omega⟩
  | time sec => exact ⟨hint sec, le_rfl, show (0 : ℤ) ≤ 999999999 by decide⟩

/-- A call with the reading of the last one. -/
theorem zbxTimespec_same {t : Timespec} (m : ℕ) {reading : Reading}
    (h : reading.timespec = t) :
  (FitsInt (t, m + 1) →
    ∃ ts, zbxTimespec ⟨t, m⟩ reading = some (ts, ⟨t, (m + 1 : ℕ)⟩) ∧
      total ts = total t + (m + 1 : ℕ) ∧ 0 ≤ ts.ns ∧ ts.ns ≤ 999999999) ∧
  (¬ FitsInt (t, m + 1) → zbxTimespec ⟨t, m⟩ reading = none)
  := by
  obtain ⟨hsec, hns, -⟩ := timespec_range reading
  rw [h] at hsec hns
  have hcount : 0 ≤ (⟨t.sec, t.ns + (m + 1 : ℕ)⟩ : Timespec).ns := by
    dsimp only
    omega
  have hcarry := carrySeconds_spec hcount hsec
  obtain ⟨hfits, hover⟩ := hcarry
  rw [zbxTimespec, h, if_pos ⟨rfl, rfl⟩]
  unfold FitsInt
  dsimp only at hfits hover ⊢
  push_cast at hfits hover ⊢
  refine ⟨fun hint => ?_, fun hint => ?_⟩
  · obtain ⟨ts, hsome, htotal, hrange⟩ := hfits hint.2
    refine ⟨ts, ?_, ?_, hrange⟩
    · rw [if_neg (by omega), hsome]
      rfl
    · rw [htotal, total, total]
      dsimp only
      omega
  · split_ifs with hmax
    · rfl
    · rw [hover (by omega)]
      rfl

/-- A call with another reading than the last one. -/
theorem zbxTimespec_moved {t : Timespec} (m : ℕ) {reading : Reading}
    (h : reading.timespec ≠ t) :
  zbxTimespec ⟨t, m⟩ reading = some (reading.timespec, ⟨reading.timespec, (0 : ℕ)⟩)
  := by
  refine if_neg fun hsame => h ?_
  obtain ⟨hns, hsec⟩ := hsame
  cases t
  exact (Timespec.mk.injEq ..).mpr ⟨hsec.symm, hns.symm⟩

/-! ### All calls -/

/-- The time stamps increase, and all of them come after `n` nanoseconds. -/
structure Above (n : ℤ) (stamps : List Timespec) : Prop where
  increasing : stamps.Pairwise (· < ·)
  above : ∀ ts ∈ stamps, n < total ts
  range : ∀ ts ∈ stamps, 0 ≤ ts.ns ∧ ts.ns ≤ 999999999

theorem above_cons_iff {n : ℤ} {ts : Timespec} {stamps : List Timespec}
    (hrange : 0 ≤ ts.ns ∧ ts.ns ≤ 999999999) :
  Above n (ts :: stamps) ↔ n < total ts ∧ Above (total ts) stamps
  := by
  constructor
  · rintro ⟨hincreasing, habove, hall⟩
    obtain ⟨hfirst, hincreasing⟩ := List.pairwise_cons.mp hincreasing
    refine ⟨habove ts List.mem_cons_self, hincreasing, fun ts' hts' => ?_,
      fun ts' hts' => hall ts' (List.mem_cons_of_mem _ hts')⟩
    exact (total_lt_total hrange (hall ts' (List.mem_cons_of_mem _ hts'))).mp (hfirst ts' hts')
  · rintro ⟨hlt, hincreasing, habove, hall⟩
    refine ⟨List.pairwise_cons.mpr ⟨fun ts' hts' => ?_, hincreasing⟩, fun ts' hts' => ?_,
      List.forall_mem_cons.mpr ⟨hrange, hall⟩⟩
    · exact (total_lt_total hrange (hall ts' hts')).mpr (habove ts' hts')
    · obtain rfl | hts' := List.mem_cons.mp hts'
      · exact hlt
      · exact hlt.trans (habove ts' hts')

/-- The calls that begin with one that returns. -/
theorem timestamps_cons_iff {s s' : State} {reading : Reading} {ts : Timespec}
    (hcall : zbxTimespec s reading = some (ts, s')) (hrange : 0 ≤ ts.ns ∧ ts.ns ≤ 999999999)
    (readings : List Reading) (n : ℤ) :
  (∃ stamps, timestamps s (reading :: readings) = some stamps ∧ Above n stamps) ↔
    n < total ts ∧ ∃ stamps, timestamps s' readings = some stamps ∧ Above (total ts) stamps
  := by
  rw [timestamps, hcall]
  simp only [Option.bind_eq_bind, Option.bind_some]
  constructor
  · rintro ⟨stamps, hrun, habove⟩
    obtain ⟨rest, hrest, heq⟩ := Option.bind_eq_some_iff.mp hrun
    obtain rfl := Option.some.inj heq
    obtain ⟨hlt, habove⟩ := (above_cons_iff hrange).mp habove
    exact ⟨hlt, rest, hrest, habove⟩
  · rintro ⟨hlt, rest, hrest, habove⟩
    refine ⟨ts :: rest, Option.bind_eq_some_iff.mpr ⟨rest, hrest, rfl⟩, ?_⟩
    exact (above_cons_iff hrange).mpr ⟨hlt, habove⟩

theorem FitsInt.mono {t : Timespec} {m k : ℕ} (hk : m ≤ k) (h : FitsInt (t, k)) :
  FitsInt (t, m)
  := by
  unfold FitsInt at h ⊢
  dsimp only at h ⊢
  omega

/-- The calls that come when the reading `t` has been repeated `m` times. -/
theorem timestamps_iff (readings : List Reading) {t : Timespec} {m : ℕ}
    (hfits : FitsInt (t, m)) :
  (∃ stamps, timestamps ⟨t, m⟩ readings = some stamps ∧ Above (total t + m) stamps) ↔
    (runs (List.replicate (m + 1) t ++ readings.map Reading.timespec)).IsChain MovesOn ∧
      ∀ run ∈ runs (List.replicate (m + 1) t ++ readings.map Reading.timespec), FitsInt run
  := by
  induction readings generalizing t m with
  | nil =>
    rw [List.map_nil, List.append_nil, runs_replicate]
    refine ⟨fun _ => ⟨List.IsChain.singleton _, by simpa using hfits⟩, fun _ => ?_⟩
    exact ⟨[], rfl, List.Pairwise.nil, by simp, by simp⟩
  | cons reading readings ih =>
    rw [List.map_cons]
    by_cases hsame : reading.timespec = t
    · have hlist : List.replicate (m + 1) t ++ reading.timespec :: readings.map Reading.timespec
          = List.replicate (m + 1 + 1) t ++ readings.map Reading.timespec := by
        rw [hsame, List.replicate_succ' (n := m + 1), List.append_assoc]
        rfl
      obtain ⟨hreturns, hnone⟩ := zbxTimespec_same m hsame
      rw [hlist]
      by_cases hnext : FitsInt (t, m + 1)
      · obtain ⟨ts, hcall, htotal, hrange⟩ := hreturns hnext
        have hlt : total t + m < total ts := by
          rw [htotal]
          push_cast
          omega
        rw [timestamps_cons_iff hcall hrange, ← ih hnext, htotal]
        rw [htotal] at hlt
        exact and_iff_right hlt
      · rw [timestamps, hnone hnext]
        constructor
        · rintro ⟨stamps, hrun, -⟩
          cases hrun
        · rintro ⟨-, hall⟩
          obtain ⟨k, rest, hruns, hk⟩ :=
            exists_runs_replicate_append t (m + 1) (readings.map Reading.timespec)
          rw [hruns] at hall
          exact absurd ((hall _ List.mem_cons_self).mono hk) hnext
    · obtain ⟨hsec, hrange⟩ := timespec_range reading
      have hstart : FitsInt (reading.timespec, 0) := by
        unfold FitsInt intMax at *
        dsimp only
        omega
      have hrest := ih hstart
      rw [List.replicate_one, List.singleton_append, Int.natCast_zero, Int.add_zero] at hrest
      rw [timestamps_cons_iff (zbxTimespec_moved m hsame) hrange, Int.natCast_zero, hrest,
        runs_replicate_append (Ne.symm hsame)]
      obtain ⟨k, rest, hruns⟩ :=
        exists_runs_cons reading.timespec (readings.map Reading.timespec)
      rw [hruns, List.isChain_cons_cons, List.forall_mem_cons (a := (t, m))]
      exact ⟨fun ⟨hlt, hchain, hall⟩ => ⟨⟨hlt, hchain⟩, hfits, hall⟩,
        fun ⟨⟨hlt, hchain⟩, _, hall⟩ => ⟨hlt, hchain, hall⟩⟩

theorem unique_cons_iff {s' : State} {reading : Reading} {ts : Timespec}
    (hcall : zbxTimespec .start reading = some (ts, s')) (hrange : 0 ≤ ts.ns ∧ ts.ns ≤ 999999999)
    (readings : List Reading) :
  Unique (reading :: readings) ↔
    ∃ stamps, timestamps s' readings = some stamps ∧ Above (total ts) stamps
  := by
  have hall := timestamps_cons_iff hcall hrange readings
  constructor
  · rintro ⟨stamps, hrun, hincreasing, hns⟩
    have hfirst : ∃ rest, stamps = ts :: rest := by
      rw [timestamps, hcall] at hrun
      simp only [Option.bind_eq_bind, Option.bind_some] at hrun
      obtain ⟨rest, -, heq⟩ := Option.bind_eq_some_iff.mp hrun
      exact ⟨rest, (Option.some.inj heq).symm⟩
    obtain ⟨rest, rfl⟩ := hfirst
    refine ((hall (total ts - 1)).mp ⟨_, hrun, hincreasing, ?_, hns⟩).2
    obtain ⟨hlater, -⟩ := List.pairwise_cons.mp hincreasing
    intro ts' hts'
    obtain rfl | hts' := List.mem_cons.mp hts'
    · exact Int.sub_one_lt_of_le le_rfl
    · have hlt := (total_lt_total hrange (hns ts' (List.mem_cons_of_mem _ hts'))).mp
        (hlater ts' hts')
      omega
  · intro hrest
    obtain ⟨stamps, hrun, habove⟩ :=
      (hall (total ts - 1)).mpr ⟨Int.sub_one_lt_of_le le_rfl, hrest⟩
    exact ⟨stamps, hrun, habove.increasing, habove.range⟩

/-- The time stamps of all calls are different and come in order, with less than a second of
nanoseconds, exactly when the clock keeps up with the corrections. -/
theorem unique_iff (readings : List Reading) :
  Unique readings ↔ KeepsUp readings
  := by
  unfold KeepsUp counted
  cases readings with
  | nil =>
    exact iff_of_true ⟨[], rfl, List.Pairwise.nil, by simp⟩ ⟨List.IsChain.nil, by simp [runs]⟩
  | cons reading readings =>
    dsimp only
    rw [List.map_cons, List.head?_cons]
    split_ifs with hzero
    · have hzero := Option.some.inj hzero
      have hfits : FitsInt (⟨0, 0⟩, 1) := by decide
      obtain ⟨ts, hcall, htotal, hrange⟩ := (zbxTimespec_same 0 hzero).1 hfits
      rw [unique_cons_iff hcall hrange, htotal, hzero]
      exact timestamps_iff readings hfits
    · obtain ⟨hsec, hrange⟩ := timespec_range reading
      have hfits : FitsInt (reading.timespec, 0) := by
        unfold FitsInt intMax at *
        dsimp only
        omega
      have hmoved : reading.timespec ≠ ⟨0, 0⟩ := fun h => hzero (congrArg some h)
      have hrest := timestamps_iff readings hfits
      rw [Int.natCast_zero, Int.add_zero] at hrest
      rw [unique_cons_iff (zbxTimespec_moved 0 hmoved) hrange]
      exact hrest

/-- The clock says the same twice and then moves by one nanosecond; or it counts microseconds
and says the same a thousand times and once more before it moves. -/
theorem unique_fails :
  let nanoseconds : List Reading :=
    [.clockGettime 1 0, .clockGettime 1 0, .clockGettime 1 1]
  let microseconds : List Reading :=
    List.replicate 1001 (.gettimeofday 1 0) ++ [.gettimeofday 1 1]
  ((nanoseconds.map Reading.nanoseconds).Pairwise (· ≤ ·) ∧
    timestamps .start nanoseconds = some [⟨1, 0⟩, ⟨1, 1⟩, ⟨1, 1⟩] ∧ ¬ Unique nanoseconds) ∧
  (microseconds.map Reading.nanoseconds).Pairwise (· ≤ ·) ∧ ¬ Unique microseconds
  := by
  have hcarry : carrySeconds ⟨1, 1⟩ = some ⟨1, 1⟩ := by
    rw [carrySeconds]
    exact if_neg (by decide)
  have htimestamps : timestamps .start
      [.clockGettime 1 0, .clockGettime 1 0, .clockGettime 1 1]
      = some [⟨1, 0⟩, ⟨1, 1⟩, ⟨1, 1⟩] := by
    have hsec : toInt 1 = 1 := by decide
    simp [timestamps, zbxTimespec, Reading.timespec, State.start, hsec, hcarry, intMax]
  refine ⟨⟨by decide, htimestamps, ?_⟩, by decide +kernel, ?_⟩
  · rw [unique_iff]
    decide
  · rw [unique_iff]
    decide +kernel

end Timestamps
