import Mathlib.Data.Prod.Lex
import Mathlib.Order.Lattice
import Mathlib.Tactic.Common

/-!
# History records

Time stamps with nanosecond resolution, compared second first, and the history records
of an item. A record carries a value of any type: the functions of the value cache copy
values and never look into them.
-/

namespace ValueCache

/-- A time stamp. -/
structure Timespec where
  sec : ℤ
  ns : ℤ
deriving DecidableEq, Repr

/-- `zbx_timespec_compare`: negative, zero or positive like the order of the stamps. -/
def timespecCompare (t₁ t₂ : Timespec) : ℤ :=
  if t₁.sec = t₂.sec then t₁.ns - t₂.ns else t₁.sec - t₂.sec

namespace Timespec

/-- The stamp as a pair ordered lexicographically. -/
def toPair (t : Timespec) : ℤ ×ₗ ℤ := toLex (t.sec, t.ns)

theorem toPair_injective :
  Function.Injective toPair
  := by
  rintro ⟨s₁, n₁⟩ ⟨s₂, n₂⟩ h
  simpa [toPair] using h

instance : LinearOrder Timespec :=
  LinearOrder.lift' toPair toPair_injective

theorem le_iff {t₁ t₂ : Timespec} :
  t₁ ≤ t₂ ↔ t₁.sec < t₂.sec ∨ t₁.sec = t₂.sec ∧ t₁.ns ≤ t₂.ns
  := by
  change toPair t₁ ≤ toPair t₂ ↔ _
  rw [toPair, toPair, Prod.Lex.toLex_le_toLex]

theorem lt_iff {t₁ t₂ : Timespec} :
  t₁ < t₂ ↔ t₁.sec < t₂.sec ∨ t₁.sec = t₂.sec ∧ t₁.ns < t₂.ns
  := by
  change toPair t₁ < toPair t₂ ↔ _
  rw [toPair, toPair, Prod.Lex.toLex_lt_toLex]

theorem sec_le {t₁ t₂ : Timespec} (h : t₁ ≤ t₂) :
  t₁.sec ≤ t₂.sec
  := by
  rw [le_iff] at h
  omega

theorem lt_of_sec_lt {t₁ t₂ : Timespec} (h : t₁.sec < t₂.sec) :
  t₁ < t₂
  := lt_iff.mpr (Or.inl h)

end Timespec

theorem timespecCompare_pos {t₁ t₂ : Timespec} :
  0 < timespecCompare t₁ t₂ ↔ t₂ < t₁
  := by
  rw [Timespec.lt_iff, timespecCompare]
  split <;> omega

/-- A history record: a value and its time stamp. -/
structure Record (V : Type*) where
  timestamp : Timespec
  value : V
deriving DecidableEq, Repr

variable {V : Type*}

/-- `vc_history_record_compare_asc_func`. -/
def recordCompareAsc (d₁ d₂ : Record V) : ℤ :=
  timespecCompare d₁.timestamp d₂.timestamp

/-- The second of a record. -/
abbrev Record.sec (r : Record V) : ℤ := r.timestamp.sec

/-- The list is in ascending order of time. -/
def Ascending (l : List (Record V)) : Prop :=
  l.Pairwise fun a b => a.timestamp ≤ b.timestamp

/-- The list is in descending order of time. -/
def Descending (l : List (Record V)) : Prop :=
  l.Pairwise fun a b => b.timestamp ≤ a.timestamp

theorem descending_reverse {l : List (Record V)} :
  Descending l.reverse ↔ Ascending l
  := List.pairwise_reverse

/-- `VC_MAX_NANOSECONDS`. -/
def maxNanoseconds : ℤ := 999999999

/-- `SEC_PER_MIN`, `SEC_PER_HOUR`, `SEC_PER_DAY`, `SEC_PER_WEEK`, `SEC_PER_MONTH`. -/
def secPerMin : ℤ := 60
def secPerHour : ℤ := 3600
def secPerDay : ℤ := 86400
def secPerWeek : ℤ := 7 * secPerDay
def secPerMonth : ℤ := 30 * secPerDay

end ValueCache
