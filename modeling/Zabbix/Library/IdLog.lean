import Mathlib.Data.List.Basic
import Mathlib.Tactic.Common

/-!
# Logs that are read by id

A log is a list of records with increasing ids to which records are added while it is
read. A reader asks for the records above an id, at most so many of them. A record that
is there stays, but between two ids that are not consecutive a record may still appear.

Up to the first gap the records a reader has seen are those it will see (`select_append`).
-/

/-- A list of records with increasing ids. -/
structure IdLog (ρ : Type*) (idOf : ρ → ℕ) where
  records : List ρ
  sorted : records.Pairwise fun x y => idOf x < idOf y

namespace IdLog

variable {ρ : Type*} {idOf : ρ → ℕ}

/-- The first records above an id. -/
def select (log : IdLog ρ idOf) (id limit : ℕ) : List ρ :=
  (log.records.filter fun x => id < idOf x).take limit

/-- One of the records does not have the id that follows the one before it. -/
def HasGap (idOf : ρ → ℕ) : ℕ → List ρ → Prop
  | _, [] => False
  | id, x :: records => 1 < idOf x - id ∨ HasGap idOf (idOf x) records

instance HasGap.decidable (idOf : ρ → ℕ) : ∀ id records, Decidable (HasGap idOf id records)
  | _, [] => inferInstanceAs (Decidable False)
  | _, x :: records =>
    have := HasGap.decidable idOf (idOf x) records
    inferInstanceAs (Decidable (_ ∨ _))

/-- The id of the last record, or the given one. -/
def lastId (idOf : ρ → ℕ) (id : ℕ) (records : List ρ) : ℕ :=
  records.getLast?.elim id idOf

@[simp]
theorem lastId_nil (id : ℕ) :
  lastId idOf id [] = id
  := rfl

@[simp]
theorem lastId_cons (id : ℕ) (x : ρ) (records : List ρ) :
  lastId idOf id (x :: records) = lastId idOf (idOf x) records
  := by
  unfold lastId
  rw [List.getLast?_cons]
  cases records.getLast? <;> rfl

theorem lastId_append (id : ℕ) (records records' : List ρ) :
  lastId idOf id (records ++ records') = lastId idOf (lastId idOf id records) records'
  := by
  induction records generalizing id with
  | nil => rfl
  | cons x records ih => rw [List.cons_append, lastId_cons, lastId_cons, ih]

variable {log : IdLog ρ idOf} {id limit : ℕ}

theorem select_sorted :
  (log.select id limit).Pairwise fun x y => idOf x < idOf y
  := (log.sorted.filter _).take

theorem lt_of_mem_select {x : ρ} (hx : x ∈ log.select id limit) :
  id < idOf x
  := by
  have hfilter := List.mem_of_mem_take hx
  simpa using (List.mem_filter.mp hfilter).2

theorem mem_of_mem_select {x : ρ} (hx : x ∈ log.select id limit) :
  x ∈ log.records
  := (List.mem_filter.mp (List.mem_of_mem_take hx)).1

/-- A record with the next id comes first. -/
theorem filter_eq_cons {records : List ρ}
    (hsorted : records.Pairwise fun x y => idOf x < idOf y) {x : ρ} (hx : x ∈ records)
    (hid : idOf x = id + 1) :
  records.filter (fun y => id < idOf y) = x :: records.filter fun y => idOf x < idOf y
  := by
  induction records with
  | nil => contradiction
  | cons y records ih =>
    obtain ⟨hy, hsorted⟩ := List.pairwise_cons.mp hsorted
    obtain rfl | hx := List.mem_cons.mp hx
    · have hall : ∀ z ∈ records, idOf x < idOf z := hy
      rw [List.filter_cons_of_pos (by simp [hid]), List.filter_cons_of_neg (by simp),
        List.filter_eq_self.mpr (by intro z hz; have := hall z hz; simp; omega),
        List.filter_eq_self.mpr (by simpa using hall)]
    · have hlt := hy x hx
      rw [List.filter_cons_of_neg (by simp; omega), List.filter_cons_of_neg (by simp; omega),
        ih hsorted hx]

/-- The records up to the first gap come first in every log that has them. -/
theorem filter_eq_append {records : List ρ}
    (hsorted : records.Pairwise fun x y => idOf x < idOf y) {pre : List ρ}
    (hpre : pre.Pairwise fun x y => idOf x < idOf y) (habove : ∀ x ∈ pre, id < idOf x)
    (hgap : ¬ HasGap idOf id pre) (hsub : pre ⊆ records) :
  records.filter (fun y => id < idOf y) =
    pre ++ records.filter fun y => lastId idOf id pre < idOf y
  := by
  induction pre generalizing id with
  | nil => rfl
  | cons x pre ih =>
    obtain ⟨hx, hpre⟩ := List.pairwise_cons.mp hpre
    obtain ⟨hstep, hgap⟩ := not_or.mp hgap
    have hid : idOf x = id + 1 := by
      have := habove x List.mem_cons_self
      omega
    rw [filter_eq_cons hsorted (hsub List.mem_cons_self) hid, lastId_cons, List.cons_append,
      ih hpre hx hgap (List.subset_of_cons_subset hsub)]

/-- A reader that asks for the rest after the first gap has what it would get by asking
again from the start. -/
theorem select_append {pre : List ρ} (hpre : pre.Pairwise fun x y => idOf x < idOf y)
    (habove : ∀ x ∈ pre, id < idOf x) (hgap : ¬ HasGap idOf id pre)
    (hsub : pre ⊆ log.records) (hlimit : pre.length ≤ limit) :
  log.select id limit = pre ++ log.select (lastId idOf id pre) (limit - pre.length)
  := by
  unfold select
  rw [filter_eq_append log.sorted hpre habove hgap hsub, List.take_append,
    List.take_of_length_le hlimit]

theorem lastId_select_lt {log : IdLog ρ idOf} (hne : log.select id limit ≠ []) (id' : ℕ) :
  id < lastId idOf id' (log.select id limit)
  := by
  unfold lastId
  rw [List.getLast?_eq_some_getLast hne, Option.elim_some]
  exact lt_of_mem_select (List.getLast_mem hne)

theorem lastId_of_ne_nil {records : List ρ} (hne : records ≠ []) (id id' : ℕ) :
  lastId idOf id records = lastId idOf id' records
  := by
  unfold lastId
  rw [List.getLast?_eq_some_getLast hne]
  rfl

theorem lastId_lt {records : List ρ} {bound : ℕ} (hid : id < bound)
    (hrecords : ∀ x ∈ records, idOf x < bound) :
  lastId idOf id records < bound
  := by
  induction records generalizing id with
  | nil => exact hid
  | cons x records ih =>
    rw [lastId_cons]
    exact ih (hrecords x List.mem_cons_self) fun y hy => hrecords y (List.mem_cons_of_mem _ hy)

/-- There is something to select when there is a record above the id. -/
theorem select_ne_nil {x : ρ} (hx : x ∈ log.records) (hid : id < idOf x) (hlimit : 0 < limit) :
  log.select id limit ≠ []
  := by
  unfold select
  rw [Ne, List.take_eq_nil_iff]
  rintro (h | h)
  · omega
  · have hmem : x ∈ log.records.filter fun y => id < idOf y := by simp [hx, hid]
    rw [h] at hmem
    contradiction

end IdLog
