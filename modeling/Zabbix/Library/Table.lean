import Mathlib.Data.List.Nodup
import Mathlib.Data.List.Perm.Basic
import Mathlib.Logic.Function.Basic

/-!
# Tables

Finite maps from keys to values, the meaning of a hash set whose entries are compared by
a key. An entry is found, written and removed by its key, and `search` says all there is
to say about the contents. The order in which an iteration visits the keys is not
specified: it is some rearrangement of them (`Visit`).
-/

universe u v

/-- A finite map: no two of its entries have the same key. -/
structure Table (κ : Type u) (ω : Type v) where
  entries : List (κ × ω)
  nodup : (entries.map Prod.fst).Nodup

/-- An order of iteration: the keys in some order. -/
structure Visit (κ : Type u) where
  arrange : List κ → List κ
  perm : ∀ keys, (arrange keys).Perm keys

/-- The order of the keys itself. -/
def Visit.inOrder {κ : Type u} : Visit κ := ⟨id, fun _ => .refl _⟩

namespace Table

variable {κ : Type u} {ω : Type v}

/-- The table without entries. -/
def empty : Table κ ω := ⟨[], List.nodup_nil⟩

/-- The keys of the entries. -/
def keys (t : Table κ ω) : List κ := t.entries.map Prod.fst

variable [DecidableEq κ]

/-- The value at a key. -/
def search (t : Table κ ω) (k : κ) : Option ω := t.entries.lookup k

/-- The table without the entry of a key. -/
def remove (t : Table κ ω) (k : κ) : Table κ ω where
  entries := t.entries.filter fun e => e.1 ≠ k
  nodup := t.nodup.sublist (List.filter_sublist.map Prod.fst)

theorem notMem_keys_remove (t : Table κ ω) (k : κ) :
  k ∉ (t.remove k).keys
  := by
  simp [keys, remove]

/-- The table with a value written at a key. -/
def set (t : Table κ ω) (k : κ) (w : ω) : Table κ ω where
  entries := (k, w) :: (t.remove k).entries
  nodup := List.nodup_cons.mpr ⟨t.notMem_keys_remove k, (t.remove k).nodup⟩

@[simp]
theorem search_empty (k : κ) :
  (empty : Table κ ω).search k = none
  := rfl

theorem search_remove_of_ne (t : Table κ ω) {j k : κ} (hjk : j ≠ k) :
  (t.remove k).search j = t.search j
  := by
  change List.lookup j (t.entries.filter fun e => e.1 ≠ k) = List.lookup j t.entries
  induction t.entries with
  | nil => rfl
  | cons e entries ih =>
    obtain ⟨i, w⟩ := e
    by_cases hik : i = k
    · rw [List.filter_cons_of_neg (by simpa using hik), ih, List.lookup_cons]
      rw [beq_false_of_ne (by rw [hik]; exact hjk)]
    · rw [List.filter_cons_of_pos (by simpa using hik), List.lookup_cons, List.lookup_cons, ih]

theorem search_eq_none_iff {t : Table κ ω} {k : κ} :
  t.search k = none ↔ k ∉ t.keys
  := by
  simp only [search, List.lookup_eq_none_iff, keys, List.mem_map, not_exists, not_and]
  constructor
  · intro h e he hk
    simpa [hk] using h e he
  · intro h e he
    simpa using fun hk => h e he hk.symm

theorem search_remove (t : Table κ ω) (k : κ) :
  (t.remove k).search = Function.update t.search k none
  := by
  funext j
  by_cases hjk : j = k
  · rw [hjk, Function.update_self, search_eq_none_iff]
    apply notMem_keys_remove
  · rw [Function.update_of_ne hjk, search_remove_of_ne t hjk]

theorem search_set (t : Table κ ω) (k : κ) (w : ω) :
  (t.set k w).search = Function.update t.search k (some w)
  := by
  funext j
  have hcons : (t.set k w).search j
      = match j == k with
        | true => some w
        | false => (t.remove k).search j := List.lookup_cons
  rw [hcons]
  by_cases hjk : j = k
  · simp [hjk]
  · rw [beq_false_of_ne hjk, Function.update_of_ne hjk]
    apply search_remove_of_ne t hjk

@[simp]
theorem search_set_self (t : Table κ ω) (k : κ) (w : ω) :
  (t.set k w).search k = some w
  := by
  rw [search_set, Function.update_self]

@[simp]
theorem search_remove_self (t : Table κ ω) (k : κ) :
  (t.remove k).search k = none
  := by
  rw [search_remove, Function.update_self]

theorem search_set_of_ne (t : Table κ ω) (w : ω) {j k : κ} (hjk : j ≠ k) :
  (t.set k w).search j = t.search j
  := by
  rw [search_set, Function.update_of_ne hjk]

theorem mem_keys_of_search {t : Table κ ω} {k : κ} {w : ω} (h : t.search k = some w) :
  k ∈ t.keys
  := by
  by_contra hk
  rw [search_eq_none_iff.mpr hk] at h
  contradiction

theorem search_eq_some_iff {t : Table κ ω} {k : κ} {w : ω} :
  t.search k = some w ↔ (k, w) ∈ t.entries
  := by
  obtain ⟨entries, hnodup⟩ := t
  change entries.lookup k = some w ↔ (k, w) ∈ entries
  induction entries with
  | nil => simp
  | cons e entries ih =>
    obtain ⟨i, w'⟩ := e
    obtain ⟨hi, hrest⟩ := List.nodup_cons.mp hnodup
    rw [List.lookup_cons, List.mem_cons]
    by_cases hki : k = i
    · subst hki
      have hno : (k, w) ∉ entries := fun hmem => hi (List.mem_map.mpr ⟨(k, w), hmem, rfl⟩)
      simp [hno, eq_comm]
    · rw [beq_false_of_ne hki]
      simp only [ih hrest, Prod.mk.injEq, hki, false_and, false_or]

/-- The entries are that of a key and those without the key. -/
theorem entries_perm {t : Table κ ω} {k : κ} {w : ω} (h : t.search k = some w) :
  t.entries.Perm ((k, w) :: (t.remove k).entries)
  := by
  obtain ⟨entries, hnodup⟩ := t
  change entries.Perm ((k, w) :: entries.filter fun e => e.1 ≠ k)
  have hmem : (k, w) ∈ entries := search_eq_some_iff.mp h
  obtain ⟨before, after, rfl⟩ := List.append_of_mem hmem
  have hne : ∀ e ∈ before ++ after, e.1 ≠ k := by
    intro e he
    have hperm : ((before ++ (k, w) :: after).map Prod.fst).Perm
        (k :: (before ++ after).map Prod.fst) := by
      simp only [List.map_append, List.map_cons]
      exact List.perm_middle
    have hnot := (List.nodup_cons.mp (hperm.nodup_iff.mp hnodup)).1
    rintro rfl
    exact hnot (List.mem_map_of_mem he)
  have hfilter : (before ++ (k, w) :: after).filter (fun e => e.1 ≠ k) = before ++ after := by
    rw [List.filter_append, List.filter_cons_of_neg (by simp), ← List.filter_append]
    apply List.filter_eq_self.mpr
    intro e he
    simpa using hne e he
  rw [hfilter]
  exact List.perm_middle

end Table
