import Zabbix.Library.Table

/-!
# Entries in memory

A hash set whose entries stay at their addresses as long as they are in it: other data may
point to them. The index says at which address the entry of a key is; the memory holds the
entries by their addresses. Memory for a new entry comes from an allocator, which may give
any address that is not in use, with anything in it.
-/

universe u v

/-- The index and the memory of a hash set. -/
structure Entries (κ : Type u) (ω : Type v) where
  index : Table κ ℕ
  memory : Table ℕ ω

/-- An allocator: an address that is not in use, and what is in the memory there. -/
structure Allocator (ω : Type v) where
  address : List ℕ → ℕ
  fresh : ∀ used, address used ∉ used
  junk : List ℕ → ω

namespace Entries

variable {κ : Type u} {ω : Type v} [DecidableEq κ]

/-- The hash set without entries. -/
def empty : Entries κ ω := ⟨.empty, .empty⟩

/-- A new entry for a key, made from what was in the memory. -/
def insert (e : Entries κ ω) (m : Allocator ω) (k : κ) (make : ω → ω) : Entries κ ω × ℕ :=
  let a := m.address e.memory.keys
  (⟨e.index.set k a, e.memory.set a (make (m.junk e.memory.keys))⟩, a)

/-- Changes the entry at an address. -/
def modify (e : Entries κ ω) (a : ℕ) (f : ω → ω) : Entries κ ω :=
  match e.memory.search a with
  | none => e
  | some w => { e with memory := e.memory.set a (f w) }

/-- Removes the entry of a key, and frees its memory. -/
def remove (e : Entries κ ω) (k : κ) : Entries κ ω :=
  match e.index.search k with
  | none => e
  | some a => ⟨e.index.remove k, e.memory.remove a⟩

/-- The entry of a key. -/
def value (e : Entries κ ω) (k : κ) : Option ω := (e.index.search k).bind e.memory.search

/-- The index points to the entries in memory, each by its key. -/
def Valid (key : ω → κ) (e : Entries κ ω) : Prop :=
  ∀ k a, e.index.search k = some a ↔ ∃ w, e.memory.search a = some w ∧ key w = k

variable {key : ω → κ} {e : Entries κ ω} {k : κ} {a : ℕ} {w : ω}

theorem valid_empty :
  (empty : Entries κ ω).Valid key
  := by
  intro k a
  simp [empty]

theorem Valid.read (h : e.Valid key) (hk : e.index.search k = some a) :
  ∃ w, e.memory.search a = some w ∧ key w = k ∧ e.value k = some w
  := by
  obtain ⟨w, hw, hkey⟩ := (h k a).mp hk
  refine ⟨w, hw, hkey, ?_⟩
  rw [value, hk]
  exact hw

theorem Valid.index_of_memory (h : e.Valid key) (hw : e.memory.search a = some w) :
  e.index.search (key w) = some a
  := (h _ a).mpr ⟨w, hw, rfl⟩

/-- Two keys have different entries. -/
theorem Valid.index_injective (h : e.Valid key) {k' : κ} (hk : e.index.search k = some a)
    (hk' : e.index.search k' = some a) :
  k = k'
  := by
  obtain ⟨w, hw, rfl⟩ := (h k a).mp hk
  obtain ⟨w', hw', rfl⟩ := (h k' a).mp hk'
  rw [Option.some.inj (hw.symm.trans hw')]

/-! ### New entries -/

theorem index_insert (m : Allocator ω) (make : ω → ω) (k' : κ) :
  (e.insert m k make).1.index.search k'
    = if k' = k then some (e.insert m k make).2 else e.index.search k'
  := by
  split_ifs with hk
  · rw [hk]
    exact Table.search_set_self ..
  · exact Table.search_set_of_ne _ _ hk

theorem memory_insert_self (m : Allocator ω) (make : ω → ω) :
  ∃ junk, (e.insert m k make).1.memory.search (e.insert m k make).2 = some (make junk)
  := ⟨_, Table.search_set_self ..⟩

theorem insert_fresh (m : Allocator ω) (make : ω → ω) :
  e.memory.search (e.insert m k make).2 = none
  := Table.search_eq_none_iff.mpr (m.fresh _)

theorem memory_insert_of_ne (m : Allocator ω) (make : ω → ω) (ha : a ≠ (e.insert m k make).2) :
  (e.insert m k make).1.memory.search a = e.memory.search a
  := Table.search_set_of_ne _ _ ha

theorem Valid.insert (h : e.Valid key) (m : Allocator ω) {make : ω → ω}
    (hmake : ∀ junk, key (make junk) = k) (hnew : e.index.search k = none) :
  (e.insert m k make).1.Valid key
  := by
  obtain ⟨junk, hself⟩ := e.memory_insert_self (k := k) m make
  have hfresh := e.insert_fresh (k := k) m make
  intro k' a
  rw [index_insert]
  by_cases ha : a = (e.insert m k make).2
  · subst ha
    rw [hself]
    split_ifs with hk
    · simp [hmake, hk]
    · constructor
      · intro hk'
        obtain ⟨w, hw, -⟩ := (h k' _).mp hk'
        rw [hfresh] at hw
        cases hw
      · rintro ⟨w, hw, hkey⟩
        obtain rfl := Option.some.inj hw
        exact absurd (hkey.symm.trans (hmake junk)) hk
  · rw [memory_insert_of_ne m make ha, ← h k' a]
    split_ifs with hk
    · rw [hk, hnew]
      constructor
      · intro heq
        exact absurd (Option.some.inj heq).symm ha
      · intro heq
        cases heq
    · exact Iff.rfl

/-! ### Changes of an entry -/

omit [DecidableEq κ] in
@[simp]
theorem index_modify (f : ω → ω) :
  (e.modify a f).index = e.index
  := by
  unfold modify
  split <;> rfl

omit [DecidableEq κ] in
theorem memory_modify_self (f : ω → ω) :
  (e.modify a f).memory.search a = (e.memory.search a).map f
  := by
  unfold modify
  cases hw : e.memory.search a with
  | none => simpa using hw
  | some w => simp

omit [DecidableEq κ] in
theorem memory_modify_of_ne (f : ω → ω) {b : ℕ} (hb : b ≠ a) :
  (e.modify a f).memory.search b = e.memory.search b
  := by
  unfold modify
  cases e.memory.search a with
  | none => rfl
  | some w => exact Table.search_set_of_ne _ _ hb

theorem Valid.modify (h : e.Valid key) (a : ℕ) {f : ω → ω} (hf : ∀ w, key (f w) = key w) :
  (e.modify a f).Valid key
  := by
  intro k b
  rw [index_modify, h k b]
  by_cases hb : b = a
  · subst hb
    rw [memory_modify_self]
    cases e.memory.search b with
    | none => simp
    | some w => simp [hf]
  · rw [memory_modify_of_ne f hb]

/-- The entry of a key is changed, and no other one. -/
theorem Valid.value_modify (h : e.Valid key) (hk : e.index.search k = some a) (f : ω → ω)
    (k' : κ) :
  (e.modify a f).value k' = if k' = k then (e.value k').map f else e.value k'
  := by
  rw [value, value, index_modify]
  split_ifs with hkk
  · rw [hkk, hk]
    exact memory_modify_self f
  · cases hk' : e.index.search k' with
    | none => rfl
    | some b =>
      have hne : b ≠ a := by
        rintro rfl
        exact hkk (h.index_injective hk' hk)
      exact memory_modify_of_ne f hne

/-! ### Removed entries -/

theorem index_remove (k' : κ) :
  (e.remove k).index.search k' = if k' = k then none else e.index.search k'
  := by
  unfold remove
  cases hk : e.index.search k with
  | none =>
    split_ifs with hkk
    · rw [hkk, hk]
    · rfl
  | some a =>
    split_ifs with hkk
    · rw [hkk]
      exact Table.search_remove_self ..
    · exact Table.search_remove_of_ne _ hkk

theorem Valid.value_remove (h : e.Valid key) (k' : κ) :
  (e.remove k).value k' = if k' = k then none else e.value k'
  := by
  rw [value, value, index_remove]
  split_ifs with hkk
  · rfl
  · cases hk' : e.index.search k' with
    | none => rfl
    | some b =>
      unfold remove
      cases hk : e.index.search k with
      | none => rfl
      | some a =>
        have hne : b ≠ a := by
          rintro rfl
          exact hkk (h.index_injective hk' hk)
        exact Table.search_remove_of_ne _ hne

theorem Valid.remove (h : e.Valid key) (k : κ) :
  (e.remove k).Valid key
  := by
  unfold Entries.remove
  cases hk : e.index.search k with
  | none => exact h
  | some a =>
    obtain ⟨w, hw, hkey, -⟩ := h.read hk
    intro k' b
    by_cases hkk : k' = k
    · subst hkk
      rw [Table.search_remove_self]
      constructor
      · nofun
      · rintro ⟨w', hw', hkey'⟩
        have hb : b ≠ a := by
          rintro rfl
          rw [Table.search_remove_self] at hw'
          cases hw'
        rw [Table.search_remove_of_ne _ hb] at hw'
        have hindex := h.index_of_memory hw'
        rw [hkey', hk] at hindex
        exact absurd (Option.some.inj hindex).symm hb
    · rw [Table.search_remove_of_ne _ hkk, h k' b]
      by_cases hb : b = a
      · subst hb
        rw [Table.search_remove_self, hw]
        constructor
        · rintro ⟨w', hw', hkey'⟩
          obtain rfl := Option.some.inj hw'
          exact absurd (hkey'.symm.trans hkey) hkk
        · rintro ⟨w', hw', -⟩
          cases hw'
      · rw [Table.search_remove_of_ne _ hb]

/-! ### Growing -/

/-- Entries are added to a valid hash set, and those it has stay where they are and as they
are. -/
structure Grows (key : ω → κ) (e e' : Entries κ ω) : Prop where
  valid : e'.Valid key
  index : ∀ k a, e.index.search k = some a → e'.index.search k = some a
  value : ∀ k w, e.value k = some w → e'.value k = some w

theorem Valid.grows_refl (h : e.Valid key) :
  Grows key e e
  := ⟨h, fun _ _ => id, fun _ _ => id⟩

theorem Valid.value_isSome_iff (h : e.Valid key) :
  (e.value k).isSome ↔ (e.index.search k).isSome
  := by
  constructor
  · intro hv
    obtain ⟨w, hw⟩ := Option.isSome_iff_exists.mp hv
    obtain ⟨a, ha, -⟩ := Option.bind_eq_some_iff.mp hw
    rw [ha, Option.isSome_some]
  · intro hk
    obtain ⟨a, ha⟩ := Option.isSome_iff_exists.mp hk
    obtain ⟨w, -, -, hv⟩ := h.read ha
    rw [hv, Option.isSome_some]

/-- A new entry is added. -/
theorem Valid.grows_insert (h : e.Valid key) (m : Allocator ω) {make : ω → ω}
    (hmake : ∀ junk, key (make junk) = k) (hnew : e.index.search k = none) :
  Grows key e (e.insert m k make).1
  := by
  have hindex : ∀ k' a, e.index.search k' = some a →
      (e.insert m k make).1.index.search k' = some a := by
    intro k' a hk'
    rw [index_insert, if_neg, hk']
    rintro rfl
    rw [hnew] at hk'
    cases hk'
  refine ⟨h.insert m hmake hnew, hindex, ?_⟩
  intro k' w hw
  obtain ⟨a, ha, hmem⟩ := Option.bind_eq_some_iff.mp hw
  have hne : a ≠ (e.insert m k make).2 := by
    rintro rfl
    rw [e.insert_fresh (k := k) m make] at hmem
    cases hmem
  rw [value, hindex k' a ha, Option.bind_some, memory_insert_of_ne m make hne, hmem]

/-! ### Visiting all entries -/

/-- When every step changes only what is seen at its own key, what is seen at a key in the end
is what its own step makes of it. -/
theorem foldl_pointwise {S : Type*} {β : Type*} (look : S → κ → β) (step : S → κ → S)
    {f : κ → β → β} (inv : S → Prop) (hinv : ∀ s k, inv s → inv (step s k))
    (hstep : ∀ s k j, inv s → look (step s k) j = if j = k then f k (look s k) else look s j)
    {ks : List κ} (hks : ks.Nodup) {s : S} (hs : inv s) (j : κ) :
  inv (ks.foldl step s)
    ∧ look (ks.foldl step s) j = if j ∈ ks then f j (look s j) else look s j
  := by
  induction ks generalizing s with
  | nil => exact ⟨hs, (if_neg List.not_mem_nil).symm⟩
  | cons k ks ih =>
    obtain ⟨hk, hks⟩ := List.nodup_cons.mp hks
    obtain ⟨hinv', hlook⟩ := ih hks (hinv s k hs)
    refine ⟨hinv', ?_⟩
    rw [List.foldl_cons, hlook, hstep s k j hs]
    by_cases hjk : j = k
    · subst hjk
      rw [if_neg hk, if_pos rfl, if_pos List.mem_cons_self]
    · simp only [hjk, if_false, List.mem_cons, false_or]

/-- An iteration over the entries comes to every key that is there once. -/
theorem visit_keys (visit : Visit κ) (e : Entries κ ω) :
  (visit.arrange e.index.keys).Nodup
    ∧ ∀ k, k ∈ visit.arrange e.index.keys ↔ (e.index.search k).isSome
  := by
  refine ⟨(visit.perm _).nodup_iff.mpr e.index.nodup, fun k => ?_⟩
  rw [(visit.perm _).mem_iff, Option.isSome_iff_ne_none, ne_eq, Table.search_eq_none_iff, not_not]

end Entries
