import Zabbix.Library.Table
import Mathlib.Tactic.Common

/-!
# Hash sets with a unique secondary key

Items, hosts, global macros, host macros and interfaces are kept in hash sets that are
searched by id, each with a second hash set, its index, that finds the structure with a
given secondary key. The functions that load them from the database treat the two alike:
row by row the entry of the old key is removed, if it still points to the structure, and
the entry of the new key is redirected to the structure or inserted; then the structures
without a row are removed. `IndexSchema` has what differs between them.

A pointer to a structure is given by the id of the structure, which no other structure
has while it is in the hash set. Dereferencing the result of a failed look-up gives
`none`.

Between two rows the index points to structures that have the key of the entry
(`Linked.sound`), and a structure can be out of the index only when a row that came
before took its key (`Linked.covered`).
-/

/-- A hash set and its index. -/
structure IndexedTable (ι κ ω : Type*) where
  rows : Table ι ω
  index : Table κ ι

/-- What one of the hash sets stores of a row and how it is indexed. -/
structure IndexSchema (ρ ι κ ω : Type*) where
  /-- The id of a row. -/
  id : ρ → ι
  /-- The secondary key of a row, or `none` for a row that is not indexed. -/
  rowKey : ρ → Option κ
  /-- The secondary key of a structure. -/
  keyOf : ω → Option κ
  /-- The key fields of a structure are not those of the row. -/
  differs : ω → ρ → Bool
  /-- The structure for a row, given the one found under its id. -/
  store : Option ω → ρ → ω
  /-- What becomes of a structure when the others are removed. -/
  kept : ω → ω
  /-- The result of looking up an old key is compared with `NULL`. -/
  checked : Bool
  keyOf_store : ∀ old row, keyOf (store old row) = rowKey row
  keyOf_kept : ∀ w, keyOf (kept w) = keyOf w
  key_of_not_differs : ∀ w row, differs w row = false → keyOf w = rowKey row

namespace IndexedTable

/-- No structures. -/
def empty {ι κ ω : Type*} : IndexedTable ι κ ω := ⟨Table.empty, Table.empty⟩

end IndexedTable

namespace IndexSchema

variable {ρ ι κ ω : Type*} [DecidableEq ι] [DecidableEq κ]

/-- Removes the entry of the key of structure `i` if it points to the structure. -/
def unlink (S : IndexSchema ρ ι κ ω) (index : Table κ ι) (i : ι) (w : ω) :
    Option (Table κ ι) :=
  match S.keyOf w with
  | none => some index
  | some k =>
    match index.search k with
    | none => if S.checked then some index else none
    | some j => some (if j = i then index.remove k else index)

/-- Redirects the entry of the new key to structure `i`. The second part says that
there is none and that one has to be inserted. -/
def redirect (index : Table κ ι) (key : Option κ) (i : ι) : Table κ ι × Bool :=
  match key with
  | none => (index, false)
  | some k => if (index.search k).isSome then (index.set k i, false) else (index, true)

/-- One row. -/
def syncRow (S : IndexSchema ρ ι κ ω) (t : IndexedTable ι κ ω) (row : ρ) :
    Option (IndexedTable ι κ ω) :=
  let i := S.id row
  let found := t.rows.search i
  let linked :=
    if found.elim true fun w => S.differs w row then
      (found.elim (some t.index) (S.unlink t.index i)).map fun index =>
        redirect index (S.rowKey row) i
    else some (t.index, false)
  linked.map fun (index, updateIndex) =>
    let w := S.store found row
    { rows := t.rows.set i w
      index :=
        if updateIndex then (S.keyOf w).elim index fun k => index.set k i else index }

/-- Removes the structure `i`. -/
def removeRow (S : IndexSchema ρ ι κ ω) (t : IndexedTable ι κ ω) (i : ι) :
    Option (IndexedTable ι κ ω) :=
  match t.rows.search i with
  | none => some t
  | some w => (S.unlink t.index i w).map fun index => ⟨t.rows.remove i, index⟩

/-- One structure of the final iteration: it is removed when no row had its id. -/
def sweepRow (S : IndexSchema ρ ι κ ω) (ids : List ι) (t : IndexedTable ι κ ω) (i : ι) :
    Option (IndexedTable ι κ ω) :=
  if i ∈ ids then
    (t.rows.search i).elim (some t) fun w => some ⟨t.rows.set i (S.kept w), t.index⟩
  else S.removeRow t i

/-- Loads a snapshot: `rowStep` for each row, then `sweepStep` for each structure. The
cache `C` may have more parts than the hash set and its index, `view`. -/
def load {C : Type*} (S : IndexSchema ρ ι κ ω) (view : C → IndexedTable ι κ ω)
    (rowStep : C → ρ → Option C) (sweepStep : List ι → C → ι → Option C) (visit : Visit ι)
    (rows : List ρ) (c : C) : Option C := do
  let c ← rows.foldlM rowStep c
  (visit.arrange (view c).rows.keys).foldlM (sweepStep (rows.map S.id)) c

/-- Loads a snapshot into a hash set and its index. -/
def sync (S : IndexSchema ρ ι κ ω) (visit : Visit ι) (rows : List ρ)
    (t : IndexedTable ι κ ω) : Option (IndexedTable ι κ ω) :=
  S.load (fun t => t) S.syncRow S.sweepRow visit rows t

/-- The ids of the rows are unique, and so are their secondary keys. -/
structure Valid (S : IndexSchema ρ ι κ ω) (rows : List ρ) : Prop where
  ids : (rows.map S.id).Nodup
  keys : ∀ row ∈ rows, ∀ row' ∈ rows, ∀ k, S.rowKey row = some k → S.rowKey row' = some k →
    S.id row = S.id row'

omit [DecidableEq ι] [DecidableEq κ] in
/-- The same with one look at each pair of rows. -/
theorem valid_iff {S : IndexSchema ρ ι κ ω} {rows : List ρ} :
  S.Valid rows ↔ (rows.map S.id).Nodup ∧ ∀ row ∈ rows, ∀ row' ∈ rows,
    S.rowKey row ≠ none → S.rowKey row = S.rowKey row' → S.id row = S.id row'
  := by
  constructor
  · intro h
    refine ⟨h.ids, ?_⟩
    intro row hrow row' hrow' hsome heq
    obtain ⟨k, hk⟩ := Option.ne_none_iff_exists'.mp hsome
    exact h.keys row hrow row' hrow' k hk (heq.symm.trans hk)
  · rintro ⟨hids, hkeys⟩
    refine ⟨hids, ?_⟩
    intro row hrow row' hrow' k hk hk'
    exact hkeys row hrow row' hrow' (by simp [hk]) (hk.trans hk'.symm)

instance (S : IndexSchema ρ ι κ ω) (rows : List ρ) : Decidable (S.Valid rows) :=
  decidable_of_iff' _ valid_iff

/-- The hash set holds exactly the rows, each as a structure that agrees with it, and
the index maps exactly the secondary keys of the rows to their structures. -/
structure Exact (S : IndexSchema ρ ι κ ω) (agrees : ρ → ω → Prop) (rows : List ρ)
    (t : IndexedTable ι κ ω) : Prop where
  ids : ∀ i, (t.rows.search i).isSome ↔ i ∈ rows.map S.id
  stored : ∀ row ∈ rows, ∃ w, t.rows.search (S.id row) = some w ∧ agrees row w
  index : ∀ k i, t.index.search k = some i ↔ ∃ row ∈ rows, S.id row = i ∧ S.rowKey row = some k

/-- The index between two rows, when the rows with the ids `done` have been stored. -/
structure Linked (S : IndexSchema ρ ι κ ω) (done : List ι) (t : IndexedTable ι κ ω) :
    Prop where
  sound : ∀ k i, t.index.search k = some i →
    ∃ w, t.rows.search i = some w ∧ S.keyOf w = some k
  covered : ∀ i w k, t.rows.search i = some w → S.keyOf w = some k →
    ∃ j, t.index.search k = some j ∧ (j = i ∨ j ∈ done)

variable {S : IndexSchema ρ ι κ ω} {t : IndexedTable ι κ ω} {done : List ι}

theorem syncRow_rows {row : ρ} {t' : IndexedTable ι κ ω} (h : S.syncRow t row = some t') :
  t'.rows = t.rows.set (S.id row) (S.store (t.rows.search (S.id row)) row)
  := by
  unfold syncRow at h
  obtain ⟨_, -, rfl⟩ := Option.map_eq_some_iff.mp h
  rfl

theorem removeRow_rows {i : ι} {t' : IndexedTable ι κ ω} (h : S.removeRow t i = some t') :
  t'.rows.search = Function.update t.rows.search i none
  := by
  unfold removeRow at h
  cases hw : t.rows.search i with
  | none =>
    rw [hw, Option.some.injEq] at h
    rw [← h, ← hw, Function.update_eq_self]
  | some w =>
    rw [hw] at h
    obtain ⟨_, -, rfl⟩ := Option.map_eq_some_iff.mp h
    apply Table.search_remove

/-- After the entry of structure `i` is removed the index is the old one without the
entries that point to `i`. The look-up of the key does not fail. -/
theorem Linked.unlink (h : S.Linked done t) {i : ι} {w : ω}
    (hw : t.rows.search i = some w) (hi : i ∉ done) :
  ∃ index, S.unlink t.index i w = some index ∧
    ∀ k j, index.search k = some j ↔ t.index.search k = some j ∧ j ≠ i
  := by
  unfold IndexSchema.unlink
  cases hkey : S.keyOf w with
  | none =>
    refine ⟨t.index, rfl, ?_⟩
    intro k j
    constructor
    · intro hj
      refine ⟨hj, ?_⟩
      rintro rfl
      obtain ⟨w', hw', hk⟩ := h.sound k j hj
      obtain rfl : w = w' := by simpa [hw] using hw'
      rw [hkey] at hk
      contradiction
    · rintro ⟨hj, -⟩
      exact hj
  | some k₀ =>
    obtain ⟨j₀, hj₀, hown⟩ := h.covered i w k₀ hw hkey
    have honly : ∀ k, t.index.search k = some i → k = k₀ := by
      intro k hk
      obtain ⟨w', hw', hkey'⟩ := h.sound k i hk
      obtain rfl : w = w' := by simpa [hw] using hw'
      rw [hkey] at hkey'
      exact (Option.some.inj hkey').symm
    refine ⟨if j₀ = i then t.index.remove k₀ else t.index, by simp only [hj₀], ?_⟩
    intro k j
    by_cases hji : j₀ = i
    · rw [if_pos hji, Table.search_remove]
      by_cases hk : k = k₀
      · rw [hk, Function.update_self, hj₀, hji]
        simp [eq_comm]
      · rw [Function.update_of_ne hk]
        simp only [iff_self_and]
        rintro hj rfl
        exact hk (honly k hj)
    · rw [if_neg hji]
      simp only [iff_self_and]
      rintro hj rfl
      rw [honly k hj, hj₀] at hj
      exact hji (Option.some.inj hj)

omit [DecidableEq ι] in
/-- Redirecting or inserting the entry of a key makes it point to structure `i`. -/
theorem search_link (index : Table κ ι) (key : Option κ) (i : ι) (k : κ) :
  (if (redirect index key i).2 then key.elim (redirect index key i).1
      fun k => (redirect index key i).1.set k i
    else (redirect index key i).1).search k =
    if key = some k then some i else index.search k
  := by
  cases key with
  | none => simp [redirect]
  | some k₀ =>
    have hset : (index.set k₀ i).search k = if some k₀ = some k then some i else index.search k := by
      rw [Table.search_set, Function.update_apply]
      simp [eq_comm]
    unfold redirect
    cases hfound : (index.search k₀).isSome with
    | true => simp [hfound, hset]
    | false => simp [hfound, hset]

/-- A row is stored and linked. -/
theorem Linked.syncRow (h : S.Linked done t) {row : ρ} (hrow : S.id row ∉ done) :
  ∃ index, S.syncRow t row =
      some ⟨t.rows.set (S.id row) (S.store (t.rows.search (S.id row)) row), index⟩ ∧
    S.Linked (S.id row :: done)
      ⟨t.rows.set (S.id row) (S.store (t.rows.search (S.id row)) row), index⟩
  := by
  have hkey := S.keyOf_store (t.rows.search (S.id row)) row
  by_cases hdiff : (t.rows.search (S.id row)).elim true fun w => S.differs w row
  · obtain ⟨index, hindex, hsearch⟩ : ∃ index,
        (t.rows.search (S.id row)).elim (some t.index) (S.unlink t.index (S.id row))
          = some index ∧
        ∀ k j, index.search k = some j ↔ t.index.search k = some j ∧ j ≠ S.id row := by
      cases hw : t.rows.search (S.id row) with
      | none =>
        refine ⟨t.index, rfl, ?_⟩
        intro k j
        simp only [iff_self_and]
        rintro hj rfl
        obtain ⟨w, hw', -⟩ := h.sound k _ hj
        rw [hw] at hw'
        contradiction
      | some w => exact h.unlink hw hrow
    have hlink := search_link index (S.rowKey row) (S.id row)
    unfold IndexSchema.syncRow
    simp only [hdiff, if_true, hindex, Option.map_some, hkey]
    refine ⟨_, rfl, ?_, ?_⟩
    · intro k j hj
      dsimp only at hj ⊢
      rw [hlink] at hj
      by_cases hk : S.rowKey row = some k
      · rw [if_pos hk] at hj
        obtain rfl := Option.some.inj hj
        exact ⟨_, Table.search_set_self _ _ _, hkey.trans hk⟩
      · rw [if_neg hk, hsearch] at hj
        rw [Table.search_set_of_ne _ _ hj.2]
        apply h.sound k j hj.1
    · intro j w k hw hwk
      dsimp only at hw ⊢
      rw [hlink]
      by_cases hk : S.rowKey row = some k
      · rw [if_pos hk]
        exact ⟨S.id row, rfl, Or.inr List.mem_cons_self⟩
      · rw [if_neg hk]
        by_cases hj : j = S.id row
        · rw [hj, Table.search_set_self, Option.some.injEq] at hw
          rw [← hw, hkey] at hwk
          exact absurd hwk hk
        · rw [Table.search_set_of_ne _ _ hj] at hw
          obtain ⟨j', hj', hown⟩ := h.covered j w k hw hwk
          have hne : j' ≠ S.id row := by
            rintro rfl
            obtain rfl | hd := hown
            · exact hj rfl
            · exact hrow hd
          exact ⟨j', (hsearch k j').mpr ⟨hj', hne⟩, hown.imp_right (List.mem_cons_of_mem _)⟩
  · cases hw : t.rows.search (S.id row) with
    | none => simp [hw] at hdiff
    | some w =>
      have hsame : S.keyOf w = S.rowKey row := by
        apply S.key_of_not_differs
        simpa [hw] using hdiff
      rw [hw] at hkey hdiff
      refine ⟨t.index, by simp [IndexSchema.syncRow, hw, hdiff], ?_, ?_⟩
      · intro k j hj
        dsimp only at hj ⊢
        obtain ⟨w', hw', hk⟩ := h.sound k j hj
        by_cases hji : j = S.id row
        · rw [hji, Table.search_set_self]
          rw [hji, hw, Option.some.injEq] at hw'
          rw [← hw', hsame] at hk
          exact ⟨_, rfl, hkey.trans hk⟩
        · rw [Table.search_set_of_ne _ _ hji]
          exact ⟨w', hw', hk⟩
      · intro j w' k hw' hk
        dsimp only at hw' ⊢
        obtain ⟨j', hj', hown⟩ : ∃ j', t.index.search k = some j' ∧ (j' = j ∨ j' ∈ done) := by
          by_cases hji : j = S.id row
          · rw [hji, Table.search_set_self, Option.some.injEq] at hw'
            rw [← hw', hkey, ← hsame] at hk
            rw [hji]
            apply h.covered _ w k hw hk
          · rw [Table.search_set_of_ne _ _ hji] at hw'
            apply h.covered j w' k hw' hk
        exact ⟨j', hj', hown.imp_right (List.mem_cons_of_mem _)⟩

/-- A structure that no row stored is removed together with its entry. -/
theorem Linked.removeRow (h : S.Linked done t) {i : ι} (hi : i ∉ done) :
  ∃ t', S.removeRow t i = some t' ∧ S.Linked done t' ∧
    t'.rows.search = Function.update t.rows.search i none
  := by
  unfold IndexSchema.removeRow
  cases hw : t.rows.search i with
  | none =>
    refine ⟨t, rfl, h, ?_⟩
    rw [← hw, Function.update_eq_self]
  | some w =>
    obtain ⟨index, hindex, hsearch⟩ := h.unlink hw hi
    refine ⟨⟨t.rows.remove i, index⟩, by simp [hindex], ⟨?_, ?_⟩, Table.search_remove _ _⟩
    · intro k j hj
      dsimp only at hj ⊢
      obtain ⟨hj, hne⟩ := (hsearch k j).mp hj
      rw [Table.search_remove_of_ne _ hne]
      apply h.sound k j hj
    · intro j w' k hw' hk
      dsimp only at hw' ⊢
      have hne : j ≠ i := by
        rintro rfl
        rw [Table.search_remove_self] at hw'
        contradiction
      rw [Table.search_remove_of_ne _ hne] at hw'
      obtain ⟨j', hj', hown⟩ := h.covered j w' k hw' hk
      refine ⟨j', (hsearch k j').mpr ⟨hj', ?_⟩, hown⟩
      rintro rfl
      exact hown.elim (fun hji => hne hji.symm) hi

/-- Rewriting a structure without changing its key keeps the index linked. -/
theorem Linked.modify (h : S.Linked done t) {rows : Table ι ω} {i : ι} {w w' : ω}
    (hw : t.rows.search i = some w)
    (hrows : rows.search = Function.update t.rows.search i (some w'))
    (hkey : S.keyOf w' = S.keyOf w) :
  S.Linked done ⟨rows, t.index⟩
  := by
  constructor
  · intro k j hj
    obtain ⟨v, hv, hk⟩ := h.sound k j hj
    rw [hrows]
    by_cases hji : j = i
    · rw [hji, Function.update_self]
      rw [hji, hw, Option.some.injEq] at hv
      exact ⟨w', rfl, by rw [hkey, hv, hk]⟩
    · rw [Function.update_of_ne hji]
      exact ⟨v, hv, hk⟩
  · intro j v k hv hk
    rw [hrows] at hv
    by_cases hji : j = i
    · rw [hji, Function.update_self, Option.some.injEq] at hv
      rw [hji]
      apply h.covered i w k hw
      rw [← hkey, hv, hk]
    · rw [Function.update_of_ne hji] at hv
      apply h.covered j v k hv hk

/-- An exact index is linked before the first row. -/
theorem Exact.linked {agrees : ρ → ω → Prop} {rows : List ρ}
    (hagrees : ∀ row w, agrees row w → S.keyOf w = S.rowKey row)
    (h : S.Exact agrees rows t) :
  S.Linked [] t
  := by
  constructor
  · intro k i hi
    obtain ⟨row, hrow, rfl, hk⟩ := (h.index k i).mp hi
    obtain ⟨w, hw, hag⟩ := h.stored row hrow
    exact ⟨w, hw, (hagrees row w hag).trans hk⟩
  · intro i w k hw hk
    obtain ⟨row, hrow, rfl⟩ := List.mem_map.mp ((h.ids i).mp (by rw [hw]; rfl))
    obtain ⟨w', hw', hag⟩ := h.stored row hrow
    rw [hw, Option.some.injEq] at hw'
    refine ⟨S.id row, (h.index k _).mpr ⟨row, hrow, rfl, ?_⟩, Or.inl rfl⟩
    rw [← hagrees row w' hag, ← hw', hk]

/-- A linked index is exact when the structures are those of the rows. -/
theorem Linked.exact {agrees : ρ → ω → Prop} {rows : List ρ}
    (hagrees : ∀ row w, agrees row w → S.keyOf w = S.rowKey row)
    (hvalid : S.Valid rows) (h : S.Linked (rows.map S.id) t)
    (hids : ∀ i, (t.rows.search i).isSome ↔ i ∈ rows.map S.id)
    (hstored : ∀ row ∈ rows, ∃ w, t.rows.search (S.id row) = some w ∧ agrees row w) :
  S.Exact agrees rows t
  := by
  refine ⟨hids, hstored, ?_⟩
  -- a structure with key `k` is that of a row with key `k`
  have hrow : ∀ i w k, t.rows.search i = some w → S.keyOf w = some k →
      ∃ row ∈ rows, S.id row = i ∧ S.rowKey row = some k := by
    intro i w k hw hk
    obtain ⟨row, hrow, rfl⟩ := List.mem_map.mp ((hids i).mp (by rw [hw]; rfl))
    obtain ⟨w', hw', hag⟩ := hstored row hrow
    rw [hw, Option.some.injEq] at hw'
    exact ⟨row, hrow, rfl, by rw [← hagrees row w' hag, ← hw', hk]⟩
  intro k i
  constructor
  · intro hi
    obtain ⟨w, hw, hk⟩ := h.sound k i hi
    apply hrow i w k hw hk
  · rintro ⟨row, hmem, rfl, hk⟩
    obtain ⟨w, hw, hag⟩ := hstored row hmem
    obtain ⟨j, hj, -⟩ := h.covered _ w k hw ((hagrees row w hag).trans hk)
    obtain ⟨w', hw', hk'⟩ := h.sound k j hj
    obtain ⟨row', hmem', rfl, hkey'⟩ := hrow j w' k hw' hk'
    rw [hj, hvalid.keys row' hmem' row hmem k hkey' hk]

/-! ### Loading a snapshot -/

theorem Linked.mono (h : S.Linked done t) {done' : List ι} (hsub : done ⊆ done') :
  S.Linked done' t
  := by
  refine ⟨h.sound, ?_⟩
  intro i w k hw hk
  obtain ⟨j, hj, hown⟩ := h.covered i w k hw hk
  exact ⟨j, hj, hown.imp_right (hsub ·)⟩

section Load

variable {C : Type*} {view : C → IndexedTable ι κ ω} {good : C → Prop}
  {stores : ρ → ω → Prop} {rowStep : C → ρ → Option C}
  {sweepStep : List ι → C → ι → Option C}

/-- What a step for a row has to do: it stores the row and links it. -/
def RowLinks (S : IndexSchema ρ ι κ ω) (view : C → IndexedTable ι κ ω) (good : C → Prop)
    (stores : ρ → ω → Prop) (rowStep : C → ρ → Option C) : Prop :=
  ∀ c row done, good c → S.Linked done (view c) → S.id row ∉ done →
    ∃ c', rowStep c row = some c' ∧ good c' ∧ S.Linked (S.id row :: done) (view c') ∧
      ∃ w, stores row w ∧
        (view c').rows.search = Function.update (view c).rows.search (S.id row) (some w)

/-- What a step for a structure has to do: it removes the structure, or keeps it when a
row had its id. -/
def SweepLinks (S : IndexSchema ρ ι κ ω) (view : C → IndexedTable ι κ ω) (good : C → Prop)
    (sweepStep : List ι → C → ι → Option C) : Prop :=
  ∀ ids c i, good c → S.Linked ids (view c) →
    ∃ c', sweepStep ids c i = some c' ∧ good c' ∧ S.Linked ids (view c') ∧
      (view c').rows.search = Function.update (view c).rows.search i
        (if i ∈ ids then ((view c).rows.search i).map S.kept else none)

/-- All rows are stored and linked, the other structures stay. -/
theorem RowLinks.foldlM (hstep : S.RowLinks view good stores rowStep) (rows : List ρ)
    (hids : (rows.map S.id).Nodup) {c : C} (hgood : good c)
    (h : S.Linked done (view c)) (hfresh : ∀ row ∈ rows, S.id row ∉ done) :
  ∃ c', rows.foldlM rowStep c = some c' ∧ good c' ∧
    S.Linked (rows.map S.id ++ done) (view c') ∧
    (∀ row ∈ rows, ∃ w, stores row w ∧ (view c').rows.search (S.id row) = some w) ∧
    ∀ i, i ∉ rows.map S.id → (view c').rows.search i = (view c).rows.search i
  := by
  induction rows generalizing c done with
  | nil => exact ⟨c, rfl, hgood, h, by simp, fun _ _ => rfl⟩
  | cons row rows ih =>
    obtain ⟨hrow, hids⟩ := List.nodup_cons.mp hids
    obtain ⟨c₁, hc₁, hgood₁, h₁, w, hw, hsearch₁⟩ :=
      hstep c row done hgood h (hfresh row List.mem_cons_self)
    have hfresh₁ : ∀ row' ∈ rows, S.id row' ∉ S.id row :: done := by
      intro row' hmem hdone
      obtain heq | hdone := List.mem_cons.mp hdone
      · exact hrow (List.mem_map.mpr ⟨row', hmem, heq⟩)
      · exact hfresh row' (List.mem_cons_of_mem _ hmem) hdone
    obtain ⟨c', hc', hgood', h', hstored, hother⟩ := ih hids hgood₁ h₁ hfresh₁
    refine ⟨c', by simp [List.foldlM_cons, hc₁, hc'], hgood', h'.mono ?_, ?_, ?_⟩
    · intro i hi
      simp only [List.map_cons, List.mem_append, List.mem_cons] at hi ⊢
      tauto
    · intro row' hmem
      obtain rfl | hmem := List.mem_cons.mp hmem
      · refine ⟨w, hw, ?_⟩
        rw [hother _ hrow, hsearch₁, Function.update_self]
      · apply hstored row' hmem
    · intro i hi
      simp only [List.map_cons, List.mem_cons, not_or] at hi
      rw [hother i hi.2, hsearch₁, Function.update_of_ne hi.1]

/-- The structures of the list are kept or removed, the others stay. -/
theorem SweepLinks.foldlM (hstep : S.SweepLinks view good sweepStep) {ids : List ι}
    (keys : List ι) (hkeys : keys.Nodup) {c : C} (hgood : good c)
    (h : S.Linked ids (view c)) :
  ∃ c', keys.foldlM (sweepStep ids) c = some c' ∧ good c' ∧ S.Linked ids (view c') ∧
    ∀ i, (view c').rows.search i =
      if i ∈ keys then
        if i ∈ ids then ((view c).rows.search i).map S.kept else none
      else (view c).rows.search i
  := by
  induction keys generalizing c with
  | nil => exact ⟨c, rfl, hgood, h, by simp⟩
  | cons j keys ih =>
    obtain ⟨hj, hkeys⟩ := List.nodup_cons.mp hkeys
    obtain ⟨c₁, hc₁, hgood₁, h₁, hsearch₁⟩ := hstep ids c j hgood h
    obtain ⟨c', hc', hgood', h', hsearch⟩ := ih hkeys hgood₁ h₁
    refine ⟨c', by simp [List.foldlM_cons, hc₁, hc'], hgood', h', ?_⟩
    intro i
    rw [hsearch, hsearch₁]
    by_cases hij : i = j
    · rw [hij, if_neg hj, Function.update_self, if_pos List.mem_cons_self]
    · rw [Function.update_of_ne hij]
      simp [hij]

/-- Loading a snapshot whose ids and keys are unique makes hash set and index exact, and
no look-up fails on the way. -/
theorem Linked.load {agrees : ρ → ω → Prop} {rows : List ρ} (visit : Visit ι)
    (hrowStep : S.RowLinks view good stores rowStep)
    (hsweepStep : S.SweepLinks view good sweepStep)
    (hagrees : ∀ row w, agrees row w → S.keyOf w = S.rowKey row)
    (hstores : ∀ row w, stores row w → agrees row (S.kept w))
    (hvalid : S.Valid rows) {c : C} (hgood : good c) (h : S.Linked [] (view c)) :
  ∃ c', S.load view rowStep sweepStep visit rows c = some c' ∧ good c' ∧
    S.Exact agrees rows (view c')
  := by
  obtain ⟨c₁, hc₁, hgood₁, h₁, hstored₁, hother₁⟩ := hrowStep.foldlM rows hvalid.ids hgood
    h (fun _ _ => List.not_mem_nil)
  rw [List.append_nil] at h₁
  have hnodup : (visit.arrange (view c₁).rows.keys).Nodup :=
    (visit.perm _).nodup_iff.mpr (view c₁).rows.nodup
  obtain ⟨c', hc', hgood', h', hsearch⟩ := hsweepStep.foldlM _ hnodup hgood₁ h₁
  have hsearch : ∀ i, (view c').rows.search i =
      if i ∈ rows.map S.id then ((view c₁).rows.search i).map S.kept else none := by
    intro i
    rw [hsearch]
    by_cases hi : i ∈ visit.arrange (view c₁).rows.keys
    · rw [if_pos hi]
    · rw [if_neg hi]
      have hnone := Table.search_eq_none_iff.mpr (mt (visit.perm _).mem_iff.mpr hi)
      simp [hnone]
  refine ⟨c', by simp [IndexSchema.load, hc₁, hc'], hgood', ?_⟩
  have hstored : ∀ row ∈ rows, ∃ w, (view c').rows.search (S.id row) = some w ∧
      agrees row w := by
    intro row hrow
    obtain ⟨w, hw, hw₁⟩ := hstored₁ row hrow
    refine ⟨S.kept w, ?_, hstores row w hw⟩
    rw [hsearch, if_pos (List.mem_map.mpr ⟨row, hrow, rfl⟩), hw₁]
    rfl
  apply h'.exact hagrees hvalid _ hstored
  intro i
  constructor
  · intro hsome
    by_contra hi
    rw [hsearch, if_neg hi] at hsome
    contradiction
  · intro hi
    obtain ⟨row, hrow, rfl⟩ := List.mem_map.mp hi
    obtain ⟨w, hw, -⟩ := hstored row hrow
    rw [hw]
    rfl

end Load

/-- A row of a hash set without further parts is stored as `store` says. -/
theorem syncRow_links (S : IndexSchema ρ ι κ ω) :
  S.RowLinks (fun t => t) (fun _ => True) (fun row w => ∃ old, w = S.store old row) S.syncRow
  := by
  intro t row done _ h hrow
  obtain ⟨index, hindex, hlinked⟩ := h.syncRow hrow
  exact ⟨_, hindex, trivial, hlinked, _, ⟨_, rfl⟩, Table.search_set _ _ _⟩

theorem sweepRow_links (S : IndexSchema ρ ι κ ω) :
  S.SweepLinks (fun t => t) (fun _ => True) S.sweepRow
  := by
  intro ids t i _ h
  unfold sweepRow
  by_cases hi : i ∈ ids
  · rw [if_pos hi]
    cases hw : t.rows.search i with
    | none =>
      refine ⟨t, rfl, trivial, h, ?_⟩
      rw [if_pos hi, Option.map_none, ← hw, Function.update_eq_self]
    | some w =>
      have hset := Table.search_set t.rows i (S.kept w)
      refine ⟨_, rfl, trivial, h.modify hw hset (S.keyOf_kept w), ?_⟩
      rw [if_pos hi]
      exact hset
  · rw [if_neg hi]
    obtain ⟨t', ht', h', hsearch⟩ := h.removeRow hi
    exact ⟨t', ht', trivial, h', by rw [hsearch, if_neg hi]⟩

/-- Loading a snapshot into a hash set without further parts. -/
theorem Linked.sync {agrees : ρ → ω → Prop} {rows : List ρ} (visit : Visit ι)
    (hagrees : ∀ row w, agrees row w → S.keyOf w = S.rowKey row)
    (hstores : ∀ old row, agrees row (S.kept (S.store old row)))
    (hvalid : S.Valid rows) (h : S.Linked [] t) :
  ∃ t', S.sync visit rows t = some t' ∧ S.Exact agrees rows t'
  := by
  obtain ⟨t', ht', -, h'⟩ := Linked.load visit S.syncRow_links
    S.sweepRow_links hagrees
    (by
      rintro row w ⟨old, rfl⟩
      apply hstores) hvalid trivial h
  exact ⟨t', ht', h'⟩

end IndexSchema
