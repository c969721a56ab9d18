import Zabbix.Ids.NextId

/-!
# The ids that are reserved

No id is reserved twice as long as the ranges fit into the ids of the node and no process
finds a counter that has reached the last of them: both procedures look at the start of a
range only, if they look at all, and a counter that has reached the end is created once
more from the ids in the table, among which those that have been reserved last may still
be missing.
-/

namespace Ids

open IdRange

/-! ### What should hold -/

/-- The ids of the node that are in table `table`. -/
def nodeIds (node : Node) (rows : String → List ℕ) (table : String) : List ℕ :=
  (rows table).filter fun i => node.min table ≤ i ∧ i ≤ node.max table

/-- The returned ranges share no id, lie above the ids that were in the table before there
was a counter, and inside the range of the node. -/
structure Sound (node : Node) (rows : String → List ℕ) (s : State) : Prop where
  apart : ∀ table, (s.returned table).Pairwise Apart
  above : ∀ table, ∀ r ∈ s.returned table, ∀ i ∈ nodeIds node rows table, i < r.first
  inside : ∀ table, ∀ r ∈ s.returned table, ∀ i ∈ r,
    node.min table ≤ i ∧ i ≤ node.max table

/-- The statement that a process executes next reserves ids of the node, and a record that
it reads has not reached the last of them. -/
def StatementFits (node : Node) (s : State) : Process → Prop
  | .running table _ .selectNextid => ∀ ret1 ∈ s.nextid table, ret1 < node.max table
  | .running table num (.update _) => ∀ nextid ∈ s.nextid table, nextid + num ≤ node.max table
  | _ => True

/-- A step reserves ids of the node, and a record that it reads has not reached the last of
them. A counter in shared memory is created when it can be set from all ids of the node
in the table. -/
def Fits (node : Node) (s : State) : Action → Prop
  | .call _ table num =>
    table ∈ dcTables → s.dcLastid node table + num ≤ node.max table ∧
      (s.lastid.search table = none → ∀ i ∈ nodeIds node s.rows table, i ≤ node.dcMax table)
  | .execute p => StatementFits node s (s.processes p)
  | .giveUp _ | .store _ _ => True

instance (node : Node) (s : State) : ∀ process, Decidable (StatementFits node s process)
  | .running table _ .selectNextid =>
    inferInstanceAs (Decidable (∀ ret1 ∈ s.nextid table, ret1 < node.max table))
  | .running table num (.update _) =>
    inferInstanceAs (Decidable (∀ nextid ∈ s.nextid table, nextid + num ≤ node.max table))
  | .idle | .exited | .running _ _ .selectMaxid | .running _ _ (.insert _)
  | .running _ _ .increment | .running _ _ .delete | .running _ _ (.reselect _) =>
    inferInstanceAs (Decidable True)

instance (node : Node) (s : State) : ∀ action, Decidable (Fits node s action)
  | .call _ _ _ => inferInstanceAs (Decidable (_ → _ ∧ (_ → ∀ i ∈ nodeIds _ _ _, _)))
  | .execute p => inferInstanceAs (Decidable (StatementFits node s (s.processes p)))
  | .giveUp _ | .store _ _ => inferInstanceAs (Decidable True)

/-! ### The ranges of a node -/

theorem Node.dcMin_eq (node : Node) (table : String) :
  node.dcMin table = node.min table
  := by
  unfold dcMin min
  split_ifs with hsync hnode <;> simp_all

theorem Node.max_lt (node : Node) (table : String) :
  node.max table < 2 ^ 64
  := by
  have hnodeid := node.nodeid.isLt
  unfold max min
  simp only [dmMaxConfigIds, dmMaxHistoryIds, standaloneMaxIds]
  split_ifs <;> omega

/-! ### The greatest id -/

theorem maxId_eq_none_iff {rows : List ℕ} {min max : ℕ} :
  maxId rows min max = none ↔ ∀ i ∈ rows, min ≤ i → max < i
  := by
  simp [maxId, List.max?_eq_none_iff, List.filter_eq_nil_iff]

theorem maxId_eq_some_iff {rows : List ℕ} {min max last : ℕ} :
  maxId rows min max = some last ↔
    (last ∈ rows ∧ min ≤ last ∧ last ≤ max) ∧ ∀ i ∈ rows, min ≤ i → i ≤ max → i ≤ last
  := by
  simp only [maxId, List.max?_eq_some_iff, List.mem_filter, decide_eq_true_eq, and_imp]

/-- What a counter is set to: `min`, or the greatest id of the table. -/
def lastUsed (rows : List ℕ) (min max : ℕ) : ℕ := (maxId rows min max).getD min

theorem le_lastUsed {rows : List ℕ} {min max i : ℕ} (hi : i ∈ rows) (hmin : min ≤ i)
    (hmax : i ≤ max) :
  i ≤ lastUsed rows min max
  := by
  unfold lastUsed
  cases h : maxId rows min max with
  | none =>
    have hlt := maxId_eq_none_iff.mp h i hi hmin
    omega
  | some last => exact (maxId_eq_some_iff.mp h).2 i hi hmin hmax

theorem min_le_lastUsed (rows : List ℕ) (min max : ℕ) :
  min ≤ lastUsed rows min max
  := by
  unfold lastUsed
  cases h : maxId rows min max with
  | none => exact Nat.le_refl _
  | some last => exact (maxId_eq_some_iff.mp h).1.2.1

/-- The greatest id of a table is not less than that of a part of the table. -/
theorem lastUsed_mono {rows rows' : List ℕ} {min max max' : ℕ}
    (hrows : ∀ i ∈ rows, min ≤ i → i ≤ max → i ∈ rows' ∧ i ≤ max') :
  lastUsed rows min max ≤ lastUsed rows' min max'
  := by
  have hmin := min_le_lastUsed rows' min max'
  unfold lastUsed at hmin ⊢
  cases h : maxId rows min max with
  | none => exact hmin
  | some last =>
    obtain ⟨⟨hlast, hl, hu⟩, -⟩ := maxId_eq_some_iff.mp h
    obtain ⟨hlast', hu'⟩ := hrows last hlast hl hu
    exact le_lastUsed hlast' hl hu'

/-! ### The invariant -/

/-- The last id of table `table` that is in use when there is no counter yet. -/
def base (node : Node) (rows : String → List ℕ) (table : String) : ℕ :=
  lastUsed (rows table) (node.min table) (node.max table)

/-- What a process relies on before its next statement, which reserves `num` ids of a
table with the record `nextid`, when the ranges `returned` have been returned and `base`
is the last id in use before that. -/
def StatementInv (base max : ℕ) (nextid : Option ℕ) (returned : List IdRange) (num : ℕ) :
    (statement : Statement) → Prop
  | .insert ret1 => base ≤ ret1
  | .delete => False
  | .update ret1 => ∃ n ∈ nextid, ret1 ≤ n
  | .reselect ret1 => ∃ n ∈ nextid, ret1 + num ≤ n ∧
    -- no other process has been between the two statements
    (ret1 + num = n → n ≤ max ∧ Stacked (base + 1) returned (ret1 + 1))
  | .selectNextid | .selectMaxid | .increment => True

/-- What holds of a table after every step. -/
structure TableInv (node : Node) (rows : String → List ℕ) (s : State) (table : String) :
    Prop where
  grown : ∀ i ∈ rows table, i ∈ s.rows table
  inside : ∀ r ∈ s.returned table, r.first + r.num ≤ node.max table + 1
  fresh : s.nextid table = none → s.lastid.search table = none → s.returned table = []
  nextid : ∀ n ∈ s.nextid table,
    table ∉ dcTables ∧ Stacked (base node rows table + 1) (s.returned table) (n + 1)
  lastid : ∀ n ∈ s.lastid.search table,
    table ∈ dcTables ∧ Stacked (base node rows table + 1) (s.returned table) (n + 1)
  running : ∀ p num statement, s.processes p = .running table num statement →
    table ∉ dcTables ∧ 0 < num ∧ StatementInv (base node rows table) (node.max table)
      (s.nextid table) (s.returned table) num statement
  alone : ∀ p num ret1, s.processes p = .running table num (.reselect ret1) →
    ∀ q num' ret1', s.processes q = .running table num' (.reselect ret1') →
    q ≠ p → ∀ n ∈ s.nextid table, ret1 + num = n → ret1' + num' ≠ n

/-- A counter that another process has increased. -/
theorem StatementInv.raise {b max n n' num : ℕ} {returned : List IdRange}
    {statement : Statement} (h : StatementInv b max (some n) returned num statement)
    (hlt : n < n') :
  StatementInv b max (some n') returned num statement
  := by
  cases statement with
  | update ret1 =>
    obtain ⟨m, hm, hle⟩ := h
    obtain rfl := Option.mem_some_iff.mp hm
    exact ⟨n', rfl, by omega⟩
  | reselect ret1 =>
    obtain ⟨m, hm, hle, -⟩ := h
    obtain rfl := Option.mem_some_iff.mp hm
    refine ⟨n', rfl, by omega, ?_⟩
    intro heq
    omega
  | _ => exact h

/-- Before there is a record no process has read it. -/
theorem StatementInv.of_none {b max num : ℕ} {nextid : Option ℕ}
    {returned : List IdRange} {statement : Statement}
    (h : StatementInv b max none returned num statement) :
  StatementInv b max nextid returned num statement
  := by
  cases statement with
  | update ret1 =>
    obtain ⟨n, hn, -⟩ := h
    contradiction
  | reselect ret1 =>
    obtain ⟨n, hn, -⟩ := h
    contradiction
  | _ => exact h

namespace TableInv

variable {node : Node} {rows : String → List ℕ} {s s' : State} {table : String}

theorem initial (node : Node) (rows : String → List ℕ) (table : String) :
  TableInv node rows (.initial rows) table
  where
  grown := fun _ hi => hi
  inside := by simp [State.initial]
  fresh := fun _ _ => rfl
  nextid := by simp [State.initial]
  lastid := by simp [State.initial]
  running := by simp [State.initial]
  alone := by simp [State.initial]

/-- A step that does not concern a table. -/
theorem frame (h : TableInv node rows s table) (hrows : s.rows table ⊆ s'.rows table)
    (hnextid : s'.nextid table = s.nextid table)
    (hlastid : s'.lastid.search table = s.lastid.search table)
    (hreturned : s'.returned table = s.returned table)
    (hprocess : ∀ p num statement, s'.processes p = .running table num statement →
      s.processes p = .running table num statement) :
  TableInv node rows s' table
  where
  grown := fun i hi => hrows (h.grown i hi)
  inside := by
    rw [hreturned]
    exact h.inside
  fresh := by
    rw [hnextid, hlastid, hreturned]
    exact h.fresh
  nextid := by
    rw [hnextid, hreturned]
    exact h.nextid
  lastid := by
    rw [hlastid, hreturned]
    exact h.lastid
  running := by
    rw [hnextid, hreturned]
    exact fun p num statement hp => h.running p num statement (hprocess _ _ _ hp)
  alone := by
    rw [hnextid]
    exact fun p num ret1 hp q num' ret1' hq =>
      h.alone p num ret1 (hprocess _ _ _ hp) q num' ret1' (hprocess _ _ _ hq)

/-- A process goes on with another statement. -/
theorem setProcess (h : TableInv node rows s table) {p : ℕ} {process : Process}
    (hprocess : ∀ num statement, process = .running table num statement →
      table ∉ dcTables ∧ 0 < num ∧ StatementInv (base node rows table) (node.max table)
        (s.nextid table) (s.returned table) num statement)
    (halone : ∀ num ret1, process = .running table num (.reselect ret1) →
      ∀ q num' ret1', s.processes q = .running table num' (.reselect ret1') →
      ∀ n ∈ s.nextid table, ret1 + num = n → ret1' + num' ≠ n) :
  TableInv node rows (s.setProcess p process) table
  := by
  refine ⟨h.grown, h.inside, h.fresh, h.nextid, h.lastid, ?_, ?_⟩
  · intro q num statement hq
    by_cases hqp : q = p
    · apply hprocess num statement
      simpa [State.setProcess, hqp] using hq
    · apply h.running q num statement
      simpa [State.setProcess, hqp] using hq
  · intro q num ret1 hq q' num' ret1' hq' hne n hn heq
    by_cases hqp : q = p
    · have hq'p : q' ≠ p := by rwa [hqp] at hne
      apply halone num ret1 (by simpa [State.setProcess, hqp] using hq) q' num' ret1'
        (by simpa [State.setProcess, hq'p] using hq') n hn heq
    · have hq : s.processes q = .running table num (.reselect ret1) := by
        simpa [State.setProcess, hqp] using hq
      by_cases hq'p : q' = p
      · intro heq'
        exact halone num' ret1' (by simpa [State.setProcess, hq'p] using hq') q num ret1 hq n
          hn heq' heq
      · exact h.alone q num ret1 hq q' num' ret1' (by simpa [State.setProcess, hq'p] using hq')
          hne n hn heq

/-- The record that a process has read again is not less than what it has made it. -/
theorem reselect_le (h : TableInv node rows s table) {p num ret1 n : ℕ}
    (hp : s.processes p = .running table num (.reselect ret1))
    (hn : s.nextid table = some n) :
  ret1 + num ≤ n
  := by
  obtain ⟨-, -, m, hm, hle, -⟩ := h.running p num _ hp
  rw [hn] at hm
  obtain rfl := Option.mem_some_iff.mp hm
  exact hle

/-- The record is increased. -/
theorem raise (h : TableInv node rows s table) {n k : ℕ} (hn : s.nextid table = some n)
    (hk : 0 < k) :
  TableInv node rows (s.setNextid table (some (n + k))) table
  := by
  have hself : (s.setNextid table (some (n + k))).nextid table = some (n + k) :=
    Function.update_self ..
  refine ⟨h.grown, h.inside, ?_, ?_, h.lastid, ?_, ?_⟩
  · intro hnone
    rw [hself] at hnone
    contradiction
  · intro m hm
    rw [hself] at hm
    obtain rfl := Option.mem_some_iff.mp hm
    obtain ⟨hdc, hstacked⟩ := h.nextid n hn
    exact ⟨hdc, hstacked.raise (by omega)⟩
  · intro p num statement hp
    obtain ⟨hdc, hnum, hinv⟩ := h.running p num statement hp
    rw [hself]
    rw [hn] at hinv
    exact ⟨hdc, hnum, hinv.raise (by omega)⟩
  · intro p num ret1 hp q num' ret1' hq hne m hm heq
    rw [hself] at hm
    obtain rfl := Option.mem_some_iff.mp hm
    have hle := h.reselect_le hp hn
    omega

/-- The record is created. -/
theorem create (h : TableInv node rows s table) {ret1 : ℕ} (hnone : s.nextid table = none)
    (hdc : table ∉ dcTables) (hret1 : base node rows table ≤ ret1) :
  TableInv node rows (s.setNextid table (some ret1)) table
  := by
  have hself : (s.setNextid table (some ret1)).nextid table = some ret1 :=
    Function.update_self ..
  have hlastid : s.lastid.search table = none := by
    apply Option.eq_none_iff_forall_not_mem.mpr
    intro n hn
    exact hdc (h.lastid n hn).1
  refine ⟨h.grown, h.inside, ?_, ?_, h.lastid, ?_, ?_⟩
  · intro hnone'
    rw [hself] at hnone'
    contradiction
  · intro m hm
    rw [hself] at hm
    obtain rfl := Option.mem_some_iff.mp hm
    refine ⟨hdc, ?_⟩
    change Stacked _ (s.returned table) _
    rw [h.fresh hnone hlastid]
    change _ ≤ _
    omega
  · intro p num statement hp
    obtain ⟨hdc, hnum, hinv⟩ := h.running p num statement hp
    rw [hself]
    rw [hnone] at hinv
    exact ⟨hdc, hnum, hinv.of_none⟩
  · intro p num ret1' hp
    obtain ⟨-, -, n, hn, -⟩ := h.running p num _ hp
    rw [hnone] at hn
    contradiction

/-- A process that has found its own increase only returns what it has added. -/
theorem success (h : TableInv node rows s table) {p num ret1 : ℕ}
    (hp : s.processes p = .running table num (.reselect ret1))
    (hn : s.nextid table = some (ret1 + num)) :
  TableInv node rows ((s.setProcess p .idle).addReturned table ⟨ret1 + num - num + 1, num⟩)
    table
  := by
  obtain ⟨hdc, hnum, n, hn', -, hown⟩ := h.running p num _ hp
  rw [hn] at hn'
  obtain rfl := Option.mem_some_iff.mp hn'
  obtain ⟨hmax, hstacked⟩ := hown rfl
  set s' := (s.setProcess p .idle).addReturned table ⟨ret1 + num - num + 1, num⟩ with hs'
  have hself : s'.returned table = ⟨ret1 + 1, num⟩ :: s.returned table := by
    rw [hs', Nat.add_sub_cancel]
    exact Function.update_self ..
  have hrunning : ∀ q num' statement, s'.processes q = .running table num' statement →
      q ≠ p ∧ s.processes q = .running table num' statement := by
    intro q num' statement hq
    by_cases hqp : q = p
    · simp [hs', State.addReturned, State.setProcess, hqp] at hq
    · exact ⟨hqp, by simpa [hs', State.addReturned, State.setProcess, hqp] using hq⟩
  have hpush : Stacked (base node rows table + 1) (s'.returned table) (ret1 + num + 1) := by
    rw [hself]
    exact (hstacked.push num).raise (by omega)
  refine ⟨h.grown, ?_, ?_, ?_, ?_, ?_, ?_⟩
  · rw [hself]
    apply List.forall_mem_cons.mpr ⟨_, h.inside⟩
    change ret1 + 1 + num ≤ _
    omega
  · intro hnone
    have hnone' : s.nextid table = none := hnone
    rw [hn] at hnone'
    contradiction
  · intro m hm
    obtain rfl : ret1 + num = m := Option.mem_some_iff.mp (hn ▸ hm)
    exact ⟨hdc, hpush⟩
  · intro m hm
    exact absurd (h.lastid m hm).1 hdc
  · intro q num' statement hq
    obtain ⟨hqp, hq⟩ := hrunning q num' statement hq
    obtain ⟨-, hnum', hinv⟩ := h.running q num' statement hq
    refine ⟨hdc, hnum', ?_⟩
    cases statement with
    | reselect ret1' =>
      obtain ⟨m, hm, hle, -⟩ := hinv
      refine ⟨m, hm, hle, ?_⟩
      intro heq
      rw [hn] at hm
      obtain rfl := Option.mem_some_iff.mp hm
      exact absurd heq (h.alone p num ret1 hp q num' ret1' hq hqp _ hn rfl)
    | _ => exact hinv
  · intro q num' ret1' hq q' num'' ret1'' hq'
    exact h.alone q num' ret1' (hrunning _ _ _ hq).2 q' num'' ret1'' (hrunning _ _ _ hq').2

/-- The counter in shared memory hands out the next ids. -/
theorem dcGetNextid (h : TableInv node rows s table) {p num : ℕ} (hdc : table ∈ dcTables)
    (hnum : 0 < num) (hfits : Fits node s (.call p table num)) :
  TableInv node rows (Ids.dcGetNextid node s p table num) table
  := by
  obtain ⟨hmax, hcreate⟩ := hfits hdc
  unfold Ids.dcGetNextid
  split_ifs with hfull
  · apply h.setProcess <;> simp
  have hlt := node.max_lt table
  have hnextid : s.nextid table = none := by
    apply Option.eq_none_iff_forall_not_mem.mpr
    intro n hn
    exact (h.nextid n hn).1 hdc
  -- no range lies above the last id, whether there is a slot yet or not
  have hstacked : Stacked (base node rows table + 1) (s.returned table)
      (s.dcLastid node table + 1) := by
    unfold State.dcLastid
    cases hlastid : s.lastid.search table with
    | some last => exact (h.lastid last hlastid).2
    | none =>
      rw [h.fresh hnextid hlastid, Option.getD_none, node.dcMin_eq]
      apply Nat.succ_le_succ
      apply lastUsed_mono
      intro i hi hmin hi'
      have hrow := h.grown i hi
      refine ⟨hrow, hcreate hlastid i ?_⟩
      simp [nodeIds, hrow, hmin, hi']
  set last := s.dcLastid node table
  dsimp only
  -- nothing wraps around
  rw [Nat.mod_eq_of_lt (by omega : last + num < 2 ^ 64),
    Nat.mod_eq_of_lt (by omega : last + 1 < 2 ^ 64)]
  set s' := (s.setLastid table (last + num)).addReturned table ⟨last + 1, num⟩ with hs'
  have hreturned : s'.returned table = ⟨last + 1, num⟩ :: s.returned table :=
    Function.update_self ..
  have hlastid : s'.lastid.search table = some (last + num) :=
    s.lastid.search_set_self table (last + num)
  have hidle : ∀ q num' statement, s'.processes q ≠ .running table num' statement := by
    intro q num' statement hq
    exact (h.running q num' statement hq).1 hdc
  refine ⟨h.grown, ?_, ?_, ?_, ?_, ?_, ?_⟩
  · rw [hreturned]
    apply List.forall_mem_cons.mpr ⟨_, h.inside⟩
    change last + 1 + num ≤ _
    omega
  · intro _ hnone
    rw [hlastid] at hnone
    contradiction
  · intro n hn
    exact absurd hdc (h.nextid n hn).1
  · intro n hn
    rw [hlastid] at hn
    obtain rfl := Option.mem_some_iff.mp hn
    rw [hreturned]
    exact ⟨hdc, (hstacked.push num).raise (by omega)⟩
  · intro q num' statement hq
    exact absurd hq (hidle q num' statement)
  · intro q num' ret1 hq
    exact absurd hq (hidle q num' _)

/-- A statement on the table itself. -/
theorem dbGetNextid (h : TableInv node rows s table) {p num : ℕ} {statement : Statement}
    (hp : s.processes p = .running table num statement)
    (hfits : Fits node s (.execute p)) :
  TableInv node rows (Ids.dbGetNextid node s p table num statement) table
  := by
  obtain ⟨hdc, hnum, hinv⟩ := h.running p num statement hp
  rw [Fits, hp] at hfits
  -- to go on with a statement that relies on nothing else
  have hgoto : ∀ {s' : State} {next : Statement}, TableInv node rows s' table →
      (∀ ret1, next ≠ .reselect ret1) →
      StatementInv (base node rows table) (node.max table) (s'.nextid table)
        (s'.returned table) num next →
      TableInv node rows (s'.setProcess p (.running table num next)) table := by
    intro s' next hs' hnext hnextInv
    apply hs'.setProcess
    · intro num' next' heq
      obtain ⟨-, rfl, rfl⟩ := Process.running.injEq .. ▸ heq
      exact ⟨hdc, hnum, hnextInv⟩
    · intro num' ret1 heq
      obtain ⟨-, -, rfl⟩ := Process.running.injEq .. ▸ heq
      exact absurd rfl (hnext ret1)
  cases statement with
  | selectNextid =>
    simp only [Ids.dbGetNextid]
    split
    · exact hgoto h (by simp) trivial
    · rename_i ret1 hret1
      have hmax := hfits ret1 hret1
      have hfloor := (h.nextid ret1 hret1).2.floor_le
      have hmin := min_le_lastUsed (rows table) (node.min table) (node.max table)
      unfold base at hfloor
      rw [if_neg (by omega)]
      exact hgoto h (by simp) ⟨ret1, hret1, Nat.le_refl _⟩
  | selectMaxid =>
    have hbase : base node rows table
        ≤ lastUsed (s.rows table) (node.min table) (node.max table) :=
      lastUsed_mono fun i hi _ hmax => ⟨h.grown i hi, hmax⟩
    unfold lastUsed at hbase
    simp only [Ids.dbGetNextid]
    split
    · rename_i hnone
      rw [hnone] at hbase
      exact hgoto h (by simp) hbase
    · rename_i ret1 hret1
      rw [hret1] at hbase
      split_ifs
      · apply h.setProcess <;> simp
      · exact hgoto h (by simp) hbase
  | insert ret1 =>
    simp only [Ids.dbGetNextid]
    split
    · rename_i hnone
      exact hgoto (h.create hnone hdc hinv) (by simp) trivial
    · exact hgoto h (by simp) trivial
  | increment =>
    simp only [Ids.dbGetNextid]
    cases hn : s.nextid table with
    | none =>
      have hsame : s.setNextid table none = s := by
        unfold State.setNextid
        rw [← hn, Function.update_eq_self]
      rw [Option.map_none, hsame]
      exact hgoto h (by simp) trivial
    | some n => exact hgoto (h.raise hn Nat.one_pos) (by simp) trivial
  | delete => contradiction
  | update ret1 =>
    obtain ⟨n, hn, hle⟩ := hinv
    have hmax := hfits n hn
    have hself : (s.setNextid table (some (n + num))).nextid table = some (n + num) :=
      Function.update_self ..
    simp only [Ids.dbGetNextid]
    rw [hn, Option.map_some]
    apply (h.raise hn hnum).setProcess
    · intro num' next heq
      obtain ⟨-, rfl, rfl⟩ := Process.running.injEq .. ▸ heq
      refine ⟨hdc, hnum, n + num, hself, by omega, ?_⟩
      intro heq
      obtain rfl : ret1 = n := by omega
      exact ⟨hmax, (h.nextid ret1 hn).2⟩
    · intro num' ret1' heq q num'' ret1'' hq m hm heq'
      rw [hself] at hm
      obtain rfl := Option.mem_some_iff.mp hm
      have hqle := h.reselect_le hq hn
      omega
  | reselect ret1 =>
    simp only [Ids.dbGetNextid]
    split
    · exact hgoto h (by simp) trivial
    · rename_i ret2 hret2
      split_ifs with heq
      · subst heq
        exact h.success hp hret2
      · exact hgoto h (by simp) trivial

/-- A statement on another table. -/
theorem dbGetNextid_of_ne (h : TableInv node rows s table) {p num : ℕ} {table' : String}
    {statement : Statement} (hne : table ≠ table') :
  TableInv node rows (Ids.dbGetNextid node s p table' num statement) table
  := by
  have hprocess : ∀ {s' : State} {process : Process}, TableInv node rows s' table →
      (∀ num statement, process ≠ .running table num statement) →
      TableInv node rows (s'.setProcess p process) table := by
    intro s' process hs' hother
    apply hs'.setProcess
    · intro num statement heq
      exact absurd heq (hother num statement)
    · intro num ret1 heq
      exact absurd heq (hother num _)
  have hrunning : ∀ next num' statement',
      Process.running table' num next ≠ .running table num' statement' := by
    intro next num' statement' heq
    exact hne (Process.running.injEq .. ▸ heq).1.symm
  have hnextid : ∀ nextid, TableInv node rows (s.setNextid table' nextid) table := by
    intro nextid
    exact h.frame (List.Subset.refl _) (Function.update_of_ne hne ..) rfl rfl
      fun _ _ _ hp => hp
  cases statement with
  | selectNextid =>
    simp only [Ids.dbGetNextid]
    split
    · exact hprocess h (hrunning _)
    · split_ifs
      · exact hprocess h (hrunning _)
      · exact hprocess h (hrunning _)
  | selectMaxid =>
    simp only [Ids.dbGetNextid]
    split
    · exact hprocess h (hrunning _)
    · split_ifs
      · exact hprocess h (by simp)
      · exact hprocess h (hrunning _)
  | insert ret1 =>
    simp only [Ids.dbGetNextid]
    split
    · exact hprocess (hnextid _) (hrunning _)
    · exact hprocess h (hrunning _)
  | increment => exact hprocess (hnextid _) (hrunning _)
  | delete => exact hprocess (hnextid _) (hrunning _)
  | update ret1 => exact hprocess (hnextid _) (hrunning _)
  | reselect ret1 =>
    simp only [Ids.dbGetNextid]
    split
    · exact hprocess h (hrunning _)
    · split_ifs
      · have hidle : TableInv node rows (s.setProcess p .idle) table :=
          hprocess h (by simp)
        apply hidle.frame
        · exact List.Subset.refl _
        · rfl
        · rfl
        · exact Function.update_of_ne hne ..
        · exact fun _ _ _ hp => hp
      · exact hprocess h (hrunning _)

/-- A counter of another table hands out ids. -/
theorem dcGetNextid_of_ne (h : TableInv node rows s table) {p num : ℕ} {table' : String}
    (hne : table ≠ table') :
  TableInv node rows (Ids.dcGetNextid node s p table' num) table
  := by
  unfold Ids.dcGetNextid
  split_ifs
  · apply h.setProcess <;> simp
  · apply h.frame
    · exact List.Subset.refl _
    · rfl
    · exact s.lastid.search_set_of_ne _ hne
    · exact Function.update_of_ne hne ..
    · exact fun _ _ _ hp => hp

/-- A step that meets the condition. -/
theorem step {action : Action} (h : TableInv node rows s table) (hfits : Fits node s action)
    (hstep : StepOf (Ids.step node) s action s') :
  TableInv node rows s' table
  := by
  cases action with
  | call p table' num =>
    simp only [StepOf, Ids.step, Option.ite_none_right_eq_some] at hstep
    obtain ⟨⟨-, hnum⟩, hstep⟩ := hstep
    split_ifs at hstep with hdc
    · obtain rfl := Option.some.inj hstep
      by_cases heq : table = table'
      · subst heq
        exact h.dcGetNextid hdc hnum hfits
      · exact h.dcGetNextid_of_ne heq
    · obtain rfl := Option.some.inj hstep
      apply h.setProcess
      · intro num' statement heq
        obtain ⟨rfl, rfl, rfl⟩ := Process.running.injEq .. ▸ heq
        exact ⟨hdc, hnum, trivial⟩
      · simp
  | execute p =>
    simp only [StepOf, Ids.step] at hstep
    split at hstep
    · rename_i table' num statement hp
      obtain rfl := Option.some.inj hstep
      by_cases heq : table = table'
      · subst heq
        exact h.dbGetNextid hp hfits
      · exact h.dbGetNextid_of_ne heq
    · contradiction
  | giveUp p =>
    simp only [StepOf, Ids.step] at hstep
    split at hstep
    · obtain rfl := Option.some.inj hstep
      apply h.setProcess <;> simp
    · contradiction
  | store table' i =>
    simp only [StepOf, Ids.step, Option.ite_none_right_eq_some] at hstep
    obtain ⟨-, hstep⟩ := hstep
    obtain rfl := Option.some.inj hstep
    refine h.frame ?_ rfl rfl rfl fun _ _ _ hp => hp
    by_cases heq : table = table'
    · subst heq
      simp [State.addRow]
    · simp [State.addRow, heq]

/-- The ranges of a table are stacked above the ids that it had. -/
theorem stacked (h : TableInv node rows s table) :
  ∃ next, Stacked (base node rows table + 1) (s.returned table) next
  := by
  cases hnextid : s.nextid table with
  | some n => exact ⟨n + 1, (h.nextid n hnextid).2⟩
  | none =>
    cases hlastid : s.lastid.search table with
    | some n => exact ⟨n + 1, (h.lastid n hlastid).2⟩
    | none =>
      rw [h.fresh hnextid hlastid]
      exact ⟨_, Nat.le_refl _⟩

end TableInv

theorem Sound.of_tableInv {node : Node} {rows : String → List ℕ} {s : State}
    (h : ∀ table, TableInv node rows s table) :
  Sound node rows s
  where
  apart := fun table => (h table).stacked.choose_spec.apart
  above := by
    intro table r hr i hi
    obtain ⟨next, hstacked⟩ := (h table).stacked
    obtain ⟨hrow, hmin, hmax⟩ : i ∈ rows table ∧ node.min table ≤ i ∧ i ≤ node.max table := by
      simpa [nodeIds] using hi
    have hle := le_lastUsed hrow hmin hmax
    have hfirst := (hstacked.bounds r hr).1
    unfold base at hfirst
    omega
  inside := by
    intro table r hr i hi
    obtain ⟨next, hstacked⟩ := (h table).stacked
    have hfirst := (hstacked.bounds r hr).1
    have hmin := min_le_lastUsed (rows table) (node.min table) (node.max table)
    have hlast := (h table).inside r hr
    unfold base at hfirst
    rw [mem_def] at hi
    omega

/-- In every state of every interleaving in which the ranges fit. -/
theorem run_sound {node : Node} {rows : String → List ℕ} {s : State} {actions : List Action}
    (run : Run (StepOf (step node)) (Fits node) (.initial rows) actions s) :
  Sound node rows s
  := by
  apply Sound.of_tableInv
  intro table
  apply run.invariant (TableInv.initial node rows table)
  intro s action s' h hfits hstep
  exact h.step hfits hstep

/-- Node 1 of a distributed setup, seen from tables that are not synchronised. -/
def node1 : Node where
  nodeid := ⟨1, by decide⟩
  sync := fun _ => false

/-- A call of `DBget_maxid_num` by process `p` that creates the counter of a table in the
database and is not disturbed. -/
def firstCall (p : ℕ) (table : String) (num : ℕ) : List Action :=
  .call p table num :: List.replicate 6 (.execute p)

/-- Processes 0 and 1 both read the counter before they increment it, so that both try again.
Then ids of another table are reserved, whose counter is in shared memory. -/
def crossingCalls : List Action :=
  firstCall 0 "housekeeper" 3 ++
    [.store "housekeeper" 100000000000008, .call 0 "housekeeper" 2, .call 1 "housekeeper" 4,
      .execute 0, .execute 1, .execute 1, .execute 0, .execute 0, .execute 1] ++
    List.replicate 3 (.execute 0) ++ List.replicate 3 (.execute 1) ++
    [.call 1 "events" 2, .call 0 "events" 5]

theorem crossingCalls_sound :
  (execute (step node1) (.initial fun _ => [100000000000007]) crossingCalls).map
      (fun s => (s.returned "housekeeper", s.returned "events"))
    = some ([⟨100000000000019, 4⟩, ⟨100000000000017, 2⟩, ⟨100000000000008, 3⟩],
      [⟨100000000000010, 5⟩, ⟨100000000000008, 2⟩]) ∧
  ∀ s ∈ execute (step node1) (.initial fun _ => [100000000000007]) crossingCalls,
    Sound node1 (fun _ => [100000000000007]) s
  := by
  constructor
  · decide
  · intro s hs
    exact run_sound (Run.of_execute hs (by decide))

/-- Process 0 reserves the last three ids of the node. Process 1 finds that the counter has
reached the end, creates it once more from the ids that are in the table already, and
gets the same three. -/
def repeatedCalls : List Action :=
  firstCall 0 "housekeeper" 3 ++ [.call 1 "housekeeper" 3, .execute 1, .execute 1] ++
    List.replicate 6 (.execute 1)

theorem repeatedCalls_not_sound :
  ¬ ∀ (node : Node) (rows : String → List ℕ) (actions : List Action) (s : State),
    Run (StepOf (step node)) (fun _ _ => True) (.initial rows) actions s →
    Sound node rows s
  := by
  intro hall
  have hreturned : (execute (step node1) (.initial fun _ => [199999999999996])
      repeatedCalls).map (·.returned "housekeeper")
        = some [⟨199999999999997, 3⟩, ⟨199999999999997, 3⟩] := by
    decide
  obtain ⟨s, hs, hranges⟩ := Option.map_eq_some_iff.mp hreturned
  have hrun := Run.of_execute hs (.trivial _ _)
  have happart := (hall _ _ _ s hrun).apart "housekeeper"
  rw [hranges] at happart
  have hsame := List.rel_of_pairwise_cons happart List.mem_cons_self
  exact hsame 199999999999997 (by decide) (by decide)

end Ids
