import Zabbix.Availability.Documented

/-!
# The availability columns

The availability that a call writes to the cache is written to the columns of table
`hosts` too, one statement for the columns that have changed. The names of the columns are
put together from a prefix for the type of the item and the name of the field; for IPMI
items the prefix is misspelt, so that the statement names columns that are not there and
the database rejects it.
-/

namespace DbConfig

/-- The prefix of the columns of a kind. -/
def AvailabilityKind.columnPrefix : AvailabilityKind → String
  | .agent => ""
  | .snmp => "snmp_"
  | .ipmi => "ipmi_"
  | .jmx => "jmx_"

/-- The columns of a kind. -/
def AvailabilityKind.columns (k : AvailabilityKind) : List String :=
  [k.columnPrefix ++ "available", k.columnPrefix ++ "errors_from",
    k.columnPrefix ++ "disable_until"]

/-- The columns with a prefix have the values of an availability. -/
structure Holds (columnPrefix : String) (row : Row) (a : Availability) : Prop where
  available : row (columnPrefix ++ "available") = .int a.available.toNat
  errorsFrom : row (columnPrefix ++ "errors_from") = .int a.errorsFrom
  disableUntil : row (columnPrefix ++ "disable_until") = .int a.disableUntil

/-- The columns determine the availability. -/
theorem Holds.unique {columnPrefix : String} {row : Row} {a a' : Availability}
    (h : Holds columnPrefix row a) (h' : Holds columnPrefix row a') :
  a' = a
  := by
  obtain ⟨errorsFrom, available, disableUntil⟩ := a
  obtain ⟨errorsFrom', available', disableUntil'⟩ := a'
  have havailable := h.available.symm.trans h'.available
  have herrors := h.errorsFrom.symm.trans h'.errorsFrom
  have hdisable := h.disableUntil.symm.trans h'.disableUntil
  simp only [Cell.int.injEq, Nat.cast_inj] at havailable herrors hdisable
  rw [herrors, hdisable, UInt8.toNat_inj.mp havailable]

/-- Executing the assignments of a statement one after the other. -/
def assign (row : Row) (sets : List (String × Cell)) : Row :=
  sets.foldl (fun row set => Function.update row set.1 set.2) row

theorem assign_of_notMem {sets : List (String × Cell)} {column : String}
    (hcolumn : column ∉ sets.map Prod.fst) (row : Row) :
  assign row sets column = row column
  := by
  induction sets generalizing row with
  | nil => rfl
  | cons set sets ih =>
    simp only [List.map_cons, List.mem_cons, not_or] at hcolumn
    exact (ih hcolumn.2 _).trans (Function.update_of_ne hcolumn.1 _ _)

theorem assign_append (row : Row) (sets sets' : List (String × Cell)) :
  assign row (sets ++ sets') = assign (assign row sets) sets'
  := List.foldl_append

/-- Writing a value only when it has changed is writing it. -/
theorem assign_changed {α : Type} [DecidableEq α] {row : Row} {column : String}
    (cell : α → Cell) {x : α} (hrow : row column = cell x) (y : α) :
  assign row (if x ≠ y then [(column, cell y)] else []) = Function.update row column (cell y)
  := by
  by_cases hxy : x = y
  · rw [if_neg (not_not_intro hxy), ← hxy, ← hrow, Function.update_eq_self]
    rfl
  · rw [if_pos hxy]
    rfl

/-- The statement for a change writes the new values. -/
theorem assign_sqlset {columnPrefix : String} {row : Row} {input output : Availability}
    (h : Holds columnPrefix row input) (error : Cell) :
  Holds columnPrefix
    (assign row (sqlset columnPrefix input output ++ [(columnPrefix ++ "error", error)])) output
  := by
  have havailable := assign_changed (fun n : UInt8 => Cell.int n.toNat) h.available
    output.available
  generalize hrow₁ : Function.update row (columnPrefix ++ "available")
    (Cell.int output.available.toNat) = row₁ at havailable
  have herrors₁ : row₁ (columnPrefix ++ "errors_from") = .int input.errorsFrom := by
    rw [← hrow₁]
    simpa using h.errorsFrom
  have hdisable₁ : row₁ (columnPrefix ++ "disable_until") = .int input.disableUntil := by
    rw [← hrow₁]
    simpa using h.disableUntil
  have herrors := assign_changed Cell.int herrors₁ output.errorsFrom
  generalize hrow₂ : Function.update row₁ (columnPrefix ++ "errors_from")
    (Cell.int output.errorsFrom) = row₂ at herrors
  have hdisable₂ : row₂ (columnPrefix ++ "disable_until") = .int input.disableUntil := by
    rw [← hrow₂]
    simpa using hdisable₁
  have hdisable := assign_changed Cell.int hdisable₂ output.disableUntil
  unfold sqlset
  rw [assign_append, assign_append, assign_append, havailable, herrors, hdisable, ← hrow₂,
    ← hrow₁]
  constructor <;> simp [assign]

/-- The assignments of a statement for a kind are to columns with the prefix written for
it. -/
theorem columns_sqlset (writtenPrefix : String) (input output : Availability) (error : Cell) :
  (sqlset writtenPrefix input output ++ [(writtenPrefix ++ "error", error)]).map Prod.fst ⊆
    [writtenPrefix ++ "available", writtenPrefix ++ "errors_from",
      writtenPrefix ++ "disable_until", writtenPrefix ++ "error"]
  := by
  intro column hcolumn
  unfold sqlset at hcolumn
  simp only [List.map_append, List.mem_append, apply_ite (List.map Prod.fst), List.map_cons,
    List.map_nil, List.mem_ite_nil_right, List.mem_singleton] at hcolumn
  simp only [List.mem_cons, List.not_mem_nil, or_false]
  tauto

/-- No statement for a kind writes the columns of another. -/
theorem columns_disjoint {k k' : AvailabilityKind} (hk : k' ≠ k) :
  ∀ column ∈ k'.columns, column ∉ [k.writtenPrefix ++ "available",
    k.writtenPrefix ++ "errors_from", k.writtenPrefix ++ "disable_until",
    k.writtenPrefix ++ "error"]
  := by
  cases k <;> cases k' <;> first | contradiction | decide

/-- The database knows the columns of a statement for a kind, unless it is for IPMI. -/
theorem columns_exist {k : AvailabilityKind} (hk : k ≠ .ipmi) :
  k.writtenPrefix = k.columnPrefix ∧
    ∀ column ∈ [k.writtenPrefix ++ "available", k.writtenPrefix ++ "errors_from",
      k.writtenPrefix ++ "disable_until", k.writtenPrefix ++ "error"], column ∈ hostsColumns
  := by
  cases k <;> first | contradiction | (constructor <;> decide)

/-- The names of the columns that a statement for a kind may assign. -/
def AvailabilityKind.written (k : AvailabilityKind) : List String :=
  [k.writtenPrefix ++ "available", k.writtenPrefix ++ "errors_from",
    k.writtenPrefix ++ "disable_until", k.writtenPrefix ++ "error"]

/-- Nothing has changed when there is nothing to assign. -/
theorem eq_of_sqlset_eq_nil {columnPrefix : String} {input output : Availability}
    (h : sqlset columnPrefix input output = []) :
  output = input
  := by
  obtain ⟨errorsFrom, available, disableUntil⟩ := input
  obtain ⟨errorsFrom', available', disableUntil'⟩ := output
  simp only [sqlset, List.append_eq_nil_iff, ite_eq_right_iff, List.cons_ne_nil, imp_false,
    not_not] at h
  obtain ⟨⟨rfl, rfl⟩, rfl⟩ := h
  rfl

/-! ### One statement -/

theorem execute_search (stmt : Statement) (db : Table UInt64 Row) (hostid : UInt64) :
  (stmt.execute db).search hostid =
    if hostid = stmt.hostid ∧ ∀ set ∈ stmt.sets, set.1 ∈ hostsColumns then
      (db.search hostid).map fun row => assign row stmt.sets
    else db.search hostid
  := by
  unfold Statement.execute
  by_cases hcolumns : ∀ set ∈ stmt.sets, set.1 ∈ hostsColumns
  · rw [if_pos (by simpa using hcolumns)]
    cases hrow : db.search stmt.hostid with
    | none =>
      by_cases hid : hostid = stmt.hostid
      · simp [hid, hrow]
      · simp [hid]
    | some row =>
      rw [Option.elim_some, Table.search_set, Function.update_apply]
      by_cases hid : hostid = stmt.hostid
      · rw [if_pos hid, if_pos ⟨hid, hcolumns⟩, hid, hrow]
        rfl
      · rw [if_neg hid, if_neg (fun h => hid h.1)]
  · rw [if_neg (by simpa using hcolumns), if_neg (fun h => hcolumns h.2)]

namespace HostState

variable (s : HostState) (hostid : UInt64) (host : Host) (a : Availability) (error : String)

/-- The columns of other hosts and other kinds are not touched. -/
theorem update_untouched (k : AvailabilityKind) {hostid' : UInt64} {column : String}
    (hne : hostid' ≠ hostid ∨ column ∉ k.written) :
  ((s.update hostid host k a error).db.search hostid').map (· column) =
    (s.db.search hostid').map (· column)
  := by
  unfold HostState.update changeStatement
  dsimp only
  split
  · rfl
  · rw [Option.elim_some, execute_search]
    dsimp only
    split
    · rename_i h
      have hcolumn : column ∉ k.written := hne.resolve_left (not_not_intro h.1)
      rw [Option.map_map]
      congr 1
      funext row
      apply assign_of_notMem
      intro hmem
      exact hcolumn (columns_sqlset _ _ _ _ hmem)
    · rfl

/-- The columns of a kind other than IPMI get the new values. -/
theorem update_holds {k : AvailabilityKind} (hk : k ≠ .ipmi) {row : Row}
    (hrow : s.db.search hostid = some row) (hold : Holds k.columnPrefix row (host.byKind k)) :
  ∃ row', (s.update hostid host k a error).db.search hostid = some row' ∧
    Holds k.columnPrefix row' a
  := by
  obtain ⟨hcolumn, hexist⟩ := columns_exist hk
  unfold HostState.update changeStatement
  dsimp only
  split
  · rename_i hnone
    refine ⟨row, hrow, ?_⟩
    rw [eq_of_sqlset_eq_nil hnone]
    exact hold
  · rw [Option.elim_some, execute_search, if_pos, hrow]
    · refine ⟨_, rfl, ?_⟩
      rw [hcolumn]
      exact assign_sqlset hold _
    · refine ⟨rfl, ?_⟩
      intro set hset
      exact hexist _ (columns_sqlset _ _ _ _ (List.mem_map_of_mem hset))

/-- The statement for IPMI is rejected. -/
theorem update_ipmi :
  (s.update hostid host .ipmi a error).db = s.db
  := by
  have hmissing : AvailabilityKind.ipmi.writtenPrefix ++ "error" ∉ hostsColumns := by decide
  unfold HostState.update changeStatement
  dsimp only
  split
  · rfl
  · rw [Option.elim_some]
    unfold Statement.execute
    rw [if_neg]
    simp [hmissing]

end HostState

/-! ### Sequences of calls -/

/-- The availability is already what the result makes of it, to the last field. -/
def Idle (periods : Periods) (a : Availability) : PollResult → Prop
  | .success => a = { errorsFrom := 0, available := hostAvailableTrue, disableUntil := 0 }
  | .failure ts _ =>
    if a.errorsFrom = 0 then
      ts = 0 ∧ a.disableUntil = CInt.wrap (ts + periods.unreachableDelay)
    else if periods.unreachableDelay ≤ secondsSince ts a.errorsFrom then
      if periods.unreachablePeriod > secondsSince ts a.errorsFrom then
        a.disableUntil = CInt.wrap (ts + periods.unreachableDelay)
      else
        a.disableUntil = CInt.wrap (ts + periods.unavailableDelay) ∧
          a.available = hostAvailableFalse
    else True

instance (periods : Periods) (a : Availability) :
    (r : PollResult) → Decidable (Idle periods a r)
  | .success => inferInstanceAs (Decidable (_ = _))
  | .failure _ _ => inferInstanceAs (Decidable (ite _ _ (ite _ (ite _ _ _) _)))

/-- A result changes nothing exactly when the availability is idle. -/
theorem next_eq_iff (periods : Periods) (a : Availability) (r : PollResult) :
  r.next periods a = a ↔ Idle periods a r
  := by
  cases r with
  | success => exact eq_comm
  | failure ts error =>
    obtain ⟨errorsFrom, available, disableUntil⟩ := a
    unfold PollResult.next deactivated Idle
    dsimp only
    split
    · rename_i hzero
      simp [hzero, eq_comm]
    · split
      · split
        · simp [eq_comm]
        · simp [eq_comm, and_comm]
      · simp

namespace HostState

/-- The columns of a host have the values of the cached host. -/
def Agrees (s : HostState) (hostid : UInt64) : Prop :=
  ∀ host, s.hosts.search hostid = some host →
    ∃ row, s.db.search hostid = some row ∧ ∀ k, Holds k.columnPrefix row (host.byKind k)

/-- The columns of a kind of a host are the same in two states. -/
def Untouched (s s' : HostState) (hostid : UInt64) (k : AvailabilityKind) : Prop :=
  ∀ column ∈ k.columns,
    (s'.db.search hostid).map (· column) = (s.db.search hostid).map (· column)

/-- After each call the columns of the host have the cached values again, and the columns
that the call is not about are untouched. -/
def Tracks (periods : Periods) (hostid : UInt64) : HostState → List Call → Prop
  | _, [] => True
  | s, call :: calls =>
    (s.step periods call).Agrees hostid ∧
    (∀ k, hostid ≠ call.hostid ∨ call.type.kind ≠ some k →
      s.Untouched (s.step periods call) hostid k) ∧
    Tracks periods hostid (s.step periods call) calls

/-- A call for an IPMI item of the host changes nothing in the cache. -/
def Writes (periods : Periods) (hostid : UInt64) (s : HostState) (call : Call) : Prop :=
  call.hostid = hostid → call.type.kind = some .ipmi → call.Proceeds periods .ipmi →
    ∀ a ∈ s.cached hostid .ipmi, Idle periods a call.result

instance (periods : Periods) (hostid : UInt64) (s : HostState) (call : Call) :
    Decidable (s.Writes periods hostid call) :=
  inferInstanceAs (Decidable (_ → _ → _ → ∀ a ∈ s.cached hostid .ipmi, _))

variable {periods : Periods} {s : HostState} {hostid : UInt64} {call : Call}

theorem step_untouched (k : AvailabilityKind)
    (hne : hostid ≠ call.hostid ∨ call.type.kind ≠ some k) :
  s.Untouched (s.step periods call) hostid k
  := by
  intro column hcolumn
  cases hkind : call.type.kind with
  | none => rw [step_of_none periods s call hkind]
  | some k' =>
    rw [step_eq periods s call hkind]
    split
    · cases s.hosts.search call.hostid with
      | none => rfl
      | some host =>
        apply update_untouched
        refine hne.imp id ?_
        intro hk
        have hne' : k ≠ k' := by
          rintro rfl
          exact hk hkind
        exact columns_disjoint hne' column hcolumn
    · rfl

/-- An update of another kind than IPMI keeps the agreement. -/
theorem Agrees.update {host : Host} (h : s.Agrees hostid)
    (hhost : s.hosts.search hostid = some host) {k : AvailabilityKind} (hk : k ≠ .ipmi)
    (a : Availability) (error : String) :
  (s.update hostid host k a error).Agrees hostid
  := by
  obtain ⟨row, hrow, hold⟩ := h host hhost
  obtain ⟨row', hrow', hnew⟩ := s.update_holds hostid host a error hk hrow (hold k)
  intro host' hhost'
  change (s.hosts.set hostid (host.setKind k a)).search hostid = some host' at hhost'
  rw [Table.search_set_self, Option.some.injEq] at hhost'
  refine ⟨row', hrow', ?_⟩
  intro k'
  rw [← hhost']
  by_cases hkk : k' = k
  · rw [hkk, Host.byKind_setKind_self]
    exact hnew
  · have hsame : ∀ column ∈ k'.columns, row' column = row column := by
      intro column hcolumn
      have huntouched := s.update_untouched hostid host a error k
        (Or.inr (columns_disjoint hkk column hcolumn) : hostid ≠ hostid ∨ _)
      rw [hrow, hrow'] at huntouched
      exact Option.some.inj huntouched
    rw [Host.byKind_setKind_of_ne host a hkk]
    obtain ⟨havailable, herrors, hdisable⟩ := hold k'
    constructor
    · rw [hsame _ (by simp [AvailabilityKind.columns]), havailable]
    · rw [hsame _ (by simp [AvailabilityKind.columns]), herrors]
    · rw [hsame _ (by simp [AvailabilityKind.columns]), hdisable]

/-- An update for IPMI keeps the agreement only when it changes nothing. -/
theorem Agrees.update_ipmi_iff {host : Host} (h : s.Agrees hostid)
    (hhost : s.hosts.search hostid = some host) (a : Availability) (error : String) :
  (s.update hostid host .ipmi a error).Agrees hostid ↔ a = host.byKind .ipmi
  := by
  obtain ⟨row, hrow, hold⟩ := h host hhost
  have hset : (s.update hostid host .ipmi a error).hosts.search hostid =
      some (host.setKind .ipmi a) := Table.search_set_self _ _ _
  constructor
  · intro hagrees
    obtain ⟨row', hrow', hnew⟩ := hagrees _ hset
    rw [update_ipmi, hrow, Option.some.injEq] at hrow'
    have hipmi := hnew .ipmi
    rw [← hrow', Host.byKind_setKind_self] at hipmi
    exact (hold .ipmi).unique hipmi
  · intro ha host' hhost'
    rw [hset, ha, Host.setKind_byKind, Option.some.injEq] at hhost'
    rw [update_ipmi, ← hhost']
    exact ⟨row, hrow, hold⟩

/-- An update of another host keeps the agreement. -/
theorem Agrees.update_of_ne {hostid' : UInt64} (h : s.Agrees hostid) (hne : hostid ≠ hostid')
    (host : Host) (k : AvailabilityKind) (a : Availability) (error : String) :
  (s.update hostid' host k a error).Agrees hostid
  := by
  intro host' hhost'
  change (s.hosts.set hostid' _).search hostid = some host' at hhost'
  rw [Table.search_set_of_ne _ _ hne] at hhost'
  obtain ⟨row, hrow, hold⟩ := h host' hhost'
  refine ⟨row, ?_, hold⟩
  rw [← hrow]
  unfold HostState.update changeStatement
  dsimp only
  split
  · rfl
  · rw [Option.elim_some, execute_search, if_neg]
    exact fun heq => hne heq.1

/-- A call keeps the columns of a host in agreement exactly when it does not change the
cache for IPMI. -/
theorem agrees_step_iff (h : s.Agrees hostid) :
  (s.step periods call).Agrees hostid ↔ s.Writes periods hostid call
  := by
  cases hkind : call.type.kind with
  | none =>
    rw [step_of_none periods s call hkind]
    apply iff_of_true h
    intro _ hipmi
    simp [hkind] at hipmi
  | some k =>
    rw [step_eq periods s call hkind]
    by_cases hproceeds : call.Proceeds periods k
    · rw [if_pos hproceeds]
      cases hhost : s.hosts.search call.hostid with
      | none =>
        apply iff_of_true h
        intro hid _ _ a ha
        simp [cached, ← hid, hhost] at ha
      | some host =>
        rw [Option.elim_some]
        by_cases hid : call.hostid = hostid
        · subst hid
          by_cases hk : k = .ipmi
          · subst hk
            rw [h.update_ipmi_iff hhost, next_eq_iff]
            simp [Writes, hkind, hproceeds, cached, hhost]
          · apply iff_of_true (h.update hhost hk _ _)
            intro _ hipmi
            rw [hkind, Option.some.injEq] at hipmi
            contradiction
        · apply iff_of_true (h.update_of_ne (Ne.symm hid) host k _ _)
          intro heq
          contradiction
    · rw [if_neg hproceeds]
      apply iff_of_true h
      intro _ hipmi hproceeds'
      rw [hkind, Option.some.injEq] at hipmi
      rw [hipmi] at hproceeds
      contradiction

/-- The columns track the cache if and only if no call for IPMI changes it. -/
theorem tracks_iff {calls : List Call} (h : s.Agrees hostid) :
  Tracks periods hostid s calls ↔
    MeetsAll (fun s call => some (s.step periods call)) (Writes periods hostid) s calls
  := by
  induction calls generalizing s with
  | nil => exact Iff.rfl
  | cons call calls ih =>
    constructor
    · rintro ⟨hagrees, -, hrest⟩
      refine ⟨(agrees_step_iff h).mp hagrees, ?_⟩
      rintro _ ⟨⟩
      exact (ih hagrees).mp hrest
    · rintro ⟨hwrites, hrest⟩
      have hagrees := (agrees_step_iff h).mpr hwrites
      exact ⟨hagrees, fun k => step_untouched k, (ih hagrees).mpr (hrest _ rfl)⟩

theorem reachableState_agrees :
  reachableState.Agrees 10
  := by
  intro host hhost
  change some reachableHost = some host at hhost
  obtain rfl := Option.some.inj hhost
  refine ⟨_, rfl, ?_⟩
  intro k
  cases k <;> constructor <;> decide

/-- Failed checks of an agent item and an SNMP item reach the database. -/
theorem agentAndSnmp_tracks :
  Tracks samplePeriods 10 reachableState
    [failedCall .zabbix 1000 0, failedCall .snmpV2c 1010 0, failedCall .zabbix 1020 0]
  := by
  apply (tracks_iff reachableState_agrees).mpr
  decide

/-- A failed check of an IPMI item does not: the time of the failure is in the cache only. -/
theorem ipmi_not_tracks :
  ¬ Tracks samplePeriods 10 reachableState [failedCall .ipmi 1000 0]
  := by
  rintro ⟨hagrees, -, -⟩
  have hcached : ((reachableState.step samplePeriods (failedCall .ipmi 1000 0)).hosts.search 10).map
      (fun host => host.ipmi.errorsFrom) = some 1000 := by decide
  have hcolumn : ((reachableState.step samplePeriods (failedCall .ipmi 1000 0)).db.search 10).map
      (· "ipmi_errors_from") = some (.int 0) := by decide
  obtain ⟨host, hhost, herrors⟩ := Option.map_eq_some_iff.mp hcached
  obtain ⟨row, hrow, hold⟩ := hagrees host hhost
  have hipmi : row "ipmi_errors_from" = .int host.ipmi.errorsFrom := (hold .ipmi).errorsFrom
  rw [hrow, Option.map_some, Option.some.injEq, hipmi, herrors] at hcolumn
  contradiction

end HostState

end DbConfig
