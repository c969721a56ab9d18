import Zabbix.Availability.Poll
import Zabbix.Library.Run

/-!
# Sending the availability of the hosts of a proxy

A proxy tells the server how available its hosts are. It remembers what it has told, and
a message has only the columns that have changed since. The sender remembers them while it
builds the message and does not look whether the message has been received, so a message
that is lost takes its changes with it.

Texts are lists of bytes. The server reads a text into a buffer of 129 bytes, and none of
the carriage returns in it reach the database.
-/

namespace Proxy

open DbConfig

/-- A text, by bytes. -/
abbrev Text := List UInt8

/-- `'\r'`. -/
def carriageReturn : UInt8 := 13

/-- The columns of a host for one kind of availability. -/
structure KindColumns where
  available : UInt8
  error : Text
deriving DecidableEq, Repr

/-- The columns of a host. -/
structure HostColumns where
  agent : KindColumns
  snmp : KindColumns
  ipmi : KindColumns
  jmx : KindColumns
deriving DecidableEq, Repr

/-- What a message says of one kind. -/
structure KindDelta where
  available : Option UInt8
  error : Option Text
deriving DecidableEq, Repr

/-- What a message says of a host. -/
structure HostDelta where
  agent : KindDelta
  snmp : KindDelta
  ipmi : KindDelta
  jmx : KindDelta
deriving DecidableEq, Repr

/-! ### The proxy -/

/-- The columns that are not those remembered; all of them when the host is new. -/
def kindDelta (old : Option KindColumns) (columns : KindColumns) : KindDelta where
  available := if old.elim true (·.available ≠ columns.available) then some columns.available
    else none
  error := if old.elim true (·.error ≠ columns.error) then some columns.error else none

/-- The object for a host. -/
def hostDelta (old : Option HostColumns) (columns : HostColumns) : HostDelta where
  agent := kindDelta (old.map (·.agent)) columns.agent
  snmp := kindDelta (old.map (·.snmp)) columns.snmp
  ipmi := kindDelta (old.map (·.ipmi)) columns.ipmi
  jmx := kindDelta (old.map (·.jmx)) columns.jmx

/-- `get_host_availability_data`: what is remembered afterwards, and the objects of the
message for the rows of table `hosts`. It succeeds when there are any. -/
def getHostAvailabilityData (ha : Table UInt64 HostColumns) :
    (rows : List (UInt64 × HostColumns)) →
    Table UInt64 HostColumns × List (UInt64 × HostDelta)
  | [] => (ha, [])
  | (hostid, columns) :: rows =>
    if ha.search hostid = some columns then getHostAvailabilityData ha rows
    else
      let (ha', data) := getHostAvailabilityData (ha.set hostid columns) rows
      (ha', (hostid, hostDelta (ha.search hostid) columns) :: data)

/-! ### The server -/

/-- The text that the server writes for one that it has received: what fits into `tmp`,
without the characters that are dropped when it is escaped. -/
def receivedText (text : Text) : Text :=
  (text.take hostErrorLen).filter (· ≠ carriageReturn)

/-- Writes the columns of one kind that a message has. -/
def KindDelta.apply (d : KindDelta) (columns : KindColumns) : KindColumns where
  available := d.available.getD columns.available
  error := (d.error.map receivedText).getD columns.error

/-- Writes the columns of a host that a message has. -/
def HostDelta.apply (d : HostDelta) (columns : HostColumns) : HostColumns where
  agent := d.agent.apply columns.agent
  snmp := d.snmp.apply columns.snmp
  ipmi := d.ipmi.apply columns.ipmi
  jmx := d.jmx.apply columns.jmx

/-- `process_host_availability` on the columns of the hosts of the server. -/
def processHostAvailability (hosts : UInt64 → HostColumns) :
    List (UInt64 × HostDelta) → UInt64 → HostColumns
  | [] => hosts
  | (hostid, d) :: data =>
    processHostAvailability (Function.update hosts hostid (d.apply (hosts hostid))) data

/-! ### The sender -/

/-- What the proxy remembers and the columns of the hosts of the server. -/
structure AvailabilityState where
  ha : Table UInt64 HostColumns
  server : UInt64 → HostColumns

/-- A cycle of the sender with the hosts that the proxy has. -/
structure SendCycle where
  hosts : Table UInt64 HostColumns
  sendSucceeds : Bool

/-- `host_availability_sender`. A message without objects is not sent. -/
def hostAvailabilitySender (s : AvailabilityState) (cycle : SendCycle) : AvailabilityState :=
  let (ha, data) := getHostAvailabilityData s.ha cycle.hosts.entries
  { ha
    server := if data ≠ [] ∧ cycle.sendSucceeds then processHostAvailability s.server data
      else s.server }

/-- The sender as a step of a run. -/
def senderStep (s : AvailabilityState) (cycle : SendCycle) : Option AvailabilityState :=
  some (hostAvailabilitySender s cycle)

/-- The sender has just been started. -/
def AvailabilityState.initial (server : UInt64 → HostColumns) : AvailabilityState where
  ha := Table.empty
  server := server

/-! ### What the server should have -/

/-- Some host has columns that are not those remembered. -/
def AvailabilityState.Changed (s : AvailabilityState) (cycle : SendCycle) : Prop :=
  ∃ e ∈ cycle.hosts.entries, s.ha.search e.1 ≠ some e.2

instance (s : AvailabilityState) (cycle : SendCycle) : Decidable (s.Changed cycle) :=
  inferInstanceAs (Decidable (∃ e ∈ cycle.hosts.entries, s.ha.search e.1 ≠ some e.2))

/-- The server has the columns of every host of the proxy. -/
def Reported (server : UInt64 → HostColumns) (hosts : Table UInt64 HostColumns) : Prop :=
  ∀ e ∈ hosts.entries, server e.1 = e.2

instance (server : UInt64 → HostColumns) (hosts : Table UInt64 HostColumns) :
    Decidable (Reported server hosts) :=
  inferInstanceAs (Decidable (∀ e ∈ hosts.entries, server e.1 = e.2))

/-- When the cycle sends a message with success, the server has the columns of the hosts
as they are in this cycle. -/
def AvailabilityState.Reports (s : AvailabilityState) (cycle : SendCycle) : Prop :=
  s.Changed cycle → cycle.sendSucceeds → Reported (hostAvailabilitySender s cycle).server
    cycle.hosts

instance (s : AvailabilityState) (cycle : SendCycle) : Decidable (s.Reports cycle) :=
  inferInstanceAs (Decidable (_ → _ → _))

/-- All error texts of a host are written as they have been sent. -/
def HostColumns.Fit (columns : HostColumns) : Prop :=
  receivedText columns.agent.error = columns.agent.error ∧
  receivedText columns.snmp.error = columns.snmp.error ∧
  receivedText columns.ipmi.error = columns.ipmi.error ∧
  receivedText columns.jmx.error = columns.jmx.error

instance (columns : HostColumns) : Decidable columns.Fit :=
  inferInstanceAs (Decidable (_ ∧ _ ∧ _ ∧ _))

/-- A cycle with something to tell succeeds, and the server can keep all error texts. -/
def AvailabilityState.Delivers (s : AvailabilityState) (cycle : SendCycle) : Prop :=
  (s.Changed cycle → cycle.sendSucceeds) ∧ ∀ e ∈ cycle.hosts.entries, e.2.Fit

instance (s : AvailabilityState) (cycle : SendCycle) : Decidable (s.Delivers cycle) :=
  inferInstanceAs (Decidable ((_ → _) ∧ ∀ e ∈ cycle.hosts.entries, e.2.Fit))

/-! ### Messages -/

/-- There are objects exactly when columns of some host are not those remembered. -/
theorem getHostAvailabilityData_ne_nil_iff {ha : Table UInt64 HostColumns}
    {rows : List (UInt64 × HostColumns)} :
  (getHostAvailabilityData ha rows).2 ≠ [] ↔ ∃ e ∈ rows, ha.search e.1 ≠ some e.2
  := by
  induction rows with
  | nil => simp [getHostAvailabilityData]
  | cons e rows ih =>
    obtain ⟨hostid, columns⟩ := e
    rw [getHostAvailabilityData]
    by_cases h : ha.search hostid = some columns
    · rw [if_pos h, ih]
      simp [h]
    · rw [if_neg h]
      simp [h]

theorem search_getHostAvailabilityData_of_notMem {ha : Table UInt64 HostColumns}
    {rows : List (UInt64 × HostColumns)} {hostid : UInt64}
    (h : hostid ∉ rows.map Prod.fst) :
  (getHostAvailabilityData ha rows).1.search hostid = ha.search hostid
  := by
  induction rows generalizing ha with
  | nil => rfl
  | cons e rows ih =>
    obtain ⟨hostid', columns⟩ := e
    obtain ⟨hne, hrows⟩ : hostid ≠ hostid' ∧ hostid ∉ rows.map Prod.fst := by
      simpa only [List.map_cons, List.mem_cons, not_or] using h
    rw [getHostAvailabilityData]
    split_ifs
    · exact ih hrows
    · exact (ih hrows).trans (Table.search_set_of_ne ha columns hne)

/-- The columns of all hosts are remembered. -/
theorem search_getHostAvailabilityData_of_mem {ha : Table UInt64 HostColumns}
    {rows : List (UInt64 × HostColumns)} (hnodup : (rows.map Prod.fst).Nodup)
    {e : UInt64 × HostColumns} (he : e ∈ rows) :
  (getHostAvailabilityData ha rows).1.search e.1 = some e.2
  := by
  induction rows generalizing ha with
  | nil => contradiction
  | cons e' rows ih =>
    obtain ⟨hostid, columns⟩ := e'
    obtain ⟨hfresh, hnodup⟩ := List.nodup_cons.mp hnodup
    rw [getHostAvailabilityData]
    obtain rfl | he := List.mem_cons.mp he
    · split_ifs with h
      · exact (search_getHostAvailabilityData_of_notMem hfresh).trans h
      · exact (search_getHostAvailabilityData_of_notMem hfresh).trans
          (Table.search_set_self ha hostid columns)
    · split_ifs
      · exact ih hnodup he
      · exact ih hnodup he

/-! ### Differences -/

/-- The difference brings columns equal to those remembered to the new ones. -/
theorem apply_kindDelta {old : Option KindColumns} {columns server : KindColumns}
    (hold : ∀ c ∈ old, server = c) (hfit : receivedText columns.error = columns.error) :
  (kindDelta old columns).apply server = columns
  := by
  cases old with
  | none => simp [kindDelta, KindDelta.apply, hfit]
  | some c =>
    obtain rfl : server = c := hold c rfl
    obtain ⟨available, error⟩ := columns
    simp only [kindDelta, KindDelta.apply, Option.elim_some, KindColumns.mk.injEq]
    constructor
    · split_ifs with h <;> simp_all
    · split_ifs with h <;> simp_all

theorem apply_hostDelta {old : Option HostColumns} {columns server : HostColumns}
    (hold : ∀ c ∈ old, server = c) (hfit : columns.Fit) :
  (hostDelta old columns).apply server = columns
  := by
  obtain ⟨hagent, hsnmp, hipmi, hjmx⟩ := hfit
  -- what is remembered of a host is remembered of each kind
  have hkind : ∀ kind : HostColumns → KindColumns,
      ∀ c ∈ old.map kind, kind server = c := by
    intro kind c hc
    obtain ⟨o, ho, rfl⟩ := Option.mem_map.mp hc
    rw [hold o ho]
  simp only [hostDelta, HostDelta.apply, apply_kindDelta (hkind (·.agent)) hagent,
    apply_kindDelta (hkind (·.snmp)) hsnmp, apply_kindDelta (hkind (·.ipmi)) hipmi,
    apply_kindDelta (hkind (·.jmx)) hjmx]

/-- What is remembered of a host is what the server has. -/
def Synced (ha : Table UInt64 HostColumns) (server : UInt64 → HostColumns) : Prop :=
  ∀ hostid, ∀ columns ∈ ha.search hostid, server hostid = columns

theorem Synced.set {ha : Table UInt64 HostColumns} {server : UInt64 → HostColumns}
    (h : Synced ha server) (hostid : UInt64) (columns : HostColumns) :
  Synced (ha.set hostid columns) (Function.update server hostid columns)
  := by
  intro hostid' columns' hsearch
  rw [Table.search_set] at hsearch
  by_cases heq : hostid' = hostid
  · subst heq
    rw [Function.update_self] at hsearch ⊢
    exact Option.mem_some_iff.mp hsearch
  · rw [Function.update_of_ne heq] at hsearch ⊢
    exact h hostid' columns' hsearch

/-- The server that gets the whole message has what is remembered after it. -/
theorem Synced.getHostAvailabilityData {ha : Table UInt64 HostColumns}
    {server : UInt64 → HostColumns} {rows : List (UInt64 × HostColumns)}
    (h : Synced ha server) (hfit : ∀ e ∈ rows, e.2.Fit) :
  Synced (Proxy.getHostAvailabilityData ha rows).1
    (processHostAvailability server (Proxy.getHostAvailabilityData ha rows).2)
  := by
  induction rows generalizing ha server with
  | nil => exact h
  | cons e rows ih =>
    obtain ⟨hostid, columns⟩ := e
    obtain ⟨hcolumns, hrows⟩ := List.forall_mem_cons.mp hfit
    rw [Proxy.getHostAvailabilityData]
    split_ifs
    · exact ih h hrows
    · have happly := apply_hostDelta (h hostid) hcolumns
      dsimp only [processHostAvailability]
      rw [happly]
      exact ih (h.set hostid columns) hrows

/-! ### Cycles -/

/-- A cycle that delivers what it has to tell keeps the server in step with the proxy. -/
theorem Synced.cycle {s : AvailabilityState} {cycle : SendCycle} (h : Synced s.ha s.server)
    (hmeets : s.Delivers cycle) :
  Synced (hostAvailabilitySender s cycle).ha (hostAvailabilitySender s cycle).server
  := by
  obtain ⟨hsend, hfit⟩ := hmeets
  have hdata := h.getHostAvailabilityData hfit
  have hnil := @getHostAvailabilityData_ne_nil_iff s.ha cycle.hosts.entries
  dsimp only [hostAvailabilitySender]
  split_ifs with hsent
  · exact hdata
  · have hempty : (Proxy.getHostAvailabilityData s.ha cycle.hosts.entries).2 = [] := by
      by_contra hne
      exact hsent ⟨hne, hsend (hnil.mp hne)⟩
    rw [hempty] at hdata
    exact hdata

/-- After a cycle that leaves the server in step with the proxy the server has the columns
of the hosts of the cycle. -/
theorem Synced.reported {s : AvailabilityState} {cycle : SendCycle}
    (h : Synced (hostAvailabilitySender s cycle).ha (hostAvailabilitySender s cycle).server) :
  Reported (hostAvailabilitySender s cycle).server cycle.hosts
  := by
  intro e he
  apply h e.1 e.2
  exact search_getHostAvailabilityData_of_mem cycle.hosts.nodup he

/-- What holds of a step that meets the condition in a state with the invariant holds of
all steps. -/
theorem Synced.reports_all {s : AvailabilityState} {cycles : List SendCycle}
    (h : Synced s.ha s.server)
    (hmeets : MeetsAll senderStep AvailabilityState.Delivers s cycles) :
  MeetsAll senderStep AvailabilityState.Reports s cycles
  := by
  induction cycles generalizing s with
  | nil => trivial
  | cons cycle cycles ih =>
    obtain ⟨hcycle, hrest⟩ := hmeets
    have hsynced := h.cycle hcycle
    refine ⟨fun _ _ => hsynced.reported, ?_⟩
    intro s' hs'
    obtain rfl : hostAvailabilitySender s cycle = s' := Option.mem_some_iff.mp hs'
    exact ih hsynced (hrest _ hs')

/-- When no message with changes is lost and the server can keep the error texts, every
message that is sent brings the server to the columns that the proxy had. -/
theorem senderCycles_report {server : UInt64 → HostColumns} {cycles : List SendCycle}
    (hmeets : MeetsAll senderStep AvailabilityState.Delivers (.initial server) cycles) :
  MeetsAll senderStep AvailabilityState.Reports (.initial server) cycles
  := by
  have hinitial : Synced (AvailabilityState.initial server).ha
      (AvailabilityState.initial server).server := by
    intro hostid columns hsearch
    rw [AvailabilityState.initial, Table.search_empty] at hsearch
    contradiction
  exact hinitial.reports_all hmeets

/-- A kind of availability without an error. -/
def KindColumns.plain (available : UInt8) : KindColumns := ⟨available, []⟩

/-- A cycle of a proxy with one host that is polled by agent and by SNMP. -/
def SendCycle.single (agent snmp : UInt8) (sendSucceeds : Bool) : SendCycle where
  hosts := Table.empty.set 10084 ⟨.plain agent, .plain snmp, .plain 0, .plain 0⟩
  sendSucceeds := sendSucceeds

/-- The columns of a host that the server has just been told about. -/
def HostColumns.unknown : HostColumns := ⟨.plain 0, .plain 0, .plain 0, .plain 0⟩

theorem agentUp_reported :
  MeetsAll senderStep AvailabilityState.Reports (.initial fun _ => .unknown)
    [.single 1 0 true, .single 1 0 false, .single 2 1 true]
  := by
  apply senderCycles_report
  decide

/-- The message that says that the agent is unavailable is lost, and the next one, which
says that SNMP is available, does not repeat it. -/
theorem agentDown_lost :
  ¬ MeetsAll senderStep AvailabilityState.Reports (.initial fun _ => .unknown)
    [.single 1 0 true, .single 2 0 false, .single 2 1 true]
  := by
  decide

end Proxy
