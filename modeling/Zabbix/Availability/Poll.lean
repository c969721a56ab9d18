import Zabbix.Config.Items
import Zabbix.Library.Run

/-!
# The availability of hosts

After a poll the poller reports to the host that the check of an item went through
(`activate_host`) or that the host could not be reached (`deactivate_host`). Both compare
the data that the poller has of the host with the host in the configuration cache, write
the new availability of the host for the type of the item to the cache, and then what has
changed to the database.

`zbx_host_availability_t` structures that are declared without initial contents start with
contents of their own, `garbage`.
-/

namespace DbConfig

/-- `HOST_AVAILABLE_TRUE`. -/
def hostAvailableTrue : UInt8 := 1

/-- `HOST_AVAILABLE_FALSE`. -/
def hostAvailableFalse : UInt8 := 2

/-- `HOST_ERROR_LEN`. -/
def hostErrorLen : ℕ := 128

/-- `zbx_host_availability_t`. -/
structure HostAvailability extends Availability where
  hostid : UInt64
  type : ItemType
deriving DecidableEq, Repr

/-- `CONFIG_UNREACHABLE_DELAY`, `CONFIG_UNREACHABLE_PERIOD` and
`CONFIG_UNAVAILABLE_DELAY`. -/
structure Periods where
  unreachableDelay : ℤ
  unreachablePeriod : ℤ
  unavailableDelay : ℤ

/-- `ts->sec - errors_from`, on numbers of 32 bits. -/
def secondsSince (ts errorsFrom : ℤ) : ℤ := CInt.wrap (ts - errorsFrom)

/-! ### The configuration cache -/

/-- `DChost_get_availability` on a cached host, and `host_get_availability` on the copy of
one. -/
def Host.getAvailability (host : Host) (hostid : UInt64) (type : ItemType) :
    Option HostAvailability :=
  (host.availability type).map fun a => { toAvailability := a, hostid, type }

/-- `DChost_set_availability`. -/
def Host.setAvailability (host : Host) (a : HostAvailability) : Host :=
  match a.type with
  | .zabbix => { host with agent := a.toAvailability }
  | .snmpV1 | .snmpV2c | .snmpV3 => { host with snmp := a.toAvailability }
  | .ipmi => { host with ipmi := a.toAvailability }
  | .jmx => { host with jmx := a.toAvailability }
  | _ => host

/-- What the functions below return when they succeed: the cached hosts, and the
availability before and after the changes. -/
structure Changed where
  hosts : Table UInt64 Host
  input : HostAvailability
  output : HostAvailability

/-- `DChost_activate`. -/
def hostActivate (hosts : Table UInt64 Host) (input : HostAvailability) : Option Changed :=
  if input.errorsFrom = 0 ∧ input.available = hostAvailableTrue then none
  else (hosts.search input.hostid).map fun host =>
    let input := (host.getAvailability input.hostid input.type).getD input
    let output := { input with
      errorsFrom := 0, available := hostAvailableTrue, disableUntil := 0 }
    ⟨hosts.set input.hostid (host.setAvailability output), input, output⟩

/-- What `DChost_deactivate` makes of the cached availability of a host. -/
def deactivated (periods : Periods) (ts : ℤ) (a : Availability) : Availability :=
  if a.errorsFrom = 0 then
    { a with errorsFrom := ts, disableUntil := CInt.wrap (ts + periods.unreachableDelay) }
  else if periods.unreachableDelay ≤ secondsSince ts a.errorsFrom then
    if periods.unreachablePeriod > secondsSince ts a.errorsFrom then
      { a with disableUntil := CInt.wrap (ts + periods.unreachableDelay) }
    else
      { a with
        disableUntil := CInt.wrap (ts + periods.unavailableDelay)
        available := hostAvailableFalse }
  else a

/-- `DChost_deactivate`. The first test reads `output` before anything is written to it. -/
def hostDeactivate (periods : Periods) (hosts : Table UInt64 Host) (ts : ℤ)
    (input output : HostAvailability) : Option Changed :=
  if periods.unreachableDelay > secondsSince ts output.errorsFrom then none
  else (hosts.search input.hostid).map fun host =>
    let input := (host.getAvailability input.hostid input.type).getD input
    let output := { input with
      toAvailability := deactivated periods ts input.toAvailability }
    ⟨hosts.set input.hostid (host.setAvailability output), input, output⟩

/-! ### The database -/

/-- A value in a column. -/
inductive Cell
  | int (n : ℤ)
  | text (s : String)
deriving DecidableEq, Repr

/-- The columns of table `hosts` that hold the availability. -/
def hostsColumns : List String :=
  ["available", "errors_from", "disable_until", "error",
    "snmp_available", "snmp_errors_from", "snmp_disable_until", "snmp_error",
    "ipmi_available", "ipmi_errors_from", "ipmi_disable_until", "ipmi_error",
    "jmx_available", "jmx_errors_from", "jmx_disable_until", "jmx_error"]

/-- A row of a table, by column. -/
abbrev Row := String → Cell

/-- An update of the columns of a host. -/
structure Statement where
  hostid : UInt64
  sets : List (String × Cell)
deriving DecidableEq, Repr

/-- Executes an update, which fails as a whole when there is no column of one of the
names. -/
def Statement.execute (stmt : Statement) (db : Table UInt64 Row) : Table UInt64 Row :=
  if stmt.sets.all fun set => set.1 ∈ hostsColumns then
    (db.search stmt.hostid).elim db fun row =>
      db.set stmt.hostid (stmt.sets.foldl (fun row set => Function.update row set.1 set.2) row)
  else db

/-- The prefix of the columns for a type of item. -/
def sqlsetPrefix : ItemType → Option String
  | .zabbix => some ""
  | .snmpV1 | .snmpV2c | .snmpV3 => some "snmp_"
  | .ipmi => some "impi_"
  | .jmx => some "jmx_"
  | _ => none

/-- The assignments of `db_host_update_availability`: the columns that have changed. -/
def sqlset (sqlsetPrefix : String) (input output : Availability) : List (String × Cell) :=
  (if input.available ≠ output.available
    then [(sqlsetPrefix ++ "available", Cell.int output.available.toNat)] else []) ++
  (if input.errorsFrom ≠ output.errorsFrom
    then [(sqlsetPrefix ++ "errors_from", Cell.int output.errorsFrom)] else []) ++
  (if input.disableUntil ≠ output.disableUntil
    then [(sqlsetPrefix ++ "disable_until", Cell.int output.disableUntil)] else [])

/-- `db_host_update_availability`: the statement it executes, if any. -/
def dbHostUpdateAvailability (input output : HostAvailability) (error : String) :
    Option Statement :=
  (sqlsetPrefix input.type).bind fun sqlsetPrefix =>
    let sets := sqlset sqlsetPrefix input.toAvailability output.toAvailability
    if sets = [] then none
    else some ⟨output.hostid, sets ++
      [(sqlsetPrefix ++ "error", Cell.text (String.ofList (error.toList.take hostErrorLen)))]⟩

/-! ### The poller -/

/-- The cached hosts and the rows of table `hosts`. -/
structure HostState where
  hosts : Table UInt64 Host
  db : Table UInt64 Row

/-- What a poll came to, with the time of a failure and its error. -/
inductive PollResult
  | success
  | failure (ts : ℤ) (error : String)

/-- A call of `activate_host` or `deactivate_host` for an item, with the copy of the host
that the item has. -/
structure Call where
  hostid : UInt64
  host : Host
  type : ItemType
  result : PollResult
  garbage : HostAvailability

namespace HostState

/-- Writes what a function has changed to the cache and the database. -/
def commit (s : HostState) (changed : Changed) (error : String) : HostState where
  hosts := changed.hosts
  db := (dbHostUpdateAvailability changed.input changed.output error).elim s.db (·.execute s.db)

/-- `activate_host`. -/
def activateHost (s : HostState) (call : Call) : HostState :=
  ((call.host.getAvailability call.hostid call.type).bind (hostActivate s.hosts)).elim s
    fun changed => s.commit changed ""

/-- `deactivate_host`. -/
def deactivateHost (periods : Periods) (s : HostState) (call : Call) (ts : ℤ)
    (error : String) : HostState :=
  ((call.host.getAvailability call.hostid call.type).bind fun input =>
      hostDeactivate periods s.hosts ts input call.garbage).elim s
    fun changed => s.commit changed error

/-- The end of a poll. -/
def step (periods : Periods) (s : HostState) (call : Call) : HostState :=
  match call.result with
  | .success => s.activateHost call
  | .failure ts error => s.deactivateHost periods call ts error

end HostState

/-! ### The kinds of availability -/

/-- What the availability of a host is kept for. -/
inductive AvailabilityKind
  | agent | snmp | ipmi | jmx
deriving DecidableEq, Repr

/-- The kind of availability that an item of a type depends on. -/
def ItemType.kind : ItemType → Option AvailabilityKind
  | .zabbix => some .agent
  | .snmpV1 | .snmpV2c | .snmpV3 => some .snmp
  | .ipmi => some .ipmi
  | .jmx => some .jmx
  | _ => none

/-- The availability of a kind. -/
def Host.byKind (host : Host) : AvailabilityKind → Availability
  | .agent => host.agent
  | .snmp => host.snmp
  | .ipmi => host.ipmi
  | .jmx => host.jmx

/-- The host with another availability of a kind. -/
def Host.setKind (host : Host) (k : AvailabilityKind) (a : Availability) : Host :=
  match k with
  | .agent => { host with agent := a }
  | .snmp => { host with snmp := a }
  | .ipmi => { host with ipmi := a }
  | .jmx => { host with jmx := a }

/-- The prefix that is written for a kind. -/
def AvailabilityKind.writtenPrefix : AvailabilityKind → String
  | .agent => ""
  | .snmp => "snmp_"
  | .ipmi => "impi_"
  | .jmx => "jmx_"

theorem Host.availability_eq (host : Host) (type : ItemType) :
  host.availability type = type.kind.map host.byKind
  := by
  cases type <;> rfl

theorem Host.setAvailability_eq (host : Host) (a : HostAvailability) {k : AvailabilityKind}
    (hk : a.type.kind = some k) :
  host.setAvailability a = host.setKind k a.toAvailability
  := by
  obtain ⟨a, hostid, type⟩ := a
  cases type <;> cases hk <;> rfl

theorem sqlsetPrefix_eq (type : ItemType) :
  sqlsetPrefix type = type.kind.map AvailabilityKind.writtenPrefix
  := by
  cases type <;> rfl

@[simp]
theorem Host.byKind_setKind_self (host : Host) (k : AvailabilityKind) (a : Availability) :
  (host.setKind k a).byKind k = a
  := by
  cases k <;> rfl

theorem Host.byKind_setKind_of_ne (host : Host) {k k' : AvailabilityKind} (a : Availability)
    (hk : k' ≠ k) :
  (host.setKind k a).byKind k' = host.byKind k'
  := by
  cases k <;> cases k' <;> first | rfl | contradiction

theorem Host.setKind_byKind (host : Host) (k : AvailabilityKind) :
  host.setKind k (host.byKind k) = host
  := by
  cases k <;> rfl

/-! ### What a call does -/

/-- The availability that a call asks for. -/
def PollResult.next (periods : Periods) (a : Availability) : PollResult → Availability
  | .success => { errorsFrom := 0, available := hostAvailableTrue, disableUntil := 0 }
  | .failure ts _ => deactivated periods ts a

/-- The error that a call writes. -/
def PollResult.error : PollResult → String
  | .success => ""
  | .failure _ error => error

/-- A call gets past the tests that are made before the cache is locked. -/
def Call.Proceeds (periods : Periods) (call : Call) (k : AvailabilityKind) : Prop :=
  match call.result with
  | .success => ¬ ((call.host.byKind k).errorsFrom = 0 ∧
      (call.host.byKind k).available = hostAvailableTrue)
  | .failure ts _ => periods.unreachableDelay ≤ secondsSince ts call.garbage.errorsFrom

instance (periods : Periods) (call : Call) (k : AvailabilityKind) :
    Decidable (call.Proceeds periods k) := by
  unfold Call.Proceeds
  cases call.result <;> infer_instance

/-- The statement that writes what has changed between two values of a kind. -/
def changeStatement (hostid : UInt64) (k : AvailabilityKind) (input output : Availability)
    (error : String) : Option Statement :=
  let sets := sqlset k.writtenPrefix input output
  if sets = [] then none
  else some ⟨hostid, sets ++
    [(k.writtenPrefix ++ "error", Cell.text (String.ofList (error.toList.take hostErrorLen)))]⟩

namespace HostState

variable (periods : Periods) (s : HostState) (call : Call)

/-- The state with another availability of a kind of a cached host. -/
def update (hostid : UInt64) (host : Host) (k : AvailabilityKind) (a : Availability)
    (error : String) : HostState where
  hosts := s.hosts.set hostid (host.setKind k a)
  db := (changeStatement hostid k (host.byKind k) a error).elim s.db (·.execute s.db)

theorem step_of_none (hk : call.type.kind = none) :
  s.step periods call = s
  := by
  have hcopy : call.host.getAvailability call.hostid call.type = none := by
    rw [Host.getAvailability, Host.availability_eq, hk]
    rfl
  unfold HostState.step activateHost deactivateHost
  rw [hcopy]
  cases call.result <;> rfl

theorem getAvailability_eq {type : ItemType} {k : AvailabilityKind} (hk : type.kind = some k)
    (host : Host) (hostid : UInt64) :
  host.getAvailability hostid type =
    some { toAvailability := host.byKind k, hostid, type }
  := by
  rw [Host.getAvailability, Host.availability_eq, hk]
  rfl

/-- What `activate_host` and `deactivate_host` do in the end. -/
theorem commit_eq {type : ItemType} {k : AvailabilityKind} (hk : type.kind = some k)
    (hostid : UInt64) (host : Host) (a : Availability) (error : String) :
  s.commit
    ⟨s.hosts.set hostid (host.setAvailability { toAvailability := a, hostid, type }),
      { toAvailability := host.byKind k, hostid, type }, { toAvailability := a, hostid, type }⟩
    error = s.update hostid host k a error
  := by
  unfold commit update dbHostUpdateAvailability changeStatement
  rw [Host.setAvailability_eq _ _ hk, sqlsetPrefix_eq, hk]
  rfl

/-- A call that proceeds writes the availability it asks for. -/
theorem step_eq {k : AvailabilityKind} (hk : call.type.kind = some k) :
  s.step periods call =
    if call.Proceeds periods k then
      (s.hosts.search call.hostid).elim s fun host =>
        s.update call.hostid host k (call.result.next periods (host.byKind k)) call.result.error
    else s
  := by
  have hcommit := s.commit_eq hk call.hostid
  by_cases hproceeds : call.Proceeds periods k
  · rw [if_pos hproceeds]
    unfold Call.Proceeds at hproceeds
    unfold HostState.step activateHost deactivateHost
    rw [getAvailability_eq hk]
    cases hresult : call.result with
    | success =>
      rw [hresult] at hproceeds
      simp only [Option.bind_some, hostActivate, if_neg hproceeds]
      cases s.hosts.search call.hostid with
      | none => rfl
      | some host =>
        simp only [Option.map_some, getAvailability_eq hk, Option.getD_some, Option.elim_some]
        exact hcommit host _ _
    | failure ts error =>
      rw [hresult] at hproceeds
      simp only [Option.bind_some, hostDeactivate, if_neg (not_lt.mpr hproceeds)]
      cases s.hosts.search call.hostid with
      | none => rfl
      | some host =>
        simp only [Option.map_some, getAvailability_eq hk, Option.getD_some, Option.elim_some]
        exact hcommit host _ _
  · rw [if_neg hproceeds]
    unfold Call.Proceeds at hproceeds
    unfold HostState.step activateHost deactivateHost
    rw [getAvailability_eq hk]
    cases hresult : call.result with
    | success =>
      rw [hresult] at hproceeds
      simp only [Option.bind_some, hostActivate, if_pos (not_not.mp hproceeds), Option.elim_none]
    | failure ts error =>
      rw [hresult] at hproceeds
      simp only [Option.bind_some, hostDeactivate, if_pos (not_le.mp hproceeds),
        Option.elim_none]

/-- The cached availability of a kind. -/
def cached (s : HostState) (hostid : UInt64) (k : AvailabilityKind) : Option Availability :=
  (s.hosts.search hostid).map (·.byKind k)

/-- A call changes the availability of its kind of its host, if it proceeds. -/
theorem cached_step {k : AvailabilityKind} (hk : call.type.kind = some k) :
  (s.step periods call).cached call.hostid k =
    (s.cached call.hostid k).map fun a =>
      if call.Proceeds periods k then call.result.next periods a else a
  := by
  rw [step_eq periods s call hk]
  unfold cached
  by_cases hproceeds : call.Proceeds periods k
  · rw [if_pos hproceeds]
    cases hhost : s.hosts.search call.hostid with
    | none => simp [hhost]
    | some host => simp [update, hproceeds]
  · rw [if_neg hproceeds]
    simp only [if_neg hproceeds, Option.map_id']

end HostState

end DbConfig
