import Zabbix.Config.Index
import Mathlib.Data.UInt
import Zabbix.Library.Identifiers

/-!
# Hosts, macros and interfaces

The hash sets of the configuration cache for hosts, global macros, host macros and
interfaces, with their indexes. Rows are those of the database, with numbers read by
`atoi` and its like. Connection parameters, proxies and the other lists that the loading
functions also fill are not read by the code modelled here and are left out.
-/

namespace DbConfig

/-! ### Global macros -/

/-- `ZBX_DC_GMACRO`. -/
structure Gmacro where
  macroName : String
  value : String
deriving DecidableEq, Repr

structure GmacroRow where
  globalmacroid : UInt64
  macroName : String
  value : String

/-- `DCsync_gmacros`, indexed in `gmacros_m`. -/
def gmacroSchema : IndexSchema GmacroRow UInt64 String Gmacro where
  id row := row.globalmacroid
  rowKey row := some row.macroName
  keyOf entry := some entry.macroName
  differs entry row := entry.macroName ≠ row.macroName
  store _ row := { macroName := row.macroName, value := row.value }
  kept entry := entry
  checked := true
  keyOf_store _ _ := rfl
  keyOf_kept _ := rfl
  key_of_not_differs := by simp

/-- The structure has the columns of the row. -/
def Gmacro.Agrees (row : GmacroRow) (entry : Gmacro) : Prop :=
  entry = { macroName := row.macroName, value := row.value }

/-! ### Host macros -/

/-- `ZBX_DC_HMACRO`. -/
structure Hmacro where
  hostid : UInt64
  macroName : String
  value : String
deriving DecidableEq, Repr

structure HmacroRow where
  hostmacroid : UInt64
  hostid : UInt64
  macroName : String
  value : String

/-- `DCsync_hmacros`, indexed in `hmacros_hm`. The look-ups of old keys are not checked. -/
def hmacroSchema : IndexSchema HmacroRow UInt64 (UInt64 × String) Hmacro where
  id row := row.hostmacroid
  rowKey row := some (row.hostid, row.macroName)
  keyOf entry := some (entry.hostid, entry.macroName)
  differs entry row := entry.hostid ≠ row.hostid ∨ entry.macroName ≠ row.macroName
  store _ row := { hostid := row.hostid, macroName := row.macroName, value := row.value }
  kept entry := entry
  checked := false
  keyOf_store _ _ := rfl
  keyOf_kept _ := rfl
  key_of_not_differs := by simp

/-- The structure has the columns of the row. -/
def Hmacro.Agrees (row : HmacroRow) (entry : Hmacro) : Prop :=
  entry = { hostid := row.hostid, macroName := row.macroName, value := row.value }

/-! ### Hosts -/

/-- The availability of a host to one kind of poller. -/
structure Availability where
  errorsFrom : ℤ
  available : UInt8
  disableUntil : ℤ
deriving DecidableEq, Repr, Inhabited

/-- The fields of a host that other processes write between two loads; a load sets them
when the host is new. -/
structure HostStatus where
  maintenanceStatus : UInt8
  maintenanceType : UInt8
  maintenanceFrom : ℤ
  agent : Availability
  snmp : Availability
  ipmi : Availability
  jmx : Availability
deriving DecidableEq, Repr

/-- `ZBX_DC_HOST`. -/
structure Host extends HostStatus where
  proxyHostid : UInt64
  host : String
  name : String
  dataExpectedFrom : ℤ
  status : UInt8
deriving DecidableEq, Repr

structure HostRow extends HostStatus where
  hostid : UInt64
  proxyHostid : UInt64
  host : String
  name : String
  status : UInt8

/-- The structure `DCsync_hosts` stores for a row. -/
def storeHost (found : Option Host) (row : HostRow) : Host where
  toHostStatus := found.elim row.toHostStatus (·.toHostStatus)
  dataExpectedFrom := found.elim 0 (·.dataExpectedFrom)
  proxyHostid := row.proxyHostid
  host := row.host
  name := row.name
  status := row.status

/-- `DCsync_hosts`, indexed in `hosts_ph`. -/
def hostSchema : IndexSchema HostRow UInt64 (UInt64 × UInt8 × String) Host where
  id row := row.hostid
  rowKey row := some (row.proxyHostid, row.status, row.host)
  keyOf host := some (host.proxyHostid, host.status, host.host)
  differs host row :=
    host.proxyHostid ≠ row.proxyHostid ∨ host.status ≠ row.status ∨ host.host ≠ row.host
  store := storeHost
  kept host := host
  checked := true
  keyOf_store _ _ := rfl
  keyOf_kept _ := rfl
  key_of_not_differs := by simp

/-- The structure has the columns of the row that a load always writes. -/
structure Host.Agrees (row : HostRow) (host : Host) : Prop where
  proxyHostid : host.proxyHostid = row.proxyHostid
  name : host.name = row.name
  status : host.status = row.status
  host : host.host = row.host

/-! ### Interfaces -/

/-- `ZBX_DC_INTERFACE`. -/
structure Interface where
  hostid : UInt64
  ip : String
  dns : String
  port : String
  useip : UInt8
  type : UInt8
  main : UInt8
deriving DecidableEq, Repr

structure InterfaceRow where
  interfaceid : UInt64
  hostid : UInt64
  type : UInt8
  main : UInt8
  useip : UInt8
  ip : String
  dns : String
  port : String

/-- `INTERFACE_TYPE_AGENT`. -/
def interfaceTypeAgent : UInt8 := 1

/-- The structure `DCsync_interfaces` stores for a row. -/
def storeInterface (row : InterfaceRow) : Interface where
  hostid := row.hostid
  ip := row.ip
  dns := row.dns
  port := row.port
  useip := row.useip
  type := row.type
  main := row.main

/-- Resolves the macros of an address of a host. `substitute` is what
`substitute_simple_macros` makes of it. -/
def resolveAddr (substitute : UInt64 → String → String) (hostid : UInt64) (addr : String) :
    String :=
  if addr.toList.contains '{' then substitute hostid addr else addr

/-- Resolves the macros of both addresses, except for the main agent interface. -/
def resolveInterface (substitute : UInt64 → String → String) (interface : Interface) :
    Interface :=
  if interface.main ≠ 1 ∨ interface.type ≠ interfaceTypeAgent then
    { interface with
      ip := resolveAddr substitute interface.hostid interface.ip
      dns := resolveAddr substitute interface.hostid interface.dns }
  else interface

/-- `DCsync_interfaces`. Only the main interfaces are indexed, in `interfaces_ht`. -/
def interfaceSchema (substitute : UInt64 → String → String) :
    IndexSchema InterfaceRow UInt64 (UInt64 × UInt8) Interface where
  id row := row.interfaceid
  rowKey row := if row.main = 1 then some (row.hostid, row.type) else none
  keyOf interface :=
    if interface.main = 1 then some (interface.hostid, interface.type) else none
  differs interface row :=
    interface.hostid ≠ row.hostid ∨ interface.type ≠ row.type ∨ interface.main ≠ row.main
  store _ row := storeInterface row
  kept := resolveInterface substitute
  checked := true
  keyOf_store _ _ := rfl
  keyOf_kept interface := by
    unfold resolveInterface
    split <;> rfl
  key_of_not_differs interface row h := by
    simp only [decide_eq_false_iff_not, not_or, not_not] at h
    obtain ⟨hhost, htype, hmain⟩ := h
    rw [hhost, htype, hmain]

/-- The structure has the columns of the row, with the macros of its addresses
resolved. -/
def Interface.Agrees (substitute : UInt64 → String → String) (row : InterfaceRow)
    (interface : Interface) : Prop :=
  interface = resolveInterface substitute (storeInterface row)

end DbConfig
