import Zabbix.Algo.BinaryHeapRun
import Zabbix.Config.Tables
import Zabbix.Library.CInt

/-!
# Items and their queues

The items of the configuration cache and the queues from which the pollers take them,
one for each poller type. An item is in a queue, with a poller, or nowhere. The queues
are binary heaps of pointers to items that compare the items as they are at the time of
the comparison; a pointer to an item is given by its id, and a pointer to an item that is
gone reads as a default one.

Of the parts of an item that depend on its type only the flexible intervals and the JMX
credentials are read by the code modelled here; the others are left out, and so are the
triggers of an item and the string pool.
-/

namespace DbConfig

open BinaryHeap (Elem)

/-- `zbx_item_type_t`. -/
inductive ItemType
  | zabbix | snmpV1 | trapper | simple | snmpV2c | internal | snmpV3 | zabbixActive
  | aggregate | httpTest | external | dbMonitor | ipmi | ssh | telnet | calculated | jmx
  | snmpTrap
deriving DecidableEq, Repr, Inhabited

/-- `ITEM_STATE_NORMAL` and `ITEM_STATE_NOTSUPPORTED`. -/
inductive ItemState
  | normal | notSupported
deriving DecidableEq, Repr, Inhabited

/-- The poller types below `ZBX_POLLER_TYPE_COUNT`. In an item `none` stands for
`ZBX_NO_POLLER`. -/
inductive PollerType
  | normal | unreachable | ipmi | pinger | java
deriving DecidableEq, Repr

/-- `ZBX_LOC_NOWHERE`, `ZBX_LOC_QUEUE` and `ZBX_LOC_POLLER`. -/
inductive Location
  | nowhere | queue | poller
deriving DecidableEq, Repr, Inhabited

/-- `ZBX_FLAG_DISCOVERY_RULE`. -/
def flagDiscoveryRule : UInt8 := 1

/-- `ZBX_FLAG_DISCOVERY_PROTOTYPE`. -/
def flagDiscoveryPrototype : UInt8 := 2

/-- `ITEM_VALUE_TYPE_TEXT`. -/
def valueTypeText : UInt8 := 4

/-- `ZBX_DC_ITEM`. -/
structure Item where
  hostid : UInt64
  interfaceid : UInt64
  lastlogsize : UInt64
  key : String
  port : String
  delay : ℤ
  nextcheck : ℤ
  lastclock : ℤ
  mtime : ℤ
  dataExpectedFrom : ℤ
  type : ItemType
  dataType : UInt8
  valueType : UInt8
  pollerType : Option PollerType
  state : ItemState
  location : Location
  flags : UInt8
deriving DecidableEq, Repr, Inhabited

/-- `ZBX_DC_JMXITEM`. -/
structure JmxItem where
  username : String
  password : String
deriving DecidableEq, Repr, Inhabited

structure ItemRow where
  itemid : UInt64
  hostid : UInt64
  proxyHostid : UInt64
  type : ItemType
  dataType : UInt8
  valueType : UInt8
  key : String
  port : String
  delay : ℤ
  delayFlex : String
  state : ItemState
  username : String
  password : String
  flags : UInt8
  interfaceid : UInt64
  lastlogsize : UInt64
  mtime : ℤ

/-- The settings of the server and the functions it takes from elsewhere. `address` gives
the address of a string in the string pool, `visit` the order of an iteration over a
hash set. -/
structure Environment where
  configPollerForks : ℕ
  configPingerForks : ℕ
  configIpmiPollerForks : ℕ
  configJavaPollerForks : ℕ
  configTimeout : ℤ
  calculateItemNextcheck : (interfaceid itemid : UInt64) → ItemType → (delay : ℤ) →
    (flexIntervals : Option String) → (now : ℤ) → ℤ
  address : String → ℕ
  visit : Visit UInt64

/-- The configuration cache, `ZBX_DC_CONFIG`. -/
structure Config where
  items : IndexedTable UInt64 (UInt64 × String) Item
  flexitems : Table UInt64 String
  jmxitems : Table UInt64 JmxItem
  hosts : IndexedTable UInt64 (UInt64 × UInt8 × String) Host
  gmacros : IndexedTable UInt64 String Gmacro
  hmacros : IndexedTable UInt64 (UInt64 × String) Hmacro
  interfaces : IndexedTable UInt64 (UInt64 × UInt8) Interface
  queues : PollerType → BinaryHeap UInt64
  refreshUnsupported : ℤ

/-! ### The poller of an item -/

/-- The key part of an item key ends here. -/
def keyEnds : List Char → Bool
  | [] => true
  | c :: _ => c = '[' ∨ c = ','

/-- `cmp_key_id`: the keys are the same up to their parameters. -/
def cmpKeyId : List Char → List Char → Bool
  | p :: ps, q :: qs =>
    if p = q ∧ q ≠ '[' ∧ q ≠ ',' then cmpKeyId ps qs else keyEnds (p :: ps) && keyEnds (q :: qs)
  | ps, qs => keyEnds ps && keyEnds qs

/-- The keys of the simple checks that pingers perform. -/
def pingKeys : List String := ["icmpping", "icmppingsec", "icmppingloss"]

/-- `poller_by_item`. -/
def pollerByItem (env : Environment) (proxyHostid : UInt64) (type : ItemType) (key : String)
    (flags : UInt8) : Option PollerType :=
  let normal := if env.configPollerForks = 0 then none else some PollerType.normal
  if proxyHostid ≠ 0 ∧ type ≠ .aggregate ∧ type ≠ .calculated then none
  else if flags &&& flagDiscoveryPrototype ≠ 0 then none
  else match type with
    | .simple =>
      if pingKeys.any fun k => cmpKeyId key.toList k.toList then
        if env.configPingerForks = 0 then none else some .pinger
      else normal
    | .zabbix | .snmpV1 | .snmpV2c | .snmpV3 | .internal | .aggregate | .external
    | .dbMonitor | .ssh | .telnet | .calculated => normal
    | .ipmi => if env.configIpmiPollerForks = 0 then none else some .ipmi
    | .jmx => if env.configJavaPollerForks = 0 then none else some .java
    | .trapper | .zabbixActive | .httpTest | .snmpTrap => none

/-- The availability of a host that the items of a type depend on. -/
def Host.availability (host : Host) : ItemType → Option Availability
  | .zabbix => some host.agent
  | .snmpV1 | .snmpV2c | .snmpV3 => some host.snmp
  | .ipmi => some host.ipmi
  | .jmx => some host.jmx
  | _ => none

/-- `DCget_disable_until`. -/
def getDisableUntil (item : Item) (host : Host) : ℤ :=
  match host.availability item.type with
  | some a => if a.errorsFrom ≠ 0 then a.disableUntil else 0
  | none => 0

/-- Sets `disableUntil` where there are errors. -/
def Availability.disable (a : Availability) (until' : ℤ) : Availability :=
  if a.errorsFrom ≠ 0 then { a with disableUntil := until' } else a

/-- `DCincrease_disable_until`. -/
def increaseDisableUntil (env : Environment) (item : Item) (host : Host) (now : ℤ) : Host :=
  match item.type with
  | .zabbix => { host with agent := host.agent.disable (CInt.wrap (now + env.configTimeout)) }
  | .snmpV1 | .snmpV2c | .snmpV3 =>
    { host with snmp := host.snmp.disable (CInt.wrap (now + env.configTimeout)) }
  | .ipmi => { host with ipmi := host.ipmi.disable (CInt.wrap (now + env.configTimeout)) }
  | .jmx => { host with jmx := host.jmx.disable (CInt.wrap (now + env.configTimeout)) }
  | _ => host

namespace Config

/-- `DCget_reachable_nextcheck`. -/
def getReachableNextcheck (env : Environment) (cfg : Config) (itemid : UInt64) (item : Item)
    (now : ℤ) : ℤ :=
  match item.state with
  | .notSupported =>
    env.calculateItemNextcheck item.interfaceid itemid item.type cfg.refreshUnsupported none now
  | .normal =>
    env.calculateItemNextcheck item.interfaceid itemid item.type item.delay
      (cfg.flexitems.search itemid) now

/-- `DCget_unreachable_nextcheck`, at the time `now`. -/
def getUnreachableNextcheck (env : Environment) (cfg : Config) (itemid : UInt64) (item : Item)
    (host : Host) (now : ℤ) : ℤ :=
  match host.availability item.type with
  | some a =>
    if a.errorsFrom ≠ 0 then a.disableUntil
    else cfg.getReachableNextcheck env itemid item now
  | none => cfg.getReachableNextcheck env itemid item now

/-! ### The queues -/

/-- The item a pointer points to. -/
def itemAt (cfg : Config) (itemid : UInt64) : Item :=
  (cfg.items.rows.search itemid).getD default

/-- The JMX credentials of an item. -/
def jmxItemAt (cfg : Config) (itemid : UInt64) : JmxItem :=
  (cfg.jmxitems.search itemid).getD default

/-- `__config_nextcheck_compare`. -/
def nextcheckCompare (cfg : Config) (e1 e2 : Elem UInt64) : ℤ :=
  if (cfg.itemAt e1.data).nextcheck < (cfg.itemAt e2.data).nextcheck then -1
  else if (cfg.itemAt e1.data).nextcheck > (cfg.itemAt e2.data).nextcheck then 1
  else 0

/-- Compares two numbers and, when they are equal, goes on. -/
def orElse {α : Type} [LT α] [DecidableLT α] (x y : α) (next : ℤ) : ℤ :=
  if x < y then -1 else if x > y then 1 else next

/-- `__config_java_item_compare`. -/
def javaItemCompare (env : Environment) (cfg : Config) (i1 i2 : UInt64) : ℤ :=
  orElse (cfg.itemAt i1).nextcheck (cfg.itemAt i2).nextcheck <|
  orElse (cfg.itemAt i1).interfaceid (cfg.itemAt i2).interfaceid <|
  orElse (env.address (cfg.jmxItemAt i1).username) (env.address (cfg.jmxItemAt i2).username) <|
  orElse (env.address (cfg.jmxItemAt i1).password) (env.address (cfg.jmxItemAt i2).password) 0

/-- The compare function of a queue, `__config_java_elem_compare` for the queue of the Java
pollers and `__config_nextcheck_compare` for the others. -/
def elemCompare (env : Environment) (cfg : Config) (type : PollerType) (e1 e2 : Elem UInt64) :
    ℤ :=
  if type = .java then cfg.javaItemCompare env e1.data e2.data else cfg.nextcheckCompare e1 e2

/-- Writes an item. -/
def setItem (cfg : Config) (itemid : UInt64) (item : Item) : Config :=
  { cfg with items := { cfg.items with rows := cfg.items.rows.set itemid item } }

/-- Writes a queue. -/
def setQueue (cfg : Config) (type : PollerType) (queue : BinaryHeap UInt64) : Config :=
  { cfg with queues := Function.update cfg.queues type queue }

/-- `zbx_binary_heap_insert` on a queue. -/
def insertQueue (env : Environment) (cfg : Config) (type : PollerType) (itemid : UInt64) :
    Option Config :=
  ((cfg.queues type).insert (cfg.elemCompare env type) ⟨itemid, itemid⟩).map (cfg.setQueue type)

/-- `zbx_binary_heap_update_direct` on a queue. -/
def updateQueue (env : Environment) (cfg : Config) (type : PollerType) (itemid : UInt64) :
    Option Config :=
  ((cfg.queues type).updateDirect (cfg.elemCompare env type) ⟨itemid, itemid⟩).map
    (cfg.setQueue type)

/-- `zbx_binary_heap_remove_direct` on a queue. There is no queue for `ZBX_NO_POLLER`. -/
def removeQueue (env : Environment) (cfg : Config) (type : Option PollerType)
    (itemid : UInt64) : Option Config :=
  type.bind fun type =>
    ((cfg.queues type).removeDirect (cfg.elemCompare env type) itemid).map (cfg.setQueue type)

/-- The first part of `DCupdate_item_queue`: an item whose poller type has changed leaves
the queue of the old one. -/
def leaveQueue (env : Environment) (cfg : Config) (itemid : UInt64) (item : Item)
    (oldPollerType : Option PollerType) : Option Config :=
  if item.location = .queue ∧ oldPollerType ≠ item.pollerType then
    (cfg.setItem itemid { item with location := .nowhere }).removeQueue env oldPollerType itemid
  else some cfg

/-- The second part of `DCupdate_item_queue`: an item that is not in a queue enters the
queue of its poller type, and an item whose `nextcheck` has changed gets a new place. -/
def enterQueue (env : Environment) (cfg : Config) (itemid : UInt64) (item : Item)
    (oldNextcheck : ℤ) : Option Config :=
  item.pollerType.elim (some cfg) fun type =>
    if item.location = .queue then
      if oldNextcheck = item.nextcheck then some cfg else cfg.updateQueue env type itemid
    else (cfg.setItem itemid { item with location := .queue }).insertQueue env type itemid

/-- `DCupdate_item_queue`. -/
def updateItemQueue (env : Environment) (cfg : Config) (itemid : UInt64)
    (oldPollerType : Option PollerType) (oldNextcheck : ℤ) : Option Config := do
  let item ← cfg.items.rows.search itemid
  if item.location = .poller then some cfg
  else
    let cfg ← cfg.leaveQueue env itemid item oldPollerType
    let item ← cfg.items.rows.search itemid
    cfg.enterQueue env itemid item oldNextcheck

/-! ### Loading the items -/

/-- The structure `DCsync_items` stores for a row before it schedules the item. -/
def storeItem (now : ℤ) (found : Option Item) (row : ItemRow) : Item where
  hostid := row.hostid
  interfaceid := row.interfaceid
  lastlogsize := found.elim row.lastlogsize (·.lastlogsize)
  key := row.key
  port := row.port
  delay := found.elim 0 (·.delay)
  nextcheck := found.elim 0 (·.nextcheck)
  lastclock := found.elim 0 (·.lastclock)
  mtime := found.elim row.mtime (·.mtime)
  dataExpectedFrom := found.elim now (·.dataExpectedFrom)
  type := row.type
  dataType := row.dataType
  valueType := if row.flags &&& flagDiscoveryRule ≠ 0 then valueTypeText else row.valueType
  pollerType := found.elim none (·.pollerType)
  state := found.elim row.state (·.state)
  location := found.elim .nowhere (·.location)
  flags := row.flags

/-- The index `items_hk`. The look-ups of old keys are not checked. -/
def itemSchema (now : ℤ) : IndexSchema ItemRow UInt64 (UInt64 × String) Item where
  id row := row.itemid
  rowKey row := some (row.hostid, row.key)
  keyOf item := some (item.hostid, item.key)
  differs item row := item.hostid ≠ row.hostid ∨ item.key ≠ row.key
  store := storeItem now
  kept item := item
  checked := false
  keyOf_store _ _ := rfl
  keyOf_kept _ := rfl
  key_of_not_differs := by simp

/-- The `nextcheck` of an item after the check of its delay. -/
def delayNextcheck (env : Environment) (cfg : Config) (now : ℤ) (row : ItemRow)
    (found : Option Item) : ℤ :=
  let byDelay := env.calculateItemNextcheck row.interfaceid row.itemid row.type row.delay
    (some row.delayFlex) now
  match found with
  | none =>
    match row.state with
    | .notSupported => env.calculateItemNextcheck row.interfaceid row.itemid row.type
        cfg.refreshUnsupported none now
    | .normal => byDelay
  | some old => if old.state = .normal ∧ row.delay ≠ old.delay then byDelay else old.nextcheck

/-- The poller type of an item. One that is polled by the unreachable pollers stays with
them. -/
def newPollerType (env : Environment) (row : ItemRow) (found : Option Item) :
    Option PollerType :=
  let type := pollerByItem env row.proxyHostid row.type row.key row.flags
  if found.elim none (·.pollerType) = some .unreachable ∧
      (type = some .normal ∨ type = some .ipmi ∨ type = some .java) then some .unreachable
  else type

/-- The `nextcheck` of an item after the check of its flexible intervals. -/
def flexNextcheck (env : Environment) (cfg : Config) (now : ℤ) (row : ItemRow) (item : Item) :
    ℤ :=
  let calculate := fun flexIntervals => if item.state = .notSupported then item.nextcheck
    else env.calculateItemNextcheck item.interfaceid row.itemid item.type item.delay
      flexIntervals now
  match cfg.flexitems.search row.itemid with
  | none => if row.delayFlex = "" then item.nextcheck else calculate (some row.delayFlex)
  | some flex =>
    if row.delayFlex = "" then calculate none
    else if flex = row.delayFlex then item.nextcheck
    else calculate (some row.delayFlex)

/-- The item as `DCsync_items` has it before it updates the queue. -/
def loadItem (env : Environment) (cfg : Config) (now : ℤ) (row : ItemRow)
    (found : Option Item) : Item :=
  let item := { storeItem now found row with
    nextcheck := cfg.delayNextcheck env now row found
    delay := row.delay
    pollerType := newPollerType env row found }
  { item with nextcheck := cfg.flexNextcheck env now row item }

/-- The cache with a row written into it, before the queue of the item is updated. -/
def writeRow (env : Environment) (now : ℤ) (cfg : Config) (row : ItemRow)
    (items : IndexedTable UInt64 (UInt64 × String) Item) : Config :=
  let item := cfg.loadItem env now row (cfg.items.rows.search row.itemid)
  { cfg with
    items := { items with rows := items.rows.set row.itemid item }
    flexitems :=
      if row.delayFlex = "" then cfg.flexitems.remove row.itemid
      else cfg.flexitems.set row.itemid row.delayFlex
    jmxitems :=
      if row.type = ItemType.jmx then cfg.jmxitems.set row.itemid ⟨row.username, row.password⟩
      else cfg.jmxitems.remove row.itemid }

/-- One row of `DCsync_items`. -/
def syncItemsRow (env : Environment) (now : ℤ) (cfg : Config) (row : ItemRow) :
    Option Config := do
  let found := cfg.items.rows.search row.itemid
  let items ← (itemSchema now).syncRow cfg.items row
  (cfg.writeRow env now row items).updateItemQueue env row.itemid
    (found.elim none (·.pollerType)) (found.elim 0 (·.nextcheck))

/-- The cache without the parts of an item that are kept elsewhere. -/
def removeParts (cfg : Config) (itemid : UInt64) (item : Item) : Config :=
  { cfg with
    flexitems := cfg.flexitems.remove itemid
    jmxitems := if item.type = ItemType.jmx then cfg.jmxitems.remove itemid else cfg.jmxitems }

/-- Takes an item that goes out of its queue. -/
def dequeue (env : Environment) (cfg : Config) (itemid : UInt64) (item : Item) :
    Option Config :=
  if item.location = .queue then cfg.removeQueue env item.pollerType itemid else some cfg

/-- Removes an item. The JMX credentials of a JMX item are looked up without a check. The
entry of the index and the item itself are removed together, after the item has left its
queue. -/
def removeItem (env : Environment) (now : ℤ) (cfg : Config) (itemid : UInt64) :
    Option Config :=
  (cfg.items.rows.search itemid).elim (some cfg) fun item =>
    if item.type = .jmx ∧ cfg.jmxitems.search itemid = none then none
    else do
      let cfg ← (cfg.removeParts itemid item).dequeue env itemid item
      let items ← (itemSchema now).removeRow cfg.items itemid
      some { cfg with items }

/-- One item of the final iteration of `DCsync_items`. -/
def sweepItem (env : Environment) (now : ℤ) (ids : List UInt64) (cfg : Config)
    (itemid : UInt64) : Option Config :=
  if itemid ∈ ids then some cfg else cfg.removeItem env now itemid

/-- `DCsync_items`. -/
def syncItems (env : Environment) (now : ℤ) (rows : List ItemRow) (cfg : Config) :
    Option Config :=
  (itemSchema now).load (·.items) (syncItemsRow env now) (sweepItem env now) env.visit rows cfg

end Config

end DbConfig
