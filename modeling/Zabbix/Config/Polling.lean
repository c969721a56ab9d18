import Zabbix.Config.Items
import Zabbix.Library.Run

/-!
# Pollers

A poller takes due items from the queue of its type (`DCconfig_get_poller_items`), polls
them, and returns each of them with the result (`DCrequeue_items`). Trappers call the
latter too, for items that sent values by themselves. Between the calls, which hold the
lock of the cache, the configuration may be loaded anew.

The system has the cache and the items the pollers have taken and not yet returned.
-/

namespace DbConfig

/-- The result codes of a poll. -/
inductive Errcode
  | succeed | fail | notSupported | networkError | timeoutError | agentError | gatewayError
deriving DecidableEq, Repr

/-- The codes a poller returns an item with. -/
def Errcode.Polled : Errcode → Prop
  | .succeed | .notSupported | .agentError | .networkError | .gatewayError => True
  | .fail | .timeoutError => False

instance : DecidablePred Errcode.Polled := fun errcode => by
  cases errcode <;> unfold Errcode.Polled <;> infer_instance

/-- `HOST_MAINTENANCE_STATUS_ON`. -/
def maintenanceStatusOn : UInt8 := 1

/-- `MAINTENANCE_TYPE_NODATA`. -/
def maintenanceTypeNodata : UInt8 := 1

namespace Config

/-! ### Taking items -/

/-- What one round of `DCconfig_get_poller_items` comes to. -/
inductive Round
  | stop
  | skip (cfg : Config)
  | take (cfg : Config) (itemid : UInt64)

/-- Gives an item a poller type and a `nextcheck` and updates its queue. -/
def reschedule (env : Environment) (cfg : Config) (itemid : UInt64) (item : Item)
    (pollerType : Option PollerType) (nextcheck : ℤ) : Option Config :=
  (cfg.setItem itemid { item with pollerType, nextcheck }).updateItemQueue env itemid
    item.pollerType item.nextcheck

/-- Hands out an item. -/
def take (cfg : Config) (itemid : UInt64) (item : Item) : Round :=
  .take (cfg.setItem itemid { item with location := .poller }) itemid

/-- Writes a host. -/
def setHost (cfg : Config) (hostid : UInt64) (host : Host) : Config :=
  { cfg with hosts := { cfg.hosts with rows := cfg.hosts.rows.set hostid host } }

/-- The part of a round that depends on the host. -/
def pollHost (env : Environment) (cfg : Config) (pollerType : PollerType) (now : ℤ)
    (itemid : UInt64) (item : Item) (host : Host) : Option Round :=
  let reachable := cfg.getReachableNextcheck env itemid item now
  let unreachable := cfg.getUnreachableNextcheck env itemid item host now
  let disableUntil := getDisableUntil item host
  if host.maintenanceStatus = maintenanceStatusOn ∧
      host.maintenanceType = maintenanceTypeNodata then
    (cfg.reschedule env itemid item item.pollerType reachable).map .skip
  else if disableUntil = 0 then
    if pollerType = .unreachable then
      (cfg.reschedule env itemid item
        (pollerByItem env host.proxyHostid item.type item.key item.flags) reachable).map .skip
    else some (cfg.take itemid item)
  else if pollerType = .normal ∨ pollerType = .ipmi ∨ pollerType = .java then
    (cfg.reschedule env itemid item (some .unreachable)
      (if disableUntil > now then unreachable else item.nextcheck)).map .skip
  else if disableUntil > now then
    (cfg.reschedule env itemid item item.pollerType unreachable).map .skip
  else
    some ((cfg.setHost item.hostid (increaseDisableUntil env item host now)).take itemid item)

/-- One round of `DCconfig_get_poller_items`, in which `taken` items have been taken. -/
def pollRound (env : Environment) (cfg : Config) (pollerType : PollerType) (now : ℤ)
    (taken : List UInt64) : Option Round :=
  match (cfg.queues pollerType).findMin with
  | none => some .stop
  | some min => do
    let itemid := min.data
    let item ← cfg.items.rows.search itemid
    if item.nextcheck > now then some .stop
    else if pollerType = .java ∧
        taken.getLast?.any (fun prev => cfg.javaItemCompare env prev itemid ≠ 0) then
      some .stop
    else
      let queue ← (cfg.queues pollerType).removeMin (cfg.elemCompare env pollerType)
      let item := { item with location := .nowhere }
      let cfg := (cfg.setQueue pollerType queue).setItem itemid item
      if cfg.refreshUnsupported = 0 ∧ item.state = .notSupported then some (.skip cfg)
      else
        match cfg.hosts.rows.search item.hostid with
        | none => some (.skip cfg)
        | some host => cfg.pollHost env pollerType now itemid item host

/-- `DCconfig_get_poller_items`, of which at most `rounds` rounds are made. -/
def getPollerItems (env : Environment) (pollerType : PollerType) (maxItems : ℕ) (now : ℤ) :
    (rounds : ℕ) → Config → (taken : List UInt64) → Option (Config × List UInt64)
  | 0, cfg, taken => some (cfg, taken)
  | rounds + 1, cfg, taken =>
    if taken.length < maxItems then do
      match ← cfg.pollRound env pollerType now taken with
      | .stop => some (cfg, taken)
      | .skip cfg => getPollerItems env pollerType maxItems now rounds cfg taken
      | .take cfg itemid =>
        getPollerItems env pollerType maxItems now rounds cfg (taken ++ [itemid])
    else some (cfg, taken)

/-- What every round preserves holds after `DCconfig_get_poller_items`. -/
theorem getPollerItems_invariant {env : Environment} {pollerType : PollerType} {maxItems : ℕ}
    {now : ℤ} (inv : Config → List UInt64 → Prop)
    (hskip : ∀ cfg taken cfg', inv cfg taken →
      cfg.pollRound env pollerType now taken = some (.skip cfg') → inv cfg' taken)
    (htake : ∀ cfg taken cfg' itemid, inv cfg taken →
      cfg.pollRound env pollerType now taken = some (.take cfg' itemid) →
      inv cfg' (taken ++ [itemid]))
    (rounds : ℕ) {cfg cfg' : Config} {taken taken' : List UInt64} (hstart : inv cfg taken)
    (hget : cfg.getPollerItems env pollerType maxItems now rounds taken = some (cfg', taken')) :
  inv cfg' taken'
  := by
  induction rounds generalizing cfg taken with
  | zero =>
    simp only [Config.getPollerItems, Option.some.injEq, Prod.mk.injEq] at hget
    obtain ⟨rfl, rfl⟩ := hget
    exact hstart
  | succ rounds ih =>
    unfold Config.getPollerItems at hget
    by_cases hmax : taken.length < maxItems
    · rw [if_pos hmax] at hget
      obtain ⟨round, hround, hget⟩ := Option.bind_eq_some_iff.mp hget
      cases round with
      | stop =>
        simp only [Option.some.injEq, Prod.mk.injEq] at hget
        obtain ⟨rfl, rfl⟩ := hget
        exact hstart
      | skip cfg₁ => exact ih (hskip _ _ _ hstart hround) hget
      | take cfg₁ itemid => exact ih (htake _ _ _ _ hstart hround) hget
    · rw [if_neg hmax, Option.some.injEq, Prod.mk.injEq] at hget
      obtain ⟨rfl, rfl⟩ := hget
      exact hstart

/-! ### Returning items -/

/-- Takes an item from its poller. -/
def release (item : Item) : Item :=
  if item.location = .poller then { item with location := .nowhere } else item

/-- What the two functions below have in common. An item gets its `nextcheck`, is taken
from its poller and goes to the queue of the given poller type. Without a type the
function returns before the last step, and for an item without a poller type before the
second. -/
def requeueAs (env : Environment) (cfg : Config) (itemid : UInt64) (item : Item)
    (nextcheck : ℤ) (pollerType : Option (Option PollerType)) : Option Config :=
  let item := { item with nextcheck }
  let cfg := cfg.setItem itemid item
  if item.pollerType = none then some cfg
  else
    let item := release item
    let cfg := cfg.setItem itemid item
    pollerType.elim (some cfg) fun pollerType =>
      cfg.reschedule env itemid item pollerType item.nextcheck

/-- The poller type of an item that could be polled. One that the unreachable pollers
had goes back to its own pollers; there is none when its host is gone. -/
def reachableType (env : Environment) (cfg : Config) (item : Item) :
    Option (Option PollerType) :=
  if item.pollerType = some .unreachable then
    (cfg.hosts.rows.search item.hostid).map fun host =>
      pollerByItem env host.proxyHostid item.type item.key item.flags
  else some item.pollerType

/-- The poller type of an item that could not be polled. -/
def unreachableType (item : Item) : Option PollerType :=
  if item.pollerType = some .normal ∨ item.pollerType = some .ipmi ∨
      item.pollerType = some .java then some .unreachable
  else item.pollerType

/-- `DCrequeue_reachable_item`. -/
def requeueReachableItem (env : Environment) (cfg : Config) (itemid : UInt64) (item : Item)
    (lastclock : ℤ) : Option Config :=
  cfg.requeueAs env itemid item (cfg.getReachableNextcheck env itemid item lastclock)
    (cfg.reachableType env item)

/-- `DCrequeue_unreachable_item`, at the time `now`. -/
def requeueUnreachableItem (env : Environment) (cfg : Config) (itemid : UInt64) (item : Item)
    (now : ℤ) : Option Config :=
  (cfg.hosts.rows.search item.hostid).elim (some cfg) fun host =>
    cfg.requeueAs env itemid item (cfg.getUnreachableNextcheck env itemid item host now)
      (some (unreachableType item))

/-- An item returned with the result of a poll. -/
structure Requeue where
  itemid : UInt64
  state : ItemState
  lastclock : ℤ
  lastlogsize : Option UInt64
  mtime : Option ℤ
  errcode : Errcode

/-- The item with the results of a poll written into it. -/
def storeResult (item : Item) (r : Requeue) : Item :=
  { item with
    state := r.state
    lastclock := r.lastclock
    lastlogsize := r.lastlogsize.getD item.lastlogsize
    mtime := r.mtime.getD item.mtime }

/-- `DCrequeue_items` for one item. -/
def requeueItem (env : Environment) (now : ℤ) (cfg : Config) (r : Requeue) : Option Config :=
  if r.errcode = .fail then some cfg
  else
    match cfg.items.rows.search r.itemid with
    | none => some cfg
    | some item =>
      let item := storeResult item r
      let cfg := cfg.setItem r.itemid item
      match r.errcode with
      | .succeed | .notSupported | .agentError =>
        cfg.requeueReachableItem env r.itemid item r.lastclock
      | .networkError | .gatewayError => cfg.requeueUnreachableItem env r.itemid item now
      | .fail | .timeoutError => some cfg

/-- `DCrequeue_items`. -/
def requeueItems (env : Environment) (now : ℤ) (rs : List Requeue) (cfg : Config) :
    Option Config :=
  rs.foldlM (requeueItem env now) cfg

end Config

/-! ### The system -/

/-- The cache, and the items the pollers hold, each with its poller. -/
structure System where
  config : Config
  held : List (ℕ × UInt64)

/-- The atomic steps. A host is written by the processes that determine its status. -/
inductive Action
  | syncItems (now : ℤ) (rows : List ItemRow)
  | syncHosts (rows : List HostRow)
  | setRefreshUnsupported (seconds : ℤ)
  | setHostStatus (hostid : UInt64) (status : HostStatus)
  | getPollerItems (poller : ℕ) (pollerType : PollerType) (maxItems : ℕ) (now : ℤ)
      (rounds : ℕ)
  | requeue (poller : ℕ) (now : ℤ) (r : Config.Requeue)
  | receive (now : ℤ) (rs : List Config.Requeue)

namespace System

/-- An atomic step; `none` when it cannot be made. A poller returns an item that it holds. -/
def step (env : Environment) (s : System) : Action → Option System
  | .syncItems now rows => (s.config.syncItems env now rows).map fun cfg => { s with config := cfg }
  | .syncHosts rows =>
    (hostSchema.sync env.visit rows s.config.hosts).map fun hosts =>
      { s with config := { s.config with hosts } }
  | .setRefreshUnsupported seconds =>
    some { s with config := { s.config with refreshUnsupported := seconds } }
  | .setHostStatus hostid status =>
    (s.config.hosts.rows.search hostid).map fun host =>
      { s with config := s.config.setHost hostid { host with toHostStatus := status } }
  | .getPollerItems poller pollerType maxItems now rounds =>
    (Config.getPollerItems env pollerType maxItems now rounds s.config []).map
      fun (cfg, taken) => ⟨cfg, s.held ++ taken.map (poller, ·)⟩
  | .requeue poller now r =>
    if (poller, r.itemid) ∈ s.held ∧ r.errcode.Polled then
      (s.config.requeueItem env now r).map fun cfg => ⟨cfg, s.held.erase (poller, r.itemid)⟩
    else none
  | .receive now rs => (s.config.requeueItems env now rs).map fun cfg => { s with config := cfg }

end System

end DbConfig
