import Zabbix.Config.Holding

/-!
# The hash sets after each load

After any sequence of loads, each of a snapshot with unique ids and unique secondary keys,
every hash set has exactly the rows of its last snapshot, and its index has exactly their
secondary keys. No load fails, so that every look-up of an old key whose result is not
checked finds an entry.

The items take more than the others: a row also schedules the item, which rewrites the
structure, and a removed JMX item needs its credentials.
-/

namespace DbConfig

open IndexSchema

/-- The structure has the columns of the row that a load always writes. -/
structure Item.Agrees (row : ItemRow) (item : Item) : Prop where
  hostid : item.hostid = row.hostid
  interfaceid : item.interfaceid = row.interfaceid
  key : item.key = row.key
  port : item.port = row.port
  delay : item.delay = row.delay
  type : item.type = row.type
  dataType : item.dataType = row.dataType
  valueType : item.valueType =
    if row.flags &&& flagDiscoveryRule ≠ 0 then valueTypeText else row.valueType
  flags : item.flags = row.flags

namespace Config

variable {env : Environment} {cfg cfg' : Config} {now : ℤ}

/-- What the loads of items rely on besides the index: the items are in their queues, and
the JMX items have credentials. -/
structure Sound (cfg : Config) : Prop where
  placed : cfg.Placed
  jmx : ∀ itemid item, cfg.items.rows.search itemid = some item → item.type = .jmx →
    cfg.jmxitems.search itemid ≠ none

theorem loadItem_agrees (env : Environment) (cfg : Config) (now : ℤ) (row : ItemRow)
    (found : Option Item) :
  Item.Agrees row (cfg.loadItem env now row found).settle
  := by
  constructor <;> rfl

/-- The other hash sets of two caches are the same. -/
structure SameTables (cfg cfg' : Config) : Prop where
  gmacros : cfg'.gmacros = cfg.gmacros
  hmacros : cfg'.hmacros = cfg.hmacros
  hosts : cfg'.hosts = cfg.hosts
  interfaces : cfg'.interfaces = cfg.interfaces

/-- A cache in the middle of a load of items that began in `cfg₀`. -/
structure Loading (cfg₀ cfg : Config) : Prop where
  sound : cfg.Sound
  same : SameTables cfg₀ cfg

/-- A row is stored and linked. -/
theorem syncItemsRow_links (env : Environment) (now : ℤ) (cfg₀ : Config) :
  (itemSchema now).RowLinks (·.items) (Loading cfg₀) Item.Agrees (syncItemsRow env now)
  := by
  intro cfg row done ⟨hgood, hsame⟩ h hrow
  obtain ⟨index, hindex, hlinked⟩ := h.syncRow hrow
  obtain ⟨rows, queues, heq, hrows, hplaced⟩ := hgood.placed.syncItemsRow env hindex
  obtain ⟨hgmacros, hhmacros, hhosts, hinterfaces⟩ := hsame
  refine ⟨_, heq, ⟨⟨hplaced, ?_⟩, hgmacros, hhmacros, hhosts, hinterfaces⟩, ?_, _,
    loadItem_agrees env cfg now row _, hrows⟩
  · intro itemid item hitem htype
    change rows.search itemid = some item at hitem
    change (if row.type = ItemType.jmx
      then cfg.jmxitems.set row.itemid ⟨row.username, row.password⟩
      else cfg.jmxitems.remove row.itemid).search itemid ≠ none
    rw [hrows] at hitem
    by_cases hid : itemid = row.itemid
    · rw [hid, Function.update_self, Option.some.injEq] at hitem
      have hjmx : row.type = .jmx := by
        rw [← (loadItem_agrees env cfg now row _).type, hitem, htype]
      rw [if_pos hjmx, hid, Table.search_set_self]
      simp
    · rw [Function.update_of_ne hid] at hitem
      have hthere := hgood.jmx itemid item hitem htype
      split
      · rw [Table.search_set_of_ne _ _ hid]
        exact hthere
      · rw [Table.search_remove_of_ne _ hid]
        exact hthere
  · -- the item is stored once more after it has been scheduled
    have hstored := Table.search_set_self cfg.items.rows row.itemid
      ((itemSchema now).store (cfg.items.rows.search row.itemid) row)
    have hagain : rows.search = Function.update (cfg.items.rows.set row.itemid
        ((itemSchema now).store (cfg.items.rows.search row.itemid) row)).search row.itemid
        (some (cfg.loadItem env now row (cfg.items.rows.search row.itemid)).settle) := by
      rw [hrows, Table.search_set, Function.update_idem]
    exact hlinked.modify hstored hagain rfl

/-- An item that no row stored is removed together with its entry. -/
theorem sweepItem_links (env : Environment) (now : ℤ) (cfg₀ : Config) :
  (itemSchema now).SweepLinks (·.items) (Loading cfg₀) (sweepItem env now)
  := by
  intro ids cfg itemid hloading h
  obtain ⟨hgood, hgmacros, hhmacros, hhosts, hinterfaces⟩ := hloading
  unfold Config.sweepItem
  by_cases hmem : itemid ∈ ids
  · rw [if_pos hmem]
    refine ⟨cfg, rfl, ⟨hgood, hgmacros, hhmacros, hhosts, hinterfaces⟩, h, ?_⟩
    rw [if_pos hmem]
    change cfg.items.rows.search = Function.update cfg.items.rows.search itemid
      ((cfg.items.rows.search itemid).map fun item => item)
    rw [Option.map_id', Function.update_eq_self]
  · rw [if_neg hmem, if_neg hmem]
    obtain ⟨items, hremove, hlinked, hrows⟩ := h.removeRow hmem
    cases hitem : cfg.items.rows.search itemid with
    | none =>
      refine ⟨cfg, by simp [Config.removeItem, hitem],
        ⟨hgood, hgmacros, hhmacros, hhosts, hinterfaces⟩, h, ?_⟩
      rw [← hitem, Function.update_eq_self]
    | some item =>
      obtain ⟨queues, heq, hplaced⟩ :=
        hgood.placed.removeItem env hitem (hgood.jmx itemid item hitem) hremove
      refine ⟨_, heq, ⟨⟨hplaced, ?_⟩, hgmacros, hhmacros, hhosts, hinterfaces⟩, hlinked, hrows⟩
      intro j item' hitem' htype
      change items.rows.search j = some item' at hitem'
      change (if item.type = ItemType.jmx then cfg.jmxitems.remove itemid
        else cfg.jmxitems).search j ≠ none
      rw [hrows] at hitem'
      have hj : j ≠ itemid := by
        rintro rfl
        rw [Function.update_self] at hitem'
        contradiction
      rw [Function.update_of_ne hj] at hitem'
      have hthere := hgood.jmx j item' hitem' htype
      split
      · rw [Table.search_remove_of_ne _ hj]
        exact hthere
      · exact hthere

/-- A load of items makes their hash set exact and does not touch the others. -/
theorem Sound.syncItems (h : cfg.Sound) {rows : List ItemRow}
    (hvalid : (itemSchema now).Valid rows) (hlinked : (itemSchema now).Linked [] cfg.items) :
  ∃ cfg', cfg.syncItems env now rows = some cfg' ∧ Loading cfg cfg' ∧
    (itemSchema now).Exact Item.Agrees rows cfg'.items
  := by
  apply Linked.load env.visit (syncItemsRow_links env now cfg) (sweepItem_links env now cfg) _ _
    hvalid ⟨h, rfl, rfl, rfl, rfl⟩ hlinked
  · intro row item hagrees
    change some (item.hostid, item.key) = some (row.hostid, row.key)
    rw [hagrees.hostid, hagrees.key]
  · intro row item hagrees
    exact hagrees

end Config

/-! ### Sequences of loads -/

/-- The loads of the configuration. `substitute` is what the macros of the addresses of
interfaces come to at the time. -/
inductive Load
  | gmacros (rows : List GmacroRow)
  | hmacros (rows : List HmacroRow)
  | hosts (rows : List HostRow)
  | interfaces (substitute : UInt64 → String → String) (rows : List InterfaceRow)
  | items (now : ℤ) (rows : List ItemRow)

/-- A load of a snapshot with unique ids and unique secondary keys. -/
def Load.Valid : Load → Prop
  | .gmacros rows => gmacroSchema.Valid rows
  | .hmacros rows => hmacroSchema.Valid rows
  | .hosts rows => hostSchema.Valid rows
  | .interfaces substitute rows => (interfaceSchema substitute).Valid rows
  | .items now rows => (Config.itemSchema now).Valid rows

instance : DecidablePred Load.Valid := fun load => by
  cases load <;> unfold Load.Valid <;> infer_instance

namespace Config

/-- Applies a load to the cache; `none` when a failed look-up is dereferenced. -/
def load (env : Environment) (cfg : Config) : Load → Option Config
  | .gmacros rows => (gmacroSchema.sync env.visit rows cfg.gmacros).map
      fun gmacros => { cfg with gmacros }
  | .hmacros rows => (hmacroSchema.sync env.visit rows cfg.hmacros).map
      fun hmacros => { cfg with hmacros }
  | .hosts rows => (hostSchema.sync env.visit rows cfg.hosts).map
      fun hosts => { cfg with hosts }
  | .interfaces substitute rows =>
    ((interfaceSchema substitute).sync env.visit rows cfg.interfaces).map
      fun interfaces => { cfg with interfaces }
  | .items now rows => cfg.syncItems env now rows

end Config

/-- The last snapshots loaded. -/
structure Snapshots where
  gmacros : List GmacroRow
  hmacros : List HmacroRow
  hosts : List HostRow
  interfaces : List InterfaceRow
  substitute : UInt64 → String → String
  items : List ItemRow

namespace Snapshots

/-- No snapshot has been loaded. -/
def none : Snapshots := ⟨[], [], [], [], fun _ addr => addr, []⟩

/-- The last snapshots after one more load. -/
def after (s : Snapshots) : Load → Snapshots
  | .gmacros gmacros => { s with gmacros }
  | .hmacros hmacros => { s with hmacros }
  | .hosts hosts => { s with hosts }
  | .interfaces substitute interfaces => { s with substitute, interfaces }
  | .items _ items => { s with items }

/-- Every hash set holds exactly the rows of its last snapshot, and its index maps exactly
their secondary keys to the structures of the rows. -/
structure Exact (s : Snapshots) (cfg : Config) : Prop where
  gmacros : gmacroSchema.Exact Gmacro.Agrees s.gmacros cfg.gmacros
  hmacros : hmacroSchema.Exact Hmacro.Agrees s.hmacros cfg.hmacros
  hosts : hostSchema.Exact Host.Agrees s.hosts cfg.hosts
  interfaces : (interfaceSchema s.substitute).Exact (Interface.Agrees s.substitute)
    s.interfaces cfg.interfaces
  items : ∀ now, (Config.itemSchema now).Exact Item.Agrees s.items cfg.items

/-- The invariant of a sequence of loads. -/
structure Loaded (s : Snapshots) (cfg : Config) : Prop where
  exact : s.Exact cfg
  sound : cfg.Sound

variable {s : Snapshots} {cfg : Config}

theorem exact_empty {ρ ι κ ω : Type*} [DecidableEq ι] [DecidableEq κ]
    (S : IndexSchema ρ ι κ ω) (agrees : ρ → ω → Prop) :
  S.Exact agrees [] IndexedTable.empty
  := by
  constructor <;> simp [IndexedTable.empty]

theorem loaded_initial (garbage : ℕ → BinaryHeap.Elem UInt64) (refreshUnsupported : ℤ) :
  none.Loaded (System.initial garbage refreshUnsupported).config
  := by
  refine ⟨?_, (System.heldOnce_initial garbage refreshUnsupported).placed, ?_⟩
  · exact ⟨exact_empty _ _, exact_empty _ _, exact_empty _ _, exact_empty _ _,
      fun _ => exact_empty _ _⟩
  · intro itemid item hitem
    contradiction

theorem gmacro_key (row : GmacroRow) (entry : Gmacro) (h : Gmacro.Agrees row entry) :
  gmacroSchema.keyOf entry = gmacroSchema.rowKey row
  := by
  rw [h]
  rfl

theorem hmacro_key (row : HmacroRow) (entry : Hmacro) (h : Hmacro.Agrees row entry) :
  hmacroSchema.keyOf entry = hmacroSchema.rowKey row
  := by
  rw [h]
  rfl

theorem host_key (row : HostRow) (host : Host) (h : Host.Agrees row host) :
  hostSchema.keyOf host = hostSchema.rowKey row
  := by
  change some (host.proxyHostid, host.status, host.host) = _
  rw [h.proxyHostid, h.status, h.host]
  rfl

theorem interface_key (substitute : UInt64 → String → String) (row : InterfaceRow)
    (interface : Interface) (h : Interface.Agrees substitute row interface) :
  (interfaceSchema substitute).keyOf interface = (interfaceSchema substitute).rowKey row
  := by
  rw [h]
  exact (interfaceSchema substitute).keyOf_kept _

theorem item_key (now : ℤ) (row : ItemRow) (item : Item) (h : Item.Agrees row item) :
  (Config.itemSchema now).keyOf item = (Config.itemSchema now).rowKey row
  := by
  change some (item.hostid, item.key) = _
  rw [h.hostid, h.key]
  rfl

/-- A load does not fail and makes its hash set exact. -/
theorem Loaded.load (env : Environment) (h : s.Loaded cfg) {load : Load} (hvalid : load.Valid) :
  ∃ cfg', cfg.load env load = some cfg' ∧ (s.after load).Loaded cfg'
  := by
  obtain ⟨hexact, hsound⟩ := h
  cases load with
  | gmacros rows =>
    obtain ⟨gmacros, heq, hnew⟩ := Linked.sync env.visit gmacro_key (fun _ _ => rfl) hvalid
      (hexact.gmacros.linked gmacro_key)
    refine ⟨{ cfg with gmacros }, by simp [Config.load, heq], ?_, ?_⟩
    · exact { hexact with gmacros := hnew }
    · exact ⟨⟨hsound.placed.arranged, hsound.placed.typed⟩, hsound.jmx⟩
  | hmacros rows =>
    obtain ⟨hmacros, heq, hnew⟩ := Linked.sync env.visit hmacro_key (fun _ _ => rfl) hvalid
      (hexact.hmacros.linked hmacro_key)
    refine ⟨{ cfg with hmacros }, by simp [Config.load, heq], ?_, ?_⟩
    · exact { hexact with hmacros := hnew }
    · exact ⟨⟨hsound.placed.arranged, hsound.placed.typed⟩, hsound.jmx⟩
  | hosts rows =>
    obtain ⟨hosts, heq, hnew⟩ := Linked.sync env.visit host_key
      (fun _ _ => ⟨rfl, rfl, rfl, rfl⟩) hvalid (hexact.hosts.linked host_key)
    refine ⟨{ cfg with hosts }, by simp [Config.load, heq], ?_, ?_⟩
    · exact { hexact with hosts := hnew }
    · exact ⟨⟨hsound.placed.arranged, hsound.placed.typed⟩, hsound.jmx⟩
  | interfaces substitute rows =>
    -- the keys of the interfaces do not depend on how the macros are resolved
    have hlinked : (interfaceSchema substitute).Linked [] cfg.interfaces := by
      obtain ⟨hsoundness, hcovered⟩ := hexact.interfaces.linked (interface_key s.substitute)
      exact ⟨hsoundness, hcovered⟩
    obtain ⟨interfaces, heq, hnew⟩ := Linked.sync env.visit (interface_key substitute)
      (fun _ _ => rfl) hvalid hlinked
    refine ⟨{ cfg with interfaces }, by simp [Config.load, heq], ?_, ?_⟩
    · exact { hexact with interfaces := hnew }
    · exact ⟨⟨hsound.placed.arranged, hsound.placed.typed⟩, hsound.jmx⟩
  | items now rows =>
    obtain ⟨cfg', heq, ⟨hsound', hsame⟩, hnew⟩ := hsound.syncItems hvalid
      ((hexact.items now).linked (item_key now))
    refine ⟨cfg', heq, ?_, hsound'⟩
    obtain ⟨hgmacros, hhmacros, hhosts, hinterfaces⟩ := hsame
    constructor
    · rw [hgmacros]
      exact hexact.gmacros
    · rw [hhmacros]
      exact hexact.hmacros
    · rw [hhosts]
      exact hexact.hosts
    · rw [hinterfaces]
      exact hexact.interfaces
    · intro now'
      obtain ⟨hids, hstored, hindex⟩ := hnew
      exact ⟨hids, hstored, hindex⟩

/-- After any sequence of loads of snapshots with unique ids and keys the hash sets and their
indexes are exact. No load fails. -/
theorem loads_exact (env : Environment) (garbage : ℕ → BinaryHeap.Elem UInt64)
    (refreshUnsupported : ℤ) (loads : List Load) (hvalid : ∀ load ∈ loads, load.Valid) :
  ∃ cfg, execute (Config.load env) (System.initial garbage refreshUnsupported).config loads =
      some cfg ∧
    (loads.foldl after none).Exact cfg
  := by
  have hrun : ∀ (s : Snapshots) cfg, s.Loaded cfg →
      ∃ cfg', execute (Config.load env) cfg loads = some cfg' ∧
        (loads.foldl after s).Exact cfg' := by
    induction loads with
    | nil => exact fun s cfg h => ⟨cfg, rfl, h.exact⟩
    | cons load loads ih =>
      intro s cfg h
      obtain ⟨cfg₁, hload, h₁⟩ :=
        h.load env (hvalid load List.mem_cons_self)
      obtain ⟨cfg', hexec, hexact⟩ :=
        ih (fun load' hmem => hvalid load' (List.mem_cons_of_mem _ hmem)) _ _ h₁
      exact ⟨cfg', by simp [execute, hload, hexec], hexact⟩
  exact hrun _ _ (loaded_initial garbage refreshUnsupported)

/-- Two items exchange their keys between two loads, and then a third takes the key of one
that is gone. -/
def exchangedKeys : List Load :=
  [.hosts [System.sampleHost], .items 0 [System.sampleRow 1 0 30, System.sampleRow 2 0 30],
    .items 10 [{ System.sampleRow 1 0 30 with key := "2" },
      { System.sampleRow 2 0 30 with key := "1" }],
    .items 20 [{ System.sampleRow 3 0 30 with key := "1" },
      { System.sampleRow 1 0 30 with key := "2" }]]

theorem exchangedKeys_exact :
  ∃ cfg, execute (Config.load System.sampleEnvironment)
      (System.initial (fun _ => ⟨0, 0⟩) 600).config exchangedKeys = some cfg ∧
    (exchangedKeys.foldl after none).Exact cfg
  := by
  apply loads_exact
  decide

end Snapshots

end DbConfig
