import Zabbix.Config.StepSpecs

/-!
# Who holds an item

An item that a poller holds is in the hands of that poller alone, and an item that no
poller holds is not located with a poller, as long as two things do not happen. One is a
load that brings back an item that was removed while a poller held it: the new structure
starts out of every queue, is queued, and handed out a second time. The other is a poller
that returns an item and does not give it up: the functions that take the item back
return before they reset its location when it has no poller type any more, and, for an
item that could not be polled, when its host is gone. The location stays, and no later
load puts the item into a queue again.
-/

open BinaryHeap (Elem)

namespace DbConfig

namespace System

/-- The system before the first load. -/
def initial (garbage : ℕ → Elem UInt64) (refreshUnsupported : ℤ) : System where
  config :=
    { items := IndexedTable.empty
      flexitems := Table.empty
      jmxitems := Table.empty
      hosts := IndexedTable.empty
      gmacros := IndexedTable.empty
      hmacros := IndexedTable.empty
      interfaces := IndexedTable.empty
      queues := fun _ => BinaryHeap.create garbage true
      refreshUnsupported }
  held := []

/-- How many times an item is held. -/
def heldCount (s : System) (itemid : UInt64) : ℕ := (s.held.map Prod.snd).count itemid

/-- The steps after which the items are in one hand each: a load brings back no item that
a poller holds, and an item that is returned is given up. -/
def HandsOver (s : System) : Action → Prop
  | .syncItems _ rows => ∀ row ∈ rows, s.config.items.rows.search row.itemid = none →
      s.heldCount row.itemid = 0
  | .requeue _ _ r => ∀ item ∈ s.config.items.rows.search r.itemid, s.config.Returns item r
  | .receive _ rs => ∀ r ∈ rs, s.heldCount r.itemid = 0
  | _ => True

instance (s : System) : ∀ action, Decidable (s.HandsOver action)
  | .syncItems _ rows => inferInstanceAs (Decidable (∀ row ∈ rows, _ → _))
  | .requeue _ _ r =>
    inferInstanceAs (Decidable (∀ item ∈ s.config.items.rows.search r.itemid, _))
  | .receive _ rs => inferInstanceAs (Decidable (∀ r ∈ rs, s.heldCount r.itemid = 0))
  | .syncHosts _ | .setRefreshUnsupported _ | .setHostStatus _ _
  | .getPollerItems _ _ _ _ _ => inferInstanceAs (Decidable True)

/-- A cached item is held by as many pollers as its location says. -/
def Located (cfg : Config) (count : UInt64 → ℕ) : Prop :=
  ∀ itemid item, cfg.items.rows.search itemid = some item →
    count itemid = if item.location = .poller then 1 else 0

/-- The invariant of the system. -/
structure HeldOnce (s : System) : Prop where
  placed : s.config.Placed
  located : Located s.config s.heldCount

variable {env : Environment} {s s' : System} {cfg cfg' : Config} {count : UInt64 → ℕ}

theorem heldOnce_initial (garbage : ℕ → Elem UInt64) (refreshUnsupported : ℤ) :
  (initial garbage refreshUnsupported).HeldOnce
  := by
  refine ⟨⟨?_, ?_⟩, ?_⟩
  · intro type
    have hplace : ∀ itemid, (initial garbage refreshUnsupported).config.place itemid = none :=
      fun _ => rfl
    simp only [hplace, reduceCtorEq]
    apply BinaryHeap.holds_create
  · intro itemid item hitem
    contradiction
  · intro itemid item hitem
    contradiction

/-- Changing an item and the number of its holders together. -/
theorem Located.update {count' : UInt64 → ℕ} {itemid : UInt64} {item' : Item}
    (h : Located cfg count)
    (hrows : cfg'.items.rows.search =
      Function.update cfg.items.rows.search itemid (some item'))
    (hcount : ∀ j, j ≠ itemid → count' j = count j)
    (hself : count' itemid = if item'.location = .poller then 1 else 0) :
  Located cfg' count'
  := by
  intro j item hj
  rw [hrows] at hj
  by_cases hji : j = itemid
  · rw [hji, Function.update_self, Option.some.injEq] at hj
    rw [hji, ← hj, hself]
  · rw [Function.update_of_ne hji] at hj
    rw [hcount j hji]
    apply h j item hj

/-! ### The steps -/

theorem HeldOnce.syncItems (h : s.HeldOnce) {now : ℤ} {rows : List ItemRow}
    (hmeets : s.HandsOver (.syncItems now rows))
    (hsync : s.config.syncItems env now rows = some cfg') :
  HeldOnce { s with config := cfg' }
  := by
  obtain ⟨hplaced, hitems⟩ := h.placed.syncItems env hsync
  refine ⟨hplaced, ?_⟩
  intro itemid item' hitem'
  change s.heldCount itemid = _
  obtain ⟨hmem, -, hloc⟩ := hitems itemid item' hitem'
  cases hitem : s.config.items.rows.search itemid with
  | none =>
    obtain ⟨row, hrow, rfl⟩ := List.mem_map.mp hmem
    have hne : item'.location ≠ .poller := by
      rw [Ne, hloc]
      simp [hitem]
    rw [if_neg hne]
    exact hmeets row hrow hitem
  | some item =>
    have hiff : item'.location = .poller ↔ item.location = .poller := by
      rw [hloc]
      simp [hitem]
    rw [h.located itemid item hitem]
    simp only [hiff]

/-- The rounds in which a poller takes items. The items taken so far count as held. -/
theorem placed_getPollerItems {pollerType : PollerType} {maxItems : ℕ} {now : ℤ}
    (rounds : ℕ) {taken taken' : List UInt64} (hplaced : cfg.Placed)
    (hlocated : Located cfg fun itemid => count itemid + taken.count itemid)
    (hget : Config.getPollerItems env pollerType maxItems now rounds cfg taken =
      some (cfg', taken')) :
  cfg'.Placed ∧ Located cfg' fun itemid => count itemid + taken'.count itemid
  := by
  let inv : Config → List UInt64 → Prop := fun c t =>
    c.Placed ∧ Located c fun itemid => count itemid + t.count itemid
  apply Config.getPollerItems_invariant inv _ _ rounds ⟨hplaced, hlocated⟩ hget
  · intro c t c' ⟨hp, hl⟩ hround
    obtain ⟨round, heq, hk⟩ := hp.pollRound env pollerType now t
    rw [hround, Option.some.injEq] at heq
    obtain hk | ⟨itemid, item, hitem, hloc, hk⟩ := heq ▸ hk
    · contradiction
    · obtain ⟨hp', item', hne, hrows⟩ := hk
      refine ⟨hp', hl.update hrows (fun _ _ => rfl) ?_⟩
      have hzero := hl itemid item hitem
      rw [if_neg (by simp [hloc])] at hzero
      rw [if_neg hne]
      exact hzero
  · intro c t c' itemid ⟨hp, hl⟩ hround
    obtain ⟨round, heq, hk⟩ := hp.pollRound env pollerType now t
    rw [hround, Option.some.injEq] at heq
    obtain hk | ⟨itemid', item, hitem, hloc, hk⟩ := heq ▸ hk
    · contradiction
    · obtain ⟨hp', rfl, hrows⟩ := hk
      refine ⟨hp', hl.update hrows ?_ ?_⟩
      · intro j hj
        simp [List.count_append, Ne.symm hj]
      · have hzero := hl itemid item hitem
        rw [if_neg (by simp [hloc])] at hzero
        dsimp only at hzero
        simp only [if_true, List.count_append, List.count_singleton_self]
        omega

theorem HeldOnce.getPollerItems (h : s.HeldOnce) {pollerType : PollerType} {maxItems : ℕ}
    {now : ℤ} {rounds : ℕ} {taken : List UInt64} (poller : ℕ)
    (hget : Config.getPollerItems env pollerType maxItems now rounds s.config [] =
      some (cfg', taken)) :
  HeldOnce ⟨cfg', s.held ++ taken.map (poller, ·)⟩
  := by
  obtain ⟨hplaced, hlocated⟩ := placed_getPollerItems rounds h.placed
    (by simpa using h.located) hget
  refine ⟨hplaced, ?_⟩
  intro itemid item hitem
  rw [← hlocated itemid item hitem]
  have hsnd : Prod.snd ∘ (fun itemid : UInt64 => (poller, itemid)) = id := rfl
  simp [heldCount, List.count_append, hsnd]

/-- What returning an item that is held changes in the counts. -/
theorem heldCount_erase {poller : ℕ} {itemid : UInt64} (hmem : (poller, itemid) ∈ s.held)
    (cfg : Config) :
  (∀ j, j ≠ itemid → heldCount ⟨cfg, s.held.erase (poller, itemid)⟩ j = s.heldCount j) ∧
    heldCount ⟨cfg, s.held.erase (poller, itemid)⟩ itemid + 1 = s.heldCount itemid
  := by
  have hperm := ((List.perm_cons_erase hmem).map Prod.snd)
  constructor
  · intro j hj
    unfold heldCount
    rw [hperm.count_eq, List.map_cons, List.count_cons_of_ne (Ne.symm hj)]
  · unfold heldCount
    rw [hperm.count_eq, List.map_cons, List.count_cons_self]

theorem HeldOnce.requeue (h : s.HeldOnce) {poller : ℕ} {now : ℤ} {r : Config.Requeue}
    (hmeets : s.HandsOver (.requeue poller now r)) (hmem : (poller, r.itemid) ∈ s.held)
    (hpolled : r.errcode.Polled) (hrequeue : s.config.requeueItem env now r = some cfg') :
  HeldOnce ⟨cfg', s.held.erase (poller, r.itemid)⟩
  := by
  obtain ⟨cfg₁, heq, hk⟩ := h.placed.requeueItem env now r
  rw [hrequeue, Option.some.injEq] at heq
  subst heq
  obtain ⟨hother, hone⟩ := heldCount_erase hmem cfg'
  cases hitem : s.config.items.rows.search r.itemid with
  | none =>
    rw [hitem] at hk
    subst hk
    refine ⟨h.placed, ?_⟩
    intro itemid item hid
    rw [hother itemid (by rintro rfl; exact absurd (hitem.symm.trans hid) (by simp))]
    apply h.located itemid item hid
  | some item =>
    rw [hitem] at hk
    obtain ⟨hplaced, item', hloc, hrows⟩ := hk
    refine ⟨hplaced, h.located.update hrows hother ?_⟩
    have hne : item'.location ≠ .poller := fun hp => (hloc hp).2 hpolled (hmeets item hitem)
    have hcount := h.located r.itemid item hitem
    rw [if_neg hne]
    split at hcount <;> omega

theorem HeldOnce.receive (h : s.HeldOnce) {now : ℤ} {rs : List Config.Requeue}
    (hmeets : s.HandsOver (.receive now rs))
    (hrequeue : s.config.requeueItems env now rs = some cfg') :
  HeldOnce { s with config := cfg' }
  := by
  have hboth : cfg'.Placed ∧ Located cfg' s.heldCount := by
    apply foldlM_invariant hrequeue ⟨h.placed, h.located⟩
    intro cfg r cfg₁ hr ⟨hplaced, hlocated⟩ hstep
    obtain ⟨cfg₂, heq, hk⟩ := hplaced.requeueItem env now r
    rw [hstep, Option.some.injEq] at heq
    subst heq
    cases hitem : cfg.items.rows.search r.itemid with
    | none =>
      rw [hitem] at hk
      subst hk
      exact ⟨hplaced, hlocated⟩
    | some item =>
      rw [hitem] at hk
      obtain ⟨hplaced₁, item', hloc, hrows⟩ := hk
      refine ⟨hplaced₁, hlocated.update hrows (fun _ _ => rfl) ?_⟩
      have hzero := hmeets r hr
      have hcount := hlocated r.itemid item hitem
      have hne : item'.location ≠ .poller := by
        intro hp
        rw [if_pos (hloc hp).1] at hcount
        omega
      rw [if_neg hne]
      exact hzero
  exact ⟨hboth.1, hboth.2⟩

theorem HeldOnce.step (h : s.HeldOnce) {action : Action} (hmeets : s.HandsOver action)
    (hstep : s.step env action = some s') :
  s'.HeldOnce
  := by
  cases action with
  | syncItems now rows =>
    obtain ⟨cfg', hsync, rfl⟩ := Option.map_eq_some_iff.mp hstep
    exact h.syncItems hmeets hsync
  | syncHosts rows =>
    obtain ⟨hosts, -, rfl⟩ := Option.map_eq_some_iff.mp hstep
    exact ⟨⟨h.placed.arranged, h.placed.typed⟩, h.located⟩
  | setRefreshUnsupported seconds =>
    obtain rfl := Option.some.inj hstep
    exact ⟨⟨h.placed.arranged, h.placed.typed⟩, h.located⟩
  | setHostStatus hostid status =>
    obtain ⟨host, -, rfl⟩ := Option.map_eq_some_iff.mp hstep
    exact ⟨⟨h.placed.arranged, h.placed.typed⟩, h.located⟩
  | getPollerItems poller pollerType maxItems now rounds =>
    obtain ⟨⟨cfg', taken⟩, hget, rfl⟩ := Option.map_eq_some_iff.mp hstep
    exact h.getPollerItems poller hget
  | requeue poller now r =>
    simp only [System.step] at hstep
    by_cases hguard : (poller, r.itemid) ∈ s.held ∧ r.errcode.Polled
    · rw [if_pos hguard] at hstep
      obtain ⟨cfg', hrequeue, rfl⟩ := Option.map_eq_some_iff.mp hstep
      exact h.requeue hmeets hguard.1 hguard.2 hrequeue
    · rw [if_neg hguard] at hstep
      contradiction
  | receive now rs =>
    obtain ⟨cfg', hrequeue, rfl⟩ := Option.map_eq_some_iff.mp hstep
    exact h.receive hmeets hrequeue

/-! ### Runs -/

/-- Every cached item is held at most once, an item that nobody holds is not located
with a poller, and a load puts every item that a poller can poll into the queue of its
poller type unless it is held. -/
structure InOneHand (env : Environment) (s : System) : Prop where
  once : ∀ itemid item, s.config.items.rows.search itemid = some item →
    s.heldCount itemid ≤ 1
  unheld : ∀ itemid item, s.config.items.rows.search itemid = some item →
    (∀ poller, (poller, itemid) ∉ s.held) → item.location ≠ .poller
  load : ∀ now rows s', s.HandsOver (.syncItems now rows) →
    s.step env (.syncItems now rows) = some s' →
    ∀ itemid item type, s'.config.items.rows.search itemid = some item →
      item.pollerType = some type →
      ⟨itemid, itemid⟩ ∈ (s'.config.queues type).contents ∨
        ∃ poller, (poller, itemid) ∈ s'.held

theorem heldCount_pos_iff {itemid : UInt64} :
  0 < s.heldCount itemid ↔ ∃ poller, (poller, itemid) ∈ s.held
  := by
  unfold heldCount
  rw [List.count_pos_iff]
  simp

theorem HeldOnce.inOneHand (h : s.HeldOnce) :
  s.InOneHand env
  := by
  constructor
  · intro itemid item hitem
    rw [h.located itemid item hitem]
    split <;> omega
  · intro itemid item hitem hnone hloc
    have hcount := h.located itemid item hitem
    rw [if_pos hloc] at hcount
    obtain ⟨poller, hmem⟩ := heldCount_pos_iff.mp (by omega : 0 < s.heldCount itemid)
    exact hnone poller hmem
  · intro now rows s' hmeets hstep itemid item type hitem htype
    have h' := h.step hmeets hstep
    obtain ⟨cfg', hsync, rfl⟩ := Option.map_eq_some_iff.mp hstep
    obtain ⟨-, hsettle, -⟩ := (h.placed.syncItems env hsync).2 itemid item hitem
    by_cases hloc : item.location = .poller
    · right
      have hcount := h'.located itemid item hitem
      rw [if_pos hloc] at hcount
      exact heldCount_pos_iff.mp (by omega)
    · left
      have hqueue : item.location = .queue := by
        rw [← hsettle]
        simp [Item.settle, hloc, htype]
      have hplace := (h'.placed.place_eq hitem).1
      rw [if_pos hqueue, htype] at hplace
      obtain ⟨e, he, hkey⟩ := ((h'.placed.arranged type).keys itemid).mpr hplace
      have hdata := (h'.placed.arranged type).elem e he
      obtain ⟨key, data⟩ := e
      obtain rfl : key = itemid := hkey
      obtain rfl : data = key := hdata
      exact he

/-- In every run whose loads bring back no item that is held, and whose pollers give up
the items they return, the items are in one hand each. -/
theorem run_inOneHand {garbage : ℕ → Elem UInt64} {refreshUnsupported : ℤ}
    {actions : List Action}
    (run : Run (StepOf (System.step env)) HandsOver (initial garbage refreshUnsupported)
      actions s) :
  s.InOneHand env
  := by
  apply HeldOnce.inOneHand
  apply run.invariant (heldOnce_initial garbage refreshUnsupported)
  intro s action s' h hmeets hstep
  exact h.step hmeets hstep

/-! ### Runs in which items get stuck or are held twice -/

/-- An environment with one poller of each type, in which an item is due again after its
delay. -/
def sampleEnvironment : Environment where
  configPollerForks := 1
  configPingerForks := 1
  configIpmiPollerForks := 1
  configJavaPollerForks := 1
  configTimeout := 3
  calculateItemNextcheck := fun _ _ _ delay _ now => now + delay
  address := String.length
  visit := ⟨fun keys => keys, fun _ => List.Perm.refl _⟩

def sampleHost : HostRow where
  hostid := 10
  proxyHostid := 0
  host := "host"
  name := "host"
  status := 0
  maintenanceStatus := 0
  maintenanceType := 0
  maintenanceFrom := 0
  agent := default
  snmp := default
  ipmi := default
  jmx := default

/-- The row of an agent item of the sample host. -/
def sampleRow (itemid proxyHostid : UInt64) (delay : ℤ) : ItemRow where
  itemid
  hostid := 10
  proxyHostid
  type := .zabbix
  dataType := 0
  valueType := 0
  key := toString itemid
  port := ""
  delay
  delayFlex := ""
  state := .normal
  username := ""
  password := ""
  flags := 0
  interfaceid := 1
  lastlogsize := 0
  mtime := 0

/-- An item returned after a successful poll. -/
def sampleResult (itemid : UInt64) (lastclock : ℤ) : Config.Requeue where
  itemid
  state := .normal
  lastclock
  lastlogsize := none
  mtime := none
  errcode := .succeed

def sampleStart : System := initial (fun _ => ⟨0, 0⟩) 600

/-- Six items with their delays. -/
def sixRows : List ItemRow :=
  [sampleRow 1 0 30, sampleRow 2 0 20, sampleRow 3 0 50, sampleRow 4 0 40, sampleRow 5 0 60,
    sampleRow 6 0 45]

/-- Two pollers take items and return them. Meanwhile an item is removed from the queue, and in
the end a poller holds two items while the items are loaded again. -/
def serve : List Action :=
  [.syncHosts [sampleHost], .syncItems 0 sixRows,
    .getPollerItems 0 .normal 1 100 2, .getPollerItems 1 .normal 2 100 3,
    .syncItems 100 (sixRows.filter fun row => row.itemid ≠ 3),
    .requeue 1 110 (sampleResult 4 110), .requeue 0 120 (sampleResult 2 120),
    .getPollerItems 0 .normal 2 130 3, .requeue 1 140 (sampleResult 1 140),
    .syncItems 200 (sixRows.filter fun row => row.itemid ≠ 3)]

/-- While a poller has an item, the host goes to a proxy, and after the poller has
returned the item the host comes back. -/
def stuckRun : List Action :=
  [.syncHosts [sampleHost], .syncItems 0 [sampleRow 1 0 30],
    .getPollerItems 0 .normal 1 100 2, .syncItems 100 [sampleRow 1 5 30],
    .requeue 0 100 (sampleResult 1 100), .syncItems 200 [sampleRow 1 0 30]]

/-- While a poller has an item, the item disappears and appears again. -/
def twiceRun : List Action :=
  [.syncHosts [sampleHost], .syncItems 0 [sampleRow 1 0 30],
    .getPollerItems 0 .normal 1 100 2, .syncItems 100 [], .syncItems 200 [sampleRow 1 0 30],
    .getPollerItems 1 .normal 1 300 2]

theorem sampleRuns_isSome :
  ∀ actions ∈ [serve, stuckRun, twiceRun],
    (execute (System.step sampleEnvironment) sampleStart actions).isSome
  := by decide +kernel

theorem serve_isSome :
  (execute (System.step sampleEnvironment) sampleStart serve).isSome
  := sampleRuns_isSome _ (.head _)

theorem stuckRun_isSome :
  (execute (System.step sampleEnvironment) sampleStart stuckRun).isSome
  := sampleRuns_isSome _ (.tail _ (.head _))

theorem twiceRun_isSome :
  (execute (System.step sampleEnvironment) sampleStart twiceRun).isSome
  := sampleRuns_isSome _ (.tail _ (.tail _ (.head _)))

/-- The system after `serve`. -/
def served : System := (execute _ sampleStart serve).get serve_isSome

/-- The system after `stuckRun`. -/
def stuck : System := (execute _ sampleStart stuckRun).get stuckRun_isSome

/-- The system after `twiceRun`. -/
def twiceHeld : System := (execute _ sampleStart twiceRun).get twiceRun_isSome

theorem served_inOneHand :
  served.held = [(0, 6), (0, 5)] ∧ served.InOneHand sampleEnvironment
  := by
  refine ⟨by decide +kernel, ?_⟩
  apply run_inOneHand
  apply Run.of_execute (Option.some_get serve_isSome).symm
  decide +kernel

/-- After `stuckRun` nobody holds the item, which is located with a poller and in no queue
although it has a poller type. After `twiceRun` two pollers hold it. -/
theorem stuck_or_twiceHeld :
  (execute (System.step sampleEnvironment) sampleStart stuckRun = some stuck ∧
    stuck.held = [] ∧
    (stuck.config.items.rows.search 1).map (fun item => (item.location, item.pollerType)) =
      some (.poller, some .normal) ∧
    ∀ type, (stuck.config.queues type).elemsNum = 0) ∧
  (execute (System.step sampleEnvironment) sampleStart twiceRun = some twiceHeld ∧
    (twiceHeld.config.items.rows.search 1).isSome ∧ twiceHeld.held = [(0, 1), (1, 1)])
  := by
  refine ⟨⟨(Option.some_get stuckRun_isSome).symm, by decide +kernel, by decide +kernel, ?_⟩,
    (Option.some_get twiceRun_isSome).symm, by decide +kernel, by decide +kernel⟩
  intro type
  cases type <;> decide +kernel

end System

end DbConfig
