import Zabbix.Config.Nextcheck
import Zabbix.Config.QueueRun

/-!
# What a call of `DCconfig_get_poller_items` does

Every round but the last takes a due item out of the queue. The item is handed out or
passed over, and an item that is passed over and comes back to the queue is not due any
more. So a call makes at most one round more than there are items in the queue, and goes
through no item twice.

What is said about the hosts is said about the hosts as they are at the beginning. The
call changes those from which it hands out items of the unreachable pollers, but only in
the time until which they are disabled, and only when this time has passed.
-/

open BinaryHeap (Elem)

namespace DbConfig

/-- The host is in a maintenance during which no data is collected. -/
def Host.NoData (host : Host) : Prop :=
  host.maintenanceStatus = maintenanceStatusOn ∧ host.maintenanceType = maintenanceTypeNodata

/-- The host as it may have become in a call that began with another. -/
structure Host.Since (now : ℤ) (host₀ host : Host) : Prop where
  proxyHostid : host.proxyHostid = host₀.proxyHostid
  noData : host.NoData ↔ host₀.NoData
  disableUntil : ∀ item,
    getDisableUntil item host₀ ≤ now ∨ getDisableUntil item host = getDisableUntil item host₀

theorem Host.Since.trans {now : ℤ} {host₁ host₂ host₃ : Host} (h : host₁.Since now host₂)
    (h' : host₂.Since now host₃) :
  host₁.Since now host₃
  := by
  refine ⟨h'.proxyHostid.trans h.proxyHostid, h'.noData.trans h.noData, ?_⟩
  intro item
  obtain hpast | hsame := h.disableUntil item
  · exact Or.inl hpast
  · obtain hpast | hsame' := h'.disableUntil item
    · exact Or.inl (hsame ▸ hpast)
    · exact Or.inr (hsame'.trans hsame)

/-- Disabling the items of a type until later leaves the other availabilities as they
are. -/
theorem increaseDisableUntil_availability (env : Environment) (item : Item) (host : Host)
    (now : ℤ) (type : ItemType) :
  host.availability type = host.availability item.type ∨
    (increaseDisableUntil env item host now).availability type = host.availability type
  := by
  unfold increaseDisableUntil
  cases item.type <;> cases type <;> first | exact Or.inl rfl | exact Or.inr rfl

/-- The availability whose time changes was disabled until a time that has passed. -/
theorem Host.Since.increase {now : ℤ} {host : Host} {item : Item} (env : Environment)
    (hpast : getDisableUntil item host ≤ now) :
  host.Since now (increaseDisableUntil env item host now)
  := by
  refine ⟨?_, ?_, ?_⟩
  · unfold increaseDisableUntil
    cases item.type <;> rfl
  · unfold increaseDisableUntil
    cases item.type <;> exact Iff.rfl
  · intro other
    unfold getDisableUntil at hpast ⊢
    obtain hsame | hsame := increaseDisableUntil_availability env item host now other.type
    · rw [hsame]
      exact Or.inl hpast
    · rw [hsame]
      exact Or.inr rfl

/-- The poller type for which an item is taken out of a queue when it is not its turn
there: the pollers hand items of hosts that cannot be reached to the unreachable pollers,
and those give them back. -/
def NewType (env : Environment) (pollerType : PollerType) (host : Host) (item : Item)
    (type : PollerType) : Prop :=
  ((pollerType = .normal ∨ pollerType = .ipmi ∨ pollerType = .java) ∧ type = .unreachable) ∨
    (pollerType = .unreachable ∧
      pollerByItem env host.proxyHostid item.type item.key item.flags = some type)

theorem pollerByItem_ne_unreachable (env : Environment) (proxyHostid : UInt64)
    (type : ItemType) (key : String) (flags : UInt8) :
  pollerByItem env proxyHostid type key flags ≠ some .unreachable
  := by
  have hnone : ∀ {p : Prop} [Decidable p] {x : Option PollerType},
      x ≠ some .unreachable → (if p then none else x) ≠ some .unreachable := by
    intro p _ x hx
    split
    · exact Option.some_ne_none _ |>.symm
    · exact hx
  unfold pollerByItem
  refine hnone (hnone ?_)
  cases type with
  | simple =>
    dsimp only
    split
    · exact hnone (by simp)
    · exact hnone (by simp)
  | trapper | zabbixActive | httpTest | snmpTrap => exact Option.some_ne_none _ |>.symm
  | _ => exact hnone (by simp)

/-- The new poller type is another one. -/
theorem NewType.ne {env : Environment} {pollerType type : PollerType} {host : Host}
    {item : Item} (h : NewType env pollerType host item type) :
  type ≠ pollerType
  := by
  obtain ⟨htype, rfl⟩ | ⟨rfl, htype⟩ := h
  · rintro rfl
    simp at htype
  · rintro rfl
    exact pollerByItem_ne_unreachable _ _ _ _ _ htype

namespace Config

variable {env : Environment} {cfg cfg' cfg₀ : Config} {itemid : UInt64} {item item' : Item}
  {pollerType : PollerType} {now : ℤ} {taken : List UInt64}

/-- An item is in a queue. -/
def Queued (cfg : Config) (type : PollerType) (itemid : UInt64) : Prop :=
  ⟨itemid, itemid⟩ ∈ (cfg.queues type).contents

theorem Placed.queued_iff (h : cfg.Placed) {type : PollerType} :
  cfg.Queued type itemid ↔ cfg.place itemid = some type
  := by
  rw [← (h.arranged type).keys itemid]
  constructor
  · intro hmem
    exact ⟨_, hmem, rfl⟩
  · rintro ⟨e, he, rfl⟩
    have hdata := (h.arranged type).elem e he
    obtain ⟨key, data⟩ := e
    obtain rfl : data = key := hdata
    exact he

/-- Where an item is depends on the item. -/
theorem Placed.queued_congr (h : cfg.Placed) (h' : cfg'.Placed) {type : PollerType}
    (hsame : cfg'.items.rows.search itemid = cfg.items.rows.search itemid) :
  cfg'.Queued type itemid ↔ cfg.Queued type itemid
  := by
  rw [h.queued_iff, h'.queued_iff]
  unfold Config.place
  rw [hsame]

/-- The item may be handed out: it is due, and its host is there, is not in a maintenance
without data and is not disabled until later. -/
def Pollable (cfg : Config) (now : ℤ) (item : Item) : Prop :=
  item.nextcheck ≤ now ∧ ∃ host, cfg.hosts.rows.search item.hostid = some host ∧
    ¬ host.NoData ∧ (getDisableUntil item host ≠ 0 → getDisableUntil item host ≤ now)

/-- Why an item leaves all queues: its host is unknown, unsupported items are not
refreshed, or the unreachable pollers give it back and no poller has it. -/
def LeavesQueues (env : Environment) (cfg : Config) (pollerType : PollerType) (item : Item) :
    Prop :=
  cfg.hosts.rows.search item.hostid = none ∨
    (cfg.refreshUnsupported = 0 ∧ item.state = .notSupported) ∨
    (pollerType = .unreachable ∧ ∃ host, cfg.hosts.rows.search item.hostid = some host ∧
      pollerByItem env host.proxyHostid item.type item.key item.flags = none)

/-- What has become of a due item that was passed over: it is in the same queue with a
later `nextcheck`, in the queue of its new poller type, or in no queue. -/
def PassedOver (env : Environment) (cfg : Config) (pollerType : PollerType) (now : ℤ)
    (item item' : Item) : Prop :=
  (item'.place = some pollerType ∧ now < item'.nextcheck) ∨
    (∃ host type, cfg.hosts.rows.search item.hostid = some host ∧
      NewType env pollerType host item type ∧ item'.place = some type) ∨
    (item'.place = none ∧ LeavesQueues env cfg pollerType item)

/-! ### One round -/

/-- A round changes nothing but items, queues and hosts, and hosts as described. -/
structure Keeps (now : ℤ) (cfg₀ cfg : Config) : Prop where
  refreshUnsupported : cfg.refreshUnsupported = cfg₀.refreshUnsupported
  flexitems : cfg.flexitems = cfg₀.flexitems
  hosts : ∀ hostid,
    Option.Rel (Host.Since now) (cfg₀.hosts.rows.search hostid) (cfg.hosts.rows.search hostid)

theorem hosts_refl (now : ℤ) (host : Option Host) :
  Option.Rel (Host.Since now) host host
  := by
  cases host with
  | none => exact .none
  | some host => exact .some ⟨rfl, Iff.rfl, fun _ => Or.inr rfl⟩

/-- Where only items and queues change, the rest is kept. -/
theorem Keeps.of_eq (hrefresh : cfg'.refreshUnsupported = cfg.refreshUnsupported)
    (hflex : cfg'.flexitems = cfg.flexitems) (hhosts : cfg'.hosts = cfg.hosts) :
  Keeps now cfg cfg'
  := by
  refine ⟨hrefresh, hflex, ?_⟩
  intro hostid
  rw [hhosts]
  apply hosts_refl

theorem Keeps.trans (h : Keeps now cfg₀ cfg) (h' : Keeps now cfg cfg') :
  Keeps now cfg₀ cfg'
  := by
  refine ⟨h'.refreshUnsupported.trans h.refreshUnsupported, h'.flexitems.trans h.flexitems, ?_⟩
  intro hostid
  have hfirst := h.hosts hostid
  have hsecond := h'.hosts hostid
  generalize cfg₀.hosts.rows.search hostid = host₁ at *
  generalize cfg.hosts.rows.search hostid = host₂ at *
  generalize cfg'.hosts.rows.search hostid = host₃ at *
  cases hfirst with
  | none => exact hsecond
  | some hfirst =>
    cases hsecond with
    | some hsecond => exact .some (hfirst.trans hsecond)

/-- What a round comes to when it has taken the item out of the queue. -/
def Decides (env : Environment) (cfg : Config) (pollerType : PollerType) (now : ℤ)
    (itemid : UInt64) (item : Item) : Round → Prop
  | .stop => False
  | .skip cfg' => cfg'.Placed ∧ Keeps now cfg cfg' ∧ ∃ item',
      PassedOver env cfg pollerType now item item' ∧
      cfg'.items.rows.search = Function.update cfg.items.rows.search itemid (some item')
  | .take cfg' itemid' => cfg'.Placed ∧ Keeps now cfg cfg' ∧ itemid' = itemid ∧
      cfg.Pollable now item ∧ cfg'.items.rows.search =
        Function.update cfg.items.rows.search itemid (some { item with location := .poller })

theorem settle_place (hloc : item.location ≠ .poller) :
  item.settle.place = item.pollerType
  := by
  unfold Item.settle Item.place
  dsimp only
  rw [if_neg hloc]
  cases item.pollerType <;> simp

/-- A round passes over an item to which it gives a poller type and a `nextcheck`. -/
theorem Placed.passOver (h : cfg.Placed) (hitem : cfg.items.rows.search itemid = some item)
    (hloc : item.location = .nowhere) (newType : Option PollerType) (nextcheck : ℤ)
    (hpassed : ∀ item', item'.place = newType → item'.nextcheck = nextcheck →
      PassedOver env cfg pollerType now item item') :
  ∃ round, (cfg.reschedule env itemid item newType nextcheck).map Round.skip = some round ∧
    cfg.Decides env pollerType now itemid item round
  := by
  obtain ⟨rows, queues, heq, hrows, hplaced⟩ := h.reschedule env newType nextcheck hitem
  rw [heq]
  refine ⟨_, rfl, hplaced, Keeps.of_eq rfl rfl rfl, _, hpassed _ ?_ ?_, hrows⟩
  · apply settle_place
    simp [hloc]
  · rfl

theorem getUnreachableNextcheck_eq {host : Host} (hdisabled : getDisableUntil item host ≠ 0) :
  cfg.getUnreachableNextcheck env itemid item host now = getDisableUntil item host
  := by
  unfold getDisableUntil at hdisabled ⊢
  unfold Config.getUnreachableNextcheck
  cases hhost : host.availability item.type with
  | none => simp [hhost] at hdisabled
  | some a =>
    have herrors : a.errorsFrom ≠ 0 := by
      intro h0
      simp [hhost, h0] at hdisabled
    dsimp only
    rw [if_pos herrors, if_pos herrors]

/-- What becomes of a due item whose host is known. -/
theorem Placed.pollHost_decides (h : cfg.Placed)
    (hitem : cfg.items.rows.search itemid = some item) (hloc : item.location = .nowhere)
    (htype : item.pollerType = some pollerType) (hdue : item.nextcheck ≤ now) {host : Host}
    (hhost : cfg.hosts.rows.search item.hostid = some host)
    (hlater : now < cfg.getReachableNextcheck env itemid item now) :
  ∃ round, cfg.pollHost env pollerType now itemid item host = some round ∧
    cfg.Decides env pollerType now itemid item round
  := by
  have hqueue : item.location ≠ .queue := by simp [hloc]
  -- the item comes back to its queue
  have hback : ∀ nextcheck, now < nextcheck → ∃ round,
      (cfg.reschedule env itemid item item.pollerType nextcheck).map Round.skip = some round ∧
        cfg.Decides env pollerType now itemid item round := by
    intro nextcheck hlt
    apply h.passOver hitem hloc
    intro item' hplace hnext
    exact Or.inl ⟨hplace.trans htype, hnext ▸ hlt⟩
  unfold Config.pollHost
  dsimp only
  split
  · exact hback _ hlater
  · rename_i hnoData
    split
    · rename_i hzero
      split
      · rename_i hunreachable
        apply h.passOver hitem hloc
        intro item' hplace _
        right
        cases hnew : pollerByItem env host.proxyHostid item.type item.key item.flags with
        | none =>
          exact Or.inr ⟨hplace.trans hnew, Or.inr (Or.inr ⟨hunreachable, host, hhost, hnew⟩)⟩
        | some type =>
          exact Or.inl ⟨host, type, hhost, Or.inr ⟨hunreachable, hnew⟩, hplace.trans hnew⟩
      · obtain ⟨hplaced, hid, hrows⟩ := h.take hitem hqueue
        exact ⟨_, rfl, hplaced, Keeps.of_eq rfl rfl rfl, hid,
          ⟨hdue, host, hhost, hnoData, absurd hzero⟩, hrows⟩
    · rename_i hdisabled
      split
      · rename_i htypes
        apply h.passOver hitem hloc
        intro item' hplace _
        exact Or.inr (Or.inl ⟨host, _, hhost, Or.inl ⟨htypes, rfl⟩, hplace⟩)
      · split
        · rename_i hlong
          apply hback
          rw [getUnreachableNextcheck_eq hdisabled]
          exact hlong
        · rename_i hpast
          have hset : (cfg.setHost item.hostid
              (increaseDisableUntil env item host now)).Placed := ⟨h.arranged, h.typed⟩
          obtain ⟨hplaced, hid, hrows⟩ := hset.take hitem hqueue
          refine ⟨_, rfl, hplaced, ⟨rfl, rfl, ?_⟩, hid,
            ⟨hdue, host, hhost, hnoData, fun _ => by omega⟩, hrows⟩
          intro hostid
          change Option.Rel _ _ ((cfg.hosts.rows.set item.hostid _).search hostid)
          rw [Table.search_set, Function.update_apply]
          split
          · rename_i hsame
            rw [hsame, hhost]
            exact .some (.increase env (by omega))
          · apply hosts_refl

/-- What a call comes to when it stops before it has taken as many items as it may: the
first item of the queue is not due, or is of other Java pollers than the last one. -/
def AtEnd (env : Environment) (cfg : Config) (pollerType : PollerType) (now : ℤ)
    (taken : List UInt64) : Prop :=
  (∀ min ∈ (cfg.queues pollerType).findMin, now < cfg.nextcheckAt min.data) ∨
    (pollerType = .java ∧ ∃ min prev, (cfg.queues pollerType).findMin = some min ∧
      cfg.nextcheckAt min.data ≤ now ∧ taken.getLast? = some prev ∧
      cfg.javaItemCompare env prev min.data ≠ 0)

/-- A due item in a queue. -/
structure DueIn (cfg : Config) (pollerType : PollerType) (now : ℤ) (itemid : UInt64)
    (item : Item) : Prop where
  found : cfg.items.rows.search itemid = some item
  queued : cfg.Queued pollerType itemid
  due : item.nextcheck ≤ now

/-- What a round comes to. -/
def RoundDoes (env : Environment) (cfg : Config) (pollerType : PollerType) (now : ℤ)
    (taken : List UInt64) (round : Round) : Prop :=
  (round = .stop ∧ cfg.AtEnd env pollerType now taken) ∨
    ∃ itemid item, cfg.DueIn pollerType now itemid item ∧
      cfg.Decides env pollerType now itemid item round

/-- What is decided about an item that has been taken out of its queue. -/
theorem Decides.of_removed {queue : BinaryHeap UInt64} {round : Round}
    (h : ((cfg.setQueue pollerType queue).setItem itemid
      { item with location := .nowhere }).Decides env pollerType now itemid
      { item with location := .nowhere } round) :
  cfg.Decides env pollerType now itemid item round
  := by
  have hset : ∀ item', Function.update ((cfg.setQueue pollerType queue).setItem itemid
      { item with location := .nowhere }).items.rows.search itemid item' =
        Function.update cfg.items.rows.search itemid item' := by
    intro item'
    rw [search_setItem, Function.update_idem]
    rfl
  cases round with
  | stop => exact h
  | skip cfg' =>
    obtain ⟨hplaced, hkeeps, item', hpassed, hrows⟩ := h
    exact ⟨hplaced, ⟨hkeeps.1, hkeeps.2, hkeeps.3⟩, item', hpassed, hrows.trans (hset _)⟩
  | take cfg' itemid' =>
    obtain ⟨hplaced, hkeeps, hid, hpoll, hrows⟩ := h
    exact ⟨hplaced, ⟨hkeeps.1, hkeeps.2, hkeeps.3⟩, hid, hpoll, hrows.trans (hset _)⟩

/-- A round stops, or takes a due item out of the queue and decides about it. -/
theorem Placed.pollRound_does (h : cfg.Placed) (taken : List UInt64)
    (hlater : ∀ itemid item, cfg.DueIn pollerType now itemid item →
      now < cfg.getReachableNextcheck env itemid item now) :
  ∃ round, cfg.pollRound env pollerType now taken = some round ∧
    cfg.RoundDoes env pollerType now taken round
  := by
  unfold Config.pollRound
  cases hmin : (cfg.queues pollerType).findMin with
  | none => exact ⟨_, rfl, Or.inl ⟨rfl, Or.inl (by simp [hmin])⟩⟩
  | some min =>
    obtain ⟨item, queue, hitem, hloc, hqueue, hplaced⟩ := h.removeMin env hmin
    have hnext := nextcheckAt_eq hitem
    simp only [hitem, Option.bind_eq_bind, Option.bind_some]
    split
    · rename_i hfuture
      refine ⟨_, rfl, Or.inl ⟨rfl, Or.inl ?_⟩⟩
      intro min' hmin'
      obtain rfl : min = min' := Option.some.inj (hmin.symm.trans hmin')
      rw [hnext]
      exact hfuture
    · rename_i hdue
      split
      · rename_i hjava
        obtain ⟨hjava, hother⟩ := hjava
        cases hprev : taken.getLast? with
        | none => simp [hprev] at hother
        | some prev =>
          rw [hprev, Option.any_some, decide_eq_true_eq] at hother
          exact ⟨_, rfl, Or.inl ⟨rfl, Or.inr ⟨hjava, min, prev, hmin, by omega, hprev, hother⟩⟩⟩
      · rw [hqueue, Option.bind_some]
        have hdueIn : cfg.DueIn pollerType now min.data item := by
          refine ⟨hitem, ?_, by omega⟩
          obtain ⟨hkey, hdata, -⟩ :=
            (h.arranged pollerType).removeMin (cfg.elemCompare env pollerType) hmin
          rw [h.queued_iff, hdata]
          exact hkey
        have htype : item.pollerType = some pollerType := by
          have hplace := (h.place_eq hitem).1
          rw [if_pos hloc, h.queued_iff.mp hdueIn.queued] at hplace
          exact hplace.symm
        have hout : ((cfg.setQueue pollerType queue).setItem min.data
            { item with location := .nowhere }).items.rows.search min.data =
              some { item with location := .nowhere } := Table.search_set_self _ _ _
        have hnowhere : LeavesQueues env cfg pollerType item →
            cfg.Decides env pollerType now min.data item
              (.skip ((cfg.setQueue pollerType queue).setItem min.data
                { item with location := .nowhere })) := by
          intro hleaves
          exact ⟨hplaced, Keeps.of_eq rfl rfl rfl, _, Or.inr (Or.inr ⟨rfl, hleaves⟩),
            Table.search_set _ _ _⟩
        split
        · rename_i hrefresh
          exact ⟨_, rfl, Or.inr ⟨_, item, hdueIn, hnowhere (Or.inr (Or.inl hrefresh))⟩⟩
        · split
          · rename_i hhost
            exact ⟨_, rfl, Or.inr ⟨_, item, hdueIn, hnowhere (Or.inl hhost)⟩⟩
          · rename_i host hhost
            obtain ⟨round, hround, hdecides⟩ := hplaced.pollHost_decides hout rfl htype
              hdueIn.due hhost (hlater min.data item hdueIn)
            exact ⟨round, hround, Or.inr ⟨_, item, hdueIn, hdecides.of_removed⟩⟩

/-! ### A call -/

/-- A host that is there was there at the beginning. -/
theorem Keeps.host (h : Keeps now cfg₀ cfg) {hostid : UInt64} {host : Host}
    (hhost : cfg.hosts.rows.search hostid = some host) :
  ∃ host₀, cfg₀.hosts.rows.search hostid = some host₀ ∧ host₀.Since now host
  := by
  have hrel := h.hosts hostid
  rw [hhost] at hrel
  generalize cfg₀.hosts.rows.search hostid = host₁ at *
  cases hrel with
  | some hsince => exact ⟨_, rfl, hsince⟩

theorem Keeps.pollable (h : Keeps now cfg₀ cfg) (hpoll : cfg.Pollable now item) :
  cfg₀.Pollable now item
  := by
  obtain ⟨hdue, host, hhost, hdata, hdisable⟩ := hpoll
  obtain ⟨host₀, hhost₀, hsince⟩ := h.host hhost
  refine ⟨hdue, host₀, hhost₀, fun hno => hdata (hsince.noData.mpr hno), ?_⟩
  intro hne
  obtain hpast | hsame := hsince.disableUntil item
  · exact hpast
  · rw [← hsame] at hne ⊢
    exact hdisable hne

theorem Keeps.leavesQueues (h : Keeps now cfg₀ cfg)
    (hleaves : LeavesQueues env cfg pollerType item) :
  LeavesQueues env cfg₀ pollerType item
  := by
  obtain hnone | ⟨hrefresh, hstate⟩ | ⟨htype, host, hhost, hpoller⟩ := hleaves
  · left
    have hrel := h.hosts item.hostid
    rw [hnone] at hrel
    generalize cfg₀.hosts.rows.search item.hostid = host₁ at *
    cases hrel
    rfl
  · exact Or.inr (Or.inl ⟨h.refreshUnsupported ▸ hrefresh, hstate⟩)
  · obtain ⟨host₀, hhost₀, hsince⟩ := h.host hhost
    exact Or.inr (Or.inr ⟨htype, host₀, hhost₀, hsince.proxyHostid ▸ hpoller⟩)

theorem Keeps.passedOver (h : Keeps now cfg₀ cfg)
    (hpassed : PassedOver env cfg pollerType now item item') :
  PassedOver env cfg₀ pollerType now item item'
  := by
  obtain hlater | ⟨host, type, hhost, htype, hplace⟩ | ⟨hplace, hleaves⟩ := hpassed
  · exact Or.inl hlater
  · obtain ⟨host₀, hhost₀, hsince⟩ := h.host hhost
    unfold NewType at htype
    rw [hsince.proxyHostid] at htype
    exact Or.inr (Or.inl ⟨host₀, type, hhost₀, htype, hplace⟩)
  · exact Or.inr (Or.inr ⟨hplace, h.leavesQueues hleaves⟩)

/-- How far a call has come that began with `cfg₀`: it is done with some of the items that
were due and has taken some of these. -/
structure Progress (env : Environment) (cfg₀ : Config) (pollerType : PollerType)
    (maxItems : ℕ) (now : ℤ) (cfg : Config) (taken done : List UInt64) : Prop where
  placed : cfg.Placed
  keeps : Keeps now cfg₀ cfg
  bounded : taken.length ≤ maxItems
  nodup : done.Nodup
  sublist : taken.Sublist done
  handedOut : ∀ itemid ∈ taken, ∃ item, cfg₀.DueIn pollerType now itemid item ∧
    cfg₀.Pollable now item ∧
    cfg.items.rows.search itemid = some { item with location := .poller }
  passedOver : ∀ itemid ∈ done, itemid ∉ taken → ∃ item item',
    cfg₀.DueIn pollerType now itemid item ∧ cfg.items.rows.search itemid = some item' ∧
    PassedOver env cfg₀ pollerType now item item'
  untouched : ∀ itemid, itemid ∉ done →
    cfg.items.rows.search itemid = cfg₀.items.rows.search itemid

section

variable {maxItems : ℕ} {done : List UInt64}

/-- At the beginning nothing is done. -/
theorem Placed.progress (h : cfg.Placed) :
  Progress env cfg pollerType maxItems now cfg [] []
  where
  placed := h
  keeps := Keeps.of_eq rfl rfl rfl
  bounded := Nat.zero_le _
  nodup := List.nodup_nil
  sublist := List.nil_sublist _
  handedOut := by simp
  passedOver := by simp
  untouched _ _ := rfl

/-- What is due in the queue is not done with. -/
theorem Progress.not_done (h : Progress env cfg₀ pollerType maxItems now cfg taken done)
    (hdue : cfg.DueIn pollerType now itemid item) :
  itemid ∉ done
  := by
  intro hdone
  have hplace := h.placed.queued_iff.mp hdue.queued
  unfold Config.place at hplace
  rw [hdue.found, Option.bind_some] at hplace
  by_cases htaken : itemid ∈ taken
  · obtain ⟨item₀, -, -, hitem⟩ := h.handedOut itemid htaken
    rw [hdue.found, Option.some.injEq] at hitem
    simp [hitem, Item.place] at hplace
  · obtain ⟨item₀, item', -, hitem, hpassed⟩ := h.passedOver itemid hdone htaken
    obtain rfl : item = item' := Option.some.inj (hdue.found.symm.trans hitem)
    obtain ⟨-, hlater⟩ | ⟨host, type, -, htype, hother⟩ | ⟨hnone, -⟩ := hpassed
    · have := hdue.due
      omega
    · rw [hplace, Option.some.injEq] at hother
      exact htype.ne hother.symm
    · rw [hplace] at hnone
      contradiction

/-- What is due in the queue was due there at the beginning. -/
theorem Progress.dueIn (h : Progress env cfg₀ pollerType maxItems now cfg taken done)
    (hplaced : cfg₀.Placed) (hdue : cfg.DueIn pollerType now itemid item) :
  cfg₀.DueIn pollerType now itemid item
  := by
  have hsame := h.untouched itemid (h.not_done hdue)
  exact ⟨hsame ▸ hdue.found, (hplaced.queued_congr h.placed hsame).mp hdue.queued, hdue.due⟩

/-- The items that are done with were in the queue. -/
theorem Progress.length_le (h : Progress env cfg₀ pollerType maxItems now cfg taken done) :
  done.length ≤ (cfg₀.queues pollerType).elemsNum
  := by
  have hin : ∀ itemid ∈ done, cfg₀.Queued pollerType itemid := by
    intro itemid hdone
    by_cases htaken : itemid ∈ taken
    · obtain ⟨item, hdue, -⟩ := h.handedOut itemid htaken
      exact hdue.queued
    · obtain ⟨item, item', hdue, -⟩ := h.passedOver itemid hdone htaken
      exact hdue.queued
  have hinj : Function.Injective fun itemid : UInt64 => (⟨itemid, itemid⟩ : Elem UInt64) := by
    intro i j hij
    simpa using congrArg Elem.key hij
  have hle : ((done.map fun itemid => (⟨itemid, itemid⟩ : Elem UInt64)) :
      Multiset (Elem UInt64)) ≤ (cfg₀.queues pollerType).contents := by
    rw [Multiset.le_iff_subset (by simpa using h.nodup.map hinj)]
    intro e he
    obtain ⟨itemid, hdone, rfl⟩ := List.mem_map.mp (Multiset.mem_coe.mp he)
    exact hin itemid hdone
  have hcard := Multiset.card_le_card hle
  simpa [BinaryHeap.contents] using hcard

/-- Writing an item that is not done with leaves what is said about the others. -/
theorem Progress.write (h : Progress env cfg₀ pollerType maxItems now cfg taken done)
    (hnew : itemid ∉ done) (hrows : cfg'.items.rows.search =
      Function.update cfg.items.rows.search itemid (some item')) :
  (∀ j ∈ taken, ∃ item, cfg₀.DueIn pollerType now j item ∧ cfg₀.Pollable now item ∧
      cfg'.items.rows.search j = some { item with location := .poller }) ∧
    (∀ j ∈ done, j ∉ taken → ∃ item item', cfg₀.DueIn pollerType now j item ∧
      cfg'.items.rows.search j = some item' ∧
      PassedOver env cfg₀ pollerType now item item') ∧
    ∀ j, j ∉ done ++ [itemid] → cfg'.items.rows.search j = cfg₀.items.rows.search j
  := by
  have hold : ∀ j ∈ done, cfg'.items.rows.search j = cfg.items.rows.search j := by
    intro j hj
    rw [hrows, Function.update_of_ne]
    rintro rfl
    exact hnew hj
  refine ⟨?_, ?_, ?_⟩
  · intro j hj
    rw [hold j (h.sublist.subset hj)]
    exact h.handedOut j hj
  · intro j hj
    rw [hold j hj]
    exact h.passedOver j hj
  · intro j hj
    rw [List.mem_append, List.mem_singleton, not_or] at hj
    rw [hrows, Function.update_of_ne hj.2]
    exact h.untouched j hj.1

/-- A round that does not stop brings the call forward by one item. -/
theorem Progress.step (h : Progress env cfg₀ pollerType maxItems now cfg taken done)
    (hplaced : cfg₀.Placed) (hmax : taken.length < maxItems)
    (hdue : cfg.DueIn pollerType now itemid item) {round : Round}
    (hdecides : cfg.Decides env pollerType now itemid item round) :
  match round with
  | .stop => False
  | .skip cfg' =>
    Progress env cfg₀ pollerType maxItems now cfg' taken (done ++ [itemid])
  | .take cfg' itemid' =>
    Progress env cfg₀ pollerType maxItems now cfg' (taken ++ [itemid']) (done ++ [itemid])
  := by
  have hdue₀ := h.dueIn hplaced hdue
  have hnew := h.not_done hdue
  have hnodup : (done ++ [itemid]).Nodup := by
    rw [List.nodup_append]
    refine ⟨h.nodup, List.nodup_singleton _, ?_⟩
    rintro j hj k hk rfl
    exact hnew (List.mem_singleton.mp hk ▸ hj)
  cases round with
  | stop => exact hdecides
  | skip cfg' =>
    obtain ⟨hplaced', hkeeps, item', hpassed, hrows⟩ := hdecides
    obtain ⟨hhanded, hpassing, huntouched⟩ := h.write hnew hrows
    refine ⟨hplaced', h.keeps.trans hkeeps, h.bounded, hnodup,
      h.sublist.trans (List.sublist_append_left _ _), hhanded, ?_, huntouched⟩
    intro j hj htaken
    rw [List.mem_append, List.mem_singleton] at hj
    obtain hj | rfl := hj
    · exact hpassing j hj htaken
    · refine ⟨item, item', hdue₀, ?_, h.keeps.passedOver hpassed⟩
      rw [hrows, Function.update_self]
  | take cfg' itemid' =>
    obtain ⟨hplaced', hkeeps, rfl, hpoll, hrows⟩ := hdecides
    obtain ⟨hhanded, hpassing, huntouched⟩ := h.write hnew hrows
    refine ⟨hplaced', h.keeps.trans hkeeps, ?_, hnodup,
      h.sublist.append (List.Sublist.refl _), ?_, ?_, huntouched⟩
    · rw [List.length_append, List.length_singleton]
      omega
    · intro j hj
      rw [List.mem_append, List.mem_singleton] at hj
      obtain hj | rfl := hj
      · exact hhanded j hj
      · refine ⟨item, hdue₀, h.keeps.pollable hpoll, ?_⟩
        rw [hrows, Function.update_self]
    · intro j hj htaken
      rw [List.mem_append, not_or] at htaken
      obtain hj | hj := List.mem_append.mp hj
      · exact hpassing j hj htaken.1
      · exact absurd hj htaken.2

theorem getPollerItems_succ {round : Round} (hmax : taken.length < maxItems)
    (hround : cfg.pollRound env pollerType now taken = some round) (rounds : ℕ) :
  cfg.getPollerItems env pollerType maxItems now (rounds + 1) taken =
    match round with
    | .stop => some (cfg, taken)
    | .skip cfg' => cfg'.getPollerItems env pollerType maxItems now rounds taken
    | .take cfg' itemid =>
      cfg'.getPollerItems env pollerType maxItems now rounds (taken ++ [itemid])
  := by
  rw [Config.getPollerItems, if_pos hmax]
  cases round <;> simp [hround]

/-- From any state that a call comes to, it ends after as many rounds as there are items
left, and one. -/
theorem Progress.ends {clock : Clock}
    (h : Progress (env.withClock clock) cfg₀ pollerType maxItems now cfg taken done)
    (hplaced : cfg₀.Placed) (htimed : cfg₀.WellTimed now) (left : ℕ)
    (hleft : (cfg₀.queues pollerType).elemsNum < done.length + left) :
  ∃ cfg' taken' done',
    (∀ rounds ≥ left, cfg.getPollerItems (env.withClock clock) pollerType maxItems now rounds
      taken = some (cfg', taken')) ∧
    Progress (env.withClock clock) cfg₀ pollerType maxItems now cfg' taken' done' ∧
    (taken'.length = maxItems ∨ cfg'.AtEnd (env.withClock clock) pollerType now taken')
  := by
  induction left generalizing cfg taken done with
  | zero =>
    have := h.length_le
    omega
  | succ left ih =>
    by_cases hmax : taken.length < maxItems
    · have hlater : ∀ itemid item, cfg.DueIn pollerType now itemid item →
          now < cfg.getReachableNextcheck (env.withClock clock) itemid item now := by
        intro itemid item hdue
        have hfound := (h.dueIn hplaced hdue).found
        have hlt := htimed.lt_getReachableNextcheck env clock (htimed.delays itemid item hfound)
          itemid
        unfold Config.getReachableNextcheck at hlt ⊢
        rw [h.keeps.refreshUnsupported, h.keeps.flexitems]
        exact hlt
      obtain ⟨round, hround, ⟨rfl, hend⟩ | ⟨itemid, item, hdue, hdecides⟩⟩ :=
        h.placed.pollRound_does taken hlater
      · refine ⟨cfg, taken, done, ?_, h, Or.inr hend⟩
        intro rounds hrounds
        obtain ⟨rounds, rfl⟩ := Nat.exists_eq_add_of_le' hrounds
        rw [← Nat.add_assoc, getPollerItems_succ hmax hround]
      · have hstep := h.step hplaced hmax hdue hdecides
        cases round with
        | stop => exact hstep.elim
        | skip cfg₁ =>
          obtain ⟨cfg', taken', done', hget, hrest⟩ := ih hstep (by simp; omega)
          refine ⟨cfg', taken', done', ?_, hrest⟩
          intro rounds hrounds
          obtain ⟨rounds, rfl⟩ := Nat.exists_eq_add_of_le' hrounds
          rw [← Nat.add_assoc, getPollerItems_succ hmax hround]
          exact hget _ (Nat.le_add_left _ _)
        | take cfg₁ itemid' =>
          obtain ⟨cfg', taken', done', hget, hrest⟩ := ih hstep (by simp; omega)
          refine ⟨cfg', taken', done', ?_, hrest⟩
          intro rounds hrounds
          obtain ⟨rounds, rfl⟩ := Nat.exists_eq_add_of_le' hrounds
          rw [← Nat.add_assoc, getPollerItems_succ hmax hround]
          exact hget _ (Nat.le_add_left _ _)
    · refine ⟨cfg, taken, done, ?_, h, Or.inl (le_antisymm h.bounded (by omega))⟩
      intro rounds hrounds
      obtain ⟨rounds, rfl⟩ := Nat.exists_eq_add_of_le' hrounds
      rw [← Nat.add_assoc, Config.getPollerItems, if_neg hmax]

end

/-- In an ordered queue whose first item is not due no item is due. -/
theorem Ranked.not_due (env : Environment) (h : cfg.Ranked)
    (hfirst : ∀ min ∈ (cfg.queues pollerType).findMin, now < cfg.nextcheckAt min.data)
    (hqueued : cfg.Queued pollerType itemid) :
  now < cfg.nextcheckAt itemid
  := by
  cases hmin : (cfg.queues pollerType).findMin with
  | none =>
    obtain ⟨i, hi, -⟩ := BinaryHeap.mem_contents.mp hqueued
    unfold BinaryHeap.findMin at hmin
    rw [if_neg (by omega)] at hmin
    contradiction
  | some min =>
    have hle := BinaryHeap.findMin_le (elemCompare_respects env cfg pollerType)
      (h pollerType) hmin _ hqueued
    exact (hfirst min hmin).trans_le hle

/-- What a call of `DCconfig_get_poller_items` comes to that begins with `cfg` and ends with
`cfg'` and the taken items. -/
structure Polls (env : Environment) (cfg : Config) (pollerType : PollerType) (maxItems : ℕ)
    (now : ℤ) (cfg' : Config) (taken : List UInt64) : Prop where
  bounded : taken.length ≤ maxItems
  nodup : taken.Nodup
  pollable : ∀ itemid ∈ taken, ∃ item, cfg.DueIn pollerType now itemid item ∧
    cfg.Pollable now item
  handedOut : ∀ itemid ∈ taken, (cfg'.itemAt itemid).location = .poller ∧
    ∀ type, ¬ cfg'.Queued type itemid
  ended : taken.length = maxItems ∨
    (pollerType = .java ∧ ∃ min prev, (cfg'.queues pollerType).findMin = some min ∧
      cfg'.nextcheckAt min.data ≤ now ∧ taken.getLast? = some prev ∧
      cfg'.javaItemCompare env prev min.data ≠ 0) ∨
    (cfg.Ranked → ∀ itemid, cfg'.Queued pollerType itemid → now < cfg'.nextcheckAt itemid)
  passedOver : ∀ itemid item, cfg.DueIn pollerType now itemid item → itemid ∉ taken →
    cfg'.DueIn pollerType now itemid item ∨
    (cfg'.Queued pollerType itemid ∧ now < cfg'.nextcheckAt itemid) ∨
    (∃ host type, cfg.hosts.rows.search item.hostid = some host ∧
      NewType env pollerType host item type ∧ cfg'.Queued type itemid) ∨
    ((∀ type, ¬ cfg'.Queued type itemid) ∧ LeavesQueues env cfg pollerType item)
  untouched : ∀ itemid, (∀ item, ¬ cfg.DueIn pollerType now itemid item) →
    cfg'.items.rows.search itemid = cfg.items.rows.search itemid ∧
    ∀ type, cfg'.Queued type itemid ↔ cfg.Queued type itemid

/-- However the queue looks, the call ends after at most one round more than there are
items in it, hands out only items that may be polled, stops only for one of the three
reasons, and leaves the due items that it passed over where they belong. -/
theorem getPollerItems_correct (env : Environment) (clock : Clock) (cfg : Config)
    (hplaced : cfg.Placed) {now : ℤ} (htimed : cfg.WellTimed now) (pollerType : PollerType)
    (maxItems : ℕ) :
  ∃ cfg' taken,
    (∀ rounds, (cfg.queues pollerType).elemsNum < rounds →
      cfg.getPollerItems (env.withClock clock) pollerType maxItems now rounds [] =
        some (cfg', taken)) ∧
    cfg'.Placed ∧
    cfg.Polls (env.withClock clock) pollerType maxItems now cfg' taken
  := by
  have hstart : Progress (env.withClock clock) cfg pollerType maxItems now cfg [] [] :=
    hplaced.progress
  obtain ⟨cfg', taken, done, hget, hp, hend⟩ :=
    hstart.ends hplaced htimed ((cfg.queues pollerType).elemsNum + 1) (by simp)
  refine ⟨cfg', taken, fun rounds hrounds => hget rounds hrounds, hp.placed, hp.bounded,
    hp.nodup.sublist hp.sublist, ?_, ?_, ?_, ?_, ?_⟩
  · intro itemid htaken
    obtain ⟨item, hdue, hpoll, -⟩ := hp.handedOut itemid htaken
    exact ⟨item, hdue, hpoll⟩
  · intro itemid htaken
    obtain ⟨item, -, -, hitem⟩ := hp.handedOut itemid htaken
    constructor
    · unfold Config.itemAt
      rw [hitem]
      rfl
    · intro type hqueued
      have hplace := hp.placed.queued_iff.mp hqueued
      unfold Config.place at hplace
      simp [hitem, Item.place] at hplace
  · obtain hmax | hfirst | hjava := hend
    · exact Or.inl hmax
    · refine Or.inr (Or.inr ?_)
      intro hranked itemid hqueued
      have hranked' := (Ranked.getPollerItems _ _ hranked hplaced (hget _ le_rfl)).1
      exact hranked'.not_due env hfirst hqueued
    · exact Or.inr (Or.inl hjava)
  · intro itemid item hdue htaken
    by_cases hdone : itemid ∈ done
    · obtain ⟨item₀, item', hdue₀, hitem', hpassed⟩ := hp.passedOver itemid hdone htaken
      obtain rfl : item = item₀ := Option.some.inj (hdue.found.symm.trans hdue₀.found)
      have hplace : cfg'.place itemid = item'.place := by
        unfold Config.place
        rw [hitem']
        rfl
      obtain ⟨hsame, hlater⟩ | ⟨host, type, hhost, htype, hnew⟩ | ⟨hnone, hleaves⟩ := hpassed
      · refine Or.inr (Or.inl ⟨hp.placed.queued_iff.mpr (hplace.trans hsame), ?_⟩)
        rw [nextcheckAt_eq hitem']
        exact hlater
      · exact Or.inr (Or.inr (Or.inl ⟨host, type, hhost, htype,
          hp.placed.queued_iff.mpr (hplace.trans hnew)⟩))
      · refine Or.inr (Or.inr (Or.inr ⟨?_, hleaves⟩))
        intro type hqueued
        rw [hp.placed.queued_iff, hplace, hnone] at hqueued
        contradiction
    · have hsame := hp.untouched itemid hdone
      exact Or.inl ⟨hsame.trans hdue.found, (hplaced.queued_congr hp.placed hsame).mpr hdue.queued,
        hdue.due⟩
  · intro itemid hnot
    have hdone : itemid ∉ done := by
      intro hdone
      by_cases htaken : itemid ∈ taken
      · obtain ⟨item, hdue, -⟩ := hp.handedOut itemid htaken
        exact hnot item hdue
      · obtain ⟨item, item', hdue, -⟩ := hp.passedOver itemid hdone htaken
        exact hnot item hdue
    have hsame := hp.untouched itemid hdone
    exact ⟨hsame, fun _ => hplaced.queued_congr hp.placed hsame⟩

/-- It is enough to look at the entries of the tables. -/
theorem wellTimed_of_keys (hnow : InTime now) (hrefresh : DelayInTime now cfg.refreshUnsupported)
    (hdelays : ∀ itemid ∈ cfg.items.rows.keys, ∀ item ∈ cfg.items.rows.search itemid,
      DelayInTime now item.delay)
    (hflex : ∀ itemid ∈ cfg.flexitems.keys, ∀ flex ∈ cfg.flexitems.search itemid,
      FlexWellFormed flex) :
  cfg.WellTimed now
  := by
  refine ⟨hnow, hrefresh, ?_, ?_⟩
  · intro itemid item hitem
    exact hdelays itemid (Table.mem_keys_of_search hitem) item hitem
  · intro itemid flex hfound
    exact hflex itemid (Table.mem_keys_of_search hfound) flex hfound

end Config

namespace System

open Config

variable {env : Environment} {s s' : System}

/-- Every step keeps the items in their queues. -/
theorem step_placed (h : s.config.Placed) {action : Action}
    (hstep : s.step env action = some s') :
  s'.config.Placed
  := by
  cases action with
  | syncItems now rows =>
    obtain ⟨cfg', hsync, rfl⟩ := Option.map_eq_some_iff.mp hstep
    exact (h.syncItems env hsync).1
  | syncHosts rows =>
    obtain ⟨hosts, -, rfl⟩ := Option.map_eq_some_iff.mp hstep
    exact ⟨h.arranged, h.typed⟩
  | setRefreshUnsupported seconds =>
    obtain rfl := Option.some.inj hstep
    exact ⟨h.arranged, h.typed⟩
  | setHostStatus hostid status =>
    obtain ⟨host, -, rfl⟩ := Option.map_eq_some_iff.mp hstep
    exact ⟨h.arranged, h.typed⟩
  | getPollerItems poller pollerType maxItems now rounds =>
    obtain ⟨⟨cfg', taken⟩, hget, rfl⟩ := Option.map_eq_some_iff.mp hstep
    apply getPollerItems_invariant (fun c _ => c.Placed) _ _ rounds h hget
    · intro c t c' hc hround
      exact hc.of_pollRound env hround rfl
    · intro c t c' itemid hc hround
      exact hc.of_pollRound env hround rfl
  | requeue poller now r =>
    simp only [System.step] at hstep
    by_cases hguard : (poller, r.itemid) ∈ s.held ∧ r.errcode.Polled
    · rw [if_pos hguard] at hstep
      obtain ⟨cfg', hrequeue, rfl⟩ := Option.map_eq_some_iff.mp hstep
      exact h.of_requeueItem env hrequeue
    · rw [if_neg hguard] at hstep
      contradiction
  | receive now rs =>
    obtain ⟨cfg', hrequeue, rfl⟩ := Option.map_eq_some_iff.mp hstep
    apply foldlM_invariant hrequeue h
    intro c r c' _ hc hstep
    exact hc.of_requeueItem env hstep

/-- In every state reached the items are in their queues, whatever the steps were. -/
theorem run_placed {garbage : ℕ → Elem UInt64} {refreshUnsupported : ℤ}
    {meets : System → Action → Prop} {actions : List Action}
    (run : Run (StepOf (System.step env)) meets (initial garbage refreshUnsupported) actions s) :
  s.config.Placed
  := by
  apply run.invariant (heldOnce_initial garbage refreshUnsupported).placed
  intro s action s' h _ hstep
  exact step_placed h hstep

/-- The clock of a place without summer time. -/
def utc : Clock where
  localtime t :=
    { wday := ⟨((t / 86400).toNat + 4) % 7, Nat.mod_lt _ (by decide)⟩
      hour := ⟨(t / 3600).toNat % 24, Nat.mod_lt _ (by decide)⟩
      min := ⟨(t / 60).toNat % 60, Nat.mod_lt _ (by decide)⟩
      sec := ⟨t.toNat % 60, Nat.mod_lt _ (by decide)⟩ }
  time := 1

/-- The environment of the runs below. -/
def clocked : Environment := sampleEnvironment.withClock utc

/-- Three items, one of a host in a maintenance without data, and one of a host that is not
known. -/
def threeHosts : List Action :=
  [.syncHosts [sampleHost, { sampleHost with
      hostid := 11, host := "other", maintenanceStatus := 1, maintenanceType := 1 }],
    .syncItems 0 [sampleRow 1 0 30,
      { sampleRow 2 0 30 with hostid := 11, delayFlex := "50/1-7,00:00-24:00" },
      { sampleRow 3 0 30 with hostid := 12 }]]

/-- A poller finds the host of an item disabled and passes the item to the unreachable
pollers. Then the host can be reached again and goes to a proxy. -/
def proxiedRun : List Action :=
  [.syncHosts [sampleHost], .syncItems 0 [sampleRow 1 0 30],
    .setHostStatus 10 { sampleHost.toHostStatus with agent := ⟨50, 2, 60⟩ },
    .getPollerItems 0 .normal 1 100 2, .setHostStatus 10 sampleHost.toHostStatus,
    .syncHosts [{ sampleHost with proxyHostid := 5 }]]

theorem clockedRuns_isSome :
  ∀ actions ∈ [threeHosts, proxiedRun],
    (execute (System.step clocked) sampleStart actions).isSome
  := by decide +kernel

theorem threeHosts_isSome :
  (execute (System.step clocked) sampleStart threeHosts).isSome
  := clockedRuns_isSome _ (.head _)

theorem proxiedRun_isSome :
  (execute (System.step clocked) sampleStart proxiedRun).isSome
  := clockedRuns_isSome _ (.tail _ (.head _))

/-- The system after `threeHosts`. -/
def threeQueued : System := (execute _ sampleStart threeHosts).get threeHosts_isSome

theorem getPollerItems_correct_three :
  (∃ cfg' taken,
    (∀ rounds, (threeQueued.config.queues .normal).elemsNum < rounds →
      threeQueued.config.getPollerItems clocked .normal 5 100 rounds [] = some (cfg', taken)) ∧
    cfg'.Placed ∧ threeQueued.config.Polls clocked .normal 5 100 cfg' taken) ∧
  (threeQueued.config.getPollerItems clocked .normal 5 100 4 []).map Prod.snd = some [1]
  := by
  refine ⟨?_, by decide +kernel⟩
  apply getPollerItems_correct sampleEnvironment utc
  · have hrun := Run.of_execute (Option.some_get threeHosts_isSome).symm
      (MeetsAll.trivial _ threeHosts)
    exact run_placed hrun
  · apply wellTimed_of_keys (by decide +kernel) (by decide +kernel)
    · exact List.forall_iff_forall_mem.mp (by decide +kernel)
    · exact List.forall_iff_forall_mem.mp (by decide +kernel)

/-- The system after `proxiedRun`. -/
def proxied : System := (execute _ sampleStart proxiedRun).get proxiedRun_isSome

theorem calls_isSome :
  (proxied.config.getPollerItems clocked .unreachable 1 200 2 []).isSome ∧
    (removed.config.getPollerItems clocked .normal 1 5 12 []).isSome
  := by decide +kernel

theorem proxied_isSome :
  (proxied.config.getPollerItems clocked .unreachable 1 200 2 []).isSome
  := calls_isSome.1

theorem removed_isSome :
  (removed.config.getPollerItems clocked .normal 1 5 12 []).isSome
  := calls_isSome.2

/-- The cache after a call of an unreachable poller, and the items it has taken. -/
def proxiedCall : Config × List UInt64 :=
  (proxied.config.getPollerItems clocked .unreachable 1 200 2 []).get proxied_isSome

/-- The cache after a call with a queue that is out of order, and the items it has taken. -/
def removedCall : Config × List UInt64 :=
  (removed.config.getPollerItems clocked .normal 1 5 12 []).get removed_isSome

/-- After `proxiedRun` the unreachable pollers take the item out of their queue and put it
into no other, although its host is known and unsupported items are refreshed. After
`removedRun` nothing is taken at 5, although an item of the queue is due at 4. And for a
negative delay the next check may never be found. -/
theorem getPollerItems_drops :
  (⟨1, 1⟩ ∈ (proxied.config.queues .unreachable).contents ∧
    proxied.config.nextcheckAt 1 ≤ 200 ∧
    (proxied.config.hosts.rows.search (proxied.config.itemAt 1).hostid).isSome ∧
    proxied.config.refreshUnsupported = 600 ∧ proxiedCall.2 = [] ∧
    ∀ type, (proxiedCall.1.queues type).elemsNum = 0) ∧
  (removedCall.2 = [] ∧ ⟨12, 12⟩ ∈ (removedCall.1.queues .normal).contents ∧
    removedCall.1.nextcheckAt 12 = 4) ∧
  ∀ rounds, calculateItemNextcheck utc rounds 1 1 .zabbix (-30) none 100 = none
  := by
  refine ⟨⟨?_, ?_, ?_, ?_, ?_, ?_⟩, ⟨?_, ?_, ?_⟩, ?_⟩
  · decide +kernel
  · decide +kernel
  · decide +kernel
  · decide +kernel
  · decide +kernel
  · intro type
    cases type <;> decide +kernel
  · decide +kernel
  · decide +kernel
  · decide +kernel
  · intro rounds
    have hfirst : firstNextcheck 1 (getCurrentDelay utc (-30) none 100) 100 = some 91 := by
      decide +kernel
    have hdelay : getCurrentDelay utc (-30) none 100 = -30 := by
      decide
    unfold calculateItemNextcheck
    dsimp only
    rw [if_neg (by decide), if_neg (by decide), if_neg (by decide)]
    cases rounds with
    | zero => rfl
    | succ n =>
      unfold searchNextcheck
      rw [if_pos (by decide)]
      dsimp only
      rw [hfirst, hdelay, Option.bind_eq_bind, Option.bind_some,
        advance_eq_none (by decide) (by decide)]
      rfl

end System

end DbConfig
