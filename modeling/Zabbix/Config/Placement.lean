import Zabbix.Algo.BinaryHeapKeys
import Zabbix.Config.Polling

/-!
# Items in their queues

In every state of the cache the queues hold exactly the items that are located in a
queue, each in the queue of its poller type (`Placed`). Between the change of an item
and the update of its queue the item is still where it was; `Arranged` speaks about the
places of the items as a function of their own. The update moves the item to the place
that its poller type calls for, unless it is with a poller (`settle`).
-/

open BinaryHeap (Elem)

namespace DbConfig

/-- The queue an item is in, as the item has it. -/
def Item.place (item : Item) : Option PollerType :=
  if item.location = .queue then item.pollerType else none

/-- The item where an update of its queue puts it. -/
def Item.settle (item : Item) : Item :=
  { item with
    location :=
      if item.location = .poller then .poller else item.pollerType.elim .nowhere fun _ => .queue }

/-- An item that is where it belongs stays there. -/
theorem Item.settle_of_location {item : Item}
    (h : (if item.location = .poller then Location.poller
      else item.pollerType.elim .nowhere fun _ => .queue) = item.location) :
  item.settle = item
  := by
  unfold Item.settle
  rw [h]

theorem Item.settle_typed (item : Item) :
  item.settle.location = .queue → item.settle.pollerType ≠ none
  := by
  unfold Item.settle
  dsimp only
  split
  · simp
  · cases item.pollerType <;> simp

namespace Config

variable (env : Environment) {cfg cfg' : Config} {itemid : UInt64} {item : Item}
  {p : UInt64 → Option PollerType}

/-- The queue each item is in, as the items have it. -/
def place (cfg : Config) (itemid : UInt64) : Option PollerType :=
  (cfg.items.rows.search itemid).bind Item.place

/-- The queues hold the items with the places given by the function. -/
def Arranged (cfg : Config) (place : UInt64 → Option PollerType) : Prop :=
  ∀ type, (cfg.queues type).Holds (fun itemid => itemid) fun itemid => place itemid = some type

/-- The queues hold exactly the items located in a queue, each in the queue of its
poller type. -/
structure Placed (cfg : Config) : Prop where
  arranged : cfg.Arranged cfg.place
  typed : ∀ itemid item, cfg.items.rows.search itemid = some item →
    item.location = .queue → item.pollerType ≠ none

/-- The cache with other items and queues. -/
def withItems (cfg : Config) (rows : Table UInt64 Item)
    (queues : PollerType → BinaryHeap UInt64) : Config :=
  { cfg with items := { cfg.items with rows }, queues }

@[simp]
theorem setItem_queues (cfg : Config) (itemid : UInt64) (item : Item) :
  (cfg.setItem itemid item).queues = cfg.queues
  := rfl

theorem search_setItem (cfg : Config) (itemid : UInt64) (item : Item) :
  (cfg.setItem itemid item).items.rows.search =
    Function.update cfg.items.rows.search itemid (some item)
  := Table.search_set _ _ _

theorem place_update (hrows : cfg'.items.rows.search =
    Function.update cfg.items.rows.search itemid (some item)) :
  cfg'.place = Function.update cfg.place itemid item.place
  := by
  funext j
  unfold Config.place
  rw [hrows, Function.update_apply, Function.update_apply]
  split <;> rfl

theorem place_remove (hrows : cfg'.items.rows.search =
    Function.update cfg.items.rows.search itemid none) :
  cfg'.place = Function.update cfg.place itemid none
  := by
  funext j
  unfold Config.place
  rw [hrows, Function.update_apply, Function.update_apply]
  split <;> rfl

/-! ### One queue operation -/

/-- Writing one queue changes the arrangement at that queue. -/
theorem Arranged.setQueue {p' : UInt64 → Option PollerType} (h : cfg.Arranged p)
    {type : PollerType} {queue : BinaryHeap UInt64}
    (hqueue : queue.Holds (fun itemid => itemid) fun itemid => p' itemid = some type)
    (hother : ∀ itemid type', type' ≠ type →
      (p itemid = some type' ↔ p' itemid = some type')) :
  (cfg.setQueue type queue).Arranged p'
  := by
  intro type'
  unfold Config.setQueue
  dsimp only
  by_cases htype : type' = type
  · rw [htype, Function.update_self]
    exact hqueue
  · rw [Function.update_of_ne htype]
    have heq : (fun itemid => p' itemid = some type') =
        fun itemid => p itemid = some type' := by
      funext itemid
      exact propext (hother itemid type' htype).symm
    rw [heq]
    exact h type'

theorem Arranged.insertQueue (h : cfg.Arranged p) (type : PollerType)
    (hitem : p itemid = none) :
  ∃ queue, cfg.insertQueue env type itemid = some (cfg.setQueue type queue) ∧
    (cfg.queues type).insert (cfg.elemCompare env type) ⟨itemid, itemid⟩ = some queue ∧
    (cfg.setQueue type queue).Arranged (Function.update p itemid (some type))
  := by
  obtain ⟨queue, hqueue, hholds⟩ :=
    (h type).insert (cfg.elemCompare env type) (by simp [hitem] : ¬ p itemid = some type)
  refine ⟨queue, by simp [Config.insertQueue, hqueue], hqueue, h.setQueue ?_ ?_⟩
  · convert hholds using 2 with j
    by_cases hj : j = itemid <;> simp [hj]
  · intro j type' htype
    by_cases hj : j = itemid
    · simp [hj, hitem, Ne.symm htype]
    · simp [hj]

theorem Arranged.removeQueue (h : cfg.Arranged p) {type : PollerType}
    (hitem : p itemid = some type) :
  ∃ queue, cfg.removeQueue env (some type) itemid = some (cfg.setQueue type queue) ∧
    (cfg.queues type).removeDirect (cfg.elemCompare env type) itemid = some queue ∧
    (cfg.setQueue type queue).Arranged (Function.update p itemid none)
  := by
  obtain ⟨queue, hqueue, hholds⟩ :=
    (h type).removeDirect (cfg.elemCompare env type) hitem
  refine ⟨queue, by simp [Config.removeQueue, hqueue], hqueue, h.setQueue ?_ ?_⟩
  · convert hholds using 2 with j
    by_cases hj : j = itemid <;> simp [hj]
  · intro j type' htype
    by_cases hj : j = itemid
    · simp [hj, hitem, Ne.symm htype]
    · simp [hj]

theorem Arranged.updateQueue (h : cfg.Arranged p) {type : PollerType}
    (hitem : p itemid = some type) :
  ∃ queue, cfg.updateQueue env type itemid = some (cfg.setQueue type queue) ∧
    (cfg.queues type).updateDirect (cfg.elemCompare env type) ⟨itemid, itemid⟩ = some queue ∧
    (cfg.setQueue type queue).Arranged p
  := by
  obtain ⟨queue, hqueue, hholds⟩ :=
    (h type).updateDirect (cfg.elemCompare env type) hitem
  refine ⟨queue, by simp [Config.updateQueue, hqueue], hqueue, h.setQueue hholds ?_⟩
  intro j type' _
  rfl

/-! ### Updating the queue of an item -/

/-- The item after it has left the queue of its old poller type. -/
def leave (item : Item) (oldPollerType : Option PollerType) : Item :=
  if item.location = .queue ∧ oldPollerType ≠ item.pollerType then
    { item with location := .nowhere }
  else item

theorem leaveQueue_spec {oldPollerType : Option PollerType}
    (hitem : cfg.items.rows.search itemid = some item) (h : cfg.Arranged p)
    (hplace : p itemid = if item.location = .queue then oldPollerType else none)
    (hold : item.location = .queue → oldPollerType ≠ none) :
  ∃ rows queues,
    cfg.leaveQueue env itemid item oldPollerType = some (cfg.withItems rows queues) ∧
    rows.search =
      Function.update cfg.items.rows.search itemid (some (leave item oldPollerType)) ∧
    (cfg.withItems rows queues).Arranged
      (Function.update p itemid (leave item oldPollerType).place)
  := by
  unfold Config.leaveQueue leave
  by_cases hmove : item.location = .queue ∧ oldPollerType ≠ item.pollerType
  · obtain ⟨type, htype⟩ := Option.ne_none_iff_exists'.mp (hold hmove.1)
    rw [if_pos hmove.1, htype] at hplace
    rw [if_pos hmove, if_pos hmove, htype]
    have harr : (cfg.setItem itemid { item with location := .nowhere }).Arranged p := h
    obtain ⟨queue, hqueue, -, harr'⟩ := harr.removeQueue env hplace
    exact ⟨_, _, hqueue, Table.search_set _ _ _, harr'⟩
  · rw [if_neg hmove, if_neg hmove]
    refine ⟨cfg.items.rows, cfg.queues, rfl, ?_, ?_⟩
    · rw [← hitem, Function.update_eq_self]
    · have hself : item.place = p itemid := by
        rw [hplace]
        unfold Item.place
        by_cases hloc : item.location = .queue
        · rw [if_pos hloc, if_pos hloc]
          by_contra hne
          exact hmove ⟨hloc, Ne.symm hne⟩
        · rw [if_neg hloc, if_neg hloc]
      rw [hself, Function.update_eq_self]
      exact h

theorem enterQueue_of_some {type : PollerType} (oldNextcheck : ℤ)
    (htype : item.pollerType = some type) :
  cfg.enterQueue env itemid item oldNextcheck =
    if item.location = .queue then
      if oldNextcheck = item.nextcheck then some cfg else cfg.updateQueue env type itemid
    else (cfg.setItem itemid { item with location := .queue }).insertQueue env type itemid
  := by
  unfold Config.enterQueue
  rw [htype]
  rfl

theorem enterQueue_spec (oldNextcheck : ℤ)
    (hitem : cfg.items.rows.search itemid = some item) (h : cfg.Arranged p)
    (hplace : p itemid = item.place) (hloc : item.location ≠ .poller)
    (htyped : item.location = .queue → item.pollerType ≠ none) :
  ∃ rows queues,
    cfg.enterQueue env itemid item oldNextcheck = some (cfg.withItems rows queues) ∧
    rows.search = Function.update cfg.items.rows.search itemid (some item.settle) ∧
    (cfg.withItems rows queues).Arranged (Function.update p itemid item.settle.place)
  := by
  have hkeep : item.settle = item → cfg.items.rows.search =
      Function.update cfg.items.rows.search itemid (some item.settle) ∧
      cfg.Arranged (Function.update p itemid item.settle.place) := by
    intro hsettle
    rw [hsettle, ← hitem, ← hplace, Function.update_eq_self, Function.update_eq_self]
    exact ⟨rfl, h⟩
  rcases htype : item.pollerType with _ | type
  · unfold Config.enterQueue
    have hsettle : item.settle = item := by
      cases hl : item.location with
      | nowhere => exact Item.settle_of_location (by simp [htype, hl])
      | queue => exact absurd htype (htyped hl)
      | poller => exact absurd hl hloc
    rw [htype]
    exact ⟨_, _, rfl, hkeep hsettle⟩
  · rw [enterQueue_of_some env oldNextcheck htype]
    have hsettle : item.settle = { item with location := .queue } := by
      simp [Item.settle, hloc, htype]
    by_cases hqueue : item.location = .queue
    · have hself : item.settle = item := by
        rw [hsettle, ← hqueue]
      rw [if_pos hqueue]
      by_cases hsame : oldNextcheck = item.nextcheck
      · rw [if_pos hsame]
        exact ⟨_, _, rfl, hkeep hself⟩
      · rw [if_neg hsame]
        have hin : p itemid = some type := by
          rw [hplace, Item.place, if_pos hqueue, htype]
        obtain ⟨queue, hq, -, harr⟩ := h.updateQueue env hin
        refine ⟨_, _, hq, (hkeep hself).1, ?_⟩
        rw [hself, ← hplace, Function.update_eq_self]
        exact harr
    · rw [if_neg hqueue]
      have hout : p itemid = none := by
        rw [hplace, Item.place, if_neg hqueue]
      have harr : (cfg.setItem itemid { item with location := .queue }).Arranged p := h
      obtain ⟨queue, hq, -, harr'⟩ := harr.insertQueue env type hout
      refine ⟨_, _, hq, ?_, ?_⟩
      · rw [hsettle]
        apply Table.search_set
      · rw [hsettle]
        simp only [Item.place, if_true, htype]
        exact harr'

theorem settle_leave (item : Item) (oldPollerType : Option PollerType)
    (hloc : item.location ≠ .poller) :
  (leave item oldPollerType).settle = item.settle
  := by
  unfold leave
  split
  · simp [Item.settle, hloc]
  · rfl

/-- An update moves the item from the place it had under its old poller type to the
place it belongs to. -/
theorem updateItemQueue_spec {oldPollerType : Option PollerType} (oldNextcheck : ℤ)
    (hitem : cfg.items.rows.search itemid = some item) (h : cfg.Arranged p)
    (hplace : p itemid = if item.location = .queue then oldPollerType else none)
    (hold : item.location = .queue → oldPollerType ≠ none) :
  ∃ rows queues,
    cfg.updateItemQueue env itemid oldPollerType oldNextcheck =
      some (cfg.withItems rows queues) ∧
    rows.search = Function.update cfg.items.rows.search itemid (some item.settle) ∧
    (cfg.withItems rows queues).Arranged (Function.update p itemid item.settle.place)
  := by
  unfold Config.updateItemQueue
  rw [hitem]
  simp only [Option.bind_eq_bind, Option.bind_some]
  by_cases hloc : item.location = .poller
  · have hsettle : item.settle = item := Item.settle_of_location (by simp [hloc])
    rw [if_pos hloc]
    refine ⟨cfg.items.rows, cfg.queues, rfl, ?_, ?_⟩
    · rw [hsettle, ← hitem, Function.update_eq_self]
    · have hout : item.settle.place = p itemid := by
        rw [hsettle, hplace]
        simp [Item.place, hloc]
      rw [hout, Function.update_eq_self]
      exact h
  · rw [if_neg hloc]
    obtain ⟨rows, queues, hleave, hrows, harr⟩ :=
      leaveQueue_spec env hitem h hplace hold
    have hitem' : (cfg.withItems rows queues).items.rows.search itemid =
        some (leave item oldPollerType) := by
      change rows.search itemid = _
      rw [hrows, Function.update_self]
    obtain ⟨hloc', htyped⟩ : (leave item oldPollerType).location ≠ .poller ∧
        ((leave item oldPollerType).location = .queue →
          (leave item oldPollerType).pollerType ≠ none) := by
      unfold leave
      split
      · simp
      · refine ⟨hloc, ?_⟩
        rename_i hstay
        intro hqueue hnone
        apply hold hqueue
        by_contra hne
        exact hstay ⟨hqueue, by rw [hnone]; exact hne⟩
    obtain ⟨rows', queues', henter, hrows', harr'⟩ :=
      enterQueue_spec env oldNextcheck hitem' harr (Function.update_self _ _ _) hloc' htyped
    rw [hleave, Option.bind_some, hitem', Option.bind_some]
    refine ⟨rows', queues', henter, ?_, ?_⟩
    · rw [hrows', settle_leave item _ hloc]
      change Function.update rows.search itemid _ = _
      rw [hrows, Function.update_idem]
    · rw [settle_leave item _ hloc, Function.update_idem] at harr'
      exact harr'

/-! ### Changing an item -/

/-- After a change that leaves the place of an item as it is, the items are still
placed. -/
theorem Placed.write (h : cfg.Placed) (hqueues : cfg'.queues = cfg.queues)
    (hrows : cfg'.items.rows.search =
      Function.update cfg.items.rows.search itemid (some item))
    (hplace : item.place = cfg.place itemid)
    (htyped : item.location = .queue → item.pollerType ≠ none) :
  cfg'.Placed
  := by
  constructor
  · rw [place_update hrows, hplace, Function.update_eq_self]
    unfold Arranged
    rw [hqueues]
    exact h.arranged
  · intro j item' hj
    rw [hrows] at hj
    by_cases hji : j = itemid
    · rw [hji, Function.update_self, Option.some.injEq] at hj
      rw [← hj]
      exact htyped
    · rw [Function.update_of_ne hji] at hj
      apply h.typed j item' hj

theorem Placed.setItem (h : cfg.Placed) (hplace : item.place = cfg.place itemid)
    (htyped : item.location = .queue → item.pollerType ≠ none) :
  (cfg.setItem itemid item).Placed
  := h.write (setItem_queues _ _ _) (search_setItem _ _ _) hplace htyped

/-- After an item that is in no queue is removed, the items are still placed. -/
theorem Placed.remove (h : cfg.Placed) (hqueues : cfg'.queues = cfg.queues)
    (hrows : cfg'.items.rows.search = Function.update cfg.items.rows.search itemid none)
    (hplace : cfg.place itemid = none) :
  cfg'.Placed
  := by
  constructor
  · rw [place_remove hrows, ← hplace, Function.update_eq_self]
    unfold Arranged
    rw [hqueues]
    exact h.arranged
  · intro j item' hj
    rw [hrows] at hj
    by_cases hji : j = itemid
    · rw [hji, Function.update_self] at hj
      contradiction
    · rw [Function.update_of_ne hji] at hj
      apply h.typed j item' hj

/-- A change of an item followed by an update of its queue. -/
theorem Placed.updateItemQueue {oldPollerType : Option PollerType} (oldNextcheck : ℤ)
    (h : cfg.Placed) (hqueues : cfg'.queues = cfg.queues)
    (hrows : cfg'.items.rows.search =
      Function.update cfg.items.rows.search itemid (some item))
    (hplace : cfg.place itemid = if item.location = .queue then oldPollerType else none)
    (hold : item.location = .queue → oldPollerType ≠ none) :
  ∃ rows queues,
    cfg'.updateItemQueue env itemid oldPollerType oldNextcheck =
      some (cfg'.withItems rows queues) ∧
    rows.search = Function.update cfg.items.rows.search itemid (some item.settle) ∧
    (cfg'.withItems rows queues).Placed
  := by
  have hitem : cfg'.items.rows.search itemid = some item := by
    rw [hrows, Function.update_self]
  have harr : cfg'.Arranged cfg.place := by
    unfold Arranged
    rw [hqueues]
    exact h.arranged
  obtain ⟨rows, queues, hupdate, hrows', harr'⟩ :=
    updateItemQueue_spec env oldNextcheck hitem harr hplace hold
  have hrows'' : rows.search =
      Function.update cfg.items.rows.search itemid (some item.settle) := by
    rw [hrows', hrows, Function.update_idem]
  refine ⟨rows, queues, hupdate, hrows'', ?_, ?_⟩
  · have hplaces : (cfg'.withItems rows queues).place =
        Function.update cfg.place itemid item.settle.place := place_update hrows''
    rw [hplaces]
    exact harr'
  · intro j item' hj
    change rows.search j = some item' at hj
    rw [hrows''] at hj
    by_cases hji : j = itemid
    · rw [hji, Function.update_self, Option.some.injEq] at hj
      rw [← hj]
      exact item.settle_typed
    · rw [Function.update_of_ne hji] at hj
      apply h.typed j item' hj

theorem Placed.place_eq (h : cfg.Placed) (hitem : cfg.items.rows.search itemid = some item) :
  (cfg.place itemid = if item.location = .queue then item.pollerType else none) ∧
    (item.location = .queue → item.pollerType ≠ none)
  := by
  refine ⟨?_, h.typed itemid item hitem⟩
  unfold Config.place
  rw [hitem]
  rfl

theorem Placed.reschedule (pollerType : Option PollerType) (nextcheck : ℤ) (h : cfg.Placed)
    (hitem : cfg.items.rows.search itemid = some item) :
  ∃ rows queues,
    cfg.reschedule env itemid item pollerType nextcheck = some (cfg.withItems rows queues) ∧
    rows.search = Function.update cfg.items.rows.search itemid
      (some { item with pollerType, nextcheck }.settle) ∧
    (cfg.withItems rows queues).Placed
  := by
  obtain ⟨hplace, htyped⟩ := h.place_eq hitem
  exact Placed.updateItemQueue env item.nextcheck h rfl (Table.search_set _ _ _) hplace htyped

end Config

end DbConfig
