import Zabbix.Config.StepSpecs

/-!
# The order of the queues

The compare functions read the items as they are at the moment, so the order of a queue
is about the current `nextcheck` of its items. A queue stays ordered by it as long as
every change of the `nextcheck` of a queued item is followed by an update of its place,
and every item that is taken out of the middle of a queue leaves a place into which the
last item of the queue fits.

Two kinds of step can break this. The functions that take an item back note its old
`nextcheck` after they have changed it; the update of the queue then finds nothing to do
when the item is in a queue and stays there. And `zbx_binary_heap_remove_direct` moves
the last item of the queue down only from the place of the removed one.
-/

open BinaryHeap (Elem Holds HoleFits Respects)
open HeapOrder

namespace DbConfig

namespace Config

variable (env : Environment) {cfg cfg' : Config} {itemid : UInt64} {item : Item}
  {p : UInt64 → Option PollerType} {nextcheck : UInt64 → ℤ}

/-- The current `nextcheck` of an item. -/
def nextcheckAt (cfg : Config) (itemid : UInt64) : ℤ := (cfg.itemAt itemid).nextcheck

/-- The order of items by a `nextcheck`. -/
def byNextcheck (nextcheck : UInt64 → ℤ) (x y : Elem UInt64) : Prop :=
  nextcheck x.data ≤ nextcheck y.data

instance (nextcheck : UInt64 → ℤ) : IsTrans (Elem UInt64) (byNextcheck nextcheck) :=
  ⟨fun _ _ _ => le_trans⟩

/-- All queues are ordered by a `nextcheck`. -/
def Sorted (cfg : Config) (nextcheck : UInt64 → ℤ) : Prop :=
  ∀ type, (cfg.queues type).InOrder (byNextcheck nextcheck)

/-- All queues are ordered by a `nextcheck` but for the place of one item. -/
def SortedBut (cfg : Config) (nextcheck : UInt64 → ℤ) (itemid : UInt64) : Prop :=
  ∀ type,
    (∀ k, (cfg.queues type).keyIndex itemid = some k →
      OrderedBut (byNextcheck nextcheck) (cfg.queues type).elems (cfg.queues type).elemsNum k) ∧
    ((cfg.queues type).keyIndex itemid = none →
      (cfg.queues type).InOrder (byNextcheck nextcheck))

/-- The last item of a queue fits into the place of the given one. -/
def RemovalFits (cfg : Config) (nextcheck : UInt64 → ℤ) (type : Option PollerType)
    (itemid : UInt64) : Prop :=
  ∀ type' ∈ type, ∀ k ∈ (cfg.queues type').keyIndex itemid,
    HoleFits (byNextcheck nextcheck) (cfg.queues type') k

theorem orElse_le {x y next : ℤ} (h : orElse x y next ≤ 0) :
  x ≤ y
  := by
  unfold orElse at h
  split at h
  · omega
  · split at h <;> omega

theorem le_of_not_orElse {x y next : ℤ} (h : ¬ orElse x y next ≤ 0) :
  y ≤ x
  := by
  unfold orElse at h
  split at h <;> omega

/-- The compare functions of the queues respect the order by the current `nextcheck`. -/
theorem elemCompare_respects (cfg : Config) (type : PollerType) :
  Respects (cfg.elemCompare env type) (byNextcheck cfg.nextcheckAt)
  := by
  constructor
  · intro x y h
    unfold elemCompare javaItemCompare nextcheckCompare at h
    unfold byNextcheck nextcheckAt
    split at h
    · exact orElse_le h
    · split at h
      · omega
      · split at h <;> omega
  · intro x y h
    unfold elemCompare javaItemCompare nextcheckCompare at h
    unfold byNextcheck nextcheckAt
    split at h
    · exact le_of_not_orElse h
    · split at h <;> omega
  · intro x y z
    exact le_trans

/-! ### Changing a `nextcheck` -/

theorem nextcheckAt_update (hrows : cfg'.items.rows.search =
    Function.update cfg.items.rows.search itemid (some item)) :
  cfg'.nextcheckAt = Function.update cfg.nextcheckAt itemid item.nextcheck
  := by
  funext j
  unfold nextcheckAt itemAt
  rw [hrows, Function.update_apply, Function.update_apply]
  split <;> rfl

/-- The `nextcheck` of an item that is there. -/
theorem nextcheckAt_eq (hitem : cfg.items.rows.search itemid = some item) :
  cfg.nextcheckAt itemid = item.nextcheck
  := by
  unfold nextcheckAt itemAt
  rw [hitem]
  rfl

/-- When the `nextcheck` of the item at the place in question changes, no other place is
wrong. -/
theorem SortedBut.congr {nextcheck' : UInt64 → ℤ} (h : cfg.SortedBut nextcheck itemid)
    (harr : cfg.Arranged p) (hqueues : cfg'.queues = cfg.queues)
    (hsame : ∀ j, j ≠ itemid → nextcheck' j = nextcheck j) :
  cfg'.SortedBut nextcheck' itemid
  := by
  intro type
  rw [hqueues]
  have hslot : ∀ i, i < (cfg.queues type).elemsNum →
      (cfg.queues type).keyIndex itemid ≠ some i →
      nextcheck' ((cfg.queues type).elems i).data = nextcheck ((cfg.queues type).elems i).data := by
    intro i hi hne
    apply hsame
    rw [((harr type).present_of_slot hi).2]
    intro hkey
    exact hne (((harr type).sound.indexed itemid i).mpr ⟨hi, hkey⟩)
  constructor
  · intro k hk
    apply ((h type).1 k hk).of_agree
    intro i j hi hj hik hjk hle
    unfold byNextcheck
    rw [hslot i hi (by rw [hk]; simpa using Ne.symm hik),
      hslot j hj (by rw [hk]; simpa using Ne.symm hjk)]
    exact hle
  · intro hnone
    have hagree : ∀ i j, i < (cfg.queues type).elemsNum → j < (cfg.queues type).elemsNum →
        byNextcheck nextcheck ((cfg.queues type).elems i) ((cfg.queues type).elems j) →
        byNextcheck nextcheck' ((cfg.queues type).elems i) ((cfg.queues type).elems j) := by
      intro i j hi hj hle
      unfold byNextcheck
      rw [hslot i hi (by simp [hnone]), hslot j hj (by simp [hnone])]
      exact hle
    exact ((h type).2 hnone).of_agree hagree

/-- When the `nextcheck` of one item changes, only its place may be wrong. -/
theorem Sorted.sortedBut {nextcheck' : UInt64 → ℤ} (h : cfg.Sorted nextcheck)
    (harr : cfg.Arranged p) (hqueues : cfg'.queues = cfg.queues)
    (hsame : ∀ j, j ≠ itemid → nextcheck' j = nextcheck j) :
  cfg'.SortedBut nextcheck' itemid
  := by
  have hbut : cfg.SortedBut nextcheck itemid :=
    fun type => ⟨fun _ _ => (h type).orderedBut, fun _ => h type⟩
  exact hbut.congr harr hqueues hsame

/-- When an item in no queue changes, the queues stay ordered. -/
theorem SortedBut.sorted (h : cfg.SortedBut nextcheck itemid) (harr : cfg.Arranged p)
    (hitem : p itemid = none) :
  cfg.Sorted nextcheck
  := by
  intro type
  apply (h type).2
  apply (harr type).keyIndex_of_not
  simp [hitem]

/-- The fit of a removal does not depend on the `nextcheck` of the removed item. -/
theorem RemovalFits.congr {nextcheck' : UInt64 → ℤ} {type : Option PollerType}
    (h : cfg.RemovalFits nextcheck type itemid) (harr : cfg.Arranged p)
    (hqueues : cfg'.queues = cfg.queues)
    (hsame : ∀ j, j ≠ itemid → nextcheck' j = nextcheck j) :
  cfg'.RemovalFits nextcheck' type itemid
  := by
  intro type' htype k hk h0 hlast
  rw [hqueues] at hk hlast ⊢
  obtain ⟨hkn, hkey⟩ := ((harr type').sound.indexed itemid k).mp hk
  have hslot : ∀ i, i < (cfg.queues type').elemsNum → i ≠ k →
      nextcheck' ((cfg.queues type').elems i).data =
        nextcheck ((cfg.queues type').elems i).data := by
    intro i hi hik
    apply hsame
    rw [((harr type').present_of_slot hi).2]
    intro heq
    exact hik ((harr type').sound.indexed.key_injective hi hkn (heq.trans hkey.symm))
  have := parent_lt h0
  unfold byNextcheck
  rw [hslot _ (by omega) (by omega), hslot _ (by omega) (by omega)]
  exact h type' htype k hk h0 hlast

/-! ### The queue operations -/

theorem Sorted.setQueue {type : PollerType} {queue : BinaryHeap UInt64}
    (hqueue : queue.InOrder (byNextcheck nextcheck))
    (hother : ∀ type', type' ≠ type →
      (cfg.queues type').InOrder (byNextcheck nextcheck)) :
  (cfg.setQueue type queue).Sorted nextcheck
  := by
  intro type'
  unfold Config.setQueue
  dsimp only
  by_cases htype : type' = type
  · rw [htype, Function.update_self]
    exact hqueue
  · rw [Function.update_of_ne htype]
    exact hother type' htype

theorem Sorted.insertQueue {type : PollerType} (h : cfg.Sorted cfg.nextcheckAt)
    (harr : cfg.Arranged p) (hitem : p itemid = none)
    (hinsert : cfg.insertQueue env type itemid = some cfg') :
  cfg'.Sorted cfg.nextcheckAt
  := by
  obtain ⟨queue, heq, hqueue, -⟩ := harr.insertQueue env type hitem
  rw [hinsert, Option.some.injEq] at heq
  rw [heq]
  apply Sorted.setQueue
  · exact (BinaryHeap.insert_spec (elemCompare_respects env cfg type) (harr type).sound
      (h type) hqueue).2
  · intro type' _
    exact h type'

/-- The other queues do not have an item that is in one. -/
theorem SortedBut.other {type type' : PollerType} (h : cfg.SortedBut nextcheck itemid)
    (harr : cfg.Arranged p) (hitem : p itemid = some type) (htype : type' ≠ type) :
  (cfg.queues type').InOrder (byNextcheck nextcheck)
  := by
  apply (h type').2
  apply (harr type').keyIndex_of_not
  rw [hitem]
  simpa using Ne.symm htype

theorem SortedBut.updateQueue {type : PollerType}
    (h : cfg.SortedBut cfg.nextcheckAt itemid) (harr : cfg.Arranged p)
    (hitem : p itemid = some type) (hupdate : cfg.updateQueue env type itemid = some cfg') :
  cfg'.Sorted cfg.nextcheckAt
  := by
  obtain ⟨queue, heq, hqueue, -⟩ := harr.updateQueue env hitem
  rw [hupdate, Option.some.injEq] at heq
  rw [heq]
  apply Sorted.setQueue
  · exact (BinaryHeap.updateDirect_spec (elemCompare_respects env cfg type)
      (harr type).sound (h type).1 hqueue).2
  · intro type' htype
    exact h.other harr hitem htype

theorem SortedBut.removeQueue {type : PollerType}
    (h : cfg.SortedBut cfg.nextcheckAt itemid) (harr : cfg.Arranged p)
    (hitem : p itemid = some type)
    (hfits : cfg.RemovalFits cfg.nextcheckAt (some type) itemid)
    (hremove : cfg.removeQueue env (some type) itemid = some cfg') :
  cfg'.Sorted cfg.nextcheckAt
  := by
  obtain ⟨queue, heq, hqueue, -⟩ := harr.removeQueue env hitem
  rw [hremove, Option.some.injEq] at heq
  rw [heq]
  apply Sorted.setQueue
  · obtain ⟨k, hk, hkn, hkey⟩ := (harr type).index hitem
    rw [BinaryHeap.removeDirect_eq (harr type).sound.direct hk hkey,
      Option.some.injEq] at hqueue
    rw [← hqueue]
    apply (BinaryHeap.removeAt_spec (elemCompare_respects env cfg type) (harr type).sound
      ((h type).1 k hk) hkn).2.mpr
    exact hfits type rfl k hk
  · intro type' htype
    exact h.other harr hitem htype

/-! ### Updating the queue of an item -/

theorem nextcheckAt_setItem (hitem : cfg.items.rows.search itemid = some item)
    (location : Location) :
  (cfg.setItem itemid { item with location }).nextcheckAt = cfg.nextcheckAt
  := by
  rw [nextcheckAt_update (search_setItem _ _ _), ← nextcheckAt_eq hitem,
    Function.update_eq_self]

/-- An item that is in no queue enters the one of its poller type. -/
theorem Sorted.enterQueue {oldNextcheck : ℤ} (h : cfg.Sorted cfg.nextcheckAt)
    (hitem : cfg.items.rows.search itemid = some item) (harr : cfg.Arranged p)
    (hout : p itemid = none) (hloc : item.location ≠ .queue)
    (henter : cfg.enterQueue env itemid item oldNextcheck = some cfg') :
  cfg'.Sorted cfg.nextcheckAt
  := by
  rcases htype : item.pollerType with _ | type
  · unfold Config.enterQueue at henter
    rw [htype, Option.elim_none, Option.some.injEq] at henter
    rwa [← henter]
  · rw [enterQueue_of_some env oldNextcheck htype, if_neg hloc] at henter
    have harr' : (cfg.setItem itemid { item with location := .queue }).Arranged p := harr
    rw [← nextcheckAt_setItem hitem .queue] at h ⊢
    exact Sorted.insertQueue env h harr' hout henter

/-- An item that is in its queue gets a new place there when its `nextcheck` has changed. -/
theorem SortedBut.enterQueue {type : PollerType} {oldNextcheck : ℤ}
    (h : cfg.SortedBut cfg.nextcheckAt itemid) (harr : cfg.Arranged p)
    (hplace : p itemid = some type) (htype : item.pollerType = some type)
    (hloc : item.location = .queue)
    (hsame : oldNextcheck = item.nextcheck → cfg.Sorted cfg.nextcheckAt)
    (henter : cfg.enterQueue env itemid item oldNextcheck = some cfg') :
  cfg'.Sorted cfg.nextcheckAt
  := by
  rw [enterQueue_of_some env oldNextcheck htype, if_pos hloc] at henter
  by_cases hnextcheck : oldNextcheck = item.nextcheck
  · rw [if_pos hnextcheck, Option.some.injEq] at henter
    rw [← henter]
    exact hsame hnextcheck
  · rw [if_neg hnextcheck] at henter
    exact h.updateQueue env harr hplace henter

/-- An item leaves the queue of another poller type than its own. -/
theorem SortedBut.leaveQueue {type : PollerType} (h : cfg.SortedBut cfg.nextcheckAt itemid)
    (hitem : cfg.items.rows.search itemid = some item) (harr : cfg.Arranged p)
    (hplace : p itemid = some type)
    (hmove : item.location = .queue ∧ some type ≠ item.pollerType)
    (hfits : cfg.RemovalFits cfg.nextcheckAt (some type) itemid)
    (hleave : cfg.leaveQueue env itemid item (some type) = some cfg') :
  cfg'.Sorted cfg.nextcheckAt
  := by
  have harr₀ : (cfg.setItem itemid { item with location := .nowhere }).Arranged p := harr
  have h₀ : (cfg.setItem itemid { item with location := .nowhere }).SortedBut
      cfg.nextcheckAt itemid := h
  have hfits₀ : (cfg.setItem itemid { item with location := .nowhere }).RemovalFits
      cfg.nextcheckAt (some type) itemid := hfits
  unfold Config.leaveQueue at hleave
  rw [if_pos hmove] at hleave
  rw [← nextcheckAt_setItem hitem .nowhere] at h₀ hfits₀ ⊢
  exact h₀.removeQueue env harr₀ hplace hfits₀ hleave

/-- An update leaves the queues ordered when its removal fits and the given old
`nextcheck` is the one by which the item has its place. -/
theorem SortedBut.updateItemQueue {oldPollerType : Option PollerType} {oldNextcheck : ℤ}
    (h : cfg.SortedBut cfg.nextcheckAt itemid)
    (hitem : cfg.items.rows.search itemid = some item) (harr : cfg.Arranged p)
    (hplace : p itemid = if item.location = .queue then oldPollerType else none)
    (hold : item.location = .queue → oldPollerType ≠ none)
    (hfits : item.location = .queue → oldPollerType ≠ item.pollerType →
      cfg.RemovalFits cfg.nextcheckAt oldPollerType itemid)
    (hsame : item.location = .queue → oldPollerType = item.pollerType →
      oldNextcheck = item.nextcheck → cfg.Sorted cfg.nextcheckAt)
    (hupdate : cfg.updateItemQueue env itemid oldPollerType oldNextcheck = some cfg') :
  cfg'.Sorted cfg'.nextcheckAt
  := by
  obtain ⟨rows, queues, heq, hrows, -⟩ :=
    updateItemQueue_spec env oldNextcheck hitem harr hplace hold
  have hcfg' : cfg' = cfg.withItems rows queues := by
    rw [hupdate, Option.some.injEq] at heq
    exact heq
  have hnext : cfg'.nextcheckAt = cfg.nextcheckAt := by
    rw [hcfg', nextcheckAt_update hrows]
    change Function.update cfg.nextcheckAt itemid item.nextcheck = _
    rw [← nextcheckAt_eq hitem, Function.update_eq_self]
  rw [hnext]
  unfold Config.updateItemQueue at hupdate
  rw [hitem] at hupdate
  simp only [Option.bind_eq_bind, Option.bind_some] at hupdate
  by_cases hpoller : item.location = .poller
  · rw [if_pos hpoller, Option.some.injEq] at hupdate
    rw [← hupdate]
    apply h.sorted harr
    rw [hplace, if_neg (by simp [hpoller])]
  · rw [if_neg hpoller] at hupdate
    obtain ⟨cfg₁, hleave, hupdate⟩ := Option.bind_eq_some_iff.mp hupdate
    obtain ⟨rows₁, queues₁, hleave', hrows₁, harr₁⟩ :=
      leaveQueue_spec env hitem harr hplace hold
    obtain rfl : cfg₁ = cfg.withItems rows₁ queues₁ := by
      rw [hleave, Option.some.injEq] at hleave'
      exact hleave'
    have hitem₁ : (cfg.withItems rows₁ queues₁).items.rows.search itemid =
        some (leave item oldPollerType) := by
      change rows₁.search itemid = _
      rw [hrows₁, Function.update_self]
    rw [hitem₁, Option.bind_some] at hupdate
    by_cases hmove : item.location = .queue ∧ oldPollerType ≠ item.pollerType
    · -- the item leaves its queue and may enter another
      have hleft : leave item oldPollerType = { item with location := .nowhere } := by
        unfold leave
        rw [if_pos hmove]
      obtain ⟨type, rfl⟩ := Option.ne_none_iff_exists'.mp (hold hmove.1)
      rw [if_pos hmove.1] at hplace
      have hsorted₁ := h.leaveQueue env hitem harr hplace hmove (hfits hmove.1 hmove.2) hleave
      have hnext₁ : (cfg.withItems rows₁ queues₁).nextcheckAt = cfg.nextcheckAt := by
        rw [nextcheckAt_update hrows₁, hleft]
        change Function.update cfg.nextcheckAt itemid item.nextcheck = _
        rw [← nextcheckAt_eq hitem, Function.update_eq_self]
      have hout : Function.update p itemid (leave item (some type)).place itemid = none := by
        rw [Function.update_self, hleft]
        rfl
      rw [← hnext₁] at hsorted₁ ⊢
      exact Sorted.enterQueue env hsorted₁ hitem₁ harr₁ hout (by simp [hleft]) hupdate
    · have hstay : leave item oldPollerType = item := by
        unfold leave
        rw [if_neg hmove]
      unfold Config.leaveQueue at hleave
      rw [if_neg hmove, Option.some.injEq] at hleave
      rw [← hleave, hstay] at hupdate
      by_cases hqueue : item.location = .queue
      · -- the item stays in its queue
        have hsametype : oldPollerType = item.pollerType := by
          by_contra hne
          exact hmove ⟨hqueue, hne⟩
        obtain ⟨type, htype⟩ := Option.ne_none_iff_exists'.mp (hold hqueue)
        rw [if_pos hqueue, htype] at hplace
        exact h.enterQueue env harr hplace (hsametype ▸ htype) hqueue (hsame hqueue hsametype)
          hupdate
      · -- the item is nowhere and may enter a queue
        rw [if_neg hqueue] at hplace
        exact Sorted.enterQueue env (h.sorted harr hplace) hitem harr hplace hqueue hupdate

end Config

end DbConfig
