import Zabbix.Config.Holding
import Zabbix.Config.QueueOrder

/-!
# The queues in runs of the system

In every run in which the steps meet two conditions the queues have the items that are
located in them, and the first item of a queue has the least `nextcheck` of all: an item
that leaves the middle of a queue leaves a place that the last item fits into, and an
item that is taken back while it is in a queue stays there only with the `nextcheck` it
has.
-/

open BinaryHeap (Elem)

namespace DbConfig

namespace Config

variable (env : Environment) {cfg cfg' : Config} {itemid : UInt64} {item : Item}

instance {α : Type*} (r : Elem α → Elem α → Prop) [DecidableRel r] (heap : BinaryHeap α) (k : ℕ) :
    Decidable (BinaryHeap.HoleFits r heap k) :=
  inferInstanceAs (Decidable (_ → _ → _))

instance (nextcheck : UInt64 → ℤ) : DecidableRel (byNextcheck nextcheck) :=
  fun _ _ => inferInstanceAs (Decidable (_ ≤ _))

instance (cfg : Config) (nextcheck : UInt64 → ℤ) (type : Option PollerType)
    (itemid : UInt64) : Decidable (cfg.RemovalFits nextcheck type itemid) :=
  inferInstanceAs (Decidable (∀ type' ∈ type, ∀ k ∈ (cfg.queues type').keyIndex itemid, _))

/-- The queues are ordered by the current `nextcheck` of the items. -/
def Ranked (cfg : Config) : Prop := cfg.Sorted cfg.nextcheckAt

/-! ### Loading the items -/

/-- A row moves an item out of its queue only when the removal fits. -/
def RowFits (cfg : Config) (row : ItemRow) : Prop :=
  ∀ item ∈ cfg.items.rows.search row.itemid, item.location = .queue →
    item.pollerType ≠ newPollerType env row (some item) →
    cfg.RemovalFits cfg.nextcheckAt item.pollerType row.itemid

/-- A row removes an item from its queue only when the removal fits. -/
def SweepFits (ids : List UInt64) (cfg : Config) (itemid : UInt64) : Prop :=
  ∀ item ∈ cfg.items.rows.search itemid, itemid ∉ ids → item.location = .queue →
    cfg.RemovalFits cfg.nextcheckAt item.pollerType itemid

instance (cfg : Config) (row : ItemRow) : Decidable (cfg.RowFits env row) :=
  inferInstanceAs (Decidable (∀ item ∈ cfg.items.rows.search row.itemid, _))

instance (ids : List UInt64) (cfg : Config) (itemid : UInt64) :
    Decidable (SweepFits ids cfg itemid) :=
  inferInstanceAs (Decidable (∀ item ∈ cfg.items.rows.search itemid, _))

theorem Ranked.syncItemsRow (h : cfg.Ranked) (hplaced : cfg.Placed) {now : ℤ} {row : ItemRow}
    (hfits : cfg.RowFits env row) (hrow : cfg.syncItemsRow env now row = some cfg') :
  cfg'.Ranked
  := by
  unfold Config.syncItemsRow at hrow
  obtain ⟨items, hitems, hupdate⟩ := Option.bind_eq_some_iff.mp hrow
  have hrows := search_writeRow env hitems
  have hqueues : (cfg.writeRow env now row items).queues = cfg.queues := rfl
  have hnext : ∀ j, j ≠ row.itemid →
      (cfg.writeRow env now row items).nextcheckAt j = cfg.nextcheckAt j := by
    intro j hj
    rw [nextcheckAt_update hrows, Function.update_of_ne hj]
  have hitem : (cfg.writeRow env now row items).items.rows.search row.itemid =
      some (cfg.loadItem env now row (cfg.items.rows.search row.itemid)) := by
    rw [hrows, Function.update_self]
  have hbut : (cfg.writeRow env now row items).SortedBut
      (cfg.writeRow env now row items).nextcheckAt row.itemid :=
    Sorted.sortedBut h hplaced.arranged hqueues hnext
  have harr : (cfg.writeRow env now row items).Arranged cfg.place := hplaced.arranged
  cases hold : cfg.items.rows.search row.itemid with
  | none =>
    rw [hold] at hitem hupdate
    have hnowhere : (cfg.loadItem env now row none).location = .nowhere := rfl
    apply hbut.updateItemQueue env hitem harr _ _ _ _ hupdate
    · simp [Config.place, hold, hnowhere]
    · simp [hnowhere]
    · simp [hnowhere]
    · simp [hnowhere]
  | some old =>
    rw [hold] at hitem hupdate
    obtain ⟨hplace, htyped⟩ := hplaced.place_eq hold
    apply hbut.updateItemQueue env hitem harr hplace htyped _ _ hupdate
    · intro hqueue hmove
      exact (hfits old hold hqueue hmove).congr hplaced.arranged hqueues hnext
    · intro _ _ heq
      have hsame : (cfg.writeRow env now row items).nextcheckAt = cfg.nextcheckAt := by
        rw [nextcheckAt_update hrows, hold, ← heq, Option.elim_some, ← nextcheckAt_eq hold,
          Function.update_eq_self]
      rw [hsame]
      exact h

/-- An item that is dequeued is in no queue, and the queues of the others stay ordered. -/
theorem Ranked.dequeue (h : cfg.Ranked) (hplaced : cfg.Placed)
    (hitem : cfg.items.rows.search itemid = some item)
    (hfits : item.location = .queue → cfg.RemovalFits cfg.nextcheckAt item.pollerType itemid)
    (hdequeue : (cfg.removeParts itemid item).dequeue env itemid item = some cfg') :
  cfg'.Ranked ∧ cfg'.items = cfg.items ∧ ∃ p, cfg'.Arranged p ∧ p itemid = none
  := by
  obtain ⟨hplace, htyped⟩ := hplaced.place_eq hitem
  have harr : (cfg.removeParts itemid item).Arranged cfg.place := hplaced.arranged
  unfold Config.dequeue at hdequeue
  by_cases hqueue : item.location = .queue
  · obtain ⟨type, htype⟩ := Option.ne_none_iff_exists'.mp (htyped hqueue)
    rw [if_pos hqueue, htype] at hplace hdequeue
    have hbut : (cfg.removeParts itemid item).SortedBut
        (cfg.removeParts itemid item).nextcheckAt itemid :=
      Sorted.sortedBut h hplaced.arranged rfl fun _ _ => rfl
    have hremoval : (cfg.removeParts itemid item).RemovalFits
        (cfg.removeParts itemid item).nextcheckAt (some type) itemid := htype ▸ hfits hqueue
    have hsorted := hbut.removeQueue env harr hplace hremoval hdequeue
    obtain ⟨queue, heq, -, harr'⟩ := harr.removeQueue env hplace
    rw [hdequeue, Option.some.injEq] at heq
    rw [heq] at hsorted ⊢
    exact ⟨hsorted, rfl, _, harr', Function.update_self _ _ _⟩
  · rw [if_neg hqueue] at hplace hdequeue
    rw [← Option.some.inj hdequeue]
    exact ⟨h, rfl, _, harr, hplace⟩

theorem Ranked.sweepItem (h : cfg.Ranked) (hplaced : cfg.Placed) {now : ℤ} {ids : List UInt64}
    (hfits : SweepFits ids cfg itemid) (hsweep : cfg.sweepItem env now ids itemid = some cfg') :
  cfg'.Ranked
  := by
  unfold Config.sweepItem at hsweep
  by_cases hmem : itemid ∈ ids
  · rw [if_pos hmem, Option.some.injEq] at hsweep
    rw [← hsweep]
    exact h
  · rw [if_neg hmem] at hsweep
    unfold Config.removeItem at hsweep
    cases hitem : cfg.items.rows.search itemid with
    | none =>
      rw [hitem, Option.elim_none, Option.some.injEq] at hsweep
      rw [← hsweep]
      exact h
    | some item =>
      rw [hitem, Option.elim_some] at hsweep
      by_cases hjmx : item.type = .jmx ∧ cfg.jmxitems.search itemid = none
      · rw [if_pos hjmx] at hsweep
        contradiction
      · rw [if_neg hjmx] at hsweep
        obtain ⟨cfg₁, hdequeue, hsweep⟩ := Option.bind_eq_some_iff.mp hsweep
        obtain ⟨items, hitems, hsweep⟩ := Option.bind_eq_some_iff.mp hsweep
        obtain ⟨hranked, -, p, harr, hout⟩ :=
          h.dequeue env hplaced hitem (hfits item hitem hmem) hdequeue
        rw [← Option.some.inj hsweep]
        have hnext : ∀ j, j ≠ itemid →
            nextcheckAt { cfg₁ with items } j = cfg₁.nextcheckAt j := by
          intro j hj
          unfold nextcheckAt itemAt
          dsimp only
          rw [IndexSchema.removeRow_rows hitems, Function.update_of_ne hj]
        have hbut : SortedBut { cfg₁ with items } (nextcheckAt { cfg₁ with items }) itemid :=
          Sorted.sortedBut hranked harr rfl hnext
        have harr' : Arranged { cfg₁ with items } p := harr
        exact hbut.sorted harr' hout

/-- A load that moves and removes items only where the removal fits. -/
def LoadFits (cfg : Config) (now : ℤ) (rows : List ItemRow) : Prop :=
  MeetsAll (syncItemsRow env now) (RowFits env) cfg rows ∧
    ∀ cfg₁ ∈ rows.foldlM (syncItemsRow env now) cfg,
      MeetsAll (sweepItem env now (rows.map (·.itemid))) (SweepFits (rows.map (·.itemid))) cfg₁
        (env.visit.arrange cfg₁.items.rows.keys)

instance (cfg : Config) (now : ℤ) (rows : List ItemRow) :
    Decidable (cfg.LoadFits env now rows) :=
  inferInstanceAs (Decidable (_ ∧ ∀ cfg₁ ∈ rows.foldlM (Config.syncItemsRow env now) cfg, _))

theorem Ranked.syncItems (h : cfg.Ranked) (hplaced : cfg.Placed) {now : ℤ}
    {rows : List ItemRow} (hfits : cfg.LoadFits env now rows)
    (hsync : cfg.syncItems env now rows = some cfg') :
  cfg'.Ranked
  := by
  unfold Config.syncItems IndexSchema.load at hsync
  obtain ⟨cfg₁, hrows, hsweeps⟩ := Option.bind_eq_some_iff.mp hsync
  have hafter : cfg₁.Ranked ∧ cfg₁.Placed := by
    apply foldlM_meets hrows hfits.1 ⟨h, hplaced⟩
    intro c row c' ⟨hc, hp⟩ hfit hstep
    exact ⟨hc.syncItemsRow env hp hfit hstep, (hp.syncItemsRow_eq env hstep).1⟩
  have hend : cfg'.Ranked ∧ cfg'.Placed := by
    apply foldlM_meets hsweeps (hfits.2 cfg₁ hrows) hafter
    intro c itemid c' ⟨hc, hp⟩ hfit hstep
    exact ⟨hc.sweepItem env hp hfit hstep, (hp.sweepItem env hstep).1⟩
  exact hend.1

/-! ### Taking items -/

/-- The item at the place of a `nextcheck` that may have changed gets a new one. -/
theorem SortedBut.reschedule (h : cfg.SortedBut cfg.nextcheckAt itemid) (hplaced : cfg.Placed)
    (hitem : cfg.items.rows.search itemid = some item) {pollerType : Option PollerType}
    {nextcheck : ℤ}
    (hfits : item.location = .queue → item.pollerType ≠ pollerType →
      cfg.RemovalFits cfg.nextcheckAt item.pollerType itemid)
    (hsame : item.location = .queue → item.pollerType = pollerType →
      item.nextcheck = nextcheck → cfg.Ranked)
    (hupdate : cfg.reschedule env itemid item pollerType nextcheck = some cfg') :
  cfg'.Ranked
  := by
  obtain ⟨hplace, htyped⟩ := hplaced.place_eq hitem
  have hrows := search_setItem cfg itemid { item with pollerType, nextcheck }
  have hin : (cfg.setItem itemid { item with pollerType, nextcheck }).items.rows.search itemid =
      some { item with pollerType, nextcheck } := by
    rw [hrows, Function.update_self]
  have harr : (cfg.setItem itemid { item with pollerType, nextcheck }).Arranged cfg.place :=
    hplaced.arranged
  have hnext : ∀ j, j ≠ itemid →
      (cfg.setItem itemid { item with pollerType, nextcheck }).nextcheckAt j =
        cfg.nextcheckAt j := by
    intro j hj
    rw [nextcheckAt_update hrows, Function.update_of_ne hj]
  apply (h.congr hplaced.arranged rfl hnext).updateItemQueue env hin harr hplace htyped _ _
    hupdate
  · intro hqueue hmove
    exact (hfits hqueue hmove).congr hplaced.arranged rfl hnext
  · intro hqueue htype heq
    have hsamenext : (cfg.setItem itemid { item with pollerType, nextcheck }).nextcheckAt =
        cfg.nextcheckAt := by
      rw [nextcheckAt_update hrows, ← heq, ← nextcheckAt_eq hitem, Function.update_eq_self]
    rw [hsamenext]
    exact hsame hqueue htype heq

/-- A change of the location alone does not matter for the order. -/
theorem Ranked.setLocation (h : cfg.Ranked) (hitem : cfg.items.rows.search itemid = some item)
    (location : Location) :
  (cfg.setItem itemid { item with location }).Ranked
  := by
  unfold Ranked
  rw [nextcheckAt_setItem hitem]
  exact h

/-- An item that is in no queue gets another poller type and `nextcheck`. -/
theorem Ranked.reschedule (h : cfg.Ranked) (hplaced : cfg.Placed)
    (hitem : cfg.items.rows.search itemid = some item) (hloc : item.location ≠ .queue)
    {pollerType : Option PollerType} {nextcheck : ℤ}
    (hupdate : cfg.reschedule env itemid item pollerType nextcheck = some cfg') :
  cfg'.Ranked
  := by
  have hbut : cfg.SortedBut cfg.nextcheckAt itemid :=
    Sorted.sortedBut h hplaced.arranged rfl fun _ _ => rfl
  apply hbut.reschedule env hplaced hitem _ _ hupdate
  · intro hqueue
    contradiction
  · intro hqueue
    contradiction

theorem Ranked.pollHost (h : cfg.Ranked) (hplaced : cfg.Placed)
    (hitem : cfg.items.rows.search itemid = some item) (hloc : item.location = .nowhere)
    {pollerType : PollerType} {now : ℤ} {host : Host} {round : Round}
    (hround : cfg.pollHost env pollerType now itemid item host = some round)
    (hcfg' : round.config = some cfg') :
  cfg'.Ranked
  := by
  have hskip : ∀ pollerType nextcheck,
      (cfg.reschedule env itemid item pollerType nextcheck).map Round.skip = some round →
      cfg'.Ranked := by
    intro pollerType nextcheck heq
    obtain ⟨cfg₁, hupdate, rfl⟩ := Option.map_eq_some_iff.mp heq
    obtain rfl : cfg₁ = cfg' := Option.some.inj hcfg'
    exact h.reschedule env hplaced hitem (by simp [hloc]) hupdate
  unfold Config.pollHost at hround
  dsimp only at hround
  split at hround
  · exact hskip _ _ hround
  · split at hround
    · split at hround
      · exact hskip _ _ hround
      · obtain rfl := Option.some.inj hround
        obtain rfl := Option.some.inj hcfg'
        exact h.setLocation hitem .poller
    · split at hround
      · exact hskip _ _ hround
      · split at hround
        · exact hskip _ _ hround
        · obtain rfl := Option.some.inj hround
          obtain rfl := Option.some.inj hcfg'
          have hhost : (cfg.setHost item.hostid
              (increaseDisableUntil env item host now)).Ranked := h
          exact hhost.setLocation hitem .poller

/-- The last item fits into the place of the first one. -/
theorem Ranked.removeMin (h : cfg.Ranked) (hplaced : cfg.Placed) {type : PollerType}
    {queue : BinaryHeap UInt64}
    (hremove : (cfg.queues type).removeMin (cfg.elemCompare env type) = some queue) :
  (cfg.setQueue type queue).Ranked
  := by
  have hne : (cfg.queues type).elemsNum ≠ 0 := by
    intro h0
    unfold BinaryHeap.removeMin at hremove
    rw [if_pos h0] at hremove
    contradiction
  rw [BinaryHeap.removeMin_eq hne, Option.some.injEq] at hremove
  apply Sorted.setQueue
  · rw [← hremove]
    apply (BinaryHeap.removeAt_spec (elemCompare_respects env cfg type)
      (hplaced.arranged type).sound (h type).orderedBut (Nat.pos_of_ne_zero hne)).2.mpr
    intro h0
    contradiction
  · intro type' _
    exact h type'

theorem Ranked.pollRound (h : cfg.Ranked) (hplaced : cfg.Placed) {pollerType : PollerType}
    {now : ℤ} {taken : List UInt64} {round : Round}
    (hround : cfg.pollRound env pollerType now taken = some round)
    (hcfg' : round.config = some cfg') :
  cfg'.Ranked
  := by
  have hstop : round ≠ .stop := by
    rintro rfl
    contradiction
  unfold Config.pollRound at hround
  cases hmin : (cfg.queues pollerType).findMin with
  | none =>
    rw [hmin, Option.some.injEq] at hround
    exact absurd hround.symm hstop
  | some min =>
    obtain ⟨item, queue, hitem, -, hqueue, hplaced₁⟩ := hplaced.removeMin env hmin
    have hremoved : (cfg.setQueue pollerType queue).items.rows.search min.data = some item :=
      hitem
    have hranked := (h.removeMin env hplaced hqueue).setLocation hremoved .nowhere
    simp only [hmin, hitem, hqueue, Option.bind_eq_bind, Option.bind_some] at hround
    split at hround
    · exact absurd (Option.some.inj hround).symm hstop
    · split at hround
      · exact absurd (Option.some.inj hround).symm hstop
      · split at hround
        · obtain rfl := Option.some.inj hround
          obtain rfl := Option.some.inj hcfg'
          exact hranked
        · split at hround
          · obtain rfl := Option.some.inj hround
            obtain rfl := Option.some.inj hcfg'
            exact hranked
          · have hout : ((cfg.setQueue pollerType queue).setItem min.data
                { item with location := .nowhere }).items.rows.search min.data =
                  some { item with location := .nowhere } := Table.search_set_self _ _ _
            exact hranked.pollHost env hplaced₁ hout rfl hround hcfg'

theorem Ranked.getPollerItems {pollerType : PollerType} {maxItems : ℕ} {now : ℤ} (rounds : ℕ)
    {taken taken' : List UInt64} (h : cfg.Ranked) (hplaced : cfg.Placed)
    (hget : cfg.getPollerItems env pollerType maxItems now rounds taken = some (cfg', taken')) :
  cfg'.Ranked ∧ cfg'.Placed
  := by
  apply getPollerItems_invariant (fun c _ => c.Ranked ∧ c.Placed) _ _ rounds ⟨h, hplaced⟩ hget
  · intro c t c' ⟨hc, hp⟩ hround
    exact ⟨hc.pollRound env hp hround rfl, hp.of_pollRound env hround rfl⟩
  · intro c t c' itemid ⟨hc, hp⟩ hround
    exact ⟨hc.pollRound env hp hround rfl, hp.of_pollRound env hround rfl⟩

/-! ### Returning items -/

/-- An item in a queue that gets a `nextcheck` and goes to the queue of a poller type, if
there is one: when it stays in its queue the `nextcheck` is the one it has, and when it
leaves the removal fits. -/
def MoveFits (cfg : Config) (itemid : UInt64) (item : Item) (nextcheck : ℤ)
    (pollerType : Option (Option PollerType)) : Prop :=
  item.location = .queue →
    if pollerType.getD item.pollerType = item.pollerType then nextcheck = item.nextcheck
    else cfg.RemovalFits cfg.nextcheckAt item.pollerType itemid

instance (cfg : Config) (itemid : UInt64) (item : Item) (nextcheck : ℤ)
    (pollerType : Option (Option PollerType)) :
    Decidable (cfg.MoveFits itemid item nextcheck pollerType) :=
  inferInstanceAs (Decidable (_ → ite _ _ _))

theorem MoveFits.stays {nextcheck : ℤ} {pollerType : Option PollerType}
    (h : cfg.MoveFits itemid item nextcheck (some pollerType)) (hqueue : item.location = .queue)
    (htype : item.pollerType = pollerType) :
  nextcheck = item.nextcheck
  := by
  have h := h hqueue
  rw [Option.getD_some, if_pos htype.symm] at h
  exact h

theorem MoveFits.leaves {nextcheck : ℤ} {pollerType : Option PollerType}
    (h : cfg.MoveFits itemid item nextcheck (some pollerType)) (hqueue : item.location = .queue)
    (htype : item.pollerType ≠ pollerType) :
  cfg.RemovalFits cfg.nextcheckAt item.pollerType itemid
  := by
  have h := h hqueue
  rw [Option.getD_some, if_neg (Ne.symm htype)] at h
  exact h

/-- An item that is taken back moves as it fits. -/
def RequeueFits (now : ℤ) (cfg : Config) (r : Requeue) : Prop :=
  ∀ item ∈ cfg.items.rows.search r.itemid,
    match r.errcode with
    | .succeed | .notSupported | .agentError =>
      cfg.MoveFits r.itemid item
        (cfg.getReachableNextcheck env r.itemid (storeResult item r) r.lastclock)
        (cfg.reachableType env item)
    | .networkError | .gatewayError =>
      ∀ host ∈ cfg.hosts.rows.search item.hostid,
        cfg.MoveFits r.itemid item
          (cfg.getUnreachableNextcheck env r.itemid (storeResult item r) host now)
          (some (unreachableType item))
    | .fail | .timeoutError => True

instance (now : ℤ) (cfg : Config) (r : Requeue) : Decidable (cfg.RequeueFits env now r) := by
  unfold RequeueFits
  cases r.errcode <;> infer_instance

theorem release_location_queue (item : Item) :
  (release item).location = .queue ↔ item.location = .queue
  := by
  unfold release
  split
  · rename_i hloc
    simp [hloc]
  · rfl

theorem release_pollerType (item : Item) :
  (release item).pollerType = item.pollerType
  := by
  unfold release
  split <;> rfl

theorem release_nextcheck (item : Item) :
  (release item).nextcheck = item.nextcheck
  := by
  unfold release
  split <;> rfl

/-- An item whose `nextcheck` may have changed is released and goes to the queue of a poller
type. -/
theorem SortedBut.rescheduleReleased (h : cfg.SortedBut cfg.nextcheckAt itemid)
    (hplaced : cfg.Placed) (hitem : cfg.items.rows.search itemid = some item)
    {pollerType : Option PollerType}
    (hfits : item.location = .queue → item.pollerType ≠ pollerType →
      cfg.RemovalFits cfg.nextcheckAt item.pollerType itemid)
    (hsame : item.location = .queue → item.pollerType = pollerType → cfg.Ranked)
    (hupdate : (cfg.setItem itemid (release item)).reschedule env itemid (release item)
      pollerType (release item).nextcheck = some cfg') :
  cfg'.Ranked
  := by
  have hrows := search_setItem cfg itemid (Config.release item)
  have hin : (cfg.setItem itemid (Config.release item)).items.rows.search itemid =
      some (Config.release item) := by
    rw [hrows, Function.update_self]
  have hnext : (cfg.setItem itemid (Config.release item)).nextcheckAt = cfg.nextcheckAt := by
    rw [nextcheckAt_update hrows, release_nextcheck, ← nextcheckAt_eq hitem,
      Function.update_eq_self]
  have hbut : (cfg.setItem itemid (Config.release item)).SortedBut
      (cfg.setItem itemid (Config.release item)).nextcheckAt itemid := by
    rw [hnext]
    exact h
  apply hbut.reschedule env (hplaced.release hitem) hin _ _ hupdate
  · rw [release_location_queue, release_pollerType, hnext]
    exact hfits
  · rw [release_location_queue, release_pollerType]
    intro hqueue htype _
    unfold Ranked
    rw [hnext]
    exact hsame hqueue htype

theorem Ranked.requeueAs (h : cfg.Ranked) (hplaced : cfg.Placed)
    (hitem : cfg.items.rows.search itemid = some item) {nextcheck : ℤ}
    {pollerType : Option (Option PollerType)}
    (hfits : cfg.MoveFits itemid item nextcheck pollerType)
    (hrequeue : cfg.requeueAs env itemid item nextcheck pollerType = some cfg') :
  cfg'.Ranked
  := by
  obtain ⟨hplace, htyped⟩ := hplaced.place_eq hitem
  have hset : (cfg.setItem itemid { item with nextcheck }).Placed :=
    hplaced.setItem hplace.symm htyped
  have hrows := search_setItem cfg itemid { item with nextcheck }
  have hin : (cfg.setItem itemid { item with nextcheck }).items.rows.search itemid =
      some { item with nextcheck } := by
    rw [hrows, Function.update_self]
  have hnext : ∀ j, j ≠ itemid →
      (cfg.setItem itemid { item with nextcheck }).nextcheckAt j = cfg.nextcheckAt j := by
    intro j hj
    rw [nextcheckAt_update hrows, Function.update_of_ne hj]
  have hbut : (cfg.setItem itemid { item with nextcheck }).SortedBut
      (cfg.setItem itemid { item with nextcheck }).nextcheckAt itemid :=
    Sorted.sortedBut h hplaced.arranged rfl hnext
  -- only in a queue, and with another `nextcheck`, the item may be in the wrong place
  have hranked : (item.location = .queue → nextcheck = item.nextcheck) →
      (cfg.setItem itemid { item with nextcheck }).Ranked := by
    intro hkeep
    by_cases hqueue : item.location = .queue
    · unfold Ranked
      rw [nextcheckAt_update hrows, hkeep hqueue, ← nextcheckAt_eq hitem,
        Function.update_eq_self]
      exact h
    · apply hbut.sorted hset.arranged
      rw [place_update hrows, Function.update_self]
      exact if_neg hqueue
  unfold Config.requeueAs at hrequeue
  by_cases hnone : item.pollerType = none
  · rw [if_pos hnone, Option.some.injEq] at hrequeue
    rw [← hrequeue]
    exact hranked fun hqueue => absurd hnone (htyped hqueue)
  · rw [if_neg hnone] at hrequeue
    cases pollerType with
    | none =>
      rw [Option.elim_none, Option.some.injEq] at hrequeue
      have hreleased := hranked fun hqueue => by simpa using hfits hqueue
      rw [← hrequeue]
      unfold Ranked
      rw [nextcheckAt_update (search_setItem _ _ _), release_nextcheck, ← nextcheckAt_eq hin,
        Function.update_eq_self]
      exact hreleased
    | some pollerType =>
      apply hbut.rescheduleReleased env hset hin _ _ hrequeue
      · intro hqueue hne
        exact (hfits.leaves hqueue hne).congr hplaced.arranged rfl hnext
      · intro hqueue htype
        exact hranked fun _ => hfits.stays hqueue htype

theorem Ranked.requeueItem (h : cfg.Ranked) (hplaced : cfg.Placed) {now : ℤ} {r : Requeue}
    (hfits : cfg.RequeueFits env now r) (hrequeue : cfg.requeueItem env now r = some cfg') :
  cfg'.Ranked
  := by
  unfold Config.requeueItem at hrequeue
  by_cases hfail : r.errcode = .fail
  · rw [if_pos hfail, Option.some.injEq] at hrequeue
    rw [← hrequeue]
    exact h
  · rw [if_neg hfail] at hrequeue
    cases hitem : cfg.items.rows.search r.itemid with
    | none =>
      rw [hitem, Option.some.injEq] at hrequeue
      rw [← hrequeue]
      exact h
    | some item =>
      obtain ⟨hplace, htyped⟩ := hplaced.place_eq hitem
      have hset : (cfg.setItem r.itemid (storeResult item r)).Placed :=
        hplaced.setItem hplace.symm htyped
      have hrows := search_setItem cfg r.itemid (storeResult item r)
      have hin : (cfg.setItem r.itemid (storeResult item r)).items.rows.search r.itemid =
          some (storeResult item r) := by
        rw [hrows, Function.update_self]
      have hnext : (cfg.setItem r.itemid (storeResult item r)).nextcheckAt = cfg.nextcheckAt := by
        rw [nextcheckAt_update hrows]
        change Function.update cfg.nextcheckAt r.itemid item.nextcheck = _
        rw [← nextcheckAt_eq hitem, Function.update_eq_self]
      have hstored : (cfg.setItem r.itemid (storeResult item r)).Ranked := by
        unfold Ranked
        rw [hnext]
        exact h
      have hmove : ∀ nextcheck pollerType, cfg.MoveFits r.itemid item nextcheck pollerType →
          (cfg.setItem r.itemid (storeResult item r)).MoveFits r.itemid (storeResult item r)
            nextcheck pollerType := by
        intro nextcheck pollerType hfit
        unfold MoveFits
        rw [hnext]
        exact hfit
      have hfit := hfits item hitem
      rw [hitem] at hrequeue
      dsimp only at hrequeue
      have hreachable : cfg.MoveFits r.itemid item
            (cfg.getReachableNextcheck env r.itemid (storeResult item r) r.lastclock)
            (cfg.reachableType env item) →
          (cfg.setItem r.itemid (storeResult item r)).requeueReachableItem env r.itemid
            (storeResult item r) r.lastclock = some cfg' → cfg'.Ranked :=
        fun hfit heq => hstored.requeueAs env hset hin (hmove _ _ hfit) heq
      have hunreachable : (∀ host ∈ cfg.hosts.rows.search item.hostid,
            cfg.MoveFits r.itemid item
              (cfg.getUnreachableNextcheck env r.itemid (storeResult item r) host now)
              (some (unreachableType item))) →
          (cfg.setItem r.itemid (storeResult item r)).requeueUnreachableItem env r.itemid
            (storeResult item r) now = some cfg' → cfg'.Ranked := by
        intro hfit heq
        unfold Config.requeueUnreachableItem at heq
        cases hhost : (cfg.setItem r.itemid (storeResult item r)).hosts.rows.search
            (storeResult item r).hostid with
        | none =>
          rw [hhost, Option.elim_none, Option.some.injEq] at heq
          rw [← heq]
          exact hstored
        | some host =>
          rw [hhost] at heq
          exact hstored.requeueAs env hset hin (hmove _ _ (hfit host hhost)) heq
      cases herr : r.errcode with
      | fail => contradiction
      | timeoutError =>
        rw [herr, Option.some.injEq] at hrequeue
        rw [← hrequeue]
        exact hstored
      | succeed => 
        rw [herr] at hfit hrequeue
        exact hreachable hfit hrequeue
      | notSupported =>
        rw [herr] at hfit hrequeue
        exact hreachable hfit hrequeue
      | agentError =>
        rw [herr] at hfit hrequeue
        exact hreachable hfit hrequeue
      | networkError =>
        rw [herr] at hfit hrequeue
        exact hunreachable hfit hrequeue
      | gatewayError =>
        rw [herr] at hfit hrequeue
        exact hunreachable hfit hrequeue

theorem Ranked.requeueItems (h : cfg.Ranked) (hplaced : cfg.Placed) {now : ℤ}
    {rs : List Requeue}
    (hfits : MeetsAll (Config.requeueItem env now) (RequeueFits env now) cfg rs)
    (hrequeue : cfg.requeueItems env now rs = some cfg') :
  cfg'.Ranked ∧ cfg'.Placed
  := by
  apply foldlM_meets hrequeue hfits ⟨h, hplaced⟩
  intro c r c' ⟨hc, hp⟩ hfit hstep
  exact ⟨hc.requeueItem env hp hfit hstep, hp.of_requeueItem env hstep⟩

end Config

namespace System

/-! ### The steps -/

/-- The steps that keep the queues in order: an item leaves the middle of a queue only
where the removal fits, and an item that is taken back while it is in a queue stays there
only with the `nextcheck` it has. -/
def KeepsOrder (env : Environment) (s : System) : Action → Prop
  | .syncItems now rows => s.config.LoadFits env now rows
  | .requeue _ now r => s.config.RequeueFits env now r
  | .receive now rs =>
    MeetsAll (Config.requeueItem env now) (Config.RequeueFits env now) s.config rs
  | .syncHosts _ | .setRefreshUnsupported _ | .setHostStatus _ _
  | .getPollerItems _ _ _ _ _ => True

instance (env : Environment) (s : System) : ∀ action, Decidable (s.KeepsOrder env action)
  | .syncItems now rows => inferInstanceAs (Decidable (s.config.LoadFits env now rows))
  | .requeue _ now r => inferInstanceAs (Decidable (s.config.RequeueFits env now r))
  | .receive _ rs => inferInstanceAs (Decidable (MeetsAll _ _ s.config rs))
  | .syncHosts _ | .setRefreshUnsupported _ | .setHostStatus _ _
  | .getPollerItems _ _ _ _ _ => inferInstanceAs (Decidable True)

variable {env : Environment} {s s' : System}

/-- The items are in their queues, and the queues are in order. -/
structure InOrder (s : System) : Prop where
  placed : s.config.Placed
  ranked : s.config.Ranked

theorem inOrder_initial (garbage : ℕ → Elem UInt64) (refreshUnsupported : ℤ) :
  (initial garbage refreshUnsupported).InOrder
  := by
  refine ⟨(heldOnce_initial garbage refreshUnsupported).placed, ?_⟩
  intro type i _ hi
  contradiction

theorem InOrder.step (h : s.InOrder) {action : Action} (hmeets : s.KeepsOrder env action)
    (hstep : s.step env action = some s') :
  s'.InOrder
  := by
  obtain ⟨hplaced, hranked⟩ := h
  cases action with
  | syncItems now rows =>
    obtain ⟨cfg', hsync, rfl⟩ := Option.map_eq_some_iff.mp hstep
    exact ⟨(hplaced.syncItems env hsync).1, hranked.syncItems env hplaced hmeets hsync⟩
  | syncHosts rows =>
    obtain ⟨hosts, -, rfl⟩ := Option.map_eq_some_iff.mp hstep
    exact ⟨⟨hplaced.arranged, hplaced.typed⟩, hranked⟩
  | setRefreshUnsupported seconds =>
    obtain rfl := Option.some.inj hstep
    exact ⟨⟨hplaced.arranged, hplaced.typed⟩, hranked⟩
  | setHostStatus hostid status =>
    obtain ⟨host, -, rfl⟩ := Option.map_eq_some_iff.mp hstep
    exact ⟨⟨hplaced.arranged, hplaced.typed⟩, hranked⟩
  | getPollerItems poller pollerType maxItems now rounds =>
    obtain ⟨⟨cfg', taken⟩, hget, rfl⟩ := Option.map_eq_some_iff.mp hstep
    obtain ⟨hranked', hplaced'⟩ := hranked.getPollerItems env rounds hplaced hget
    exact ⟨hplaced', hranked'⟩
  | requeue poller now r =>
    simp only [System.step] at hstep
    by_cases hguard : (poller, r.itemid) ∈ s.held ∧ r.errcode.Polled
    · rw [if_pos hguard] at hstep
      obtain ⟨cfg', hrequeue, rfl⟩ := Option.map_eq_some_iff.mp hstep
      exact ⟨hplaced.of_requeueItem env hrequeue, hranked.requeueItem env hplaced hmeets hrequeue⟩
    · rw [if_neg hguard] at hstep
      contradiction
  | receive now rs =>
    obtain ⟨cfg', hrequeue, rfl⟩ := Option.map_eq_some_iff.mp hstep
    obtain ⟨hranked', hplaced'⟩ := hranked.requeueItems env hplaced hmeets hrequeue
    exact ⟨hplaced', hranked'⟩

/-! ### Runs -/

/-- An item is in the queue of its poller type exactly when it is located in a queue, it is
in no other queue, every entry of a queue is a cached item, and the first entry of a queue
has the least current `nextcheck` of all. -/
structure QueuesConsistent (cfg : Config) : Prop where
  queued : ∀ itemid item, cfg.items.rows.search itemid = some item →
    (item.location = .queue ↔ ∃ type, item.pollerType = some type ∧
      ⟨itemid, itemid⟩ ∈ (cfg.queues type).contents)
  alone : ∀ itemid item, cfg.items.rows.search itemid = some item →
    ∀ type, item.pollerType ≠ some type → ∀ e ∈ (cfg.queues type).contents, e.key ≠ itemid
  live : ∀ type, ∀ e ∈ (cfg.queues type).contents,
    e.data = e.key ∧ cfg.items.rows.search e.key ≠ none
  least : ∀ type min, (cfg.queues type).findMin = some min →
    ∀ e ∈ (cfg.queues type).contents, cfg.nextcheckAt min.data ≤ cfg.nextcheckAt e.data

theorem InOrder.queuesConsistent (h : s.InOrder) (env : Environment) :
  QueuesConsistent s.config
  := by
  obtain ⟨hplaced, hranked⟩ := h
  have hholds := hplaced.arranged
  constructor
  · intro itemid item hitem
    obtain ⟨hplace, htyped⟩ := hplaced.place_eq hitem
    constructor
    · intro hqueue
      obtain ⟨type, htype⟩ := Option.ne_none_iff_exists'.mp (htyped hqueue)
      rw [if_pos hqueue, htype] at hplace
      obtain ⟨⟨key, data⟩, he, rfl⟩ := ((hholds type).keys itemid).mpr hplace
      obtain rfl : data = key := (hholds type).elem _ he
      exact ⟨type, htype, he⟩
    · rintro ⟨type, htype, he⟩
      have hkey := ((hholds type).keys itemid).mp ⟨_, he, rfl⟩
      rw [hplace] at hkey
      by_contra hne
      rw [if_neg hne] at hkey
      contradiction
  · intro itemid item hitem type htype e he hkey
    have hin := ((hholds type).keys itemid).mp ⟨e, he, hkey⟩
    rw [(hplaced.place_eq hitem).1] at hin
    split at hin
    · exact htype hin
    · contradiction
  · intro type e he
    refine ⟨(hholds type).elem e he, ?_⟩
    have hin := ((hholds type).keys e.key).mp ⟨e, he, rfl⟩
    intro hnone
    rw [Config.place, hnone] at hin
    contradiction
  · intro type min hmin
    exact BinaryHeap.findMin_le (Config.elemCompare_respects env s.config type) (hranked type) hmin

/-- In every run whose steps keep the order the queues are consistent. -/
theorem run_queuesConsistent {garbage : ℕ → Elem UInt64} {refreshUnsupported : ℤ}
    {actions : List Action}
    (run : Run (StepOf (System.step env)) (KeepsOrder env) (initial garbage refreshUnsupported)
      actions s) :
  QueuesConsistent s.config
  := by
  apply InOrder.queuesConsistent _ env
  apply run.invariant (inOrder_initial garbage refreshUnsupported)
  intro s action s' h hmeets hstep
  exact h.step hmeets hstep

theorem served_queuesConsistent :
  (served.config.queues .normal).elemsNum = 3 ∧ QueuesConsistent served.config
  := by
  refine ⟨by decide +kernel, ?_⟩
  apply run_queuesConsistent
  apply Run.of_execute (Option.some_get serve_isSome).symm
  decide +kernel

/-! ### Runs after which a queue is out of order -/

/-- A value of a trapper item is received. Before it is processed to the end, the item
becomes an agent item and is queued. -/
def retypedRun : List Action :=
  [.syncHosts [sampleHost],
    .syncItems 0 [sampleRow 1 0 30, { sampleRow 2 0 20 with type := .trapper }],
    .syncItems 0 [sampleRow 1 0 30, sampleRow 2 0 20], .receive 1000 [sampleResult 2 1000]]

/-- Twelve items with their delays, in the order in which they are queued. -/
def twelveRows : List ItemRow :=
  [sampleRow 1 0 1, sampleRow 2 0 10, sampleRow 3 0 2, sampleRow 4 0 11, sampleRow 5 0 12,
    sampleRow 6 0 3, sampleRow 7 0 13, sampleRow 8 0 14, sampleRow 9 0 15, sampleRow 10 0 16,
    sampleRow 11 0 17, sampleRow 12 0 4]

/-- One of the twelve items is removed, and then a poller takes the first three. -/
def removedRun : List Action :=
  [.syncHosts [sampleHost], .syncItems 0 twelveRows,
    .syncItems 0 (twelveRows.filter fun row => row.itemid ≠ 4),
    .getPollerItems 0 .normal 3 3 4]

theorem unorderedRuns_isSome :
  ∀ actions ∈ [retypedRun, removedRun],
    (execute (System.step sampleEnvironment) sampleStart actions).isSome
  := by decide +kernel

theorem retypedRun_isSome :
  (execute (System.step sampleEnvironment) sampleStart retypedRun).isSome
  := unorderedRuns_isSome _ (.head _)

theorem removedRun_isSome :
  (execute (System.step sampleEnvironment) sampleStart removedRun).isSome
  := unorderedRuns_isSome _ (.tail _ (.head _))

/-- The system after `retypedRun`. -/
def retyped : System := (execute _ sampleStart retypedRun).get retypedRun_isSome

/-- The system after `removedRun`. -/
def removed : System := (execute _ sampleStart removedRun).get removedRun_isSome

/-- The first entry of a queue is due after another one. -/
structure Unordered (cfg : Config) (type : PollerType) (min e : Elem UInt64) : Prop where
  first : (cfg.queues type).findMin = some min
  waits : e ∈ (cfg.queues type).contents
  later : cfg.nextcheckAt e.data < cfg.nextcheckAt min.data

theorem Unordered.not_consistent {cfg : Config} {type : PollerType} {min e : Elem UInt64}
    (h : Unordered cfg type min e) :
  ¬ QueuesConsistent cfg
  := by
  intro hconsistent
  exact absurd (hconsistent.least type min h.first e h.waits) (not_le_of_gt h.later)

/-- After `retypedRun` the first item of the queue is due at 1020 and one that is due at 30
waits behind it. After `removedRun` the first is due at 10, and one that is due at 4 waits.
In neither state the queues are consistent. -/
theorem retyped_or_removed_unordered :
  (execute (System.step sampleEnvironment) sampleStart retypedRun = some retyped ∧
    (retyped.config.queues .normal).findMin = some ⟨2, 2⟩ ∧
    retyped.config.nextcheckAt 2 = 1020 ∧ retyped.config.nextcheckAt 1 = 30 ∧
    ¬ QueuesConsistent retyped.config) ∧
  (execute (System.step sampleEnvironment) sampleStart removedRun = some removed ∧
    (removed.config.queues .normal).findMin = some ⟨2, 2⟩ ∧
    removed.config.nextcheckAt 2 = 10 ∧ removed.config.nextcheckAt 12 = 4 ∧
    ¬ QueuesConsistent removed.config)
  := by
  have hretyped : Unordered retyped.config .normal ⟨2, 2⟩ ⟨1, 1⟩ := by
    constructor <;> decide +kernel
  have hremoved : Unordered removed.config .normal ⟨2, 2⟩ ⟨12, 12⟩ := by
    constructor <;> decide +kernel
  constructor
  · refine ⟨(Option.some_get retypedRun_isSome).symm, hretyped.first, ?_, ?_,
      hretyped.not_consistent⟩ <;> decide +kernel
  · refine ⟨(Option.some_get removedRun_isSome).symm, hremoved.first, ?_, ?_,
      hremoved.not_consistent⟩ <;> decide +kernel

end System

end DbConfig
