import Zabbix.Config.Placement

/-!
# What the steps do to the items

For each step of the cache: it keeps the items placed, it does not fail for a reason that
has to do with the queues, and it changes the items as stated. Whether a load fails is
then a matter of the indexes alone.
-/

open BinaryHeap (Elem)

namespace DbConfig

namespace Config

variable (env : Environment) {cfg cfg' : Config} {itemid : UInt64} {item : Item}

/-! ### Loading the items -/

theorem loadItem_location (env : Environment) (cfg : Config) (now : ℤ) (row : ItemRow)
    (found : Option Item) :
  (cfg.loadItem env now row found).location = found.elim .nowhere (·.location)
  := rfl

theorem search_writeRow {now : ℤ} {row : ItemRow}
    {items : IndexedTable UInt64 (UInt64 × String) Item}
    (hsync : (itemSchema now).syncRow cfg.items row = some items) :
  (cfg.writeRow env now row items).items.rows.search =
    Function.update cfg.items.rows.search row.itemid
      (some (cfg.loadItem env now row (cfg.items.rows.search row.itemid)))
  := by
  unfold writeRow
  dsimp only
  rw [Table.search_set, IndexSchema.syncRow_rows hsync, Table.search_set]
  exact Function.update_idem _ _ _

/-- A row stores its item, settled, when the index can be kept. -/
theorem Placed.syncItemsRow (h : cfg.Placed) {now : ℤ} {row : ItemRow}
    {items : IndexedTable UInt64 (UInt64 × String) Item}
    (hsync : (itemSchema now).syncRow cfg.items row = some items) :
  ∃ rows queues,
    cfg.syncItemsRow env now row =
      some ((cfg.writeRow env now row items).withItems rows queues) ∧
    rows.search = Function.update cfg.items.rows.search row.itemid
      (some (cfg.loadItem env now row (cfg.items.rows.search row.itemid)).settle) ∧
    ((cfg.writeRow env now row items).withItems rows queues).Placed
  := by
  have hqueues : (cfg.writeRow env now row items).queues = cfg.queues := rfl
  have hstored := cfg.loadItem_location env now row (cfg.items.rows.search row.itemid)
  unfold Config.syncItemsRow
  rw [hsync]
  simp only [Option.bind_eq_bind, Option.bind_some]
  apply Placed.updateItemQueue env _ h hqueues (search_writeRow env hsync)
  · rw [hstored]
    cases hfound : cfg.items.rows.search row.itemid with
    | none => simp [Config.place, hfound]
    | some old => exact (h.place_eq hfound).1
  · rw [hstored]
    cases hfound : cfg.items.rows.search row.itemid with
    | none => simp
    | some old => exact (h.place_eq hfound).2

/-- A row whose step succeeds kept the index. -/
theorem syncItemsRow_inv {now : ℤ} {row : ItemRow}
    (h : cfg.syncItemsRow env now row = some cfg') :
  ∃ items, (itemSchema now).syncRow cfg.items row = some items
  := by
  unfold Config.syncItemsRow at h
  obtain ⟨items, hitems, -⟩ := Option.bind_eq_some_iff.mp h
  exact ⟨items, hitems⟩

/-- An item that has to go is removed when its JMX credentials are there and the index
can be kept. -/
theorem Placed.removeItem (h : cfg.Placed) {now : ℤ}
    (hitem : cfg.items.rows.search itemid = some item)
    (hjmx : item.type = .jmx → cfg.jmxitems.search itemid ≠ none)
    {items : IndexedTable UInt64 (UInt64 × String) Item}
    (hremove : (itemSchema now).removeRow cfg.items itemid = some items) :
  ∃ queues,
    cfg.removeItem env now itemid =
      some { cfg.removeParts itemid item with items, queues } ∧
    { cfg.removeParts itemid item with items, queues }.Placed
  := by
  have hrows := IndexSchema.removeRow_rows hremove
  obtain ⟨hplace, htyped⟩ := h.place_eq hitem
  unfold Config.removeItem
  rw [hitem, Option.elim_some, if_neg (by simpa using hjmx)]
  by_cases hqueue : item.location = .queue
  · obtain ⟨type, htype⟩ := Option.ne_none_iff_exists'.mp (htyped hqueue)
    rw [if_pos hqueue, htype] at hplace
    have harr : (cfg.removeParts itemid item).Arranged cfg.place := h.arranged
    obtain ⟨queue, hq, -, harr'⟩ := harr.removeQueue env hplace
    have hremove' : (itemSchema now).removeRow
        ((cfg.removeParts itemid item).setQueue type queue).items itemid = some items :=
      hremove
    simp only [dequeue, if_pos hqueue, htype, hq, Option.bind_eq_bind, Option.bind_some,
      hremove']
    refine ⟨_, rfl, ?_, ?_⟩
    · rw [place_remove hrows]
      exact harr'
    · intro j item' hj
      dsimp only at hj
      rw [hrows] at hj
      by_cases hji : j = itemid
      · rw [hji, Function.update_self] at hj
        contradiction
      · rw [Function.update_of_ne hji] at hj
        apply h.typed j item' hj
  · rw [if_neg hqueue] at hplace
    have hremove' : (itemSchema now).removeRow (cfg.removeParts itemid item).items itemid =
      some items := hremove
    simp only [dequeue, if_neg hqueue, Option.bind_eq_bind, Option.bind_some, hremove']
    exact ⟨cfg.queues, rfl, h.remove rfl hrows hplace⟩

/-- An item whose removal succeeds had its parts and kept the index. -/
theorem removeItem_inv {now : ℤ} (hitem : cfg.items.rows.search itemid = some item)
    (h : cfg.removeItem env now itemid = some cfg') :
  (item.type = .jmx → cfg.jmxitems.search itemid ≠ none) ∧
    ∃ items, (itemSchema now).removeRow cfg.items itemid = some items
  := by
  unfold Config.removeItem at h
  rw [hitem, Option.elim_some] at h
  by_cases hjmx : item.type = .jmx ∧ cfg.jmxitems.search itemid = none
  · rw [if_pos hjmx] at h
    contradiction
  · rw [if_neg hjmx] at h
    refine ⟨by simpa using hjmx, ?_⟩
    obtain ⟨cfg₁, hcfg₁, h⟩ := Option.bind_eq_some_iff.mp h
    obtain ⟨items, hitems, -⟩ := Option.bind_eq_some_iff.mp h
    have hsame : cfg₁.items = cfg.items := by
      unfold dequeue at hcfg₁
      by_cases hqueue : item.location = .queue
      · rw [if_pos hqueue] at hcfg₁
        unfold Config.removeQueue at hcfg₁
        obtain ⟨type, -, hcfg₁⟩ := Option.bind_eq_some_iff.mp hcfg₁
        obtain ⟨queue, -, rfl⟩ := Option.map_eq_some_iff.mp hcfg₁
        rfl
      · rw [if_neg hqueue, Option.some.injEq] at hcfg₁
        rw [← hcfg₁]
        rfl
    exact ⟨items, hsame ▸ hitems⟩

theorem settle_location_poller (item : Item) :
  item.settle.location = .poller ↔ item.location = .poller
  := by
  unfold Item.settle
  dsimp only
  by_cases hloc : item.location = .poller
  · simp [hloc]
  · rw [if_neg hloc]
    cases item.pollerType <;> simp [hloc]

theorem settle_settle (item : Item) :
  item.settle.settle = item.settle
  := by
  apply Item.settle_of_location
  by_cases hloc : item.location = .poller
  · simp [Item.settle, hloc]
  · rcases htype : item.pollerType with _ | type <;> simp [Item.settle, hloc, htype]

/-- An item that stays is left alone, the others are removed. -/
theorem Placed.sweepItem (h : cfg.Placed) {now : ℤ} {ids : List UInt64}
    (hsweep : cfg.sweepItem env now ids itemid = some cfg') :
  cfg'.Placed ∧ cfg'.items.rows.search =
    if itemid ∈ ids then cfg.items.rows.search
    else Function.update cfg.items.rows.search itemid none
  := by
  unfold Config.sweepItem at hsweep
  by_cases hmem : itemid ∈ ids
  · rw [if_pos hmem, Option.some.injEq] at hsweep
    rw [if_pos hmem, ← hsweep]
    exact ⟨h, rfl⟩
  · rw [if_neg hmem] at hsweep ⊢
    cases hitem : cfg.items.rows.search itemid with
    | none =>
      unfold Config.removeItem at hsweep
      rw [hitem, Option.elim_none, Option.some.injEq] at hsweep
      rw [← hsweep, ← hitem, Function.update_eq_self]
      exact ⟨h, rfl⟩
    | some item =>
      obtain ⟨hjmx, items, hremove⟩ := removeItem_inv env hitem hsweep
      obtain ⟨queues, heq, hplaced⟩ := h.removeItem env hitem hjmx hremove
      rw [hsweep, Option.some.injEq] at heq
      rw [heq]
      exact ⟨hplaced, IndexSchema.removeRow_rows hremove⟩

/-- A row whose step succeeds stores its item, settled. -/
theorem Placed.syncItemsRow_eq (h : cfg.Placed) {now : ℤ} {row : ItemRow}
    (hrow : cfg.syncItemsRow env now row = some cfg') :
  cfg'.Placed ∧ cfg'.items.rows.search = Function.update cfg.items.rows.search row.itemid
    (some (cfg.loadItem env now row (cfg.items.rows.search row.itemid)).settle)
  := by
  obtain ⟨items, hitems⟩ := syncItemsRow_inv env hrow
  obtain ⟨rows, queues, heq, hrows, hplaced⟩ := h.syncItemsRow env hitems
  rw [hrow, Option.some.injEq] at heq
  rw [heq]
  exact ⟨hplaced, hrows⟩

/-- The rows leave the items with their pollers, and the items of the rows are settled. -/
theorem Placed.syncItemsRows (h : cfg.Placed) {now : ℤ} {rows : List ItemRow}
    (hrows : rows.foldlM (Config.syncItemsRow env now) cfg = some cfg') :
  cfg'.Placed ∧
    (∀ itemid item', cfg'.items.rows.search itemid = some item' →
      (item'.location = .poller ↔
        ∃ item, cfg.items.rows.search itemid = some item ∧ item.location = .poller)) ∧
    ∀ row ∈ rows, ∀ item', cfg'.items.rows.search row.itemid = some item' → item'.settle = item'
  := by
  -- no row removes an item
  let grows : Config → Prop := fun c => c.Placed ∧
    (∀ itemid item', c.items.rows.search itemid = some item' →
      (item'.location = .poller ↔
        ∃ item, cfg.items.rows.search itemid = some item ∧ item.location = .poller)) ∧
    ∀ itemid, c.items.rows.search itemid = none → cfg.items.rows.search itemid = none
  have hstart : grows cfg := by
    refine ⟨h, ?_, fun _ => id⟩
    intro itemid item' hitem
    simp [hitem]
  have hrow : ∀ c row c', row ∈ rows → grows c → c.syncItemsRow env now row = some c' →
      grows c' := by
    rintro c row c' _ ⟨hp, hs, hg⟩ hstep
    obtain ⟨hp', hsearch⟩ := hp.syncItemsRow_eq env hstep
    refine ⟨hp', ?_, ?_⟩
    · intro itemid item' hitem
      rw [hsearch] at hitem
      by_cases hid : itemid = row.itemid
      · rw [hid, Function.update_self, Option.some.injEq] at hitem
        rw [← hitem, settle_location_poller, loadItem_location, hid]
        cases hfound : c.items.rows.search row.itemid with
        | none => simp [hg _ hfound]
        | some old => exact hs _ old hfound
      · rw [Function.update_of_ne hid] at hitem
        exact hs itemid item' hitem
    · intro itemid hitem
      rw [hsearch] at hitem
      by_cases hid : itemid = row.itemid
      · rw [hid, Function.update_self] at hitem
        contradiction
      · rw [Function.update_of_ne hid] at hitem
        exact hg itemid hitem
  have hafter : grows cfg' := foldlM_invariant hrows hstart hrow
  refine ⟨hafter.1, hafter.2.1, ?_⟩
  apply foldlM_forall (fun row c => ∀ item', c.items.rows.search row.itemid = some item' →
    item'.settle = item') hrows hstart hrow
  · rintro c row c' ⟨hp, _⟩ hstep item' hitem
    obtain ⟨-, hsearch⟩ := hp.syncItemsRow_eq env hstep
    rw [hsearch, Function.update_self, Option.some.injEq] at hitem
    rw [← hitem, settle_settle]
  · rintro row c row' c' ⟨hp, _⟩ hset hstep item' hitem
    obtain ⟨-, hsearch⟩ := hp.syncItemsRow_eq env hstep
    rw [hsearch] at hitem
    by_cases hid : row.itemid = row'.itemid
    · rw [hid, Function.update_self, Option.some.injEq] at hitem
      rw [← hitem, settle_settle]
    · rw [Function.update_of_ne hid] at hitem
      exact hset item' hitem

/-- The final iteration changes no item that it leaves, and leaves none that it visits and that
was in no row. -/
theorem Placed.sweepItems (h : cfg.Placed) {now : ℤ} {ids visited : List UInt64}
    (hsweeps : visited.foldlM (Config.sweepItem env now ids) cfg = some cfg') :
  cfg'.Placed ∧
    (∀ itemid item', cfg'.items.rows.search itemid = some item' →
      cfg.items.rows.search itemid = some item') ∧
    ∀ itemid ∈ visited, itemid ∉ ids → cfg'.items.rows.search itemid = none
  := by
  let shrinks : Config → Prop := fun c => c.Placed ∧ ∀ itemid item',
    c.items.rows.search itemid = some item' → cfg.items.rows.search itemid = some item'
  have hstart : shrinks cfg := ⟨h, fun _ _ => id⟩
  have hsweep : ∀ c itemid c', itemid ∈ visited → shrinks c →
      c.sweepItem env now ids itemid = some c' → shrinks c' := by
    rintro c itemid c' _ ⟨hp, hs⟩ hstep
    obtain ⟨hp', hsearch⟩ := hp.sweepItem env hstep
    refine ⟨hp', ?_⟩
    intro j item' hitem
    apply hs
    rw [hsearch] at hitem
    split at hitem
    · exact hitem
    · rw [Function.update_apply] at hitem
      split at hitem
      · contradiction
      · exact hitem
  obtain ⟨hplaced, hshrinks⟩ := foldlM_invariant hsweeps hstart hsweep
  refine ⟨hplaced, hshrinks, ?_⟩
  apply foldlM_forall (fun itemid c => itemid ∉ ids → c.items.rows.search itemid = none) hsweeps
    hstart hsweep
  · rintro c itemid c' ⟨hp, _⟩ hstep hmem
    obtain ⟨-, hsearch⟩ := hp.sweepItem env hstep
    rw [hsearch, if_neg hmem, Function.update_self]
  · rintro itemid c itemid' c' ⟨hp, _⟩ hnone hstep hmem
    obtain ⟨-, hsearch⟩ := hp.sweepItem env hstep
    rw [hsearch]
    split
    · exact hnone hmem
    · rw [Function.update_apply, hnone hmem, ite_self]

/-- After a load every item has a row and is where it belongs; with a poller are the items
that were so before. -/
theorem Placed.syncItems (h : cfg.Placed) {now : ℤ} {rows : List ItemRow}
    (hsync : cfg.syncItems env now rows = some cfg') :
  cfg'.Placed ∧ ∀ itemid item', cfg'.items.rows.search itemid = some item' →
    itemid ∈ rows.map (·.itemid) ∧ item'.settle = item' ∧
    (item'.location = .poller ↔
      ∃ item, cfg.items.rows.search itemid = some item ∧ item.location = .poller)
  := by
  unfold Config.syncItems IndexSchema.load at hsync
  obtain ⟨cfg₁, hrows, hsweeps⟩ := Option.bind_eq_some_iff.mp hsync
  obtain ⟨hplaced₁, hpoller, hsettled⟩ := h.syncItemsRows env hrows
  obtain ⟨hplaced', hshrinks, hgone⟩ := hplaced₁.sweepItems env hsweeps
  refine ⟨hplaced', ?_⟩
  intro itemid item' hitem
  have hitem₁ := hshrinks itemid item' hitem
  have hmem : itemid ∈ rows.map (·.itemid) := by
    by_contra hnot
    have hkey := (env.visit.perm _).mem_iff.mpr (Table.mem_keys_of_search hitem₁)
    rw [hgone itemid hkey hnot] at hitem
    contradiction
  obtain ⟨row, hrow, rfl⟩ := List.mem_map.mp hmem
  exact ⟨hmem, hsettled row hrow item' hitem₁, hpoller _ item' hitem₁⟩

/-! ### Taking items -/

theorem settle_location_ne (hloc : item.location ≠ .poller) :
  item.settle.location ≠ .poller
  := by
  unfold Item.settle
  dsimp only
  rw [if_neg hloc]
  cases item.pollerType <;> simp

/-- Taking the first item out of a queue leaves it nowhere. -/
theorem Placed.removeMin (h : cfg.Placed) {type : PollerType} {min : Elem UInt64}
    (hmin : (cfg.queues type).findMin = some min) :
  ∃ item queue, cfg.items.rows.search min.data = some item ∧ item.location = .queue ∧
    (cfg.queues type).removeMin (cfg.elemCompare env type) = some queue ∧
    ((cfg.setQueue type queue).setItem min.data { item with location := .nowhere }).Placed
  := by
  obtain ⟨hkey, hdata, queue, hqueue, hholds⟩ :=
    (h.arranged type).removeMin (cfg.elemCompare env type) hmin
  rw [← hdata] at hkey hholds
  obtain ⟨item, hitem, hplace⟩ := Option.bind_eq_some_iff.mp hkey
  have hloc : item.location = .queue := by
    by_contra hne
    simp [Item.place, hne] at hplace
  refine ⟨item, queue, hitem, hloc, hqueue, ?_, ?_⟩
  · rw [place_update (search_setItem _ _ _)]
    change ((cfg.setQueue type queue)).Arranged (Function.update cfg.place min.data none)
    apply h.arranged.setQueue
    · convert hholds using 2 with j
      by_cases hj : j = min.data <;> simp [hj]
    · intro j type' htype
      by_cases hj : j = min.data
      · simp [hj, hkey, Ne.symm htype]
      · simp [hj]
  · intro j item' hj
    change (cfg.items.rows.set min.data _).search j = some item' at hj
    by_cases hji : j = min.data
    · rw [hji, Table.search_set_self, Option.some.injEq] at hj
      rw [← hj]
      simp
    · rw [Table.search_set_of_ne _ _ hji] at hj
      apply h.typed j item' hj

/-- What a round does to the item it is about. -/
def RoundKeeps (cfg : Config) (itemid : UInt64) (item : Item) : Round → Prop
  | .stop => True
  | .skip cfg' => cfg'.Placed ∧ ∃ item', item'.location ≠ .poller ∧
      cfg'.items.rows.search = Function.update cfg.items.rows.search itemid (some item')
  | .take cfg' itemid' => cfg'.Placed ∧ itemid' = itemid ∧
      cfg'.items.rows.search = Function.update cfg.items.rows.search itemid
        (some { item with location := .poller })

theorem Placed.take (h : cfg.Placed) (hitem : cfg.items.rows.search itemid = some item)
    (hloc : item.location ≠ .queue) :
  cfg.RoundKeeps itemid item (cfg.take itemid item)
  := by
  refine ⟨?_, rfl, Table.search_set _ _ _⟩
  apply h.setItem
  · rw [(h.place_eq hitem).1]
    simp [Item.place, hloc]
  · simp

/-- A round that skips an item with a new poller type and `nextcheck`. -/
theorem Placed.skip (h : cfg.Placed) (hitem : cfg.items.rows.search itemid = some item)
    (hloc : item.location ≠ .poller) (pollerType : Option PollerType) (nextcheck : ℤ) :
  ∃ round, (cfg.reschedule env itemid item pollerType nextcheck).map Round.skip = some round ∧
    cfg.RoundKeeps itemid item round
  := by
  obtain ⟨rows, queues, heq, hrows, hplaced⟩ := h.reschedule env pollerType nextcheck hitem
  rw [heq]
  refine ⟨_, rfl, hplaced, _, ?_, hrows⟩
  apply settle_location_ne
  exact hloc

theorem Placed.pollHost (h : cfg.Placed) (hitem : cfg.items.rows.search itemid = some item)
    (hloc : item.location = .nowhere) (pollerType : PollerType) (now : ℤ) (host : Host) :
  ∃ round, cfg.pollHost env pollerType now itemid item host = some round ∧
    cfg.RoundKeeps itemid item round
  := by
  have hskip := fun pollerType nextcheck =>
    h.skip env hitem (by simp [hloc]) pollerType nextcheck
  have hqueue : item.location ≠ .queue := by simp [hloc]
  unfold Config.pollHost
  dsimp only
  split
  · apply hskip
  · split
    · split
      · apply hskip
      · exact ⟨_, rfl, h.take hitem hqueue⟩
    · split
      · apply hskip
      · split
        · apply hskip
        · refine ⟨_, rfl, ?_⟩
          have hhost : (cfg.setHost item.hostid
              (increaseDisableUntil env item host now)).Placed := ⟨h.arranged, h.typed⟩
          exact hhost.take hitem hqueue

/-- A round takes an item from the queue, or leaves one that was there out of the hands of
the pollers. -/
theorem Placed.pollRound (h : cfg.Placed) (pollerType : PollerType) (now : ℤ)
    (taken : List UInt64) :
  ∃ round, cfg.pollRound env pollerType now taken = some round ∧
    (round = .stop ∨ ∃ itemid item, cfg.items.rows.search itemid = some item ∧
      item.location = .queue ∧ cfg.RoundKeeps itemid item round)
  := by
  unfold Config.pollRound
  cases hmin : (cfg.queues pollerType).findMin with
  | none => exact ⟨_, rfl, Or.inl rfl⟩
  | some min =>
    obtain ⟨item, queue, hitem, hloc, hqueue, hplaced⟩ := h.removeMin env hmin
    simp only [hitem, Option.bind_eq_bind, Option.bind_some]
    split
    · exact ⟨_, rfl, Or.inl rfl⟩
    · split
      · exact ⟨_, rfl, Or.inl rfl⟩
      · rw [hqueue, Option.bind_some]
        have hout : ((cfg.setQueue pollerType queue).setItem min.data
            { item with location := .nowhere }).items.rows.search min.data =
              some { item with location := .nowhere } := Table.search_set_self _ _ _
        have hkeeps : ∀ round, ((cfg.setQueue pollerType queue).setItem min.data
            { item with location := .nowhere }).RoundKeeps min.data
              { item with location := .nowhere } round →
            cfg.RoundKeeps min.data item round := by
          have hset : ∀ item', Function.update ((cfg.setQueue pollerType queue).setItem min.data
              { item with location := .nowhere }).items.rows.search min.data item' =
                Function.update cfg.items.rows.search min.data item' := by
            intro item'
            change Function.update (cfg.items.rows.set min.data _).search min.data item' = _
            rw [Table.search_set, Function.update_idem]
          intro round hround
          cases round with
          | stop => trivial
          | skip cfg' =>
            obtain ⟨hp, item', hne, hrows⟩ := hround
            exact ⟨hp, item', hne, hrows.trans (hset _)⟩
          | take cfg' itemid' =>
            obtain ⟨hp, hid, hrows⟩ := hround
            exact ⟨hp, hid, hrows.trans (hset _)⟩
        have hnowhere : cfg.RoundKeeps min.data item
            (.skip ((cfg.setQueue pollerType queue).setItem min.data
              { item with location := .nowhere })) := by
          exact ⟨hplaced, _, by simp, Table.search_set _ _ _⟩
        split
        · exact ⟨_, rfl, Or.inr ⟨_, item, hitem, hloc, hnowhere⟩⟩
        · split
          · exact ⟨_, rfl, Or.inr ⟨_, item, hitem, hloc, hnowhere⟩⟩
          · obtain ⟨round, hround, hk⟩ := hplaced.pollHost env hout rfl pollerType now _
            exact ⟨round, hround, Or.inr ⟨_, item, hitem, hloc, hkeeps round hk⟩⟩

/-- The cache a round leaves, if it does not stop. -/
def Round.config : Round → Option Config
  | .stop => none
  | .skip cfg => some cfg
  | .take cfg _ => some cfg

theorem Placed.of_pollRound (h : cfg.Placed) {pollerType : PollerType} {now : ℤ}
    {taken : List UInt64} {round : Round}
    (hround : cfg.pollRound env pollerType now taken = some round)
    (hcfg' : round.config = some cfg') :
  cfg'.Placed
  := by
  obtain ⟨round', heq, hkeeps⟩ := h.pollRound env pollerType now taken
  obtain rfl : round = round' := Option.some.inj (hround.symm.trans heq)
  obtain rfl | ⟨_, _, _, _, hkeeps⟩ := hkeeps
  · contradiction
  · cases round with
    | stop => contradiction
    | skip cfg₁ =>
      obtain rfl := Option.some.inj hcfg'
      exact hkeeps.1
    | take cfg₁ itemid =>
      obtain rfl := Option.some.inj hcfg'
      exact hkeeps.1

/-! ### Returning items -/

/-- A poller that returns the item gives it up. -/
def Returns (cfg : Config) (item : Item) (r : Requeue) : Prop :=
  item.pollerType ≠ none ∧ (r.errcode = .networkError ∨ r.errcode = .gatewayError →
    cfg.hosts.rows.search item.hostid ≠ none)

instance (cfg : Config) (item : Item) (r : Requeue) : Decidable (cfg.Returns item r) :=
  inferInstanceAs (Decidable (_ ∧ (_ → _)))

theorem release_location (item : Item) :
  (release item).location ≠ .poller
  := by
  unfold release
  split
  · simp
  · assumption

/-- An item taken from its poller is placed, and so is one whose other fields change. -/
theorem Placed.release (h : cfg.Placed) (hitem : cfg.items.rows.search itemid = some item) :
  (cfg.setItem itemid (release item)).Placed
  := by
  obtain ⟨hplace, htyped⟩ := h.place_eq hitem
  unfold Config.release
  split
  · rename_i hloc
    apply h.setItem
    · simp [hplace, Item.place, hloc]
    · simp
  · exact h.setItem hplace.symm htyped

/-- What a requeue does to an item: it stays with its poller only when it was there and
`kept` holds. -/
def RequeueKeeps (cfg : Config) (itemid : UInt64) (item : Item) (kept : Prop)
    (cfg' : Config) : Prop :=
  cfg'.Placed ∧ ∃ item', (item'.location = .poller → item.location = .poller ∧ kept) ∧
    cfg'.items.rows.search = Function.update cfg.items.rows.search itemid (some item')

theorem RequeueKeeps.of_setItem {item' : Item} {kept : Prop}
    (h : (cfg.setItem itemid item').RequeueKeeps itemid item kept cfg') :
  cfg.RequeueKeeps itemid item kept cfg'
  := by
  obtain ⟨hplaced, item'', hloc, hrows⟩ := h
  refine ⟨hplaced, item'', hloc, ?_⟩
  rw [hrows, search_setItem, Function.update_idem]

theorem Placed.requeueAs (h : cfg.Placed) (hitem : cfg.items.rows.search itemid = some item)
    (nextcheck : ℤ) (pollerType : Option (Option PollerType)) :
  ∃ cfg', cfg.requeueAs env itemid item nextcheck pollerType = some cfg' ∧
    cfg.RequeueKeeps itemid item (item.pollerType = none) cfg'
  := by
  obtain ⟨hplace, htyped⟩ := h.place_eq hitem
  have hset : (cfg.setItem itemid { item with nextcheck }).Placed :=
    h.setItem hplace.symm htyped
  unfold Config.requeueAs
  by_cases hnone : item.pollerType = none
  · rw [if_pos hnone]
    exact ⟨_, rfl, hset, { item with nextcheck }, fun hloc => ⟨hloc, hnone⟩,
      search_setItem _ _ _⟩
  · rw [if_neg hnone]
    have hin : (cfg.setItem itemid { item with nextcheck }).items.rows.search itemid =
        some { item with nextcheck } := by
      rw [search_setItem, Function.update_self]
    have hreleased := hset.release hin
    have hloc := release_location { item with nextcheck }
    cases pollerType with
    | none =>
      refine ⟨_, rfl, hreleased, _, fun hp => absurd hp hloc, ?_⟩
      rw [search_setItem, search_setItem, Function.update_idem]
    | some pollerType =>
      have hout : ((cfg.setItem itemid { item with nextcheck }).setItem itemid
          (Config.release { item with nextcheck })).items.rows.search itemid =
          some (Config.release { item with nextcheck }) := by
        rw [search_setItem, Function.update_self]
      obtain ⟨rows, queues, heq, hrows, hplaced⟩ := hreleased.reschedule env pollerType
        (Config.release { item with nextcheck }).nextcheck hout
      rw [search_setItem, search_setItem, Function.update_idem, Function.update_idem] at hrows
      refine ⟨_, heq, hplaced, _, ?_, hrows⟩
      intro hp
      apply absurd hp
      apply settle_location_ne
      exact hloc

theorem RequeueKeeps.mono {kept kept' : Prop} (h : cfg.RequeueKeeps itemid item kept cfg')
    (hkept : kept → kept') :
  cfg.RequeueKeeps itemid item kept' cfg'
  := by
  obtain ⟨hplaced, item', hloc, hrows⟩ := h
  exact ⟨hplaced, item', fun hp => (hloc hp).imp_right hkept, hrows⟩

/-- Returning an item keeps the items placed. The item stays with its poller only when
the poller does not give it up. -/
theorem Placed.requeueItem (h : cfg.Placed) (now : ℤ) (r : Requeue) :
  ∃ cfg', cfg.requeueItem env now r = some cfg' ∧
    match cfg.items.rows.search r.itemid with
    | none => cfg' = cfg
    | some item =>
      cfg.RequeueKeeps r.itemid item (r.errcode.Polled → ¬ cfg.Returns item r) cfg'
  := by
  unfold Config.requeueItem
  cases hitem : cfg.items.rows.search r.itemid with
  | none => exact ⟨cfg, by simp, rfl⟩
  | some item =>
    obtain ⟨hplace, htyped⟩ := h.place_eq hitem
    have hset : (cfg.setItem r.itemid (storeResult item r)).Placed :=
      h.setItem hplace.symm htyped
    have hin : (cfg.setItem r.itemid (storeResult item r)).items.rows.search r.itemid =
        some (storeResult item r) := by
      rw [search_setItem, Function.update_self]
    have hpoll := hset.requeueAs env hin
    have hstay : ∀ cfg', cfg'.Placed → cfg'.items.rows.search =
        Function.update cfg.items.rows.search r.itemid (some (storeResult item r)) →
        (r.errcode.Polled → ¬ cfg.Returns item r) →
        cfg.RequeueKeeps r.itemid item (r.errcode.Polled → ¬ cfg.Returns item r) cfg' :=
      fun cfg' hp hrows hkept => ⟨hp, storeResult item r, fun hloc => ⟨hloc, hkept⟩, hrows⟩
    have hmoved : ∀ cfg', (cfg.setItem r.itemid (storeResult item r)).RequeueKeeps r.itemid
        (storeResult item r) ((storeResult item r).pollerType = none) cfg' →
        cfg.RequeueKeeps r.itemid item (r.errcode.Polled → ¬ cfg.Returns item r) cfg' :=
      fun cfg' hk => (RequeueKeeps.of_setItem hk).mono fun hnone _ hreturns =>
        hreturns.1 hnone
    have hreachable : ∃ cfg', (cfg.setItem r.itemid (storeResult item r)).requeueReachableItem
        env r.itemid (storeResult item r) r.lastclock = some cfg' ∧
        cfg.RequeueKeeps r.itemid item (r.errcode.Polled → ¬ cfg.Returns item r) cfg' := by
      obtain ⟨cfg', heq, hk⟩ := hpoll _ _
      exact ⟨cfg', heq, hmoved cfg' hk⟩
    have hunreachable : r.errcode = .networkError ∨ r.errcode = .gatewayError →
        ∃ cfg', (cfg.setItem r.itemid (storeResult item r)).requeueUnreachableItem
        env r.itemid (storeResult item r) now = some cfg' ∧
        cfg.RequeueKeeps r.itemid item (r.errcode.Polled → ¬ cfg.Returns item r) cfg' := by
      intro herr
      unfold Config.requeueUnreachableItem
      cases hhost : (cfg.setItem r.itemid (storeResult item r)).hosts.rows.search
          (storeResult item r).hostid with
      | none =>
        refine ⟨_, rfl, hstay _ hset (search_setItem _ _ _) ?_⟩
        intro _ hreturns
        exact hreturns.2 herr hhost
      | some host =>
        obtain ⟨cfg', heq, hk⟩ := hpoll _ _
        exact ⟨cfg', heq, hmoved cfg' hk⟩
    have hvacuous : ¬ r.errcode.Polled → r.errcode.Polled → ¬ cfg.Returns item r :=
      fun hnot hp => absurd hp hnot
    dsimp only
    generalize (r.errcode.Polled → ¬ cfg.Returns item r) = kept at *
    cases herr : r.errcode with
    | fail =>
      refine ⟨cfg, rfl, h, item, fun hloc => ⟨hloc, hvacuous ?_⟩, ?_⟩
      · simp [herr, Errcode.Polled]
      · rw [← hitem, Function.update_eq_self]
    | timeoutError =>
      refine ⟨_, rfl, hstay _ hset (search_setItem _ _ _) (hvacuous ?_)⟩
      simp [herr, Errcode.Polled]
    | succeed => exact hreachable
    | notSupported => exact hreachable
    | agentError => exact hreachable
    | networkError => exact hunreachable (Or.inl herr)
    | gatewayError => exact hunreachable (Or.inr herr)

theorem Placed.of_requeueItem (h : cfg.Placed) {now : ℤ} {r : Requeue}
    (hrequeue : cfg.requeueItem env now r = some cfg') :
  cfg'.Placed
  := by
  obtain ⟨cfg₁, heq, hkeeps⟩ := h.requeueItem env now r
  obtain rfl : cfg' = cfg₁ := Option.some.inj (hrequeue.symm.trans heq)
  cases hitem : cfg.items.rows.search r.itemid with
  | none =>
    rw [hitem] at hkeeps
    rw [hkeeps]
    exact h
  | some item =>
    rw [hitem] at hkeeps
    exact hkeeps.1

end Config

end DbConfig
