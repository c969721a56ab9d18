import Mathlib.Data.List.TakeWhile
import Zabbix.Algo.Hashset

/-!
# The places of the entries

`Sound` says that every entry lies in the chain of its hash, that the hashes are those of
the data, that no two entries have equal data, and that the counter is right. Every call
keeps it, the rehash loop included.
-/

open Chains

/-- The comparison is an equivalence, and equal data hash equal. -/
structure HashFunctions.Keyed (f : HashFunctions) : Prop where
  refl : ∀ a, f.compare a a = 0
  symm : ∀ a b, f.compare a b = 0 → f.compare b a = 0
  trans : ∀ a b c, f.compare a b = 0 → f.compare b c = 0 → f.compare a c = 0
  hash_eq : ∀ a b, f.compare a b = 0 → f.hash a = f.hash b

namespace Hashset

variable {f : HashFunctions} {hs : Hashset}

/-- The data of the entries compare equal. -/
def Same (f : HashFunctions) (a b : HashEntry) : Prop := f.compare a.data b.data = 0

/-- Every entry of the chain belongs into the slot. -/
def Placed (numSlots : ℕ) (slots : List (List HashEntry)) (slot : ℕ) : Prop :=
  ∀ entry ∈ chain slots slot, slotOf entry.hash numSlots = slot

structure Sound (f : HashFunctions) (hs : Hashset) : Prop where
  pos : 0 < hs.slots.length
  placed : ∀ slot, Placed hs.slots.length hs.slots slot
  hashed : ∀ entry ∈ hs.entries, entry.hash = f.hash entry.data
  distinct : Distinct (Same f) hs.entries
  addresses : (hs.entries.map HashEntry.address).Nodup
  counted : hs.numData = hs.entries.length

theorem slotOf_lt (hash : UInt32) {numSlots : ℕ} (h : 0 < numSlots) :
  slotOf hash numSlots < numSlots
  := Nat.mod_lt _ h

theorem sound_create (initSize : ℕ) :
  Sound f (create initSize)
  where
  pos := by simpa [create] using nextPrime_pos initSize
  placed := by
    intro slot entry h
    have hmem : entry ∈ (create initSize).slots.flatten := mem_flatten.mpr ⟨slot, h⟩
    simp [create] at hmem
  hashed := by simp [entries, create]
  distinct := by simp [entries, create, Distinct]
  addresses := by simp [entries, create]
  counted := by simp [entries, create]

/-! ### The rehash loop -/

theorem length_rehashChain (incSlots slot : ℕ) (kept rest : List HashEntry)
    (slots : List (List HashEntry)) :
  (rehashChain incSlots slot kept rest slots).length = slots.length
  := by
  induction rest generalizing kept slots with
  | nil => rfl
  | cons entry rest ih =>
    unfold rehashChain
    dsimp only
    split
    · rw [ih, List.length_set, List.length_set]
    · apply ih

/-- The chains before an entry is moved and after it, apart from the entry itself. -/
theorem chain_move {slots : List (List HashEntry)} {slot newSlot : ℕ}
    {kept rest : List HashEntry} {entry : HashEntry} (hslot : slot < slots.length)
    (hnew : newSlot < slots.length) (j : ℕ) :
  chain ((slots.set newSlot (entry :: chain slots newSlot)).set slot (kept ++ rest)) j =
    if j = slot then kept ++ rest
    else if j = newSlot then entry :: chain slots newSlot else chain slots j
  := by
  rw [chain_set (by simpa using hslot)]
  split
  · rfl
  · rw [chain_set hnew]

theorem move_perm {slots : List (List HashEntry)} {slot newSlot : ℕ}
    {kept rest : List HashEntry} {entry : HashEntry} (hslot : slot < slots.length)
    (hnew : newSlot < slots.length) (hne : slot ≠ newSlot)
    (hchain : chain slots slot = kept ++ entry :: rest) :
  ((slots.set newSlot (entry :: chain slots newSlot)).set slot
    (kept ++ rest)).flatten.Perm slots.flatten
  := by
  have hpush := flatten_push_perm hnew entry
  have htaken : (entry :: ((slots.set newSlot (entry :: chain slots newSlot)).set slot
      (kept ++ rest)).flatten).Perm
      (slots.set newSlot (entry :: chain slots newSlot)).flatten := by
    apply flatten_remove_perm (by simpa using hslot)
    rw [chain_set_of_ne hne, hchain]
  exact (htaken.trans hpush).cons_inv

/-- What the walk over the chain of a slot does: no entry is lost or added, the chain is
settled, and other chains gain entries of theirs only. -/
structure Walked (incSlots slot : ℕ) (slots slots' : List (List HashEntry)) : Prop where
  perm : slots'.flatten.Perm slots.flatten
  settled : Placed incSlots slots' slot
  gained : ∀ j ≠ slot, ∀ entry ∈ chain slots' j,
    entry ∈ chain slots j ∨ slotOf entry.hash incSlots = j

theorem walked_rehashChain {incSlots slot : ℕ} {kept rest : List HashEntry}
    {slots : List (List HashEntry)} (hlength : slots.length = incSlots)
    (hslot : slot < slots.length) (hchain : chain slots slot = kept ++ rest)
    (hkept : ∀ entry ∈ kept, slotOf entry.hash incSlots = slot) :
  Walked incSlots slot slots (rehashChain incSlots slot kept rest slots)
  := by
  induction rest generalizing kept slots with
  | nil =>
    have hsettled : Placed incSlots slots slot := by
      intro entry hmem
      apply hkept
      simpa [hchain] using hmem
    exact ⟨List.Perm.refl _, hsettled, fun j _ entry hmem => .inl hmem⟩
  | cons entry rest ih =>
    unfold rehashChain
    by_cases hne : slot ≠ slotOf entry.hash incSlots
    · rw [if_pos hne]
      have hnew : slotOf entry.hash incSlots < slots.length := by
        rw [hlength]
        exact slotOf_lt _ (by omega)
      have hmoved : chain ((slots.set (slotOf entry.hash incSlots)
          (entry :: chain slots (slotOf entry.hash incSlots))).set slot (kept ++ rest)) slot =
          kept ++ rest := by
        rw [chain_move hslot hnew, if_pos rfl]
      have hwalk := ih (by simpa using hlength) (by simpa using hslot) hmoved hkept
      refine ⟨hwalk.perm.trans (move_perm hslot hnew hne hchain), hwalk.settled, ?_⟩
      intro j hj e he
      obtain hold | hplace := hwalk.gained j hj e he
      · rw [chain_move hslot hnew, if_neg hj] at hold
        split at hold
        · rename_i hjnew
          obtain rfl | hold := List.mem_cons.mp hold
          · exact .inr hjnew.symm
          · rw [← hjnew] at hold
            exact .inl hold
        · exact .inl hold
      · exact .inr hplace
    · rw [if_neg hne]
      apply ih hlength hslot
      · simpa using hchain
      · intro e he
        obtain he | he := List.mem_append.mp he
        · exact hkept e he
        · rw [List.mem_singleton.mp he]
          exact (not_not.mp hne).symm

/-- After the walk over the first `count` slots their chains are settled. -/
theorem rehashSlots_spec {incSlots count : ℕ} {slots : List (List HashEntry)}
    (hlength : slots.length = incSlots) (hcount : count ≤ incSlots) :
  (rehashSlots incSlots count slots).length = incSlots ∧
    (rehashSlots incSlots count slots).flatten.Perm slots.flatten ∧
    ∀ j, j < count ∨ Placed incSlots slots j →
      Placed incSlots (rehashSlots incSlots count slots) j
  := by
  induction count with
  | zero =>
    refine ⟨hlength, List.Perm.refl _, ?_⟩
    intro j hj
    obtain hj | hj := hj
    · omega
    · exact hj
  | succ count ih =>
    obtain ⟨hlen, hperm, hplaced⟩ := ih (by omega)
    have hsucc : rehashSlots incSlots (count + 1) slots =
        rehashChain incSlots count [] (chain (rehashSlots incSlots count slots) count)
          (rehashSlots incSlots count slots) := by
      simp [rehashSlots, List.range_succ]
    have hwalk : Walked incSlots count (rehashSlots incSlots count slots)
        (rehashSlots incSlots (count + 1) slots) := by
      rw [hsucc]
      exact walked_rehashChain hlen (by omega) rfl (by simp)
    refine ⟨?_, hwalk.perm.trans hperm, ?_⟩
    · rw [hsucc, length_rehashChain, hlen]
    · intro j hj
      by_cases hjc : j = count
      · rw [hjc]
        exact hwalk.settled
      · intro entry hmem
        obtain hold | hplace := hwalk.gained j hjc entry hmem
        · apply hplaced j _ entry hold
          obtain hj | hj := hj
          · exact .inl (by omega)
          · exact .inr hj
        · exact hplace

/-- The rehash loop keeps all entries and puts each into its slot. -/
theorem rehash_spec {slots : List (List HashEntry)} {incSlots : ℕ}
    (hinc : slots.length ≤ incSlots) :
  (rehash slots incSlots).length = incSlots ∧
    (rehash slots incSlots).flatten.Perm slots.flatten ∧
    ∀ j, Placed incSlots (rehash slots incSlots) j
  := by
  have hlength : (slots ++ List.replicate (incSlots - slots.length) []).length =
      incSlots := by
    simp [hinc]
  obtain ⟨hlen, hperm, hplaced⟩ := rehashSlots_spec hlength hinc
  refine ⟨hlen, by simpa [rehash] using hperm, ?_⟩
  intro j
  apply hplaced j
  by_cases hj : j < slots.length
  · exact .inl hj
  · right
    intro entry hmem
    simp only [chain, List.getD_eq_getElem?_getD] at hmem
    rw [List.getElem?_append_right (by omega)] at hmem
    rw [List.getElem?_replicate] at hmem
    split at hmem <;> simp at hmem

theorem Sound.perm {slots : List (List HashEntry)} (h : Sound f hs) (hkeyed : f.Keyed)
    (hpos : 0 < slots.length) (hperm : slots.flatten.Perm hs.entries)
    (hplaced : ∀ j, Placed slots.length slots j) :
  Sound f { hs with slots := slots }
  where
  pos := hpos
  placed := hplaced
  hashed := fun entry hmem => h.hashed entry (hperm.mem_iff.mp hmem)
  distinct := h.distinct.perm (fun _ _ => hkeyed.symm _ _) hperm.symm
  addresses := (hperm.map _).nodup_iff.mpr h.addresses
  counted := by
    rw [h.counted]
    exact hperm.length_eq.symm

theorem grow_eq_some {realloc : Bool} {hs' : Hashset} (h : hs.grow realloc = some hs') :
  hs' = hs ∨ hs' = { hs with slots := rehash hs.slots hs.incSlots }
  := by
  unfold grow at h
  split at h
  · split at h
    · exact .inr (Option.some.inj h).symm
    · cases h
  · exact .inl (Option.some.inj h).symm

/-- Growth changes the places of the entries and nothing else. -/
theorem grow_spec (h : Sound f hs) (hkeyed : f.Keyed) {realloc : Bool} {hs' : Hashset}
    (hgrow : hs.grow realloc = some hs') :
  Sound f hs' ∧ hs'.entries.Perm hs.entries
  := by
  obtain rfl | rfl := grow_eq_some hgrow
  · exact ⟨h, List.Perm.refl _⟩
  · have hinc : hs.slots.length ≤ hs.incSlots := by
      have hle := le_nextPrime (max (hs.slots.length + 1) (hs.slots.length * 3 / 2))
      unfold incSlots
      omega
    obtain ⟨hlen, hperm, hplaced⟩ := rehash_spec hinc
    have hpos : 0 < (rehash hs.slots hs.incSlots).length := by
      rw [hlen]
      exact lt_of_lt_of_le h.pos hinc
    rw [← hlen] at hplaced
    have hsound := h.perm hkeyed hpos hperm (by simpa [hlen] using hplaced)
    exact ⟨hsound, hperm⟩

/-! ### Search -/

theorem mem_entries_of_mem_chain {slot : ℕ} {entry : HashEntry}
    (h : entry ∈ chain hs.slots slot) :
  entry ∈ hs.entries
  := mem_flatten.mpr ⟨slot, h⟩

theorem isEntryOf_iff {data : List UInt8} {entry : HashEntry} :
  isEntryOf f data entry = true ↔ entry.hash = f.hash data ∧ f.compare entry.data data = 0
  := by
  simp [isEntryOf]

/-- An entry with equal data passes the test, and lies in the chain that is searched. -/
theorem Sound.found (h : Sound f hs) (hkeyed : f.Keyed) {data : List UInt8}
    {entry : HashEntry} (hmem : entry ∈ hs.entries) (heq : f.compare entry.data data = 0) :
  isEntryOf f data entry = true ∧ entry ∈ hs.chainFor f data
  := by
  have hhash : entry.hash = f.hash data := by
    rw [h.hashed entry hmem]
    exact hkeyed.hash_eq _ _ heq
  refine ⟨isEntryOf_iff.mpr ⟨hhash, heq⟩, ?_⟩
  obtain ⟨slot, hslot⟩ := mem_flatten.mp hmem
  have hplace := h.placed slot entry hslot
  unfold chainFor
  rwa [← hhash, hplace]

theorem Sound.same_of_equal (hkeyed : f.Keyed) {data : List UInt8} {a b : HashEntry}
    (ha : f.compare a.data data = 0) (hb : f.compare b.data data = 0) :
  Same f a b
  := hkeyed.trans _ _ _ ha (hkeyed.symm _ _ hb)

/-- An entry is found exactly when it is stored and its data are equal. -/
theorem Sound.search_eq_some_iff (h : Sound f hs) (hkeyed : f.Keyed) {data : List UInt8}
    {entry : HashEntry} :
  hs.search f data = some entry ↔ entry ∈ hs.entries ∧ f.compare entry.data data = 0
  := by
  constructor
  · intro hsearch
    have hmem : entry ∈ hs.chainFor f data := List.mem_of_find?_eq_some hsearch
    have htest := isEntryOf_iff.mp (List.find?_some hsearch)
    exact ⟨mem_entries_of_mem_chain hmem, htest.2⟩
  · rintro ⟨hmem, heq⟩
    obtain ⟨htest, hchain⟩ := h.found hkeyed hmem heq
    cases hsearch : hs.search f data with
    | none => exact absurd htest (List.find?_eq_none.mp hsearch entry hchain)
    | some entry' =>
      have hmem' : entry' ∈ hs.entries :=
        mem_entries_of_mem_chain (List.mem_of_find?_eq_some hsearch)
      have htest' := isEntryOf_iff.mp (List.find?_some hsearch)
      have hsame : Same f entry' entry := same_of_equal hkeyed htest'.2 heq
      rw [h.distinct.eq_of_same (fun _ _ => hkeyed.symm _ _) hmem' hmem hsame]

theorem Sound.search_eq_none_iff (h : Sound f hs) (hkeyed : f.Keyed) {data : List UInt8} :
  hs.search f data = none ↔ ∀ entry ∈ hs.entries, f.compare entry.data data ≠ 0
  := by
  constructor
  · intro hsearch entry hmem heq
    rw [(h.search_eq_some_iff hkeyed).mpr ⟨hmem, heq⟩] at hsearch
    cases hsearch
  · intro hall
    cases hsearch : hs.search f data with
    | none => rfl
    | some entry =>
      obtain ⟨hmem, heq⟩ := (h.search_eq_some_iff hkeyed).mp hsearch
      exact absurd heq (hall entry hmem)

/-! ### Insertion -/

theorem placed_set {slots : List (List HashEntry)} {n slot : ℕ} {l : List HashEntry}
    (hslot : slot < slots.length) (hplaced : ∀ j, Placed n slots j)
    (hl : ∀ entry ∈ l, slotOf entry.hash n = slot) (j : ℕ) :
  Placed n (slots.set slot l) j
  := by
  intro entry hmem
  rw [chain_set hslot] at hmem
  split at hmem
  · rename_i hj
    rw [hj]
    exact hl entry hmem
  · exact hplaced j entry hmem

theorem entries_link_perm (h : Sound f hs) (entry : HashEntry) :
  (hs.link entry).entries.Perm (entry :: hs.entries)
  := flatten_push_perm (slotOf_lt _ h.pos) entry

theorem Sound.link (h : Sound f hs) (hkeyed : f.Keyed) {entry : HashEntry}
    (hhash : entry.hash = f.hash entry.data)
    (hnew : ∀ e ∈ hs.entries, f.compare e.data entry.data ≠ 0)
    (haddress : ∀ e ∈ hs.entries, e.address ≠ entry.address) :
  Sound f (hs.link entry)
  := by
  have hperm := entries_link_perm h entry
  refine ⟨?_, ?_, ?_, ?_, ?_, ?_⟩
  · simpa [Hashset.link] using h.pos
  · intro j
    have hset := placed_set (l := entry :: chain hs.slots (slotOf entry.hash hs.slots.length))
      (slotOf_lt entry.hash h.pos) h.placed (by
        intro e he
        obtain rfl | he := List.mem_cons.mp he
        · rfl
        · exact h.placed _ e he) j
    simpa [Hashset.link] using hset
  · intro e he
    obtain rfl | he := List.mem_cons.mp (hperm.mem_iff.mp he)
    · exact hhash
    · exact h.hashed e he
  · have hcons : Distinct (Same f) (entry :: hs.entries) := by
      apply List.Pairwise.cons _ h.distinct
      intro e he hsame
      exact hnew e he (hkeyed.symm _ _ hsame)
    exact hcons.perm (fun _ _ => hkeyed.symm _ _) hperm.symm
  · have hcons : ((entry :: hs.entries).map HashEntry.address).Nodup := by
      rw [List.map_cons, List.nodup_cons]
      refine ⟨?_, h.addresses⟩
      intro hmem
      obtain ⟨e, he, heq⟩ := List.mem_map.mp hmem
      exact haddress e he heq
    exact (hperm.map _).nodup_iff.mpr hcons
  · rw [hperm.length_eq, List.length_cons, ← h.counted]
    rfl

/-! ### Removal -/

/-- An entry taken out of its chain. -/
theorem Sound.unlink (h : Sound f hs) (hkeyed : f.Keyed) {slot : ℕ}
    {before after : List HashEntry} {entry : HashEntry}
    (hchain : chain hs.slots slot = before ++ entry :: after) :
  Sound f { slots := hs.slots.set slot (before ++ after), numData := hs.numData - 1 } ∧
    (entry :: (hs.slots.set slot (before ++ after)).flatten).Perm hs.entries
  := by
  have hslot : slot < hs.slots.length := by
    by_contra hge
    rw [chain_of_ge (by omega)] at hchain
    simp at hchain
  have hperm := flatten_remove_perm hslot hchain
  have hmem : ∀ e ∈ (hs.slots.set slot (before ++ after)).flatten, e ∈ hs.entries := by
    intro e he
    exact hperm.mem_iff.mp (List.mem_cons_of_mem _ he)
  refine ⟨⟨?_, ?_, ?_, ?_, ?_, ?_⟩, hperm⟩
  · simpa using h.pos
  · have hset := placed_set (l := before ++ after) hslot h.placed (by
      intro e he
      apply h.placed slot e
      rw [hchain]
      obtain he | he := List.mem_append.mp he <;> simp [he])
    simpa using hset
  · exact fun e he => h.hashed e (hmem e he)
  · exact (List.pairwise_cons.mp
      (h.distinct.perm (fun _ _ => hkeyed.symm _ _) hperm.symm)).2
  · have hcons := (hperm.map HashEntry.address).nodup_iff.mpr h.addresses
    exact (List.nodup_cons.mp hcons).2
  · have hlen := hperm.length_eq
    have hcounted := h.counted
    rw [List.length_cons] at hlen
    simp only [entries] at hcounted ⊢
    omega

theorem Sound.remove (h : Sound f hs) (hkeyed : f.Keyed) (data : List UInt8) :
  Sound f (hs.remove f data) ∧
    ∀ e, e ∈ (hs.remove f data).entries ↔ e ∈ hs.entries ∧ f.compare e.data data ≠ 0
  := by
  unfold Hashset.remove
  split
  · rename_i hany
    obtain ⟨entry, hmem, htest⟩ := List.any_eq_true.mp hany
    obtain ⟨a, before, after, hbefore, ha, hchain, herase⟩ :=
      List.exists_of_eraseP hmem htest
    obtain ⟨hsound, hperm⟩ := h.unlink hkeyed hchain
    rw [herase]
    refine ⟨hsound, ?_⟩
    intro e
    have haeq := (isEntryOf_iff.mp ha).2
    have hcons : (a :: (hs.slots.set (slotOf (f.hash data) hs.slots.length)
        (before ++ after)).flatten).Nodup := by
      have hdistinct := h.distinct.nodup fun e => hkeyed.refl e.data
      exact hperm.nodup_iff.mpr hdistinct
    constructor
    · intro he
      have hin : e ∈ hs.entries := hperm.mem_iff.mp (List.mem_cons_of_mem _ he)
      refine ⟨hin, fun heq => ?_⟩
      have hain : a ∈ hs.entries := hperm.mem_iff.mp List.mem_cons_self
      have hea := h.distinct.eq_of_same (fun _ _ => hkeyed.symm _ _) hin hain
        (Sound.same_of_equal hkeyed heq haeq)
      rw [hea] at he
      exact (List.nodup_cons.mp hcons).1 he
    · rintro ⟨he, hne⟩
      obtain rfl | he := List.mem_cons.mp (hperm.mem_iff.mpr he)
      · exact absurd haeq hne
      · exact he
  · rename_i hany
    refine ⟨h, fun e => ⟨fun he => ⟨he, fun heq => ?_⟩, fun he => he.1⟩⟩
    obtain ⟨htest, hchain⟩ := h.found hkeyed he heq
    exact hany (List.any_eq_true.mpr ⟨e, hchain, htest⟩)

theorem Sound.clear (h : Sound f hs) :
  Sound f hs.clear ∧ hs.clear.entries = []
  := by
  have hentries : hs.clear.entries = [] := by simp [entries, Hashset.clear]
  refine ⟨⟨?_, ?_, ?_, ?_, ?_, ?_⟩, hentries⟩
  · simpa [Hashset.clear] using h.pos
  · intro j entry hmem
    have hin := mem_entries_of_mem_chain hmem
    rw [hentries] at hin
    cases hin
  · simp [hentries]
  · simp [hentries, Distinct]
  · simp [hentries]
  · rw [hentries]
    rfl

/-! ### Removal through an iterator -/

/-- The iterator stands on the entry. -/
def Stands (hs : Hashset) (iter : HashIter) (entry : HashEntry) : Prop :=
  0 ≤ iter.slot ∧ iter.entry = some entry.address ∧
    entry ∈ chain hs.slots iter.slot.toNat

/-- A removal through an iterator takes out the entry it stands on. -/
theorem iterRemove_cases {iter iter' : HashIter} {hs' : Hashset}
    (hremove : iter.remove hs = some (hs', iter')) :
  ∃ before entry after, iter.entry = some entry.address ∧
    chain hs.slots iter.slot.toNat = before ++ entry :: after ∧
    hs' = ⟨hs.slots.set iter.slot.toNat (before ++ after), hs.numData - 1⟩
  := by
  unfold HashIter.remove at hremove
  split at hremove
  · cases hremove
  split at hremove
  · cases hremove
  rename_i address haddress
  dsimp only at hremove
  split at hremove
  · cases hremove
  rename_i entry after hdrop
  have hentry : entry.address = address := by
    have hhead := List.head?_dropWhile_not (fun e : HashEntry => decide (e.address ≠ address))
      (chain hs.slots iter.slot.toNat)
    rw [hdrop] at hhead
    simpa using hhead
  refine ⟨(chain hs.slots iter.slot.toNat).takeWhile (·.address ≠ address), entry, after,
    ?_, ?_, ?_⟩
  · rw [haddress, hentry]
  · rw [← hdrop]
    exact List.takeWhile_append_dropWhile.symm
  · split at hremove
    · exact (Prod.mk.inj (Option.some.inj hremove)).1.symm
    · exact (Prod.mk.inj (Option.some.inj hremove)).1.symm

/-- The removal through an iterator that stands on an entry succeeds. -/
theorem iterRemove_isSome {iter : HashIter} {entry : HashEntry}
    (h : Stands hs iter entry) :
  (iter.remove hs).isSome
  := by
  obtain ⟨hslot, haddress, hmem⟩ := h
  have hvalid : ¬ (iter.slot = HashIter.start ∨ iter.slot = HashIter.finish) := by
    simp only [HashIter.start, HashIter.finish]
    omega
  unfold HashIter.remove
  rw [if_neg hvalid, haddress]
  dsimp only
  split
  · rename_i hdrop
    have hall := List.dropWhile_eq_nil_iff.mp hdrop entry hmem
    simp at hall
  · split <;> rfl

theorem Sound.iterRemove (h : Sound f hs) (hkeyed : f.Keyed) {iter iter' : HashIter}
    {hs' : Hashset} (hremove : iter.remove hs = some (hs', iter')) :
  Sound f hs' ∧ ∀ e, e ∈ hs'.entries ↔ e ∈ hs.entries ∧ iter.entry ≠ some e.address
  := by
  obtain ⟨before, entry, after, haddress, hchain, rfl⟩ := iterRemove_cases hremove
  obtain ⟨hsound, hperm⟩ := h.unlink hkeyed hchain
  have hcons := (hperm.map HashEntry.address).nodup_iff.mpr h.addresses
  rw [List.map_cons, List.nodup_cons] at hcons
  refine ⟨hsound, fun e => ?_⟩
  rw [haddress]
  constructor
  · intro he
    refine ⟨hperm.mem_iff.mp (List.mem_cons_of_mem _ he), fun hsome => ?_⟩
    apply hcons.1
    rw [Option.some.inj hsome]
    exact List.mem_map_of_mem he
  · rintro ⟨he, hne⟩
    obtain rfl | he := List.mem_cons.mp (hperm.mem_iff.mpr he)
    · exact absurd rfl hne
    · exact he

end Hashset
