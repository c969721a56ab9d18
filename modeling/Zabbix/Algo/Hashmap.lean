import Zabbix.Algo.NextPrime
import Zabbix.Library.Chains

/-!
# Hashmaps

The hashmap of the algorithm library, from 64-bit keys to slots of an array.  Its slots hold
arrays of entries: a new entry goes behind the others, and the last entry takes the place of
one that is removed or moved to another slot.  When there are five times as many entries as
slots, there come to be more slots.

`Hashmap.Sound` says that every entry lies in the slot of its key and that no key occurs
twice.  A sound hashmap is a function from keys to values, which `set`, `remove` and `clear`
change at one key or empty.
-/

open Chains

/-- `ZBX_HASHMAP_ENTRY_T`; the heap keeps its indices in the `int` of the value. -/
structure HashmapEntry (V : Type) where
  key : UInt64
  value : V
deriving DecidableEq

/-- `zbx_hashmap_t`: the entries of the slots. -/
structure Hashmap (V : Type) where
  slots : List (List (HashmapEntry V))
  numData : ℕ

namespace Hashmap

variable {V : Type} (hash : UInt64 → UInt32)

/-- `hash % num_slots`. -/
def slotOf (key : UInt64) (numSlots : ℕ) : ℕ := (hash key).toNat % numSlots

/-- `zbx_hashmap_create_ext`. -/
def create (initSize : ℕ) : Hashmap V where
  slots := List.replicate (nextPrime initSize) []
  numData := 0

/-- The slot a key belongs to. -/
def slotFor (hm : Hashmap V) (key : UInt64) : ℕ := slotOf hash key hm.slots.length

/-- `zbx_hashmap_get`; `none` is `FAIL`. -/
def get (hm : Hashmap V) (key : UInt64) : Option V :=
  ((chain hm.slots (hm.slotFor hash key)).find? (·.key = key)).map HashmapEntry.value

/-- The last entry comes to stand first, in the place of a removed one. -/
def lastFirst (entries : List (HashmapEntry V)) : List (HashmapEntry V) :=
  entries.getLast?.toList ++ entries.dropLast

theorem lastFirst_perm (entries : List (HashmapEntry V)) :
  (lastFirst entries).Perm entries
  := by
  cases entries using List.reverseRecOn with
  | nil => exact List.Perm.refl _
  | append_singleton entries last =>
    simp only [lastFirst, List.getLast?_concat, Option.toList_some, List.dropLast_concat]
    exact List.perm_append_comm

/-- The walk over one slot when there are `incSlots` slots: `kept` are the entries that stay,
`rest` those still to be visited. -/
def rehashSlot (incSlots slot : ℕ) (kept : List (HashmapEntry V)) :
    List (HashmapEntry V) → List (List (HashmapEntry V)) → List (List (HashmapEntry V))
  | [], slots => slots
  | entry :: rest, slots =>
    let newSlot := slotOf hash entry.key incSlots
    if slot ≠ newSlot then
      let slots := slots.set newSlot (chain slots newSlot ++ [entry])
      rehashSlot incSlots slot kept (lastFirst rest) (slots.set slot (kept ++ lastFirst rest))
    else rehashSlot incSlots slot (kept ++ [entry]) rest slots
termination_by entries => entries.length
decreasing_by
  · rw [(lastFirst_perm rest).length_eq]
    exact Nat.lt_succ_self _
  · exact Nat.lt_succ_self _

/-- Visits the first `count` slots. -/
def rehashSlots (incSlots count : ℕ) (slots : List (List (HashmapEntry V))) :
    List (List (HashmapEntry V)) :=
  (List.range count).foldl
    (fun slots slot => rehashSlot hash incSlots slot [] (chain slots slot) slots) slots

/-- The number of slots after the next enlargement. -/
def incSlots (hm : Hashmap V) : ℕ :=
  nextPrime (max (hm.slots.length + 1) (hm.slots.length * 3 / 2))

/-- More slots, when the load is critical. -/
def grow (hm : Hashmap V) : Hashmap V :=
  if hm.slots.length * 5 / 1 ≤ hm.numData then
    { hm with
      slots := rehashSlots hash hm.incSlots hm.slots.length
        (hm.slots ++ List.replicate (hm.incSlots - hm.slots.length) []) }
  else hm

/-- Puts a value to the entry with the key, if there is one. -/
def setValue (key : UInt64) (value : V) : List (HashmapEntry V) → Option (List (HashmapEntry V))
  | [] => none
  | entry :: rest =>
    if entry.key = key then some ({ entry with value := value } :: rest)
    else (setValue key value rest).map (entry :: ·)

/-- `zbx_hashmap_set`. -/
def set (hm : Hashmap V) (key : UInt64) (value : V) : Hashmap V :=
  let slot := hm.slotFor hash key
  match setValue key value (chain hm.slots slot) with
  | some entries => { hm with slots := hm.slots.set slot entries }
  | none =>
    grow hash
      { slots := hm.slots.set slot (chain hm.slots slot ++ [{ key := key, value := value }])
        numData := hm.numData + 1 }

/-- The entries without the one with the key. -/
def removeKey (key : UInt64) : List (HashmapEntry V) → Option (List (HashmapEntry V))
  | [] => none
  | entry :: rest =>
    if entry.key = key then some (lastFirst rest)
    else (removeKey key rest).map (entry :: ·)

/-- `zbx_hashmap_remove`. -/
def remove (hm : Hashmap V) (key : UInt64) : Hashmap V :=
  let slot := hm.slotFor hash key
  match removeKey key (chain hm.slots slot) with
  | some entries => { slots := hm.slots.set slot entries, numData := hm.numData - 1 }
  | none => hm

/-- `zbx_hashmap_clear`. -/
def clear (hm : Hashmap V) : Hashmap V where
  slots := hm.slots.map fun _ => []
  numData := 0

/-- All entries. -/
def entries (hm : Hashmap V) : List (HashmapEntry V) := hm.slots.flatten

/-! ### Sound hashmaps -/

/-- Every entry of the chain belongs into the slot. -/
def Placed (numSlots : ℕ) (slots : List (List (HashmapEntry V))) (slot : ℕ) : Prop :=
  ∀ entry ∈ chain slots slot, slotOf hash entry.key numSlots = slot

structure Sound (hm : Hashmap V) : Prop where
  pos : 0 < hm.slots.length
  placed : ∀ slot, Placed hash hm.slots.length hm.slots slot
  distinct : (hm.entries.map HashmapEntry.key).Nodup
  counted : hm.numData = hm.entries.length

variable {hash} {hm : Hashmap V} {key : UInt64} {value : V}

theorem slotOf_lt (key : UInt64) {numSlots : ℕ} (h : 0 < numSlots) :
  slotOf hash key numSlots < numSlots
  := Nat.mod_lt _ h

theorem sound_create (initSize : ℕ) :
  Sound hash (create initSize : Hashmap V)
  where
  pos := by simpa [create] using nextPrime_pos initSize
  placed := by
    intro slot entry h
    have hmem : entry ∈ (create initSize : Hashmap V).slots.flatten := mem_flatten.mpr ⟨slot, h⟩
    simp [create] at hmem
  distinct := by simp [entries, create]
  counted := by simp [entries, create]

/-- An entry lies in the slot that is searched for its key. -/
theorem Sound.mem_slot (h : Sound hash hm) {entry : HashmapEntry V} (hmem : entry ∈ hm.entries) :
  entry ∈ chain hm.slots (hm.slotFor hash entry.key)
  := by
  obtain ⟨slot, hslot⟩ := mem_flatten.mp hmem
  have hplace := h.placed slot entry hslot
  rw [slotFor, hplace]
  exact hslot

theorem Sound.eq_of_key (h : Sound hash hm) {a b : HashmapEntry V} (ha : a ∈ hm.entries)
    (hb : b ∈ hm.entries) (hkey : a.key = b.key) :
  a = b
  := List.inj_on_of_nodup_map h.distinct ha hb hkey

theorem mem_entries_of_mem_chain {slot : ℕ} {entry : HashmapEntry V}
    (h : entry ∈ chain hm.slots slot) :
  entry ∈ hm.entries
  := mem_flatten.mpr ⟨slot, h⟩

/-- The value of a key is the value of its entry. -/
theorem Sound.get_eq_some_iff (h : Sound hash hm) :
  hm.get hash key = some value ↔ ⟨key, value⟩ ∈ hm.entries
  := by
  constructor
  · intro hget
    obtain ⟨entry, hfind, hvalue⟩ := Option.map_eq_some_iff.mp hget
    have hmem := mem_entries_of_mem_chain (List.mem_of_find?_eq_some hfind)
    have hkey : entry.key = key := by simpa using List.find?_some hfind
    rw [← hkey, ← hvalue]
    exact hmem
  · intro hmem
    have hslot := h.mem_slot hmem
    cases hfind : (chain hm.slots (hm.slotFor hash key)).find? (·.key = key) with
    | none =>
      have hne := List.find?_eq_none.mp hfind _ hslot
      simp at hne
    | some entry =>
      have hentry := mem_entries_of_mem_chain (List.mem_of_find?_eq_some hfind)
      have hkey : entry.key = key := by simpa using List.find?_some hfind
      have heq := h.eq_of_key hentry hmem hkey
      rw [get, hfind, heq]
      rfl

/-! ### More slots -/

theorem walkedAt_rehashSlot {incSlots slot : ℕ} {kept rest : List (HashmapEntry V)}
    {slots : List (List (HashmapEntry V))} (hlength : slots.length = incSlots)
    (hslot : slot < incSlots) (hchain : chain slots slot = kept ++ rest)
    (hkept : ∀ entry ∈ kept, slotOf hash entry.key incSlots = slot) :
  WalkedAt (fun entry => slotOf hash entry.key incSlots) slot slots
    (rehashSlot hash incSlots slot kept rest slots)
  := by
  induction hn : rest.length generalizing kept rest slots with
  | zero =>
    obtain rfl := List.length_eq_zero_iff.mp hn
    rw [rehashSlot]
    apply WalkedAt.of_placedAt
    intro entry hmem
    rw [hchain, List.append_nil] at hmem
    exact hkept entry hmem
  | succ n ih =>
    obtain ⟨entry, rest, rfl⟩ := List.exists_cons_of_length_eq_add_one hn
    have hrest : rest.length = n := Nat.succ.inj hn
    rw [rehashSlot]
    by_cases hne : slot ≠ slotOf hash entry.key incSlots
    · rw [if_pos hne]
      have hplace : slotOf hash entry.key incSlots < slots.length := by
        rw [hlength]
        exact slotOf_lt _ (Nat.zero_lt_of_lt hslot)
      have hother := lastFirst_perm rest
      apply WalkedAt.move (a := entry) (by omega) hplace hne (List.perm_append_singleton _ _)
      · rw [hchain]
        exact List.perm_middle.trans ((hother.symm.append_left kept).cons entry)
      · apply ih
        · rw [List.length_set, List.length_set, hlength]
        · rw [chain_set_self]
          rwa [List.length_set, hlength]
        · exact hkept
        · rw [hother.length_eq, hrest]
    · rw [if_neg hne]
      apply ih hlength _ _ hrest
      · rw [hchain, List.append_assoc]
        rfl
      · intro e he
        obtain he | he := List.mem_append.mp he
        · exact hkept e he
        · rw [List.mem_singleton.mp he]
          exact (not_not.mp hne).symm

theorem grow_spec (h : Sound hash hm) :
  Sound hash (hm.grow hash) ∧ (hm.grow hash).entries.Perm hm.entries
  := by
  rw [grow]
  split
  case isFalse => exact ⟨h, List.Perm.refl _⟩
  case isTrue =>
    have hinc : hm.slots.length ≤ hm.incSlots := by
      have hle := le_nextPrime (max (hm.slots.length + 1) (hm.slots.length * 3 / 2))
      rw [incSlots]
      omega
    have hlength : (hm.slots ++ List.replicate (hm.incSlots - hm.slots.length) []).length =
        hm.incSlots := by
      simp [hinc]
    have hwalk : ∀ (slots : List (List (HashmapEntry V))) i, slots.length = hm.incSlots →
        i < hm.incSlots → WalkedAt (fun entry => slotOf hash entry.key hm.incSlots) i slots
          (rehashSlot hash hm.incSlots i [] (chain slots i) slots) := fun slots i hlen hi =>
      walkedAt_rehashSlot hlen hi rfl fun _ hmem => nomatch hmem
    obtain ⟨hlen, hperm, hplaced⟩ := foldl_walkedAt hwalk hlength hinc
    rw [List.flatten_append, List.flatten_replicate_nil, List.append_nil] at hperm
    refine ⟨⟨?_, ?_, ?_, ?_⟩, hperm⟩
    · rw [rehashSlots, hlen]
      exact lt_of_lt_of_le h.pos hinc
    · intro slot
      rw [rehashSlots, hlen]
      apply hplaced
      by_cases hslot : slot < hm.slots.length
      · exact .inl hslot
      · right
        intro entry hmem
        simp only [chain, List.getD_eq_getElem?_getD] at hmem
        rw [List.getElem?_append_right (by omega), List.getElem?_replicate] at hmem
        split at hmem <;> simp at hmem
    · exact ((hperm.map _).nodup_iff).mpr h.distinct
    · rw [h.counted]
      exact hperm.length_eq.symm

/-! ### The operations -/

theorem setValue_eq_none {l : List (HashmapEntry V)} (h : setValue key value l = none) :
  ∀ entry ∈ l, entry.key ≠ key
  := by
  induction l with
  | nil => exact fun _ hmem => nomatch hmem
  | cons entry rest ih =>
    rw [setValue] at h
    split at h
    · cases h
    case isFalse hne =>
      exact List.forall_mem_cons.mpr ⟨hne, ih (Option.map_eq_none_iff.mp h)⟩

theorem setValue_eq_some {l l' : List (HashmapEntry V)} (h : setValue key value l = some l') :
  ∃ before entry after, l = before ++ entry :: after ∧ entry.key = key ∧
    l' = before ++ ⟨key, value⟩ :: after
  := by
  induction l generalizing l' with
  | nil => cases h
  | cons entry rest ih =>
    rw [setValue] at h
    split at h
    case isTrue hkey =>
      cases h
      exact ⟨[], entry, rest, rfl, hkey, by rw [← hkey]; rfl⟩
    case isFalse =>
      obtain ⟨rest', hrest, rfl⟩ := Option.map_eq_some_iff.mp h
      obtain ⟨before, found, after, rfl, hkey, rfl⟩ := ih hrest
      exact ⟨entry :: before, found, after, rfl, hkey, rfl⟩

theorem removeKey_eq_none {l : List (HashmapEntry V)} (h : removeKey key l = none) :
  ∀ entry ∈ l, entry.key ≠ key
  := by
  induction l with
  | nil => exact fun _ hmem => nomatch hmem
  | cons entry rest ih =>
    rw [removeKey] at h
    split at h
    · cases h
    case isFalse hne =>
      exact List.forall_mem_cons.mpr ⟨hne, ih (Option.map_eq_none_iff.mp h)⟩

theorem removeKey_eq_some {l l' : List (HashmapEntry V)} (h : removeKey key l = some l') :
  ∃ entry, entry.key = key ∧ l.Perm (entry :: l')
  := by
  induction l generalizing l' with
  | nil => cases h
  | cons entry rest ih =>
    rw [removeKey] at h
    split at h
    case isTrue hkey =>
      cases h
      exact ⟨entry, hkey, (lastFirst_perm rest).symm.cons entry⟩
    case isFalse =>
      obtain ⟨rest', hrest, rfl⟩ := Option.map_eq_some_iff.mp h
      obtain ⟨found, hkey, hperm⟩ := ih hrest
      exact ⟨found, hkey, (hperm.cons entry).trans (List.Perm.swap _ _ _)⟩

/-- What is left when the entry of a key is taken out. -/
theorem mem_rest_iff {l rest : List (HashmapEntry V)} {entry : HashmapEntry V}
    (hperm : l.Perm (entry :: rest)) (hnodup : (l.map HashmapEntry.key).Nodup)
    (e : HashmapEntry V) :
  e ∈ rest ↔ e ∈ l ∧ e.key ≠ entry.key
  := by
  have hcons := (hperm.map HashmapEntry.key).nodup_iff.mp hnodup
  obtain ⟨hnew, -⟩ := List.nodup_cons.mp hcons
  constructor
  · intro he
    refine ⟨hperm.mem_iff.mpr (List.mem_cons_of_mem _ he), fun hkey => hnew ?_⟩
    rw [← hkey]
    exact List.mem_map_of_mem he
  · rintro ⟨he, hne⟩
    refine (List.mem_cons.mp (hperm.mem_iff.mp he)).resolve_left ?_
    rintro rfl
    exact hne rfl

theorem placed_set {slots : List (List (HashmapEntry V))} {n slot : ℕ}
    {l : List (HashmapEntry V)} (hslot : slot < slots.length) (hplaced : ∀ j, Placed hash n slots j)
    (hl : ∀ entry ∈ l, slotOf hash entry.key n = slot) (j : ℕ) :
  Placed hash n (slots.set slot l) j
  := by
  intro entry hmem
  rw [chain_set hslot] at hmem
  split at hmem
  case isTrue hj =>
    rw [hj]
    exact hl entry hmem
  case isFalse => exact hplaced j entry hmem

theorem Sound.slotFor_lt (h : Sound hash hm) (key : UInt64) :
  hm.slotFor hash key < hm.slots.length
  := slotOf_lt key h.pos

/-- A value is changed. -/
theorem Sound.setValue (h : Sound hash hm) {l : List (HashmapEntry V)}
    (hset : setValue key value (chain hm.slots (hm.slotFor hash key)) = some l) :
  Sound hash { hm with slots := hm.slots.set (hm.slotFor hash key) l } ∧
    ∀ e, e ∈ (hm.slots.set (hm.slotFor hash key) l).flatten ↔
      e = ⟨key, value⟩ ∨ e ∈ hm.entries ∧ e.key ≠ key
  := by
  obtain ⟨before, entry, after, hchain, hkey, rfl⟩ := setValue_eq_some hset
  have hslot := h.slotFor_lt key
  -- both arrays have the entries of the array without the one of the key
  have hold : (entry :: (hm.slots.set (hm.slotFor hash key) (before ++ after)).flatten).Perm
      hm.entries := flatten_remove_perm hslot hchain
  have hnew : (hm.slots.set (hm.slotFor hash key) (before ++ ⟨key, value⟩ :: after)).flatten.Perm
      (⟨key, value⟩ :: (hm.slots.set (hm.slotFor hash key) (before ++ after)).flatten) := by
    have hchain' : (before ++ ⟨key, value⟩ :: after).Perm (⟨key, value⟩ :: chain
        (hm.slots.set (hm.slotFor hash key) (before ++ after)) (hm.slotFor hash key)) := by
      rw [chain_set_self hslot]
      exact List.perm_middle
    have hinsert := flatten_insert_perm (by rwa [List.length_set]) hchain'
    rwa [List.set_set] at hinsert
  have hkeys : ((hm.slots.set (hm.slotFor hash key)
      (before ++ ⟨key, value⟩ :: after)).flatten.map HashmapEntry.key).Perm
      (hm.entries.map HashmapEntry.key) := by
    refine (hnew.map _).trans (List.Perm.trans ?_ (hold.map _))
    rw [List.map_cons, List.map_cons, hkey]
  refine ⟨⟨?_, ?_, hkeys.nodup_iff.mpr h.distinct, ?_⟩, fun e => ?_⟩
  · rw [List.length_set]
    exact h.pos
  · rw [List.length_set]
    apply placed_set hslot h.placed
    intro e he
    obtain he | he := List.mem_append.mp he
    · exact h.placed _ e (by rw [hchain]; exact List.mem_append_left _ he)
    · obtain rfl | he := List.mem_cons.mp he
      · rfl
      · exact h.placed _ e (by
          rw [hchain]
          exact List.mem_append_right _ (List.mem_cons_of_mem _ he))
  · have hlength := hkeys.length_eq
    rw [List.length_map, List.length_map] at hlength
    exact h.counted.trans hlength.symm
  · rw [hnew.mem_iff, List.mem_cons, mem_rest_iff hold.symm h.distinct, hkey]

/-- A new entry. -/
theorem Sound.append (h : Sound hash hm)
    (hnone : Hashmap.setValue key value (chain hm.slots (hm.slotFor hash key)) = none) :
  Sound hash
      { slots := hm.slots.set (hm.slotFor hash key)
          (chain hm.slots (hm.slotFor hash key) ++ [⟨key, value⟩])
        numData := hm.numData + 1 } ∧
    (hm.slots.set (hm.slotFor hash key)
      (chain hm.slots (hm.slotFor hash key) ++ [⟨key, value⟩])).flatten.Perm
        (⟨key, value⟩ :: hm.entries) ∧
    ∀ e ∈ hm.entries, e.key ≠ key
  := by
  have hslot := h.slotFor_lt key
  have hfresh : ∀ e ∈ hm.entries, e.key ≠ key := by
    intro e he hkey
    have hmem := h.mem_slot he
    rw [hkey] at hmem
    exact setValue_eq_none hnone e hmem hkey
  have hperm : (hm.slots.set (hm.slotFor hash key)
      (chain hm.slots (hm.slotFor hash key) ++ [⟨key, value⟩])).flatten.Perm
        (⟨key, value⟩ :: hm.entries) :=
    flatten_insert_perm hslot (List.perm_append_singleton _ _)
  refine ⟨⟨?_, ?_, ?_, ?_⟩, hperm, hfresh⟩
  · rw [List.length_set]
    exact h.pos
  · rw [List.length_set]
    apply placed_set hslot h.placed
    intro e he
    obtain he | he := List.mem_append.mp he
    · exact h.placed _ e he
    · rw [List.mem_singleton.mp he]
      rfl
  · apply (hperm.map HashmapEntry.key).nodup_iff.mpr
    rw [List.map_cons, List.nodup_cons]
    refine ⟨fun hmem => ?_, h.distinct⟩
    obtain ⟨e, he, hkey⟩ := List.mem_map.mp hmem
    exact hfresh e he hkey
  · have hlength := hperm.length_eq
    rw [List.length_cons, ← h.counted] at hlength
    exact hlength.symm

theorem Sound.set (h : Sound hash hm) (key : UInt64) (value : V) :
  Sound hash (hm.set hash key value) ∧
    ∀ e, e ∈ (hm.set hash key value).entries ↔
      e = ⟨key, value⟩ ∨ e ∈ hm.entries ∧ e.key ≠ key
  := by
  rw [Hashmap.set]
  split
  case h_1 l hset => exact h.setValue hset
  case h_2 hnone =>
    obtain ⟨hsound, hperm, hfresh⟩ := h.append hnone
    obtain ⟨hgrown, hsame⟩ := grow_spec hsound
    refine ⟨hgrown, fun e => ?_⟩
    rw [(hsame.trans hperm).mem_iff, List.mem_cons]
    exact or_congr_right ⟨fun he => ⟨he, hfresh e he⟩, fun he => he.1⟩

theorem Sound.remove (h : Sound hash hm) (key : UInt64) :
  Sound hash (hm.remove hash key) ∧
    ∀ e, e ∈ (hm.remove hash key).entries ↔ e ∈ hm.entries ∧ e.key ≠ key
  := by
  have hslot := h.slotFor_lt key
  rw [Hashmap.remove]
  split
  case h_1 l hremove =>
    obtain ⟨entry, hkey, hchain⟩ := removeKey_eq_some hremove
    have hperm := flatten_take_perm hslot hchain
    have hmem := mem_rest_iff hperm.symm h.distinct
    rw [hkey] at hmem
    refine ⟨⟨?_, ?_, ?_, ?_⟩, hmem⟩
    · rw [List.length_set]
      exact h.pos
    · rw [List.length_set]
      apply placed_set hslot h.placed
      exact fun e he => h.placed _ e (hchain.mem_iff.mpr (List.mem_cons_of_mem _ he))
    · have hnodup := (hperm.map HashmapEntry.key).nodup_iff.mpr h.distinct
      exact (List.nodup_cons.mp hnodup).2
    · have hlength := hperm.length_eq
      rw [List.length_cons] at hlength
      have hcounted := h.counted
      simp only [entries] at hcounted ⊢
      omega
  case h_2 hnone =>
    refine ⟨h, fun e => ⟨fun he => ⟨he, fun hkey => ?_⟩, fun he => he.1⟩⟩
    have hmem := h.mem_slot he
    rw [hkey] at hmem
    exact removeKey_eq_none hnone e hmem hkey

theorem Sound.clear (h : Sound hash hm) :
  Sound hash hm.clear ∧ hm.clear.entries = []
  := by
  have hentries : hm.clear.entries = [] := by simp [entries, Hashmap.clear]
  refine ⟨⟨?_, ?_, ?_, ?_⟩, hentries⟩
  · simpa [Hashmap.clear] using h.pos
  · intro slot entry hmem
    have hin := mem_entries_of_mem_chain hmem
    rw [hentries] at hin
    cases hin
  · simp [hentries]
  · rw [hentries]
    rfl

/-! ### Hashmaps as functions -/

theorem get_create (initSize : ℕ) :
  (create initSize : Hashmap V).get hash = fun _ => none
  := by
  funext key
  cases hget : (create initSize : Hashmap V).get hash key with
  | none => rfl
  | some value =>
    have hmem := (sound_create initSize).get_eq_some_iff.mp hget
    simp [entries, create] at hmem

theorem Sound.get_set (h : Sound hash hm) (key : UInt64) (value : V) :
  (hm.set hash key value).get hash = Function.update (hm.get hash) key (some value)
  := by
  obtain ⟨hset, hmem⟩ := h.set key value
  funext key'
  apply Option.ext
  intro value'
  rw [hset.get_eq_some_iff, hmem, Function.update_apply]
  by_cases hkey : key' = key
  · simp [hkey, eq_comm]
  · simp [hkey, h.get_eq_some_iff]

theorem Sound.get_remove (h : Sound hash hm) (key : UInt64) :
  (hm.remove hash key).get hash = Function.update (hm.get hash) key none
  := by
  obtain ⟨hremove, hmem⟩ := h.remove key
  funext key'
  apply Option.ext
  intro value'
  rw [hremove.get_eq_some_iff, hmem, Function.update_apply]
  by_cases hkey : key' = key
  · simp [hkey]
  · simp [hkey, h.get_eq_some_iff]

theorem Sound.get_clear (h : Sound hash hm) :
  hm.clear.get hash = fun _ => none
  := by
  obtain ⟨hclear, hentries⟩ := h.clear
  funext key
  cases hget : hm.clear.get hash key with
  | none => rfl
  | some value =>
    have hmem := hclear.get_eq_some_iff.mp hget
    rw [hentries] at hmem
    cases hmem

end Hashmap
