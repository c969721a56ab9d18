import Zabbix.Algo.NextPrime
import Zabbix.Library.Chains

/-!
# Hashsets

The hashset of the algorithm library: an array of chains of entries, which is enlarged
and rehashed when its load grows. An entry carries its address, its hash and a copy of
the bytes it was inserted with.

What the memory functions answer during an insertion is an input of it. A call that ends
the process or follows a pointer to an entry that is gone gives `none`.
-/

open Chains

/-- The functions a hashset is created with. -/
structure HashFunctions where
  hash : List UInt8 → UInt32
  compare : List UInt8 → List UInt8 → ℤ

/-- `ZBX_HASHSET_ENTRY_T` at its address. -/
structure HashEntry where
  address : ℕ
  hash : UInt32
  data : List UInt8
deriving DecidableEq

/-- `zbx_hashset_t`: the chains of the slots. -/
structure Hashset where
  slots : List (List HashEntry)
  numData : ℕ

/-- What `mem_realloc_func` and `mem_malloc_func` answer: whether the slots could be
enlarged, and the address and former contents of the block for the entry. -/
structure HashAllocation where
  realloc : Bool
  malloc : Option (ℕ × (ℕ → UInt8))

namespace Hashset

/-- `hash % num_slots`. -/
def slotOf (hash : UInt32) (numSlots : ℕ) : ℕ := hash.toNat % numSlots

/-- A successful `zbx_hashset_create_ext`. -/
def create (initSize : ℕ) : Hashset where
  slots := List.replicate (nextPrime initSize) []
  numData := 0

/-- The test of an entry against the data looked for. -/
def isEntryOf (f : HashFunctions) (data : List UInt8) (entry : HashEntry) : Bool :=
  entry.hash = f.hash data && f.compare entry.data data = 0

/-- The chain the data belongs to. -/
def chainFor (f : HashFunctions) (hs : Hashset) (data : List UInt8) : List HashEntry :=
  chain hs.slots (slotOf (f.hash data) hs.slots.length)

def search (f : HashFunctions) (hs : Hashset) (data : List UInt8) : Option HashEntry :=
  (hs.chainFor f data).find? (isEntryOf f data)

/-- The walk over one chain when the slots are `incSlots`: `kept` are the entries that
stay, `rest` those still to be visited. An entry of another slot goes to the head of the
chain there. -/
def rehashChain (incSlots slot : ℕ) :
    List HashEntry → List HashEntry → List (List HashEntry) → List (List HashEntry)
  | _, [], slots => slots
  | kept, entry :: rest, slots =>
    let newSlot := slotOf entry.hash incSlots
    if slot ≠ newSlot then
      let slots := slots.set newSlot (entry :: chain slots newSlot)
      rehashChain incSlots slot kept rest (slots.set slot (kept ++ rest))
    else rehashChain incSlots slot (kept ++ [entry]) rest slots

/-- Visits the chains of the first `count` slots. -/
def rehashSlots (incSlots count : ℕ) (slots : List (List HashEntry)) :
    List (List HashEntry) :=
  (List.range count).foldl
    (fun slots slot => rehashChain incSlots slot [] (chain slots slot) slots) slots

/-- The slots after the reallocation and the rehash loop. -/
def rehash (slots : List (List HashEntry)) (incSlots : ℕ) : List (List HashEntry) :=
  rehashSlots incSlots slots.length
    (slots ++ List.replicate (incSlots - slots.length) [])

/-- The number of slots after the next enlargement. -/
def incSlots (hs : Hashset) : ℕ :=
  nextPrime (max (hs.slots.length + 1) (hs.slots.length * 3 / 2))

/-- Enlarges the slots when the load is critical; `none` when there is no memory. -/
def grow (hs : Hashset) (realloc : Bool) : Option Hashset :=
  if hs.numData + 1 ≥ hs.slots.length * 4 / 5 then
    if realloc then some { hs with slots := rehash hs.slots hs.incSlots } else none
  else some hs

/-- The bytes of a new entry: the first `offset` of them are left as they were found. -/
def copied (data : List UInt8) (offset : ℕ) (found : ℕ → UInt8) : List UInt8 :=
  (List.range offset).map found ++ data.drop offset

/-- Puts an entry at the head of its chain. -/
def link (hs : Hashset) (entry : HashEntry) : Hashset :=
  let slot := slotOf entry.hash hs.slots.length
  { slots := hs.slots.set slot (entry :: chain hs.slots slot)
    numData := hs.numData + 1 }

/-- `zbx_hashset_insert_ext`: the hashset and the entry whose data is returned. -/
def insertExt (f : HashFunctions) (hs : Hashset) (data : List UInt8) (offset : ℕ)
    (alloc : HashAllocation) : Hashset × Option HashEntry :=
  match hs.search f data with
  | some entry => (hs, some entry)
  | none =>
    match hs.grow alloc.realloc with
    | none => (hs, none)
    | some hs =>
      match alloc.malloc with
      | none => (hs, none)
      | some (address, found) =>
        let entry :=
          { address := address, hash := f.hash data, data := copied data offset found }
        (hs.link entry, some entry)

/-- `zbx_hashset_remove`: the head of the chain and the entries behind it alike. -/
def remove (f : HashFunctions) (hs : Hashset) (data : List UInt8) : Hashset :=
  if (hs.chainFor f data).any (isEntryOf f data) then
    { slots := hs.slots.set (slotOf (f.hash data) hs.slots.length)
        ((hs.chainFor f data).eraseP (isEntryOf f data))
      numData := hs.numData - 1 }
  else hs

def clear (hs : Hashset) : Hashset where
  slots := hs.slots.map fun _ => []
  numData := 0

/-! ### Iterators -/

end Hashset

/-- `zbx_hashset_iter_t`: the slot, or `ITER_START` or `ITER_FINISH`, and the address of
the entry. -/
structure HashIter where
  slot : ℤ
  entry : Option ℕ
deriving DecidableEq

namespace HashIter

def start : ℤ := -1
def finish : ℤ := -2

def reset (iter : HashIter) : HashIter := { iter with slot := start }

/-- The entries behind the one at an address, when it is in the hashset. -/
def behind (hs : Hashset) (address : ℕ) : Option (List HashEntry) :=
  (hs.slots.find? fun chain => chain.any (·.address = address)).map
    fun chain => (chain.dropWhile (·.address ≠ address)).tail

/-- Goes on to the head of the next chain that has one. -/
def advance (hs : Hashset) (iter : HashIter) : HashIter × Option HashEntry :=
  let first := (iter.slot + 1).toNat
  match (List.range' first (hs.slots.length - first)).find?
      fun slot => !(chain hs.slots slot).isEmpty with
  | some slot =>
    ({ slot := slot, entry := (chain hs.slots slot).head?.map HashEntry.address },
      (chain hs.slots slot).head?)
  | none => ({ iter with slot := finish }, none)

/-- `zbx_hashset_iter_next`. -/
def next (hs : Hashset) (iter : HashIter) : Option (HashIter × Option HashEntry) :=
  if iter.slot = finish then some (iter, none)
  else
    match (if iter.slot = start then none else iter.entry) with
    | none => some (iter.advance hs)
    | some address =>
      match behind hs address with
      | none => none
      | some [] => some (iter.advance hs)
      | some (entry :: _) =>
        some ({ iter with entry := some entry.address }, some entry)

/-- `zbx_hashset_iter_remove`: the iterator falls back on the entry before the removed
one, or before the slot. -/
def remove (hs : Hashset) (iter : HashIter) : Option (Hashset × HashIter) :=
  if iter.slot = start ∨ iter.slot = finish then none
  else
    match iter.entry with
    | none => none
    | some address =>
      let slot := iter.slot.toNat
      let before := (chain hs.slots slot).takeWhile (·.address ≠ address)
      match (chain hs.slots slot).dropWhile (·.address ≠ address) with
      | [] => none
      | _ :: after =>
        let hs := { slots := hs.slots.set slot (before ++ after), numData := hs.numData - 1 }
        match before.getLast? with
        | none => some (hs, { slot := iter.slot - 1, entry := none })
        | some prev => some (hs, { iter with entry := some prev.address })

end HashIter

namespace Hashset

/-- The calls of the interface, with the iterators known by number. -/
inductive Call where
  | insertExt (data : List UInt8) (offset : ℕ) (alloc : HashAllocation)
  | search (data : List UInt8)
  | remove (data : List UInt8)
  | clear
  | iterReset (iter : ℕ)
  | iterNext (iter : ℕ)
  | iterRemove (iter : ℕ)

/-- A hashset and the iterators over it. -/
structure State where
  hs : Hashset
  iters : ℕ → HashIter

/-- The state after a call and the entry whose data it returns. -/
def call (f : HashFunctions) (s : State) : Call → Option (State × Option HashEntry)
  | .insertExt data offset alloc =>
    let (hs, entry) := s.hs.insertExt f data offset alloc
    some ({ s with hs := hs }, entry)
  | .search data => some (s, s.hs.search f data)
  | .remove data => some ({ s with hs := s.hs.remove f data }, none)
  | .clear => some ({ s with hs := s.hs.clear }, none)
  | .iterReset iter =>
    some ({ s with iters := Function.update s.iters iter (s.iters iter).reset }, none)
  | .iterNext iter => do
    let (it, entry) ← (s.iters iter).next s.hs
    some ({ s with iters := Function.update s.iters iter it }, entry)
  | .iterRemove iter => do
    let (hs, it) ← (s.iters iter).remove s.hs
    some ({ hs := hs, iters := Function.update s.iters iter it }, none)

/-- The state after a call. -/
def step (f : HashFunctions) (s : State) (c : Call) : Option State :=
  (call f s c).map Prod.fst

/-- All entries. -/
def entries (hs : Hashset) : List HashEntry := hs.slots.flatten

end Hashset
