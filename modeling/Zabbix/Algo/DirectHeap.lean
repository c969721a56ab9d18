import Zabbix.Algo.BinaryHeapRun
import Zabbix.Algo.Hashmap

/-!
# Heaps with a hashmap as key index

A binary heap with direct access as the library builds it: its key index is a hashmap, which
every operation that moves an element updates.  The hashmap is at each step the function that
is the key index of `BinaryHeap` (`Refines`), so that the results about heaps whose index is
a function hold of it, whatever the compare and the hash function are.

`index_exact` is about sequences of operations: after each of them the entries of the hashmap
are the keys of the used slots, each once and with the number of its slot, and the elements
in these slots are those that the operations put there and did not take out.
-/

open HeapOrder

/-- `zbx_binary_heap_t` with the option `ZBX_BINARY_HEAP_OPTION_DIRECT`. -/
structure DirectHeap (α : Type*) where
  elems : ℕ → BinaryHeap.Elem α
  elemsNum : ℕ
  elemsAlloc : ℕ
  keyIndex : Hashmap ℕ

namespace DirectHeap

open BinaryHeap (Elem)

variable {α : Type*}

/-- `zbx_binary_heap_create`, over uninitialised memory. -/
def create (garbage : ℕ → Elem α) : DirectHeap α where
  elems := garbage
  elemsNum := 0
  elemsAlloc := 0
  keyIndex := Hashmap.create 512

/-- Writes one slot of the array. -/
def setElem (heap : DirectHeap α) (index : ℕ) (elem : Elem α) : DirectHeap α :=
  { heap with elems := Function.update heap.elems index elem }

/-- `__binary_heap_ensure_free_space`; the array is `NULL` when no slot is allocated. -/
def ensureFreeSpace (heap : DirectHeap α) : DirectHeap α :=
  if heap.elemsAlloc = 0 then { heap with elemsNum := 0, elemsAlloc := 32 }
  else if heap.elemsNum = heap.elemsAlloc then
    { heap with elemsAlloc := max (heap.elemsAlloc + 1) (heap.elemsAlloc * 3 / 2) }
  else heap

section Operations

variable (hash : UInt64 → UInt32) (compare : Elem α → Elem α → ℤ)

/-- `zbx_hashmap_set` on the key index. -/
def setIndex (heap : DirectHeap α) (key : UInt64) (index : ℕ) : DirectHeap α :=
  { heap with keyIndex := heap.keyIndex.set hash key index }

/-- `zbx_hashmap_remove` on the key index. -/
def removeIndex (heap : DirectHeap α) (key : UInt64) : DirectHeap α :=
  { heap with keyIndex := heap.keyIndex.remove hash key }

/-- `swap`. -/
def swap (heap : DirectHeap α) (index1 index2 : ℕ) : DirectHeap α :=
  let heap := { heap with elems := exchange heap.elems index1 index2 }
  (heap.setIndex hash (heap.elems index1).key index1).setIndex hash
    (heap.elems index2).key index2

/-- `__binary_heap_bubble_up`. -/
def bubbleUp (heap : DirectHeap α) (index : ℕ) : DirectHeap α × ℕ :=
  if index ≠ 0 then
    if compare (heap.elems ((index - 1) / 2)) (heap.elems index) ≤ 0 then (heap, index)
    else bubbleUp (heap.swap hash ((index - 1) / 2) index) ((index - 1) / 2)
  else (heap, index)
termination_by index

/-- `__binary_heap_bubble_down`. -/
def bubbleDown (heap : DirectHeap α) (index : ℕ) : DirectHeap α × ℕ :=
  let left := 2 * index + 1
  let right := 2 * index + 2
  if heap.elemsNum ≤ left then (heap, index)
  else if heap.elemsNum ≤ right then
    if compare (heap.elems index) (heap.elems left) > 0 then (heap.swap hash index left, left)
    else (heap, index)
  else if compare (heap.elems left) (heap.elems right) ≤ 0 then
    if compare (heap.elems index) (heap.elems left) > 0 then
      bubbleDown (heap.swap hash index left) left
    else (heap, index)
  else
    if compare (heap.elems index) (heap.elems right) > 0 then
      bubbleDown (heap.swap hash index right) right
    else (heap, index)
termination_by heap.elemsNum - index
decreasing_by
  · simp only [swap, setIndex]
    omega
  · simp only [swap, setIndex]
    omega

/-- `zbx_binary_heap_insert`; `none` when the process ends, here and below. -/
def insert (heap : DirectHeap α) (elem : Elem α) : Option (DirectHeap α) :=
  if heap.keyIndex.get hash elem.key ≠ none then none
  else
    let heap := heap.ensureFreeSpace
    let index := heap.elemsNum
    let heap := { heap with elemsNum := heap.elemsNum + 1 }.setElem index elem
    let (heap, index) := heap.bubbleUp hash compare index
    some (if index = heap.elemsNum - 1 then heap.setIndex hash elem.key index else heap)

/-- `zbx_binary_heap_update_direct`. -/
def updateDirect (heap : DirectHeap α) (elem : Elem α) : Option (DirectHeap α) :=
  match heap.keyIndex.get hash elem.key with
  | none => none
  | some index =>
    let heap := heap.setElem index elem
    let (heap, moved) := heap.bubbleUp hash compare index
    some (if index = moved then (heap.bubbleDown hash compare index).1 else heap)

/-- `zbx_binary_heap_remove_min`. -/
def removeMin (heap : DirectHeap α) : Option (DirectHeap α) :=
  if heap.elemsNum = 0 then none
  else
    let heap := heap.removeIndex hash (heap.elems 0).key
    let heap := { heap with elemsNum := heap.elemsNum - 1 }
    if heap.elemsNum ≠ 0 then
      let heap := heap.setElem 0 (heap.elems heap.elemsNum)
      let (heap, index) := heap.bubbleDown hash compare 0
      some (if index = 0 then heap.setIndex hash (heap.elems index).key index else heap)
    else some heap

/-- `zbx_binary_heap_remove_direct`. -/
def removeDirect (heap : DirectHeap α) (key : UInt64) : Option (DirectHeap α) :=
  match heap.keyIndex.get hash key with
  | none => none
  | some index =>
    let heap := heap.removeIndex hash key
    let heap := { heap with elemsNum := heap.elemsNum - 1 }
    if index ≠ heap.elemsNum then
      let heap := heap.setElem index (heap.elems heap.elemsNum)
      let (heap, moved) := heap.bubbleDown hash compare index
      some (if index = moved then heap.setIndex hash (heap.elems index).key index else heap)
    else some heap

/-- `zbx_binary_heap_clear`. -/
def clear (heap : DirectHeap α) : DirectHeap α :=
  { heap with elemsNum := 0, elemsAlloc := 0, keyIndex := heap.keyIndex.clear }

end Operations

/-! ### The index as a function -/

variable {hash : UInt64 → UInt32} {compare : Elem α → Elem α → ℤ} {dh : DirectHeap α}
  {heap : BinaryHeap α}

/-- The heap with its key index as a function. -/
def toHeap (hash : UInt64 → UInt32) (dh : DirectHeap α) : BinaryHeap α where
  elems := dh.elems
  elemsNum := dh.elemsNum
  elemsAlloc := dh.elemsAlloc
  keyIndex := dh.keyIndex.get hash
  direct := true

/-- The hashmap is sound, and as a function it is the key index of `heap`. -/
structure Refines (hash : UInt64 → UInt32) (dh : DirectHeap α) (heap : BinaryHeap α) :
    Prop where
  sound : dh.keyIndex.Sound hash
  toHeap_eq : dh.toHeap hash = heap

theorem refines_create (hash : UInt64 → UInt32) (garbage : ℕ → Elem α) :
  Refines hash (create garbage) (BinaryHeap.create garbage true)
  := by
  constructor
  · apply Hashmap.sound_create
  · unfold toHeap create BinaryHeap.create
    simp only [Hashmap.get_create]

namespace Refines

theorem elems (h : Refines hash dh heap) :
  dh.elems = heap.elems
  := by
  rw [← h.toHeap_eq]
  rfl

theorem elemsNum (h : Refines hash dh heap) :
  dh.elemsNum = heap.elemsNum
  := by
  rw [← h.toHeap_eq]
  rfl

theorem direct (h : Refines hash dh heap) :
  heap.direct = true
  := by
  rw [← h.toHeap_eq]
  rfl

theorem setIndex (h : Refines hash dh heap) (key : UInt64) (index : ℕ) :
  Refines hash (dh.setIndex hash key index) (heap.setIndex key index)
  := by
  obtain ⟨hsound, rfl⟩ := h
  constructor
  · exact (hsound.set key index).1
  · simp only [toHeap, DirectHeap.setIndex, BinaryHeap.setIndex, if_true, hsound.get_set]

theorem removeIndex (h : Refines hash dh heap) (key : UInt64) :
  Refines hash (dh.removeIndex hash key) (heap.removeIndex key)
  := by
  obtain ⟨hsound, rfl⟩ := h
  constructor
  · exact (hsound.remove key).1
  · simp only [toHeap, DirectHeap.removeIndex, BinaryHeap.removeIndex, if_true,
      hsound.get_remove]

theorem setElem (h : Refines hash dh heap) (index : ℕ) (elem : Elem α) :
  Refines hash (dh.setElem index elem) (heap.setElem index elem)
  := by
  obtain ⟨hsound, rfl⟩ := h
  exact ⟨hsound, rfl⟩

theorem setElemsNum (h : Refines hash dh heap) (elemsNum : ℕ) :
  Refines hash { dh with elemsNum := elemsNum } { heap with elemsNum := elemsNum }
  := by
  obtain ⟨hsound, rfl⟩ := h
  exact ⟨hsound, rfl⟩

theorem ensureFreeSpace (h : Refines hash dh heap) :
  Refines hash dh.ensureFreeSpace heap.ensureFreeSpace
  := by
  obtain ⟨hsound, rfl⟩ := h
  refine ⟨?_, ?_⟩
  · rw [DirectHeap.ensureFreeSpace]
    split_ifs <;> exact hsound
  · rw [DirectHeap.ensureFreeSpace, BinaryHeap.ensureFreeSpace, apply_ite (toHeap hash),
      apply_ite (toHeap hash)]
    rfl

theorem swap (h : Refines hash dh heap) (index1 index2 : ℕ) :
  Refines hash (dh.swap hash index1 index2) (heap.swap index1 index2)
  := by
  unfold DirectHeap.swap BinaryHeap.swap
  rw [h.elems]
  apply setIndex
  apply setIndex
  obtain ⟨hsound, rfl⟩ := h
  exact ⟨hsound, rfl⟩

end Refines

/-- Two results of an operation that moves an element: related heaps and the same slot. -/
def MovesAlike (hash : UInt64 → UInt32) (moved : DirectHeap α × ℕ)
    (moved' : BinaryHeap α × ℕ) : Prop :=
  Refines hash moved.1 moved'.1 ∧ moved.2 = moved'.2

/-- A choice that both make alike. -/
theorem MovesAlike.ite {c : Prop} [Decidable c] {a b : DirectHeap α × ℕ}
    {a' b' : BinaryHeap α × ℕ} (hpos : c → MovesAlike hash a a')
    (hneg : ¬ c → MovesAlike hash b b') :
  MovesAlike hash (if c then a else b) (if c then a' else b')
  := by
  by_cases hc : c
  · rw [if_pos hc, if_pos hc]
    exact hpos hc
  · rw [if_neg hc, if_neg hc]
    exact hneg hc

namespace Refines

theorem bubbleUp (h : Refines hash dh heap) (compare : Elem α → Elem α → ℤ) (index : ℕ) :
  MovesAlike hash (dh.bubbleUp hash compare index) (heap.bubbleUp compare index)
  := by
  induction index using Nat.strong_induction_on generalizing dh heap with
  | _ index ih =>
    rw [DirectHeap.bubbleUp, BinaryHeap.bubbleUp, ← h.elems]
    apply MovesAlike.ite
    · intro hne
      apply MovesAlike.ite
      · exact fun _ => ⟨h, rfl⟩
      · intro _
        exact ih _ (parent_lt hne) (h.swap _ _)
    · exact fun _ => ⟨h, rfl⟩

theorem bubbleDown (h : Refines hash dh heap) (compare : Elem α → Elem α → ℤ) (index : ℕ) :
  MovesAlike hash (dh.bubbleDown hash compare index) (heap.bubbleDown compare index)
  := by
  induction hn : dh.elemsNum - index using Nat.strong_induction_on generalizing dh heap index with
  | _ n ih =>
    have down : ∀ child, index < child → child < dh.elemsNum →
        MovesAlike hash ((dh.swap hash index child).bubbleDown hash compare child)
          ((heap.swap index child).bubbleDown compare child) := by
      intro child hlt hchild
      refine ih (dh.elemsNum - child) ?_ (h.swap index child) child rfl
      omega
    rw [DirectHeap.bubbleDown, BinaryHeap.bubbleDown, ← h.elemsNum, ← h.elems]
    apply MovesAlike.ite
    · exact fun _ => ⟨h, rfl⟩
    · intro hleft
      apply MovesAlike.ite
      · intro _
        apply MovesAlike.ite
        · exact fun _ => ⟨h.swap _ _, rfl⟩
        · exact fun _ => ⟨h, rfl⟩
      · intro hright
        apply MovesAlike.ite
        · intro _
          apply MovesAlike.ite
          · exact fun _ => down _ (by omega) (by omega)
          · exact fun _ => ⟨h, rfl⟩
        · intro _
          apply MovesAlike.ite
          · exact fun _ => down _ (by omega) (by omega)
          · exact fun _ => ⟨h, rfl⟩

/-- An entry that is written in both or in none. -/
theorem setIndexIf (h : Refines hash dh heap) (c : Prop) [Decidable c] (key : UInt64)
    (index : ℕ) :
  Refines hash (if c then dh.setIndex hash key index else dh)
    (if c then heap.setIndex key index else heap)
  := by
  split_ifs
  · exact h.setIndex key index
  · exact h

theorem insert (h : Refines hash dh heap) (elem : Elem α) :
  Option.Rel (Refines hash) (dh.insert hash compare elem) (heap.insert compare elem)
  := by
  have hindex : dh.keyIndex.get hash elem.key = heap.keyIndex elem.key := by
    rw [← h.toHeap_eq]
    rfl
  unfold DirectHeap.insert BinaryHeap.insert
  by_cases hnone : heap.keyIndex elem.key = none
  · rw [if_neg (by simp [hindex, hnone]), if_neg (by simp [hnone])]
    have hfree := h.ensureFreeSpace
    have hmoved := ((hfree.setElemsNum (heap.ensureFreeSpace.elemsNum + 1)).setElem
      heap.ensureFreeSpace.elemsNum elem).bubbleUp compare
        heap.ensureFreeSpace.elemsNum
    dsimp only
    rw [hfree.elemsNum, hmoved.2, hmoved.1.elemsNum]
    exact .some (hmoved.1.setIndexIf _ _ _)
  · rw [if_pos (by simp [hindex, hnone]), if_pos ⟨h.direct, hnone⟩]
    exact .none

theorem updateDirect (h : Refines hash dh heap) (elem : Elem α) :
  Option.Rel (Refines hash) (dh.updateDirect hash compare elem)
    (heap.updateDirect compare elem)
  := by
  have hindex : dh.keyIndex.get hash elem.key = heap.keyIndex elem.key := by
    rw [← h.toHeap_eq]
    rfl
  unfold DirectHeap.updateDirect BinaryHeap.updateDirect
  rw [if_pos h.direct, hindex]
  cases heap.keyIndex elem.key with
  | none => exact .none
  | some index =>
    have hup := (h.setElem index elem).bubbleUp compare index
    dsimp only
    rw [hup.2]
    apply Option.Rel.some
    split_ifs
    · exact (hup.1.bubbleDown compare index).1
    · exact hup.1

/-- The slot of the last element is given up, and the element moves down from slot `index`. -/
theorem fillHole (h : Refines hash dh heap) (compare : Elem α → Elem α → ℤ) (index : ℕ) :
  MovesAlike hash ((dh.setElem index (dh.elems dh.elemsNum)).bubbleDown hash compare index)
    ((heap.setElem index (heap.elems heap.elemsNum)).bubbleDown compare index)
  := by
  rw [h.elems, h.elemsNum]
  exact (h.setElem _ _).bubbleDown compare index

theorem removeMin (h : Refines hash dh heap) :
  Option.Rel (Refines hash) (dh.removeMin hash compare) (heap.removeMin compare)
  := by
  unfold DirectHeap.removeMin BinaryHeap.removeMin
  rw [h.elemsNum, h.elems]
  by_cases hzero : heap.elemsNum = 0
  · rw [if_pos hzero, if_pos hzero]
    exact .none
  · rw [if_neg hzero, if_neg hzero]
    have hremove := h.removeIndex (heap.elems 0).key
    have hfewer := hremove.setElemsNum ((heap.removeIndex (heap.elems 0).key).elemsNum - 1)
    have hmoved := hfewer.fillHole compare 0
    dsimp only at hmoved ⊢
    rw [hremove.elemsNum]
    by_cases hrest : (heap.removeIndex (heap.elems 0).key).elemsNum - 1 ≠ 0
    · rw [if_pos hrest, if_pos hrest, hmoved.2, hmoved.1.elems]
      exact .some (hmoved.1.setIndexIf _ _ _)
    · rw [if_neg hrest, if_neg hrest]
      exact .some hfewer

theorem removeDirect (h : Refines hash dh heap) (key : UInt64) :
  Option.Rel (Refines hash) (dh.removeDirect hash compare key)
    (heap.removeDirect compare key)
  := by
  have hindex : dh.keyIndex.get hash key = heap.keyIndex key := by
    rw [← h.toHeap_eq]
    rfl
  unfold DirectHeap.removeDirect BinaryHeap.removeDirect
  rw [if_pos h.direct, hindex]
  cases heap.keyIndex key with
  | none => exact .none
  | some index =>
    have hremove := h.removeIndex key
    have hfewer := hremove.setElemsNum ((heap.removeIndex key).elemsNum - 1)
    have hmoved := hfewer.fillHole compare index
    dsimp only at hmoved ⊢
    rw [hremove.elemsNum]
    by_cases hrest : index ≠ (heap.removeIndex key).elemsNum - 1
    · rw [if_pos hrest, if_pos hrest, hmoved.2, hmoved.1.elems]
      exact .some (hmoved.1.setIndexIf _ _ _)
    · rw [if_neg hrest, if_neg hrest]
      exact .some hfewer

theorem clear (h : Refines hash dh heap) :
  Refines hash dh.clear heap.clear
  := by
  obtain ⟨hsound, rfl⟩ := h
  constructor
  · exact hsound.clear.1
  · simp only [toHeap, DirectHeap.clear, BinaryHeap.clear, if_true, hsound.get_clear]

end Refines

/-! ### Runs -/

/-- The operations that change a heap. -/
inductive Op (α : Type*) where
  | insert (elem : Elem α)
  | updateDirect (elem : Elem α)
  | removeMin
  | removeDirect (key : UInt64)
  | clear

/-- One operation; `none` when the process ends. -/
def step (hash : UInt64 → UInt32) (compare : Elem α → Elem α → ℤ) (heap : DirectHeap α) :
    Op α → Option (DirectHeap α)
  | .insert elem => heap.insert hash compare elem
  | .updateDirect elem => heap.updateDirect hash compare elem
  | .removeMin => heap.removeMin hash compare
  | .removeDirect key => heap.removeDirect hash compare key
  | .clear => some heap.clear

/-- The elements that should be in the heap after an operation. -/
def tracked (heap : DirectHeap α) (m : Multiset (Elem α)) : Op α → Multiset (Elem α)
  | .insert elem => elem ::ₘ m
  | .updateDirect elem => elem ::ₘ m.filter (·.key ≠ elem.key)
  | .removeMin => m.filter (·.key ≠ (heap.elems 0).key)
  | .removeDirect key => m.filter (·.key ≠ key)
  | .clear => 0

/-- Applies operations one after another. -/
def run (hash : UInt64 → UInt32) (compare : Elem α → Elem α → ℤ) :
    DirectHeap α × Multiset (Elem α) → List (Op α) →
      Option (DirectHeap α × Multiset (Elem α))
  | s, [] => some s
  | s, op :: ops =>
    (step hash compare s.1 op).bind fun heap =>
      run hash compare (heap, tracked s.1 s.2 op) ops

/-- A fresh key is inserted; a key that is updated or removed is present; an element is
taken from a heap with elements. -/
def Allowed (m : Multiset (Elem α)) : Op α → Prop
  | .insert elem => ∀ e ∈ m, e.key ≠ elem.key
  | .updateDirect elem => ∃ e ∈ m, e.key = elem.key
  | .removeMin => m ≠ 0
  | .removeDirect key => ∃ e ∈ m, e.key = key
  | .clear => True

/-- The elements of the used slots. -/
def contents (heap : DirectHeap α) : Multiset (Elem α) :=
  (Multiset.range heap.elemsNum).map heap.elems

/-- The index has the keys of the used slots, each once and with its slot, and finds them. -/
structure IndexExact (hash : UInt64 → UInt32) (heap : DirectHeap α) : Prop where
  mem_iff : ∀ e, e ∈ heap.keyIndex.entries ↔
    ∃ i, i < heap.elemsNum ∧ e = { key := (heap.elems i).key, value := i }
  distinct : (heap.keyIndex.entries.map HashmapEntry.key).Nodup
  get_iff : ∀ key i, heap.keyIndex.get hash key = some i ↔
    i < heap.elemsNum ∧ (heap.elems i).key = key

/-- What every operation keeps. -/
structure Sound (hash : UInt64 → UInt32) (dh : DirectHeap α) (m : Multiset (Elem α)) :
    Prop where
  index : dh.keyIndex.Sound hash
  heap : (dh.toHeap hash).Sound m

variable {m : Multiset (Elem α)} {dh' : DirectHeap α}

theorem sound_create (garbage : ℕ → Elem α) :
  Sound hash (create garbage) 0
  := by
  obtain ⟨hsound, heq⟩ := refines_create hash garbage
  refine ⟨hsound, ?_⟩
  rw [heq]
  exact BinaryHeap.sound_create garbage

namespace Sound

theorem refines (h : Sound hash dh m) :
  Refines hash dh (dh.toHeap hash)
  := ⟨h.index, rfl⟩

theorem indexExact (h : Sound hash dh m) :
  IndexExact hash dh
  := by
  have hget : ∀ key i, dh.keyIndex.get hash key = some i ↔
      i < dh.elemsNum ∧ (dh.elems i).key = key := h.heap.indexed
  refine ⟨fun e => ?_, h.index.distinct, hget⟩
  obtain ⟨key, value⟩ := e
  rw [← h.index.get_eq_some_iff, hget]
  constructor
  · rintro ⟨hlt, rfl⟩
    exact ⟨value, hlt, rfl⟩
  · rintro ⟨i, hlt, he⟩
    obtain ⟨rfl, rfl⟩ := HashmapEntry.mk.inj he
    exact ⟨hlt, rfl⟩

theorem contents_eq (h : Sound hash dh m) :
  dh.contents = m
  := h.heap.contents

/-- A key is found exactly when an element has it. -/
theorem get_eq_none_iff (h : Sound hash dh m) (key : UInt64) :
  dh.keyIndex.get hash key = none ↔ ∀ e ∈ m, e.key ≠ key
  := by
  have hget := h.indexExact.get_iff key
  constructor
  · intro hnone e he hkey
    rw [← h.heap.contents, BinaryHeap.mem_contents] at he
    obtain ⟨i, hi, rfl⟩ := he
    have hsome := (hget i).mpr ⟨hi, hkey⟩
    rw [hnone] at hsome
    contradiction
  · intro hfresh
    cases hsome : dh.keyIndex.get hash key with
    | none => rfl
    | some i =>
      obtain ⟨hi, hkey⟩ := (hget i).mp hsome
      refine absurd hkey (hfresh _ ?_)
      rw [← h.heap.contents, BinaryHeap.mem_contents]
      exact ⟨i, hi, rfl⟩

theorem elemsNum_eq_zero_iff (h : Sound hash dh m) :
  dh.elemsNum = 0 ↔ m = 0
  := by
  have hcard : m.card = dh.elemsNum := by
    rw [← h.contents_eq, contents, Multiset.card_map, Multiset.card_range]
  rw [← hcard, Multiset.card_eq_zero]

/-- An operation of the heap with the hashmap is one of the heap with the function. -/
theorem of_rel {r : Option (DirectHeap α)} {r' : Option (BinaryHeap α)}
    {m' : Multiset (Elem α)} (hrel : Option.Rel (Refines hash) r r')
    (hr : r = some dh') (h : ∀ heap', r' = some heap' → heap'.Sound m') :
  Sound hash dh' m'
  := by
  subst hr
  cases hrel with
  | some hrefines =>
    refine ⟨hrefines.sound, ?_⟩
    rw [hrefines.toHeap_eq]
    exact h _ rfl

theorem insert {elem : Elem α} (h : Sound hash dh m)
    (hop : dh.insert hash compare elem = some dh') :
  Sound hash dh' (elem ::ₘ m)
  := by
  apply of_rel (h.refines.insert elem) hop
  intro heap' hheap'
  exact (BinaryHeap.insert_spec (BinaryHeap.respects_true compare) h.heap
    (fun _ _ _ => trivial) hheap').1

theorem updateDirect {elem : Elem α} (h : Sound hash dh m)
    (hop : dh.updateDirect hash compare elem = some dh') :
  Sound hash dh' (elem ::ₘ m.filter (·.key ≠ elem.key))
  := by
  apply of_rel (h.refines.updateDirect elem) hop
  intro heap' hheap'
  exact (BinaryHeap.updateDirect_spec (BinaryHeap.respects_true compare) h.heap
    (fun _ _ => ⟨fun _ _ _ _ _ => trivial, fun _ _ _ _ _ => trivial⟩) hheap').1

/-- A removal at a used slot. -/
theorem removeAt (h : Sound hash dh m) {k : ℕ} (hk : k < dh.elemsNum) :
  ((dh.toHeap hash).removeAt compare k).Sound (m.filter (·.key ≠ (dh.elems k).key))
  := (BinaryHeap.removeAt_spec (BinaryHeap.respects_true compare) h.heap
    ⟨fun _ _ _ _ _ => trivial, fun _ _ _ _ _ => trivial⟩ hk).1

theorem removeMin (h : Sound hash dh m) (hop : dh.removeMin hash compare = some dh') :
  Sound hash dh' (m.filter (·.key ≠ (dh.elems 0).key))
  := by
  have hzero : dh.elemsNum ≠ 0 := by
    intro hzero
    rw [DirectHeap.removeMin, if_pos hzero] at hop
    contradiction
  apply of_rel h.refines.removeMin hop
  intro heap' hheap'
  rw [BinaryHeap.removeMin_eq hzero] at hheap'
  obtain rfl := Option.some.inj hheap'
  exact h.removeAt (Nat.pos_of_ne_zero hzero)

theorem removeDirect {key : UInt64} (h : Sound hash dh m)
    (hop : dh.removeDirect hash compare key = some dh') :
  Sound hash dh' (m.filter (·.key ≠ key))
  := by
  apply of_rel (h.refines.removeDirect key) hop
  intro heap' hheap'
  cases hindex : (dh.toHeap hash).keyIndex key with
  | none =>
    rw [BinaryHeap.removeDirect, if_pos h.heap.direct, hindex] at hheap'
    contradiction
  | some k =>
    obtain ⟨hk, hkey⟩ := (h.heap.indexed key k).mp hindex
    rw [BinaryHeap.removeDirect_eq h.heap.direct hindex hkey] at hheap'
    obtain rfl := Option.some.inj hheap'
    rw [← hkey]
    exact h.removeAt hk

theorem clear (h : Sound hash dh m) :
  Sound hash dh.clear 0
  := by
  obtain ⟨hsound, heq⟩ := h.refines.clear
  refine ⟨hsound, ?_⟩
  rw [heq]
  refine ⟨h.heap.direct, Nat.le_refl 0, fun key i => ?_, rfl⟩
  simp [BinaryHeap.clear, h.heap.direct]

/-- One operation. -/
theorem step (h : Sound hash dh m) {op : Op α} (hop : dh.step hash compare op = some dh') :
  Sound hash dh' (dh.tracked m op)
  := by
  cases op with
  | insert elem => exact h.insert hop
  | updateDirect elem => exact h.updateDirect hop
  | removeMin => exact h.removeMin hop
  | removeDirect key => exact h.removeDirect hop
  | clear =>
    obtain rfl := Option.some.inj hop
    exact h.clear

/-- The process ends at the operations that are not allowed, and at no others. -/
theorem step_eq_none_iff (h : Sound hash dh m) (op : Op α) :
  dh.step hash compare op = none ↔ ¬ Allowed m op
  := by
  have hpresent : ∀ key, dh.keyIndex.get hash key = none ↔ ¬ ∃ e ∈ m, e.key = key := by
    intro key
    rw [h.get_eq_none_iff]
    simp only [not_exists, not_and, ne_eq]
  cases op with
  | insert elem =>
    change DirectHeap.insert .. = none ↔ ¬ ∀ e ∈ m, e.key ≠ elem.key
    rw [← h.get_eq_none_iff, DirectHeap.insert]
    split_ifs <;> simp_all
  | updateDirect elem =>
    change DirectHeap.updateDirect .. = none ↔ ¬ ∃ e ∈ m, e.key = elem.key
    rw [← hpresent, DirectHeap.updateDirect]
    cases dh.keyIndex.get hash elem.key <;> simp
  | removeMin =>
    change DirectHeap.removeMin .. = none ↔ ¬ m ≠ 0
    rw [not_not, ← h.elemsNum_eq_zero_iff, DirectHeap.removeMin]
    by_cases hzero : dh.elemsNum = 0
    · rw [if_pos hzero]
      exact iff_of_true rfl hzero
    · rw [if_neg hzero]
      refine iff_of_false ?_ hzero
      dsimp only
      split_ifs <;> simp
  | removeDirect key =>
    change DirectHeap.removeDirect .. = none ↔ ¬ ∃ e ∈ m, e.key = key
    rw [← hpresent, DirectHeap.removeDirect]
    cases dh.keyIndex.get hash key with
    | none => simp
    | some index =>
      dsimp only
      split_ifs <;> simp
  | clear => simp [DirectHeap.step, Allowed]

theorem run (ops : List (Op α)) (h : Sound hash dh m) {s : DirectHeap α × Multiset (Elem α)}
    (hrun : DirectHeap.run hash compare (dh, m) ops = some s) :
  Sound hash s.1 s.2
  := by
  induction ops generalizing dh m with
  | nil =>
    obtain rfl := Option.some.inj hrun
    exact h
  | cons op ops ih =>
    obtain ⟨dh', hstep, hrest⟩ := Option.bind_eq_some_iff.mp hrun
    exact ih (h.step hstep) hrest

end Sound

/-- After every sequence of operations the index is exact, the elements are those that were
inserted and not taken out or replaced, and the process ends at the next operation exactly
when it is not allowed. -/
theorem index_exact (hash : UInt64 → UInt32) (compare : Elem α → Elem α → ℤ)
    (garbage : ℕ → Elem α) (ops : List (Op α)) {s : DirectHeap α × Multiset (Elem α)}
    (hrun : run hash compare (create garbage, 0) ops = some s) :
  IndexExact hash s.1 ∧ s.1.contents = s.2 ∧
    ∀ op, s.1.step hash compare op = none ↔ ¬ Allowed s.2 op
  := by
  have h := (sound_create garbage).run ops hrun
  exact ⟨h.indexExact, h.contents_eq, h.step_eq_none_iff⟩

/-! ### A run -/

/-- Keys that all fall into one slot of the hashmap. -/
def sampleHash (_ : UInt64) : UInt32 := 7

def sampleElem (key : UInt64) (data : ℤ) : Elem ℤ := { key, data }

/-- Elements are inserted, one is moved to the front, others leave, and the heap is emptied
and used again. -/
def sampleOps : List (Op ℤ) :=
  [.insert (sampleElem 1 10), .insert (sampleElem 2 5), .insert (sampleElem 3 7),
    .updateDirect (sampleElem 1 2), .removeMin, .removeDirect 3, .clear,
    .insert (sampleElem 3 1), .insert (sampleElem 1 0)]

theorem sampleOps_isSome :
  (run sampleHash BinaryHeap.byData (create fun _ => sampleElem 0 0, 0) sampleOps).isSome
  := by decide +kernel

theorem index_exact_sampleOps :
  IndexExact sampleHash
    ((run sampleHash BinaryHeap.byData (create fun _ => sampleElem 0 0, 0) sampleOps).get
      sampleOps_isSome).1
  := (index_exact sampleHash BinaryHeap.byData (fun _ => sampleElem 0 0) sampleOps
    (Option.some_get sampleOps_isSome).symm).1

end DirectHeap
