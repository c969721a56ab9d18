import Mathlib.Data.Multiset.Basic
import Mathlib.Data.Multiset.Range
import Zabbix.Library.HeapOrder

/-!
# Binary heaps with direct access

The binary heap of the algorithm library. Elements carry a 64-bit key and a data
pointer; the heap is an array of elements of which the first `elemsNum` are used, and,
with the direct option, a map from the keys to the slots of their elements. Slots past
`elemsNum` hold whatever was last written there.

The operations that end the process (an empty heap, a duplicate or an unknown key, a
direct operation on a heap without the option) give `none`.
-/

open HeapOrder

namespace BinaryHeap

/-- An element: a key and the data it points to. -/
structure Elem (α : Type*) where
  key : UInt64
  data : α
deriving DecidableEq, Repr

end BinaryHeap

/-- A heap. `elemsAlloc` is the number of allocated slots, `direct` the option
`ZBX_BINARY_HEAP_OPTION_DIRECT`. -/
structure BinaryHeap (α : Type*) where
  elems : ℕ → BinaryHeap.Elem α
  elemsNum : ℕ
  elemsAlloc : ℕ
  keyIndex : UInt64 → Option ℕ
  direct : Bool

namespace BinaryHeap

variable {α : Type*}

/-- An empty heap over uninitialised memory. -/
def create (garbage : ℕ → Elem α) (direct : Bool) : BinaryHeap α where
  elems := garbage
  elemsNum := 0
  elemsAlloc := 0
  keyIndex := fun _ => none
  direct := direct

/-- `zbx_hashmap_set` on the key index, when the heap has one. -/
def setIndex (heap : BinaryHeap α) (key : UInt64) (index : ℕ) : BinaryHeap α :=
  if heap.direct then
    { heap with keyIndex := Function.update heap.keyIndex key (some index) }
  else heap

/-- `zbx_hashmap_remove` on the key index, when the heap has one. -/
def removeIndex (heap : BinaryHeap α) (key : UInt64) : BinaryHeap α :=
  if heap.direct then
    { heap with keyIndex := Function.update heap.keyIndex key none }
  else heap

/-- Writes one slot of the array. -/
def setElem (heap : BinaryHeap α) (index : ℕ) (elem : Elem α) : BinaryHeap α :=
  { heap with elems := Function.update heap.elems index elem }

/-- Exchanges two slots and records the new places of their keys. -/
def swap (heap : BinaryHeap α) (index1 index2 : ℕ) : BinaryHeap α :=
  let heap := { heap with elems := exchange heap.elems index1 index2 }
  (heap.setIndex (heap.elems index1).key index1).setIndex (heap.elems index2).key index2

/-- Allocates 32 slots at first and half as many again when the array is full. -/
def ensureFreeSpace (heap : BinaryHeap α) : BinaryHeap α :=
  if heap.elemsAlloc = 0 then { heap with elemsNum := 0, elemsAlloc := 32 }
  else if heap.elemsNum = heap.elemsAlloc then
    { heap with elemsAlloc := max (heap.elemsAlloc + 1) (heap.elemsAlloc * 3 / 2) }
  else heap

@[simp]
theorem setIndex_elems (heap : BinaryHeap α) (key : UInt64) (index : ℕ) :
  (heap.setIndex key index).elems = heap.elems
  := by
  unfold setIndex
  split <;> rfl

@[simp]
theorem setIndex_elemsNum (heap : BinaryHeap α) (key : UInt64) (index : ℕ) :
  (heap.setIndex key index).elemsNum = heap.elemsNum
  := by
  unfold setIndex
  split <;> rfl

@[simp]
theorem setIndex_direct (heap : BinaryHeap α) (key : UInt64) (index : ℕ) :
  (heap.setIndex key index).direct = heap.direct
  := by
  unfold setIndex
  split <;> rfl

@[simp]
theorem setIndex_elemsAlloc (heap : BinaryHeap α) (key : UInt64) (index : ℕ) :
  (heap.setIndex key index).elemsAlloc = heap.elemsAlloc
  := by
  unfold setIndex
  split <;> rfl

@[simp]
theorem removeIndex_elems (heap : BinaryHeap α) (key : UInt64) :
  (heap.removeIndex key).elems = heap.elems
  := by
  unfold removeIndex
  split <;> rfl

@[simp]
theorem removeIndex_elemsNum (heap : BinaryHeap α) (key : UInt64) :
  (heap.removeIndex key).elemsNum = heap.elemsNum
  := by
  unfold removeIndex
  split <;> rfl

@[simp]
theorem removeIndex_direct (heap : BinaryHeap α) (key : UInt64) :
  (heap.removeIndex key).direct = heap.direct
  := by
  unfold removeIndex
  split <;> rfl

@[simp]
theorem removeIndex_elemsAlloc (heap : BinaryHeap α) (key : UInt64) :
  (heap.removeIndex key).elemsAlloc = heap.elemsAlloc
  := by
  unfold removeIndex
  split <;> rfl

@[simp]
theorem swap_elems (heap : BinaryHeap α) (i j : ℕ) :
  (heap.swap i j).elems = exchange heap.elems i j
  := by
  simp [swap]

@[simp]
theorem swap_elemsNum (heap : BinaryHeap α) (i j : ℕ) :
  (heap.swap i j).elemsNum = heap.elemsNum
  := by
  simp [swap]

@[simp]
theorem swap_direct (heap : BinaryHeap α) (i j : ℕ) :
  (heap.swap i j).direct = heap.direct
  := by
  simp [swap]

@[simp]
theorem swap_elemsAlloc (heap : BinaryHeap α) (i j : ℕ) :
  (heap.swap i j).elemsAlloc = heap.elemsAlloc
  := by
  simp [swap]

section Operations

variable (compare : Elem α → Elem α → ℤ)

/-- Moves the element at `index` up while it is smaller than its parent, and returns
the slot it ends in. -/
def bubbleUp (heap : BinaryHeap α) (index : ℕ) : BinaryHeap α × ℕ :=
  if index ≠ 0 then
    if compare (heap.elems ((index - 1) / 2)) (heap.elems index) ≤ 0 then (heap, index)
    else bubbleUp (heap.swap ((index - 1) / 2) index) ((index - 1) / 2)
  else (heap, index)
termination_by index

/-- Moves the element at `index` down while a child is smaller than it, always to the
smaller child, and returns the slot it ends in. -/
def bubbleDown (heap : BinaryHeap α) (index : ℕ) : BinaryHeap α × ℕ :=
  let left := 2 * index + 1
  let right := 2 * index + 2
  if heap.elemsNum ≤ left then (heap, index)
  else if heap.elemsNum ≤ right then
    if compare (heap.elems index) (heap.elems left) > 0 then (heap.swap index left, left)
    else (heap, index)
  else if compare (heap.elems left) (heap.elems right) ≤ 0 then
    if compare (heap.elems index) (heap.elems left) > 0 then
      bubbleDown (heap.swap index left) left
    else (heap, index)
  else
    if compare (heap.elems index) (heap.elems right) > 0 then
      bubbleDown (heap.swap index right) right
    else (heap, index)
termination_by heap.elemsNum - index
decreasing_by
  · simp only [swap_elemsNum]
    omega
  · simp only [swap_elemsNum]
    omega

/-- The first element, or `none` when the heap is empty. -/
def findMin (heap : BinaryHeap α) : Option (Elem α) :=
  if heap.elemsNum = 0 then none else some (heap.elems 0)

/-- Inserts an element; with the direct option its key must be new. -/
def insert (heap : BinaryHeap α) (elem : Elem α) : Option (BinaryHeap α) :=
  if heap.direct ∧ heap.keyIndex elem.key ≠ none then none
  else
    let heap := heap.ensureFreeSpace
    let index := heap.elemsNum
    let heap := { heap with elemsNum := heap.elemsNum + 1 }.setElem index elem
    let (heap, index) := heap.bubbleUp compare index
    some (if index = heap.elemsNum - 1 then heap.setIndex elem.key index else heap)

/-- Replaces the element that has the key of `elem`. -/
def updateDirect (heap : BinaryHeap α) (elem : Elem α) : Option (BinaryHeap α) :=
  if heap.direct then
    match heap.keyIndex elem.key with
    | none => none
    | some index =>
      let heap := heap.setElem index elem
      let (heap, moved) := heap.bubbleUp compare index
      some (if index = moved then (heap.bubbleDown compare index).1 else heap)
  else none

/-- Removes the first element. -/
def removeMin (heap : BinaryHeap α) : Option (BinaryHeap α) :=
  if heap.elemsNum = 0 then none
  else
    let heap := heap.removeIndex (heap.elems 0).key
    let heap := { heap with elemsNum := heap.elemsNum - 1 }
    if heap.elemsNum ≠ 0 then
      let heap := heap.setElem 0 (heap.elems heap.elemsNum)
      let (heap, index) := heap.bubbleDown compare 0
      some (if index = 0 then heap.setIndex (heap.elems index).key index else heap)
    else some heap

/-- Removes the element that has the given key. The last element takes its slot and
moves down from there. -/
def removeDirect (heap : BinaryHeap α) (key : UInt64) : Option (BinaryHeap α) :=
  if heap.direct then
    match heap.keyIndex key with
    | none => none
    | some index =>
      let heap := heap.removeIndex key
      let heap := { heap with elemsNum := heap.elemsNum - 1 }
      if index ≠ heap.elemsNum then
        let heap := heap.setElem index (heap.elems heap.elemsNum)
        let (heap, moved) := heap.bubbleDown compare index
        some (if index = moved then heap.setIndex (heap.elems index).key index else heap)
      else some heap
  else none

/-- Empties the heap. -/
def clear (heap : BinaryHeap α) : BinaryHeap α :=
  { heap with
    elemsNum := 0
    elemsAlloc := 0
    keyIndex := if heap.direct then fun _ => none else heap.keyIndex }

end Operations

end BinaryHeap
