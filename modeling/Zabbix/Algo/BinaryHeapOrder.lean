import Zabbix.Algo.BinaryHeapIndex
import Mathlib.Order.Basic

/-!
# Heap order of the operations

The operations keep a heap ordered by any preorder that the decisions of the compare
function respect (`Respects`): the order of the compare function itself, a coarser one
when the compare function breaks ties, or the relation that holds of all elements, under
which the results about the order say nothing and the rest says what the operations do
to any heap.

Insertion, replacement and removal of the first element keep the order. `removeDirect`
moves the last element into the slot of the removed one and only down from there, so it
keeps the order exactly when that element is not smaller than the parent of the slot.
-/

open HeapOrder

namespace BinaryHeap

variable {α : Type*}

/-- The order of a compare function: `x` is not greater than `y`. -/
def NotGreater (compare : Elem α → Elem α → ℤ) (x y : Elem α) : Prop :=
  compare x y ≤ 0

/-- A compare function that orders the elements by a total preorder. -/
structure TotalPreorder (compare : Elem α → Elem α → ℤ) : Prop where
  total : ∀ x y, compare x y ≤ 0 ∨ compare y x ≤ 0
  trans : ∀ x y z, compare x y ≤ 0 → compare y z ≤ 0 → compare x z ≤ 0

/-- A preorder that agrees with every decision of a compare function. -/
structure Respects (compare : Elem α → Elem α → ℤ) (r : Elem α → Elem α → Prop) :
    Prop where
  of_le : ∀ {x y}, compare x y ≤ 0 → r x y
  of_not_le : ∀ {x y}, ¬ compare x y ≤ 0 → r y x
  trans : ∀ {x y z}, r x y → r y z → r x z

variable {compare : Elem α → Elem α → ℤ} {r : Elem α → Elem α → Prop}

theorem TotalPreorder.respects (h : TotalPreorder compare) :
  Respects compare (NotGreater compare)
  := by
  constructor
  · intro x y hxy
    exact hxy
  · intro x y hxy
    apply (h.total x y).resolve_left hxy
  · intro x y z
    apply h.trans

theorem Respects.isTrans (h : Respects compare r) :
  IsTrans (Elem α) r
  := ⟨fun _ _ _ => h.trans⟩

theorem Respects.refl (h : Respects compare r) :
  Std.Refl r
  := by
  constructor
  intro x
  by_cases hx : compare x x ≤ 0
  · apply h.of_le hx
  · apply h.of_not_le hx

/-- Every compare function respects the relation that holds of all elements. -/
theorem respects_true (compare : Elem α → Elem α → ℤ) :
  Respects compare fun _ _ => True
  := ⟨fun _ => trivial, fun _ => trivial, fun _ _ => trivial⟩

/-- `heap'` has the elements of `heap` in another order. -/
structure Rearranges (heap heap' : BinaryHeap α) : Prop where
  elemsNum : heap'.elemsNum = heap.elemsNum
  elemsAlloc : heap'.elemsAlloc = heap.elemsAlloc
  direct : heap'.direct = heap.direct
  contents : heap'.contents = heap.contents

theorem Rearranges.refl (heap : BinaryHeap α) :
  Rearranges heap heap
  := ⟨rfl, rfl, rfl, rfl⟩

theorem Rearranges.trans {h₁ h₂ h₃ : BinaryHeap α} (h : Rearranges h₁ h₂)
    (h' : Rearranges h₂ h₃) :
  Rearranges h₁ h₃
  := by
  constructor
  · apply h'.elemsNum.trans h.elemsNum
  · apply h'.elemsAlloc.trans h.elemsAlloc
  · apply h'.direct.trans h.direct
  · apply h'.contents.trans h.contents

theorem Rearranges.swap {heap : BinaryHeap α} {i j : ℕ} (hi : i < heap.elemsNum)
    (hj : j < heap.elemsNum) :
  Rearranges heap (heap.swap i j)
  := by
  constructor
  · apply swap_elemsNum
  · apply swap_elemsAlloc
  · apply swap_direct
  · apply contents_swap hi hj

/-- The array of the heap is ordered by a relation. -/
abbrev InOrder (heap : BinaryHeap α) (r : Elem α → Elem α → Prop) : Prop :=
  Ordered r heap.elems heap.elemsNum

/-- The array of the heap is ordered. -/
abbrev IsOrdered (compare : Elem α → Elem α → ℤ) (heap : BinaryHeap α) : Prop :=
  Ordered (NotGreater compare) heap.elems heap.elemsNum

/-! ### Moving up -/

/-- What one round of `bubbleUp` does. -/
theorem bubbleUp_cases (hcmp : Respects compare r) (heap : BinaryHeap α) (k : ℕ) :
  (heap.bubbleUp compare k = (heap, k) ∧
    (k ≠ 0 → r (heap.elems (parent k)) (heap.elems k))) ∨
  (k ≠ 0 ∧ r (heap.elems k) (heap.elems (parent k)) ∧
    heap.bubbleUp compare k = (heap.swap (parent k) k).bubbleUp compare (parent k))
  := by
  by_cases hk : k = 0
  · left
    rw [bubbleUp, if_neg (not_not_intro hk)]
    exact ⟨rfl, fun h => absurd hk h⟩
  · by_cases hle : compare (heap.elems ((k - 1) / 2)) (heap.elems k) ≤ 0
    · left
      rw [bubbleUp, if_pos hk, if_pos hle]
      exact ⟨rfl, fun _ => hcmp.of_le hle⟩
    · right
      rw [bubbleUp, if_pos hk, if_neg hle]
      exact ⟨hk, hcmp.of_not_le hle, rfl⟩

theorem bubbleUp_index_le (hcmp : Respects compare r) (heap : BinaryHeap α) (k : ℕ) :
  (heap.bubbleUp compare k).2 ≤ k
  := by
  induction k using Nat.strongRecOn generalizing heap with
  | _ k ih =>
    obtain ⟨h, -⟩ | ⟨hk, -, h⟩ := bubbleUp_cases hcmp heap k
    · rw [h]
    · rw [h]
      have hp := parent_lt hk
      exact le_trans (ih _ hp _) (Nat.le_of_lt hp)

/-- Moving up repairs a heap whose only defect is above slot `k`. -/
theorem bubbleUp_ordered (hcmp : Respects compare r) (heap : BinaryHeap α)
    (hd : heap.direct = true) (k : ℕ) (hk : k < heap.elemsNum) (hidx : heap.Indexed)
    (hord : OrderedButAbove r heap.elems heap.elemsNum k) :
  (heap.bubbleUp compare k).1.InOrder r ∧ (heap.bubbleUp compare k).1.Indexed ∧
    Rearranges heap (heap.bubbleUp compare k).1
  := by
  have := hcmp.isTrans
  induction k using Nat.strongRecOn generalizing heap with
  | _ k ih =>
    obtain ⟨h, hle⟩ | ⟨h0, hsmall, h⟩ := bubbleUp_cases hcmp heap k
    · rw [h]
      refine ⟨?_, hidx, Rearranges.refl heap⟩
      by_cases h0 : k = 0
      · rw [h0] at hord
        apply orderedButAbove_zero_iff.mp hord
      · apply hord.ordered (hle h0)
    · rw [h]
      have hp := parent_lt h0
      have hpn : parent k < heap.elemsNum := by omega
      have hswap := Rearranges.swap hpn hk
      have hidx' : (heap.swap (parent k) k).Indexed :=
        (hidx.indexedBut hk).swap hd hpn (Nat.ne_of_lt hp)
      have hord' := hord.exchange h0 hk hsmall
      obtain ⟨ho, hi, hr⟩ := ih (parent k) hp (heap.swap (parent k) k)
        (hswap.direct.trans hd) (by rw [hswap.elemsNum]; exact hpn) hidx'
        (by rw [swap_elems, swap_elemsNum]; exact hord')
      exact ⟨ho, hi, hswap.trans hr⟩

/-- Moving up from slot `k` of a heap that is defective only around `k`: the element
stays, or the heap is repaired. -/
theorem bubbleUp_repairs (hcmp : Respects compare r) (heap : BinaryHeap α)
    (hd : heap.direct = true) (k : ℕ) (hidx : heap.IndexedBut k)
    (hord : OrderedBut r heap.elems heap.elemsNum k) :
  (heap.bubbleUp compare k = (heap, k) ∧
    OrderedButBelow r heap.elems heap.elemsNum k) ∨
  ((heap.bubbleUp compare k).2 ≠ k ∧ (heap.bubbleUp compare k).1.InOrder r ∧
    (heap.bubbleUp compare k).1.Indexed ∧ Rearranges heap (heap.bubbleUp compare k).1)
  := by
  have := hcmp.isTrans
  obtain ⟨h, hle⟩ | ⟨h0, hsmall, h⟩ := bubbleUp_cases hcmp heap k
  · left
    refine ⟨h, ?_, hord.bypass⟩
    intro i hi hin hpi
    by_cases hik : i = k
    · rw [hik]
      apply hle
      rw [← hik]
      exact hi
    · apply hord.edge i hi hin hik hpi
  · right
    have hp := parent_lt h0
    have hpn : parent k < heap.elemsNum := lt_trans hp hidx.used
    have hswap := Rearranges.swap hpn hidx.used
    -- the element is below its old parent, hence below its children
    have habove : OrderedButAbove r heap.elems heap.elemsNum k := by
      refine ⟨?_, hord.bypass⟩
      intro i hi hin hik
      by_cases hpi : parent i = k
      · rw [hpi]
        apply trans_of _ hsmall (hord.bypass h0 i hi hin hpi)
      · apply hord.edge i hi hin hik hpi
    have hidx' := hidx.swap hd hpn (Nat.ne_of_lt hp)
    have hord' := habove.exchange h0 hidx.used hsmall
    obtain ⟨ho, hi, hr⟩ := bubbleUp_ordered hcmp (heap.swap (parent k) k)
      (hswap.direct.trans hd) (parent k) (by rw [hswap.elemsNum]; exact hpn) hidx'
      (by rw [swap_elems, swap_elemsNum]; exact hord')
    rw [h]
    refine ⟨?_, ho, hi, hswap.trans hr⟩
    have hle := bubbleUp_index_le hcmp (heap.swap (parent k) k) (parent k)
    omega

/-! ### Moving down -/

/-- What one round of `bubbleDown` does: it stops at a slot below its children, or it
goes on at a smallest child that is not above the element. -/
theorem bubbleDown_cases (hcmp : Respects compare r) (heap : BinaryHeap α) (k : ℕ) :
  (heap.bubbleDown compare k = (heap, k) ∧
    ∀ i, i ≠ 0 → i < heap.elemsNum → parent i = k →
      r (heap.elems k) (heap.elems i)) ∨
  (∃ c, c ≠ 0 ∧ c < heap.elemsNum ∧ parent c = k ∧
    (∀ i, i ≠ 0 → i < heap.elemsNum → parent i = k →
      r (heap.elems c) (heap.elems i)) ∧
    r (heap.elems c) (heap.elems k) ∧
    heap.bubbleDown compare k = (heap.swap k c).bubbleDown compare c)
  := by
  have := hcmp.isTrans
  have := hcmp.refl
  have hchild : ∀ i, i ≠ 0 → parent i = k → i = 2 * k + 1 ∨ i = 2 * k + 2 := by
    rintro i hi rfl
    apply eq_child_of_parent hi
  have hstop : ∀ x y, ¬ compare x y > 0 → r x y := fun x y h =>
    hcmp.of_le (not_lt.mp h)
  have hgo : ∀ x y, compare x y > 0 → r y x := by
    intro x y h
    apply hcmp.of_not_le
    exact not_le.mpr h
  rw [bubbleDown]
  by_cases hleft : heap.elemsNum ≤ 2 * k + 1
  · left
    rw [if_pos hleft]
    refine ⟨rfl, ?_⟩
    intro i hi hin hpi
    have := hchild i hi hpi
    omega
  · rw [if_neg hleft]
    by_cases hright : heap.elemsNum ≤ 2 * k + 2
    · rw [if_pos hright]
      have honly : ∀ i, i ≠ 0 → i < heap.elemsNum → parent i = k → i = 2 * k + 1 := by
        intro i hi hin hpi
        have := hchild i hi hpi
        omega
      by_cases hgt : compare (heap.elems k) (heap.elems (2 * k + 1)) > 0
      · right
        rw [if_pos hgt]
        use 2 * k + 1
        refine ⟨by omega, by omega, parent_left k, ?_, hgo _ _ hgt, ?_⟩
        · intro i hi hin hpi
          rw [honly i hi hin hpi]
          apply refl_of
        · rw [bubbleDown, if_pos (by rw [swap_elemsNum]; omega)]
      · left
        rw [if_neg hgt]
        refine ⟨rfl, ?_⟩
        intro i hi hin hpi
        rw [honly i hi hin hpi]
        apply hstop _ _ hgt
    · rw [if_neg hright]
      by_cases hlr : compare (heap.elems (2 * k + 1)) (heap.elems (2 * k + 2)) ≤ 0
      · rw [if_pos hlr]
        have hleast : ∀ i, i ≠ 0 → i < heap.elemsNum → parent i = k →
            r (heap.elems (2 * k + 1)) (heap.elems i) := by
          intro i hi _ hpi
          obtain rfl | rfl := hchild i hi hpi
          · apply refl_of
          · apply hcmp.of_le hlr
        by_cases hgt : compare (heap.elems k) (heap.elems (2 * k + 1)) > 0
        · right
          rw [if_pos hgt]
          use 2 * k + 1
          exact ⟨by omega, by omega, parent_left k, hleast, hgo _ _ hgt, rfl⟩
        · left
          rw [if_neg hgt]
          refine ⟨rfl, ?_⟩
          intro i hi hin hpi
          apply trans_of _ (hstop _ _ hgt) (hleast i hi hin hpi)
      · rw [if_neg hlr]
        have hrl : r (heap.elems (2 * k + 2)) (heap.elems (2 * k + 1)) :=
          hcmp.of_not_le hlr
        have hleast : ∀ i, i ≠ 0 → i < heap.elemsNum → parent i = k →
            r (heap.elems (2 * k + 2)) (heap.elems i) := by
          intro i hi _ hpi
          obtain rfl | rfl := hchild i hi hpi
          · exact hrl
          · apply refl_of
        by_cases hgt : compare (heap.elems k) (heap.elems (2 * k + 2)) > 0
        · right
          rw [if_pos hgt]
          use 2 * k + 2
          exact ⟨by omega, by omega, parent_right k, hleast, hgo _ _ hgt, rfl⟩
        · left
          rw [if_neg hgt]
          refine ⟨rfl, ?_⟩
          intro i hi hin hpi
          apply trans_of _ (hstop _ _ hgt) (hleast i hi hin hpi)

theorem bubbleDown_le_index (hcmp : Respects compare r) (heap : BinaryHeap α) (k : ℕ) :
  k ≤ (heap.bubbleDown compare k).2
  := by
  induction hm : heap.elemsNum - k using Nat.strongRecOn generalizing heap k with
  | _ m ih =>
    obtain ⟨h, -⟩ | ⟨c, hc, hcn, hpc, -, -, h⟩ := bubbleDown_cases hcmp heap k
    · rw [h]
    · rw [h]
      have hkc := parent_lt hc
      rw [hpc] at hkc
      have hrec := ih ((heap.swap k c).elemsNum - c) (by rw [swap_elemsNum]; omega)
        (heap.swap k c) c rfl
      omega

/-- Moving down repairs a heap whose only defect is below slot `k`. -/
theorem bubbleDown_ordered (hcmp : Respects compare r) (heap : BinaryHeap α)
    (hd : heap.direct = true) (k : ℕ) (hk : k < heap.elemsNum) (hidx : heap.Indexed)
    (hord : OrderedButBelow r heap.elems heap.elemsNum k) :
  (heap.bubbleDown compare k).1.InOrder r ∧
    (heap.bubbleDown compare k).1.Indexed ∧ Rearranges heap (heap.bubbleDown compare k).1
  := by
  have := hcmp.isTrans
  induction hm : heap.elemsNum - k using Nat.strongRecOn generalizing heap k with
  | _ m ih =>
    obtain ⟨h, hle⟩ | ⟨c, hc, hcn, hpc, hleast, hlarge, h⟩ := bubbleDown_cases hcmp heap k
    · rw [h]
      exact ⟨hord.ordered hle, hidx, Rearranges.refl heap⟩
    · rw [h]
      have hkc := parent_lt hc
      rw [hpc] at hkc
      have hswap := Rearranges.swap hk hcn
      have hidx' := (hidx.indexedBut hcn).swap hd hk (Nat.ne_of_lt hkc)
      have hord' := hord.exchange hc hcn hpc hleast hlarge
      obtain ⟨ho, hi, hr⟩ := ih ((heap.swap k c).elemsNum - c)
        (by rw [swap_elemsNum]; omega) (heap.swap k c) (hswap.direct.trans hd) c
        (by rw [swap_elemsNum]; exact hcn) hidx'
        (by rw [swap_elems, swap_elemsNum]; exact hord') rfl
      exact ⟨ho, hi, hswap.trans hr⟩

/-- Moving down the odd element of slot `k`: it stays and is below the children of `k`,
or it goes below a smaller child and the index is complete. -/
theorem bubbleDown_moves (hcmp : Respects compare r) (heap : BinaryHeap α)
    (hd : heap.direct = true) (k : ℕ) (hidx : heap.IndexedBut k)
    (hord : OrderedButBelow r heap.elems heap.elemsNum k) :
  (heap.bubbleDown compare k = (heap, k) ∧ heap.InOrder r) ∨
  ((heap.bubbleDown compare k).2 ≠ k ∧ (heap.bubbleDown compare k).1.InOrder r ∧
    (heap.bubbleDown compare k).1.Indexed ∧ Rearranges heap (heap.bubbleDown compare k).1)
  := by
  have := hcmp.isTrans
  obtain ⟨h, hle⟩ | ⟨c, hc, hcn, hpc, hleast, hlarge, h⟩ := bubbleDown_cases hcmp heap k
  · left
    exact ⟨h, hord.ordered hle⟩
  · right
    have hkc := parent_lt hc
    rw [hpc] at hkc
    have hswap := Rearranges.swap hidx.used hcn
    have hord' := hord.exchange hc hcn hpc hleast hlarge
    have hidx' : (heap.swap k c).Indexed := by
      rw [swap_comm fun he => (Nat.ne_of_lt hkc).symm (hidx.fresh c hcn he.symm)]
      apply hidx.swap hd hcn (Nat.ne_of_lt hkc).symm
    obtain ⟨ho, hi, hr⟩ := bubbleDown_ordered hcmp (heap.swap k c) (hswap.direct.trans hd) c
      (by rw [hswap.elemsNum]; exact hcn) hidx'
      (by rw [swap_elems, swap_elemsNum]; exact hord')
    rw [h]
    refine ⟨?_, ho, hi, hswap.trans hr⟩
    have hle := bubbleDown_le_index hcmp (heap.swap k c) c
    omega

end BinaryHeap
