import Zabbix.Algo.BinaryHeapOrder
import Mathlib.Data.List.Infix

/-!
# Runs of a heap with direct access

A run applies operations to a new heap with the direct option and tracks the multiset of
the elements inserted and not yet removed. The heap keeps its index exact and its
contents equal to that multiset along every run. `findMin` is a least element of the
multiset as long as the array is ordered, and that is the case in all states of a run
exactly when each of its direct removals fits.
-/

open HeapOrder

namespace BinaryHeap

variable {α : Type*} {compare : Elem α → Elem α → ℤ} {r : Elem α → Elem α → Prop}
  {heap heap' : BinaryHeap α}

/-- The operations that change a heap. -/
inductive Op (α : Type*) where
  | insert (elem : Elem α)
  | updateDirect (elem : Elem α)
  | removeMin
  | removeDirect (key : UInt64)

/-- One operation; `none` when the process ends. -/
def step (compare : Elem α → Elem α → ℤ) (heap : BinaryHeap α) :
    Op α → Option (BinaryHeap α)
  | .insert elem => heap.insert compare elem
  | .updateDirect elem => heap.updateDirect compare elem
  | .removeMin => heap.removeMin compare
  | .removeDirect key => heap.removeDirect compare key

/-- The elements inserted and not yet removed after an operation on `heap`, of which
`m` were so before. The first element is the one `removeMin` removes. -/
def tracked (heap : BinaryHeap α) (m : Multiset (Elem α)) : Op α → Multiset (Elem α)
  | .insert elem => elem ::ₘ m
  | .updateDirect elem => elem ::ₘ m.filter (·.key ≠ elem.key)
  | .removeMin => m.filter (·.key ≠ (heap.elems 0).key)
  | .removeDirect key => m.filter (·.key ≠ key)

/-- Applies operations one after another. -/
def run (compare : Elem α → Elem α → ℤ) :
    BinaryHeap α × Multiset (Elem α) → List (Op α) →
      Option (BinaryHeap α × Multiset (Elem α))
  | s, [] => some s
  | s, op :: ops =>
    (step compare s.1 op).bind fun heap => run compare (heap, tracked s.1 s.2 op) ops

theorem run_append (s : BinaryHeap α × Multiset (Elem α)) (ops ops' : List (Op α)) :
  run compare s (ops ++ ops') = (run compare s ops).bind fun t => run compare t ops'
  := by
  induction ops generalizing s with
  | nil => rfl
  | cons op ops ih =>
    simp only [List.cons_append, run, Option.bind_assoc]
    congr 1
    funext heap
    apply ih

/-- A direct removal fits when the last element, which takes the place of the removed
one, is not smaller than the parent of that place. -/
def RemovalFits (compare : Elem α → Elem α → ℤ) (heap : BinaryHeap α) : Op α → Prop
  | .removeDirect key =>
    ∀ index, heap.keyIndex key = some index → index ≠ 0 → index ≠ heap.elemsNum - 1 →
      NotGreater compare (heap.elems (parent index)) (heap.elems (heap.elemsNum - 1))
  | _ => True

/-- What every operation keeps, whether or not the array is ordered. -/
structure Sound (heap : BinaryHeap α) (m : Multiset (Elem α)) : Prop where
  direct : heap.direct = true
  allocated : heap.elemsNum ≤ heap.elemsAlloc
  indexed : heap.Indexed
  contents : heap.contents = m

theorem Sound.rearranges {m : Multiset (Elem α)} (hr : Rearranges heap heap')
    (h : heap.direct = true) (ha : heap.elemsNum ≤ heap.elemsAlloc)
    (hc : heap.contents = m) (hi : heap'.Indexed) :
  Sound heap' m
  := by
  constructor
  · apply hr.direct.trans h
  · rw [hr.elemsNum, hr.elemsAlloc]
    exact ha
  · exact hi
  · apply hr.contents.trans hc

/-- A heap that is indexed but for slot `k` is sound after the entry of `k` is written. -/
theorem Sound.setIndex {m : Multiset (Elem α)} {k : ℕ} (hi : heap.IndexedBut k)
    (h : heap.direct = true) (ha : heap.elemsNum ≤ heap.elemsAlloc)
    (hc : heap.contents = m) :
  Sound (heap.setIndex (heap.elems k).key k) m
  := by
  constructor
  · rw [setIndex_direct, h]
  · rw [setIndex_elemsNum, setIndex_elemsAlloc]
    exact ha
  · apply hi.setIndex h
  · rw [contents_setIndex, hc]

theorem sound_create (garbage : ℕ → Elem α) :
  Sound (create garbage true) 0
  := by
  constructor
  · rfl
  · rfl
  · intro key i
    simp [create]
  · simp [BinaryHeap.contents, create]

/-! ### The operations -/

theorem ensureFreeSpace_eq (h : heap.elemsNum ≤ heap.elemsAlloc) :
  ∃ alloc, heap.elemsNum < alloc ∧
    heap.ensureFreeSpace = { heap with elemsAlloc := alloc }
  := by
  unfold ensureFreeSpace
  by_cases h0 : heap.elemsAlloc = 0
  · rw [if_pos h0]
    have hn : heap.elemsNum = 0 := by omega
    use 32
    constructor
    · omega
    · rw [← hn]
  · rw [if_neg h0]
    by_cases hfull : heap.elemsNum = heap.elemsAlloc
    · rw [if_pos hfull]
      use max (heap.elemsAlloc + 1) (heap.elemsAlloc * 3 / 2)
      constructor
      · omega
      · rfl
    · rw [if_neg hfull]
      use heap.elemsAlloc
      constructor
      · omega
      · rfl

/-- The heap with `elem` written behind the used slots. -/
def append (heap : BinaryHeap α) (elem : Elem α) : BinaryHeap α :=
  { heap with elemsNum := heap.elemsNum + 1 }.setElem heap.elemsNum elem

theorem contents_append (heap : BinaryHeap α) (elem : Elem α) :
  (heap.append elem).contents = elem ::ₘ heap.contents
  := by
  rw [contents_pop (heap.append elem) rfl]
  unfold append setElem BinaryHeap.contents
  dsimp only
  rw [Function.update_self]
  congr 1
  apply Multiset.map_congr rfl
  intro i hi
  apply Function.update_of_ne
  exact Nat.ne_of_lt (Multiset.mem_range.mp hi)

/-- An appended element with a new key is the only one the index misses. -/
theorem Indexed.append {elem : Elem α} (h : heap.Indexed)
    (hfresh : heap.keyIndex elem.key = none) :
  (heap.append elem).IndexedBut heap.elemsNum
  := by
  have hnone : ∀ i, i < heap.elemsNum → (heap.elems i).key ≠ elem.key := by
    intro i hi hkey
    have := (h elem.key i).mpr ⟨hi, hkey⟩
    rw [hfresh] at this
    contradiction
  unfold BinaryHeap.append setElem
  constructor
  · exact Nat.lt_succ_self _
  · intro i hi hkey
    dsimp only at hi hkey
    by_contra hne
    rw [Function.update_self, Function.update_of_ne hne] at hkey
    exact hnone i (by omega) hkey
  · intro key hkey i
    dsimp only at hkey ⊢
    rw [Function.update_self] at hkey
    rw [h key i]
    by_cases hin : i = heap.elemsNum
    · rw [hin, Function.update_self]
      simp [Ne.symm hkey]
    · rw [Function.update_of_ne hin]
      simp only [and_congr_left_iff]
      omega

theorem insert_spec (hcmp : Respects compare r) {m : Multiset (Elem α)} {elem : Elem α}
    (hs : Sound heap m) (hord : heap.InOrder r)
    (h : heap.insert compare elem = some heap') :
  Sound heap' (elem ::ₘ m) ∧ heap'.InOrder r
  := by
  obtain ⟨alloc, halloc, heq⟩ := ensureFreeSpace_eq hs.allocated
  unfold insert at h
  by_cases hfresh : heap.keyIndex elem.key = none
  · rw [if_neg (by simp [hfresh]), heq] at h
    let room : BinaryHeap α := { heap with elemsAlloc := alloc }
    have hroom : room.Indexed := hs.indexed
    have hidx := hroom.append hfresh
    have hc : (room.append elem).contents = elem ::ₘ m := by
      rw [contents_append, ← hs.contents]
      rfl
    have hbut : OrderedBut r (room.append elem).elems (heap.elemsNum + 1)
        heap.elemsNum := by
      constructor
      · intro i hi hin hik hpk
        unfold BinaryHeap.append setElem
        dsimp only
        rw [Function.update_of_ne hpk, Function.update_of_ne hik]
        exact hord i hi (by omega)
      · intro _ i hi hin hpi
        have := parent_lt hi
        omega
    let moved := (room.append elem).bubbleUp compare heap.elemsNum
    change some (if moved.2 = moved.1.elemsNum - 1 then moved.1.setIndex elem.key moved.2
      else moved.1) = some heap' at h
    rw [Option.some.injEq] at h
    rcases bubbleUp_repairs hcmp (room.append elem) hs.direct heap.elemsNum hidx hbut with
      ⟨hup, hbelow⟩ | ⟨hne, ho, hi, hr⟩
    · have hkey : ((room.append elem).elems heap.elemsNum).key = elem.key := by
        simp [BinaryHeap.append, setElem, room]
      have hlast : heap.elemsNum = (room.append elem).elemsNum - 1 := rfl
      simp only [moved, hup] at h
      rw [if_pos hlast, ← hkey] at h
      subst h
      constructor
      · apply Sound.setIndex hidx hs.direct halloc hc
      · unfold InOrder
        rw [setIndex_elems, setIndex_elemsNum]
        apply hbelow.ordered
        intro i hi hin hpi
        have := parent_lt hi
        have : i < heap.elemsNum + 1 := hin
        omega
    · have hnum : moved.1.elemsNum = heap.elemsNum + 1 := hr.elemsNum
      rw [if_neg (by rw [hnum]; exact hne)] at h
      subst h
      exact ⟨Sound.rearranges hr hs.direct halloc hc hi, ho⟩
  · rw [if_pos ⟨hs.direct, hfresh⟩] at h
    contradiction

/-- An element with the same key can replace a used slot. -/
theorem Indexed.setElem {elem : Elem α} {k : ℕ} (h : heap.Indexed)
    (hkey : elem.key = (heap.elems k).key) :
  (heap.setElem k elem).Indexed
  := by
  intro key i
  unfold BinaryHeap.setElem
  dsimp only
  rw [h key i]
  by_cases hik : i = k
  · rw [hik, Function.update_self, hkey]
  · rw [Function.update_of_ne hik]

/-- Replacing an element around which alone the heap is out of order. -/
theorem updateDirect_spec (hcmp : Respects compare r) {m : Multiset (Elem α)}
    {elem : Elem α} (hs : Sound heap m)
    (hord : ∀ k, heap.keyIndex elem.key = some k →
      OrderedBut r heap.elems heap.elemsNum k)
    (h : heap.updateDirect compare elem = some heap') :
  Sound heap' (elem ::ₘ m.filter (·.key ≠ elem.key)) ∧ heap'.InOrder r
  := by
  have := hcmp.isTrans
  unfold updateDirect at h
  rw [if_pos hs.direct] at h
  cases hk : heap.keyIndex elem.key with
  | none =>
    rw [hk] at h
    contradiction
  | some k =>
    rw [hk] at h
    dsimp only at h
    rw [Option.some.injEq] at h
    obtain ⟨hkn, hkey⟩ := (hs.indexed elem.key k).mp hk
    have hidx : (heap.setElem k elem).Indexed := hs.indexed.setElem hkey.symm
    have hc : (heap.setElem k elem).contents = elem ::ₘ m.filter (·.key ≠ elem.key) := by
      have hset := contents_setElem heap hkn elem
      have hmem : heap.elems k ∈ heap.contents := mem_contents.mpr ⟨k, hkn, rfl⟩
      obtain ⟨rest, hrest⟩ := Multiset.exists_cons_of_mem hmem
      have hfilter := hs.indexed.filter_contents hkn hrest
      rw [hrest, Multiset.cons_swap, Multiset.cons_inj_right] at hset
      rw [hset, ← hs.contents, ← hkey, hfilter]
    have hrepair := bubbleUp_repairs hcmp (heap.setElem k elem) hs.direct k
      (hidx.indexedBut hkn) ((hord k hk).update elem)
    rcases hrepair with ⟨hup, hbelow⟩ | ⟨hne, ho, hi, hr⟩
    · rw [hup, if_pos rfl] at h
      obtain ⟨ho, hi, hr⟩ := bubbleDown_ordered hcmp (heap.setElem k elem) hs.direct k hkn
        hidx hbelow
      subst h
      exact ⟨Sound.rearranges hr hs.direct hs.allocated hc hi, ho⟩
    · rw [if_neg (Ne.symm hne)] at h
      subst h
      exact ⟨Sound.rearranges hr hs.direct hs.allocated hc hi, ho⟩

/-! ### Removal -/

/-- The heap with the key of slot `k` out of the index and the last slot dropped. -/
def dropLast (heap : BinaryHeap α) (k : ℕ) : BinaryHeap α :=
  { heap with
    elemsNum := heap.elemsNum - 1
    keyIndex := (heap.removeIndex (heap.elems k).key).keyIndex }

/-- The heap with the last element moved into slot `k`, whose key leaves the index. -/
def fillHole (heap : BinaryHeap α) (k : ℕ) : BinaryHeap α :=
  (heap.dropLast k).setElem k (heap.elems (heap.elemsNum - 1))

theorem dropLast_elems (k : ℕ) :
  (heap.dropLast k).elems = heap.elems
  := rfl

theorem fillHole_elems (k : ℕ) :
  (heap.fillHole k).elems = Function.update heap.elems k (heap.elems (heap.elemsNum - 1))
  := by
  simp [fillHole, setElem, dropLast_elems]

theorem dropLast_keyIndex (hd : heap.direct = true) (k : ℕ) :
  (heap.dropLast k).keyIndex = Function.update heap.keyIndex (heap.elems k).key none
  := by
  simp [dropLast, removeIndex_keyIndex hd]

/-- Removing the last slot keeps the index exact. -/
theorem Indexed.dropLast (hd : heap.direct = true) (h : heap.Indexed) {k : ℕ}
    (hk : k < heap.elemsNum) (hlast : k = heap.elemsNum - 1) :
  (heap.dropLast k).Indexed
  := by
  intro key i
  rw [dropLast_keyIndex hd, dropLast_elems]
  change _ ↔ i < heap.elemsNum - 1 ∧ _
  by_cases hkey : key = (heap.elems k).key
  · rw [hkey, Function.update_self]
    simp only [reduceCtorEq, false_iff, not_and]
    intro hi hki
    have := h.key_injective (by omega) hk hki
    omega
  · rw [Function.update_of_ne hkey, h key i]
    constructor
    · rintro ⟨hi, hki⟩
      refine ⟨?_, hki⟩
      by_contra hge
      apply hkey
      rw [← hki, hlast]
      congr
      omega
    · rintro ⟨hi, hki⟩
      exact ⟨by omega, hki⟩

/-- After the last element took slot `k` the index is wrong about that slot alone. -/
theorem Indexed.fillHole (hd : heap.direct = true) (h : heap.Indexed) {k : ℕ}
    (hk : k < heap.elemsNum - 1) :
  (heap.fillHole k).IndexedBut k
  := by
  constructor
  · exact hk
  · intro i hi hkey
    change i < heap.elemsNum - 1 at hi
    by_contra hne
    rw [fillHole_elems, Function.update_self, Function.update_of_ne hne] at hkey
    have := h.key_injective (by omega) (by omega) hkey
    omega
  · intro key hkey i
    rw [fillHole_elems, Function.update_self] at hkey
    rw [fillHole_elems]
    change (heap.dropLast k).keyIndex key = some i ↔ i < heap.elemsNum - 1 ∧ _
    rw [dropLast_keyIndex hd]
    by_cases hik : i = k
    · rw [hik, Function.update_self]
      by_cases hold : key = (heap.elems k).key
      · rw [hold] at hkey ⊢
        rw [Function.update_self]
        simp [Ne.symm hkey]
      · rw [Function.update_of_ne hold, h key k]
        simp [Ne.symm hkey, Ne.symm hold]
    · rw [Function.update_of_ne hik]
      by_cases hold : key = (heap.elems k).key
      · rw [hold, Function.update_self]
        simp only [reduceCtorEq, false_iff, not_and]
        intro hi hki
        exact hik (h.key_injective (by omega) (by omega) hki)
      · rw [Function.update_of_ne hold, h key i]
        constructor
        · rintro ⟨hi, hki⟩
          refine ⟨?_, hki⟩
          by_contra hge
          apply hkey
          rw [← hki]
          congr
          omega
        · rintro ⟨hi, hki⟩
          exact ⟨by omega, hki⟩

theorem contents_dropLast {k : ℕ} (hk : k < heap.elemsNum) (hlast : k = heap.elemsNum - 1) :
  heap.contents = heap.elems k ::ₘ (heap.dropLast k).contents
  := by
  have hn : heap.elemsNum = k + 1 := by omega
  rw [contents_pop heap hn]
  simp [BinaryHeap.contents, dropLast, hn]

theorem contents_fillHole {k : ℕ} (hk : k < heap.elemsNum - 1) :
  heap.contents = heap.elems k ::ₘ (heap.fillHole k).contents
  := by
  have hset := contents_setElem (heap.dropLast k) (k := k) hk
    (heap.elems (heap.elemsNum - 1))
  rw [dropLast_elems] at hset
  unfold BinaryHeap.fillHole
  rw [hset, contents_pop heap (n := heap.elemsNum - 1) (by omega)]
  simp [BinaryHeap.contents, dropLast]

/-- The part of a removal at slot `k` that follows the change of the index. -/
def removeAt (compare : Elem α → Elem α → ℤ) (heap : BinaryHeap α) (k : ℕ) :
    BinaryHeap α :=
  if k ≠ heap.elemsNum - 1 then
    let (moved, index) := (heap.fillHole k).bubbleDown compare k
    if k = index then moved.setIndex (moved.elems k).key k else moved
  else heap.dropLast k

theorem removeMin_eq (h0 : heap.elemsNum ≠ 0) :
  heap.removeMin compare = some (heap.removeAt compare 0)
  := by
  unfold removeMin removeAt
  rw [if_neg h0]
  have hn : (heap.removeIndex (heap.elems 0).key).elemsNum = heap.elemsNum := by simp
  have he : (heap.removeIndex (heap.elems 0).key).elems = heap.elems := by simp
  by_cases h1 : heap.elemsNum - 1 = 0
  · rw [if_neg (not_not_intro h1.symm), if_neg (by simp [h1])]
    simp [dropLast]
  · rw [if_pos (Ne.symm h1), if_pos (by simpa [hn] using h1)]
    simp only [hn, he, removeIndex_elemsAlloc, removeIndex_direct]
    change some (if ((heap.fillHole 0).bubbleDown compare 0).2 = 0
      then ((heap.fillHole 0).bubbleDown compare 0).1.setIndex
        (((heap.fillHole 0).bubbleDown compare 0).1.elems
          ((heap.fillHole 0).bubbleDown compare 0).2).key
        ((heap.fillHole 0).bubbleDown compare 0).2
      else ((heap.fillHole 0).bubbleDown compare 0).1) = _
    by_cases hmoved : ((heap.fillHole 0).bubbleDown compare 0).2 = 0
    · rw [if_pos hmoved, if_pos hmoved.symm, hmoved]
    · rw [if_neg hmoved, if_neg (Ne.symm hmoved)]

theorem removeDirect_eq (hd : heap.direct = true) {key : UInt64} {k : ℕ}
    (hk : heap.keyIndex key = some k) (hkey : (heap.elems k).key = key) :
  heap.removeDirect compare key = some (heap.removeAt compare k)
  := by
  subst hkey
  unfold removeDirect removeAt
  rw [if_pos hd, hk]
  have hn : (heap.removeIndex (heap.elems k).key).elemsNum = heap.elemsNum := by simp
  have he : (heap.removeIndex (heap.elems k).key).elems = heap.elems := by simp
  simp only [hn, he, removeIndex_elemsAlloc, removeIndex_direct]
  by_cases h1 : k = heap.elemsNum - 1
  · rw [if_neg (not_not_intro h1), if_neg (not_not_intro h1)]
    rfl
  · rw [if_pos h1, if_pos h1]
    rfl

/-- The element that fills slot `k` is not smaller than the parent of the slot. -/
def HoleFits (r : Elem α → Elem α → Prop) (heap : BinaryHeap α) (k : ℕ) : Prop :=
  k ≠ 0 → k ≠ heap.elemsNum - 1 →
    r (heap.elems (parent k)) (heap.elems (heap.elemsNum - 1))

/-- A removal at slot `k` keeps the order exactly when the last element fits there. -/
theorem removeAt_spec (hcmp : Respects compare r) {m : Multiset (Elem α)} {k : ℕ}
    (hs : Sound heap m) (hord : OrderedBut r heap.elems heap.elemsNum k)
    (hk : k < heap.elemsNum) :
  Sound (heap.removeAt compare k) (m.filter (·.key ≠ (heap.elems k).key)) ∧
    ((heap.removeAt compare k).InOrder r ↔ HoleFits r heap k)
  := by
  have := hcmp.isTrans
  unfold removeAt
  have ha := hs.allocated
  by_cases hlast : k = heap.elemsNum - 1
  · rw [if_neg (not_not_intro hlast)]
    have hc := contents_dropLast hk hlast
    have hfilter := hs.indexed.filter_contents hk hc
    constructor
    · constructor
      · simp [dropLast, hs.direct]
      · simp only [dropLast]
        omega
      · apply hs.indexed.dropLast hs.direct hk hlast
      · rw [← hfilter, hs.contents]
    · apply iff_of_true
      · unfold InOrder
        rw [dropLast_elems]
        apply hord.ordered_of_le (Nat.sub_le _ _)
        simp [hlast]
      · intro _ hne
        exact absurd hlast hne
  · rw [if_pos hlast]
    have hk' : k < heap.elemsNum - 1 := by omega
    have hidx := hs.indexed.fillHole hs.direct hk'
    have hc := contents_fillHole hk'
    have hfilter := hs.indexed.filter_contents hk hc
    rw [hs.contents] at hfilter
    have hd : (heap.fillHole k).direct = true := by
      simp [fillHole, setElem, dropLast, hs.direct]
    have ha' : (heap.fillHole k).elemsNum ≤ (heap.fillHole k).elemsAlloc := by
      simp only [fillHole, setElem, dropLast]
      omega
    have hn : (heap.fillHole k).elemsNum = heap.elemsNum - 1 := rfl
    have hpk : k ≠ 0 → (heap.fillHole k).elems (parent k) = heap.elems (parent k) := by
      intro h0
      rw [fillHole_elems, Function.update_of_ne (Nat.ne_of_lt (parent_lt h0))]
    have hkk : (heap.fillHole k).elems k = heap.elems (heap.elemsNum - 1) := by
      rw [fillHole_elems, Function.update_self]
    have hbut : OrderedBut r (heap.fillHole k).elems (heap.fillHole k).elemsNum k := by
      rw [fillHole_elems]
      apply OrderedBut.update
      apply hord.mono (Nat.sub_le _ _)
    by_cases hfit : HoleFits r heap k
    · have hbelow : OrderedButBelow r (heap.fillHole k).elems
          (heap.fillHole k).elemsNum k := by
        refine ⟨?_, hbut.bypass⟩
        intro i hi hin hpi
        by_cases hik : i = k
        · rw [hik, hkk, hpk (hik ▸ hi)]
          apply hfit (hik ▸ hi) hlast
        · apply hbut.edge i hi hin hik hpi
      rcases bubbleDown_moves hcmp (heap.fillHole k) hd k hidx hbelow with
        ⟨hstay, ho⟩ | ⟨hne, ho, hi, hr⟩
      · rw [hstay]
        dsimp only
        rw [if_pos rfl]
        refine ⟨Sound.setIndex hidx hd ha' hfilter.symm, iff_of_true ?_ hfit⟩
        unfold InOrder
        rw [setIndex_elems, setIndex_elemsNum]
        exact ho
      · dsimp only
        rw [if_neg (Ne.symm hne)]
        exact ⟨Sound.rearranges hr hd ha' hfilter.symm hi, iff_of_true ho hfit⟩
    · -- an element smaller than the parent of the hole is below the children: it stays
      obtain ⟨h0, hnot⟩ : k ≠ 0 ∧ ¬ r (heap.elems (parent k))
          (heap.elems (heap.elemsNum - 1)) := by
        unfold HoleFits at hfit
        simpa [hlast] using hfit
      obtain ⟨hstay, -⟩ | ⟨c, hc0, hcn, hpc, -, hlarge, -⟩ :=
        bubbleDown_cases hcmp (heap.fillHole k) k
      · rw [hstay]
        dsimp only
        rw [if_pos rfl]
        refine ⟨Sound.setIndex hidx hd ha' hfilter.symm, iff_of_false ?_ hfit⟩
        intro ho
        unfold InOrder at ho
        rw [setIndex_elems, setIndex_elemsNum] at ho
        have hedge := ho k h0 hk'
        rw [hpk h0, hkk] at hedge
        exact hnot hedge
      · have hchild := hbut.bypass h0 c hc0 hcn hpc
        rw [hpk h0] at hchild
        rw [hkk] at hlarge
        exact absurd (trans_of _ hchild hlarge) hnot

/-! ### Runs -/

/-- One operation on a sound and ordered heap keeps it sound, and keeps it ordered
exactly when the operation is not a removal that does not fit. -/
theorem step_spec (htp : TotalPreorder compare) {m : Multiset (Elem α)} {op : Op α}
    (hs : Sound heap m) (hord : IsOrdered compare heap)
    (h : step compare heap op = some heap') :
  Sound heap' (tracked heap m op) ∧
    (IsOrdered compare heap' ↔ RemovalFits compare heap op)
  := by
  have := htp.respects.isTrans
  cases op with
  | insert elem =>
    obtain ⟨hs', ho⟩ := insert_spec htp.respects hs hord h
    exact ⟨hs', iff_of_true ho trivial⟩
  | updateDirect elem =>
    obtain ⟨hs', ho⟩ := updateDirect_spec htp.respects hs
      (fun _ _ => hord.orderedBut) h
    exact ⟨hs', iff_of_true ho trivial⟩
  | removeMin =>
    change heap.removeMin compare = some heap' at h
    by_cases h0 : heap.elemsNum = 0
    · rw [removeMin, if_pos h0] at h
      contradiction
    · rw [removeMin_eq h0, Option.some.injEq] at h
      subst h
      obtain ⟨hs', ho⟩ := removeAt_spec htp.respects hs hord.orderedBut
        (Nat.pos_of_ne_zero h0)
      refine ⟨hs', iff_of_true (ho.mpr ?_) trivial⟩
      intro hne
      exact absurd rfl hne
  | removeDirect key =>
    change heap.removeDirect compare key = some heap' at h
    cases hk : heap.keyIndex key with
    | none =>
      rw [removeDirect, if_pos hs.direct, hk] at h
      contradiction
    | some k =>
      obtain ⟨hkn, hkey⟩ := (hs.indexed key k).mp hk
      rw [removeDirect_eq hs.direct hk hkey, Option.some.injEq] at h
      subst h
      obtain ⟨hs', ho⟩ := removeAt_spec htp.respects hs hord.orderedBut hkn
      rw [hkey] at hs'
      refine ⟨hs', ho.trans ?_⟩
      constructor
      · intro hfit index hindex
        rw [hk] at hindex
        obtain rfl := Option.some.inj hindex
        exact hfit
      · intro hfit
        exact hfit k hk

/-- `findMin` gives a least element of `m`, or nothing when `m` is empty. -/
def FindsLeast (compare : Elem α → Elem α → ℤ) (heap : BinaryHeap α)
    (m : Multiset (Elem α)) : Prop :=
  match heap.findMin with
  | none => m = 0
  | some e => e ∈ m ∧ ∀ x ∈ m, NotGreater compare e x

theorem findsLeast_of_ordered (htp : TotalPreorder compare) {m : Multiset (Elem α)}
    (hs : Sound heap m) (hord : IsOrdered compare heap) :
  FindsLeast compare heap m
  := by
  have := htp.respects.isTrans
  have := htp.respects.refl
  unfold FindsLeast findMin
  by_cases h0 : heap.elemsNum = 0
  · rw [if_pos h0, ← hs.contents]
    simp [BinaryHeap.contents, h0]
  · rw [if_neg h0, ← hs.contents]
    dsimp only
    constructor
    · exact mem_contents.mpr ⟨0, Nat.pos_of_ne_zero h0, rfl⟩
    · intro x hx
      obtain ⟨i, hi, rfl⟩ := mem_contents.mp hx
      apply hord.first_le i hi

/-- Along a run whose direct removals fit every state is sound and ordered. -/
theorem run_sound_ordered (htp : TotalPreorder compare) (garbage : ℕ → Elem α) (ops : List (Op α))
    (hfit : ∀ before op, before ++ [op] <+: ops → ∀ heap m,
      run compare (create garbage true, 0) before = some (heap, m) →
        RemovalFits compare heap op) :
  ∀ heap m, run compare (create garbage true, 0) ops = some (heap, m) →
    Sound heap m ∧ IsOrdered compare heap
  := by
  induction ops using List.reverseRecOn with
  | nil =>
    intro heap m hrun
    simp only [run, Option.some.injEq, Prod.mk.injEq] at hrun
    obtain ⟨rfl, rfl⟩ := hrun
    refine ⟨sound_create garbage, ?_⟩
    intro i _ hi
    exact absurd hi (Nat.not_lt_zero i)
  | append_singleton ops op ih =>
    intro heap m hrun
    rw [run_append, Option.bind_eq_some_iff] at hrun
    obtain ⟨⟨heap₀, m₀⟩, hrun₀, hstep⟩ := hrun
    simp only [run, Option.bind_eq_some_iff, Option.some.injEq, Prod.mk.injEq] at hstep
    obtain ⟨heap₁, hstep, rfl, rfl⟩ := hstep
    obtain ⟨hs, hord⟩ := ih
      (fun before op' hpre => hfit before op' (hpre.trans (List.prefix_append ops [op])))
      heap₀ m₀ hrun₀
    obtain ⟨hs', ho⟩ := step_spec htp hs hord hstep
    exact ⟨hs', ho.mpr (hfit ops op List.prefix_rfl heap₀ m₀ hrun₀)⟩

/-- Every state along a run is ordered, with `findMin` giving a least element of the
elements inserted and not yet removed, exactly when every direct removal of the run
fits. -/
theorem ordered_iff_removals_fit (htp : TotalPreorder compare) (garbage : ℕ → Elem α)
    (ops : List (Op α)) :
  (∀ before, before <+: ops → ∀ heap m,
    run compare (create garbage true, 0) before = some (heap, m) →
      IsOrdered compare heap ∧ FindsLeast compare heap m) ↔
  (∀ before op, before ++ [op] <+: ops → ∀ heap m,
    run compare (create garbage true, 0) before = some (heap, m) →
      RemovalFits compare heap op)
  := by
  constructor
  · intro hall
    -- by induction along the run: while the removals before `op` fit, the state is sound
    have hfits : ∀ before, before <+: ops → ∀ pre op, pre ++ [op] <+: before → ∀ heap m,
        run compare (create garbage true, 0) pre = some (heap, m) →
          RemovalFits compare heap op := by
      intro before
      induction before using List.reverseRecOn with
      | nil =>
        intro _ pre op hpre
        simp at hpre
      | append_singleton before last ih =>
        intro hbefore pre op hpre heap m hrun
        have hfit := ih ((List.prefix_append before [last]).trans hbefore)
        by_cases hlt : pre ++ [op] <+: before
        · apply hfit pre op hlt heap m hrun
        · obtain ⟨rfl, rfl⟩ : pre = before ∧ op = last := by
            rw [List.prefix_concat_iff] at hpre
            rcases hpre with heq | hpre
            · have := List.append_inj' heq rfl
              simpa using this
            · contradiction
          obtain ⟨hs, hord⟩ := run_sound_ordered htp garbage pre hfit heap m hrun
          cases hstep : step compare heap op with
          | none =>
            cases op with
            | removeDirect key =>
              intro index hindex
              obtain ⟨-, hkey⟩ := (hs.indexed key index).mp hindex
              change heap.removeDirect compare key = none at hstep
              rw [removeDirect_eq hs.direct hindex hkey] at hstep
              contradiction
            | _ => trivial
          | some heap' =>
            apply (step_spec htp hs hord hstep).2.mp
            apply (hall _ hbefore heap' (tracked heap m op) _).1
            rw [run_append, hrun]
            simp [run, hstep]
    intro before op hpre
    apply hfits ops List.prefix_rfl before op hpre
  · intro hfit before hbefore heap m hrun
    obtain ⟨hs, hord⟩ := run_sound_ordered htp garbage before
      (fun pre op hpre => hfit pre op (hpre.trans hbefore)) heap m hrun
    exact ⟨hord, findsLeast_of_ordered htp hs hord⟩

/-! ### A removal that does not fit -/

/-- Orders elements by their data. -/
def byData (x y : Elem ℤ) : ℤ := x.data - y.data

theorem byData_totalPreorder :
  TotalPreorder byData
  := by
  constructor
  · intro x y
    unfold byData
    omega
  · intro x y z
    unfold byData
    omega

/-- An element whose data is its key. -/
def elemOfKey (key : UInt64) : Elem ℤ := ⟨key, key.toNat⟩

/-- A run that removes 11, whose place, below 10, goes to 4 from the other side of the
heap. Three times the first element is then removed. -/
def crossRemoval : List (Op ℤ) :=
  ([1, 10, 2, 11, 12, 3, 13, 14, 15, 16, 17, 4].map fun key => Op.insert (elemOfKey key)) ++
    [.removeDirect 11, .removeMin, .removeMin, .removeMin]

theorem crossRemoval_isSome :
  (run byData (create (fun _ => elemOfKey 0) true, 0) crossRemoval).isSome
  := by decide +kernel

/-- The heap and the multiset at the end of `crossRemoval`. -/
def crossed : BinaryHeap ℤ × Multiset (Elem ℤ) :=
  (run byData (create (fun _ => elemOfKey 0) true, 0) crossRemoval).get crossRemoval_isSome

/-- After `crossRemoval` the array is not ordered, and the first element, 10, is not a
least one: 4 is below it. -/
theorem crossRemoval_unordered :
  TotalPreorder byData ∧
    run byData (create (fun _ => elemOfKey 0) true, 0) crossRemoval = some crossed ∧
      ¬ IsOrdered byData crossed.1 ∧ ¬ FindsLeast byData crossed.1 crossed.2
  := by
  refine ⟨byData_totalPreorder, (Option.some_get crossRemoval_isSome).symm, ?_, ?_⟩
  · intro hord
    have hedge : ¬ byData (crossed.1.elems (parent 1)) (crossed.1.elems 1) ≤ 0 := by
      decide +kernel
    exact hedge (hord 1 (by decide) (by decide +kernel))
  · intro hleast
    have hmin : crossed.1.findMin = some (elemOfKey 10) := by decide +kernel
    have hmem : elemOfKey 4 ∈ crossed.2 := by decide +kernel
    have hgreater : ¬ byData (elemOfKey 10) (elemOfKey 4) ≤ 0 := by decide
    unfold FindsLeast at hleast
    rw [hmin] at hleast
    exact hgreater (hleast.2 _ hmem)

/-- The states of `crossRemoval` are all ordered exactly if its removals fit: neither is
the case. -/
theorem crossRemoval_ordered_iff :
  (∀ before, before <+: crossRemoval → ∀ heap m,
    run byData (create (fun _ => elemOfKey 0) true, 0) before = some (heap, m) →
      IsOrdered byData heap ∧ FindsLeast byData heap m) ↔
  (∀ before op, before ++ [op] <+: crossRemoval → ∀ heap m,
    run byData (create (fun _ => elemOfKey 0) true, 0) before = some (heap, m) →
      RemovalFits byData heap op)
  := ordered_iff_removals_fit byData_totalPreorder _ _

end BinaryHeap
