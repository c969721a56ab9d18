import Zabbix.Algo.BinaryHeapRun

/-!
# Heaps as sets of keys

A heap with direct access in which the data of an element is determined by its key is a
set of keys (`Holds`). The operations succeed when the key they are about is, or is not,
in the set, and change the set as expected, whatever the compare function does. When the
decisions of the compare function respect a preorder and the heap is ordered by it, the
first element is a least one.
-/

open HeapOrder

namespace BinaryHeap

variable {α : Type*} {heap heap' : BinaryHeap α} {data : UInt64 → α}
  {present : UInt64 → Prop} {key : UInt64}

/-- The elements are those with the present keys, each with the data of its key. -/
structure Holds (heap : BinaryHeap α) (data : UInt64 → α) (present : UInt64 → Prop) :
    Prop where
  sound : Sound heap heap.contents
  elem : ∀ e ∈ heap.contents, e.data = data e.key
  keys : ∀ key, (∃ e ∈ heap.contents, e.key = key) ↔ present key

theorem holds_create (garbage : ℕ → Elem α) (data : UInt64 → α) :
  Holds (create garbage true) data fun _ => False
  := by
  have hs := sound_create garbage
  have hempty : (create garbage true).contents = 0 := hs.contents
  refine ⟨⟨hs.direct, hs.allocated, hs.indexed, rfl⟩, ?_, ?_⟩ <;> simp [hempty]

/-- The heap holds the elements of a multiset that has one for each present key. -/
theorem Sound.holds {m : Multiset (Elem α)} (hs : Sound heap m)
    (helem : ∀ e ∈ m, e.data = data e.key) (hkeys : ∀ key, (∃ e ∈ m, e.key = key) ↔ present key) :
  Holds heap data present
  := by
  have hcontents := hs.contents
  refine ⟨⟨hs.direct, hs.allocated, hs.indexed, rfl⟩, ?_, ?_⟩
  · rw [hcontents]
    exact helem
  · rw [hcontents]
    exact hkeys

namespace Holds

/-- The index has the slot of a present key. -/
theorem index (h : heap.Holds data present) (hkey : present key) :
  ∃ k, heap.keyIndex key = some k ∧ k < heap.elemsNum ∧ (heap.elems k).key = key
  := by
  obtain ⟨e, he, hek⟩ := (h.keys key).mpr hkey
  obtain ⟨k, hk, rfl⟩ := mem_contents.mp he
  exact ⟨k, (h.sound.indexed key k).mpr ⟨hk, hek⟩, hk, hek⟩

theorem present_of_slot (h : heap.Holds data present) {k : ℕ} (hk : k < heap.elemsNum) :
  present (heap.elems k).key ∧ (heap.elems k).data = data (heap.elems k).key
  := by
  have hmem := mem_contents.mpr ⟨k, hk, rfl⟩
  exact ⟨(h.keys _).mp ⟨_, hmem, rfl⟩, h.elem _ hmem⟩

theorem keyIndex_of_not (h : heap.Holds data present) (hkey : ¬ present key) :
  heap.keyIndex key = none
  := by
  cases hk : heap.keyIndex key with
  | none => rfl
  | some k =>
    obtain ⟨hkn, rfl⟩ := (h.sound.indexed key k).mp hk
    exact absurd (h.present_of_slot hkn).1 hkey

variable (compare : Elem α → Elem α → ℤ)

theorem insert (h : heap.Holds data present) (hkey : ¬ present key) :
  ∃ heap', heap.insert compare ⟨key, data key⟩ = some heap' ∧
    heap'.Holds data fun k => k = key ∨ present k
  := by
  obtain ⟨heap', hheap'⟩ : ∃ heap', heap.insert compare ⟨key, data key⟩ = some heap' := by
    unfold BinaryHeap.insert
    rw [if_neg (by simp [h.keyIndex_of_not hkey])]
    exact ⟨_, rfl⟩
  obtain ⟨hs, -⟩ := insert_spec (respects_true compare) h.sound (fun _ _ _ => trivial) hheap'
  refine ⟨heap', hheap', hs.holds ?_ ?_⟩
  · intro e he
    obtain rfl | he := Multiset.mem_cons.mp he
    · rfl
    · apply h.elem e he
  · intro k
    rw [← h.keys k]
    constructor
    · rintro ⟨e, he, rfl⟩
      obtain rfl | he := Multiset.mem_cons.mp he
      · exact Or.inl rfl
      · exact Or.inr ⟨e, he, rfl⟩
    · rintro (rfl | ⟨e, he, rfl⟩)
      · exact ⟨_, Multiset.mem_cons_self _ _, rfl⟩
      · exact ⟨e, Multiset.mem_cons_of_mem he, rfl⟩

theorem updateDirect (h : heap.Holds data present) (hkey : present key) :
  ∃ heap', heap.updateDirect compare ⟨key, data key⟩ = some heap' ∧ heap'.Holds data present
  := by
  obtain ⟨slot, hslot, -, -⟩ := h.index hkey
  obtain ⟨heap', hheap'⟩ :
      ∃ heap', heap.updateDirect compare ⟨key, data key⟩ = some heap' := by
    unfold BinaryHeap.updateDirect
    rw [if_pos h.sound.direct, hslot]
    exact ⟨_, rfl⟩
  obtain ⟨hs, -⟩ := updateDirect_spec (respects_true compare) h.sound
    (fun _ _ => ⟨fun _ _ _ _ _ => trivial, fun _ _ _ _ _ => trivial⟩) hheap'
  refine ⟨heap', hheap', hs.holds ?_ ?_⟩
  · intro e he
    obtain rfl | he := Multiset.mem_cons.mp he
    · rfl
    · apply h.elem e (Multiset.mem_of_mem_filter he)
  · intro k
    rw [← h.keys k]
    constructor
    · rintro ⟨e, he, rfl⟩
      obtain rfl | he := Multiset.mem_cons.mp he
      · exact (h.keys key).mpr hkey
      · exact ⟨e, Multiset.mem_of_mem_filter he, rfl⟩
    · rintro ⟨e, he, rfl⟩
      by_cases hek : e.key = key
      · exact ⟨_, Multiset.mem_cons_self _ _, hek.symm⟩
      · exact ⟨e, Multiset.mem_cons_of_mem (Multiset.mem_filter.mpr ⟨he, hek⟩), rfl⟩

theorem removeAt (h : heap.Holds data present) {slot : ℕ} (hslot : slot < heap.elemsNum) :
  (heap.removeAt compare slot).Holds data fun k => present k ∧ k ≠ (heap.elems slot).key
  := by
  obtain ⟨hs, -⟩ := removeAt_spec (respects_true compare) h.sound
    ⟨fun _ _ _ _ _ => trivial, fun _ _ _ _ _ => trivial⟩ hslot
  apply hs.holds
  · intro e he
    apply h.elem e (Multiset.mem_of_mem_filter he)
  · intro k
    rw [← h.keys k]
    constructor
    · rintro ⟨e, he, rfl⟩
      obtain ⟨he, hne⟩ := Multiset.mem_filter.mp he
      exact ⟨⟨e, he, rfl⟩, hne⟩
    · rintro ⟨⟨e, he, rfl⟩, hne⟩
      exact ⟨e, Multiset.mem_filter.mpr ⟨he, hne⟩, rfl⟩

theorem removeDirect (h : heap.Holds data present) (hkey : present key) :
  ∃ heap', heap.removeDirect compare key = some heap' ∧
    heap'.Holds data fun k => present k ∧ k ≠ key
  := by
  obtain ⟨slot, hslot, hn, rfl⟩ := h.index hkey
  exact ⟨_, removeDirect_eq h.sound.direct hslot rfl, h.removeAt compare hn⟩

theorem removeMin (h : heap.Holds data present) {min : Elem α} (hmin : heap.findMin = some min) :
  present min.key ∧ min.data = data min.key ∧ ∃ heap', heap.removeMin compare = some heap' ∧
    heap'.Holds data fun k => present k ∧ k ≠ min.key
  := by
  unfold findMin at hmin
  by_cases h0 : heap.elemsNum = 0
  · rw [if_pos h0] at hmin
    contradiction
  · rw [if_neg h0, Option.some.injEq] at hmin
    have hn : 0 < heap.elemsNum := Nat.pos_of_ne_zero h0
    have hslot := h.present_of_slot hn
    rw [hmin] at hslot
    refine ⟨hslot.1, hslot.2, _, removeMin_eq h0, ?_⟩
    rw [← hmin]
    apply h.removeAt compare hn

end Holds

/-- The first element of an ordered heap is a least one. -/
theorem findMin_le {compare : Elem α → Elem α → ℤ} {r : Elem α → Elem α → Prop}
    (hcmp : Respects compare r) (hord : heap.InOrder r) {min : Elem α}
    (hmin : heap.findMin = some min) :
  ∀ e ∈ heap.contents, r min e
  := by
  have := hcmp.isTrans
  have := hcmp.refl
  intro e he
  obtain ⟨i, hi, rfl⟩ := mem_contents.mp he
  unfold findMin at hmin
  rw [if_neg (by omega), Option.some.injEq] at hmin
  rw [← hmin]
  apply hord.first_le i hi

end BinaryHeap
