import Zabbix.Algo.BinaryHeap

/-!
# The key index and the contents of a heap

With the direct option the key index of a heap maps exactly the keys of the used slots,
each to its slot (`Indexed`). While an element is on its way through the array the index
may be wrong about that element alone (`IndexedBut`); the first exchange corrects it, and
when no exchange takes place the operations write the entry themselves. Exchanges keep
the contents of the heap as a multiset.
-/

open HeapOrder

namespace BinaryHeap

variable {α : Type*} {heap : BinaryHeap α}

/-- The key index maps exactly the keys of the used slots, each to its slot. -/
def Indexed (heap : BinaryHeap α) : Prop :=
  ∀ key i, heap.keyIndex key = some i ↔ i < heap.elemsNum ∧ (heap.elems i).key = key

/-- The key index is right about every key but the one in slot `k`, and that key is in
no other slot. -/
structure IndexedBut (heap : BinaryHeap α) (k : ℕ) : Prop where
  used : k < heap.elemsNum
  fresh : ∀ i, i < heap.elemsNum → (heap.elems i).key = (heap.elems k).key → i = k
  exact : ∀ key, key ≠ (heap.elems k).key → ∀ i,
    heap.keyIndex key = some i ↔ i < heap.elemsNum ∧ (heap.elems i).key = key

theorem Indexed.key_injective (h : heap.Indexed) {i j : ℕ} (hi : i < heap.elemsNum)
    (hj : j < heap.elemsNum) (hkey : (heap.elems i).key = (heap.elems j).key) :
  i = j
  := by
  have h1 := (h _ i).mpr ⟨hi, rfl⟩
  have h2 := (h _ j).mpr ⟨hj, hkey.symm⟩
  rw [h1] at h2
  exact Option.some.inj h2

theorem Indexed.indexedBut (h : heap.Indexed) {k : ℕ} (hk : k < heap.elemsNum) :
  heap.IndexedBut k
  := by
  constructor
  · exact hk
  · intro i hi hkey
    apply h.key_injective hi hk hkey
  · intro key _ i
    apply h

theorem setIndex_keyIndex (hd : heap.direct = true) (key : UInt64) (i : ℕ) :
  (heap.setIndex key i).keyIndex = Function.update heap.keyIndex key (some i)
  := by
  simp [setIndex, hd]

theorem removeIndex_keyIndex (hd : heap.direct = true) (key : UInt64) :
  (heap.removeIndex key).keyIndex = Function.update heap.keyIndex key none
  := by
  simp [removeIndex, hd]

theorem swap_keyIndex (hd : heap.direct = true) (i j : ℕ) :
  (heap.swap i j).keyIndex =
    Function.update (Function.update heap.keyIndex (heap.elems j).key (some i))
      (heap.elems i).key (some j)
  := by
  simp [swap, setIndex, hd]

/-- Writing the entry of the odd slot completes the index. -/
theorem IndexedBut.setIndex (hd : heap.direct = true) {k : ℕ} (h : heap.IndexedBut k) :
  (heap.setIndex (heap.elems k).key k).Indexed
  := by
  intro key i
  rw [setIndex_keyIndex hd, setIndex_elems, setIndex_elemsNum]
  by_cases hkey : key = (heap.elems k).key
  · rw [hkey, Function.update_self]
    constructor
    · intro hi
      obtain rfl := Option.some.inj hi
      exact ⟨h.used, rfl⟩
    · rintro ⟨hi, hik⟩
      rw [h.fresh i hi hik]
  · rw [Function.update_of_ne hkey]
    apply h.exact key hkey

/-- An exchange with the odd slot completes the index. -/
theorem IndexedBut.swap (hd : heap.direct = true) {j k : ℕ} (h : heap.IndexedBut k)
    (hj : j < heap.elemsNum) (hjk : j ≠ k) :
  (heap.swap j k).Indexed
  := by
  have hne : (heap.elems j).key ≠ (heap.elems k).key := fun he => hjk (h.fresh j hj he)
  intro key i
  rw [swap_keyIndex hd, swap_elems, swap_elemsNum]
  by_cases hij : i = j
  · subst hij
    rw [exchange_left]
    by_cases h1 : key = (heap.elems i).key
    · subst h1
      simp [hjk.symm, hne.symm]
    · rw [Function.update_of_ne h1]
      by_cases h2 : key = (heap.elems k).key
      · subst h2
        simp [hj]
      · rw [Function.update_of_ne h2, h.exact key h2]
        simp [Ne.symm h1, Ne.symm h2]
  · by_cases hik : i = k
    · subst hik
      rw [exchange_right]
      by_cases h1 : key = (heap.elems j).key
      · subst h1
        simp [h.used]
      · rw [Function.update_of_ne h1]
        by_cases h2 : key = (heap.elems i).key
        · subst h2
          simp [hjk, hne]
        · rw [Function.update_of_ne h2, h.exact key h2]
          simp [Ne.symm h1, Ne.symm h2]
    · rw [exchange_of_ne hij hik]
      by_cases h1 : key = (heap.elems j).key
      · subst h1
        have hji := (h.exact _ hne j).mpr ⟨hj, rfl⟩
        have := h.exact _ hne i
        rw [hji] at this
        simp only [Function.update_self, Option.some.injEq]
        constructor
        · intro hki
          exact absurd hki.symm hik
        · intro hi
          exact absurd (Option.some.inj (this.mpr hi)).symm hij
      · rw [Function.update_of_ne h1]
        by_cases h2 : key = (heap.elems k).key
        · subst h2
          simp only [Function.update_self, Option.some.injEq]
          constructor
          · intro hji
            exact absurd hji.symm hij
          · rintro ⟨hi, hkey⟩
            exact absurd (h.fresh i hi hkey) hik
        · rw [Function.update_of_ne h2]
          apply h.exact key h2

theorem swap_comm {i j : ℕ} (hne : (heap.elems i).key ≠ (heap.elems j).key) :
  heap.swap i j = heap.swap j i
  := by
  have hex : exchange heap.elems i j = exchange heap.elems j i := by
    unfold exchange
    rw [Equiv.swap_comm]
  unfold swap setIndex
  cases heap.direct with
  | false => simp [hex]
  | true =>
    simp only [if_true, exchange_left, exchange_right, hex]
    rw [Function.update_comm hne]

/-- The elements of the used slots. -/
def contents (heap : BinaryHeap α) : Multiset (Elem α) :=
  (Multiset.range heap.elemsNum).map heap.elems

theorem mem_contents {e : Elem α} :
  e ∈ heap.contents ↔ ∃ i, i < heap.elemsNum ∧ heap.elems i = e
  := by
  simp [contents]

theorem map_range_exchange {n i j : ℕ} (a : ℕ → Elem α) (hi : i < n) (hj : j < n) :
  (Multiset.range n).map (exchange a i j) = (Multiset.range n).map a
  := by
  unfold exchange
  rw [← Multiset.map_map]
  congr 1
  apply Multiset.Nodup.ext (Multiset.Nodup.map (Equiv.injective _) (Multiset.nodup_range n))
    (Multiset.nodup_range n) |>.mpr
  intro l
  simp only [Multiset.mem_map, Multiset.mem_range]
  constructor
  · rintro ⟨m, hm, rfl⟩
    rw [Equiv.swap_apply_def]
    split_ifs <;> assumption
  · intro hl
    use Equiv.swap i j l
    constructor
    · rw [Equiv.swap_apply_def]
      split_ifs <;> assumption
    · apply Equiv.swap_apply_self

/-- An exchange of used slots keeps the contents. -/
theorem contents_swap {i j : ℕ} (hi : i < heap.elemsNum) (hj : j < heap.elemsNum) :
  (heap.swap i j).contents = heap.contents
  := by
  unfold contents
  rw [swap_elems, swap_elemsNum, map_range_exchange _ hi hj]

@[simp]
theorem contents_setIndex (heap : BinaryHeap α) (key : UInt64) (i : ℕ) :
  (heap.setIndex key i).contents = heap.contents
  := by
  simp [contents]

/-- Overwriting a used slot replaces one element of the contents. -/
theorem contents_setElem (heap : BinaryHeap α) {k : ℕ} (hk : k < heap.elemsNum)
    (e : Elem α) :
  heap.elems k ::ₘ (heap.setElem k e).contents = e ::ₘ heap.contents
  := by
  have hrange : Multiset.range heap.elemsNum
      = k ::ₘ (Multiset.range heap.elemsNum).filter (· ≠ k) := by
    apply (Multiset.Nodup.ext (Multiset.nodup_range _) _).mpr
    · intro l
      simp only [Multiset.mem_range, Multiset.mem_cons, Multiset.mem_filter]
      by_cases hl : l = k <;> simp [hl, hk]
    · apply Multiset.nodup_cons.mpr
      constructor
      · simp
      · apply Multiset.Nodup.filter _ (Multiset.nodup_range _)
  have hrest : ((Multiset.range heap.elemsNum).filter (· ≠ k)).map
      (Function.update heap.elems k e)
      = ((Multiset.range heap.elemsNum).filter (· ≠ k)).map heap.elems := by
    apply Multiset.map_congr rfl
    intro l hl
    apply Function.update_of_ne
    exact (Multiset.mem_filter.mp hl).2
  unfold contents setElem
  dsimp only
  rw [hrange, Multiset.map_cons, Multiset.map_cons, hrest, Function.update_self,
    Multiset.cons_swap]

/-- The last used slot taken out of the contents. -/
theorem contents_pop (heap : BinaryHeap α) {n : ℕ} (hn : heap.elemsNum = n + 1) :
  heap.contents = heap.elems n ::ₘ { heap with elemsNum := n }.contents
  := by
  simp [contents, hn, Multiset.range_succ]

/-- In an indexed heap the elements with another key than slot `k` are the contents
without slot `k`. -/
theorem Indexed.filter_contents (h : heap.Indexed) {k : ℕ} (hk : k < heap.elemsNum)
    {m : Multiset (Elem α)} (hm : heap.contents = heap.elems k ::ₘ m) :
  heap.contents.filter (·.key ≠ (heap.elems k).key) = m
  := by
  have hcard : ∀ e ∈ m, e.key ≠ (heap.elems k).key := by
    intro e he hkey
    have hcount : (heap.contents.filter (·.key = (heap.elems k).key)).card = 1 := by
      unfold contents
      rw [Multiset.filter_map, Multiset.card_map]
      have : (Multiset.range heap.elemsNum).filter
          ((fun e : Elem α => e.key = (heap.elems k).key) ∘ heap.elems) = {k} := by
        apply (Multiset.Nodup.ext (Multiset.Nodup.filter _ (Multiset.nodup_range _))
          (Multiset.nodup_singleton k)).mpr
        intro l
        simp only [Multiset.mem_filter, Multiset.mem_range, Function.comp,
          Multiset.mem_singleton]
        constructor
        · rintro ⟨hl, hkl⟩
          apply h.key_injective hl hk hkl
        · rintro rfl
          exact ⟨hk, rfl⟩
      rw [this, Multiset.card_singleton]
    rw [hm, Multiset.filter_cons_of_pos
      (p := fun e : Elem α => e.key = (heap.elems k).key) _ rfl,
      Multiset.card_cons] at hcount
    have hzero := Multiset.card_eq_zero.mp (Nat.succ.inj hcount)
    have hmem : e ∈ m.filter (fun e => e.key = (heap.elems k).key) :=
      Multiset.mem_filter.mpr ⟨he, hkey⟩
    rw [hzero] at hmem
    exact absurd hmem (Multiset.notMem_zero e)
  rw [hm, Multiset.filter_cons_of_neg _ (by simp)]
  exact Multiset.filter_eq_self.mpr hcard

end BinaryHeap
