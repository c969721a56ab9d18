import Mathlib.Logic.Function.Basic
import Mathlib.Logic.Equiv.Basic
import Mathlib.Order.Defs.Unbundled
import Mathlib.Tactic.Common

/-!
# Heap order on an array

An array `a : ℕ → α` of which the first `n` slots are used is heap ordered by a relation
`r` when every used slot but the first is above its parent, the slot `(i - 1) / 2`.

Three weakenings describe an array in the middle of a repair. In `OrderedBut` any edge at
slot `k` may be broken. In `OrderedButAbove` the only edge that may be broken is the one
from slot `k` up to its parent; in `OrderedButBelow` the only broken edges are the ones
from slot `k` down to its children. In all three the edges around `k` bypass it: the
parent of `k` is below the children of `k`. Exchanging `k` with its parent, or with its
smaller child, moves the defect one level.
-/

namespace HeapOrder

variable {α : Type*} {r : α → α → Prop} {a : ℕ → α} {n k : ℕ}

/-- The slot above `i`. -/
def parent (i : ℕ) : ℕ := (i - 1) / 2

theorem parent_lt {i : ℕ} (h : i ≠ 0) :
  parent i < i
  := by
  unfold parent
  omega

theorem eq_child_of_parent {i : ℕ} (h : i ≠ 0) :
  i = 2 * parent i + 1 ∨ i = 2 * parent i + 2
  := by
  unfold parent
  omega

@[simp]
theorem parent_left (i : ℕ) :
  parent (2 * i + 1) = i
  := by
  unfold parent
  omega

@[simp]
theorem parent_right (i : ℕ) :
  parent (2 * i + 2) = i
  := by
  unfold parent
  omega

/-- Every used slot but the first is above its parent. -/
def Ordered (r : α → α → Prop) (a : ℕ → α) (n : ℕ) : Prop :=
  ∀ i, i ≠ 0 → i < n → r (a (parent i)) (a i)

/-- The parent of `k` is below the children of `k`. -/
def Bypass (r : α → α → Prop) (a : ℕ → α) (n k : ℕ) : Prop :=
  k ≠ 0 → ∀ i, i ≠ 0 → i < n → parent i = k → r (a (parent k)) (a i)

/-- Only the edges at slot `k` may be broken. -/
structure OrderedBut (r : α → α → Prop) (a : ℕ → α) (n k : ℕ) : Prop where
  edge : ∀ i, i ≠ 0 → i < n → i ≠ k → parent i ≠ k → r (a (parent i)) (a i)
  bypass : Bypass r a n k

/-- Only the edge from slot `k` to its parent may be broken. -/
structure OrderedButAbove (r : α → α → Prop) (a : ℕ → α) (n k : ℕ) : Prop where
  edge : ∀ i, i ≠ 0 → i < n → i ≠ k → r (a (parent i)) (a i)
  bypass : Bypass r a n k

/-- Only the edges from slot `k` to its children may be broken. -/
structure OrderedButBelow (r : α → α → Prop) (a : ℕ → α) (n k : ℕ) : Prop where
  edge : ∀ i, i ≠ 0 → i < n → parent i ≠ k → r (a (parent i)) (a i)
  bypass : Bypass r a n k

/-- The array with the slots `i` and `j` exchanged. -/
def exchange (a : ℕ → α) (i j : ℕ) : ℕ → α :=
  a ∘ Equiv.swap i j

@[simp]
theorem exchange_left (a : ℕ → α) (i j : ℕ) :
  exchange a i j i = a j
  := by
  simp [exchange]

@[simp]
theorem exchange_right (a : ℕ → α) (i j : ℕ) :
  exchange a i j j = a i
  := by
  simp [exchange]

theorem exchange_of_ne {i j l : ℕ} (hi : l ≠ i) (hj : l ≠ j) :
  exchange a i j l = a l
  := by
  simp [exchange, Equiv.swap_apply_of_ne_of_ne hi hj]

theorem Ordered.bypass [IsTrans α r] (h : Ordered r a n) :
  Bypass r a n k
  := by
  intro hk i hi hin hp
  have hkn : k < n := by
    have := parent_lt hi
    omega
  apply trans_of r (h k hk hkn)
  rw [← hp]
  apply h i hi hin

/-- The first slot of an ordered array is below every used slot. -/
theorem Ordered.first_le [Std.Refl r] [IsTrans α r] (h : Ordered r a n) :
  ∀ i, i < n → r (a 0) (a i)
  := by
  intro i
  induction i using Nat.strongRecOn with
  | _ i ih =>
    intro hin
    by_cases hi : i = 0
    · rw [hi]
      apply refl_of r
    · have hp := parent_lt hi
      apply trans_of r (ih (parent i) hp (by omega))
      apply h i hi hin

theorem orderedButAbove_zero_iff :
  OrderedButAbove r a n 0 ↔ Ordered r a n
  := by
  constructor
  · intro h i hi hin
    apply h.edge i hi hin hi
  · intro h
    constructor
    · intro i hi hin _
      apply h i hi hin
    · intro h0
      contradiction

/-- A repaired upper edge restores the order. -/
theorem OrderedButAbove.ordered (h : OrderedButAbove r a n k)
    (hk : r (a (parent k)) (a k)) :
  Ordered r a n
  := by
  intro i hi hin
  by_cases hik : i = k
  · rw [hik]
    exact hk
  · apply h.edge i hi hin hik

theorem Ordered.orderedBut [IsTrans α r] (h : Ordered r a n) :
  OrderedBut r a n k
  := by
  refine ⟨?_, h.bypass⟩
  intro i hi hin _ _
  apply h i hi hin

/-- A relation that agrees with the order on the used slots orders them too. -/
theorem Ordered.of_agree {s : α → α → Prop} (h : Ordered r a n)
    (hagree : ∀ i j, i < n → j < n → r (a i) (a j) → s (a i) (a j)) :
  Ordered s a n
  := by
  intro i hi hin
  have := parent_lt hi
  apply hagree _ _ (by omega) hin (h i hi hin)

/-- So does one that agrees with it on the used slots but `k` with the edges there. -/
theorem OrderedBut.of_agree {s : α → α → Prop} (h : OrderedBut r a n k)
    (hagree : ∀ i j, i < n → j < n → i ≠ k → j ≠ k → r (a i) (a j) → s (a i) (a j)) :
  OrderedBut s a n k
  := by
  constructor
  · intro i hi hin hik hpk
    have := parent_lt hi
    apply hagree _ _ (by omega) hin hpk hik (h.edge i hi hin hik hpk)
  · intro hk i hi hin hp
    have := parent_lt hi
    have := parent_lt hk
    apply hagree _ _ (by omega) hin (by omega) (by omega)
    apply h.bypass hk i hi hin hp

/-- Without the slots from `k` on there is no edge at `k`. -/
theorem OrderedBut.ordered_of_le {m : ℕ} (h : OrderedBut r a n k) (hm : m ≤ n)
    (hk : m ≤ k) :
  Ordered r a m
  := by
  intro i hi him
  have := parent_lt hi
  apply h.edge i hi (Nat.lt_of_lt_of_le him hm) (by omega) (by omega)

theorem OrderedBut.mono {m : ℕ} (h : OrderedBut r a n k) (hm : m ≤ n) :
  OrderedBut r a m k
  := by
  constructor
  · intro i hi him
    apply h.edge i hi (Nat.lt_of_lt_of_le him hm)
  · intro hk i hi him
    apply h.bypass hk i hi (Nat.lt_of_lt_of_le him hm)

/-- Writing slot `k` breaks only the edges at `k`. -/
theorem OrderedBut.update (h : OrderedBut r a n k) (x : α) :
  OrderedBut r (Function.update a k x) n k
  := by
  constructor
  · intro i hi hin hik hpk
    rw [Function.update_of_ne hpk, Function.update_of_ne hik]
    apply h.edge i hi hin hik hpk
  · intro hk i hi hin hp
    have hik : i ≠ k := by
      have := parent_lt hi
      omega
    rw [Function.update_of_ne (Nat.ne_of_lt (parent_lt hk)), Function.update_of_ne hik]
    apply h.bypass hk i hi hin hp

/-- Exchanging a too small slot with its parent moves the defect to the parent. -/
theorem OrderedButAbove.exchange [IsTrans α r] (hk : k ≠ 0) (hkn : k < n)
    (h : OrderedButAbove r a n k) (hsmall : r (a k) (a (parent k))) :
  OrderedButAbove r (exchange a (parent k) k) n (parent k)
  := by
  have hpk := parent_lt hk
  constructor
  · intro i hi hin hip
    by_cases hik : i = k
    · rw [hik, exchange_left, exchange_right]
      exact hsmall
    · rw [exchange_of_ne hip hik]
      by_cases hpik : parent i = k
      · rw [hpik, exchange_right]
        apply h.bypass hk i hi hin hpik
      · by_cases hpip : parent i = parent k
        · rw [hpip, exchange_left]
          apply trans_of r hsmall
          rw [← hpip]
          apply h.edge i hi hin hik
        · rw [exchange_of_ne hpip hpik]
          apply h.edge i hi hin hik
  · intro hp0 i hi hin hpi
    have hpp := parent_lt hp0
    rw [exchange_of_ne (Nat.ne_of_lt hpp) (by omega)]
    have hparent := h.edge (parent k) hp0 (by omega) (Nat.ne_of_lt hpk)
    by_cases hik : i = k
    · rw [hik, exchange_right]
      exact hparent
    · have hip : i ≠ parent k := by
        have := parent_lt hi
        omega
      rw [exchange_of_ne hip hik]
      apply trans_of r hparent
      rw [← hpi]
      apply h.edge i hi hin hik

/-- Exchanging a too large slot with a smallest child moves the defect to the child. -/
theorem OrderedButBelow.exchange [IsTrans α r] {c : ℕ} (hc : c ≠ 0)
    (hcn : c < n) (hck : parent c = k) (h : OrderedButBelow r a n k)
    (hleast : ∀ i, i ≠ 0 → i < n → parent i = k → r (a c) (a i)) (hlarge : r (a c) (a k)) :
  OrderedButBelow r (exchange a k c) n c
  := by
  have hkc := parent_lt hc
  rw [hck] at hkc
  constructor
  · intro i hi hin hpc
    by_cases hic : i = c
    · rw [hic, hck, exchange_left, exchange_right]
      exact hlarge
    · by_cases hik : i = k
      · rw [hik, exchange_left]
        rw [hik] at hi
        have hpk := parent_lt hi
        rw [exchange_of_ne (Nat.ne_of_lt hpk) (by omega)]
        apply h.bypass hi c hc hcn hck
      · rw [exchange_of_ne hik hic]
        by_cases hpik : parent i = k
        · rw [hpik, exchange_left]
          apply hleast i hi hin hpik
        · rw [exchange_of_ne hpik hpc]
          apply h.edge i hi hin hpik
  · intro _ i hi hin hpi
    have hip := parent_lt hi
    rw [hck, exchange_left, exchange_of_ne (by omega) (by omega), ← hpi]
    apply h.edge i hi hin (by omega)

/-- A slot that is below its children ends the repair. -/
theorem OrderedButBelow.ordered (h : OrderedButBelow r a n k)
    (hk : ∀ i, i ≠ 0 → i < n → parent i = k → r (a k) (a i)) :
  Ordered r a n
  := by
  intro i hi hin
  by_cases hik : parent i = k
  · rw [hik]
    apply hk i hi hin hik
  · apply h.edge i hi hin hik

end HeapOrder
