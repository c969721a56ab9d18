import Mathlib.Data.FinEnum
import Mathlib.Data.List.Sort
import Zabbix.Library.BinarySearch

/-!
# Identifiers

Identifiers are 64-bit numbers.  A sorted vector of them is searched by bisection.
-/

instance instLinearOrderUInt64 : LinearOrder UInt64 where
  le_refl := UInt64.le_refl
  le_trans _ _ _ := UInt64.le_trans
  le_antisymm _ _ := UInt64.le_antisymm
  le_total := UInt64.le_total
  lt_iff_le_not_ge _ _ := by
    rw [UInt64.lt_iff_toNat_lt, UInt64.le_iff_toNat_le, UInt64.le_iff_toNat_le]
    omega
  toDecidableLE := inferInstance
  toDecidableLT := inferInstance
  toDecidableEq := inferInstance

instance instLawfulBEqUInt64 : LawfulBEq UInt64 := inferInstance

/-- `zbx_vector_uint64_sort`. -/
def sortIds (ids : List UInt64) : List UInt64 := ids.insertionSort (· ≤ ·)

theorem sorted_sortIds (ids : List UInt64) :
  (sortIds ids).Pairwise (· ≤ ·)
  := List.pairwise_insertionSort _ ids

@[simp]
theorem mem_sortIds {ids : List UInt64} {id : UInt64} :
  id ∈ sortIds ids ↔ id ∈ ids
  := List.mem_insertionSort _

theorem bsearch_sortIds (ids : List UInt64) (id : UInt64) :
  bsearch (sortIds ids) id ↔ id ∈ ids
  := by
  rw [bsearch_iff (sorted_sortIds ids)]
  exact mem_sortIds
