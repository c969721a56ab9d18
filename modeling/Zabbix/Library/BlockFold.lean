import Mathlib.Data.List.Basic
import Mathlib.Tactic.Common

/-!
# Folding over blocks

A function that takes a state and a block of a fixed size is folded over the whole blocks of
a list; the items behind the last whole block remain. A list may be taken in pieces: what
remains of one piece goes in front of the next one.
-/

universe u v

namespace BlockFold

variable {S : Type u} {A : Type v} (process : S → List A → S) (size : ℕ)

/-- The state behind the first blocks of a list. -/
def blocks : ℕ → S → List A → S
  | 0, s, _ => s
  | count + 1, s, xs => blocks count (process s (xs.take size)) (xs.drop size)

/-- The state behind the whole blocks of a list. -/
def whole (s : S) (xs : List A) : S := blocks process size (xs.length / size) s xs

/-- The items behind the last whole block. -/
def remains (xs : List A) : List A := xs.drop (xs.length / size * size)

theorem length_remains (xs : List A) :
  (remains size xs).length = xs.length % size
  := by
  have hdiv := Nat.div_add_mod xs.length size
  rw [Nat.mul_comm] at hdiv
  rw [remains, List.length_drop]
  omega

theorem remains_of_lt {xs : List A} (h : xs.length < size) :
  remains size xs = xs
  := by rw [remains, Nat.div_eq_of_lt h, Nat.zero_mul, List.drop_zero]

theorem whole_of_lt {xs : List A} (h : xs.length < size) (s : S) :
  whole process size s xs = s
  := by rw [whole, Nat.div_eq_of_lt h, blocks]

theorem blocks_append {count : ℕ} {xs : List A} (h : count * size ≤ xs.length) (s : S)
    (ys : List A) :
  blocks process size count s (xs ++ ys) = blocks process size count s xs
  := by
  induction count generalizing s xs with
  | zero => rfl
  | succ count ih =>
    rw [Nat.add_mul, Nat.one_mul] at h
    have hsize : size ≤ xs.length := by omega
    rw [blocks, blocks, List.take_append_of_le_length hsize, List.drop_append_of_le_length hsize]
    exact ih (by rw [List.length_drop]; omega) _

theorem blocks_add (count more : ℕ) (s : S) (xs : List A) :
  blocks process size (count + more) s xs =
    blocks process size more (blocks process size count s xs) (xs.drop (count * size))
  := by
  induction count generalizing s xs with
  | zero => rw [Nat.zero_add, Nat.zero_mul, List.drop_zero, blocks]
  | succ count ih =>
    rw [Nat.add_right_comm, blocks, ih, blocks, List.drop_drop, Nat.add_mul, Nat.one_mul,
      Nat.add_comm size]

variable {size}

theorem length_append_div (hsize : 0 < size) (xs ys : List A) :
  (xs ++ ys).length / size = xs.length / size + (remains size xs ++ ys).length / size
  := by
  have hdiv := Nat.div_add_mod xs.length size
  have hsplit : (xs ++ ys).length = xs.length / size * size + (remains size xs ++ ys).length := by
    rw [List.length_append, List.length_append, length_remains, Nat.mul_comm]
    omega
  rw [hsplit, Nat.add_comm, Nat.add_mul_div_right _ _ hsize, Nat.add_comm]

theorem drop_append (xs ys : List A) :
  (xs ++ ys).drop (xs.length / size * size) = remains size xs ++ ys
  := List.drop_append_of_le_length (Nat.div_mul_le_self _ _)

/-- The blocks of two pieces are those of the first piece, and those of the second one with
what remained in front of it. -/
theorem whole_append (hsize : 0 < size) (s : S) (xs ys : List A) :
  whole process size s (xs ++ ys) =
    whole process size (whole process size s xs) (remains size xs ++ ys)
  := by
  rw [whole, length_append_div hsize, blocks_add,
    blocks_append process size (Nat.div_mul_le_self _ _), drop_append]
  rfl

theorem remains_append (hsize : 0 < size) (xs ys : List A) :
  remains size (xs ++ ys) = remains size (remains size xs ++ ys)
  := by
  conv_lhs => rw [remains, length_append_div hsize, Nat.add_mul, ← List.drop_drop, drop_append]
  rfl

/-- A first block. -/
theorem whole_block (hsize : 0 < size) (s : S) {block : List A} (hblock : block.length = size)
    (xs : List A) :
  whole process size s (block ++ xs) = whole process size (process s block) xs
  := by
  have hone : block.length / size = 1 := by rw [hblock, Nat.div_self hsize]
  have hnone : remains size block = [] := by
    rw [remains, hone, Nat.one_mul, ← hblock, List.drop_length]
  have hblocks : whole process size s block = process s block := by
    rw [whole, hone, blocks, blocks, List.take_of_length_le (Nat.le_of_eq hblock)]
  rw [whole_append process hsize, hnone, List.nil_append, hblocks]

theorem remains_block (hsize : 0 < size) {block : List A} (hblock : block.length = size)
    (xs : List A) :
  remains size (block ++ xs) = remains size xs
  := by
  have hnone : remains size block = [] := by
    rw [remains, hblock, Nat.div_self hsize, Nat.one_mul, ← hblock, List.drop_length]
  rw [remains_append hsize, hnone, List.nil_append]

end BlockFold
