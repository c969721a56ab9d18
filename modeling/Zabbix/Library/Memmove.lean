import Mathlib.Data.List.Rotate
import Mathlib.Tactic.Common

/-!
# Moves in an array

`memmove` copies a block of an array to another place of it; the two may overlap. Of a
sequence of moves it can be said that none writes over an entry that is not moved yet: then
a slot with an entry is read by the move that writes to it or by one before, and no slot is
written twice.

A ring is an array whose slots are counted from one of them, and from the beginning again
after the last slot.
-/

universe u

variable {α : Type u}

/-- A block that is copied. -/
structure Move where
  dst : ℕ
  src : ℕ
  n : ℕ
deriving DecidableEq, Repr

/-- The slots that a move writes. -/
def Move.writes (m : Move) (i : ℕ) : Prop := m.dst ≤ i ∧ i < m.dst + m.n

/-- The slots that a move reads. -/
def Move.reads (m : Move) (i : ℕ) : Prop := m.src ≤ i ∧ i < m.src + m.n

instance (m : Move) (i : ℕ) : Decidable (m.writes i) := inferInstanceAs (Decidable (_ ∧ _))

instance (m : Move) (i : ℕ) : Decidable (m.reads i) := inferInstanceAs (Decidable (_ ∧ _))

/-- `memmove`; it has no result when a block is not in the array. -/
def memmove (l : List α) (m : Move) : Option (List α) :=
  if m.dst + m.n ≤ l.length ∧ m.src + m.n ≤ l.length then
    some (l.take m.dst ++ ((l.drop m.src).take m.n ++ l.drop (m.dst + m.n)))
  else none

/-- Moves one after another. -/
def memmoves (l : List α) (moves : List Move) : Option (List α) := moves.foldlM memmove l

theorem memmove_eq {l : List α} {m : Move} (hdst : m.dst + m.n ≤ l.length)
    (hsrc : m.src + m.n ≤ l.length) :
  ∃ l', memmove l m = some l' ∧ l'.length = l.length
    ∧ ∀ i, l'[i]? = if m.writes i then l[m.src + (i - m.dst)]? else l[i]?
  := by
  have htake : (l.take m.dst).length = m.dst := by
    rw [List.length_take]
    omega
  have hblock : ((l.drop m.src).take m.n).length = m.n := by
    rw [List.length_take, List.length_drop]
    omega
  refine ⟨_, if_pos ⟨hdst, hsrc⟩, ?_, fun i => ?_⟩
  · rw [List.length_append, List.length_append, htake, hblock, List.length_drop]
    omega
  · obtain hi | hi := Nat.lt_or_ge i m.dst
    · have hw : ¬ m.writes i := fun h => absurd h.1 (Nat.not_le.mpr hi)
      rw [if_neg hw, List.getElem?_append_left (by rwa [htake]), List.getElem?_take, if_pos hi]
    · rw [List.getElem?_append_right (by rwa [htake]), htake]
      obtain hn | hn := Nat.lt_or_ge (i - m.dst) m.n
      · have hw : m.writes i := ⟨hi, by omega⟩
        rw [if_pos hw, List.getElem?_append_left (by rwa [hblock]), List.getElem?_take,
          if_pos hn, List.getElem?_drop]
      · have hw : ¬ m.writes i := fun h => absurd h.2 (by omega)
        rw [if_neg hw, List.getElem?_append_right (by rwa [hblock]), hblock, List.getElem?_drop]
        congr 1
        omega

/-! ### Making room and closing a gap -/

/-- A move by one slot makes room for an element among the first ones of an array. -/
theorem memmove_insert {l : List α} {i n : ℕ} (hi : i ≤ n) (hn : n < l.length) (x : α) :
  ∃ l', memmove l ⟨i + 1, i, n - i⟩ = some l' ∧ l'.length = l.length ∧
    (l'.set i x).take (n + 1) = (l.take n).insertIdx i x
  := by
  obtain ⟨l', hmove, hlength, hget⟩ :=
    @memmove_eq _ l ⟨i + 1, i, n - i⟩ (by dsimp only; omega) (by dsimp only; omega)
  have hwrites : ∀ j, Move.writes ⟨i + 1, i, n - i⟩ j ↔ i < j ∧ j < n + 1 := by
    intro j
    unfold Move.writes
    dsimp only
    omega
  refine ⟨l', hmove, hlength, List.ext_getElem? fun j => ?_⟩
  rw [List.getElem?_take, List.getElem?_set, List.getElem?_insertIdx, hget, hlength,
    List.length_take, List.getElem?_take, List.getElem?_take]
  obtain hlt | rfl | hgt := lt_trichotomy j i
  · rw [if_pos (by omega), if_neg (by omega), if_neg fun h => by have := (hwrites j).mp h; omega,
      if_pos hlt, if_pos (by omega)]
  · rw [if_pos (by omega), if_pos rfl, if_pos (by omega), if_neg (lt_irrefl j), if_pos rfl,
      if_pos (by omega)]
  · rw [if_neg (by omega : ¬ i = j), if_neg (by omega : ¬ j < i), if_neg (by omega : ¬ j = i)]
    obtain hle | hover := Nat.lt_or_ge j (n + 1)
    · rw [if_pos hle, if_pos ((hwrites j).mpr ⟨hgt, hle⟩), if_pos (by omega)]
      congr 1
      dsimp only
      omega
    · rw [if_neg (by omega), if_neg (by omega)]

/-- A move by one slot closes the gap of an element among the first ones of an array. -/
theorem memmove_erase {l : List α} {i n : ℕ} (hi : i < n) (hn : n ≤ l.length) :
  ∃ l', memmove l ⟨i, i + 1, n - i - 1⟩ = some l' ∧ l'.length = l.length ∧
    l'.take (n - 1) = (l.take n).eraseIdx i
  := by
  obtain ⟨l', hmove, hlength, hget⟩ :=
    @memmove_eq _ l ⟨i, i + 1, n - i - 1⟩ (by dsimp only; omega) (by dsimp only; omega)
  have hwrites : ∀ j, Move.writes ⟨i, i + 1, n - i - 1⟩ j ↔ i ≤ j ∧ j < n - 1 := by
    intro j
    unfold Move.writes
    dsimp only
    omega
  refine ⟨l', hmove, hlength, List.ext_getElem? fun j => ?_⟩
  rw [List.getElem?_take, List.getElem?_eraseIdx, hget, List.getElem?_take, List.getElem?_take]
  obtain hlt | hge := Nat.lt_or_ge j i
  · rw [if_pos (by omega), if_neg fun h => by have := (hwrites j).mp h; omega, if_pos hlt,
      if_pos (by omega)]
  · rw [if_neg (by omega : ¬ j < i)]
    obtain hle | hover := Nat.lt_or_ge j (n - 1)
    · rw [if_pos hle, if_pos ((hwrites j).mpr ⟨hge, hle⟩), if_pos (by omega)]
      congr 1
      dsimp only
      omega
    · rw [if_neg (by omega), if_neg (by omega)]

/-! ### Rings -/

/-- The slot of an element of a ring that begins at the given slot. -/
def ringSlot (size first k : ℕ) : ℕ :=
  if first + k < size then first + k else first + k - size

section Slots

variable {size first k k' : ℕ}

theorem ringSlot_lt (hfirst : first < size) (hk : k < size) :
  ringSlot size first k < size
  := by
  unfold ringSlot
  split_ifs <;> omega

theorem ringSlot_injective (hk : k < size) (hk' : k' < size) :
  ringSlot size first k = ringSlot size first k' ↔ k = k'
  := by
  unfold ringSlot
  split_ifs <;> omega

theorem ringSlot_surjective (hfirst : first < size) {i : ℕ} (hi : i < size) :
  ∃ k < size, ringSlot size first k = i
  := by
  obtain hlt | hle := Nat.lt_or_ge i first
  · refine ⟨i + size - first, by omega, ?_⟩
    unfold ringSlot
    split_ifs <;> omega
  · refine ⟨i - first, by omega, ?_⟩
    unfold ringSlot
    split_ifs <;> omega

/-- The slot before one, where the last slot is before the first one. -/
theorem ringSlot_pred (hfirst : first < size) (hk : k < size) :
  (if ringSlot size first (k + 1) = 0 then size else ringSlot size first (k + 1)) - 1
    = ringSlot size first k
  := by
  unfold ringSlot
  by_cases hnext : first + (k + 1) < size
  · rw [if_pos hnext, if_neg (by omega), if_pos (by omega)]
    omega
  · rw [if_neg hnext]
    split_ifs <;> omega

end Slots

theorem getElem?_ring {l : List α} {first k : ℕ} (hfirst : first < l.length)
    (hk : k < l.length) :
  (l.rotate first)[k]? = l[ringSlot l.length first k]?
  := by
  rw [List.getElem?_rotate hk, Nat.add_comm k, ringSlot]
  split_ifs with hlt
  · rw [Nat.mod_eq_of_lt hlt]
  · rw [Nat.mod_eq_sub_mod (Nat.le_of_not_lt hlt), Nat.mod_eq_of_lt (by omega)]

/-- An element of a ring is changed in its slot. -/
theorem rotate_set {l : List α} {first k : ℕ} (hfirst : first < l.length) (hk : k < l.length)
    (x : α) :
  (l.set (ringSlot l.length first k) x).rotate first = (l.rotate first).set k x
  := by
  apply List.ext_getElem? fun j => ?_
  obtain hj | hj := Nat.lt_or_ge j l.length
  · rw [getElem?_ring (by rwa [List.length_set]) (by rwa [List.length_set]), List.length_set,
      List.getElem?_set, List.getElem?_set, getElem?_ring hfirst hj, List.length_rotate,
      if_pos (ringSlot_lt hfirst hk), if_pos hk]
    simp only [ringSlot_injective hk hj]
  · rw [List.getElem?_eq_none (by simpa using hj), List.getElem?_eq_none (by simpa using hj)]

/-- The slot behind one, where the first slot is behind the last one. -/
theorem ringSlot_succ {size first k : ℕ} (hfirst : first < size) (hk : k + 1 < size) :
  (if size = ringSlot size first k + 1 then 0 else ringSlot size first k + 1)
    = ringSlot size first (k + 1)
  := by
  unfold ringSlot
  by_cases hlt : first + k < size
  · rw [if_pos hlt]
    split_ifs <;> omega
  · rw [if_neg hlt, if_neg (by omega), if_neg (by omega)]
    omega

/-- In a ring a move copies the `n` elements from `a` on `g` places further. -/
structure RingMove (size first : ℕ) (m : Move) (a g n : ℕ) : Prop where
  dst_le : m.dst + m.n ≤ size
  src_le : m.src + m.n ≤ size
  writes : ∀ k < size, m.writes (ringSlot size first k) ↔ a + g ≤ k ∧ k < a + g + n
  reads : ∀ k < size, m.reads (ringSlot size first k) ↔ a ≤ k ∧ k < a + n
  source : ∀ k < size, a + g ≤ k → k < a + g + n →
    m.src + (ringSlot size first k - m.dst) = ringSlot size first (k - g)

/-- A move between two blocks that do not go past the end of the array. -/
theorem ringMove_of_slots {size first src dst a g n : ℕ} (hsrc : src = ringSlot size first a)
    (hdst : dst = ringSlot size first (a + g)) (hsrc_le : src + n ≤ size)
    (hdst_le : dst + n ≤ size) (hfit : a + g + n ≤ size) :
  RingMove size first ⟨dst, src, n⟩ a g n
  where
  dst_le := hdst_le
  src_le := hsrc_le
  writes := by
    intro k hk
    simp only [Move.writes]
    unfold ringSlot at hdst ⊢
    split_ifs at hdst ⊢ <;> omega
  reads := by
    intro k hk
    simp only [Move.reads]
    unfold ringSlot at hsrc ⊢
    split_ifs at hsrc ⊢ <;> omega
  source := by
    intro k hk hlow hhigh
    unfold ringSlot at hsrc hdst ⊢
    dsimp only
    split_ifs at hsrc hdst ⊢ <;> omega

theorem RingMove.memmove {l : List α} {first a g n : ℕ} {m : Move}
    (h : RingMove l.length first m a g n) :
  ∃ l', memmove l m = some l' ∧ l'.length = l.length
    ∧ ∀ k < l.length, l'[ringSlot l.length first k]?
      = if a + g ≤ k ∧ k < a + g + n then l[ringSlot l.length first (k - g)]?
        else l[ringSlot l.length first k]?
  := by
  obtain ⟨l', hmove, hlength, hget⟩ := memmove_eq h.dst_le h.src_le
  refine ⟨l', hmove, hlength, fun k hk => ?_⟩
  rw [hget]
  simp only [h.writes k hk]
  split_ifs with hin
  · rw [h.source k hk hin.1 hin.2]
  · rfl

/-- A list whose elements from some place on are those that stood before a gap. -/
theorem getElem?_shifted (before block gap rest : List α) (k : ℕ) :
  (before ++ ((block ++ gap).take gap.length ++ (block ++ rest)))[k]?
    = if before.length + gap.length ≤ k ∧ k < before.length + gap.length + block.length then
        (before ++ (block ++ (gap ++ rest)))[k - gap.length]?
      else (before ++ (block ++ (gap ++ rest)))[k]?
  := by
  have htake : ((block ++ gap).take gap.length).length = gap.length := by
    rw [List.length_take, List.length_append]
    omega
  obtain hk | hk := Nat.lt_or_ge k before.length
  · rw [if_neg (by omega), List.getElem?_append_left hk, List.getElem?_append_left hk]
  rw [List.getElem?_append_right hk]
  obtain hgap | hgap := Nat.lt_or_ge (k - before.length) gap.length
  · have hlt : k - before.length < (block ++ gap).length := by
      rw [List.length_append]
      omega
    rw [if_neg (by omega), List.getElem?_append_right hk, List.getElem?_append_left (by omega),
      List.getElem?_take_of_lt hgap, ← List.append_assoc block, List.getElem?_append_left hlt]
  rw [List.getElem?_append_right (by omega), htake]
  obtain hblock | hblock := Nat.lt_or_ge (k - before.length - gap.length) block.length
  · rw [if_pos (by omega), List.getElem?_append_left hblock,
      List.getElem?_append_right (by omega), List.getElem?_append_left (by omega)]
    congr 1
    omega
  · rw [if_neg (by omega), List.getElem?_append_right hblock, List.getElem?_append_right hk,
      List.getElem?_append_right (by omega), List.getElem?_append_right (by omega)]
    congr 1
    omega

/-! ### Moves that lose nothing -/

/-- The moves, which come after others, write only to slots whose entry has been read before,
and to none a second time. -/
def SafeAfter (filled : ℕ → Prop) : (done moves : List Move) → Prop
  | _, [] => True
  | done, m :: rest =>
    (∀ i, m.writes i →
      (filled i → ∃ m' ∈ done ++ [m], m'.reads i) ∧ ∀ m' ∈ done, ¬ m'.writes i)
    ∧ SafeAfter filled (done ++ [m]) rest

/-- No move writes over an entry that is not moved yet, when the given slots have entries. -/
def NoOverwrite (filled : ℕ → Prop) (moves : List Move) : Prop := SafeAfter filled [] moves

theorem safeAfter_append {filled : ℕ → Prop} {done : List Move} (moves moves' : List Move) :
  SafeAfter filled done (moves ++ moves')
    ↔ SafeAfter filled done moves ∧ SafeAfter filled (done ++ moves) moves'
  := by
  induction moves generalizing done with
  | nil => simp [SafeAfter]
  | cons m moves ih =>
    rw [List.cons_append, SafeAfter, SafeAfter, ih, List.append_assoc, List.singleton_append,
      and_assoc]
