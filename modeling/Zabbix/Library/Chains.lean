import Mathlib.Data.List.Perm.Basic
import Mathlib.Data.List.Pairwise
import Mathlib.Data.Set.Card

/-!
# Chains

An array of chains, the representation of a hash table: an element lies in some chain,
and its place in the chain matters to nobody. Elements are told apart by a relation on
them; `Distinct` says that no two elements are the same to it.
-/

universe u

namespace Chains

variable {α : Type u}

/-- The chain at an index, empty past the end of the array. -/
def chain (slots : List (List α)) (i : ℕ) : List α := slots.getD i []

theorem chain_of_ge {slots : List (List α)} {i : ℕ} (h : slots.length ≤ i) :
  chain slots i = []
  := by
  simp [chain, h]

theorem chain_eq_getElem {slots : List (List α)} {i : ℕ} (h : i < slots.length) :
  chain slots i = slots[i]
  := by
  simp [chain, h]

theorem chain_set {slots : List (List α)} {i : ℕ} (h : i < slots.length) (l : List α)
    (j : ℕ) :
  chain (slots.set i l) j = if j = i then l else chain slots j
  := by
  by_cases hij : j = i
  · subst hij
    simp [chain, h]
  · simp [chain, hij, List.getElem?_set_ne (Ne.symm hij)]

@[simp]
theorem chain_set_self {slots : List (List α)} {i : ℕ} (h : i < slots.length)
    (l : List α) :
  chain (slots.set i l) i = l
  := by
  simp [chain_set h]

theorem chain_set_of_ne {slots : List (List α)} {i j : ℕ} (h : j ≠ i) (l : List α) :
  chain (slots.set i l) j = chain slots j
  := by
  simp [chain, List.getElem?_set_ne (Ne.symm h)]

theorem mem_flatten {slots : List (List α)} {a : α} :
  a ∈ slots.flatten ↔ ∃ i, a ∈ chain slots i
  := by
  constructor
  · intro h
    obtain ⟨l, hl, ha⟩ := List.mem_flatten.mp h
    obtain ⟨i, hi, rfl⟩ := List.getElem_of_mem hl
    exact ⟨i, by rwa [chain_eq_getElem hi]⟩
  · rintro ⟨i, hi⟩
    by_cases hlt : i < slots.length
    · rw [chain_eq_getElem hlt] at hi
      exact List.mem_flatten.mpr ⟨_, List.getElem_mem hlt, hi⟩
    · rw [chain_of_ge (by omega)] at hi
      cases hi

/-- A write to one chain exchanges the elements of this chain. -/
theorem flatten_set_perm {slots : List (List α)} {i : ℕ} (h : i < slots.length)
    (l : List α) :
  ((slots.set i l).flatten ++ chain slots i).Perm (slots.flatten ++ l)
  := by
  induction slots generalizing i with
  | nil => simp at h
  | cons c slots ih =>
    cases i with
    | zero =>
      have hswap : (l ++ (slots.flatten ++ c)).Perm (c ++ (slots.flatten ++ l)) := by
        calc (l ++ (slots.flatten ++ c)).Perm ((slots.flatten ++ c) ++ l) :=
              List.perm_append_comm
          _ = slots.flatten ++ (c ++ l) := by rw [List.append_assoc]
          _ |>.Perm ((c ++ l) ++ slots.flatten) := List.perm_append_comm
          _ = c ++ (l ++ slots.flatten) := by rw [List.append_assoc]
          _ |>.Perm (c ++ (slots.flatten ++ l)) :=
              List.Perm.append_left c List.perm_append_comm
      simpa [chain] using hswap
    | succ i =>
      have hi : i < slots.length := by simpa using h
      have hrest := (ih hi).append_left c
      simpa [chain, List.append_assoc] using hrest

/-- An element put into a chain, at any place. -/
theorem flatten_insert_perm {slots : List (List α)} {i : ℕ} (h : i < slots.length) {a : α}
    {l : List α} (hl : l.Perm (a :: chain slots i)) :
  (slots.set i l).flatten.Perm (a :: slots.flatten)
  := by
  have hset := flatten_set_perm h l
  have hswap : (slots.flatten ++ l).Perm ((a :: slots.flatten) ++ chain slots i) :=
    (hl.append_left slots.flatten).trans List.perm_middle
  exact (List.perm_append_right_iff _).mp (hset.trans hswap)

/-- An element put at the head of a chain. -/
theorem flatten_push_perm {slots : List (List α)} {i : ℕ} (h : i < slots.length)
    (a : α) :
  ((slots.set i (a :: chain slots i)).flatten).Perm (a :: slots.flatten)
  := flatten_insert_perm h (List.Perm.refl _)

/-- An element taken out of a chain, whatever becomes of the order of the others. -/
theorem flatten_take_perm {slots : List (List α)} {i : ℕ} (h : i < slots.length) {a : α}
    {l : List α} (hl : (chain slots i).Perm (a :: l)) :
  (a :: (slots.set i l).flatten).Perm slots.flatten
  := by
  have hset := flatten_set_perm h l
  have hleft : ((slots.set i l).flatten ++ chain slots i).Perm
      ((a :: (slots.set i l).flatten) ++ l) :=
    (hl.append_left _).trans List.perm_middle
  exact (List.perm_append_right_iff _).mp (hleft.symm.trans hset)

/-- An element taken out of a chain. -/
theorem flatten_remove_perm {slots : List (List α)} {i : ℕ} (h : i < slots.length)
    {before after : List α} {a : α} (hchain : chain slots i = before ++ a :: after) :
  (a :: (slots.set i (before ++ after)).flatten).Perm slots.flatten
  := by
  apply flatten_take_perm h
  rw [hchain]
  exact List.perm_middle

/-! ### Moving elements to their chains -/

section

variable {place : α → ℕ} {slots slots' : List (List α)} {i : ℕ}

/-- The elements of the chain belong into it. -/
def PlacedAt (place : α → ℕ) (slots : List (List α)) (i : ℕ) : Prop :=
  ∀ a ∈ chain slots i, place a = i

/-- What a walk over one chain does that moves the elements of other chains away: no element
is lost or added, and other chains gain elements of theirs only. -/
structure WalkedAt (place : α → ℕ) (i : ℕ) (slots slots' : List (List α)) : Prop where
  length : slots'.length = slots.length
  perm : slots'.flatten.Perm slots.flatten
  settled : PlacedAt place slots' i
  gained : ∀ j ≠ i, ∀ a ∈ chain slots' j, a ∈ chain slots j ∨ place a = j

theorem WalkedAt.of_placedAt (h : PlacedAt place slots i) :
  WalkedAt place i slots slots
  := ⟨rfl, List.Perm.refl _, h, fun _ _ _ ha => .inl ha⟩

/-- One element is moved before the rest of the walk. -/
theorem WalkedAt.move {a : α} {l m : List α} (hi : i < slots.length)
    (hplace : place a < slots.length) (hne : i ≠ place a)
    (hl : l.Perm (a :: chain slots (place a))) (hm : (chain slots i).Perm (a :: m))
    (h : WalkedAt place i ((slots.set (place a) l).set i m) slots') :
  WalkedAt place i slots slots'
  := by
  have hlength : i < (slots.set (place a) l).length := by rwa [List.length_set]
  have htaken : (a :: ((slots.set (place a) l).set i m).flatten).Perm
      (slots.set (place a) l).flatten := by
    apply flatten_take_perm hlength
    rw [chain_set_of_ne hne]
    exact hm
  refine ⟨?_, ?_, h.settled, ?_⟩
  · rw [h.length, List.length_set, List.length_set]
  · exact h.perm.trans (htaken.trans (flatten_insert_perm hplace hl)).cons_inv
  · intro j hj b hb
    obtain hb | hb := h.gained j hj b hb
    · rw [chain_set_of_ne hj, chain_set hplace] at hb
      split at hb
      case isTrue heq =>
        obtain rfl | hb := List.mem_cons.mp (hl.mem_iff.mp hb)
        · exact .inr heq.symm
        · rw [← heq] at hb
          exact .inl hb
      case isFalse => exact .inl hb
    · exact .inr hb

/-- A walk over the first chains, one after the other. -/
theorem foldl_walkedAt {n count : ℕ} {walk : List (List α) → ℕ → List (List α)}
    (hwalk : ∀ slots i, slots.length = n → i < n → WalkedAt place i slots (walk slots i))
    (hlength : slots.length = n) (hcount : count ≤ n) :
  ((List.range count).foldl walk slots).length = n ∧
    ((List.range count).foldl walk slots).flatten.Perm slots.flatten ∧
    ∀ j, j < count ∨ PlacedAt place slots j →
      PlacedAt place ((List.range count).foldl walk slots) j
  := by
  induction count with
  | zero =>
    refine ⟨hlength, List.Perm.refl _, ?_⟩
    intro j hj
    exact hj.resolve_left (Nat.not_lt_zero j)
  | succ count ih =>
    obtain ⟨hlen, hperm, hplaced⟩ := ih (Nat.le_of_succ_le hcount)
    have hstep := hwalk _ count hlen hcount
    rw [List.range_succ, List.foldl_concat]
    refine ⟨hstep.length.trans hlen, hstep.perm.trans hperm, ?_⟩
    intro j hj a ha
    by_cases hjc : j = count
    · rw [hjc] at ha ⊢
      exact hstep.settled a ha
    · obtain ha | ha := hstep.gained j hjc a ha
      · apply hplaced j _ a ha
        exact hj.imp_left fun hlt => by omega
      · exact ha

end

/-! ### Distinct elements -/

variable {same : α → α → Prop}

/-- No two elements of the list are the same. -/
def Distinct (same : α → α → Prop) (s : List α) : Prop :=
  s.Pairwise fun a b => ¬ same a b

theorem Distinct.perm {s t : List α} (h : Distinct same s)
    (hsymm : ∀ a b, same a b → same b a) (hperm : s.Perm t) :
  Distinct same t
  := by
  apply (hperm.pairwise_iff _).mp h
  intro a b hab hba
  exact hab (hsymm _ _ hba)

/-- Two elements that are the same are one element. -/
theorem Distinct.eq_of_same {s : List α} (h : Distinct same s)
    (hsymm : ∀ a b, same a b → same b a) {a b : α} (ha : a ∈ s) (hb : b ∈ s)
    (hab : same a b) :
  a = b
  := by
  by_contra hne
  have hflip : Std.Symm fun a b => ¬ same a b := ⟨fun a b hab hba => hab (hsymm _ _ hba)⟩
  exact List.Pairwise.forall h ha hb hne hab

theorem Distinct.nodup {s : List α} (h : Distinct same s) (hrefl : ∀ a, same a a) :
  s.Nodup
  := by
  apply h.imp
  rintro a b hab rfl
  exact hab (hrefl a)

/-- The number of elements of a list without repetition. -/
theorem ncard_of_nodup {s : List α} (h : s.Nodup) :
  {a | a ∈ s}.ncard = s.length
  := by
  classical
  have hset : {a | a ∈ s} = (s.toFinset : Set α) := by
    ext a
    simp
  rw [hset, Set.ncard_coe_finset, List.toFinset_card_of_nodup h]

end Chains
