import Zabbix.HistoryCache.History

/-!
# Compacting the history ring

Seen from the first slot of the ring, compacting it moves every block of entries behind the
empty slots up to the entries that were moved before. The ring is always made of the entries
that are still to be visited, those that wait to be moved, the empty slots and the entries
that are where they stay.
-/

namespace HistoryCache

theorem wrap_eq_ringSlot (size first k : ℕ) :
  wrap size (first + k) = ringSlot size first k
  := by
  unfold wrap ringSlot
  split_ifs <;> omega

section Block

variable {size first a n g : ℕ}

/-- A block is moved at once, or in two parts, the rear part first, when the slots that it is
moved to go past the end of the array. -/
theorem moveHistory_cases (hfirst : first < size) (hblock : ringSlot size first a + n ≤ size)
    (hfit : a + g + n ≤ size) :
  (∃ m, moveHistory size (ringSlot size first a) n g = [m] ∧ RingMove size first m a g n)
    ∨ ∃ m m' front, moveHistory size (ringSlot size first a) n g = [m, m'] ∧ front ≤ n
      ∧ n ≤ g + front ∧ RingMove size first m (a + front) g (n - front)
      ∧ RingMove size first m' a g front
  := by
  generalize hsrc : ringSlot size first a = src at hblock ⊢
  unfold moveHistory
  dsimp only
  by_cases hone : size ≤ src + g ∨ src + g + n ≤ size
  · rw [if_pos hone]
    refine Or.inl ⟨_, rfl, ringMove_of_slots hsrc.symm ?_ hblock ?_ hfit⟩
    · unfold wrap
      unfold ringSlot at hsrc ⊢
      split_ifs at hsrc ⊢ <;> omega
    · unfold wrap
      split_ifs <;> omega
  · rw [if_neg hone]
    have hfront : n - (src + g + n - size) = size - (src + g) := by omega
    rw [hfront]
    refine Or.inr ⟨_, _, size - (src + g), rfl, by omega, by omega, ?_, ?_⟩
    · have hrear : n - (size - (src + g)) = src + g + n - size := by omega
      rw [hrear]
      apply ringMove_of_slots
      · unfold ringSlot at hsrc ⊢
        split_ifs at hsrc ⊢ <;> omega
      · unfold ringSlot at hsrc ⊢
        split_ifs at hsrc ⊢ <;> omega
      all_goals omega
    · refine ringMove_of_slots hsrc.symm ?_ (by omega) (by omega) (by omega)
      unfold ringSlot at hsrc ⊢
      split_ifs at hsrc ⊢ <;> omega

/-- Moving a block in the ring: its entries are moved by the number of empty slots, and no
other slot changes. -/
theorem moveHistory_spec {α : Type*} {h : List α} (hfirst : first < h.length)
    (hblock : ringSlot h.length first a + n ≤ h.length) (hfit : a + g + n ≤ h.length) :
  ∃ h', memmoves h (moveHistory h.length (ringSlot h.length first a) n g) = some h'
    ∧ h'.length = h.length
    ∧ ∀ k < h.length, h'[ringSlot h.length first k]?
      = if a + g ≤ k ∧ k < a + g + n then h[ringSlot h.length first (k - g)]?
        else h[ringSlot h.length first k]?
  := by
  obtain ⟨m, hmoves, hring⟩ | ⟨m, m', front, hmoves, hfront, hroom, hring, hring'⟩ :=
    moveHistory_cases hfirst hblock hfit
  · obtain ⟨h', hmove, hlength, hget⟩ := hring.memmove
    exact ⟨h', by simp [hmoves, memmoves, hmove], hlength, hget⟩
  · obtain ⟨h₁, hmove₁, hlength₁, hget₁⟩ := hring.memmove
    rw [← hlength₁] at hring'
    obtain ⟨h₂, hmove₂, hlength₂, hget₂⟩ := hring'.memmove
    rw [hlength₁] at hget₂
    refine ⟨h₂, by simp [hmoves, memmoves, hmove₁, hmove₂], hlength₂.trans hlength₁,
      fun k hk => ?_⟩
    rw [hget₂ k hk, hget₁ k hk, hget₁ (k - g) (by omega)]
    split_ifs <;> first | rfl | omega

/-- The ring after a block of entries was moved behind the empty slots. -/
theorem moveHistory_ring {h before block gap rest : List History} (hfirst : first < h.length)
    (hring : h.rotate first = before ++ (block ++ (gap ++ rest)))
    (hcontiguous : ringSlot h.length first before.length + block.length ≤ h.length) :
  ∃ h' gap', memmoves h (moveHistory h.length (ringSlot h.length first before.length)
      block.length gap.length) = some h'
    ∧ h'.length = h.length ∧ gap'.length = gap.length
    ∧ h'.rotate first = before ++ (gap' ++ (block ++ rest))
  := by
  have hlength : h.length = before.length + (block.length + (gap.length + rest.length)) := by
    rw [← List.length_rotate (l := h) (n := first), hring]
    simp only [List.length_append]
  obtain ⟨h', hmoves, hsame, hget⟩ := moveHistory_spec (n := block.length) (g := gap.length)
    hfirst hcontiguous (by omega)
  refine ⟨h', (block ++ gap).take gap.length, hmoves, hsame, ?_, ?_⟩
  · rw [List.length_take, List.length_append]
    omega
  · apply List.ext_getElem? fun k => ?_
    obtain hk | hk := Nat.lt_or_ge k h.length
    · rw [getElem?_ring (hsame ▸ hfirst) (hsame ▸ hk), hsame, hget k hk,
        ← getElem?_ring hfirst hk, ← getElem?_ring hfirst (by omega), hring, getElem?_shifted]
    · rw [List.getElem?_eq_none (by simpa [hsame] using hk), List.getElem?_eq_none]
      simp only [List.length_append, List.length_take]
      omega

end Block

/-! ### The loop -/

/-- The entries of the ring that are not emptied. -/
def liveEntries (ring : List History) : List History := ring.filter (·.itemid ≠ 0)

/-- The array while `n` entries are still to be visited: behind them, entries wait to be moved
behind empty slots, and then come the entries that are where they stay. -/
structure VacuumLoop.Compacting (ring free : List History) (first n : ℕ) (s : VacuumLoop) :
    Prop where
  first_lt : first < s.history.length
  f_eq : s.f = ringSlot s.history.length first n
  contiguous : s.f + s.nData ≤ s.history.length
  noGap : s.nGap = 0 → s.nData = 0
  parts : ∃ block gap kept,
    s.history.rotate first = ring.take n ++ (block ++ (gap ++ (kept ++ free)))
    ∧ block ++ kept = liveEntries (ring.drop n) ∧ block.length = s.nData ∧ gap.length = s.nGap

namespace VacuumLoop

variable {ring free : List History} {first n : ℕ} {s s' : VacuumLoop}

/-- The waiting entries are moved. -/
theorem Compacting.move (h : s.Compacting ring free first n) (hn : n ≤ ring.length) :
  ∃ s', s.move s.f = some s' ∧ s'.Compacting ring free first n ∧ s'.nData = 0
    ∧ s'.history.length = s.history.length ∧ s'.f = s.f ∧ s'.nGap = s.nGap
    ∧ s'.moves = s.moves ++ moveHistory s.history.length s.f s.nData s.nGap
  := by
  obtain ⟨block, gap, kept, hring, hlive, hblock, hgap⟩ := h.parts
  have htake : (ring.take n).length = n := List.length_take_of_le hn
  have hcontiguous := h.contiguous
  rw [h.f_eq, ← hblock] at hcontiguous
  obtain ⟨history, gap', hmoves, hlength, hgap', hring'⟩ := moveHistory_ring h.first_lt hring
    (by rwa [htake])
  rw [htake, ← h.f_eq, hblock, hgap] at hmoves
  refine ⟨{ s with
    history, nData := 0
    moves := s.moves ++ moveHistory s.history.length s.f s.nData s.nGap }, ?_, ?_, rfl, hlength,
    rfl, rfl, rfl⟩
  · rw [VacuumLoop.move, hmoves, Option.map_some]
  · exact {
      first_lt := by rw [hlength]; exact h.first_lt
      f_eq := by rw [hlength]; exact h.f_eq
      contiguous := by
        rw [hlength]
        exact (Nat.le_add_right _ _).trans h.contiguous
      noGap := fun _ => rfl
      parts := ⟨[], gap', block ++ kept, by simpa using hring', hlive, rfl, hgap'.trans hgap⟩ }

/-- The entry that is visited next. -/
theorem Compacting.entry (h : s.Compacting ring free first (n + 1)) (hn : n < ring.length) :
  n < s.history.length
    ∧ s.history[ringSlot s.history.length first n]? = some (ring.get ⟨n, hn⟩)
  := by
  obtain ⟨block, gap, kept, hring, -⟩ := h.parts
  have hlength : s.history.length
      = (ring.take (n + 1) ++ (block ++ (gap ++ (kept ++ free)))).length := by
    rw [← hring, List.length_rotate]
  have hlt : n < s.history.length := by
    rw [hlength, List.length_append, List.length_take]
    omega
  refine ⟨hlt, ?_⟩
  rw [← getElem?_ring h.first_lt hlt, hring, List.getElem?_append_left, List.getElem?_take,
    if_pos (Nat.lt_succ_self n), List.getElem?_eq_getElem hn]
  · rfl
  · rw [List.length_take]
    omega

theorem take_succ_get (hn : n < ring.length) :
  ring.take (n + 1) = ring.take n ++ [ring.get ⟨n, hn⟩]
  := (List.take_concat_get' ring n hn).symm

theorem liveEntries_drop (hn : n < ring.length) :
  liveEntries (ring.drop n)
    = if (ring.get ⟨n, hn⟩).itemid = 0 then liveEntries (ring.drop (n + 1))
      else ring.get ⟨n, hn⟩ :: liveEntries (ring.drop (n + 1))
  := by
  rw [List.drop_eq_getElem_cons hn, liveEntries, List.filter_cons]
  simp only [List.get_eq_getElem, decide_eq_true_eq, ne_eq, ite_not]
  rfl

/-- An empty slot is visited, while no entries wait. -/
theorem Compacting.gap (h : s.Compacting ring free first (n + 1)) (hn : n < ring.length)
    (hempty : (ring.get ⟨n, hn⟩).itemid = 0) (hdata : s.nData = 0) :
  ({ s with f := ringSlot s.history.length first n, nGap := s.nGap + 1 } : VacuumLoop).Compacting
    ring free first n
  := by
  obtain ⟨hlt, -⟩ := h.entry hn
  obtain ⟨block, gap, kept, hring, hlive, hblock, hgap⟩ := h.parts
  obtain rfl : block = [] := List.eq_nil_of_length_eq_zero (hblock.trans hdata)
  exact {
    first_lt := h.first_lt
    f_eq := rfl
    contiguous := by
      change ringSlot _ _ _ + s.nData ≤ s.history.length
      rw [hdata]
      exact (ringSlot_lt h.first_lt hlt).le
    noGap := fun _ => hdata
    parts := by
      refine ⟨[], ring.get ⟨n, hn⟩ :: gap, kept, ?_, ?_, hblock, ?_⟩
      · rw [hring, take_succ_get hn, List.append_assoc]
        rfl
      · rw [hlive, liveEntries_drop hn, if_pos hempty]
      · rw [List.length_cons, hgap] }

/-- An entry is visited that has empty slots behind it. -/
theorem Compacting.wait (h : s.Compacting ring free first (n + 1)) (hn : n < ring.length)
    (hfilled : (ring.get ⟨n, hn⟩).itemid ≠ 0) (hgap : s.nGap ≠ 0) (hflushed : s.f = 0 → s.nData = 0) :
  ({ s with f := ringSlot s.history.length first n, nData := s.nData + 1 } : VacuumLoop).Compacting
    ring free first n
  := by
  obtain ⟨hlt, -⟩ := h.entry hn
  obtain ⟨block, gap, kept, hring, hlive, hblock, hgap'⟩ := h.parts
  exact {
    first_lt := h.first_lt
    f_eq := rfl
    contiguous := by
      change ringSlot _ _ _ + (s.nData + 1) ≤ s.history.length
      have hpred := ringSlot_pred h.first_lt hlt
      have hcontiguous := h.contiguous
      have hpositive := h.first_lt
      rw [← h.f_eq] at hpred
      rw [← hpred]
      split_ifs with hf
      · rw [hflushed hf]
        omega
      · omega
    noGap := fun hno => absurd hno hgap
    parts := by
      refine ⟨ring.get ⟨n, hn⟩ :: block, gap, kept, ?_, ?_, ?_, hgap'⟩
      · rw [hring, take_succ_get hn, List.append_assoc]
        rfl
      · rw [liveEntries_drop hn, if_neg hfilled, ← hlive, List.cons_append]
      · rw [List.length_cons, hblock] }

/-- An entry is visited that stays. -/
theorem Compacting.stay (h : s.Compacting ring free first (n + 1)) (hn : n < ring.length)
    (hfilled : (ring.get ⟨n, hn⟩).itemid ≠ 0) (hgap : s.nGap = 0) :
  ({ s with f := ringSlot s.history.length first n } : VacuumLoop).Compacting ring free first n
  := by
  obtain ⟨hlt, -⟩ := h.entry hn
  obtain ⟨block, gap, kept, hring, hlive, hblock, hgap'⟩ := h.parts
  obtain rfl : block = [] := List.eq_nil_of_length_eq_zero (hblock.trans (h.noGap hgap))
  obtain rfl : gap = [] := List.eq_nil_of_length_eq_zero (hgap'.trans hgap)
  exact {
    first_lt := h.first_lt
    f_eq := rfl
    contiguous := by
      change ringSlot _ _ _ + s.nData ≤ s.history.length
      rw [h.noGap hgap]
      exact (ringSlot_lt h.first_lt hlt).le
    noGap := h.noGap
    parts := by
      refine ⟨[], [], ring.get ⟨n, hn⟩ :: kept, ?_, ?_, hblock, hgap'⟩
      · rw [hring, take_succ_get hn, List.append_assoc]
        rfl
      · rw [liveEntries_drop hn, if_neg hfilled, ← hlive, List.nil_append, List.nil_append] }

/-! ### No entry is lost -/

/-- The moves so far overwrite no entry, no entry that is visited later or waits was written to,
and the empty slots behind those may be written to. -/
structure Tracked (filled : ℕ → Prop) (size first n : ℕ) (s : VacuumLoop) : Prop where
  safe : NoOverwrite filled s.moves
  untouched : ∀ k < n + s.nData, ∀ m ∈ s.moves, ¬ m.writes (ringSlot size first k)
  cleared : ∀ k, n + s.nData ≤ k → k < n + s.nData + s.nGap →
    (filled (ringSlot size first k) → ∃ m ∈ s.moves, m.reads (ringSlot size first k))
      ∧ ∀ m ∈ s.moves, ¬ m.writes (ringSlot size first k)

variable {filled : ℕ → Prop} {size : ℕ}

theorem Tracked.gap (h : s.Tracked filled size first (n + 1)) (hdata : s.nData = 0)
    (hempty : ¬ filled (ringSlot size first n)) (f : ℕ) :
  ({ s with f, nGap := s.nGap + 1 } : VacuumLoop).Tracked filled size first n
  where
  safe := h.safe
  untouched := fun k hk => h.untouched k (by dsimp only at hk; omega)
  cleared := fun k hlow hhigh => by
    dsimp only at hlow hhigh ⊢
    obtain rfl | hne := eq_or_ne k n
    · exact ⟨fun hfilled => absurd hfilled hempty, h.untouched k (by omega)⟩
    · exact h.cleared k (by omega) (by omega)

theorem Tracked.wait (h : s.Tracked filled size first (n + 1)) (f : ℕ) :
  ({ s with f, nData := s.nData + 1 } : VacuumLoop).Tracked filled size first n
  where
  safe := h.safe
  untouched := fun k hk => h.untouched k (by dsimp only at hk; omega)
  cleared := fun k hlow hhigh => by
    dsimp only at hlow hhigh ⊢
    exact h.cleared k (by omega) (by omega)

theorem Tracked.stay (h : s.Tracked filled size first (n + 1)) (hdata : s.nData = 0)
    (hgap : s.nGap = 0) (f : ℕ) :
  ({ s with f } : VacuumLoop).Tracked filled size first n
  where
  safe := h.safe
  untouched := fun k hk => h.untouched k (by dsimp only at hk; omega)
  cleared := fun k hlow hhigh => by
    dsimp only at hlow hhigh
    omega

/-- A move in the ring that writes only to slots behind the waiting entries that are free, or
that it or a move before reads. -/
theorem RingMove.safe {moves : List Move} {m : Move} {a g d : ℕ} (hfirst : first < size)
    (hring : RingMove size first m a g d)
    (hwrites : ∀ k, a + g ≤ k → k < a + g + d →
      (filled (ringSlot size first k) → ∃ m' ∈ moves ++ [m], m'.reads (ringSlot size first k))
        ∧ ∀ m' ∈ moves, ¬ m'.writes (ringSlot size first k)) :
  SafeAfter filled moves [m]
  := by
  refine ⟨fun i hi => ?_, trivial⟩
  have hlt : i < size := hi.2.trans_le hring.dst_le
  obtain ⟨k, hk, rfl⟩ := ringSlot_surjective hfirst hlt
  obtain ⟨hlow, hhigh⟩ := (hring.writes k hk).mp hi
  exact hwrites k hlow hhigh

/-- The slots of the waiting entries are read. -/
theorem moveHistory_reads {a g d k : ℕ} (hfirst : first < size)
    (hblock : ringSlot size first a + d ≤ size) (hfit : a + g + d ≤ size) (hlow : a ≤ k)
    (hhigh : k < a + d) :
  ∃ m ∈ moveHistory size (ringSlot size first a) d g, m.reads (ringSlot size first k)
  := by
  obtain ⟨m, hmoves, hring⟩ | ⟨m, m', front, hmoves, hfront, -, hring, hring'⟩ :=
    moveHistory_cases hfirst hblock hfit
  · rw [hmoves]
    exact ⟨m, List.mem_singleton_self m, (hring.reads k (by omega)).mpr ⟨hlow, hhigh⟩⟩
  · rw [hmoves]
    obtain hk | hk := Nat.lt_or_ge k (a + front)
    · exact ⟨m', by simp, (hring'.reads k (by omega)).mpr ⟨hlow, hk⟩⟩
    · exact ⟨m, by simp, (hring.reads k (by omega)).mpr ⟨hk, by omega⟩⟩

/-- Only slots are written that the waiting entries are moved to. -/
theorem moveHistory_writes {a g d k : ℕ} {m : Move} (hfirst : first < size)
    (hblock : ringSlot size first a + d ≤ size) (hfit : a + g + d ≤ size) (hk : k < size)
    (hm : m ∈ moveHistory size (ringSlot size first a) d g)
    (hwrites : m.writes (ringSlot size first k)) :
  a + g ≤ k ∧ k < a + g + d
  := by
  obtain ⟨m₁, hmoves, hring⟩ | ⟨m₁, m₂, front, hmoves, hfront, -, hring, hring'⟩ :=
    moveHistory_cases hfirst hblock hfit
  · rw [hmoves, List.mem_singleton] at hm
    subst hm
    exact (hring.writes k hk).mp hwrites
  · rw [hmoves, List.mem_cons, List.mem_singleton] at hm
    obtain rfl | rfl := hm
    · have hrange := (hring.writes k hk).mp hwrites
      omega
    · have hrange := (hring'.writes k hk).mp hwrites
      omega

/-- Moving the waiting entries writes to the slots behind them, and to their own slots once
they are read. -/
theorem Tracked.moveHistory_safe (h : s.Tracked filled size first n) (hfirst : first < size)
    (hblock : ringSlot size first n + s.nData ≤ size) (hfit : n + s.nGap + s.nData ≤ size) :
  SafeAfter filled s.moves (moveHistory size (ringSlot size first n) s.nData s.nGap)
  := by
  obtain ⟨m, hmoves, hring⟩ | ⟨m, m', front, hmoves, hfront, hroom, hring, hring'⟩ :=
    moveHistory_cases hfirst hblock hfit
  · rw [hmoves]
    refine RingMove.safe hfirst hring fun k hlow hhigh => ?_
    obtain hk | hk := Nat.lt_or_ge k (n + s.nData)
    · exact ⟨fun _ => ⟨m, by simp, (hring.reads k (by omega)).mpr ⟨by omega, hk⟩⟩,
        h.untouched k hk⟩
    · obtain ⟨hread, hwritten⟩ := h.cleared k hk (by omega)
      refine ⟨fun hfilled => ?_, hwritten⟩
      obtain ⟨m', hm', hreads⟩ := hread hfilled
      exact ⟨m', List.mem_append_left _ hm', hreads⟩
  · rw [hmoves]
    refine (safeAfter_append [m] [m']).mpr ⟨?_, ?_⟩
    · refine RingMove.safe hfirst hring fun k hlow hhigh => ?_
      obtain ⟨hread, hwritten⟩ := h.cleared k (by omega) (by omega)
      refine ⟨fun hfilled => ?_, hwritten⟩
      obtain ⟨m', hm', hreads⟩ := hread hfilled
      exact ⟨m', List.mem_append_left _ hm', hreads⟩
    · refine RingMove.safe hfirst hring' fun k hlow hhigh => ?_
      have hother : ¬ m.writes (ringSlot size first k) := by
        rw [hring.writes k (by omega)]
        omega
      obtain hk | hk := Nat.lt_or_ge k (n + s.nData)
      · refine ⟨fun _ => ?_, ?_⟩
        · obtain hk' | hk' := Nat.lt_or_ge k (n + front)
          · exact ⟨m', by simp, (hring'.reads k (by omega)).mpr ⟨by omega, hk'⟩⟩
          · exact ⟨m, by simp, (hring.reads k (by omega)).mpr ⟨hk', by omega⟩⟩
        · intro m₁ hm₁
          obtain hm₁ | hm₁ := List.mem_append.mp hm₁
          · exact h.untouched k hk m₁ hm₁
          · rwa [List.mem_singleton.mp hm₁]
      · obtain ⟨hread, hwritten⟩ := h.cleared k hk (by omega)
        refine ⟨fun hfilled => ?_, ?_⟩
        · obtain ⟨m₁, hm₁, hreads⟩ := hread hfilled
          exact ⟨m₁, by simp [hm₁], hreads⟩
        · intro m₁ hm₁
          obtain hm₁ | hm₁ := List.mem_append.mp hm₁
          · exact hwritten m₁ hm₁
          · rwa [List.mem_singleton.mp hm₁]

theorem Tracked.move (h : s.Tracked filled size first n) (hfirst : first < size)
    (hblock : ringSlot size first n + s.nData ≤ size) (hfit : n + s.nGap + s.nData ≤ size)
    (hmoves : s'.moves = s.moves ++ moveHistory size (ringSlot size first n) s.nData s.nGap)
    (hdata : s'.nData = 0) (hgap : s'.nGap = s.nGap) :
  s'.Tracked filled size first n
  where
  safe := by
    rw [hmoves]
    exact (safeAfter_append _ _).mpr ⟨h.safe, h.moveHistory_safe hfirst hblock hfit⟩
  untouched := fun k hk m hm hwrites => by
    rw [hdata] at hk
    rw [hmoves] at hm
    obtain hm | hm := List.mem_append.mp hm
    · exact h.untouched k (by omega) m hm hwrites
    · have hrange := moveHistory_writes hfirst hblock hfit (by omega) hm hwrites
      omega
  cleared := fun k hlow hhigh => by
    rw [hdata] at hlow hhigh
    rw [hgap] at hhigh
    rw [hmoves]
    refine ⟨fun hfilled => ?_, fun m hm hwrites => ?_⟩
    · obtain hk | hk := Nat.lt_or_ge k (n + s.nData)
      · obtain ⟨m, hm, hreads⟩ := moveHistory_reads hfirst hblock hfit (by omega) hk
        exact ⟨m, List.mem_append_right _ hm, hreads⟩
      · obtain ⟨m, hm, hreads⟩ := (h.cleared k hk (by omega)).1 hfilled
        exact ⟨m, List.mem_append_left _ hm, hreads⟩
    · obtain hm | hm := List.mem_append.mp hm
      · obtain hk | hk := Nat.lt_or_ge k (n + s.nData)
        · exact h.untouched k hk m hm hwrites
        · exact (h.cleared k hk (by omega)).2 m hm hwrites
      · have hrange := moveHistory_writes hfirst hblock hfit (by omega) hm hwrites
        omega

/-! ### A whole run -/

theorem Compacting.fit (h : s.Compacting ring free first n) (hn : n ≤ ring.length) :
  n + s.nGap + s.nData ≤ s.history.length
  := by
  obtain ⟨block, gap, kept, hring, -, hblock, hgap⟩ := h.parts
  have hlength := congrArg List.length hring
  simp only [List.length_rotate, List.length_append, List.length_take_of_le hn, hblock, hgap]
    at hlength
  omega

/-- The loop while `n` entries are still to be visited. -/
structure Vacuuming (filled : ℕ → Prop) (ring free : List History) (size first n : ℕ)
    (s : VacuumLoop) : Prop extends s.Compacting ring free first n where
  length : s.history.length = size
  tracked : s.Tracked filled size first n

/-- The entries that wait are moved. -/
theorem Vacuuming.move (h : s.Vacuuming filled ring free size first n) (hn : n ≤ ring.length) :
  ∃ s', s.move s.f = some s' ∧ s'.Vacuuming filled ring free size first n ∧ s'.nData = 0
    ∧ s'.f = s.f ∧ s'.nGap = s.nGap
  := by
  obtain ⟨s', hmove, hcompacting, hdata, hlength, hf, hgap, hmoves⟩ := h.toCompacting.move hn
  have hcontiguous := h.contiguous
  rw [h.f_eq, h.length] at hcontiguous
  rw [h.length, h.f_eq, h.length] at hmoves
  have htracked := h.tracked.move (h.length ▸ h.first_lt) hcontiguous (h.length ▸ h.fit hn) hmoves
    hdata hgap
  exact ⟨s', hmove, ⟨hcompacting, hlength.trans h.length, htracked⟩, hdata, hf, hgap⟩

/-- A round of the loop visits an entry. -/
theorem Vacuuming.round (h : s.Vacuuming filled ring free size first (n + 1))
    (hflushed : s.f = 0 → s.nData = 0) (hn : n < ring.length)
    (hfilled : filled (ringSlot size first n) → (ring.get ⟨n, hn⟩).itemid ≠ 0) :
  ∃ s', s.round = some s' ∧ s'.Vacuuming filled ring free size first n
    ∧ (s'.f = 0 → s'.nData = 0)
  := by
  obtain ⟨hlt, hentry⟩ := h.entry hn
  have hpred := ringSlot_pred h.first_lt hlt
  rw [← h.f_eq] at hpred
  unfold VacuumLoop.round
  dsimp only
  rw [hpred, hentry]
  dsimp only
  by_cases hempty : (ring.get ⟨n, hn⟩).itemid = 0
  · rw [if_pos hempty]
    have hnot : ¬ filled (ringSlot size first n) := fun hf => hfilled hf hempty
    by_cases hdata : s.nData = 0
    · rw [if_neg (not_not.mpr hdata), Option.map_some]
      exact ⟨_, rfl, ⟨h.toCompacting.gap hn hempty hdata, h.length, h.tracked.gap hdata hnot _⟩,
        fun _ => hdata⟩
    · have hf : ringSlot s.history.length first n + 1 = s.f := by
        rw [← hpred, if_neg (mt hflushed hdata)]
        have := mt hflushed hdata
        omega
      obtain ⟨s', hmove, hs', hdata', -, hgap⟩ := h.move hn
      rw [if_pos hdata, hf, hmove, Option.map_some]
      refine ⟨_, rfl, ?_, fun _ => hdata'⟩
      rw [h.length.trans hs'.length.symm]
      exact ⟨hs'.toCompacting.gap hn hempty hdata', hs'.length, hs'.tracked.gap hdata' hnot _⟩
  · rw [if_neg hempty]
    by_cases hgap : s.nGap = 0
    · rw [if_neg (not_not.mpr hgap)]
      have hdata := h.noGap hgap
      exact ⟨_, rfl, ⟨h.toCompacting.stay hn hempty hgap, h.length, h.tracked.stay hdata hgap _⟩,
        fun _ => hdata⟩
    · rw [if_pos hgap]
      have hwait : ({ s with
          f := ringSlot s.history.length first n, nData := s.nData + 1 } :
            VacuumLoop).Vacuuming filled ring free size first n :=
        ⟨h.toCompacting.wait hn hempty hgap hflushed, h.length, h.tracked.wait _⟩
      split_ifs with hzero
      · obtain ⟨s', hmove, hs', hdata', -, -⟩ := hwait.move hn.le
        exact ⟨s', hmove, hs', fun _ => hdata'⟩
      · exact ⟨_, rfl, hwait, fun hf => absurd hf hzero⟩

theorem Vacuuming.rounds (h : s.Vacuuming filled ring free size first n)
    (hflushed : s.f = 0 → s.nData = 0) (hn : n ≤ ring.length)
    (hfilled : ∀ k (hk : k < ring.length), filled (ringSlot size first k) →
      (ring.get ⟨k, hk⟩).itemid ≠ 0) :
  ∃ s', rounds n s = some s' ∧ s'.Vacuuming filled ring free size first 0
  := by
  induction n generalizing s with
  | zero => exact ⟨s, rfl, h⟩
  | succ n ih =>
    obtain ⟨s', hround, hs', hflushed'⟩ := h.round hflushed hn (hfilled n hn)
    obtain ⟨s'', hrounds, hs''⟩ := ih hs' hflushed' (Nat.le_of_succ_le hn)
    exact ⟨s'', by rw [VacuumLoop.rounds, hround, Option.bind_some, hrounds], hs''⟩

end VacuumLoop

namespace Cache

variable {c : Cache}

theorem length_entries (hc : c.Ring) :
  c.entries.length = c.historyNum
  := by
  rw [entries, List.length_take, List.length_rotate]
  exact Nat.min_eq_left hc.num

theorem filled_slot (hc : c.Ring) {k : ℕ} (hk : k < c.entries.length)
    (hfilled : c.Filled (ringSlot c.history.length c.historyFirst k)) :
  (c.entries.get ⟨k, hk⟩).itemid ≠ 0
  := by
  have hnum := length_entries hc
  obtain ⟨k', hk', hslot, entry, hentry, hitemid⟩ := hfilled
  have hnum' := hc.num
  obtain rfl := (ringSlot_injective (by omega) (by omega)).mp hslot
  rw [List.getElem?_eq_getElem hk] at hentry
  rw [List.get_eq_getElem, Option.some.inj hentry]
  exact hitemid

/-- The number of empty slots and of other entries. -/
theorem length_live (hc : c.Ring) :
  c.historyGapNum + c.live.length = c.historyNum
  := by
  rw [hc.gaps, live, ← List.countP_eq_length_filter, ← length_entries hc,
    List.length_eq_countP_add_countP (fun entry : History => entry.itemid = 0)]
  simp

theorem start_vacuuming (hc : c.Ring) :
  (⟨c.history, wrap c.history.length (c.historyFirst + c.historyNum), 0, 0,
      []⟩ : VacuumLoop).Vacuuming c.Filled c.entries
    ((c.history.rotate c.historyFirst).drop c.historyNum) c.history.length c.historyFirst
    c.historyNum
  where
  first_lt := hc.first
  f_eq := wrap_eq_ringSlot ..
  contiguous := by
    have hfirst := hc.first
    have hnum := hc.num
    unfold wrap
    dsimp only
    split_ifs <;> omega
  noGap := fun _ => rfl
  parts := by
    refine ⟨[], [], [], ?_, ?_, rfl, rfl⟩
    · rw [List.take_of_length_le (length_entries hc).le, entries]
      exact (List.take_append_drop _ _).symm
    · rw [List.drop_eq_nil_of_le (length_entries hc).le]
      rfl
  length := rfl
  tracked := {
    safe := trivial
    untouched := nofun
    cleared := fun k hlow hhigh => by
      dsimp only at hlow hhigh
      omega }

/-- The ring that begins behind the empty slots. -/
theorem rotate_behind {α : Type*} {history gap rest : List α} {first : ℕ}
    (hring : history.rotate first = gap ++ rest) :
  history.rotate (ringSlot history.length first gap.length) = rest ++ gap
  := by
  have hgap : gap.length ≤ history.length := by
    rw [← List.length_rotate (l := history) (n := first), hring, List.length_append]
    omega
  have hslot : ringSlot history.length first gap.length % history.length
      = (first + gap.length) % history.length := by
    unfold ringSlot
    split_ifs with hlt
    · rfl
    · exact (Nat.mod_eq_sub_mod (Nat.le_of_not_lt hlt)).symm
  rw [← List.rotate_mod, hslot, List.rotate_mod, ← List.rotate_rotate, hring,
    List.rotate_append_length_eq]

/-- Compacting the ring keeps the entries that are not emptied, in their order, and overwrites
none before it is moved; it is only done when more than a hundredth of the slots is empty. -/
theorem vacuumHistory_correct (c : Cache) (hc : c.Ring) :
  ∃ c' moves, c.vacuumHistory = some (c', moves) ∧ c'.Ring ∧ NoOverwrite c.Filled moves
    ∧ (c.history.length / 100 < c.historyGapNum → c'.entries = c.live ∧ c'.historyGapNum = 0
      ∧ c'.historyNum = c.live.length)
    ∧ (c.historyGapNum ≤ c.history.length / 100 → c' = c)
    ∧ c'.text = c.text ∧ c'.lastText = c.lastText ∧ c'.textFree = c.textFree
  := by
  unfold vacuumHistory
  dsimp only
  by_cases hguard : c.historyGapNum ≤ c.history.length / 100
  · rw [if_pos hguard]
    exact ⟨c, [], rfl, hc, trivial, fun h => absurd h (Nat.not_lt.mpr hguard), fun _ => rfl,
      rfl, rfl, rfl⟩
  rw [if_neg hguard]
  have hnum := length_entries hc
  obtain ⟨s, hrounds, hs⟩ := (start_vacuuming hc).rounds (fun _ => rfl) hnum.ge
    fun k hk => filled_slot hc hk
  obtain ⟨s', hmove, hs', hdata⟩ :
      ∃ s', (if s.nData ≠ 0 then s.move s.f else some s) = some s'
        ∧ s'.Vacuuming c.Filled c.entries ((c.history.rotate c.historyFirst).drop c.historyNum)
          c.history.length c.historyFirst 0 ∧ s'.nData = 0 := by
    split_ifs with hdata
    · obtain ⟨s', hmove, hs', hdata', -⟩ := hs.move (Nat.zero_le _)
      exact ⟨s', hmove, hs', hdata'⟩
    · exact ⟨s, rfl, hs, not_not.mp hdata⟩
  rw [hrounds, Option.bind_some, hmove, Option.map_some]
  obtain ⟨block, gap, kept, hring, hlive, hblock, hgap⟩ := hs'.parts
  obtain rfl : block = [] := List.eq_nil_of_length_eq_zero (hblock.trans hdata)
  obtain rfl : kept = c.live := hlive
  rw [List.take_zero, List.nil_append, List.nil_append] at hring
  have hcount := length_live hc
  have hgapNum : s'.nGap = c.historyGapNum := by
    have hlengths := congrArg List.length hring
    simp only [List.length_rotate, List.length_append, List.length_drop, hs'.length, hgap]
      at hlengths
    have hle := hc.num
    omega
  have hbehind := rotate_behind hring
  rw [hgap, hs'.length] at hbehind
  have hentries : (s'.history.rotate (wrap c.history.length (c.historyFirst + s'.nGap))).take
      (c.historyNum - s'.nGap) = c.live := by
    rw [wrap_eq_ringSlot, hbehind, List.append_assoc, List.take_left' (by omega)]
  refine ⟨_, _, rfl, ?_, hs'.tracked.safe, fun _ => ⟨hentries, ?_, ?_⟩,
    fun h => absurd h hguard, rfl, rfl, rfl⟩
  · have hfirst := hc.first
    have hle := hc.num
    exact {
      first := by
        dsimp only
        rw [hs'.length]
        unfold wrap
        split_ifs <;> omega
      num := by
        dsimp only
        rw [hs'.length]
        omega
      gaps := by
        change c.historyGapNum - s'.nGap = List.countP _ (List.take _ (List.rotate _ _))
        rw [hentries, hgapNum, Nat.sub_self, eq_comm, List.countP_eq_zero]
        intro entry hentry
        simpa [live] using (List.mem_filter.mp hentry).2 }
  · dsimp only
    rw [hgapNum, Nat.sub_self]
  · dsimp only
    omega

def emptied : History := ⟨0, 0, none, .uint64, .normal⟩

def sampleEntry (itemid : UInt64) : History := ⟨itemid, 0, none, .uint64, .normal⟩

/-- A ring that goes past the end of the array, with two empty slots. -/
def sampleRing : Cache :=
  ⟨[sampleEntry 3, emptied, sampleEntry 4, emptied, sampleEntry 1, sampleEntry 2, emptied], 4, 6, 2,
    [], 0, 0⟩

theorem vacuumHistory_wrapped :
  ∃ c' moves, sampleRing.vacuumHistory = some (c', moves)
    ∧ c'.entries.map (·.itemid) = [1, 2, 3, 4]
  := by
  obtain ⟨c', moves, hrun, -, -, hlive, -⟩ :=
    vacuumHistory_correct sampleRing ⟨by decide, by decide, by decide⟩
  refine ⟨c', moves, hrun, ?_⟩
  rw [(hlive (by decide)).1]
  decide

/-- A ring with all slots used, one of a hundred emptied. -/
def sparseRing : Cache :=
  ⟨sampleEntry 1 :: emptied :: List.replicate 98 (sampleEntry 2), 0, 100, 1, [], 0, 0⟩

/-- One empty slot of a hundred stays. -/
theorem vacuumHistory_leaves_gap :
  sparseRing.Ring ∧ ∃ c' moves, sparseRing.vacuumHistory = some (c', moves)
    ∧ c'.entries ≠ sparseRing.live ∧ c'.historyGapNum ≠ 0 ∧ c'.historyNum ≠ sparseRing.live.length
  := ⟨⟨by decide, by decide, by decide⟩, sparseRing, [], rfl, by decide, by decide, by decide⟩

end Cache

end HistoryCache
