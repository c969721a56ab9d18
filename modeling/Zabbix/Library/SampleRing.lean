import Mathlib.Data.Rat.Defs
import Zabbix.Library.Memmove

/-!
# Rings of samples

The newest samples of a series are kept in a ring.  A cursor tells the slot of the oldest sample
and how many there are; when the ring is full a new sample takes the slot of the oldest one.
-/

namespace SampleRing

universe u v w

/-- `first` and `count`. -/
structure Cursor where
  first : ℕ
  count : ℕ

/-- The slot for the next sample. -/
def Cursor.index (size : ℕ) (c : Cursor) : ℕ :=
  if size ≤ c.first + c.count then c.first + c.count - size else c.first + c.count

/-- The cursor when the next sample is in its slot. -/
def Cursor.advance (size : ℕ) (c : Cursor) : Cursor :=
  if c.count < size then ⟨c.first, c.count + 1⟩
  else if c.first + 1 = size then ⟨0, c.count⟩ else ⟨c.first + 1, c.count⟩

/-- The slot of the newest sample. -/
def Cursor.current (size : ℕ) (c : Cursor) : ℕ :=
  if size ≤ c.first + c.count - 1 then c.first + c.count - 1 - size else c.first + c.count - 1

theorem Cursor.index_eq (size : ℕ) (c : Cursor) :
  c.index size = ringSlot size c.first c.count
  := by
  unfold Cursor.index ringSlot
  split_ifs <;> omega

theorem Cursor.current_eq {size : ℕ} {c : Cursor} (hcount : 0 < c.count) :
  c.current size = ringSlot size c.first (c.count - 1)
  := by
  unfold Cursor.current ringSlot
  split_ifs <;> omega

/-- A slot of the advanced cursor is the one just filled or that of the same sample before. -/
theorem Cursor.slot_advance {size : ℕ} {c : Cursor} (hcount : c.count ≤ size)
    (hempty : c.count < size → c.first = 0) {k : ℕ} (hk : k < (c.advance size).count) :
  (k + 1 = (c.advance size).count ∧
      ringSlot size (c.advance size).first k = c.index size) ∨
    ∃ j < c.count, c.count + 1 + k = (c.advance size).count + j ∧
      ringSlot size (c.advance size).first k = ringSlot size c.first j ∧
      ringSlot size c.first j ≠ c.index size
  := by
  rw [Cursor.index_eq]
  unfold Cursor.advance at hk ⊢
  by_cases hroom : c.count < size
  · have hzero := hempty hroom
    simp only [if_pos hroom] at hk ⊢
    obtain hold | rfl : k < c.count ∨ k = c.count := by omega
    · refine .inr ⟨k, hold, by omega, rfl, ?_⟩
      unfold ringSlot
      split_ifs <;> omega
    · exact .inl ⟨rfl, rfl⟩
  · simp only [if_neg hroom] at hk ⊢
    have hcounts : (if c.first + 1 = size then (⟨0, c.count⟩ : Cursor)
        else ⟨c.first + 1, c.count⟩).count = c.count := by split_ifs <;> rfl
    have hfirsts : (if c.first + 1 = size then (⟨0, c.count⟩ : Cursor)
        else ⟨c.first + 1, c.count⟩).first = if c.first + 1 = size then 0 else c.first + 1 := by
      split_ifs <;> rfl
    rw [hcounts] at hk ⊢
    rw [hfirsts]
    obtain hold | hnew : k + 1 < c.count ∨ k + 1 = c.count := by omega
    · refine .inr ⟨k + 1, hold, by omega, ?_, ?_⟩
      all_goals
        unfold ringSlot
        split_ifs <;> omega
    · refine .inl ⟨hnew, ?_⟩
      unfold ringSlot
      split_ifs <;> omega

/-- The cursor of a ring for a number of samples. -/
structure Cursor.Fits (c : Cursor) (size n : ℕ) : Prop where
  first_lt : c.first < size
  count_eq : c.count = min n size
  first_eq : c.count < size → c.first = 0

section Fits

variable {c : Cursor} {size n : ℕ} (h : c.Fits size n)

include h

theorem Cursor.Fits.index_lt :
  c.index size < size
  := by
  have hfirst := h.first_lt
  have hcount := h.count_eq
  rw [Cursor.index_eq]
  unfold ringSlot
  split_ifs <;> omega

theorem Cursor.Fits.advance :
  (c.advance size).Fits size (n + 1)
  := by
  obtain ⟨hfirst, hcount, hempty⟩ := h
  unfold Cursor.advance
  split_ifs with hroom hlast
  · exact ⟨hfirst, by dsimp only; omega, fun _ => hempty hroom⟩
  · exact ⟨by dsimp only; omega, by dsimp only; omega, fun _ => rfl⟩
  · exact ⟨by dsimp only; omega, by dsimp only; omega, fun hlt => absurd hlt hroom⟩

end Fits

variable {σ : Type u} {τ : Type v} {R : σ → τ → Prop} {c : Cursor} {slots : List σ}
  {series : List τ}

/-- The slots have the newest samples of a series, the oldest of them in the first slot. -/
structure Holds (R : σ → τ → Prop) (c : Cursor) (slots : List σ) (series : List τ) : Prop extends
    c.Fits slots.length series.length where
  slot : ∀ k < c.count, ∃ x v, slots[ringSlot slots.length c.first k]? = some x ∧
    series[series.length - c.count + k]? = some v ∧ R x v

theorem fits_zero {size : ℕ} (hsize : 0 < size) :
  Cursor.Fits ⟨0, 0⟩ size 0
  := ⟨hsize, (Nat.zero_min _).symm, fun _ => rfl⟩

theorem holds_nil (hslots : 0 < slots.length) :
  Holds R ⟨0, 0⟩ slots []
  where
  toFits := fits_zero hslots
  slot k hk := absurd hk (Nat.not_lt_zero k)

theorem Holds.mono {R' : σ → τ → Prop} (h : Holds R c slots series)
    (himp : ∀ x v, v ∈ series → R x v → R' x v) :
  Holds R' c slots series
  where
  toFits := h.toFits
  slot k hk := by
    obtain ⟨x, v, hx, hv, hR⟩ := h.slot k hk
    exact ⟨x, v, hx, hv, himp x v (List.mem_of_getElem? hv) hR⟩

/-- A sample is added to the series. -/
theorem Holds.push (h : Holds R c slots series) {x : σ} {v : τ} (hR : R x v) :
  Holds R (c.advance slots.length) (slots.set (c.index slots.length) x) (series ++ [v])
  := by
  have hcount := h.count_eq
  have hle : c.count ≤ slots.length := hcount.trans_le (Nat.min_le_right _ _)
  have hlength : (slots.set (c.index slots.length) x).length = slots.length := List.length_set
  have hmore : (series ++ [v]).length = series.length + 1 := by
    rw [List.length_append, List.length_singleton]
  have hfits := h.toFits.advance
  have hadvance := hfits.count_eq
  refine ⟨?_, fun k hk => ?_⟩
  · rwa [hlength, hmore]
  · rw [hlength]
    obtain ⟨hnew, hslot⟩ | ⟨j, hj, hindex, hslot, hother⟩ :=
      Cursor.slot_advance hle h.first_eq hk
    · refine ⟨x, v, ?_, ?_, hR⟩
      · rw [hslot, List.getElem?_set_self h.toFits.index_lt]
      · have hplace : (series ++ [v]).length - (c.advance slots.length).count + k
            = series.length := by
          rw [hmore]
          omega
        rw [hplace, List.getElem?_append_right le_rfl, Nat.sub_self]
        rfl
    · obtain ⟨y, w, hy, hw, hRy⟩ := h.slot j hj
      refine ⟨y, w, ?_, ?_, hRy⟩
      · rw [hslot, List.getElem?_set_ne (Ne.symm hother), hy]
      · have hplace : (series ++ [v]).length - (c.advance slots.length).count + k
            = series.length - c.count + j := by
          rw [hmore]
          omega
        rw [hplace, List.getElem?_append_left (by omega), hw]

/-! ### Reading the ring -/

/-- The slot some places before another one. -/
theorem ringSlot_back {size first k m : ℕ} (hfirst : first < size) (hk : k < size) (hm : m ≤ k) :
  (if ringSlot size first k < m then ringSlot size first k + size - m
    else ringSlot size first k - m) = ringSlot size first (k - m)
  := by
  unfold ringSlot
  split_ifs <;> omega

/-- The sample that is some places before the newest one. -/
theorem Holds.back (h : Holds R c slots series) {m : ℕ} (hm : m < c.count) :
  ∃ x v, slots[ringSlot slots.length c.first (c.count - 1 - m)]? = some x ∧
    series[series.length - 1 - m]? = some v ∧ R x v
  := by
  have hcount := h.count_eq
  obtain ⟨x, v, hx, hv, hR⟩ := h.slot (c.count - 1 - m) (by omega)
  have hplace : series.length - c.count + (c.count - 1 - m) = series.length - 1 - m := by omega
  rw [hplace] at hv
  exact ⟨x, v, hx, hv, hR⟩

/-- The newest sample. -/
theorem Holds.newest (h : Holds R c slots series) (hcount : 0 < c.count) :
  ∃ x v, slots[c.current slots.length]? = some x ∧ series.getLast? = some v ∧ R x v
  := by
  obtain ⟨x, v, hx, hv, hR⟩ := h.back hcount
  refine ⟨x, v, ?_, ?_, hR⟩
  · rwa [Cursor.current_eq hcount]
  · rwa [List.getLast?_eq_getElem?]

/-- The part of a whole in per cent, where a part of nothing is 0. -/
def ratio (part whole : ℕ) : ℚ := if whole = 0 then 0 else 100 * part / whole

end SampleRing
