import Mathlib.Data.Finset.Card
import Mathlib.Data.Finset.SDiff
import Zabbix.Library.Identifiers
import Zabbix.Library.Memmove
import Zabbix.Library.SortedInsert

/-!
# Sorted arrays of identifiers

Sets of identifiers are kept in arrays in increasing order, with a number of allocated cells and a
number of cells in use.  Elements are found by bisection; what stands behind them is moved by one
cell when an element is put in or taken out.
-/

namespace IdArray

open SortedInsert

universe u

/-- `values`, with `alloc` cells, of which `num` are in use. -/
structure Cells where
  values : List UInt64
  num : ℕ

def Cells.ids (a : Cells) : List UInt64 := a.values.take a.num

def Cells.alloc (a : Cells) : ℕ := a.values.length

/-- The loop of `get_nearestindex`, where the first index is at most the last one; there is no
result when a cell is read that is not allocated. -/
def nearestindexIn {α : Type u} (idOf : α → UInt64) (p : List α) (id : UInt64)
    (firstIndex lastIndex : ℕ) : Option ℕ :=
  let index := firstIndex + (lastIndex - firstIndex) / 2
  match p[index]? with
  | none => none
  | some element =>
    if id = idOf element then some index
    else if lastIndex ≤ firstIndex then
      some (if idOf element < id then index + 1 else index)
    else if idOf element < id then nearestindexIn idOf p id (index + 1) lastIndex
    else nearestindexIn idOf p id firstIndex index
  termination_by lastIndex - firstIndex

/-- `get_nearestindex`; the elements of the array begin with an identifier. -/
def getNearestindex {α : Type u} (idOf : α → UInt64) (p : List α) (num : ℕ) (id : UInt64) :
    Option ℕ :=
  if num = 0 then some 0 else nearestindexIn idOf p id 0 (num - 1)

/-- `zbx_realloc` of an array, where `junk` is what stands in the new memory. -/
def Cells.realloc (a : Cells) (junk : ℕ → UInt64) (step : ℕ) : Cells where
  values := a.values ++ (List.range step).map fun j => junk (a.alloc + j)
  num := a.num

/-- The end of `uint64_array_add`; a write behind the last cell has no result. -/
def Cells.put (a : Cells) (index : ℕ) (value : UInt64) : Option Cells := do
  let values ← memmove a.values ⟨index + 1, index, a.num - index⟩
  if index < values.length then some ⟨values.set index value, a.num + 1⟩ else none

/-- A full array grows in `uint64_array_add`; there is no result when the assertion fails. -/
def Cells.grow (junk : ℕ → UInt64) (a : Cells) (allocStep : ℕ) : Option Cells :=
  if a.alloc = a.num then if allocStep = 0 then none else some (a.realloc junk allocStep)
  else some a

/-- `uint64_array_add`. -/
def uint64ArrayAdd (junk : ℕ → UInt64) (a : Cells) (value : UInt64) (allocStep : ℕ) :
    Option (Cells × ℕ) := do
  let index ← getNearestindex id a.values a.num value
  if index < a.num ∧ a.values[index]? = some value then return (a, index)
  let a ← a.grow junk allocStep
  return (← a.put index value, index)

/-- `uint64_array_merge`. -/
def uint64ArrayMerge (junk : ℕ → UInt64) (a value : Cells) (allocStep : ℕ) : Option Cells :=
  value.ids.foldlM (fun a v => (uint64ArrayAdd junk a v allocStep).map Prod.fst) a

/-- The index of a value in the array, when it is there. -/
def Cells.find (a : Cells) (value : UInt64) : Option (Option ℕ) := do
  let index ← getNearestindex id a.values a.num value
  if index = a.num ∨ a.values[index]? ≠ some value then return none else return some index

/-- The cells behind an element are moved by one. -/
def Cells.close (a : Cells) (index : ℕ) : Option (List UInt64) :=
  memmove a.values ⟨index, index + 1, a.num - index - 1⟩

/-- A turn of `uint64_array_remove`. -/
def removeValue (a : Cells) (rmValue : UInt64) : Option Cells := do
  match ← a.find rmValue with
  | none => return a
  | some index => return ⟨← a.close index, a.num - 1⟩

/-- `uint64_array_remove`. -/
def uint64ArrayRemove (a rm : Cells) : Option Cells := rm.ids.foldlM removeValue a

/-- The loop of `uint64_array_remove_both`. -/
def removeBothFrom (a rm : Cells) (rindex : ℕ) : Option (Cells × Cells) :=
  if _h : rindex < rm.num then do
    let rmValue ← rm.values[rindex]?
    match ← a.find rmValue with
    | none => removeBothFrom a rm (rindex + 1)
    | some index =>
      let values ← a.close index
      let rmValues ← rm.close rindex
      removeBothFrom ⟨values, a.num - 1⟩ ⟨rmValues, rm.num - 1⟩ rindex
  else some (a, rm)
  termination_by rm.num - rindex

/-- `uint64_array_remove_both`. -/
def uint64ArrayRemoveBoth (a rm : Cells) : Option (Cells × Cells) := removeBothFrom a rm 0

/-! ### The nearest index -/

section Nearest

variable {α : Type u} {idOf : α → UInt64} {p : List α} {num : ℕ}

theorem isNearest_nearestindexIn (hsorted : Sorted idOf (p.take num)) {id : UInt64}
    {firstIndex lastIndex : ℕ} (h : Bracket idOf (p.take num) id firstIndex lastIndex) :
  ∃ i, nearestindexIn idOf p id firstIndex lastIndex = some i ∧
    IsNearest idOf (p.take num) id i
  := by
  have hlt : ∀ {first last : ℕ}, Bracket idOf (p.take num) id first last →
      first + (last - first) / 2 < num := by
    intro first last h
    have hlt := h.lt
    have hle := h.le
    rw [List.length_take] at hlt
    omega
  have hle := h.le
  fun_induction nearestindexIn idOf p id firstIndex lastIndex with
  | case1 first last index hread =>
    have hlast := h.lt
    rw [List.length_take] at hlast
    rw [List.getElem?_eq_none_iff] at hread
    omega
  | case2 first last index element hread hsame =>
    rw [← List.getElem?_take_of_lt (hlt h)] at hread
    exact ⟨index, rfl, isNearest_of_eq hsorted hread hsame.symm⟩
  | case3 first last index element hread hdiffer hend =>
    rw [← List.getElem?_take_of_lt (hlt h)] at hread
    exact ⟨_, rfl, h.isNearest hread (by omega) (by omega)⟩
  | case4 first last index element hread hdiffer hmore hlower ih =>
    rw [← List.getElem?_take_of_lt (hlt h)] at hread
    have hraised := h.raise hsorted hread (by omega) hlower
    exact ih hraised hraised.le
  | case5 first last index element hread hdiffer hmore hupper ih =>
    rw [← List.getElem?_take_of_lt (hlt h)] at hread
    have hlowered := h.lower hsorted hread (by omega) (not_lt.mp hupper)
    exact ih hlowered hlowered.le

/-- The index is the first one whose element is not smaller. -/
theorem isNearest_getNearestindex (hnum : num ≤ p.length) (hsorted : Sorted idOf (p.take num))
    (id : UInt64) :
  ∃ i, getNearestindex idOf p num id = some i ∧ IsNearest idOf (p.take num) id i
  := by
  unfold getNearestindex
  split_ifs with hempty
  · subst hempty
    exact ⟨0, rfl, le_rfl, fun j y hy => (nomatch hy), fun j y hy => (nomatch hy)⟩
  · have hlength : (p.take num).length = num := by
      rw [List.length_take]
      omega
    have hwhole : Bracket idOf (p.take num) id 0 ((p.take num).length - 1) :=
      Bracket.whole fun h => hempty (by rw [← hlength, h, List.length_nil])
    rw [hlength] at hwhole
    exact isNearest_nearestindexIn hsorted hwhole

end Nearest

/-! ### Arrays of sets -/

/-- The cells in use are allocated, and have the elements of the set in increasing order. -/
structure Cells.Holds (a : Cells) (s : Finset UInt64) : Prop where
  le : a.num ≤ a.alloc
  sorted : a.ids.Pairwise (· < ·)
  elements : a.ids.toFinset = s

namespace Cells.Holds

variable {a : Cells} {s : Finset UInt64}

theorem length_ids (h : a.Holds s) :
  a.ids.length = a.num
  := by
  rw [ids, List.length_take]
  exact Nat.min_eq_left h.le

theorem mem_iff (h : a.Holds s) (value : UInt64) :
  value ∈ a.ids ↔ value ∈ s
  := by rw [← h.elements, List.mem_toFinset]

theorem nodup (h : a.Holds s) :
  a.ids.Nodup
  := h.sorted.imp ne_of_lt

theorem card (h : a.Holds s) :
  s.card = a.num
  := by rw [← h.elements, List.toFinset_card_of_nodup h.nodup, h.length_ids]

theorem getElem?_values (a : Cells) {i : ℕ} (hi : i < a.num) :
  a.values[i]? = a.ids[i]?
  := (List.getElem?_take_of_lt hi).symm

/-- The index of a value, and whether the value is there. -/
theorem nearest (h : a.Holds s) (value : UInt64) :
  ∃ i, getNearestindex id a.values a.num value = some i ∧ IsNearest id a.ids value i ∧
    i ≤ a.num ∧ (i < a.num ∧ a.values[i]? = some value ↔ value ∈ s)
  := by
  obtain ⟨i, hindex, hnearest⟩ := isNearest_getNearestindex h.le h.sorted value
  have hle : i ≤ a.num := h.length_ids ▸ hnearest.le
  refine ⟨i, hindex, hnearest, hle, fun ⟨hi, hget⟩ => ?_, fun hmem => ?_⟩
  · rw [getElem?_values a hi] at hget
    exact (h.mem_iff value).mp (List.mem_of_getElem? hget)
  · have hget := hnearest.getElem_of_mem h.sorted ((h.mem_iff value).mpr hmem) rfl
    obtain ⟨hi, -⟩ := List.getElem?_eq_some_iff.mp hget
    rw [h.length_ids] at hi
    exact ⟨hi, (getElem?_values a hi).trans hget⟩

end Cells.Holds

/-! ### Addition -/

section Add

variable (junk : ℕ → UInt64) {a value : Cells} {s t : Finset UInt64}

theorem Cells.Holds.grow (h : a.Holds s) (allocStep : ℕ) :
  (a.grow junk allocStep = none ∧ a.num = a.alloc ∧ allocStep = 0) ∨
    ∃ a', a.grow junk allocStep = some a' ∧ a'.Holds s ∧ a'.ids = a.ids ∧ a'.num < a'.alloc ∧
      (allocStep = 0 → a'.alloc = a.alloc)
  := by
  unfold Cells.grow
  split_ifs with hfull hstep
  · exact .inl ⟨rfl, hfull.symm, hstep⟩
  · have hids : (a.realloc junk allocStep).ids = a.ids := List.take_append_of_le_length h.le
    have halloc : (a.realloc junk allocStep).alloc = a.alloc + allocStep := by
      rw [alloc, Cells.realloc, List.length_append, List.length_map, List.length_range]
      rfl
    have hroom : a.num < (a.realloc junk allocStep).alloc := by
      rw [halloc]
      omega
    exact .inr ⟨_, rfl, ⟨hroom.le, hids ▸ h.sorted, hids ▸ h.elements⟩, hids, hroom,
      fun hzero => absurd hzero hstep⟩
  · exact .inr ⟨a, rfl, h, rfl, lt_of_le_of_ne h.le (Ne.symm hfull), fun _ => rfl⟩

/-- A new value is put where bisection finds its place. -/
theorem Cells.Holds.put (h : a.Holds s) (hroom : a.num < a.alloc) {value : UInt64}
    (hnew : value ∉ s) {i : ℕ} (hnearest : IsNearest id a.ids value i) :
  ∃ a', a.put i value = some a' ∧ a'.Holds (insert value s) ∧ a'.alloc = a.alloc ∧
    a'.ids[i]? = some value
  := by
  have hi : i ≤ a.num := h.length_ids ▸ hnearest.le
  obtain ⟨values, hmove, hlength, htake⟩ := memmove_insert hi hroom value
  have hwrite : i < values.length := hlength ▸ lt_of_le_of_lt hi hroom
  have hids : (⟨values.set i value, a.num + 1⟩ : Cells).ids = a.ids.insertIdx i value := htake
  have hset : (values.set i value).length = a.alloc := (List.length_set).trans hlength
  refine ⟨⟨values.set i value, a.num + 1⟩, ?_, ⟨?_, ?_, ?_⟩, hset, ?_⟩
  · simp only [Cells.put, hmove, Option.bind_eq_bind, Option.bind_some, if_pos hwrite]
  · exact (Nat.succ_le_of_lt hroom).trans_eq hset.symm
  · rw [hids]
    refine sorted_insertIdx h.sorted hnearest fun y hy heq => hnew ?_
    exact (h.mem_iff value).mp ((show y = value from heq) ▸ hy)
  · ext x
    rw [hids, List.mem_toFinset, List.mem_insertIdx hnearest.le, Finset.mem_insert, h.mem_iff]
  · rw [hids, List.getElem?_insertIdx_self, if_pos hnearest.le]

/-- A value is added, unless it is new, no cell is free and the array may not grow. -/
theorem Cells.Holds.add (h : a.Holds s) (value : UInt64) (allocStep : ℕ) :
  (uint64ArrayAdd junk a value allocStep = none ∧
      value ∉ s ∧ a.num = a.alloc ∧ allocStep = 0) ∨
    ∃ a' i, uint64ArrayAdd junk a value allocStep = some (a', i) ∧ a'.Holds (insert value s) ∧
      a'.ids[i]? = some value ∧ (allocStep = 0 → a'.alloc = a.alloc)
  := by
  obtain ⟨i, hindex, hnearest, hi, hmet⟩ := h.nearest value
  simp only [uint64ArrayAdd, hindex, Option.bind_eq_bind, Option.bind_some, hmet]
  by_cases hmem : value ∈ s
  · obtain ⟨hlt, hget⟩ := hmet.mpr hmem
    rw [getElem?_values a hlt] at hget
    rw [if_pos hmem, Finset.insert_eq_of_mem hmem]
    exact .inr ⟨a, i, rfl, h, hget, fun _ => rfl⟩
  rw [if_neg hmem]
  obtain ⟨hgrow, hfull, hstep⟩ | ⟨grown, hgrow, hgrown, hids, hroom, halloc⟩ :=
    h.grow junk allocStep
  · rw [hgrow]
    exact .inl ⟨rfl, hmem, hfull, hstep⟩
  · rw [← hids] at hnearest
    obtain ⟨a', hput, hholds, hsame, hget⟩ := hgrown.put hroom hmem hnearest
    rw [hgrow, Option.bind_some, hput]
    exact .inr ⟨a', i, rfl, hholds, hget, fun hstep => hsame.trans (halloc hstep)⟩

/-- Values are added one after another, unless the array may not grow and is too small. -/
theorem Cells.Holds.addAll (h : a.Holds s) (value : List UInt64) (allocStep : ℕ) :
  (value.foldlM (fun a v => (uint64ArrayAdd junk a v allocStep).map Prod.fst) a = none ∧
      allocStep = 0 ∧ a.alloc < (s ∪ value.toFinset).card) ∨
    ∃ a', value.foldlM (fun a v => (uint64ArrayAdd junk a v allocStep).map Prod.fst) a = some a' ∧
      a'.Holds (s ∪ value.toFinset) ∧ (allocStep = 0 → a'.alloc = a.alloc)
  := by
  induction value generalizing a s with
  | nil => exact .inr ⟨a, rfl, by rwa [List.toFinset_nil, Finset.union_empty], fun _ => rfl⟩
  | cons v value ih =>
    have hunion : s ∪ (v :: value).toFinset = insert v s ∪ value.toFinset := by
      rw [List.toFinset_cons, Finset.union_insert, Finset.insert_union]
    rw [hunion, List.foldlM_cons]
    obtain ⟨hadd, hnew, hfull, hstep⟩ | ⟨a', i, hadd, hholds, -, halloc⟩ :=
      h.add junk v allocStep
    · rw [hadd]
      refine .inl ⟨rfl, hstep, ?_⟩
      calc a.alloc
        _ < s.card + 1 := by rw [h.card, hfull]; exact Nat.lt_succ_self _
        _ = (insert v s).card := (Finset.card_insert_of_notMem hnew).symm
        _ ≤ (insert v s ∪ value.toFinset).card := Finset.card_le_card Finset.subset_union_left
    · rw [hadd]
      obtain ⟨hmerge, hstep, hcard⟩ | ⟨a'', hmerge, hholds', halloc'⟩ := ih hholds
      · exact .inl ⟨hmerge, hstep, halloc hstep ▸ hcard⟩
      · exact .inr ⟨a'', hmerge, hholds', fun hstep => (halloc' hstep).trans (halloc hstep)⟩

theorem Cells.Holds.merge (h : a.Holds s) (hvalue : value.Holds t) (allocStep : ℕ) :
  (uint64ArrayMerge junk a value allocStep = none ∧ allocStep = 0 ∧ a.alloc < (s ∪ t).card) ∨
    ∃ a', uint64ArrayMerge junk a value allocStep = some a' ∧ a'.Holds (s ∪ t) ∧
      (allocStep = 0 → a'.alloc = a.alloc)
  := by
  rw [← hvalue.elements]
  exact h.addAll junk value.ids allocStep

end Add

/-! ### Removal -/

section Remove

variable {a rm : Cells} {s t : Finset UInt64}

theorem Cells.Holds.find (h : a.Holds s) (value : UInt64) :
  (a.find value = some none ∧ value ∉ s) ∨
    ∃ i, a.find value = some (some i) ∧ value ∈ s ∧ a.ids[i]? = some value
  := by
  obtain ⟨i, hindex, -, hi, hmet⟩ := h.nearest value
  have hmissed : (i = a.num ∨ a.values[i]? ≠ some value) ↔ value ∉ s := by
    rw [← hmet, not_and_or, not_lt]
    exact or_congr_left ⟨Eq.ge, hi.antisymm⟩
  simp only [Cells.find, hindex, Option.bind_eq_bind, Option.bind_some, hmissed]
  by_cases hmem : value ∈ s
  · obtain ⟨hlt, hget⟩ := hmet.mpr hmem
    rw [getElem?_values a hlt] at hget
    exact .inr ⟨i, if_neg (not_not_intro hmem), hmem, hget⟩
  · exact .inl ⟨if_pos hmem, hmem⟩

/-- The gap of an element is closed. -/
theorem Cells.Holds.close (h : a.Holds s) {value : UInt64} {i : ℕ}
    (hget : a.ids[i]? = some value) :
  ∃ values, a.close i = some values ∧
    (⟨values, a.num - 1⟩ : Cells).Holds (s.erase value) ∧
    (⟨values, a.num - 1⟩ : Cells).ids = a.ids.eraseIdx i ∧ values.length = a.alloc
  := by
  obtain ⟨hi, rfl⟩ := List.getElem?_eq_some_iff.mp hget
  have hlt : i < a.num := h.length_ids ▸ hi
  obtain ⟨values, hmove, hlength, htake⟩ := memmove_erase hlt h.le
  have hids : (⟨values, a.num - 1⟩ : Cells).ids = a.ids.eraseIdx i := htake
  refine ⟨values, hmove, ⟨?_, ?_, ?_⟩, hids, hlength⟩
  · exact (Nat.sub_le _ 1).trans (h.le.trans_eq hlength.symm)
  · rw [hids]
    exact h.sorted.sublist (List.eraseIdx_sublist a.ids i)
  · ext x
    rw [hids, List.mem_toFinset, ← h.nodup.erase_getElem i hi, h.nodup.mem_erase_iff,
      h.mem_iff, Finset.mem_erase]

theorem Cells.Holds.removeValue (h : a.Holds s) (rmValue : UInt64) :
  ∃ a', removeValue a rmValue = some a' ∧ a'.Holds (s.erase rmValue) ∧ a'.alloc = a.alloc
  := by
  obtain ⟨hfind, hnot⟩ | ⟨i, hfind, hmem, hget⟩ := h.find rmValue
  · refine ⟨a, ?_, by rwa [Finset.erase_eq_of_notMem hnot], rfl⟩
    rw [IdArray.removeValue, hfind]
    rfl
  · obtain ⟨values, hclose, hholds, -, hlength⟩ := h.close hget
    refine ⟨⟨values, a.num - 1⟩, ?_, hholds, hlength⟩
    simp only [IdArray.removeValue, hfind, hclose, Option.bind_eq_bind, Option.bind_some]
    rfl

theorem Cells.Holds.removeAll (h : a.Holds s) (rmValues : List UInt64) :
  ∃ a', rmValues.foldlM IdArray.removeValue a = some a' ∧ a'.Holds (s \ rmValues.toFinset) ∧
    a'.alloc = a.alloc
  := by
  induction rmValues generalizing a s with
  | nil => exact ⟨a, rfl, by rwa [List.toFinset_nil, Finset.sdiff_empty], rfl⟩
  | cons v rmValues ih =>
    obtain ⟨a', hremove, hholds, halloc⟩ := h.removeValue v
    obtain ⟨a'', hremoves, hholds', halloc'⟩ := ih hholds
    refine ⟨a'', ?_, ?_, halloc'.trans halloc⟩
    · rw [List.foldlM_cons, hremove]
      exact hremoves
    · rwa [List.toFinset_cons, Finset.sdiff_insert, ← Finset.erase_sdiff_comm]

theorem Cells.Holds.remove (h : a.Holds s) (hrm : rm.Holds t) :
  ∃ a', uint64ArrayRemove a rm = some a' ∧ a'.Holds (s \ t) ∧ a'.alloc = a.alloc
  := by
  rw [← hrm.elements]
  exact h.removeAll rm.ids

/-- The common elements are removed when none stands before the index. -/
theorem Cells.Holds.removeBothFrom (h : a.Holds s) (hrm : rm.Holds t) {rindex : ℕ}
    (hbefore : ∀ v ∈ rm.ids.take rindex, v ∉ s) :
  ∃ a' rm', removeBothFrom a rm rindex = some (a', rm') ∧
    a'.Holds (s \ t) ∧ rm'.Holds (t \ s) ∧ a'.alloc = a.alloc ∧ rm'.alloc = rm.alloc
  := by
  -- a turn raises the index or takes an element out of the second array
  induction hleft : rm.num - rindex generalizing a rm s t rindex with
  | zero =>
    have hend : rm.ids.length ≤ rindex := hrm.length_ids ▸ Nat.le_of_sub_eq_zero hleft
    rw [List.take_of_length_le hend] at hbefore
    have hdisjoint : Disjoint s t :=
      Finset.disjoint_right.mpr fun v hv => hbefore v ((hrm.mem_iff v).mpr hv)
    rw [IdArray.removeBothFrom, dif_neg (by omega), hdisjoint.sdiff_eq_left,
      hdisjoint.sdiff_eq_right]
    exact ⟨a, rm, rfl, h, hrm, rfl, rfl⟩
  | succ n ih =>
    have hlt : rindex < rm.num := by omega
    have hids : rindex < rm.ids.length := hrm.length_ids ▸ hlt
    have hget : rm.ids[rindex]? = some rm.ids[rindex] := List.getElem?_eq_getElem hids
    have hread := (getElem?_values rm hlt).trans hget
    have hin : rm.ids[rindex] ∈ t := (hrm.mem_iff _).mp (List.getElem_mem hids)
    rw [IdArray.removeBothFrom, dif_pos hlt, hread]
    obtain ⟨hfind, hnot⟩ | ⟨i, hfind, hmem, hfound⟩ := h.find rm.ids[rindex]
    · simp only [hfind, Option.bind_eq_bind, Option.bind_some]
      refine ih h hrm (fun v hv => ?_) (by omega)
      rw [List.take_succ_eq_append_getElem hids] at hv
      obtain hv | hv := List.mem_append.mp hv
      · exact hbefore v hv
      · rwa [List.mem_singleton.mp hv]
    · obtain ⟨values, hclose, hholds, -, hlength⟩ := h.close hfound
      obtain ⟨rmValues, hrmclose, hrmholds, hrmids, hrmlength⟩ := hrm.close hget
      have hbefore' : ∀ v ∈ (⟨rmValues, rm.num - 1⟩ : Cells).ids.take rindex,
          v ∉ s.erase rm.ids[rindex] := by
        intro v hv
        rw [hrmids, List.take_eraseIdx_eq_take_of_le _ _ _ le_rfl] at hv
        exact fun hs => hbefore v hv (Finset.mem_of_mem_erase hs)
      have hloop := ih hholds hrmholds hbefore' (by dsimp only; omega)
      rw [← Finset.erase_sdiff_distrib, ← Finset.erase_sdiff_distrib,
        Finset.erase_eq_of_notMem fun hv => (Finset.mem_sdiff.mp hv).2 hin,
        Finset.erase_eq_of_notMem fun hv => (Finset.mem_sdiff.mp hv).2 hmem] at hloop
      obtain ⟨a', rm', hloop, ha', hrm', halloc, hrmalloc⟩ := hloop
      refine ⟨a', rm', ?_, ha', hrm', halloc.trans hlength, hrmalloc.trans hrmlength⟩
      simpa only [hfind, hclose, hrmclose, Option.bind_eq_bind, Option.bind_some] using hloop

end Remove

/-! ### Sets of identifiers -/

section Correctness

variable {junk : ℕ → UInt64} {a rm : Cells} {s t : Finset UInt64}

theorem Cells.Holds.add_eq_none_iff (h : a.Holds s) (value : UInt64) (allocStep : ℕ) :
  uint64ArrayAdd junk a value allocStep = none ↔ value ∉ s ∧ a.num = a.alloc ∧ allocStep = 0
  := by
  obtain ⟨hadd, hfull⟩ | ⟨a', i, hadd, hholds, -, halloc⟩ := h.add junk value allocStep
  · exact iff_of_true hadd hfull
  · refine iff_of_false (by rw [hadd]; nofun) fun ⟨hnew, hfull, hstep⟩ => ?_
    have hcard := Finset.card_insert_of_notMem hnew
    rw [hholds.card, h.card] at hcard
    have hle := hholds.le
    rw [halloc hstep] at hle
    omega

theorem Cells.Holds.merge_eq_none_iff (h : a.Holds s) (hrm : rm.Holds t) (allocStep : ℕ) :
  uint64ArrayMerge junk a rm allocStep = none ↔ allocStep = 0 ∧ a.alloc < (s ∪ t).card
  := by
  obtain ⟨hmerge, hsmall⟩ | ⟨a', hmerge, hholds, halloc⟩ := h.merge junk hrm allocStep
  · exact iff_of_true hmerge hsmall
  · refine iff_of_false (by rw [hmerge]; nofun) fun ⟨hstep, hsmall⟩ => ?_
    rw [hholds.card, ← halloc hstep] at hsmall
    exact absurd hholds.le (Nat.not_le.mpr hsmall)

/-- The functions on sorted arrays compute the operations on sets of identifiers. -/
theorem arrays_compute_sets {α : Type u} (idOf : α → UInt64) {p : List α} {num : ℕ}
    (hnum : num ≤ p.length) (hsorted : Sorted idOf (p.take num)) (junk : ℕ → UInt64)
    (h : a.Holds s) (hrm : rm.Holds t) :
  (∀ id, ∃ i, getNearestindex idOf p num id = some i ∧ IsNearest idOf (p.take num) id i) ∧
  (∀ value allocStep,
    (uint64ArrayAdd junk a value allocStep = none ↔
      value ∉ s ∧ a.num = a.alloc ∧ allocStep = 0) ∧
    ∀ a' i, uint64ArrayAdd junk a value allocStep = some (a', i) →
      a'.Holds (insert value s) ∧ a'.ids[i]? = some value) ∧
  (∀ allocStep,
    (uint64ArrayMerge junk a rm allocStep = none ↔ allocStep = 0 ∧ a.alloc < (s ∪ t).card) ∧
    ∀ a', uint64ArrayMerge junk a rm allocStep = some a' → a'.Holds (s ∪ t)) ∧
  (∃ a', uint64ArrayRemove a rm = some a' ∧ a'.Holds (s \ t) ∧ a'.alloc = a.alloc) ∧
  ∃ a' rm', uint64ArrayRemoveBoth a rm = some (a', rm') ∧
    a'.Holds (s \ t) ∧ rm'.Holds (t \ s) ∧ a'.alloc = a.alloc ∧ rm'.alloc = rm.alloc
  := by
  refine ⟨isNearest_getNearestindex hnum hsorted, fun value allocStep => ⟨?_, ?_⟩,
    fun allocStep => ⟨h.merge_eq_none_iff hrm allocStep, ?_⟩, h.remove hrm,
    h.removeBothFrom hrm (by simp)⟩
  · exact h.add_eq_none_iff value allocStep
  · intro a' i hadd
    obtain ⟨hnone, -⟩ | ⟨a'', i', hsome, hholds, hget, -⟩ := h.add junk value allocStep
    · nomatch hnone.symm.trans hadd
    · cases hsome.symm.trans hadd
      exact ⟨hholds, hget⟩
  · intro a' hmerge
    obtain ⟨hnone, -⟩ | ⟨a'', hsome, hholds, -⟩ := h.merge junk hrm allocStep
    · nomatch hnone.symm.trans hmerge
    · cases hsome.symm.trans hmerge
      exact hholds

theorem arrays_compute_sets_at :
  (∃ i, getNearestindex id [(1 : UInt64), 3, 0] 2 2 = some i ∧
    IsNearest id [(1 : UInt64), 3] 2 i) ∧
  ∃ a' rm', uint64ArrayRemoveBoth ⟨[1, 3, 0], 2⟩ ⟨[3, 5], 2⟩ = some (a', rm') ∧
    a'.Holds ({1, 3} \ {3, 5}) ∧ rm'.Holds ({3, 5} \ {1, 3}) ∧ a'.alloc = 3 ∧ rm'.alloc = 2
  := by
  have hsorted : Sorted id ([(1 : UInt64), 3, 0].take 2) := by
    unfold Sorted
    decide
  have h : Cells.Holds ⟨[1, 3, 0], 2⟩ {1, 3} := ⟨by decide, by decide, by decide⟩
  have hrm : Cells.Holds ⟨[3, 5], 2⟩ {3, 5} := ⟨by decide, by decide, by decide⟩
  have hsets := arrays_compute_sets id (by decide) hsorted (fun _ => 0) h hrm
  exact ⟨hsets.1 2, hsets.2.2.2.2⟩

end Correctness

end IdArray
