import Mathlib.Algebra.GroupWithZero.Nat
import Mathlib.Data.List.Basic
import Mathlib.Tactic.Common

/-!
# Fields

A list as the list of its fields, the parts between the occurrences of a separator. Splitting at
the separator and joining with it are inverse to each other.
-/

namespace Fields

variable {α : Type*} {sep : α}

/-- The fields with the separator between them. -/
abbrev join (sep : α) (fields : List (List α)) : List α := [sep].intercalate fields

@[simp]
theorem join_singleton (field : List α) :
  join sep [field] = field
  := List.intercalate_singleton

theorem join_cons (field : List α) {fields : List (List α)} (h : fields ≠ []) :
  join sep (field :: fields) = field ++ sep :: join sep fields
  := by
  rw [join, List.intercalate_cons_of_ne_nil h]
  simp

theorem join_append {fields fields' : List (List α)} (h : fields ≠ []) (h' : fields' ≠ []) :
  join sep (fields ++ fields') = join sep fields ++ sep :: join sep fields'
  := by
  induction fields with
  | nil => exact absurd rfl h
  | cons field fields ih =>
    by_cases hnil : fields = []
    · rw [hnil, List.singleton_append, join_cons field h', join_singleton]
    · rw [List.cons_append, join_cons field (by simp [h']), ih hnil, join_cons field hnil,
        List.append_assoc, List.cons_append]

/-- A list without an element has the list as its only field. -/
theorem join_eq_nil {fields : List (List α)} (h : join sep fields = []) (hne : fields ≠ []) :
  fields = [[]]
  := by
  cases fields with
  | nil => exact absurd rfl hne
  | cons field fields =>
    by_cases hnil : fields = []
    · rw [hnil, join_singleton] at h
      rw [hnil, h]
    · rw [join_cons field hnil] at h
      simp at h

/-- What is in the joined list is in a field or is the separator. -/
theorem mem_join {fields : List (List α)} {a : α} (h : a ∈ join sep fields) :
  a = sep ∨ ∃ field ∈ fields, a ∈ field
  := by
  induction fields with
  | nil => simp [join] at h
  | cons field fields ih =>
    by_cases hnil : fields = []
    · rw [hnil, join_singleton] at h
      exact Or.inr ⟨field, List.mem_cons_self, h⟩
    · rw [join_cons field hnil, List.mem_append, List.mem_cons] at h
      obtain hfield | rfl | hjoin := h
      · exact Or.inr ⟨field, List.mem_cons_self, hfield⟩
      · exact Or.inl rfl
      · obtain hsep | ⟨field', hmem, ha⟩ := ih hjoin
        · exact Or.inl hsep
        · exact Or.inr ⟨field', List.mem_cons_of_mem field hmem, ha⟩

theorem mem_join_of_mem {fields : List (List α)} {field : List α} (hfield : field ∈ fields)
    {a : α} (h : a ∈ field) :
  a ∈ join sep fields
  := by
  induction fields with
  | nil => exact absurd hfield List.not_mem_nil
  | cons field' fields ih =>
    by_cases hnil : fields = []
    · subst hnil
      rw [List.mem_singleton] at hfield
      rwa [join_singleton, ← hfield]
    · rw [join_cons field' hnil, List.mem_append, List.mem_cons]
      obtain heq | hmem := List.mem_cons.mp hfield
      · exact Or.inl (heq ▸ h)
      · exact Or.inr (Or.inr (ih hmem))

/-- Every field takes its own length and a separator, the last one its length only. -/
theorem length_join {fields : List (List α)} (h : fields ≠ []) :
  (join sep fields).length + 1 = (fields.map fun field => field.length + 1).sum
  := by
  induction fields with
  | nil => exact absurd rfl h
  | cons field fields ih =>
    by_cases hnil : fields = []
    · rw [hnil, join_singleton]
      rfl
    · rw [join_cons field hnil, List.map_cons, List.sum_cons, ← ih hnil, List.length_append,
        List.length_cons]
      omega

variable [DecidableEq α]

/-- The separators are one fewer than the fields. -/
theorem count_join {fields : List (List α)} (h : ∀ field ∈ fields, sep ∉ field)
    (hne : fields ≠ []) :
  (join sep fields).count sep + 1 = fields.length
  := by
  induction fields with
  | nil => exact absurd rfl hne
  | cons field fields ih =>
    rw [List.forall_mem_cons] at h
    have hfield : field.count sep = 0 := List.count_eq_zero.mpr h.1
    by_cases hnil : fields = []
    · rw [hnil, join_singleton, hfield]
      rfl
    · rw [join_cons field hnil, List.count_append, hfield, List.count_cons_self, List.length_cons,
        ← ih h.2 hnil]
      omega

theorem not_mem_of_mem_splitOn (l : List α) :
  ∀ field ∈ l.splitOn sep, sep ∉ field
  := by
  induction l with
  | nil => simp [List.splitOn_nil]
  | cons a l ih =>
    rw [List.splitOn_cons_eq_if_modifyHead]
    split_ifs with ha
    · exact List.forall_mem_cons.mpr ⟨by simp, ih⟩
    · cases hfields : l.splitOn sep with
      | nil => exact absurd hfields (List.splitOn_ne_nil sep l)
      | cons field fields =>
        rw [hfields, List.forall_mem_cons] at ih
        rw [List.modifyHead_cons, List.forall_mem_cons]
        refine ⟨?_, ih.2⟩
        rw [List.mem_cons, not_or]
        exact ⟨fun heq => ha (by simp [heq]), ih.1⟩

/-- Every list is the join of its fields. -/
theorem exists_join (sep : α) (l : List α) :
  ∃ fields, fields ≠ [] ∧ (∀ field ∈ fields, sep ∉ field) ∧ join sep fields = l
  := ⟨l.splitOn sep, List.splitOn_ne_nil sep l, not_mem_of_mem_splitOn l,
    List.intercalate_splitOn sep⟩

/-- The fields of a list are determined. -/
theorem join_inj {fields fields' : List (List α)} (h : ∀ field ∈ fields, sep ∉ field)
    (hne : fields ≠ []) (h' : ∀ field ∈ fields', sep ∉ field) (hne' : fields' ≠ [])
    (heq : join sep fields = join sep fields') :
  fields = fields'
  := by
  rw [← List.splitOn_intercalate sep h hne, ← List.splitOn_intercalate sep h' hne']
  exact congrArg _ heq

end Fields
