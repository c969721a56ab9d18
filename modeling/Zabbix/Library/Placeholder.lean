import Mathlib.Data.List.Infix
import Mathlib.Tactic.Linarith
import Mathlib.Tactic.Ring

/-!
# Placeholders

A list with holes is written with a mark in each hole, and every occurrence of the mark is then
replaced.  Where the first element of the mark stands nowhere else in it, this fills the holes
and changes nothing else exactly when the mark is not written in the rest of the list.
-/

namespace Placeholder

variable {α : Type}

/-! ### Lists with holes -/

/-- The list with the same text in every hole. -/
def fill (text : List α) : List (Option α) → List α
  | [] => []
  | some c :: cells => c :: fill text cells
  | none :: cells => text ++ fill text cells

theorem fill_append (text : List α) (cells cells' : List (Option α)) :
  fill text (cells ++ cells') = fill text cells ++ fill text cells'
  := by
  induction cells with
  | nil => rfl
  | cons cell cells ih =>
    cases cell with
    | none => rw [List.cons_append, fill, fill, ih, List.append_assoc]
    | some c => rw [List.cons_append, fill, fill, ih, List.cons_append]

@[simp]
theorem fill_map_some (text literal : List α) :
  fill text (literal.map some) = literal
  := by
  induction literal with
  | nil => rfl
  | cons c rest ih => rw [List.map_cons, fill, ih]

variable {head : α} {tail : List α}

/-- A text without the first element of the mark that the filled list starts with does not reach
into a hole. -/
theorem map_some_prefix {text : List α} (htext : head ∉ text) {cells : List (Option α)}
    (h : text <+: fill (head :: tail) cells) :
  text.map some <+: cells
  := by
  induction text generalizing cells with
  | nil => exact List.nil_prefix
  | cons c rest ih =>
    obtain ⟨hc, hrest⟩ := not_or.mp (mt List.mem_cons.mpr htext)
    match cells, h with
    | [], h => exact absurd (List.prefix_nil.mp h) (List.cons_ne_nil _ _)
    | none :: cells, h =>
      rw [fill, List.cons_append] at h
      exact absurd (List.cons_prefix_cons.mp h).1.symm hc
    | some d :: cells, h =>
      obtain ⟨rfl, hprefix⟩ := List.cons_prefix_cons.mp h
      rw [List.map_cons, List.cons_prefix_cons]
      exact ⟨rfl, ih hrest hprefix⟩

/-- A filled list that starts with an element of the list itself starts with the mark only where
the mark is written in the list. -/
theorem mark_prefix_iff (hmark : head ∉ tail) {c : α} {cells : List (Option α)} :
  head :: tail <+: c :: fill (head :: tail) cells ↔
    (head :: tail).map some <+: some c :: cells
  := by
  rw [List.map_cons, List.cons_prefix_cons, List.cons_prefix_cons, Option.some.injEq]
  apply and_congr_right
  intro _
  constructor
  · exact map_some_prefix hmark
  · rintro ⟨rest, rfl⟩
    rw [fill_append, fill_map_some]
    exact List.prefix_append _ _

/-- The list is read as the replacement reads it: a hole, the mark, or another element. -/
theorem cells_induction {p : List (Option α) → Prop} (hnil : p [])
    (hhole : ∀ cells, p cells → p (none :: cells))
    (hwritten : ∀ cells, p cells → p ((head :: tail).map some ++ cells))
    (hliteral : ∀ c cells, ¬ (head :: tail).map some <+: some c :: cells → p cells →
      p (some c :: cells)) (cells : List (Option α)) :
  p cells
  := by
  induction hlength : cells.length using Nat.strong_induction_on generalizing cells with
  | _ n ih =>
    subst hlength
    match cells with
    | [] => exact hnil
    | none :: cells => exact hhole cells (ih _ (Nat.lt_succ_self _) cells rfl)
    | some c :: cells =>
      by_cases hprefix : (head :: tail).map some <+: some c :: cells
      · obtain ⟨rest, hrest⟩ := hprefix
        rw [← hrest]
        refine hwritten rest (ih rest.length ?_ rest rfl)
        rw [← hrest, List.length_append, List.length_map, List.length_cons]
        omega
      · exact hliteral c cells hprefix (ih _ (Nat.lt_succ_self _) cells rfl)

/-! ### Replacing -/

variable [DecidableEq α]

/-- Replaces the mark from left to right; the number says how many elements of its last
occurrence are still to be passed over. -/
def replaceLoop (mark value : List α) : ℕ → List α → List α
  | _, [] => []
  | n + 1, _ :: rest => replaceLoop mark value n rest
  | 0, c :: rest =>
    if mark <+: c :: rest then value ++ replaceLoop mark value (mark.length - 1) rest
    else c :: replaceLoop mark value 0 rest

def replaceAll (mark value text : List α) : List α := replaceLoop mark value 0 text

theorem replaceLoop_eq (mark value : List α) (n : ℕ) (text : List α) :
  replaceLoop mark value n text = replaceAll mark value (text.drop n)
  := by
  induction text generalizing n with
  | nil =>
    rw [List.drop_nil]
    cases n <;> rfl
  | cons c rest ih =>
    cases n with
    | zero => rfl
    | succ n =>
      rw [replaceLoop, ih, List.drop_succ_cons]

@[simp]
theorem replaceAll_nil (mark value : List α) :
  replaceAll mark value [] = []
  := rfl

theorem replaceAll_mark {mark : List α} (hmark : mark ≠ []) (value text : List α) :
  replaceAll mark value (mark ++ text) = value ++ replaceAll mark value text
  := by
  obtain ⟨head, tail, rfl⟩ := List.exists_cons_of_ne_nil hmark
  have hprefix : head :: tail <+: head :: (tail ++ text) := ⟨text, rfl⟩
  rw [List.cons_append, replaceAll, replaceLoop, if_pos hprefix, replaceLoop_eq,
    List.length_cons, Nat.add_sub_cancel, List.drop_left]

theorem replaceAll_cons {mark text : List α} {c : α} (h : ¬ mark <+: c :: text)
    (value : List α) :
  replaceAll mark value (c :: text) = c :: replaceAll mark value text
  := by
  rw [replaceAll, replaceLoop, if_neg h]
  rfl

theorem replaceAll_hole (value : List α) (cells : List (Option α)) :
  replaceAll (head :: tail) value (fill (head :: tail) (none :: cells)) =
    value ++ replaceAll (head :: tail) value (fill (head :: tail) cells)
  := by
  rw [fill, replaceAll_mark (List.cons_ne_nil _ _)]

theorem replaceAll_written (value : List α) (cells : List (Option α)) :
  replaceAll (head :: tail) value (fill (head :: tail) ((head :: tail).map some ++ cells)) =
    value ++ replaceAll (head :: tail) value (fill (head :: tail) cells)
  := by
  rw [fill_append, fill_map_some, replaceAll_mark (List.cons_ne_nil _ _)]

theorem replaceAll_literal (hmark : head ∉ tail) {c : α} {cells : List (Option α)}
    (h : ¬ (head :: tail).map some <+: some c :: cells) (value : List α) :
  replaceAll (head :: tail) value (fill (head :: tail) (some c :: cells)) =
    c :: replaceAll (head :: tail) value (fill (head :: tail) cells)
  := by
  rw [fill, replaceAll_cons (mt (mark_prefix_iff hmark).mp h)]

/-- The length grows by the same number with every occurrence of the mark outside the holes. -/
theorem length_replaceAll (hmark : head ∉ tail) (value : List α) (cells : List (Option α)) :
  ∃ written : ℕ,
    ((replaceAll (head :: tail) value (fill (head :: tail) cells)).length : ℤ) =
      (fill value cells).length +
        written * (value.length - (head :: tail).length)
  := by
  induction cells using cells_induction with
  | hnil => exact ⟨0, by simp [fill]⟩
  | hhole cells ih =>
    obtain ⟨written, ih⟩ := ih
    refine ⟨written, ?_⟩
    rw [replaceAll_hole, fill, List.length_append, List.length_append]
    push_cast
    rw [ih]
    ring
  | hwritten cells ih =>
    obtain ⟨written, ih⟩ := ih
    refine ⟨written + 1, ?_⟩
    rw [replaceAll_written, fill_append, fill_map_some, List.length_append, List.length_append]
    push_cast
    rw [ih]
    ring
  | hliteral c cells hprefix ih =>
    obtain ⟨written, ih⟩ := ih
    refine ⟨written, ?_⟩
    rw [replaceAll_literal hmark hprefix, fill, List.length_cons, List.length_cons]
    push_cast
    rw [ih]
    ring

/-- The replacement fills the holes and changes nothing else exactly when it puts the mark itself
in its place, or the mark is not written in the rest of the list. -/
theorem replaceAll_fill_iff (hmark : head ∉ tail) (value : List α)
    (cells : List (Option α)) :
  replaceAll (head :: tail) value (fill (head :: tail) cells) = fill value cells ↔
    value = head :: tail ∨ ¬ (head :: tail).map some <:+: cells
  := by
  induction cells using cells_induction with
  | hnil => simp [fill]
  | hhole cells ih =>
    have hinfix : (head :: tail).map some <:+: none :: cells ↔
        (head :: tail).map some <:+: cells := by
      rw [List.infix_cons_iff, List.map_cons, List.cons_prefix_cons]
      simp
    rw [replaceAll_hole, fill, List.append_cancel_left_eq, ih, hinfix]
  | hwritten cells ih =>
    have hinfix : (head :: tail).map some <:+: (head :: tail).map some ++ cells :=
      (List.prefix_append _ _).isInfix
    rw [replaceAll_written, fill_append, fill_map_some]
    constructor
    · intro heq
      left
      obtain ⟨written, hlength⟩ := length_replaceAll hmark value cells
      have htotal := congrArg (fun text : List α => (text.length : ℤ)) heq
      simp only [List.length_append, Nat.cast_add] at htotal
      have hzero : ((written : ℤ) + 1) * (value.length - (head :: tail).length) = 0 := by
        linarith
      have hsame : value.length = (head :: tail).length := by
        obtain hneg | hdiff := mul_eq_zero.mp hzero
        · omega
        · omega
      exact (List.append_inj heq hsame).1
    · rintro (rfl | hnot)
      · rw [List.append_cancel_left_eq, ih]
        exact Or.inl rfl
      · exact absurd hinfix hnot
  | hliteral c cells hprefix ih =>
    have hinfix : (head :: tail).map some <:+: some c :: cells ↔
        (head :: tail).map some <:+: cells := by
      rw [List.infix_cons_iff]
      exact or_iff_right hprefix
    rw [replaceAll_literal hmark hprefix, fill, List.cons_inj_right, ih, hinfix]

end Placeholder
