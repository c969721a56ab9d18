import Mathlib.Data.List.Basic
import Zabbix.Library.Ascii

/-!
# Lines

A text as the list of its lines.  A line ends behind a newline, or with the text; a text is
complete when its last line ends behind a newline too.
-/

open Ascii

namespace Lines

/-- The lines of a text, each with its newline. -/
def lines : Bytes → List Bytes
  | [] => []
  | c :: rest =>
    if c = newline then [c] :: lines rest
    else
      match lines rest with
      | [] => [[c]]
      | line :: more => (c :: line) :: more

/-- The last line ends behind a newline. -/
def Complete (text : Bytes) : Prop := ∀ c ∈ text.getLast?, c = newline

instance (text : Bytes) : Decidable (Complete text) :=
  inferInstanceAs (Decidable (∀ c ∈ text.getLast?, c = newline))

theorem Complete.tail {c : UInt8} {rest : Bytes} (h : Complete (c :: rest)) :
  Complete rest
  := by
  intro d hd
  apply h
  rw [List.getLast?_cons, hd]
  rfl

/-- A text behind a complete text has its own lines. -/
theorem lines_append {front : Bytes} (h : Complete front) (rest : Bytes) :
  lines (front ++ rest) = lines front ++ lines rest
  := by
  induction front with
  | nil => rfl
  | cons c front ih =>
    rw [List.cons_append, lines, lines, ih h.tail]
    by_cases hc : c = newline
    · rw [if_pos hc, if_pos hc, List.cons_append]
    · rw [if_neg hc, if_neg hc]
      cases hlines : lines front with
      | nil =>
        -- the front has another line, as its last character is a newline
        cases front with
        | nil => exact absurd (h c rfl) hc
        | cons d front =>
          exfalso
          rw [lines] at hlines
          split at hlines
          · contradiction
          · split at hlines <;> contradiction
      | cons line more => rfl

theorem flatten_lines (text : Bytes) :
  (lines text).flatten = text
  := by
  induction text with
  | nil => rfl
  | cons c rest ih =>
    rw [lines]
    split
    · rw [List.flatten_cons, ih, List.singleton_append]
    · cases hlines : lines rest with
      | nil =>
        rw [hlines] at ih
        rw [← ih]
        rfl
      | cons line more =>
        rw [hlines, List.flatten_cons] at ih
        simp only [List.flatten_cons, List.cons_append, ih]

/-- The first line of a complete text is a text up to its only newline, and the rest of the
text has the other lines. -/
theorem lines_eq_cons {text line : Bytes} {more : List Bytes} (hcomplete : Complete text)
    (h : lines text = line :: more) :
  ∃ front rest, line = front ++ [newline] ∧ newline ∉ front ∧ text = line ++ rest ∧
    lines rest = more ∧ Complete rest
  := by
  induction text generalizing line more with
  | nil => exact absurd h.symm (List.cons_ne_nil line more)
  | cons c text ih =>
    rw [lines] at h
    split at h
    case isTrue hc =>
      obtain ⟨rfl, rfl⟩ := List.cons.inj h
      exact ⟨[], text, by rw [hc]; rfl, List.not_mem_nil, rfl, rfl, hcomplete.tail⟩
    case isFalse hc =>
      cases hlines : lines text with
      | nil =>
        have htext := flatten_lines text
        rw [hlines] at htext
        rw [← htext] at hcomplete
        exact absurd (hcomplete c rfl) hc
      | cons line' more' =>
        rw [hlines] at h
        obtain ⟨rfl, rfl⟩ := List.cons.inj h
        obtain ⟨front, rest, rfl, hfront, htext, hmore, hrest⟩ := ih hcomplete.tail hlines
        refine ⟨c :: front, rest, rfl, ?_, by rw [htext]; rfl, hmore, hrest⟩
        rw [List.mem_cons, not_or]
        exact ⟨fun heq => hc heq.symm, hfront⟩

theorem complete_append {front rest : Bytes} (hfront : Complete front) (hrest : Complete rest) :
  Complete (front ++ rest)
  := by
  intro c hc
  rw [List.getLast?_append] at hc
  cases hlast : rest.getLast? with
  | none =>
    rw [hlast] at hc
    exact hfront c hc
  | some d =>
    rw [hlast] at hc
    exact hrest c (hlast.trans hc)

theorem complete_line (front : Bytes) :
  Complete (front ++ [newline])
  := by
  intro c hc
  rw [List.getLast?_concat] at hc
  exact (Option.some.inj hc).symm

/-- A text up to its only newline is a line. -/
theorem lines_line {front : Bytes} (h : newline ∉ front) :
  lines (front ++ [newline]) = [front ++ [newline]]
  := by
  induction front with
  | nil => rfl
  | cons c front ih =>
    rw [List.mem_cons, not_or] at h
    rw [List.cons_append, lines, if_neg fun heq => h.1 heq.symm, ih h.2]

end Lines
