import Mathlib.Tactic.Common
import Zabbix.Library.Ascii

/-!
# String literals of SQL

A string literal stands between single quotes. Two quotes in it stand for one quote, and in
some dialects a backslash and a quote or a backslash stand for the latter. Pairs of a
backslash and another character, whose meaning differs from dialect to dialect, are not
read.
-/

namespace SqlLiteral

open Ascii

/-- Reads the rest of a literal after its opening quote: the value, and the text after the
closing quote. `escapes` says whether the backslash is special. -/
def readBody (escapes : Bool) : Bytes → Option (Bytes × Bytes)
  | [] => none
  | [c] => if c = apostrophe then some ([], []) else none
  | c :: d :: text =>
    if c = apostrophe then
      if d = apostrophe then (readBody escapes text).map fun r => (apostrophe :: r.1, r.2)
      else some ([], d :: text)
    else if c = backslash ∧ escapes then
      if d = apostrophe ∨ d = backslash then
        (readBody escapes text).map fun r => (d :: r.1, r.2)
      else none
    else (readBody escapes (d :: text)).map fun r => (c :: r.1, r.2)

/-- Reads a literal at the front of a text: its value, and the text after it. -/
def read (escapes : Bool) : Bytes → Option (Bytes × Bytes)
  | [] => none
  | c :: text => if c = apostrophe then readBody escapes text else none

/-- The text between quotes is a literal of a value, whatever follows it, unless that
starts with a quote. -/
def Denotes (escapes : Bool) (text value : Bytes) : Prop :=
  ∀ rest : Bytes, rest.head? ≠ some apostrophe →
    read escapes (apostrophe :: text ++ apostrophe :: rest) = some (value, rest)

variable {escapes : Bool} {text value : Bytes}

/-- A text has one value at most. -/
theorem Denotes.unique {value' : Bytes} (h : Denotes escapes text value)
    (h' : Denotes escapes text value') :
  value = value'
  := by
  have heq := (h [] (by simp)).symm.trans (h' [] (by simp))
  simpa using heq

theorem denotes_nil (escapes : Bool) :
  Denotes escapes [] []
  := by
  intro rest hrest
  cases rest with
  | nil => simp [read, readBody]
  | cons d rest =>
    have hd : d ≠ apostrophe := by simpa using hrest
    simp [read, readBody, hd]

/-- A text is not empty when it stands in a literal. -/
theorem exists_cons (text rest : Bytes) :
  ∃ d after, text ++ apostrophe :: rest = d :: after
  := by
  cases text with
  | nil => exact ⟨apostrophe, rest, rfl⟩
  | cons d text => exact ⟨d, text ++ apostrophe :: rest, rfl⟩

/-- A character that is not special stands for itself. -/
theorem Denotes.plain {c : UInt8} (hquote : c ≠ apostrophe)
    (hescape : ¬ (c = backslash ∧ escapes)) (h : Denotes escapes text value) :
  Denotes escapes (c :: text) (c :: value)
  := by
  intro rest hrest
  have hread := h rest hrest
  obtain ⟨d, after, hcons⟩ := exists_cons text rest
  simp only [read, List.cons_append, if_true] at hread ⊢
  rw [hcons] at hread ⊢
  rw [readBody, if_neg hquote, if_neg hescape, hread]
  rfl

/-- Two quotes stand for one. -/
theorem Denotes.doubled (h : Denotes escapes text value) :
  Denotes escapes (apostrophe :: apostrophe :: text) (apostrophe :: value)
  := by
  intro rest hrest
  have hread := h rest hrest
  simp only [read, List.cons_append, if_true] at hread ⊢
  rw [readBody, if_pos rfl, if_pos rfl, hread]
  rfl

/-- A backslash before a quote or a backslash makes it stand for itself. -/
theorem Denotes.escaped {c : UInt8} (hc : c = apostrophe ∨ c = backslash)
    (h : Denotes true text value) :
  Denotes true (backslash :: c :: text) (c :: value)
  := by
  intro rest hrest
  have hread := h rest hrest
  simp only [read, List.cons_append, if_true] at hread ⊢
  rw [readBody, if_neg (by decide), if_pos ⟨rfl, rfl⟩, if_pos hc, hread]
  rfl

end SqlLiteral
