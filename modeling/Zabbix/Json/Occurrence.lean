import Zabbix.Json.ValidatorExact

/-!
# Occurrences of values

The values that occur in a syntax tree, each with the text that follows it. A pointer to a
value inside a text is the text of the value followed by this text.
-/

open Ascii

namespace Json

/-- The value, followed by the text `rest`, occurs in a tree that is followed by a text. -/
inductive Occurs (value : Tree .value) (rest : Bytes) :
    {kind : Kind} → Tree kind → Bytes → Prop where
  | self : Occurs value rest value rest
  | array {es : Tree .elements} {after : Bytes} :
      Occurs value rest es (rightBracket :: after) → Occurs value rest (.array es) after
  | object {ms : Tree .members} {after : Bytes} :
      Occurs value rest ms (rightBrace :: after) → Occurs value rest (.object ms) after
  | element {ws ws' : Bytes} {v : Tree .value} {after : Bytes} :
      Occurs value rest v (ws' ++ after) → Occurs value rest (.element ws v ws') after
  | elementsHead {ws ws' : Bytes} {v : Tree .value} {es : Tree .elements} {after : Bytes} :
      Occurs value rest v (ws' ++ comma :: (es.text ++ after)) →
        Occurs value rest (.moreElements ws v ws' es) after
  | elementsTail {ws ws' : Bytes} {v : Tree .value} {es : Tree .elements} {after : Bytes} :
      Occurs value rest es after → Occurs value rest (.moreElements ws v ws' es) after
  | member {ws ws' ws1 ws2 : Bytes} {name : List StringUnit} {v : Tree .value}
      {after : Bytes} :
      Occurs value rest v (ws' ++ after) →
        Occurs value rest (.member ws name ws1 ws2 v ws') after
  | membersHead {ws ws' ws1 ws2 : Bytes} {name : List StringUnit} {v : Tree .value}
      {ms : Tree .members} {after : Bytes} :
      Occurs value rest v (ws' ++ comma :: (ms.text ++ after)) →
        Occurs value rest (.moreMembers ws name ws1 ws2 v ws' ms) after
  | membersTail {ws ws' ws1 ws2 : Bytes} {name : List StringUnit} {v : Tree .value}
      {ms : Tree .members} {after : Bytes} :
      Occurs value rest ms after →
        Occurs value rest (.moreMembers ws name ws1 ws2 v ws' ms) after

variable {g : Grammar} {value : Tree .value} {rest : Bytes} {kind : Kind} {t : Tree kind}
  {after : Bytes}

/-- What occurs in a tree of the grammar belongs to the grammar. -/
theorem Occurs.valid (h : Occurs value rest t after) (ht : t.Valid g) :
  value.Valid g
  := by
  induction h with
  | self => exact ht
  | array _ ih => exact ih ht
  | object _ ih => exact ih ht
  | element _ ih => exact ih ht.2.1
  | elementsHead _ ih => exact ih ht.2.1
  | elementsTail _ ih => exact ih ht.2.2.2
  | member _ ih => exact ih ht.2.2.2.2.1
  | membersHead _ ih => exact ih ht.2.2.2.2.1
  | membersTail _ ih => exact ih ht.2.2.2.2.2.2

/-- The text goes on with whitespace or punctuation. -/
def GoesOn (rest : Bytes) : Prop := rest ≠ [] ∧ Stops rest

theorem goesOn_cons {c : UInt8} {rest : Bytes}
    (h : isWhitespace c = true ∨ c = comma ∨ c = rightBracket ∨ c = rightBrace) :
  GoesOn (c :: rest)
  := ⟨by simp, stops_cons h⟩

theorem goesOn_ws {ws rest : Bytes} (hws : IsWs ws) (hrest : GoesOn rest) :
  GoesOn (ws ++ rest)
  := by
  refine ⟨?_, stops_ws hws hrest.2⟩
  intro hnil
  exact hrest.1 (List.append_eq_nil_iff.mp hnil).2

/-- Behind a value there is whitespace or punctuation. -/
theorem Occurs.goesOn (h : Occurs value rest t after) (ht : t.Valid g)
    (hafter : GoesOn after) :
  GoesOn rest
  := by
  induction h with
  | self => exact hafter
  | array _ ih => exact ih ht (goesOn_cons (.inr (.inr (.inl rfl))))
  | object _ ih => exact ih ht (goesOn_cons (.inr (.inr (.inr rfl))))
  | element _ ih => exact ih ht.2.1 (goesOn_ws ht.2.2 hafter)
  | elementsHead _ ih =>
    exact ih ht.2.1 (goesOn_ws ht.2.2.1 (goesOn_cons (.inr (.inl rfl))))
  | elementsTail _ ih => exact ih ht.2.2.2 hafter
  | member _ ih => exact ih ht.2.2.2.2.1 (goesOn_ws ht.2.2.2.2.2 hafter)
  | membersHead _ ih =>
    exact ih ht.2.2.2.2.1 (goesOn_ws ht.2.2.2.2.2.1 (goesOn_cons (.inr (.inl rfl))))
  | membersTail _ ih => exact ih ht.2.2.2.2.2.2 hafter

/-- What occurs in an object, apart from the object itself, is followed by something. -/
theorem Occurs.goesOn_of_object {object : Tree .value} (h : Occurs value rest object after)
    (hobject : object.IsObject) (hvalid : object.Valid g) (hvalue : ¬ value.IsObject) :
  GoesOn rest
  := by
  cases object with
  | emptyObject ws =>
    cases h
    exact absurd hobject hvalue
  | object ms =>
    cases h with
    | self => exact absurd hobject hvalue
    | object h => exact h.goesOn hvalid (goesOn_cons (.inr (.inr (.inr rfl))))
  | string _ => cases hobject
  | number _ => cases hobject
  | literal _ => cases hobject
  | emptyArray _ => cases hobject
  | array _ => cases hobject

/-- The text is the object, with whitespace before and after it. -/
structure ObjectText (g : Grammar) (text before : Bytes) (object : Tree .value)
    (after : Bytes) : Prop where
  before_ws : IsWs before
  after_ws : IsWs after
  isObject : object.IsObject
  valid : object.Valid g
  text_eq : text = before ++ (object.text ++ after)

theorem isObjectText_iff {text : Bytes} :
  IsObjectText g text ↔ ∃ before object after, ObjectText g text before object after
  := by
  constructor
  · rintro ⟨before, after, object, hbefore, hafter, hobject, hvalid, heq⟩
    exact ⟨before, object, after, hbefore, hafter, hobject, hvalid, heq⟩
  · rintro ⟨before, object, after, h⟩
    exact ⟨before, after, object, h.before_ws, h.after_ws, h.isObject, h.valid, h.text_eq⟩

theorem validate_eq_ok {text before : Bytes} {object : Tree .value} {after : Bytes}
    (h : ObjectText validated text before object after) :
  zbxJsonValidate text = .ok (before.length + object.text.length)
  := validate_eq_ok_iff.mpr ⟨before, after, object, h.before_ws, h.after_ws, h.isObject,
    h.valid, h.text_eq, rfl⟩

theorem objectText_of_validate {text : Bytes} {n : ℕ} (h : zbxJsonValidate text = .ok n) :
  ∃ before object after, ObjectText validated text before object after ∧
    n = before.length + object.text.length
  := by
  obtain ⟨before, after, object, hbefore, hafter, hobject, hvalid, heq, hn⟩ :=
    validate_eq_ok_iff.mp h
  exact ⟨before, object, after, ⟨hbefore, hafter, hobject, hvalid, heq⟩, hn⟩

end Json
