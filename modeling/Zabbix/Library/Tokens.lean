import Mathlib.Data.Nat.Init
import Mathlib.Tactic.Common

/-!
# Tokens

A token of a list begins with an opening mark and goes to the next closing one.  In one pass from
the beginning to the end the tokens that have a value are replaced by it.  What has been put in is
not searched again, and behind the opening mark of a token without a value the search goes on.
-/

universe u

namespace Tokens

variable {α : Type u}

/-- A list and what the pass makes of it. -/
inductive Replaced (opening closing : α) (value : List α → Option (List α)) :
    List α → List α → Prop where
  | nil : Replaced opening closing value [] []
  | token {name behind text out : List α} (hname : closing ∉ name)
      (hvalue : value (opening :: (name ++ [closing])) = some text)
      (h : Replaced opening closing value behind out) :
      Replaced opening closing value (opening :: (name ++ closing :: behind)) (text ++ out)
  | other {x : α} {rest out : List α}
      (hother : ∀ name behind, x :: rest = opening :: (name ++ closing :: behind) →
        closing ∉ name → value (opening :: (name ++ [closing])) = none)
      (h : Replaced opening closing value rest out) :
      Replaced opening closing value (x :: rest) (x :: out)

variable {opening closing : α} {value : List α → Option (List α)} {text out : List α}

/-- A list has one split at its first closing mark. -/
theorem first_unique {name name' behind behind' : List α} (hname : closing ∉ name)
    (hname' : closing ∉ name') (h : name ++ closing :: behind = name' ++ closing :: behind') :
  name = name' ∧ behind = behind'
  := by
  induction name generalizing name' with
  | nil =>
    cases name' with
    | nil => exact ⟨rfl, (List.cons.inj h).2⟩
    | cons x name' => exact absurd (List.cons.inj h).1 (List.ne_of_not_mem_cons hname')
  | cons x name ih =>
    cases name' with
    | nil => exact absurd (List.cons.inj h).1.symm (List.ne_of_not_mem_cons hname)
    | cons x' name' =>
      obtain ⟨rfl, htail⟩ := List.cons.inj h
      obtain ⟨rfl, rfl⟩ := ih (List.not_mem_of_not_mem_cons hname)
        (List.not_mem_of_not_mem_cons hname') htail
      exact ⟨rfl, rfl⟩

/-- The pass makes something of every list. -/
theorem exists_replaced (opening closing : α) (value : List α → Option (List α))
    (text : List α) :
  ∃ out, Replaced opening closing value text out
  := by
  induction hlength : text.length using Nat.strong_induction_on generalizing text with
  | _ n ih =>
    subst hlength
    match text with
    | [] => exact ⟨[], .nil⟩
    | x :: rest =>
      by_cases htoken : ∃ name behind v, x :: rest = opening :: (name ++ closing :: behind) ∧
          closing ∉ name ∧ value (opening :: (name ++ [closing])) = some v
      · obtain ⟨name, behind, v, heq, hname, hvalue⟩ := htoken
        have hshorter : behind.length < (x :: rest).length := by
          rw [heq, List.length_cons, List.length_append, List.length_cons]
          omega
        obtain ⟨out, hout⟩ := ih _ hshorter behind rfl
        rw [heq]
        exact ⟨v ++ out, .token hname hvalue hout⟩
      · obtain ⟨out, hout⟩ := ih _ (Nat.lt_succ_self _) rest rfl
        refine ⟨x :: out, .other ?_ hout⟩
        intro name behind heq hname
        cases hvalue : value (opening :: (name ++ [closing])) with
        | none => rfl
        | some v => exact absurd ⟨name, behind, v, heq, hname, hvalue⟩ htoken

/-- The pass makes one thing of a list. -/
theorem Replaced.unique {out' : List α} (h : Replaced opening closing value text out)
    (h' : Replaced opening closing value text out') :
  out = out'
  := by
  induction h generalizing out' with
  | nil =>
    cases h'
    rfl
  | @token name behind v out hname hvalue _ ih =>
    generalize htext : opening :: (name ++ closing :: behind) = text at h'
    cases h' with
    | nil => cases htext
    | token hname' hvalue' hbehind' =>
      obtain ⟨rfl, rfl⟩ := first_unique hname hname' (List.cons.inj htext).2
      rw [hvalue, Option.some.injEq] at hvalue'
      rw [hvalue', ih hbehind']
    | other hother _ =>
      rw [hother name behind htext.symm hname] at hvalue
      cases hvalue
  | @other x rest out hother _ ih =>
    generalize htext : x :: rest = text at h'
    cases h' with
    | nil => cases htext
    | token hname' hvalue' _ =>
      rw [hother _ _ htext hname'] at hvalue'
      cases hvalue'
    | other _ hrest' =>
      obtain ⟨rfl, rfl⟩ := List.cons.inj htext
      rw [ih hrest']

/-- Without a closing mark nothing is replaced. -/
theorem Replaced.eq_of_unclosed (h : Replaced opening closing value text out)
    (hclosing : closing ∉ text) :
  out = text
  := by
  induction h with
  | nil => rfl
  | token _ _ _ => exact absurd (by simp) hclosing
  | other _ _ ih => rw [ih (List.not_mem_of_not_mem_cons hclosing)]

/-- What holds of the elements of the list and of the values holds of the result. -/
theorem Replaced.forall_mem {p : α → Prop} (h : Replaced opening closing value text out)
    (hvalue : ∀ token v, value token = some v → ∀ x ∈ v, p x) (htext : ∀ x ∈ text, p x) :
  ∀ x ∈ out, p x
  := by
  induction h with
  | nil => exact htext
  | token _ hv _ ih =>
    intro x hx
    obtain hx | hx := List.mem_append.mp hx
    · exact hvalue _ _ hv x hx
    · exact ih (fun y hy => htext y (by simp [hy])) x hx
  | other _ _ ih =>
    obtain ⟨hx, hrest⟩ := List.forall_mem_cons.mp htext
    exact List.forall_mem_cons.mpr ⟨hx, ih hrest⟩

end Tokens
