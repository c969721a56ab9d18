import Mathlib.Data.List.TakeWhile
import Zabbix.Text.ItemKey

/-!
# Replacing nothing

With a callback that returns every parameter unchanged `replace_key_params_dyn` leaves
the text as it is, and whether it succeeds is decided by a scan of the text that keeps
the state and the level only.
-/

open Ascii

namespace ItemKey

/-- The callback that returns every parameter unchanged. -/
def unchanged : Callback := fun param _ _ _ _ => some param

/-- What a character does to the state and the level. `escaped` says that the character
before it is a backslash. -/
def scanEnded (level : ℕ) (c : UInt8) : Option (ParserState × ℕ) :=
  if c = space then some (.ended, level)
  else if c = comma then some (.new, level)
  else if c = rightBracket then some (.ended, level - 1)
  else none

def scanNew (level : ℕ) (c : UInt8) : ParserState × ℕ :=
  if c = space then (.new, level)
  else if c = comma then (.new, level)
  else if c = leftBracket then (.new, level + 1)
  else if c = rightBracket then (.ended, level - 1)
  else if c = quote then (.quoted, level)
  else (.unquoted, level)

def scanStep (state : ParserState) (level : ℕ) (escaped : Bool) (c : UInt8) :
    Option (ParserState × ℕ) :=
  if level = 0 then
    if state = .ended ∧ c = leftBracket then some (scanNew level c) else none
  else
    match state with
    | .new => some (scanNew level c)
    | .ended => scanEnded level c
    | .unquoted =>
      if c = rightBracket ∨ c = comma then scanEnded level c else some (.unquoted, level)
    | .quoted =>
      if c = quote ∧ escaped = false then some (.ended, level) else some (.quoted, level)

/-- Whether the scan passes the whole text and ends at the outermost level. -/
def scan : ParserState → ℕ → Bool → Bytes → Bool
  | _, level, _, [] => level = 0
  | state, level, escaped, c :: rest =>
    match scanStep state level escaped c with
    | none => false
    | some (state, level) => scan state level (c = backslash) rest

namespace Parser

variable {keyType : KeyType} {p p' : Parser} {c : UInt8}

/-- The last character passed is a backslash. -/
def escaped (p : Parser) : Bool := p.before.getLast? = some backslash

theorem replaceKeyParam_unchanged {l : ℕ} {quoted : Bool} :
  p.replaceKeyParam unchanged keyType l quoted = p
  := by
  simp [replaceKeyParam, unchanged]

/-- The text passed, the state and the level. -/
def view (p : Parser) : Bytes × ParserState × ℕ := (p.before, p.state, p.level)

theorem view_stepEnded (hended : p.state = .ended) :
  (p.stepEnded c).map view = (scanEnded p.level c).map (Prod.mk (p.before ++ [c]))
  := by
  unfold stepEnded scanEnded
  split
  · simp [view, pass, hended]
  split
  · simp [view, pass]
  split
  · simp [view, pass, hended]
  · rfl

theorem view_stepNew (hnew : p.state = .new) :
  (p.stepNew unchanged keyType c).map view = some (p.before ++ [c], scanNew p.level c)
  := by
  unfold stepNew scanNew
  simp only [replaceKeyParam_unchanged]
  split
  · simp [view, pass, hnew]
  split
  · simp [view, pass, hnew]
  split
  · simp [view, pass, hnew]
  split
  · simp [view, pass]
  split
  · simp [view, pass]
  · simp [view, pass]

/-- A round of the loop passes the character and does what the scan says. -/
theorem view_step (keyType : KeyType) :
  (p.step unchanged keyType c).map view =
    (scanStep p.state p.level p.escaped c).map (Prod.mk (p.before ++ [c]))
  := by
  unfold step scanStep
  by_cases hlevel : p.level = 0
  · rw [if_pos hlevel, if_pos hlevel]
    split
    · exact view_stepNew rfl
    · rfl
  rw [if_neg hlevel, if_neg hlevel]
  cases hstate : p.state with
  | new => exact view_stepNew hstate
  | ended => exact view_stepEnded hstate
  | unquoted =>
    dsimp only
    rw [replaceKeyParam_unchanged]
    split
    · exact view_stepEnded rfl
    · simp [view, pass, hstate]
  | quoted =>
    dsimp only
    rw [replaceKeyParam_unchanged]
    by_cases hclose : c = quote ∧ p.before.getLast? ≠ some backslash
    · rw [if_pos hclose, if_pos (by simpa [escaped] using hclose)]
      rfl
    · rw [if_neg hclose, if_neg (by simpa [escaped] using hclose)]
      simp [view, pass, hstate]

theorem view_eq_some (keyType : KeyType) {state : ParserState} {level : ℕ}
    (h : scanStep p.state p.level p.escaped c = some (state, level)) :
  ∃ p', p.step unchanged keyType c = some p' ∧ p'.before = p.before ++ [c] ∧
    p'.state = state ∧ p'.level = level
  := by
  have hview := view_step (p := p) (c := c) keyType
  rw [h] at hview
  obtain ⟨p', hp', heq⟩ := Option.map_eq_some_iff.mp hview
  obtain ⟨hbefore, hrest⟩ := Prod.mk.inj heq
  obtain ⟨hs, hl⟩ := Prod.mk.inj hrest
  exact ⟨p', hp', hbefore, hs, hl⟩

theorem step_eq_none (h : scanStep p.state p.level p.escaped c = none) :
  p.step unchanged keyType c = none
  := by
  have hview := view_step (p := p) (c := c) keyType
  rw [h] at hview
  exact Option.map_eq_none_iff.mp hview

/-- The loop leaves the text as it is and succeeds when the scan does. -/
theorem run_unchanged (keyType : KeyType) (hname : p.before ≠ []) (text : Bytes) :
  let result := (p.run unchanged keyType text).1.clean (p.run unchanged keyType text).2
  result.data = p.before ++ text ∧
    (result.success = true ↔ scan p.state p.level p.escaped text = true)
  := by
  induction text generalizing p with
  | nil => simp [run, clean, scan, hname]
  | cons c rest ih =>
    unfold run scan
    cases hscan : scanStep p.state p.level p.escaped c with
    | none =>
      rw [step_eq_none hscan]
      simp [clean]
    | some s =>
      obtain ⟨state, level⟩ := s
      obtain ⟨p', hstep, hbefore, rfl, rfl⟩ := view_eq_some keyType hscan
      rw [hstep]
      have hescaped : p'.escaped = decide (c = backslash) := by
        simp [escaped, hbefore]
      have hrest := ih (p := p') (by simp [hbefore])
      rw [hescaped, hbefore] at hrest
      simpa using hrest

end Parser

/-- With the unchanging callback the text of an item key is left as it is, and the call
succeeds when the scan of what is behind the name does. -/
theorem replaceKeyParamsDyn_unchanged {data : Bytes} (hname : data.takeWhile isKeyChar ≠ []) :
  (replaceKeyParamsDyn data .item unchanged).data = data ∧
    ((replaceKeyParamsDyn data .item unchanged).success = true ↔
      scan .ended 0 false (data.dropWhile isKeyChar) = true)
  := by
  have hdata : data.takeWhile isKeyChar ++ data.dropWhile isKeyChar = data :=
    List.takeWhile_append_dropWhile
  unfold replaceKeyParamsDyn
  change data.takeWhile (inName .item) ≠ [] at hname
  simp only [Parser.start, hname, false_or, true_and, Parser.replaceKeyParam_unchanged]
  split
  · rename_i hstop
    refine ⟨hdata, ?_⟩
    cases hrest : data.dropWhile (inName .item) with
    | nil => simp [hrest] at hstop
    | cons c rest =>
      have hc : c ≠ leftBracket := by simpa [hrest] using hstop
      have hrest' : data.dropWhile isKeyChar = c :: rest := hrest
      simp [Parser.clean, hrest', scan, scanStep, hc]
  · have hescaped : (Parser.start (data.takeWhile (inName .item))).escaped = false := by
      have hlast : ∀ c ∈ (data.takeWhile isKeyChar).getLast?, isKeyChar c = true := by
        intro c hc
        exact List.mem_takeWhile_imp (List.mem_of_getLast? hc)
      have hnot : isKeyChar backslash = false := by decide
      apply decide_eq_false
      intro heq
      have hkey := hlast backslash heq
      rw [hnot] at hkey
      cases hkey
    have hrun := Parser.run_unchanged (p := Parser.start (data.takeWhile (inName .item)))
      .item hname (data.dropWhile (inName .item))
    rw [hescaped] at hrun
    exact ⟨hrun.1.trans hdata, hrun.2⟩

end ItemKey
