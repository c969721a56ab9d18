import Zabbix.Library.Buffer
import Zabbix.Text.ParamAgreement

/-!
# A parameter in a buffer

`get_param` writes the characters of a parameter into the buffer of its caller as it reads them.
Where it returns 1 they stay there, without a zero byte behind them: the buffer is as it was only
when nothing has been written.
-/

open Ascii

namespace Params

open ItemKey (ParamState)

/-- `ZBX_ASSIGN_PARAM`, in a buffer with room for `limit` characters and a zero byte. -/
def assignParam (limit : ℕ) (out : Bytes) (kept : Option UInt8) : Option Bytes :=
  match kept with
  | none => some out
  | some c => if out.length = limit then none else some (out ++ [c])

/-- The character that is assigned before the syntax behind it is found incorrect. -/
def keptBefore (state : ParamState) (array : ℕ) (c : UInt8) : Option UInt8 :=
  match state with
  | .init => inArray (array - 1) c
  | .quoted => inArray array c
  | .unquoted => none

/-- The loop of `get_param`: whether it returns 0, and what it has written. -/
def copyLoop (limit : ℕ) (num : ℤ) (state : ParamState) (array idx : ℕ) (out : Bytes)
    (p : Bytes) : Bool × Bytes :=
  if p = [] ∨ num < idx then (!(state = .quoted || array ≠ 0 || idx < num), out)
  else
    match p with
    | [] => (false, out)
    | c :: p =>
      match _ : round (fun array => array = 0) state array c p with
      | none => (false, (assignParam limit out
          (if idx = num then keptBefore state array c else none)).getD out)
      | some r =>
        match assignParam limit out (if idx = num then r.kept else none) with
        | none => (false, out)
        | some out =>
          copyLoop limit num r.state r.array (if r.separator then idx + 1 else idx) out r.rest
  termination_by measure state p
  decreasing_by exact round_measure ‹_›

/-- `get_param`: whether it returns 0, and the buffer afterwards. -/
def getParamBuf (p : Bytes) (num : ℤ) (buf : Bytes) (maxLen : ℕ) : Option (Bool × Bytes) :=
  if maxLen = 0 then some (false, buf)
  else do
    let (found, out) := copyLoop (maxLen - 1) num .init 0 1 [] p
    let buf ← Buffer.write buf 0 (if found then out ++ [0] else out)
    return (found, buf)

section

variable {limit : ℕ} {num : ℤ} {state : ParamState} {array idx : ℕ} {out p : Bytes}

theorem copyLoop_nil :
  copyLoop limit num state array idx out [] =
    (!(state = .quoted || array ≠ 0 || idx < num), out)
  := by
  rw [copyLoop.eq_def, if_pos (.inl rfl)]

theorem copyLoop_none {c : UInt8} (h : idx < num)
    (hnone : round (fun array => array = 0) state array c p = none) :
  copyLoop limit num state array idx out (c :: p) = (false, out)
  := by
  rw [copyLoop, if_neg (by simp [h.le])]
  split
  · rw [if_neg h.ne]
    rfl
  · rename_i r hr
    rw [hr] at hnone
    contradiction

theorem copyLoop_round {c : UInt8} {r : Round} (h : idx < num)
    (hr : round (fun array => array = 0) state array c p = some r) :
  copyLoop limit num state array idx out (c :: p) =
    copyLoop limit num r.state r.array (if r.separator then idx + 1 else idx) out r.rest
  := by
  rw [copyLoop, if_neg (by simp [h.le])]
  split
  · rename_i hnone
    rw [hnone] at hr
    contradiction
  · rename_i r' hr'
    rw [if_neg h.ne, Option.some.inj (hr.symm.trans hr')]
    rfl

/-- Before the requested parameter nothing is written. -/
theorem copyLoop_skip (buf : Bytes) (h : idx < num) :
  copyLoop limit num state array idx out p =
    match scan false state array buf p with
    | none => (false, out)
    | some (_, []) => (false, out)
    | some (_, _ :: rest) => copyLoop limit num .init 0 (idx + 1) out rest
  := by
  fun_induction scan false state array buf p with
  | case1 state array buf hopen => simp [copyLoop_nil, h]
  | case2 state array buf hopen => simp [copyLoop_nil, h]
  | case3 state array buf c p hnone => exact copyLoop_none h hnone
  | case4 state array buf c p r hr hseparator =>
    obtain ⟨hstate, harray, -, hrest⟩ := round_separator hr hseparator
    rw [copyLoop_round h hr, hstate, harray, hrest, hseparator]
    rfl
  | case5 state array buf c p r hr hseparator ih =>
    rw [copyLoop_round h hr, if_neg hseparator]
    exact ih

/-- Where a list has no parameter with the number, nothing is written. -/
theorem copyLoop_missing {texts : List Bytes} (h : ParamList (Body false) p texts) {n : ℕ}
    (hn : texts.length ≤ n) (idx : ℕ) :
  copyLoop limit ((idx + n : ℕ) : ℤ) .init 0 idx out p = (false, out)
  := by
  induction h generalizing n idx with
  | @single source text h =>
    have hlt : (idx : ℤ) < ((idx + n : ℕ) : ℤ) := by
      rw [List.length_singleton] at hn
      omega
    rw [copyLoop_skip [] hlt, scan_last h]
  | @more source text source' texts h _ ih =>
    obtain ⟨n, rfl⟩ := Nat.exists_eq_succ_of_ne_zero (show n ≠ 0 by
      rw [List.length_cons] at hn
      omega)
    have hlt : (idx : ℤ) < ((idx + (n + 1) : ℕ) : ℤ) := by omega
    have hnum : idx + (n + 1) = idx + 1 + n := by omega
    rw [copyLoop_skip [] hlt, scan_more h]
    dsimp only
    rw [hnum]
    exact ih (Nat.le_of_succ_le_succ hn) (idx + 1)

theorem assignParam_eq (kept : Option UInt8) :
  assignParam limit out (if idx = num then kept else none) =
    if idx = num then
      kept.elim (some out) fun c => if out.length = limit then none else some (out ++ [c])
    else some out
  := by
  by_cases heq : idx = num
  · rw [if_pos heq, if_pos heq]
    cases kept <;> rfl
  · rw [if_neg heq, if_neg heq]
    rfl

/-- The loop returns what it has written exactly when `get_param` returns 0. -/
theorem paramLoop_eq_copyLoop :
  paramLoop (fun buf c => if buf.length = limit then none else some (buf ++ [c])) num state array
      idx out p =
    if (copyLoop limit num state array idx out p).1 then
      some (copyLoop limit num state array idx out p).2 else none
  := by
  fun_induction copyLoop limit num state array idx out p with
  | case1 state array idx out p hend =>
    rw [paramLoop.eq_def, if_pos hend]
    by_cases hquoted : state = .quoted
    · simp [hquoted]
    · by_cases harray : array = 0
      · by_cases hle : num ≤ idx
        · simp [hquoted, harray, hle, Int.not_lt.mpr hle]
        · simp [hquoted, harray, hle, Int.not_le.mp hle]
      · simp [hquoted, harray]
  | case2 state array idx out hend => exact absurd (.inl rfl) hend
  | case3 state array idx out c p hnone hend =>
    have hle : (idx : ℤ) ≤ num := Int.not_lt.mp fun hlt => hend (.inr hlt)
    rw [paramLoop_none hle hnone]
    rfl
  | case4 state array idx out c p r hr hfull hend =>
    have hle : (idx : ℤ) ≤ num := Int.not_lt.mp fun hlt => hend (.inr hlt)
    rw [dite_eq_ite] at hfull
    rw [paramLoop_round hle hr, ← assignParam_eq, hfull]
    rfl
  | case5 state array idx out c p r hr out' hassign hend ih =>
    have hle : (idx : ℤ) ≤ num := Int.not_lt.mp fun hlt => hend (.inr hlt)
    rw [dite_eq_ite] at hassign
    rw [paramLoop_round hle hr, ← assignParam_eq, hassign]
    exact ih

end

/-! ### The characters of a parameter -/

theorem unescape_sublist (inner : Bytes) :
  (unescape inner).Sublist inner
  := by
  fun_induction unescape inner with
  | case1 => exact List.Sublist.refl _
  | case2 c => exact List.Sublist.refl _
  | case3 c d body hescaped ih =>
    obtain ⟨-, rfl⟩ := hescaped
    exact (ih.cons_cons quote).cons c
  | case4 c d body _ ih => exact ih.cons_cons c

theorem Form.sublist {body : Bytes → Prop} {kind : ItemKey.Kind} {source text : Bytes}
    (h : Form body kind source text) :
  text.Sublist source
  := by
  induction h with
  | empty n => exact List.nil_sublist _
  | unquoted n _ _ _ _ => exact List.sublist_append_right _ _
  | quoted n m _ =>
    refine List.Sublist.trans (List.Sublist.cons_cons quote ?_) (List.sublist_append_right _ _)
    exact List.Sublist.append (List.Sublist.refl _) (List.singleton_sublist.mpr List.mem_cons_self)
  | array n m _ ih =>
    refine List.Sublist.trans (List.Sublist.cons_cons leftBracket ?_)
      (List.sublist_append_right _ _)
    exact List.Sublist.append ih (List.singleton_sublist.mpr List.mem_cons_self)
  | single _ ih => exact ih
  | more _ _ ih ih' => exact List.Sublist.append ih (ih'.cons_cons comma)

theorem Param.sublist {body : Bytes → Prop} {source text : Bytes} (h : Param body source text) :
  text.Sublist source
  := by
  cases h with
  | empty n => exact List.nil_sublist _
  | unquoted n _ _ _ _ => exact List.sublist_append_right _ _
  | @quoted n m inner _ =>
    have hinner : (unescape inner).Sublist (inner ++ quote :: ItemKey.spaces m) :=
      (unescape_sublist inner).trans (List.sublist_append_left _ _)
    exact (hinner.cons quote).trans (List.sublist_append_right _ _)
  | @array n m inner _ h =>
    have hinner : text.Sublist (inner ++ rightBracket :: ItemKey.spaces m) :=
      h.sublist.trans (List.sublist_append_left _ _)
    exact (hinner.cons leftBracket).trans (List.sublist_append_right _ _)

/-- The text of a parameter is written in the list. -/
theorem ParamList.sublist {body : Bytes → Prop} {p : Bytes} {texts : List Bytes}
    (h : ParamList body p texts) {text : Bytes} (htext : text ∈ texts) :
  text.Sublist p
  := by
  induction h with
  | single h =>
    rw [List.mem_singleton.mp htext]
    exact h.sublist
  | more h _ ih =>
    obtain rfl | htext := List.mem_cons.mp htext
    · exact h.sublist.trans (List.sublist_append_left _ _)
    · exact ((ih htext).cons comma).trans (List.sublist_append_right _ _)

/-! ### What is read -/

/-- `get_param` leaves a text in every buffer with an empty text. -/
def Reads (p : Bytes) (num : ℤ) (maxLen : ℕ) (text : Bytes) : Prop :=
  ∀ buf : Bytes, buf.length = maxLen → [0] <+: buf →
    ∃ found buf', getParamBuf p num buf maxLen = some (found, buf') ∧ buf'.length = maxLen ∧
      text ++ [0] <+: buf'

/-- Of a list a parameter is read, and for one that is missing the empty text. -/
theorem reads_of_paramList {p : Bytes} {texts : List Bytes} (h : ParamList (Body false) p texts)
    {maxLen : ℕ} (hlength : p.length < maxLen) (n : ℕ) :
  Reads p ((n + 1 : ℕ) : ℤ) maxLen (texts[n]?.getD [])
  := by
  intro buf hbuf hempty
  rw [getParamBuf, if_neg (by omega)]
  cases htext : texts[n]? with
  | none =>
    have hcopy : copyLoop (maxLen - 1) ((n + 1 : ℕ) : ℤ) .init 0 1 [] p = (false, []) := by
      rw [Nat.add_comm]
      exact copyLoop_missing h (List.getElem?_eq_none_iff.mp htext) 1
    refine ⟨false, buf, ?_, hbuf, hempty⟩
    rw [hcopy]
    simp [Buffer.write]
  | some text =>
    have hsub := h.sublist (List.mem_of_getElem? htext)
    have hget : getParam p ((n + 1 : ℕ) : ℤ) maxLen = some text := by
      rw [getParam_eq_some_iff (by omega)]
      exact ⟨(nth_iff_of_paramList h n text).mpr htext, Nat.lt_of_le_of_lt hsub.length_le hlength⟩
    rw [getParam, if_neg (by omega), paramLoop_eq_copyLoop] at hget
    split_ifs at hget with hfound
    obtain ⟨buf', hwrite, hprefix, hbuf'⟩ := @Buffer.write_front buf (text ++ [0]) (by
      have hle := hsub.length_le
      rw [List.length_append, List.length_singleton, hbuf]
      omega)
    refine ⟨true, buf', ?_, hbuf'.trans hbuf, hprefix⟩
    dsimp only
    rw [if_pos hfound, Option.some.inj hget, hfound, hwrite]
    rfl

end Params
