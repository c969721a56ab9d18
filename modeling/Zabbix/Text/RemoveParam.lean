import Zabbix.Text.ParamAgreement

/-!
# Removing a parameter

`remove_param` takes a parameter out of a list.  It reads the list with two states only: every
quote that no backslash precedes begins or ends a quoted part, and a comma outside quoted parts
separates two parameters, within an array too.  Of an escaped quote it passes over the
backslash.
-/

open Ascii

namespace RemoveParam

open Params

/-- `*buf++ = *p` when the parameter is another one than `num`. -/
def copy (num idx : ℕ) (c : UInt8) (out : Option Bytes) : Option Bytes :=
  if idx ≠ num then out.map (c :: ·) else out

/-- The loop of `remove_param`, with `p[1]` behind `*p` unless it is the terminating zero byte;
`quoted` is the state. There is no result when the loop moves behind that byte. -/
def removeLoop (num : ℕ) : (quoted : Bool) → (idx : ℕ) → Bytes → Option Bytes
  | _, _, [] => some []
  | quoted, idx, [c] =>
    if ¬ quoted ∧ c = comma then
      if 1 = idx ∧ 1 = num then none else copy num (idx + 1) c (some [])
    else copy num idx c (some [])
  | false, idx, c :: d :: rest =>
    if c = comma then
      if 1 = idx ∧ 1 = num then copy num (idx + 1) d (removeLoop num false (idx + 1) rest)
      else copy num (idx + 1) c (removeLoop num false (idx + 1) (d :: rest))
    else if c = quote then copy num idx c (removeLoop num true idx (d :: rest))
    else copy num idx c (removeLoop num false idx (d :: rest))
  | true, idx, c :: d :: rest =>
    if c = quote then copy num idx c (removeLoop num false idx (d :: rest))
    else if c = backslash ∧ d = quote then copy num idx d (removeLoop num true idx rest)
    else copy num idx c (removeLoop num true idx (d :: rest))

/-- `remove_param`. -/
def removeParam (p : Bytes) (num : ℕ) : Option Bytes := removeLoop num false 1 p

/-! ### What the loop passes over -/

/-- The states of the loop before and behind a text in which it sees no comma, or may see some,
and no escaped quote, or may see some. -/
inductive Pass (commas escapes : Bool) : Bool → Bytes → Bool → Prop where
  | nil {quoted : Bool} : Pass commas escapes quoted [] quoted
  | quote {quoted quoted' : Bool} {text : Bytes}
      (h : Pass commas escapes (!quoted) text quoted') :
      Pass commas escapes quoted (Ascii.quote :: text) quoted'
  | escape {quoted' : Bool} {text : Bytes} (hescapes : escapes = true)
      (h : Pass commas escapes true text quoted') :
      Pass commas escapes true (backslash :: Ascii.quote :: text) quoted'
  | char {quoted quoted' : Bool} {c : UInt8} {text : Bytes} (hquote : c ≠ Ascii.quote)
      (hcomma : c = comma → quoted = true ∨ commas = true)
      (hescape : quoted = true → c = backslash → text.head? ≠ some Ascii.quote)
      (h : Pass commas escapes quoted text quoted') : Pass commas escapes quoted (c :: text) quoted'

theorem removeLoop_char {num idx : ℕ} {quoted : Bool} {c : UInt8} {rest : Bytes}
    (hquote : c ≠ quote) (hcomma : c = comma → quoted = true)
    (hescape : quoted = true → c = backslash → rest.head? ≠ some quote) :
  removeLoop num quoted idx (c :: rest) = copy num idx c (removeLoop num quoted idx rest)
  := by
  cases rest with
  | nil =>
    cases quoted with
    | true => simp [removeLoop]
    | false =>
      have hne : c ≠ comma := fun heq => Bool.false_ne_true (hcomma heq)
      simp [removeLoop, hne]
  | cons d rest =>
    cases quoted with
    | true =>
      have hplain : ¬ (c = backslash ∧ d = quote) := fun hboth =>
        hescape rfl hboth.1 (congrArg some hboth.2)
      conv_lhs => rw [removeLoop, if_neg hquote, if_neg hplain]
    | false =>
      have hne : c ≠ comma := fun heq => Bool.false_ne_true (hcomma heq)
      conv_lhs => rw [removeLoop, if_neg hne, if_neg hquote]

theorem removeLoop_quote {num idx : ℕ} {quoted : Bool} {rest : Bytes} :
  removeLoop num quoted idx (quote :: rest) =
    copy num idx quote (removeLoop num (!quoted) idx rest)
  := by
  have hcomma : quote ≠ comma := by decide
  cases rest with
  | nil => cases quoted <;> simp [removeLoop, hcomma]
  | cons d rest =>
    cases quoted with
    | true =>
      conv_lhs => rw [removeLoop, if_pos rfl]
      rfl
    | false =>
      conv_lhs => rw [removeLoop, if_neg hcomma, if_pos rfl]
      rfl

theorem removeLoop_escape {num idx : ℕ} {rest : Bytes} :
  removeLoop num true idx (backslash :: quote :: rest) =
    copy num idx quote (removeLoop num true idx rest)
  := by
  have hquote := backslash_ne_quote
  conv_lhs => rw [removeLoop, if_neg hquote, if_pos ⟨rfl, rfl⟩]

theorem removeLoop_comma {num idx : ℕ} {rest : Bytes} (h : ¬ (1 = idx ∧ 1 = num)) :
  removeLoop num false idx (comma :: rest) =
    copy num (idx + 1) comma (removeLoop num false (idx + 1) rest)
  := by
  cases rest with
  | nil => simp [removeLoop, h]
  | cons d rest => conv_lhs => rw [removeLoop, if_pos rfl, if_neg h]

/-- Behind the first separator the loop moves on without looking at the character. -/
theorem removeLoop_first {d : UInt8} {rest : Bytes} :
  removeLoop 1 false 1 (comma :: d :: rest) = (removeLoop 1 false 2 rest).map (d :: ·)
  := by
  conv_lhs => rw [removeLoop, if_pos rfl, if_pos ⟨rfl, rfl⟩]
  exact if_pos (by decide)

theorem copy_self {num : ℕ} {c : UInt8} {out : Option Bytes} :
  copy num num c out = out
  := if_neg (not_not.mpr rfl)

theorem copy_ne {num idx : ℕ} (h : idx ≠ num) {c : UInt8} {out : Option Bytes} :
  copy num idx c out = out.map (c :: ·)
  := if_pos h

theorem head?_append_ne {text rest : Bytes} {c : UInt8} (htext : text.head? ≠ some c)
    (hrest : rest.head? ≠ some c) :
  (text ++ rest).head? ≠ some c
  := by
  cases text with
  | nil => exact hrest
  | cons d text => exact htext

/-- The parameter with the number is left out. -/
theorem removeLoop_removed {num : ℕ} {quoted quoted' : Bool} {source : Bytes}
    (h : Pass false true quoted source quoted') {rest : Bytes}
    (hrest : rest.head? ≠ some quote) :
  removeLoop num quoted num (source ++ rest) = removeLoop num quoted' num rest
  := by
  induction h with
  | nil => rfl
  | quote _ ih => rw [List.cons_append, removeLoop_quote, copy_self, ih]
  | escape _ _ ih =>
    rw [List.cons_append, List.cons_append, removeLoop_escape, copy_self, ih]
  | @char quoted _ c text hquote hcomma hescape _ ih =>
    have hcomma' : c = comma → quoted = true := fun heq =>
      (hcomma heq).resolve_right Bool.false_ne_true
    have hescape' : quoted = true → c = backslash → (text ++ rest).head? ≠ some Ascii.quote :=
      fun hq hc => head?_append_ne (hescape hq hc) hrest
    rw [List.cons_append, removeLoop_char hquote hcomma' hescape', copy_self, ih]

/-- Another parameter is copied. -/
theorem removeLoop_kept {num idx : ℕ} {quoted quoted' : Bool} {source : Bytes}
    (h : Pass false false quoted source quoted') (hne : idx ≠ num) {rest : Bytes}
    (hrest : rest.head? ≠ some quote) :
  removeLoop num quoted idx (source ++ rest) =
    (removeLoop num quoted' idx rest).map (source ++ ·)
  := by
  induction h with
  | nil => simp
  | quote _ ih =>
    rw [List.cons_append, removeLoop_quote, copy_ne hne, ih, Option.map_map]
    rfl
  | escape hescapes => cases hescapes
  | @char quoted _ c text hquote hcomma hescape _ ih =>
    have hcomma' : c = comma → quoted = true := fun heq =>
      (hcomma heq).resolve_right Bool.false_ne_true
    have hescape' : quoted = true → c = backslash → (text ++ rest).head? ≠ some Ascii.quote :=
      fun hq hc => head?_append_ne (hescape hq hc) hrest
    rw [List.cons_append, removeLoop_char hquote hcomma' hescape', copy_ne hne, ih,
      Option.map_map]
    rfl

/-- Behind the parameter everything is copied. -/
theorem removeLoop_behind {num idx : ℕ} {quoted quoted' : Bool} {rest : Bytes}
    (h : Pass true false quoted rest quoted') (hlt : num < idx) :
  removeLoop num quoted idx rest = some rest
  := by
  induction h generalizing idx with
  | nil => rw [removeLoop]
  | quote _ ih =>
    rw [removeLoop_quote, copy_ne (by omega), ih hlt]
    rfl
  | escape hescapes => cases hescapes
  | @char quoted _ c text hquote _ hescape _ ih =>
    by_cases hseen : c = comma ∧ quoted = false
    · obtain ⟨rfl, rfl⟩ := hseen
      rw [removeLoop_comma (by omega), copy_ne (by omega), ih (by omega)]
      rfl
    · have hcomma : c = comma → quoted = true := by
        intro hc
        by_contra hq
        exact hseen ⟨hc, Bool.eq_false_iff.mpr hq⟩
      rw [removeLoop_char hquote hcomma hescape, copy_ne (by omega), ih hlt]
      rfl

/-! ### The list that is left -/

/-- A parameter in the reading of `num_param` and in that of `get_param`. -/
def Common (source : Bytes) : Prop :=
  (∃ text, Param (Body true) source text) ∧ ∃ text, Param (Body false) source text

/-- `num_param` and `get_param` both read this number of parameters. -/
def Readable (p : Bytes) (k : ℕ) : Prop :=
  (∃ texts, IsParamList p texts ∧ texts.length = k) ∧
    ∃ texts, ParamList (Body false) p texts ∧ texts.length = k

/-- The parameter with the number can be taken out of the list: up to it the loop sees the commas
between parameters and no others, and of no other parameter does it see an escaped quote.  Where
the first of the parameters goes, the loop does not look at the character behind its comma, and
there has to be one. -/
inductive Removable : (first : Bool) → ℕ → Bytes → (k : ℕ) → Prop where
  | last {first quoted : Bool} {source text : Bytes} (h : Param (Body true) source text)
      (hpass : Pass false true false source quoted) : Removable first 1 source 1
  | inner {first quoted : Bool} {source rest : Bytes} {k : ℕ} (h : Common source)
      (hpass : Pass false true false source false) (hrest : Readable rest k)
      (hbehind : first = true → rest ≠ [])
      (hcopied : Pass true false false (if first then rest.tail else rest) quoted) :
      Removable first 1 (source ++ comma :: rest) (k + 1)
  | later {first : Bool} {n : ℕ} {source rest : Bytes} {k : ℕ} (h : Common source)
      (hpass : Pass false false false source false) (hrest : Removable false n rest k) :
      Removable first (n + 1) (source ++ comma :: rest) (k + 1)

theorem nth_more {source text rest : Bytes} (h : Param (Body false) source text) (n : ℕ)
    (result : Bytes) :
  Nth (n + 2) (source ++ comma :: rest) result ↔ Nth (n + 1) rest result
  := by
  have hscan := scan_more h rest
  simp [nth_succ_iff, hscan]

theorem nth_first {source text rest : Bytes} (h : Param (Body false) source text)
    (hrest : Ends 0 rest) (result : Bytes) :
  Nth 1 (source ++ rest) result ↔ result = text
  := by
  have hscan := scan_param h hrest
  simp [nth_one_iff, hscan, eq_comm]

theorem Removable.isParamList {first : Bool} {n k : ℕ} {p : Bytes} (h : Removable first n p k) :
  ∃ texts, IsParamList p texts ∧ texts.length = k
  := by
  induction h with
  | last h _ => exact ⟨_, .single h, rfl⟩
  | inner h _ hrest =>
    obtain ⟨text, htext⟩ := h.1
    obtain ⟨texts, htexts, rfl⟩ := hrest.1
    exact ⟨_, .more htext htexts, rfl⟩
  | later h _ _ ih =>
    obtain ⟨text, htext⟩ := h.1
    obtain ⟨texts, htexts, rfl⟩ := ih
    exact ⟨_, .more htext htexts, rfl⟩

theorem Readable.pos {p : Bytes} {k : ℕ} (h : Readable p k) :
  0 < k
  := by
  obtain ⟨⟨texts, htexts, rfl⟩, -⟩ := h
  cases htexts <;> exact Nat.succ_pos _

theorem Readable.single {source : Bytes} (h : Common source) :
  Readable source 1
  := by
  obtain ⟨⟨text, htext⟩, text', htext'⟩ := h
  exact ⟨⟨_, .single htext, rfl⟩, _, .single htext', rfl⟩

theorem Readable.more {source rest : Bytes} {k : ℕ} (h : Common source)
    (hrest : Readable rest k) :
  Readable (source ++ comma :: rest) (k + 1)
  := by
  obtain ⟨⟨text, htext⟩, text', htext'⟩ := h
  obtain ⟨⟨texts, htexts, rfl⟩, texts', htexts', hlength⟩ := hrest
  refine ⟨⟨_, .more htext htexts, rfl⟩, _, .more htext' htexts', ?_⟩
  rw [List.length_cons, hlength]

/-- The number in the list before of a parameter of the list that is left, both counted from 0. -/
def skip (n i : ℕ) : ℕ := if i + 1 < n then i else i + 1

/-- The list that is left by taking a parameter out of another one. -/
structure LeftBy (n : ℕ) (p out : Bytes) (k : ℕ) : Prop where
  readable : Readable out k
  nth : ∀ i < k, ∀ text, Nth (i + 1) out text ↔ Nth (skip n i + 1) p text

theorem comma_head {rest : Bytes} :
  (comma :: rest).head? ≠ some quote
  := fun h => absurd (Option.some.inj h) (by decide)

/-- What is left behind the parameter that is taken out, with its separator. -/
theorem removeLoop_current {first : Bool} {p : Bytes} {k num : ℕ}
    (h : Removable first 1 p (k + 1)) (hfirst : first = false) (hnum : 1 < num) :
  (k = 0 ∧ removeLoop num false num p = some []) ∨
    ∃ source rest, p = source ++ comma :: rest ∧ Common source ∧ Readable rest k ∧
      removeLoop num false num p = some (comma :: rest)
  := by
  subst hfirst
  cases h with
  | last h hpass =>
    left
    have hnone : ([] : Bytes).head? ≠ some quote := by simp
    have hremoved : removeLoop num false num (p ++ []) = _ := removeLoop_removed hpass hnone
    rw [List.append_nil, removeLoop] at hremoved
    exact ⟨rfl, hremoved⟩
  | @inner _ quoted source rest _ h hpass hrest hbehind hcopied =>
    right
    refine ⟨source, rest, rfl, h, hrest, ?_⟩
    have hbehind' : Pass true false false rest quoted := hcopied
    rw [removeLoop_removed hpass comma_head, removeLoop_comma (by omega), copy_ne (by omega),
      removeLoop_behind hbehind' (Nat.lt_succ_self num)]
    rfl
  | later _ _ hrest => cases hrest

theorem Removable.pos {first : Bool} {n k : ℕ} {p : Bytes} (h : Removable first n p k) :
  0 < n ∧ 0 < k
  := by
  cases h with
  | last => exact ⟨Nat.one_pos, Nat.one_pos⟩
  | inner => exact ⟨Nat.one_pos, Nat.succ_pos _⟩
  | later => exact ⟨Nat.succ_pos _, Nat.succ_pos _⟩

/-- The list that is left without a parameter that is not the first one. -/
theorem removeLoop_removable {first : Bool} {n k idx num : ℕ} {p : Bytes}
    (h : Removable first n p k) (hn : 2 ≤ n) (hidx : 1 ≤ idx) (hnum : num + 1 = idx + n) :
  ∃ out, removeLoop num false idx p = some out ∧ LeftBy n p out (k - 1)
  := by
  induction h generalizing idx with
  | last => omega
  | inner => omega
  | @later first n source rest k h hpass hrest ih =>
    obtain ⟨text, htext⟩ := h.2
    have hends : ∀ rest, Ends 0 (comma :: rest) := fun rest => .inl rfl
    obtain ⟨hnpos, hkpos⟩ := hrest.pos
    obtain ⟨k, rfl⟩ := Nat.exists_eq_succ_of_ne_zero hkpos.ne'
    rw [removeLoop_kept hpass (by omega) comma_head, removeLoop_comma (by omega),
      Nat.add_sub_cancel]
    obtain rfl | hlater : n = 1 ∨ 2 ≤ n := by omega
    · have hnext : idx + 1 = num := by omega
      subst hnext
      rw [copy_self]
      obtain ⟨rfl, hout⟩ | ⟨source', rest', rfl, h', hrest', hout⟩ :=
        removeLoop_current hrest rfl (show 1 < idx + 1 by omega)
      · refine ⟨source, by rw [hout, Option.map_some, List.append_nil], .single h, ?_⟩
        intro i hi result
        obtain rfl : i = 0 := by omega
        have hlast := nth_first htext (.inr (.inl rfl) : Ends 0 []) result
        rw [List.append_nil] at hlast
        rw [hlast, skip, if_pos (by omega), nth_first htext (hends rest)]
      · refine ⟨source ++ comma :: rest', by rw [hout, Option.map_some], .more h hrest', ?_⟩
        intro i hi result
        obtain ⟨text', htext'⟩ := h'.2
        cases i with
        | zero =>
          rw [skip, if_pos (by omega), nth_first htext (hends rest'), nth_first htext (hends _)]
        | succ i =>
          rw [skip, if_neg (by omega), nth_more htext, nth_more htext, nth_more htext']
    · obtain ⟨out, hout, hleft⟩ := ih hlater (by omega) (by omega : num + 1 = idx + 1 + n)
      rw [Nat.succ_sub_one] at hleft
      rw [copy_ne (by omega), hout, Option.map_some, Option.map_some]
      refine ⟨_, rfl, .more h hleft.readable, ?_⟩
      intro i hi result
      cases i with
      | zero =>
        rw [skip, if_pos (by omega), nth_first htext (hends out), nth_first htext (hends rest)]
      | succ i =>
        have hskip : skip (n + 1) (i + 1) = skip n i + 1 := by
          unfold skip
          split <;> split <;> omega
        rw [hskip, nth_more htext, nth_more htext, hleft.nth i (by omega)]

/-- The list that is left without its first parameter. -/
theorem removeParam_first {k : ℕ} {p : Bytes} (h : Removable true 1 p (k + 1)) :
  ∃ out, removeParam p 1 = some out ∧ (k = 0 ∧ out = [] ∨ 0 < k ∧ LeftBy 1 p out k)
  := by
  cases h with
  | last h hpass =>
    have hnone : ([] : Bytes).head? ≠ some quote := by simp
    have hremoved : removeLoop 1 false 1 (p ++ []) = _ := removeLoop_removed hpass hnone
    rw [List.append_nil, removeLoop] at hremoved
    exact ⟨[], hremoved, .inl ⟨rfl, rfl⟩⟩
  | @inner _ quoted source rest _ h hpass hrest hbehind hcopied =>
    obtain ⟨d, rest, rfl⟩ := List.exists_cons_of_ne_nil (hbehind rfl)
    have hbehind' : Pass true false false rest quoted := hcopied
    refine ⟨d :: rest, ?_, .inr ⟨hrest.pos, hrest, ?_⟩⟩
    · rw [removeParam, removeLoop_removed hpass comma_head, removeLoop_first,
        removeLoop_behind hbehind' (by omega)]
      rfl
    · intro i hi result
      obtain ⟨text, htext⟩ := h.2
      rw [skip, if_neg (by omega), nth_more htext]
  | later _ _ hrest => exact absurd hrest.pos.1 (by omega)

/-- `remove_param` does not read behind the list, and leaves the other parameters in their
order, and nothing of a single one. -/
def Meets (p : Bytes) (n : ℕ) : Prop :=
  ∃ out, removeParam p n = some out ∧
    (numParam (some p) = 1 → out = []) ∧
    (numParam (some p) ≠ 1 →
      numParam (some out) = numParam (some p) - 1 ∧
      ∀ i : ℕ, getParamDyn out (i + 1 : ℕ) =
        if i + 1 < numParam (some p) then getParamDyn p (skip n i + 1 : ℕ) else none)

theorem getParamDyn_congr {p p' : Bytes} {i j : ℕ}
    (h : ∀ text, Nth (i + 1) p text ↔ Nth (j + 1) p' text) :
  getParamDyn p (i + 1 : ℕ) = getParamDyn p' (j + 1 : ℕ)
  := by
  apply Option.ext
  intro text
  have hi : (1 : ℤ) ≤ ((i + 1 : ℕ) : ℤ) := by omega
  have hj : (1 : ℤ) ≤ ((j + 1 : ℕ) : ℤ) := by omega
  rw [getParamDyn_eq_some_iff hi, getParamDyn_eq_some_iff hj]
  exact h text

/-- Behind the last parameter none is found. -/
theorem Readable.getParamDyn_eq_none {p : Bytes} {k i : ℕ} (h : Readable p k) (hle : k ≤ i) :
  getParamDyn p (i + 1 : ℕ) = none
  := by
  obtain ⟨-, texts, htexts, rfl⟩ := h
  have hi : (1 : ℤ) ≤ ((i + 1 : ℕ) : ℤ) := by omega
  apply Option.eq_none_iff_forall_ne_some.mpr
  intro text htext
  have hnth := (getParamDyn_eq_some_iff hi).mp htext
  rw [Int.toNat_natCast, nth_iff_of_paramList htexts, List.getElem?_eq_none hle] at hnth
  cases hnth

theorem LeftBy.meets {n k : ℕ} {p out : Bytes} (hout : removeParam p n = some out)
    (hcount : numParam (some p) = k + 1) (hpos : 0 < k) (h : LeftBy n p out k) :
  Meets p n
  := by
  refine ⟨out, hout, fun hone => by omega, fun _ => ⟨?_, fun i => ?_⟩⟩
  · obtain ⟨⟨texts, htexts, rfl⟩, -⟩ := h.readable
    rw [numParam_of_isParamList htexts, hcount, Nat.add_sub_cancel]
  · rw [hcount]
    by_cases hi : i < k
    · rw [if_pos (Nat.succ_lt_succ hi)]
      exact getParamDyn_congr (h.nth i hi)
    · rw [if_neg (by omega)]
      exact h.readable.getParamDyn_eq_none (Nat.not_lt.mp hi)

/-- A parameter that can be taken out is taken out, and the others are left. -/
theorem meets_of_removable {p : Bytes} {n k : ℕ} (h : Removable true n p k) :
  Meets p n
  := by
  obtain ⟨texts, htexts, hlength⟩ := h.isParamList
  have hcount : numParam (some p) = k := by rw [numParam_of_isParamList htexts, hlength]
  obtain ⟨hnpos, hkpos⟩ := h.pos
  obtain ⟨k, rfl⟩ := Nat.exists_eq_succ_of_ne_zero hkpos.ne'
  obtain rfl | hlater : n = 1 ∨ 2 ≤ n := by omega
  · obtain ⟨out, hout, ⟨rfl, rfl⟩ | ⟨hpos, hleft⟩⟩ := removeParam_first h
    · exact ⟨[], hout, fun _ => rfl, fun hne => absurd hcount hne⟩
    · exact hleft.meets hout hcount hpos
  · obtain ⟨out, hout, hleft⟩ := removeLoop_removable h hlater le_rfl (Nat.add_comm n 1)
    rw [Nat.succ_sub_one] at hleft
    have hpos : 0 < k := by
      cases h with
      | last => omega
      | inner => omega
      | later _ _ hrest => exact hrest.pos.2
    exact hleft.meets hout hcount hpos

/-- The list `a,b` without its first parameter. -/
theorem twoParams_meets :
  Meets [0x61, comma, 0x62] 1
  := by
  have hparam : ∀ c : UInt8, c ≠ space → c ≠ quote → c ≠ leftBracket → c ≠ comma →
      Common [c] := by
    intro c hspace hquote hleft hcomma
    have hmem : comma ∉ [c] := fun h => hcomma (List.mem_singleton.mp h).symm
    exact ⟨⟨_, .unquoted 0 hspace hquote hleft hmem⟩, _, .unquoted 0 hspace hquote hleft hmem⟩
  have ha := hparam 0x61 (by decide) (by decide) (by decide) (by decide)
  have hb := hparam 0x62 (by decide) (by decide) (by decide) (by decide)
  have hpass : Pass false true false [0x61] false :=
    .char (by decide) (fun h => absurd h (by decide)) (fun h => by cases h) .nil
  have hremovable : Removable true 1 ([0x61] ++ comma :: [0x62]) 2 :=
    .inner ha hpass (.single hb) (fun _ => List.cons_ne_nil _ _) .nil
  exact meets_of_removable hremovable

/-- The array `[a,b]` is a single parameter, of which `b]` is left. -/
theorem array_not_meets :
  numParam (some [leftBracket, 0x61, comma, 0x62, rightBracket]) = 1 ∧
    ¬ Meets [leftBracket, 0x61, comma, 0x62, rightBracket] 1
  := by
  have hlist : IsParamList [leftBracket, 0x61, comma, 0x62, rightBracket]
      [[0x61, comma, 0x62]] := by
    have hchar : ∀ c : UInt8, c = 0x61 ∨ c = 0x62 → Form (Body true) .param [c] [c] := by
      rintro c (rfl | rfl)
      · exact .unquoted 0 (by decide) (by decide) (by decide)
          (by simp [ItemKey.IsDelimiter, comma, rightBracket])
      · exact .unquoted 0 (by decide) (by decide) (by decide)
          (by simp [ItemKey.IsDelimiter, comma, rightBracket])
    exact .single (.array 0 0 (.more (hchar _ (.inl rfl)) (.single (hchar _ (.inr rfl)))))
  have hcount := numParam_of_isParamList hlist
  use hcount
  rintro ⟨out, hout, hone, -⟩
  have hempty := hone hcount
  subst hempty
  exact absurd hout (by decide)

end RemoveParam
