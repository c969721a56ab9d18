import Zabbix.Library.Tokens
import Zabbix.Poller.HttpVariables

/-!
# Variables in the texts of a web scenario

`http_substitute_variables` goes through a text by an index, and `zbx_replace_string` writes the
value of a variable over its name, in memory that is allocated anew when the text grows.  Where the
value is empty and its name stands at the beginning, the index wraps to the largest size and back to
zero.
-/

open Ascii

namespace HttpMacro

/-- The number of values of `size_t`. -/
abbrev sizeRange : ℕ := 2 ^ 64

/-- `zbx_replace_string` for the block from `l` to `r`: the memory and the new `r`. -/
def zbxReplaceString (junk : ℕ → UInt8) (data : Bytes) (l r : ℕ) (value : Bytes) :
    Option (Bytes × ℕ) :=
  let szValue := value.length
  let szBlock := r - l + 1
  if szValue ≠ szBlock then do
    let szData := r + (Buffer.text (data.drop r)).length + szValue - szBlock
    let data := if szValue > szBlock then Buffer.realloc junk data (szData + 1) else data
    let data ← memmove data ⟨l + szValue, l + szBlock, szData - l - szValue + 1⟩
    let data ← Buffer.write data l value
    return (data, (l + szValue + (sizeRange - 1)) % sizeRange)
  else do
    let data ← Buffer.write data l value
    return (data, r)

/-- The loop of `http_substitute_variables`. -/
def substituteLoop (junk : ℕ → UInt8) (macros : Macros) : ℕ → ℕ → Bytes → Option Bytes
  | 0, _, _ => none
  | fuel + 1, left, data => do
    let c ← data[left]?
    if c = 0 then return data
    else if c ≠ leftBrace then substituteLoop junk macros fuel ((left + 1) % sizeRange) data
    else
      let right ← Buffer.skip (fun c => !(c = 0 || c = rightBrace)) data (left + 1)
      if data[right]? ≠ some rightBrace then return data
      else
        let replaceChar ← data[right + 1]?
        let closed ← Buffer.write data (right + 1) [0]
        let index := searchPair macros (Buffer.text (closed.drop left))
        let data ← Buffer.write closed (right + 1) [replaceChar]
        match index.bind fun index => macros[index]?.map Prod.snd with
        | none => substituteLoop junk macros fuel ((left + 1) % sizeRange) data
        | some value =>
          let (data, right) ← zbxReplaceString junk data left right value
          substituteLoop junk macros fuel ((right + 1) % sizeRange) data

/-- `http_substitute_variables`: what becomes of the memory of a text. -/
def httpSubstituteVariables (junk : ℕ → UInt8) (macros : Macros) (fuel : ℕ) (data : Bytes) :
    Option Bytes :=
  substituteLoop junk macros fuel 0 (data ++ [0])

section

variable {junk : ℕ → UInt8} {data front : Bytes}

variable (junk) in
/-- A block and its last character are replaced, and the next index is the one behind the value. -/
theorem zbxReplaceString_eq {core behind : Bytes} {last : UInt8} (value : Bytes)
    (hlast : last ≠ 0) (hbehind : ∀ c ∈ behind, c ≠ 0)
    (hdata : front ++ (core ++ [last] ++ (behind ++ [0])) <+: data)
    (hsize : front.length + value.length < sizeRange) :
  ∃ data' right, zbxReplaceString junk data front.length (front.length + core.length) value =
      some (data', right) ∧
    front ++ (value ++ (behind ++ [0])) <+: data' ∧
    (right + 1) % sizeRange = front.length + value.length
  := by
  have hcount : front.length + core.length - front.length + 1 = (core ++ [last]).length := by
    rw [List.length_append, List.length_singleton]
    omega
  have hcore : (core ++ [last]).length = core.length + 1 := by
    rw [List.length_append, List.length_singleton]
  unfold zbxReplaceString
  rw [hcount]
  dsimp only
  by_cases hsame : value.length = (core ++ [last]).length
  · obtain ⟨data', hwrite, hdata', -⟩ := Buffer.write_block hdata hsame
    refine ⟨data', front.length + core.length, ?_, hdata', ?_⟩
    · rw [if_neg (not_not.mpr hsame), hwrite]
      rfl
    · rw [Nat.add_assoc, ← hcore, ← hsame, Nat.mod_eq_of_lt hsize]
  · -- the last character of the block and what stands behind it are counted
    have htail : (Buffer.text (data.drop (front.length + core.length))).length =
        behind.length + 1 := by
      have hdrop : last :: behind ++ [0] <+: data.drop (front.length + core.length) := by
        obtain ⟨rest, rfl⟩ := hdata
        rw [← List.length_append]
        refine ⟨rest, ?_⟩
        rw [show front ++ (core ++ [last] ++ (behind ++ [0])) ++ rest =
          front ++ core ++ (last :: behind ++ [0] ++ rest) by simp, List.drop_left]
      rw [Buffer.text_of_prefix (List.forall_mem_cons.mpr ⟨hlast, hbehind⟩) hdrop,
        List.length_cons]
    let szData := front.length + core.length + (behind.length + 1) + value.length -
      (core ++ [last]).length
    have hszData : szData = front.length + value.length + behind.length := by
      simp only [szData, hcore]
      omega
    obtain ⟨grown, hgrown, hprefix, hlong⟩ : ∃ grown : Bytes,
        (if value.length > (core ++ [last]).length then
          Buffer.realloc junk data (szData + 1) else data) = grown ∧
        front ++ (core ++ [last] ++ (behind ++ [0])) <+: grown ∧ szData + 1 ≤ grown.length := by
      have hlength := hdata.length_le
      simp only [List.length_append, List.length_singleton] at hlength
      refine ⟨_, rfl, ?_, ?_⟩
      · split_ifs with hmore
        · refine Buffer.prefix_realloc junk hdata ?_
          simp only [List.length_append, List.length_singleton] at hmore ⊢
          omega
        · exact hdata
      · split_ifs with hmore
        · rw [Buffer.length_realloc]
        · rw [hcore] at hmore
          omega
    have hroom : front.length + value.length + (behind ++ [0]).length ≤ grown.length := by
      rw [List.length_append, List.length_singleton]
      omega
    obtain ⟨moved, data', hmove, hwrite, hdata', -⟩ := Buffer.replace_block hprefix hroom
    have hmoveCount : szData - front.length - value.length + 1 = (behind ++ [0]).length := by
      rw [List.length_append, List.length_singleton]
      omega
    refine ⟨data', (front.length + value.length + (sizeRange - 1)) % sizeRange, ?_, hdata', ?_⟩
    · rw [if_pos hsame, htail, hgrown, hmoveCount, hmove]
      dsimp only [Option.bind_eq_bind, Option.bind_some]
      rw [hwrite]
      rfl
    · rw [Nat.mod_add_mod, Nat.add_assoc, Nat.sub_add_cancel (by decide), Nat.add_mod_right,
        Nat.mod_eq_of_lt hsize]

variable {macros : Macros} {t : Table Bytes Bytes} {rest : Bytes}

theorem getElem?_front {c : UInt8} (hdata : front ++ (c :: rest) <+: data) :
  data[front.length]? = some c
  := by
  obtain ⟨behind, rfl⟩ := hdata
  rw [List.append_assoc, List.getElem?_append_right le_rfl, Nat.sub_self]
  rfl

theorem substituteLoop_end (hdata : front ++ [0] <+: data) (fuel : ℕ) :
  substituteLoop junk macros (fuel + 1) front.length data = some data
  := by
  rw [substituteLoop, getElem?_front hdata]
  rfl

theorem substituteLoop_skip {c : UInt8} (hdata : front ++ (c :: rest) <+: data) (hc : c ≠ 0)
    (hopen : c ≠ leftBrace) (fuel : ℕ) :
  substituteLoop junk macros (fuel + 1) front.length data =
    substituteLoop junk macros fuel ((front.length + 1) % sizeRange) data
  := by
  rw [substituteLoop, getElem?_front hdata]
  dsimp only [Option.bind_eq_bind, Option.bind_some]
  rw [if_neg hc, if_pos hopen]

/-- Without another closing brace the loop ends. -/
theorem substituteLoop_unclosed (hdata : front ++ (leftBrace :: rest ++ [0]) <+: data)
    (hrest : ∀ c ∈ rest, c ≠ 0) (hclosing : rightBrace ∉ rest) (fuel : ℕ) :
  substituteLoop junk macros (fuel + 1) front.length data = some data
  := by
  have hbehind : front ++ [leftBrace] ++ (rest ++ [0]) <+: data := by
    simpa using hdata
  have hskip : Buffer.skip (fun c => !(c = 0 || c = rightBrace)) data (front.length + 1) =
      some (front ++ [leftBrace] ++ rest).length := by
    have hfound := @Buffer.skip_found 0 rest (fun c => !(c = 0 || c = rightBrace))
      (front ++ [leftBrace]) data ?_ (by decide) hbehind
    · rw [List.length_append, List.length_singleton] at hfound
      rw [hfound, List.length_append, List.length_append, List.length_singleton]
    · intro d hd
      have hne : d ≠ rightBrace := fun heq => hclosing (heq ▸ hd)
      simp [hrest d hd, hne]
  have hend : data[(front ++ [leftBrace] ++ rest).length]? = some 0 := by
    apply @getElem?_front _ _ []
    rwa [List.append_assoc _ rest]
  rw [substituteLoop, getElem?_front hdata]
  dsimp only [Option.bind_eq_bind, Option.bind_some]
  rw [if_neg (by decide), if_neg (by decide), hskip]
  dsimp only [Option.bind_some]
  rw [if_pos (by rw [hend]; decide)]
  rfl

/-- At a token the name is searched for, and the value, if it is defined, written over it. -/
theorem substituteLoop_token (h : macros.Perm t.entries) {name behind : Bytes}
    (hdata : front ++ ((leftBrace :: name ++ [rightBrace]) ++ (behind ++ [0])) <+: data)
    (hnamezero : ∀ c ∈ name, c ≠ 0) (hname : rightBrace ∉ name) (fuel : ℕ) :
  substituteLoop junk macros (fuel + 1) front.length data =
    (t.search (leftBrace :: name ++ [rightBrace])).elim
      (substituteLoop junk macros fuel ((front.length + 1) % sizeRange) data) fun value =>
        (zbxReplaceString junk data front.length (front.length + (leftBrace :: name).length)
          value).bind fun result =>
            substituteLoop junk macros fuel ((result.2 + 1) % sizeRange) result.1
  := by
  have hskip : Buffer.skip (fun c => !(c = 0 || c = rightBrace)) data (front.length + 1) =
      some (front.length + (leftBrace :: name).length) := by
    have hprefix : front ++ [leftBrace] ++ (name ++ [rightBrace]) <+: data := by
      refine List.IsPrefix.trans ?_ hdata
      exact ⟨behind ++ [0], by simp⟩
    have hfound := @Buffer.skip_found rightBrace name (fun c => !(c = 0 || c = rightBrace))
      (front ++ [leftBrace]) data ?_ (by decide) hprefix
    · rw [List.length_append, List.length_singleton] at hfound
      rw [hfound, List.length_cons]
      congr 1
      omega
    · intro d hd
      have hne : d ≠ rightBrace := fun heq => hname (heq ▸ hd)
      simp [hnamezero d hd, hne]
  have hbrace : data[front.length + (leftBrace :: name).length]? = some rightBrace := by
    rw [← List.length_append]
    apply @getElem?_front _ _ (behind ++ [0])
    refine List.IsPrefix.trans ?_ hdata
    rw [show front ++ (leftBrace :: name ++ [rightBrace] ++ (behind ++ [0])) =
      front ++ leftBrace :: name ++ rightBrace :: (behind ++ [0]) by simp]
  obtain ⟨c, tail, hc⟩ := List.exists_cons_of_ne_nil (List.append_ne_nil_of_right_ne_nil behind
    (List.cons_ne_nil (0 : UInt8) []))
  have hblock : front ++ ((leftBrace :: name ++ [rightBrace]) ++ [c]) <+: data := by
    refine List.IsPrefix.trans ?_ hdata
    rw [List.prefix_append_right_inj, List.prefix_append_right_inj, hc]
    exact ⟨tail, rfl⟩
  have htoken : ∀ d ∈ leftBrace :: name ++ [rightBrace], d ≠ 0 := by
    intro d hd
    simp only [List.cons_append, List.mem_cons, List.mem_append, List.not_mem_nil,
      or_false] at hd
    obtain rfl | hd | rfl := hd
    · decide
    · exact hnamezero d hd
    · decide
  obtain ⟨closed, hzero, htext, hrestore⟩ := Buffer.write_restore hblock htoken
  have hright : front.length + (leftBrace :: name).length + 1 =
      front.length + (leftBrace :: name ++ [rightBrace]).length := by
    rw [List.length_append, List.length_singleton, Nat.add_assoc]
  have hget : data[front.length + (leftBrace :: name ++ [rightBrace]).length]? = some c := by
    rw [← List.length_append]
    apply @getElem?_front _ _ []
    rwa [List.append_assoc]
  have hopen : front ++ leftBrace :: (name ++ [rightBrace] ++ (behind ++ [0])) <+: data := by
    simpa using hdata
  rw [substituteLoop, getElem?_front hopen]
  dsimp only [Option.bind_eq_bind, Option.bind_some]
  rw [if_neg (by decide), if_neg (by decide), hskip]
  dsimp only [Option.bind_some]
  rw [if_neg (not_not.mpr hbrace), hright, hget]
  dsimp only [Option.bind_some]
  rw [hzero]
  dsimp only [Option.bind_some]
  rw [htext, hrestore]
  dsimp only [Option.bind_some]
  rw [value_searchPair h]
  cases t.search (leftBrace :: name ++ [rightBrace]) <;> rfl

/-- The loop does what the pass over the tokens does. -/
theorem substituteLoop_replaced (h : macros.Perm t.entries) {out : Bytes}
    (hreplaced : Tokens.Replaced leftBrace rightBrace t.search rest out)
    (hrest : ∀ c ∈ rest, c ≠ 0) (hdata : front ++ (rest ++ [0]) <+: data)
    (hsize : front.length + out.length < sizeRange) {fuel : ℕ} (hfuel : rest.length < fuel) :
  ∃ data', substituteLoop junk macros fuel front.length data = some data' ∧
    front ++ (out ++ [0]) <+: data'
  := by
  obtain ⟨fuel, rfl⟩ := Nat.exists_eq_succ_of_ne_zero (Nat.ne_zero_of_lt hfuel)
  induction hreplaced generalizing front data fuel with
  | nil => exact ⟨data, substituteLoop_end hdata fuel, hdata⟩
  | @token name behind value out hname hvalue _ ih =>
    obtain ⟨hnamezero, hbehind⟩ := List.forall_mem_append.mp (List.forall_mem_cons.mp hrest).2
    obtain ⟨-, hbehind⟩ := List.forall_mem_cons.mp hbehind
    rw [List.length_append] at hsize
    have hblock : front ++ ((leftBrace :: name ++ [rightBrace]) ++ (behind ++ [0])) <+: data := by
      simpa using hdata
    obtain ⟨data', right, hreplace, hdata', hright⟩ :=
      zbxReplaceString_eq junk value (by decide) hbehind hblock (by omega)
    rw [← List.append_assoc] at hdata'
    rw [List.length_cons, List.length_append, List.length_cons] at hfuel
    obtain ⟨fuel, rfl⟩ := Nat.exists_eq_succ_of_ne_zero (show fuel ≠ 0 by omega)
    obtain ⟨result, hloop, hresult⟩ := ih hbehind hdata'
      (by rw [List.length_append]; omega) fuel (by omega)
    refine ⟨result, ?_, ?_⟩
    · rw [substituteLoop_token h hblock hnamezero hname]
      rw [show t.search (leftBrace :: name ++ [rightBrace]) = some value from hvalue]
      rw [Option.elim_some, hreplace, Option.bind_some, hright, ← List.length_append, hloop]
    · rwa [List.append_assoc] at hresult ⊢
  | @other x rest out hother hrestReplaced ih =>
    obtain ⟨hx, htail⟩ := List.forall_mem_cons.mp hrest
    rw [List.length_cons] at hsize hfuel
    have hnext : front ++ [x] ++ (rest ++ [0]) <+: data := by
      simpa using hdata
    have hleft : (front.length + 1) % sizeRange = (front ++ [x]).length := by
      rw [List.length_append, List.length_singleton, Nat.mod_eq_of_lt (by omega)]
    -- the rest is read with the character behind what is done
    have hadvance : ∃ data', substituteLoop junk macros fuel ((front.length + 1) % sizeRange) data =
        some data' ∧ front ++ (x :: out ++ [0]) <+: data' := by
      obtain ⟨fuel, rfl⟩ := Nat.exists_eq_succ_of_ne_zero (show fuel ≠ 0 by omega)
      obtain ⟨result, hloop, hresult⟩ := ih htail hnext
        (by rw [List.length_append, List.length_singleton]; omega) fuel (by omega)
      refine ⟨result, by rw [hleft, hloop], ?_⟩
      simpa using hresult
    by_cases hopen : x = leftBrace
    · subst hopen
      by_cases hclosing : rightBrace ∈ rest
      · obtain ⟨name, behind, rfl, hname⟩ := List.eq_append_cons_of_mem hclosing
        obtain ⟨hnamezero, -⟩ := List.forall_mem_append.mp htail
        have hblock : front ++ ((leftBrace :: name ++ [rightBrace]) ++ (behind ++ [0])) <+:
            data := by
          simpa using hdata
        rw [substituteLoop_token h hblock hnamezero hname]
        rw [show t.search (leftBrace :: name ++ [rightBrace]) = none from
          hother name behind rfl hname, Option.elim_none]
        exact hadvance
      · rw [hrestReplaced.eq_of_unclosed hclosing]
        exact ⟨data, substituteLoop_unclosed hdata htail hclosing fuel, hdata⟩
    · rw [substituteLoop_skip hdata hx hopen]
      exact hadvance

end

/-- A text is read as its lines of the form `key=value`, in order and up to the first that fails;
each name then occurs once, with the value assigned to it last.  In any text the tokens that are
defined names are replaced in one pass from left to right, and the rest is left as it is. -/
theorem httpVariables_exact (sub : Bytes → Bytes → Bytes → Option Bytes) (data : Option Bytes)
    (junk : ℕ → UInt8) {macros : Macros} {t : Table Bytes Bytes} (h : macros.Perm t.entries)
    {text : Bytes} (htext : ∀ c ∈ text, c ≠ 0) (errStr : Option (Option Bytes)) :
  (∃ ret macros' errStr', ∃ t' : Table Bytes Bytes, (∀ fuel > text.length,
      httpProcessVariables sub fuel text data macros errStr = some (ret, macros', errStr')) ∧
    (ret = true ↔ ∀ line ∈ keyValues text, (assigns sub data line).isSome = true) ∧
    macros'.Perm t'.entries ∧
    ∀ name, t'.search name =
      (lastAssigned (assignments sub data (keyValues text)) name).or (t.search name)) ∧
  ((∀ pair ∈ macros, ∀ c ∈ pair.2, c ≠ 0) → ∀ out,
    Tokens.Replaced leftBrace rightBrace t.search text out → out.length < sizeRange →
    ∀ fuel > text.length, ∃ data', httpSubstituteVariables junk macros fuel text = some data' ∧
      Buffer.text data' = out)
  := by
  constructor
  · obtain ⟨hret, hperm⟩ := appendPairs_assignments sub data (keyValues text) h errStr
    refine ⟨_, _, (appendPairs sub data (keyValues text) macros errStr).2.2, _, ?_, hret, hperm,
      search_assignAll _ t⟩
    intro fuel hfuel
    exact @processLoop_eq sub data [] text htext fuel hfuel macros errStr
  · intro hvalues out hreplaced hsize fuel hfuel
    have hzero : ∀ c ∈ out, c ≠ 0 := by
      refine hreplaced.forall_mem ?_ htext
      intro token value hvalue
      exact hvalues (token, value) (h.mem_iff.mpr (Table.search_eq_some_iff.mp hvalue))
    obtain ⟨data', hloop, hdata'⟩ := @substituteLoop_replaced junk (text ++ [0]) [] macros t text h
      out hreplaced htext (List.prefix_refl _) (by simpa using hsize) fuel hfuel
    exact ⟨data', hloop, Buffer.text_of_prefix hzero hdata'⟩

/-- `{b}`. -/
def nameB : Bytes := [leftBrace, 0x62, rightBrace]

/-- The value of `{b}` is empty. -/
def emptyB : Table Bytes Bytes := Table.empty.set nameB []

/-- The text is `{b}={b}`. -/
theorem httpVariables_exact_emptyB :
  (∃ ret macros' errStr', ∃ t' : Table Bytes Bytes, (∀ fuel > (nameB ++ equalSign :: nameB).length,
      httpProcessVariables (fun _ _ _ => none) fuel (nameB ++ equalSign :: nameB) none
        emptyB.entries none = some (ret, macros', errStr')) ∧
    (ret = true ↔ ∀ line ∈ keyValues (nameB ++ equalSign :: nameB),
      (assigns (fun _ _ _ => none) none line).isSome = true) ∧
    macros'.Perm t'.entries ∧
    ∀ name, t'.search name = (lastAssigned (assignments (fun _ _ _ => none) none
      (keyValues (nameB ++ equalSign :: nameB))) name).or (emptyB.search name)) ∧
  ((∀ pair ∈ emptyB.entries, ∀ c ∈ pair.2, c ≠ 0) → ∀ out,
    Tokens.Replaced leftBrace rightBrace emptyB.search (nameB ++ equalSign :: nameB) out →
    out.length < sizeRange → ∀ fuel > (nameB ++ equalSign :: nameB).length,
    ∃ data', httpSubstituteVariables (fun _ => 0xff) emptyB.entries fuel
        (nameB ++ equalSign :: nameB) = some data' ∧
      Buffer.text data' = out)
  := httpVariables_exact (fun _ _ _ => none) none (fun _ => 0xff) (List.Perm.refl _)
    (Buffer.forall_ne_zero (by decide)) none

/-- The line `{a}=regex:x`. -/
def regexpLine : Bytes := [0x7b, 0x61, 0x7d, 0x3d, 0x72, 0x65, 0x67, 0x65, 0x78, 0x3a, 0x78]

theorem keyValues_regexpLine :
  keyValues regexpLine = [(regexpLine.take 3, regexpLine.drop 4)]
  := by decide

/-- Without a page to search in, the line is passed over, and its name does not occur. -/
theorem httpProcessVariables_regexpLine :
  ¬ ∀ (sub : Bytes → Bytes → Bytes → Option Bytes) (data : Option Bytes) (text : Bytes)
      (fuel : ℕ) (macros' : Macros), (∀ c ∈ text, c ≠ 0) →
    httpProcessVariables sub fuel text data [] none = some (true, macros', none) →
    ∀ line ∈ keyValues text, line.1 ∈ macros'.map Prod.fst
  := by
  intro hall
  have hrun : httpProcessVariables (fun _ _ _ => none) 12 regexpLine none [] none =
      some (true, [], none) := by decide
  have hline : (regexpLine.take 3, regexpLine.drop 4) ∈ keyValues regexpLine := by
    rw [keyValues_regexpLine]
    exact List.mem_singleton_self _
  have hname := hall (fun _ _ _ => none) none regexpLine 12 []
    (Buffer.forall_ne_zero (by decide)) hrun _ hline
  cases hname

end HttpMacro
