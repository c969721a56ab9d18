import Zabbix.Config.UserMacros
import Zabbix.Library.Buffer
import Zabbix.Library.Tokens

/-!
# User macros in a text

`substitute_simple_macros` edits a text in place: it looks for an opening brace and the closing
brace behind it, and writes the value of the macro over the two and what is between them.  The
length of the text and that of the allocated memory are kept by hand.  For `MACRO_TYPE_COMMON`
only user macros are looked up.
-/

open Ascii UserMacros

namespace SimpleMacros

abbrev dollar : UInt8 := 0x24

/-- The fields of the macros `MVAR_INVENTORY`. -/
def inventoryFields : List String :=
  ["TYPE", "TYPE.FULL", "NAME", "ALIAS", "OS", "OS.FULL", "OS.SHORT", "SERIALNO.A", "SERIALNO.B",
    "TAG", "ASSET.TAG", "MACADDRESS.A", "MACADDRESS.B", "HARDWARE", "HARDWARE.FULL", "SOFTWARE",
    "SOFTWARE.FULL", "SOFTWARE.APP.A", "SOFTWARE.APP.B", "SOFTWARE.APP.C", "SOFTWARE.APP.D",
    "SOFTWARE.APP.E", "CONTACT", "LOCATION", "LOCATION.LAT", "LOCATION.LON", "NOTES", "CHASSIS",
    "MODEL", "HW.ARCH", "VENDOR", "CONTRACT.NUMBER", "INSTALLER.NAME", "DEPLOYMENT.STATUS",
    "URL.A", "URL.B", "URL.C", "HOST.NETWORKS", "HOST.NETMASK", "HOST.ROUTER", "OOB.IP",
    "OOB.NETMASK", "OOB.ROUTER", "HW.DATE.PURCHASE", "HW.DATE.INSTALL", "HW.DATE.EXPIRY",
    "HW.DATE.DECOMM", "SITE.ADDRESS.A", "SITE.ADDRESS.B", "SITE.ADDRESS.C", "SITE.CITY",
    "SITE.STATE", "SITE.COUNTRY", "SITE.ZIP", "SITE.RACK", "SITE.NOTES", "POC.PRIMARY.NAME",
    "POC.PRIMARY.EMAIL", "POC.PRIMARY.PHONE.A", "POC.PRIMARY.PHONE.B", "POC.PRIMARY.CELL",
    "POC.PRIMARY.SCREEN", "POC.PRIMARY.NOTES", "POC.SECONDARY.NAME", "POC.SECONDARY.EMAIL",
    "POC.SECONDARY.PHONE.A", "POC.SECONDARY.PHONE.B", "POC.SECONDARY.CELL",
    "POC.SECONDARY.SCREEN", "POC.SECONDARY.NOTES"]

/-- The fields of the deprecated macros `PROFILE`. -/
def profileFields : List String :=
  ["DEVICETYPE", "NAME", "OS", "SERIALNO", "TAG", "MACADDRESS", "HARDWARE", "SOFTWARE", "CONTACT",
    "LOCATION", "NOTES"]

def otherMacros : List String :=
  ["HOST.HOST", "HOST.NAME", "HOSTNAME", "PROXY.NAME", "HOST.CONN", "HOST.DNS", "HOST.IP",
    "IPADDRESS", "ITEM.ID", "ITEM.NAME", "ITEM.NAME.ORIG", "ITEM.DESCRIPTION", "ITEM.KEY",
    "ITEM.KEY.ORIG", "TRIGGER.KEY", "ITEM.LASTVALUE", "ITEM.STATE", "ITEM.VALUE", "ITEM.LOG.DATE",
    "ITEM.LOG.TIME", "ITEM.LOG.AGE", "ITEM.LOG.SOURCE", "ITEM.LOG.SEVERITY", "ITEM.LOG.NSEVERITY",
    "ITEM.LOG.EVENTID", "NODE.ID", "NODE.NAME"]

/-- The names in `ex_macros`, without the braces. -/
def exMacroNames : List String :=
  inventoryFields.map ("INVENTORY." ++ ·) ++ profileFields.map ("PROFILE." ++ ·) ++ otherMacros

/-- `ex_macros`. -/
def exMacros : List Bytes :=
  exMacroNames.map fun name => leftBrace :: (bytes name.toList ++ [rightBrace])

/-- `zbx_mismatch`: the first position where the texts differ. -/
def zbxMismatch : Bytes → Bytes → Option ℕ
  | [], [] => none
  | c :: s, d :: t => if c = d then (zbxMismatch s t).map (· + 1) else some 0
  | _, _ => some 0

/-- Whether a text between braces is a macro with a digit in front of the closing brace. -/
def isIndexed (bl m : Bytes) : Bool :=
  match zbxMismatch m bl with
  | some diff => m[diff]? = some rightBrace ∧ diff + 2 = bl.length
  | none => false

/-- The text `m` that is looked up for a text `bl` between braces. -/
def macroName (bl : Bytes) : Bytes :=
  match bl[bl.length - 2]? with
  | some c =>
    if 0x31 ≤ c ∧ c ≤ 0x39 then (exMacros.find? (isIndexed bl)).getD bl else bl
  | none => bl

/-- `DCget_user_macro`, where nothing stands in `replace_to` before; the recursion over the linked
templates has at most `levels` levels. -/
def dcGetUserMacro (cache : MacroCache) (levels : ℕ) (hostids : List UInt64)
    (macroName : Bytes) : Option (Option Bytes) :=
  (getHostMacro cache macroName levels hostids).map fun
    | some value => some value
    | none => cache.gmacros macroName

/-- `*data`, whose allocated length is `data_alloc`, with `data_len` and the position `p`. -/
structure Edit where
  data : Bytes
  dataLen : ℕ
  p : ℕ

/-- Writes a value over the `szM` characters from `bl` on; a move or a write outside the allocated
memory has no result. -/
def replaceAt (junk : ℕ → UInt8) (s : Edit) (bl szM : ℕ) (replaceTo : Bytes) : Option Edit := do
  let szR := replaceTo.length
  let s ←
    if szM ≠ szR then do
      let dataLen := s.dataLen + szR - szM
      let data :=
        if dataLen > s.data.length then
          Buffer.realloc junk s.data (Buffer.doubled s.data.length (dataLen - 1))
        else s.data
      let data ← memmove data ⟨bl + szR, bl + szM, dataLen - bl - szR⟩
      some { s with data := data, dataLen := dataLen }
    else some s
  let data ← Buffer.write s.data bl replaceTo
  return { s with data := data, p := bl + szR }

/-- The search for the text that replaces a macro; none but user macros are looked up. -/
def replaceUser (lookup : Bytes → Option (Option Bytes)) (m : Bytes) : Option (Option Bytes) :=
  if [leftBrace, dollar] <+: m then lookup m else some none

/-- The loop of `substitute_simple_macros` for `MACRO_TYPE_COMMON`; what is looked up has no result
when `DCget_user_macro` does not return. -/
def loop (junk : ℕ → UInt8) (lookup : Bytes → Option (Option Bytes)) : ℕ → Edit → Option Bytes
  | 0, _ => none
  | fuel + 1, s => do
    match ← Buffer.strchr s.data s.p leftBrace with
    | none => return s.data
    | some bl =>
      match ← Buffer.strchr s.data bl rightBrace with
      | none => return s.data
      | some brace =>
        let br := brace + 1
        let c ← s.data[br]?
        let closed ← Buffer.write s.data br [0]
        let m := macroName (Buffer.text (closed.drop bl))
        let replaceTo ← replaceUser lookup m
        let data ← Buffer.write closed br [c]
        match replaceTo with
        | some value =>
          let s ← replaceAt junk { s with data := data } bl (br - bl) value
          loop junk lookup fuel s
        | none => loop junk lookup fuel { s with data := data, p := bl + 1 }

/-- `substitute_simple_macros` for `MACRO_TYPE_COMMON`: what becomes of the memory of a text. -/
def substituteSimpleMacros (junk : ℕ → UInt8) (lookup : Bytes → Option (Option Bytes))
    (fuel : ℕ) (data : Bytes) : Option Bytes :=
  if data = [] then some [0] else loop junk lookup fuel ⟨data ++ [0], data.length + 1, 0⟩

/-! ### The name looked up -/

/-- The value of a text between braces. -/
def userMacro (resolved : Bytes → Option Bytes) (bl : Bytes) : Option Bytes :=
  if [leftBrace, dollar] <+: bl then resolved bl else none

theorem exMacroNames_head {name : String} (h : name ∈ exMacroNames) :
  ∃ c ∈ ['I', 'P', 'H', 'T', 'N'], ∃ rest, name.toList = c :: rest
  := by
  simp only [exMacroNames, List.mem_append, List.mem_map] at h
  obtain (⟨field, -, rfl⟩ | ⟨field, -, rfl⟩) | hother := h
  · exact ⟨'I', by simp, "NVENTORY.".toList ++ field.toList, by simp⟩
  · exact ⟨'P', by simp, "ROFILE.".toList ++ field.toList, by simp⟩
  · revert name
    simp [otherMacros]

theorem exMacros_head {m : Bytes} (h : m ∈ exMacros) :
  ∃ c rest, m = leftBrace :: c :: rest ∧ c ≠ dollar ∧ c ≠ rightBrace
  := by
  obtain ⟨name, hname, rfl⟩ := List.mem_map.mp h
  obtain ⟨c, hc, rest, hrest⟩ := exMacroNames_head hname
  have hletters : (['I', 'P', 'H', 'T', 'N'].all fun c =>
      c.toUInt8 != dollar && c.toUInt8 != rightBrace) = true := by decide
  have hletter := List.all_eq_true.mp hletters c hc
  rw [Bool.and_eq_true, bne_iff_ne, bne_iff_ne] at hletter
  refine ⟨c.toUInt8, bytes rest ++ [rightBrace], ?_, hletter⟩
  rw [hrest]
  rfl

/-- A macro with a digit begins with the macro, and so is no user macro. -/
theorem not_user_of_isIndexed {bl m : Bytes} (hm : m ∈ exMacros) (h : isIndexed bl m = true) :
  ¬ [leftBrace, dollar] <+: m ∧ ¬ [leftBrace, dollar] <+: bl
  := by
  obtain ⟨c, rest, rfl, hdollar, hbrace⟩ := exMacros_head hm
  have hnot : ∀ rest', ¬ [leftBrace, dollar] <+: leftBrace :: c :: rest' := by
    intro rest' hprefix
    have htail := (List.cons_prefix_cons.mp hprefix).2
    exact hdollar (List.cons_prefix_cons.mp htail).1.symm
  refine ⟨hnot rest, ?_⟩
  rw [isIndexed] at h
  rintro ⟨behind, rfl⟩
  have hmismatch : zbxMismatch (leftBrace :: c :: rest) ([leftBrace, dollar] ++ behind) =
      some 1 := by
    simp only [List.cons_append, zbxMismatch, if_true, if_neg hdollar, Option.map_some]
  rw [hmismatch] at h
  simp only [List.getElem?_cons_succ, List.getElem?_cons_zero, Option.some.injEq,
    decide_eq_true_eq] at h
  exact hbrace h.1

theorem replaceUser_macroName (lookup : Bytes → Option (Option Bytes)) (bl : Bytes) :
  replaceUser lookup (macroName bl) = replaceUser lookup bl
  := by
  have hsame : macroName bl = bl ∨
      ¬ [leftBrace, dollar] <+: macroName bl ∧ ¬ [leftBrace, dollar] <+: bl := by
    unfold macroName
    split
    · split
      · cases hfind : exMacros.find? (isIndexed bl) with
        | none => exact .inl rfl
        | some m =>
          exact .inr (not_user_of_isIndexed (List.mem_of_find?_eq_some hfind)
            (List.find?_some hfind))
      · exact .inl rfl
    · exact .inl rfl
  obtain heq | ⟨hm, hbl⟩ := hsame
  · rw [heq]
  · rw [replaceUser, replaceUser, if_neg hm, if_neg hbl]

/-! ### Editing in place -/

/-- The memory holds what is done and what is still to be read, with a zero byte behind. -/
structure Edit.Holds (s : Edit) (front rest : Bytes) : Prop where
  begins : front ++ (rest ++ [0]) <+: s.data
  dataLen : s.dataLen = front.length + rest.length + 1
  p : s.p = front.length

section

variable {junk : ℕ → UInt8} {s : Edit} {front rest : Bytes}

theorem Edit.Holds.dataLen_le (h : s.Holds front rest) :
  s.dataLen ≤ s.data.length
  := by
  have hlength := h.begins.length_le
  simp only [List.length_append, List.length_singleton] at hlength
  rw [h.dataLen]
  omega

/-- What stands at the position is passed over. -/
theorem Edit.Holds.advance {x : UInt8} (h : s.Holds front (x :: rest)) :
  Edit.Holds { s with p := front.length + 1 } (front ++ [x]) rest
  where
  begins := by
    have hbegins := h.begins
    rwa [List.cons_append, ← List.singleton_append, ← List.append_assoc] at hbegins
  dataLen := by
    rw [h.dataLen, List.length_append, List.length_cons, List.length_singleton]
    omega
  p := by rw [List.length_append, List.length_singleton]

variable (junk) in
/-- The value of a token is written over it, whatever the lengths of the two are. -/
theorem replaceAt_holds {token behind : Bytes} (h : s.Holds front (token ++ behind))
    (value : Bytes) :
  ∃ s', replaceAt junk s front.length token.length value = some s' ∧
    s'.Holds (front ++ value) behind
  := by
  have hbegins := h.begins
  have hdataLen := h.dataLen
  rw [List.append_assoc] at hbegins
  rw [List.length_append] at hdataLen
  by_cases hsize : token.length = value.length
  · obtain ⟨data, hwrite, hdata, -⟩ := Buffer.write_block hbegins hsize.symm
    refine ⟨{ s with data := data, p := front.length + value.length }, ?_, ?_, ?_, ?_⟩
    · simp [replaceAt, hsize, hwrite]
    · rwa [List.append_assoc]
    · rw [hdataLen, List.length_append, hsize]
      omega
    · rw [List.length_append]
  · -- the memory is long enough after the reallocation, if there is one
    have hsmall := h.dataLen_le
    let dataLen := s.dataLen + value.length - token.length
    have hlen : dataLen = front.length + value.length + behind.length + 1 := by
      simp only [dataLen, hdataLen]
      omega
    obtain ⟨grown, hgrown, hprefix, hlong⟩ : ∃ grown : Bytes,
        (if dataLen > s.data.length then
          Buffer.realloc junk s.data (Buffer.doubled s.data.length (dataLen - 1))
        else s.data) = grown ∧ s.data <+: grown ∧ dataLen ≤ grown.length := by
      obtain ⟨hneed, hle⟩ := @Buffer.lt_doubled s.data.length (by omega) (dataLen - 1)
      refine ⟨_, rfl, ?_, ?_⟩
      · split_ifs
        · exact Buffer.prefix_realloc junk (List.prefix_refl _) hle
        · exact List.prefix_refl _
      · split_ifs with hmore
        · rw [Buffer.length_realloc]
          omega
        · exact Nat.le_of_not_lt hmore
    have hroom : front.length + value.length + (behind ++ [0]).length ≤ grown.length := by
      rw [List.length_append, List.length_singleton]
      omega
    obtain ⟨moved, data, hmove, hwrite, hdata, -⟩ :=
      Buffer.replace_block (hbegins.trans hprefix) hroom
    have hcount : dataLen - front.length - value.length = (behind ++ [0]).length := by
      rw [List.length_append, List.length_singleton]
      omega
    refine ⟨⟨data, dataLen, front.length + value.length⟩, ?_, ?_, ?_, ?_⟩
    · rw [replaceAt, if_pos hsize]
      dsimp only
      rw [hgrown, hcount, hmove]
      dsimp only [Option.bind_eq_bind, Option.bind_some]
      rw [hwrite]
      rfl
    · rwa [List.append_assoc]
    · rw [List.length_append]
      exact hlen
    · rw [List.length_append]

variable {lookup : Bytes → Option (Option Bytes)}

/-- A character that opens no token changes only the position. -/
theorem loop_skip {x : UInt8} (h : s.Holds front (x :: rest)) (hx : x ≠ leftBrace)
    (hzero : x ≠ 0) (fuel : ℕ) :
  loop junk lookup fuel s = loop junk lookup fuel { s with p := front.length + 1 }
  := by
  cases fuel with
  | zero => rfl
  | succ fuel =>
    have hskip : Buffer.strchr s.data s.p leftBrace =
        Buffer.strchr s.data (front.length + 1) leftBrace := by
      rw [h.p]
      refine @Buffer.strchr_append _ [x] _ _ (by simpa using hx.symm) (by simpa using hzero) ?_
      refine List.IsPrefix.trans ?_ h.begins
      rw [List.cons_append, List.prefix_append_right_inj]
      exact ⟨rest ++ [0], rfl⟩
    rw [loop, loop, hskip]
    rfl

/-- Without another closing brace the loop ends. -/
theorem loop_unclosed (h : s.Holds front (leftBrace :: rest)) (hrest : ∀ c ∈ rest, c ≠ 0)
    (hclosing : rightBrace ∉ rest) (fuel : ℕ) :
  loop junk lookup (fuel + 1) s = some s.data
  := by
  have hopen : Buffer.strchr s.data front.length leftBrace = some (some front.length) := by
    refine Buffer.strchr_found (List.not_mem_nil) (by simp) (List.IsPrefix.trans ?_ h.begins)
    rw [List.cons_append, List.prefix_append_right_inj]
    exact ⟨rest ++ [0], rfl⟩
  have hclose : Buffer.strchr s.data front.length rightBrace = some none := by
    refine Buffer.strchr_missing ?_ (by decide) ?_ h.begins
    · exact List.not_mem_cons_of_ne_of_not_mem (by decide) hclosing
    · exact List.forall_mem_cons.mpr ⟨by decide, hrest⟩
  rw [loop, h.p, hopen]
  dsimp only [Option.bind_eq_bind, Option.bind_some]
  rw [hclose]
  rfl

theorem loop_end (h : s.Holds front []) (fuel : ℕ) :
  loop junk lookup (fuel + 1) s = some s.data
  := by
  have hopen : Buffer.strchr s.data front.length leftBrace = some none :=
    Buffer.strchr_missing List.not_mem_nil (by decide) (by simp) h.begins
  rw [loop, h.p, hopen]
  rfl

/-- At a token its name is looked up, and the value, if there is one, is written over it. -/
theorem loop_token {name behind : Bytes}
    (h : s.Holds front (leftBrace :: (name ++ rightBrace :: behind)))
    (hrest : ∀ c ∈ name, c ≠ 0) (hname : rightBrace ∉ name) {replaceTo : Option Bytes}
    (hlookup : replaceUser lookup (leftBrace :: (name ++ [rightBrace])) = some replaceTo)
    (fuel : ℕ) :
  loop junk lookup (fuel + 1) s =
    replaceTo.elim (loop junk lookup fuel { s with p := front.length + 1 }) fun value =>
      (replaceAt junk s front.length (leftBrace :: (name ++ [rightBrace])).length value).bind
        (loop junk lookup fuel)
  := by
  have hopen : Buffer.strchr s.data front.length leftBrace = some (some front.length) := by
    refine Buffer.strchr_found (List.not_mem_nil) (by simp) (List.IsPrefix.trans ?_ h.begins)
    rw [List.cons_append, List.prefix_append_right_inj]
    exact ⟨name ++ rightBrace :: behind ++ [0], rfl⟩
  have hclose : Buffer.strchr s.data front.length rightBrace =
      some (some (front.length + (leftBrace :: name).length)) := by
    refine Buffer.strchr_found ?_ ?_ (List.IsPrefix.trans ?_ h.begins)
    · exact List.not_mem_cons_of_ne_of_not_mem (by decide) hname
    · exact List.forall_mem_cons.mpr ⟨by decide, hrest⟩
    · rw [List.prefix_append_right_inj]
      exact ⟨behind ++ [0], by simp⟩
  obtain ⟨c, tail, hc⟩ := List.exists_cons_of_ne_nil (List.append_ne_nil_of_right_ne_nil behind
    (List.cons_ne_nil (0 : UInt8) []))
  -- the zero byte behind the token for the time of the search
  have hblock : front ++ ((leftBrace :: (name ++ [rightBrace])) ++ [c]) <+: s.data := by
    refine List.IsPrefix.trans ?_ h.begins
    rw [List.prefix_append_right_inj]
    refine ⟨tail, ?_⟩
    simp [hc]
  have htoken : ∀ d ∈ leftBrace :: (name ++ [rightBrace]), d ≠ 0 := by
    intro d hd
    simp only [List.mem_cons, List.mem_append, List.not_mem_nil, or_false] at hd
    obtain rfl | hd | rfl := hd
    · decide
    · exact hrest d hd
    · decide
  obtain ⟨closed, hzero, htext, hrestore⟩ := Buffer.write_restore hblock htoken
  have hbr : front.length + (leftBrace :: name).length + 1 =
      front.length + (leftBrace :: (name ++ [rightBrace])).length := by
    simp only [List.length_cons, List.length_append, List.length_nil]
    omega
  have hget : s.data[front.length + (leftBrace :: (name ++ [rightBrace])).length]? = some c := by
    obtain ⟨rest, hdata⟩ := hblock
    rw [← hdata, ← List.append_assoc, ← List.length_append]
    simp
  rw [loop, h.p, hopen]
  dsimp only [Option.bind_eq_bind, Option.bind_some]
  rw [hclose]
  dsimp only [Option.bind_eq_bind, Option.bind_some]
  rw [hbr, hget]
  dsimp only [Option.bind_some]
  rw [hzero]
  dsimp only [Option.bind_some]
  rw [htext, replaceUser_macroName, hlookup]
  dsimp only [Option.bind_some]
  rw [hrestore, Nat.add_sub_cancel_left, ← h.p]
  cases replaceTo <;> rfl

theorem replaceUser_eq {resolved : Bytes → Option Bytes} {m : Bytes}
    (h : lookup m = some (resolved m)) :
  replaceUser lookup m = some (userMacro resolved m)
  := by
  rw [replaceUser, userMacro, h]
  split_ifs <;> rfl

/-- The loop does what the pass over the tokens does. -/
theorem loop_replaced {resolved : Bytes → Option Bytes} {out : Bytes}
    (hreplaced : Tokens.Replaced leftBrace rightBrace (userMacro resolved) rest out)
    (hlookup : ∀ m, m <:+: rest → lookup m = some (resolved m)) (hrest : ∀ c ∈ rest, c ≠ 0)
    (h : s.Holds front rest) {fuel : ℕ} (hfuel : rest.length < fuel) :
  ∃ data, loop junk lookup fuel s = some data ∧ front ++ (out ++ [0]) <+: data
  := by
  induction hreplaced generalizing front s fuel with
  | nil =>
    obtain ⟨fuel, rfl⟩ := Nat.exists_eq_succ_of_ne_zero (Nat.ne_zero_of_lt hfuel)
    exact ⟨s.data, loop_end h fuel, h.begins⟩
  | @token name behind value out hname hvalue _ ih =>
    obtain ⟨fuel, rfl⟩ := Nat.exists_eq_succ_of_ne_zero (Nat.ne_zero_of_lt hfuel)
    obtain ⟨hnamezero, hbehind⟩ := List.forall_mem_append.mp (List.forall_mem_cons.mp hrest).2
    have hsplit : leftBrace :: (name ++ rightBrace :: behind) =
        leftBrace :: (name ++ [rightBrace]) ++ behind := by
      simp
    have hfound : replaceUser lookup (leftBrace :: (name ++ [rightBrace])) = some (some value) := by
      rw [replaceUser_eq (hlookup _ (by rw [hsplit]; exact (List.prefix_append _ _).isInfix)),
        hvalue]
    rw [loop_token h hnamezero hname hfound, Option.elim_some]
    rw [hsplit] at h
    obtain ⟨s', hreplace, hholds⟩ := replaceAt_holds junk h value
    have hshorter : behind.length < fuel := by
      simp only [List.length_cons, List.length_append] at hfuel
      omega
    have hbehindLookup : ∀ m, m <:+: behind → lookup m = some (resolved m) := by
      intro m hm
      apply hlookup
      rw [hsplit]
      exact hm.trans (List.suffix_append _ _).isInfix
    obtain ⟨data, hloop, hdata⟩ :=
      ih hbehindLookup (List.forall_mem_cons.mp hbehind).2 hholds hshorter
    refine ⟨data, ?_, ?_⟩
    · rw [hreplace, Option.bind_some, hloop]
    · rwa [List.append_assoc] at hdata ⊢
  | @other x rest out hother hrestReplaced ih =>
    obtain ⟨hx, htail⟩ := List.forall_mem_cons.mp hrest
    have hrestLookup : ∀ m, m <:+: rest → lookup m = some (resolved m) :=
      fun m hm => hlookup m (hm.trans (List.suffix_cons x rest).isInfix)
    -- the rest is read with the character behind what is done
    have hadvance : ∀ {fuel}, rest.length < fuel →
        ∃ data, loop junk lookup fuel { s with p := front.length + 1 } = some data ∧
          front ++ (x :: out ++ [0]) <+: data := by
      intro fuel hfuel
      obtain ⟨data, hloop, hdata⟩ := ih hrestLookup htail h.advance hfuel
      refine ⟨data, hloop, ?_⟩
      rwa [List.append_assoc, List.singleton_append, ← List.cons_append] at hdata
    rw [List.length_cons] at hfuel
    by_cases hopen : x = leftBrace
    · subst hopen
      obtain ⟨fuel, rfl⟩ := Nat.exists_eq_succ_of_ne_zero (Nat.ne_zero_of_lt hfuel)
      by_cases hclosing : rightBrace ∈ rest
      · obtain ⟨name, behind, rfl, hname⟩ := List.eq_append_cons_of_mem hclosing
        obtain ⟨hnamezero, -⟩ := List.forall_mem_append.mp htail
        have hfound : replaceUser lookup (leftBrace :: (name ++ [rightBrace])) = some none := by
          rw [replaceUser_eq (hlookup _ ⟨[], behind, by simp⟩), hother name behind rfl hname]
        rw [loop_token h hnamezero hname hfound, Option.elim_none]
        exact hadvance (Nat.lt_of_succ_lt_succ hfuel)
      · rw [loop_unclosed h htail hclosing, hrestReplaced.eq_of_unclosed hclosing]
        exact ⟨s.data, rfl, h.begins⟩
    · rw [loop_skip h hopen hx]
      exact hadvance (Nat.lt_of_succ_lt hfuel)

end

/-! ### What the caches resolve -/

/-- `DCget_user_macro` returns, with the value in `replace_to` or with nothing there. -/
def Returns (cache : MacroCache) (hostids : List UInt64) (macroName : Bytes)
    (replaceTo : Option Bytes) : Prop :=
  ∃ levels, dcGetUserMacro cache levels hostids macroName = some replaceTo

theorem dcGetUserMacro_mono {cache : MacroCache} {levels levels' : ℕ} {hostids : List UInt64}
    {macroName : Bytes} {replaceTo : Option Bytes}
    (h : dcGetUserMacro cache levels hostids macroName = some replaceTo) (hle : levels ≤ levels') :
  dcGetUserMacro cache levels' hostids macroName = some replaceTo
  := by
  obtain ⟨result, hresult, rfl⟩ := Option.map_eq_some_iff.mp h
  rw [dcGetUserMacro, getHostMacro_mono hresult hle]
  rfl

/-- Enough levels for the macros that can be named in a text. -/
theorem exists_levels {cache : MacroCache} {hostids : List UInt64}
    {resolved : Bytes → Option Bytes}
    (hresolved : ∀ macroName, Returns cache hostids macroName (resolved macroName))
    (names : List Bytes) :
  ∃ bound, ∀ levels ≥ bound, ∀ macroName ∈ names,
    dcGetUserMacro cache levels hostids macroName = some (resolved macroName)
  := by
  induction names with
  | nil => exact ⟨0, fun _ _ _ hmem => absurd hmem List.not_mem_nil⟩
  | cons name names ih =>
    obtain ⟨bound, hbound⟩ := ih
    obtain ⟨levels, hlevels⟩ := hresolved name
    refine ⟨max levels bound, fun levels' hle => List.forall_mem_cons.mpr ⟨?_, ?_⟩⟩
    · exact dcGetUserMacro_mono hlevels (le_trans (le_max_left _ _) hle)
    · exact hbound levels' (le_trans (le_max_right _ _) hle)

/-- For `MACRO_TYPE_COMMON` one pass from left to right replaces every token that
`DCget_user_macro` resolves, and leaves the rest of the text as it is.  Nothing is written outside
the allocated memory, and the loop goes round at most once for every character and once more. -/
theorem substituteSimpleMacros_common {cache : MacroCache} {hostid : Option UInt64}
    {resolved : Bytes → Option Bytes}
    (hresolved : ∀ macroName, Returns cache hostid.toList macroName (resolved macroName))
    (hvalues : ∀ macroName value, resolved macroName = some value → ∀ c ∈ value, c ≠ 0)
    (junk : ℕ → UInt8) {text : Bytes} (htext : ∀ c ∈ text, c ≠ 0) :
  ∃ bound, ∀ levels ≥ bound, ∀ fuel > text.length, ∃ data,
    substituteSimpleMacros junk (dcGetUserMacro cache levels hostid.toList) fuel text =
      some data ∧
    ∀ out, Tokens.Replaced leftBrace rightBrace (userMacro resolved) text out ↔
      out = Buffer.text data
  := by
  obtain ⟨out, hout⟩ := Tokens.exists_replaced leftBrace rightBrace (userMacro resolved) text
  obtain ⟨bound, hbound⟩ := exists_levels hresolved (text.tails.flatMap List.inits)
  refine ⟨bound, fun levels hlevels fuel hfuel => ?_⟩
  have hlookup : ∀ m, m <:+: text →
      dcGetUserMacro cache levels hostid.toList m = some (resolved m) := by
    intro m hm
    obtain ⟨behind, hprefix, hsuffix⟩ := List.infix_iff_prefix_suffix.mp hm
    apply hbound levels hlevels
    rw [List.mem_flatMap]
    exact ⟨behind, (List.mem_tails _ _).mpr hsuffix, (List.mem_inits _ _).mpr hprefix⟩
  have hzero : ∀ c ∈ out, c ≠ 0 := by
    refine hout.forall_mem ?_ htext
    intro token value hvalue
    rw [userMacro] at hvalue
    split_ifs at hvalue
    exact hvalues token value hvalue
  obtain ⟨data, hdata, hprefix⟩ : ∃ data,
      substituteSimpleMacros junk (dcGetUserMacro cache levels hostid.toList) fuel text =
        some data ∧ out ++ [0] <+: data := by
    rw [substituteSimpleMacros]
    split_ifs with hempty
    · subst hempty
      rw [hout.eq_of_unclosed List.not_mem_nil]
      exact ⟨[0], rfl, List.prefix_refl _⟩
    · have hholds : Edit.Holds ⟨text ++ [0], text.length + 1, 0⟩ [] text :=
        ⟨List.prefix_refl _, by simp, rfl⟩
      exact loop_replaced hout hlookup htext hholds hfuel
  refine ⟨data, hdata, fun out' => ?_⟩
  rw [Buffer.text_of_prefix hzero hprefix]
  constructor
  · exact fun hout' => hout'.unique hout
  · rintro rfl
    exact hout

/-- `{$A}`. -/
def nameA : Bytes := [leftBrace, dollar, 0x41, rightBrace]

/-- The value of the global macro `{$A}` names it once more. -/
def selfNaming : MacroCache where
  hmacros _ _ := none
  htmpls _ := none
  gmacros macroName := if macroName = nameA then some (nameA ++ [0x3b]) else none

/-- `{{$A}{$B}`. -/
def nestedNames : Bytes := leftBrace :: nameA ++ [leftBrace, dollar, 0x42, rightBrace]

theorem substituteSimpleMacros_selfNaming :
  ∃ bound, ∀ levels ≥ bound, ∀ fuel > nestedNames.length, ∃ data,
    substituteSimpleMacros (fun _ => 0xff)
        (dcGetUserMacro selfNaming levels (none : Option UInt64).toList) fuel nestedNames =
      some data ∧
    ∀ out, Tokens.Replaced leftBrace rightBrace (userMacro selfNaming.gmacros) nestedNames out ↔
      out = Buffer.text data
  := by
  have hresolved : ∀ macroName, Returns selfNaming (none : Option UInt64).toList macroName
      (selfNaming.gmacros macroName) := fun _ => ⟨1, rfl⟩
  have hvalues : ∀ macroName value, selfNaming.gmacros macroName = some value →
      ∀ c ∈ value, c ≠ 0 := by
    intro macroName value hvalue
    simp only [selfNaming, Option.ite_none_right_eq_some, Option.some.injEq] at hvalue
    rw [← hvalue.2]
    exact Buffer.forall_ne_zero (by decide)
  have htext : ∀ c ∈ nestedNames, c ≠ 0 := Buffer.forall_ne_zero (by decide)
  exact substituteSimpleMacros_common hresolved hvalues (fun _ => 0xff) htext

end SimpleMacros
