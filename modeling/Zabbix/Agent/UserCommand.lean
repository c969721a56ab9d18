import Zabbix.Agent.UserParameter

/-!
# The command that is run

`replace_param` takes what it has appended off the room that is left, while `zbx_strlcat` counts
what is in the buffer already.  The text in front of a piece is therefore counted twice, and a
command is cut in the middle although its expansion fits the buffer.
-/

open Ascii Params

namespace UserParameter

/-! ### Appending -/

/-- Texts appended one after another, where `k` bytes are left. -/
def appendAll (out : Bytes) (k : ℕ) : List Bytes → Bytes
  | [] => out
  | text :: texts => appendAll (zbxStrlcat out text k) (k - text.length) texts

/-- The length of the last text that is not empty. -/
def lastLength : List Bytes → ℕ
  | [] => 0
  | text :: texts => if texts.flatten = [] then text.length else lastLength texts

theorem lastLength_le (texts : List Bytes) :
  lastLength texts ≤ texts.flatten.length
  := by
  induction texts with
  | nil => exact Nat.le_refl 0
  | cons text texts ih =>
    rw [lastLength, List.flatten_cons, List.length_append]
    split_ifs
    · exact Nat.le_add_right _ _
    · exact Nat.le_add_left_of_le ih

theorem appendAll_append (out : Bytes) (k : ℕ) (texts texts' : List Bytes) :
  appendAll out k (texts ++ texts') =
    appendAll (appendAll out k texts) (k - texts.flatten.length) texts'
  := by
  induction texts generalizing out k with
  | nil => rfl
  | cons text texts ih =>
    rw [List.cons_append, appendAll, ih, appendAll, List.flatten_cons, List.length_append,
      Nat.sub_sub]

theorem zbxStrlcat_part (dst src : Bytes) (siz : ℕ) :
  ∃ part, part <+: src ∧ zbxStrlcat dst src siz = dst ++ part
  := by
  rw [zbxStrlcat]
  split_ifs
  · exact ⟨[], List.nil_prefix, (List.append_nil dst).symm⟩
  · exact ⟨_, List.take_prefix _ _, rfl⟩

/-- Of each text a part from its beginning is appended. -/
theorem appendAll_parts (out : Bytes) (k : ℕ) (texts : List Bytes) :
  ∃ parts, List.Forall₂ (· <+: ·) parts texts ∧ appendAll out k texts = out ++ parts.flatten
  := by
  induction texts generalizing out k with
  | nil => exact ⟨[], .nil, (List.append_nil out).symm⟩
  | cons text texts ih =>
    obtain ⟨part, hpart, hstrlcat⟩ := zbxStrlcat_part out text k
    obtain ⟨parts, hparts, happend⟩ := ih (out ++ part) (k - text.length)
    refine ⟨part :: parts, .cons hpart hparts, ?_⟩
    rw [appendAll, hstrlcat, happend, List.flatten_cons, List.append_assoc]

theorem zbxStrlcat_whole {dst src : Bytes} {siz : ℕ} (h : dst.length + src.length < siz) :
  zbxStrlcat dst src siz = dst ++ src
  := by
  rw [zbxStrlcat, if_neg (by omega), List.take_of_length_le (by omega)]

/-- Where a text is cut, no room is left for what follows. -/
theorem zbxStrlcat_cut {dst src : Bytes} {siz : ℕ} (hsrc : src ≠ [])
    (h : siz ≤ dst.length + src.length) :
  siz - src.length ≤ (zbxStrlcat dst src siz).length ∧
    (zbxStrlcat dst src siz).length < dst.length + src.length
  := by
  have hlength := List.length_pos_iff.mpr hsrc
  rw [zbxStrlcat]
  split_ifs
  · omega
  · rw [List.length_append, List.length_take]
    omega

theorem appendAll_full {out : Bytes} {k : ℕ} (h : k ≤ out.length) (texts : List Bytes) :
  appendAll out k texts = out
  := by
  induction texts generalizing k with
  | nil => rfl
  | cons text texts ih => rw [appendAll, zbxStrlcat, if_pos h, ih (by omega)]

/-- Nothing is cut exactly when the texts, and once more what stands in front of the last one that
is not empty, have room. -/
theorem appendAll_eq_iff (out : Bytes) (k : ℕ) (texts : List Bytes) :
  appendAll out k texts = out ++ texts.flatten ↔
    texts.flatten = [] ∨ out.length + 2 * texts.flatten.length < k + lastLength texts
  := by
  induction texts generalizing out k with
  | nil => simp [appendAll]
  | cons text texts ih =>
    rw [appendAll, List.flatten_cons, lastLength]
    by_cases hempty : text = []
    · subst hempty
      have hout : zbxStrlcat out [] k = out := by
        rw [zbxStrlcat]
        split_ifs <;> simp
      rw [hout, List.nil_append, List.length_nil, Nat.sub_zero, ih]
      by_cases hrest : texts.flatten = []
      · simp [hrest]
      · rw [if_neg hrest]
    · have hlast := lastLength_le texts
      have hne : ¬text ++ texts.flatten = [] := fun h => hempty (List.append_eq_nil_iff.mp h).1
      have hpos := List.length_pos_iff.mpr hempty
      rw [or_iff_right hne, List.length_append]
      by_cases hfits : out.length + text.length < k
      · rw [zbxStrlcat_whole hfits, ← List.append_assoc, ih, List.length_append]
        by_cases hrest : texts.flatten = []
        · rw [if_pos hrest, hrest, List.length_nil]
          simp only [true_or, true_iff]
          omega
        · rw [if_neg hrest, or_iff_right hrest]
          omega
      · obtain ⟨hfull, hcut⟩ := zbxStrlcat_cut hempty (Nat.not_lt.mp hfits)
        rw [appendAll_full hfull]
        refine iff_of_false (fun h => ?_) ?_
        · rw [h, List.length_append, List.length_append] at hcut
          omega
        · split_ifs with hrest
          · rw [hrest, List.length_nil]
            omega
          · omega

/-! ### The check -/

theorem zbxCheckUserParameter_eq_none_iff (param : Bytes) (maxErrorLen : ℕ) :
  zbxCheckUserParameter false param maxErrorLen = none ↔ Clean param
  := by
  simp [zbxCheckUserParameter, Clean]

/-- The error of the check that is made of a piece. -/
def Piece.error (param : ℕ → Bytes) (maxErrorLen : ℕ) : Piece → Option Bytes
  | .param n => zbxCheckUserParameter false (param n) maxErrorLen
  | _ => none

/-- No parameter among the pieces has a suppressed character. -/
def AllClean (param : ℕ → Bytes) (ps : List Piece) : Prop := ∀ n, .param n ∈ ps → Clean (param n)

theorem Piece.allClean_of_error {param : ℕ → Bytes} {maxErrorLen : ℕ} {piece : Piece}
    (h : piece.error param maxErrorLen = none) :
  AllClean param [piece]
  := by
  intro n hn
  obtain rfl := List.mem_singleton.mp hn
  exact (zbxCheckUserParameter_eq_none_iff _ _).mp h

theorem Piece.param_of_error {param : ℕ → Bytes} {maxErrorLen : ℕ} {piece : Piece} {error : Bytes}
    (h : piece.error param maxErrorLen = some error) :
  ∃ n, piece = .param n ∧ ¬Clean (param n)
  := by
  cases piece with
  | literal text => exact nomatch h
  | template => exact nomatch h
  | param n =>
    refine ⟨n, rfl, fun hclean => ?_⟩
    rw [Piece.error, (zbxCheckUserParameter_eq_none_iff _ _).mpr hclean] at h
    contradiction

/-! ### The loop -/

theorem sizeT_natCast {k : ℕ} (h : k < 2 ^ 31) :
  sizeT k = k
  := by
  rw [sizeT, Int.emod_eq_of_lt (Int.natCast_nonneg k) (by omega), Int.toNat_natCast]

/-- The room that is left behind a text that has room. -/
theorem natCast_sub_min {n k : ℕ} (h : n ≤ k) :
  (k : ℤ) - min (n : ℤ) k = ((k - n : ℕ) : ℤ)
  := by
  rw [Int.min_eq_left (by omega)]
  omega

section

variable {unsafeParameters : Bool} {command p buf out : Bytes} {maxErrorLen : ℕ} {outlen : ℤ}
  {left : Bytes}

theorem replaceLoop_last {pl : Bytes} (h : dollar ∉ pl) :
  replaceLoop unsafeParameters command p maxErrorLen pl buf out outlen =
    some ⟨true, zbxStrlcat out pl (sizeT outlen), none⟩
  := by
  rw [replaceLoop]
  split
  · rfl
  · rename_i hbehind
    rw [dropWhile_last h] at hbehind
    contradiction

theorem replaceLoop_other (hleft : dollar ∉ left) {behind : Bytes}
    (hother : ∀ d ∈ behind.head?, isDigit d = false) (houtlen : 0 < outlen) :
  replaceLoop unsafeParameters command p maxErrorLen (left ++ dollar :: behind) buf out outlen =
    replaceLoop unsafeParameters command p maxErrorLen (behindDollar behind) buf
      (zbxStrlcat (zbxStrlcat out left (sizeT outlen)) [dollar]
        (sizeT (outlen - min (left.length : ℤ) outlen)))
      (outlen - min (left.length : ℤ) outlen - 1)
  := by
  rw [replaceLoop]
  split
  · rename_i hbehind
    rw [dropWhile_dollar hleft] at hbehind
    contradiction
  · rename_i hbehind
    rw [dropWhile_dollar hleft] at hbehind
    obtain ⟨-, rfl⟩ := List.cons.inj hbehind
    rw [if_pos houtlen, takeWhile_dollar hleft]
    cases behind with
    | nil => rfl
    | cons d rest =>
      dsimp only
      rw [if_neg (by simp [hother d rfl]), behindDollar]

theorem replaceLoop_digit (hleft : dollar ∉ left) {d : UInt8} (hdigit : isDigit d = true)
    (rest : Bytes) (houtlen : 0 < outlen) {error : Option Bytes} {buf' : Bytes}
    (hinserted : insertedText unsafeParameters command p maxErrorLen buf d = some (error, buf')) :
  replaceLoop unsafeParameters command p maxErrorLen (left ++ dollar :: d :: rest) buf out outlen =
    error.elim
      (replaceLoop unsafeParameters command p maxErrorLen rest buf'
        (zbxStrlcat (zbxStrlcat out left (sizeT outlen)) (Buffer.text buf')
          (sizeT (outlen - min (left.length : ℤ) outlen)))
        (outlen - min (left.length : ℤ) outlen -
          min ((Buffer.text buf').length : ℤ) (outlen - min (left.length : ℤ) outlen)))
      fun error =>
        some ⟨false, zbxStrlcat (zbxStrlcat out left (sizeT outlen)) (left ++ dollar :: d :: rest)
          (sizeT (outlen - min (left.length : ℤ) outlen)), some error⟩
  := by
  rw [replaceLoop]
  split
  · rename_i hbehind
    rw [dropWhile_dollar hleft] at hbehind
    contradiction
  · rename_i hbehind
    rw [dropWhile_dollar hleft] at hbehind
    obtain ⟨-, rfl⟩ := List.cons.inj hbehind
    rw [if_pos houtlen, takeWhile_dollar hleft]
    dsimp only
    rw [if_pos hdigit, hinserted]
    cases error <;> rfl

end

/-! ### What the loop returns -/

section

variable {command p : Bytes} {param : ℕ → Bytes} {maxErrorLen : ℕ}

variable (maxErrorLen) in
theorem insertedText_eq (hcommand : ∀ c ∈ command, c ≠ 0) (hlength : command.length < maxStringLen)
    (hparam : ∀ n, ∀ c ∈ param n, c ≠ 0) {buf : Bytes} (hbuf : buf.length = maxStringLen)
    {d : UInt8} (hdigit : isDigit d = true)
    (hread : ∀ n : ℕ, Piece.ofDigit d = .param n → Reads p n maxStringLen (param n)) :
  ∃ buf', buf'.length = maxStringLen ∧
    Buffer.text buf' = (Piece.ofDigit d).text command param ∧
    insertedText false command p maxErrorLen buf d =
      some ((Piece.ofDigit d).error param maxErrorLen, buf')
  := by
  obtain ⟨buf₁, hwrite, hempty, hbuf₁⟩ := @Buffer.write_front buf [0] (by
    rw [hbuf]
    decide)
  rw [hbuf] at hbuf₁
  by_cases hzero : d = 0x30
  · have htake : command.take (maxStringLen - 1) = command :=
      List.take_of_length_le (Nat.le_sub_one_of_lt hlength)
    obtain ⟨buf₂, hwrite', htext, hbuf₂⟩ := @Buffer.write_front buf₁ (command ++ [0]) (by
      rw [List.length_append, List.length_singleton, hbuf₁]
      exact hlength)
    refine ⟨buf₂, hbuf₂.trans hbuf₁, ?_, ?_⟩
    · rw [Buffer.text_of_prefix hcommand htext, Piece.ofDigit, if_pos hzero]
      rfl
    · rw [insertedText, hwrite, Option.bind_eq_bind, Option.bind_some, if_pos hzero, htake, hwrite',
        Option.bind_some, Piece.ofDigit, if_pos hzero]
      rfl
  · have hpiece : Piece.ofDigit d = .param (d.toNat - 0x30) := by
      rw [Piece.ofDigit, if_neg hzero]
    have hnum : (d.toNat : ℤ) - 0x30 = ((d.toNat - 0x30 : ℕ) : ℤ) := by
      have hle : 0x30 ≤ d.toNat := by
        simp only [isDigit, Bool.and_eq_true, decide_eq_true_eq] at hdigit
        exact hdigit.1
      omega
    obtain ⟨found, buf₂, hget, hbuf₂, htext⟩ := hread _ hpiece buf₁ hbuf₁ hempty
    refine ⟨buf₂, hbuf₂, ?_, ?_⟩
    · rw [Buffer.text_of_prefix (hparam _) htext, hpiece]
      rfl
    · have hterminated : 0 ∈ buf₂ := htext.subset (List.mem_append_right _ List.mem_cons_self)
      rw [insertedText, hwrite, Option.bind_eq_bind, Option.bind_some, if_neg hzero, hnum, hget,
        Option.bind_eq_bind, Option.bind_some, hpiece]
      dsimp only
      rw [if_pos hterminated, Buffer.text_of_prefix (hparam _) htext]
      rfl

variable (command param) in
/-- The outcome of the loop from a text of the command on: the text is appended piece by piece, or
the pieces up to a parameter with a suppressed character and then a rest of the text. -/
inductive Result (pl out : Bytes) (k : ℕ) : Outcome → Prop where
  | done (hclean : AllClean param (pieces pl)) :
    Result pl out k ⟨true, appendAll out k ((pieces pl).map (Piece.text command param)), none⟩
  | failed {front back : List Piece} {n siz : ℕ} {tail error : Bytes}
      (hpieces : pieces pl = front ++ .param n :: back) (hclean : AllClean param front)
      (hn : ¬Clean (param n)) (htail : tail <:+ pl) :
    Result pl out k ⟨false, zbxStrlcat (appendAll out k (front.map (Piece.text command param)))
      tail siz, some error⟩

theorem AllClean.append {ps qs : List Piece} (hps : AllClean param ps) (hqs : AllClean param qs) :
  AllClean param (ps ++ qs)
  := by
  intro n hn
  obtain hn | hn := List.mem_append.mp hn
  · exact hps n hn
  · exact hqs n hn

/-- Pieces in front of which nothing fails. -/
theorem Result.step {ps : List Piece} {pl rest out : Bytes} {k : ℕ} {r : Outcome}
    (hpieces : pieces pl = ps ++ pieces rest) (hclean : AllClean param ps) (hrest : rest <:+ pl)
    (h : Result command param rest (appendAll out k (ps.map (Piece.text command param)))
      (k - (ps.map (Piece.text command param)).flatten.length) r) :
  Result command param pl out k r
  := by
  cases h with
  | done hclean' =>
    rw [← appendAll_append, ← List.map_append, ← hpieces]
    exact .done (hpieces ▸ hclean.append hclean')
  | @failed front back n siz tail error hpieces' hclean' hn htail =>
    rw [← appendAll_append, ← List.map_append]
    refine @Result.failed command param pl out k (ps ++ front) back n siz tail error ?_
      (hclean.append hclean') hn (htail.trans hrest)
    rw [hpieces, hpieces', List.append_assoc]

theorem behindDollar_suffix (behind : Bytes) :
  behindDollar behind <:+ behind
  := by
  cases behind with
  | nil => exact List.suffix_refl _
  | cons d rest =>
    rw [behindDollar]
    split_ifs
    · exact List.suffix_cons d rest
    · exact List.suffix_refl _

variable (maxErrorLen) in
/-- The loop on a text of the command. -/
theorem replaceLoop_result (hcommand : ∀ c ∈ command, c ≠ 0)
    (hlength : command.length < maxStringLen) (hparam : ∀ n, ∀ c ∈ param n, c ≠ 0) {buf : Bytes}
    (hbuf : buf.length = maxStringLen) (pl out : Bytes) {k : ℕ}
    (hread : ∀ n : ℕ, .param n ∈ pieces pl → Reads p n maxStringLen (param n))
    (hroom : (expand command param pl).length < k) (hk : k < 2 ^ 31) :
  ∃ r, replaceLoop false command p maxErrorLen pl buf out k = some r ∧
    Result command param pl out k r
  := by
  induction pl using dollar_induction generalizing buf out k with
  | last pl hlast =>
    refine ⟨_, replaceLoop_last hlast, ?_⟩
    have hdone : Result command param pl out k _ := .done (by
      rw [pieces_last hlast]
      intro n hn
      exact nomatch List.mem_singleton.mp hn)
    rw [pieces_last hlast] at hdone
    rw [sizeT_natCast hk]
    exact hdone
  | other left behind hleft hother ih =>
    rw [expand_append hleft, expand_other hother, List.length_append, List.length_cons] at hroom
    have hpieces := pieces_other hleft hother
    obtain ⟨r, hloop, hresult⟩ := ih hbuf
      (zbxStrlcat (zbxStrlcat out left k) [dollar] (k - left.length))
      (fun n hn => hread n (by
        rw [hpieces]
        exact List.mem_cons_of_mem _ (List.mem_cons_of_mem _ hn)))
      (show (expand command param (behindDollar behind)).length < k - left.length - 1 by omega)
      (by omega)
    refine ⟨r, ?_, ?_⟩
    · rw [replaceLoop_other hleft hother (by omega), natCast_sub_min (by omega),
        sizeT_natCast hk, sizeT_natCast (by omega), ← hloop]
      congr 1
      omega
    · refine @Result.step command param [.literal left, .literal [dollar]] _ _ _ _ _ hpieces ?_
        ((behindDollar_suffix behind).trans ((List.suffix_cons dollar behind).trans
          (List.suffix_append left _))) ?_
      · intro n hn
        simp at hn
      · simpa [appendAll, Piece.text, Nat.sub_sub] using hresult
  | digit left d rest hleft hdigit ih =>
    rw [expand_append hleft, expand_digit hdigit, List.length_append, List.length_append] at hroom
    have hpieces := pieces_digit hleft hdigit rest
    obtain ⟨buf', hbuf', htext, hinserted⟩ := insertedText_eq maxErrorLen hcommand hlength
      hparam hbuf hdigit (fun n hn => hread n (by
        rw [hpieces, hn]
        exact List.mem_cons_of_mem _ List.mem_cons_self))
    rw [replaceLoop_digit hleft hdigit rest (by omega) hinserted, htext,
      natCast_sub_min (by omega), natCast_sub_min (by omega), sizeT_natCast hk,
      sizeT_natCast (by omega)]
    cases herror : (Piece.ofDigit d).error param maxErrorLen with
    | some error =>
      obtain ⟨n, hn, hunclean⟩ := Piece.param_of_error herror
      rw [hn] at hpieces
      refine ⟨_, rfl, @Result.failed command param _ out k [.literal left] (pieces rest) n _ _ error
        hpieces (fun m hm => ?_) hunclean (List.suffix_refl _)⟩
      exact nomatch List.mem_singleton.mp hm
    | none =>
      obtain ⟨r, hloop, hresult⟩ := ih hbuf'
        (zbxStrlcat (zbxStrlcat out left k) ((Piece.ofDigit d).text command param)
          (k - left.length))
        (fun n hn => hread n (by
          rw [hpieces]
          exact List.mem_cons_of_mem _ (List.mem_cons_of_mem _ hn)))
        (show (expand command param rest).length <
          k - left.length - ((Piece.ofDigit d).text command param).length by omega)
        (by omega)
      refine ⟨r, hloop, @Result.step command param [.literal left, Piece.ofDigit d] _ rest _ _ _
        hpieces ?_ ((List.suffix_cons d rest).trans ((List.suffix_cons dollar _).trans
          (List.suffix_append left _))) ?_⟩
      · refine @AllClean.append param [.literal left] _ (fun n hn => ?_)
          (Piece.allClean_of_error herror)
        exact nomatch List.mem_singleton.mp hn
      · simpa [appendAll, Piece.text, Nat.sub_sub] using hresult

end

/-! ### The command -/

/-- The text for the number of a parameter, which is empty for one that is missing. -/
def parameter (texts : List Bytes) (n : ℕ) : Bytes := texts[n - 1]?.getD []

/-- What is written are parts of the first pieces, none of which is a parameter with a suppressed
character, and then text of the command. -/
def Traced (cmd : Bytes) (param : ℕ → Bytes) (out : Bytes) : Prop :=
  ∃ (front back : List Piece) (parts : List Bytes) (tail : Bytes),
    pieces cmd = front ++ back ∧ AllClean param front ∧
    List.Forall₂ (· <+: ·) parts (front.map (Piece.text cmd param)) ∧ tail <:+: cmd ∧
    out = parts.flatten ++ tail

/-- It fails because of a parameter, or the expansion is written. -/
structure Meets (cmd : Bytes) (param : ℕ → Bytes) (r : Outcome) : Prop where
  outcome : r.ret = false ∧ (∃ n, References cmd n ∧ ¬Clean (param n)) ∨
    r.ret = true ∧ r.out = expand cmd param cmd
  traced : Traced cmd param r.out

/-- The expansion, and once more what stands in front of its last piece, have room. -/
def Uncut (cmd : Bytes) (param : ℕ → Bytes) (outlen : ℤ) : Prop :=
  (expand cmd param cmd).length + ((expand cmd param cmd).length -
    (lastLength ((pieces cmd).map (Piece.text cmd param)) : ℤ)) < outlen

section

variable {cmd : Bytes} {param : ℕ → Bytes} {k : ℕ} {r : Outcome}

theorem Result.traced (h : Result cmd param cmd [] k r) :
  Traced cmd param r.out
  := by
  cases h with
  | done hclean =>
    obtain ⟨parts, hparts, happend⟩ :=
      appendAll_parts [] k ((pieces cmd).map (Piece.text cmd param))
    refine ⟨pieces cmd, [], parts, [], (List.append_nil _).symm, hclean, hparts,
      List.nil_infix, ?_⟩
    rw [List.append_nil]
    exact happend
  | @failed front back n siz tail error hpieces hclean hn htail =>
    obtain ⟨parts, hparts, happend⟩ := appendAll_parts [] k (front.map (Piece.text cmd param))
    obtain ⟨part, hpart, hstrlcat⟩ :=
      zbxStrlcat_part (appendAll [] k (front.map (Piece.text cmd param))) tail siz
    refine ⟨front, _, parts, part, hpieces, hclean, hparts,
      hpart.isInfix.trans htail.isInfix, ?_⟩
    rw [hstrlcat, happend]
    rfl

theorem Result.meets_or (h : Result cmd param cmd [] k r)
    (hroom : (expand cmd param cmd).length < k) :
  Meets cmd param r ↔ (∃ n, References cmd n ∧ ¬Clean (param n)) ∨ Uncut cmd param k
  := by
  have htraced := h.traced
  cases h with
  | done hclean =>
    have happend := appendAll_eq_iff [] k ((pieces cmd).map (Piece.text cmd param))
    have hlast := lastLength_le ((pieces cmd).map (Piece.text cmd param))
    rw [flatten_pieces, List.nil_append, List.length_nil] at happend
    rw [flatten_pieces] at hlast
    have hnone : ¬∃ n, References cmd n ∧ ¬Clean (param n) :=
      fun ⟨n, hn, hunclean⟩ => hunclean (hclean n hn)
    rw [or_iff_right hnone, Uncut]
    constructor
    · rintro ⟨⟨hret, -⟩ | ⟨-, hout⟩, -⟩
      · contradiction
      · obtain hempty | hlt := happend.mp hout
        · rw [hempty, List.length_nil] at hlast hroom ⊢
          omega
        · omega
    · intro huncut
      exact ⟨.inr ⟨rfl, happend.mpr (.inr (by omega))⟩, htraced⟩
  | @failed front back n siz tail error hpieces hclean hn htail =>
    have hreferred : References cmd n := by
      rw [References, hpieces]
      exact List.mem_append_right _ List.mem_cons_self
    exact iff_of_true ⟨.inl ⟨rfl, n, hreferred, hn⟩, htraced⟩ (.inl ⟨n, hreferred, hn⟩)

end

theorem one_le_of_references {cmd : Bytes} {n : ℕ} (h : References cmd n) :
  1 ≤ n
  := by
  rw [References] at h
  induction cmd using dollar_induction with
  | last text hlast =>
    rw [pieces_last hlast] at h
    exact nomatch List.mem_singleton.mp h
  | digit left d rest hleft hdigit ih =>
    rw [pieces_digit hleft hdigit] at h
    obtain h | h := List.mem_cons.mp h
    · contradiction
    obtain h | h := List.mem_cons.mp h
    · rw [Piece.ofDigit] at h
      split_ifs at h with hzero
      obtain rfl := Piece.param.inj h
      simp only [isDigit, Bool.and_eq_true, decide_eq_true_eq] at hdigit
      have hle : 0x30 ≤ d.toNat := hdigit.1
      have hne : d.toNat ≠ 0x30 := fun h => hzero (UInt8.toNat_inj.mp h)
      omega
    · exact ih h
  | other left behind hleft hother ih =>
    rw [pieces_other hleft hother] at h
    obtain h | h := List.mem_cons.mp h
    · contradiction
    obtain h | h := List.mem_cons.mp h
    · contradiction
    exact ih h

/-- Of a list that reads without escaped quotes in its arrays every parameter is read. -/
theorem reads_parameter {p : Bytes} {texts : List Bytes} (h : ParamList (Body false) p texts)
    {maxLen : ℕ} (hlength : p.length < maxLen) {cmd : Bytes} {n : ℕ} (hn : References cmd n) :
  Reads p n maxLen (parameter texts n)
  := by
  obtain ⟨n, rfl⟩ := Nat.exists_eq_add_of_le' (one_le_of_references hn)
  exact reads_of_paramList h hlength n

/-- The text of a parameter has no zero byte. -/
theorem parameter_ne_zero {p : Bytes} {texts : List Bytes} (h : IsParamList p texts)
    (hp : ∀ c ∈ p, c ≠ 0) (n : ℕ) :
  ∀ c ∈ parameter texts n, c ≠ 0
  := by
  intro c hc
  rw [parameter] at hc
  cases htext : texts[n - 1]? with
  | none =>
    rw [htext] at hc
    exact absurd hc List.not_mem_nil
  | some text =>
    rw [htext] at hc
    exact hp c ((ParamList.sublist h (List.mem_of_getElem? htext)).subset hc)

/-- What `replace_param` returns without unsafe parameters, where the expansion has room. -/
theorem replaceParam_result {cmd p buf : Bytes} {param : ℕ → Bytes} {k : ℕ} (maxErrorLen : ℕ)
    (hcmd : ∀ c ∈ cmd, c ≠ 0) (hlength : cmd.length < maxStringLen)
    (hparam : ∀ n, ∀ c ∈ param n, c ≠ 0) (hbuf : buf.length = maxStringLen)
    (hread : ∀ n : ℕ, References cmd n → Reads p n maxStringLen (param n))
    (hroom : (expand cmd param cmd).length < k) (hk : k < 2 ^ 31) :
  ∃ r, replaceParam false cmd p buf k maxErrorLen = some r ∧
    (Meets cmd param r ↔
      (∃ n, References cmd n ∧ ¬Clean (param n)) ∨ Uncut cmd param k)
  := by
  have htake : cmd.take (maxStringLen - 1) = cmd :=
    List.take_of_length_le (Nat.le_sub_one_of_lt hlength)
  obtain ⟨r, hloop, hresult⟩ := replaceLoop_result maxErrorLen hcmd hlength hparam hbuf cmd []
    hread hroom hk
  refine ⟨r, ?_, hresult.meets_or hroom⟩
  rw [replaceParam, htake]
  exact hloop

/-- Of a command whose expansion has room, the expansion is written or a parameter is refused
exactly when a parameter has a suppressed character or the text in front of the last piece has room
twice. -/
theorem replaceParam_meets_iff {cmd p buf : Bytes} {texts : List Bytes} {outlen : ℤ}
    (maxErrorLen : ℕ) (hcmd : ∀ c ∈ cmd, c ≠ 0) (hlength : cmd.length < maxStringLen)
    (hp : ∀ c ∈ p, c ≠ 0) (hlist : IsParamList p texts) (hbuf : buf.length = maxStringLen)
    (hread : ∀ n : ℕ, References cmd n → Reads p n maxStringLen (parameter texts n))
    (hroom : ((expand cmd (parameter texts) cmd).length : ℤ) < outlen) (hint : outlen < 2 ^ 31) :
  ∃ r, replaceParam false cmd p buf outlen maxErrorLen = some r ∧
    (Meets cmd (parameter texts) r ↔
      (∃ n, References cmd n ∧ ¬Clean (parameter texts n)) ∨ Uncut cmd (parameter texts) outlen)
  := by
  obtain ⟨k, rfl⟩ := Int.eq_ofNat_of_zero_le (show 0 ≤ outlen by omega)
  exact replaceParam_result maxErrorLen hcmd hlength (parameter_ne_zero hlist hp) hbuf hread
    (by omega) (by omega)

/-! ### A command that is cut -/

/-- A list of the parameter `y`. -/
theorem paramList_y (body : Bytes → Prop) :
  ParamList body [0x79] [[0x79]]
  := .single (.unquoted 0 (by decide) (by decide) (by decide) (by decide))

/-- A reference behind a text without `$`. -/
theorem pieces_reference {left : Bytes} (hleft : dollar ∉ left) :
  pieces (left ++ [dollar, 0x31]) = [.literal left, .param 1, .literal []]
  := by
  rw [pieces_digit hleft rfl, pieces_last List.not_mem_nil]
  rfl

theorem expand_reference {left : Bytes} (hleft : dollar ∉ left) (template : Bytes)
    (param : ℕ → Bytes) :
  expand template param (left ++ [dollar, 0x31]) = left ++ param 1
  := by
  rw [expand_append hleft, expand_digit rfl, expand, List.append_nil]
  rfl

/-- The command `x$2 $1`. -/
def pairCmd : Bytes := [0x78, dollar, 0x32, space, dollar, 0x31]

/-- The list `y,"a b"`. -/
def pairList : Bytes := [0x79, comma, quote, 0x61, space, 0x62, quote]

theorem pairList_paramList (body : Bytes → Prop) :
  ParamList body pairList [[0x79], [0x61, space, 0x62]]
  := by
  have hquoted : Param body [quote, 0x61, space, 0x62, quote] [0x61, space, 0x62] :=
    @Param.quoted body 0 0 [0x61, space, 0x62]
      (.plain (by decide) (fun h => absurd h (by decide)) (.plain (by decide)
        (fun h => absurd h (by decide)) (.plain (by decide) (fun h => absurd h (by decide)) .nil)))
  have hunquoted : Param body [0x79] [0x79] :=
    .unquoted 0 (by decide) (by decide) (by decide) (by decide)
  exact .more hunquoted (.single hquoted)

theorem expand_pairCmd :
  expand pairCmd (parameter [[0x79], [0x61, space, 0x62]]) pairCmd
    = [0x78, 0x61, space, 0x62, space, 0x79]
  := by
  have hsecond : (Piece.ofDigit 0x32).text pairCmd (parameter [[0x79], [0x61, space, 0x62]])
      = [0x61, space, 0x62] := rfl
  have hbehind : expand pairCmd (parameter [[0x79], [0x61, space, 0x62]]) [space, dollar, 0x31]
      = [space, 0x79] := @expand_reference [space] (by decide) _ _
  have hfront := @expand_append [0x78] pairCmd (parameter [[0x79], [0x61, space, 0x62]])
    (by decide) [dollar, 0x32, space, dollar, 0x31]
  rw [expand_digit rfl, hsecond, hbehind] at hfront
  exact hfront

theorem replaceParam_meets_iff_pair :
  ∃ r, replaceParam false pairCmd pairList (List.replicate 2048 0) 64 64 = some r ∧
    (Meets pairCmd (parameter [[0x79], [0x61, space, 0x62]]) r ↔
      (∃ n, References pairCmd n ∧ ¬Clean (parameter [[0x79], [0x61, space, 0x62]] n)) ∨
      Uncut pairCmd (parameter [[0x79], [0x61, space, 0x62]]) 64)
  := by
  refine replaceParam_meets_iff 64 (Buffer.forall_ne_zero rfl) (by decide)
    (Buffer.forall_ne_zero rfl) (pairList_paramList _) List.length_replicate
    (fun n hn => reads_parameter (pairList_paramList _) (by decide) hn) ?_ (by decide)
  rw [expand_pairCmd]
  decide

/-- A command of 1100 letters with a reference behind them. -/
def longCmd : Bytes := List.replicate 1100 0x78 ++ [dollar, 0x31]

/-- With a buffer of 2048 bytes the expansion of 1101 bytes has room, and the parameter is not
written. -/
theorem longCmd_cut :
  (expand longCmd (parameter [[0x79]]) longCmd).length = 1101 ∧ IsParamList [0x79] [[0x79]] ∧
    ¬∃ r, replaceParam false longCmd [0x79] (List.replicate 2048 0) 2048 64 = some r ∧
      Meets longCmd (parameter [[0x79]]) r
  := by
  have hleft : dollar ∉ List.replicate 1100 (0x78 : UInt8) := by
    rw [List.mem_replicate]
    decide
  have hpieces : pieces longCmd = _ := pieces_reference hleft
  have hexpand : expand longCmd (parameter [[0x79]]) longCmd = _ :=
    expand_reference hleft longCmd (parameter [[0x79]])
  have hlength : (expand longCmd (parameter [[0x79]]) longCmd).length = 1101 := by
    rw [hexpand, List.length_append, List.length_replicate]
    rfl
  refine ⟨hlength, paramList_y _, ?_⟩
  rintro ⟨r, hr, hmeets⟩
  obtain ⟨r', hr', hiff⟩ := @replaceParam_result longCmd [0x79] (List.replicate 2048 0)
    (parameter [[0x79]]) 2048 64 (fun c hc => by
      obtain hc | hc := List.mem_append.mp hc
      · rw [(List.mem_replicate.mp hc).2]
        decide
      · exact @Buffer.forall_ne_zero [dollar, 0x31] rfl c hc)
    (by
      rw [longCmd, List.length_append, List.length_replicate]
      decide)
    (parameter_ne_zero (paramList_y _) (Buffer.forall_ne_zero rfl)) List.length_replicate
    (fun n hn => reads_parameter (paramList_y _) (by decide) hn) (by omega) (by decide)
  obtain rfl := Option.some.inj (hr.symm.trans hr')
  obtain ⟨n, hn, hunclean⟩ | huncut := hiff.mp hmeets
  · rw [References, hpieces] at hn
    simp only [List.mem_cons, reduceCtorEq, Piece.param.injEq, List.not_mem_nil, or_false,
      false_or] at hn
    subst hn
    refine hunclean fun c hc hmem => ?_
    rw [show parameter [[0x79]] 1 = [0x79] from rfl, List.mem_singleton] at hmem
    subst hmem
    exact absurd hc (by decide)
  · rw [Uncut, hlength, hpieces] at huncut
    have hlast : lastLength
        ([.literal (List.replicate 1100 0x78), .param 1, .literal []].map
          (Piece.text longCmd (parameter [[0x79]]))) = 1 := rfl
    rw [hlast] at huncut
    omega

end UserParameter
