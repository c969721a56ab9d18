import Zabbix.Expression.Evaluate

/-!
# Compressed signs

`compress_signs` rewrites the text in two loops.  `scanSigns` reads the text once, with the
sign that the signs before the current byte merge to, and says what the result is.

A text in which every plus stands behind an operand, without minus and without spaces, is not
changed any more.
-/

open Ascii

namespace Expression

def isSign (c : UInt8) : Bool := c = plus || c = minus

/-- A sign is either plus or minus. -/
theorem isSign_iff {c : UInt8} :
  isSign c = true ↔ c = plus ∨ c = minus
  := by
  simp [isSign]

theorem mergeSigns_none {cur next : UInt8} (h : ¬ (isSign cur = true ∧ isSign next = true)) :
  mergeSigns cur next = none
  := by
  simp only [isSign_iff] at h
  rw [mergeSigns, if_neg, if_neg]
  · rintro (⟨rfl, rfl⟩ | ⟨rfl, rfl⟩) <;> simp at h
  · rintro (⟨rfl, rfl⟩ | ⟨rfl, rfl⟩) <;> simp at h

/-! ### The first loop -/

/-- A byte put before a text whose signs are merged. -/
def consMerged (cur : UInt8) : Bytes → Bytes
  | [] => [cur]
  | next :: rest =>
    match mergeSigns cur next with
    | some sign => sign :: rest
    | none => cur :: next :: rest

/-- The text with all signs merged. -/
def merged (text : Bytes) : Bytes := text.foldr consMerged []

theorem merged_cons (c : UInt8) (text : Bytes) :
  merged (c :: text) = consMerged c (merged text)
  := rfl

theorem mergeSigns_eq_some {cur next sign : UInt8} (h : mergeSigns cur next = some sign) :
  isSign cur = true ∧ isSign next = true ∧ isSign sign = true
  := by
  rw [mergeSigns] at h
  split at h
  case isTrue hsame =>
    cases h
    obtain ⟨rfl, rfl⟩ | ⟨rfl, rfl⟩ := hsame <;> decide
  case isFalse =>
    split at h
    case isTrue hother =>
      cases h
      obtain ⟨rfl, rfl⟩ | ⟨rfl, rfl⟩ := hother <;> decide
    case isFalse => cases h

/-- Merging signs is associative. -/
theorem consMerged_merged {cur next sign : UInt8} (h : mergeSigns cur next = some sign)
    (text : Bytes) :
  consMerged cur (consMerged next text) = consMerged sign text
  := by
  have htwo : ∀ a b s : UInt8, mergeSigns a b = some s → ∀ c, isSign c = true →
      (mergeSigns b c).bind (mergeSigns a) = mergeSigns s c ∧ (mergeSigns s c).isSome = true := by
    intro a b s hs c hc
    obtain ⟨ha, hb, -⟩ := mergeSigns_eq_some hs
    obtain rfl | rfl := isSign_iff.mp ha <;> obtain rfl | rfl := isSign_iff.mp hb <;>
      obtain rfl | rfl := isSign_iff.mp hc <;> obtain rfl := Option.some.inj hs <;> decide
  cases text with
  | nil =>
    change consMerged cur [next] = [sign]
    rw [consMerged, h]
  | cons c rest =>
    by_cases hc : isSign c = true
    · obtain ⟨hbind, hsome⟩ := htwo cur next sign h c hc
      obtain ⟨t, ht⟩ := Option.isSome_iff_exists.mp hsome
      rw [ht] at hbind
      obtain ⟨s, hs, hst⟩ := Option.bind_eq_some_iff.mp hbind
      simp only [consMerged, hs, hst, ht]
    · have hnone : ∀ a, mergeSigns a c = none := fun a => mergeSigns_none fun hsigns => hc hsigns.2
      simp only [consMerged, hnone, h]

theorem merged_mergePass (text : Bytes) :
  merged (mergePass text).1 = merged text
  := by
  fun_induction mergePass text with
  | case1 cur next rest sign hmerge ih =>
    rw [merged_cons, ih, merged_cons, merged_cons, consMerged_merged hmerge]
  | case2 cur next rest hmerge ih => rw [merged_cons, ih, merged_cons cur]
  | case3 text => rfl

/-- Nothing is changed by the last round. -/
theorem mergePass_stays {text : Bytes} (h : (mergePass text).2 = false) :
  (mergePass text).1 = text ∧ merged text = text
  := by
  fun_induction mergePass text with
  | case1 cur next rest sign hmerge ih => cases h
  | case2 cur next rest hmerge ih =>
    obtain ⟨hpass, hmerged⟩ := ih h
    refine ⟨congrArg (cur :: ·) hpass, ?_⟩
    rw [merged_cons, hmerged, consMerged, hmerge]
  | case3 text hshort =>
    refine ⟨rfl, ?_⟩
    cases text with
    | nil => rfl
    | cons cur text =>
      cases text with
      | nil => rfl
      | cons next rest => exact absurd rfl (hshort cur next rest)

theorem mergeLoop_eq (text : Bytes) :
  mergeLoop text = merged text
  := by
  fun_induction mergeLoop text with
  | case1 text h ih => rw [ih, merged_mergePass]
  | case2 text h =>
    obtain ⟨hpass, hmerged⟩ := mergePass_stays (Bool.eq_false_iff.mpr h)
    rw [hpass, hmerged]

/-! ### Both loops -/

/-- What is written for a pending sign. -/
def emitSign (prev : Bool) : Option UInt8 → Bytes
  | none => []
  | some sign => (if prev then [plus] else []) ++ (if sign = minus then [negative] else [])

/-- The sign that is pending behind a further sign. -/
def mergePending (pending : Option UInt8) (c : UInt8) : UInt8 :=
  match pending with
  | none => c
  | some sign => (mergeSigns sign c).getD c

/-- The result of `compress_signs` behind an operand or not, with a pending sign. -/
def scanSigns (prev : Bool) (pending : Option UInt8) : Bytes → Bytes
  | [] => emitSign prev pending
  | c :: rest =>
    if isSign c then scanSigns prev (some (mergePending pending c)) rest
    else emitSign prev pending ++ c :: scanSigns (endsOperand (some c)) none rest

/-- The pending sign put back before a text. -/
def consPending (pending : Option UInt8) (text : Bytes) : Bytes :=
  match pending with
  | none => text
  | some sign => consMerged sign text

theorem consPending_sign {pending : Option UInt8} (hpending : ∀ s ∈ pending, isSign s = true)
    {c : UInt8} (hc : isSign c = true) (text : Bytes) :
  consPending pending (consMerged c text) = consPending (some (mergePending pending c)) text ∧
    isSign (mergePending pending c) = true
  := by
  cases pending with
  | none => exact ⟨rfl, hc⟩
  | some sign =>
    have hsome : (mergeSigns sign c).isSome = true := by
      obtain rfl | rfl := isSign_iff.mp (hpending sign rfl) <;>
        obtain rfl | rfl := isSign_iff.mp hc <;> decide
    obtain ⟨s, hs⟩ := Option.isSome_iff_exists.mp hsome
    have hmerge : mergePending (some sign) c = s := by
      rw [mergePending, hs]
      rfl
    rw [hmerge]
    exact ⟨consMerged_merged hs text, (mergeSigns_eq_some hs).2.2⟩

theorem markSigns_other (room : ℕ) (done : Bytes) {c : UInt8} (hc : isSign c = false)
    (rest : Bytes) :
  markSigns room done (c :: rest) = markSigns room (c :: done) rest
  := by
  have hplus : c ≠ plus := by
    rintro rfl
    cases hc
  have hminus : c ≠ minus := by
    rintro rfl
    cases hc
  rw [markSigns.eq_def]
  simp only [hplus, hminus, if_false]

/-- The second loop at a pending sign. -/
theorem markSigns_sign {room : ℕ} {done text out : Bytes} {sign : UInt8}
    (hsign : isSign sign = true) (htext : ∀ c ∈ text.head?, isSign c = false)
    (h : markSigns room done (sign :: text) = some out) :
  markSigns room ((emitSign (endsOperand done.head?) (some sign)).reverse ++ done) text = some out
  := by
  have hne : plus ≠ minus := by decide
  rw [markSigns.eq_def] at h
  obtain rfl | rfl := isSign_iff.mp hsign
  · by_cases hend : endsOperand done.head? = true
    · simp only [hend, if_true] at h
      rw [emitSign, if_pos hend, if_neg hne]
      exact h
    · have hemit : emitSign (endsOperand done.head?) (some plus) = [] := by
        rw [emitSign, if_neg hend, if_neg hne]
        rfl
      rw [hemit]
      cases text with
      | nil =>
        simp only [hend, if_true] at h
        exact h
      | cons c rest =>
        simp only [hend, if_true] at h
        exact (markSigns_other room done (htext c rfl) rest).trans h
  · simp only [if_neg hne.symm, if_true] at h
    split at h
    case isTrue hend =>
      split at h
      · rw [emitSign, if_pos hend, if_pos rfl]
        exact h
      · cases h
    case isFalse hend =>
      rw [emitSign, if_neg hend, if_pos rfl]
      exact h

theorem consMerged_of_not_isSign {c : UInt8} (hc : isSign c = false) (sign : UInt8)
    (text : Bytes) :
  consMerged c text = c :: text ∧ consMerged sign (c :: text) = sign :: c :: text
  := by
  have hnone : ∀ a, mergeSigns a c = none :=
    fun a => mergeSigns_none fun hsigns => by rw [hc] at hsigns; cases hsigns.2
  have hnone' : ∀ a, mergeSigns c a = none :=
    fun a => mergeSigns_none fun hsigns => by rw [hc] at hsigns; cases hsigns.1
  constructor
  · cases text with
    | nil => rfl
    | cons next rest => simp only [consMerged, hnone']
  · simp only [consMerged, hnone]

theorem not_pending :
  ∀ s ∈ (none : Option UInt8), isSign s = true
  := fun _ hs => nomatch hs

/-- The second loop on the rest of a text whose signs are merged. -/
theorem markSigns_merged {room : ℕ} {text done out : Bytes} {pending : Option UInt8}
    (hpending : ∀ s ∈ pending, isSign s = true)
    (h : markSigns room done (consPending pending (merged text)) = some out) :
  out = done.reverse ++ scanSigns (endsOperand done.head?) pending text
  := by
  induction text generalizing done pending with
  | nil =>
    cases pending with
    | none =>
      obtain rfl := Option.some.inj h
      exact (List.append_nil _).symm
    | some sign =>
      have hnil : ∀ c ∈ ([] : Bytes).head?, isSign c = false := fun _ hc => nomatch hc
      have hmark := markSigns_sign (hpending sign rfl) hnil h
      rw [markSigns] at hmark
      obtain rfl := Option.some.inj hmark
      simp [scanSigns]
  | cons c rest ih =>
    rw [merged_cons] at h
    by_cases hc : isSign c = true
    · obtain ⟨hcons, hsign⟩ := consPending_sign hpending hc (merged rest)
      rw [hcons] at h
      rw [scanSigns, if_pos hc]
      apply ih _ h
      intro s hs
      obtain rfl := Option.some.inj hs
      exact hsign
    · have hother : isSign c = false := Bool.eq_false_iff.mpr hc
      have hrest : markSigns room ((emitSign (endsOperand done.head?) pending).reverse ++ done)
          (c :: merged rest) = some out := by
        cases pending with
        | none =>
          rw [(consMerged_of_not_isSign hother c _).1] at h
          exact h
        | some sign =>
          rw [(consMerged_of_not_isSign hother c _).1] at h
          change markSigns room done (consMerged sign (c :: merged rest)) = _ at h
          rw [(consMerged_of_not_isSign hother sign _).2] at h
          apply markSigns_sign (hpending sign rfl) _ h
          intro d hd
          obtain rfl := Option.some.inj hd
          exact hother
      rw [markSigns_other _ _ hother] at hrest
      rw [ih not_pending hrest, scanSigns, if_neg hc]
      simp

theorem compressSigns_eq {room : ℕ} {text out : Bytes} (h : compressSigns room text = some out) :
  out = scanSigns false none text
  := by
  rw [compressSigns, mergeLoop_eq] at h
  exact markSigns_merged not_pending h

/-! ### Texts that stay as they are -/

/-- Behind an operand or not: there is no minus and no space, and every plus stands behind an
operand. -/
def Settled (prev : Bool) : Bytes → Prop
  | [] => True
  | c :: rest => c ≠ minus ∧ c ≠ space ∧ (c = plus → prev = true) ∧ Settled (endsOperand (some c)) rest

/-- Whether an operand ends at the end of a text. -/
def endsBehind (prev : Bool) (text : Bytes) : Bool :=
  text.foldl (fun _ c => endsOperand (some c)) prev

theorem settled_append {prev : Bool} {text text' : Bytes} :
  Settled prev (text ++ text') ↔ Settled prev text ∧ Settled (endsBehind prev text) text'
  := by
  induction text generalizing prev with
  | nil => simp [Settled, endsBehind]
  | cons c rest ih =>
    simp only [List.cons_append, Settled, ih, and_assoc]
    rfl

theorem Settled.mem {prev : Bool} {text : Bytes} (h : Settled prev text) :
  minus ∉ text ∧ space ∉ text
  := by
  induction text generalizing prev with
  | nil => simp
  | cons c rest ih =>
    obtain ⟨hminus, hspace, -, hrest⟩ := h
    obtain ⟨h1, h2⟩ := ih hrest
    simp only [List.mem_cons, not_or]
    exact ⟨⟨hminus.symm, h1⟩, hspace.symm, h2⟩

/-- The texts on both sides of an operator are settled. -/
theorem Settled.operands {left right : Bytes} {c : UInt8}
    (h : Settled false (left ++ c :: right)) (hc : endsOperand (some c) = false) :
  Settled false left ∧ Settled false right
  := by
  obtain ⟨hleft, -, -, -, hright⟩ := settled_append.mp h
  rw [hc] at hright
  exact ⟨hleft, hright⟩

theorem Settled.markSigns_eq {room : ℕ} {done text : Bytes}
    (h : Settled (endsOperand done.head?) text) :
  markSigns room done text = some (done.reverse ++ text)
  := by
  induction text generalizing done with
  | nil => rw [markSigns, List.append_nil]
  | cons c rest ih =>
    obtain ⟨hminus, -, hplus, hrest⟩ := h
    have hnext : markSigns room done (c :: rest) = markSigns room (c :: done) rest := by
      rw [markSigns.eq_def]
      by_cases hc : c = plus
      · simp only [hc, hplus hc, if_true]
      · simp only [hc, hminus, if_false]
    have hbehind : Settled (endsOperand (c :: done).head?) rest := hrest
    rw [hnext, ih hbehind, List.reverse_cons, List.append_assoc, List.singleton_append]

theorem Settled.mergePass_eq {prev : Bool} {text : Bytes} (h : Settled prev text) :
  mergePass text = (text, false)
  := by
  fun_induction mergePass text generalizing prev with
  | case1 cur next rest sign hmerge ih =>
    obtain ⟨hcur, hnext, -⟩ := mergeSigns_eq_some hmerge
    obtain ⟨hminus, -, -, hminus', -, hplus', -⟩ := h
    obtain rfl := (isSign_iff.mp hcur).resolve_right hminus
    cases hplus' ((isSign_iff.mp hnext).resolve_right hminus')
  | case2 cur next rest hmerge ih =>
    rw [ih h.2.2.2]
  | case3 text => rfl

/-- A settled text is left as it is. -/
theorem Settled.compressSigns_eq {text : Bytes} (h : Settled false text) (room : ℕ) :
  compressSigns room text = some text
  := by
  have hmerge : mergeLoop text = text := by
    rw [mergeLoop, h.mergePass_eq]
    rfl
  rw [compressSigns, hmerge]
  exact Settled.markSigns_eq h

theorem zbxLrtrim_eq {text : Bytes} (h : space ∉ text) :
  zbxLrtrim text = text
  := by
  have hne : ∀ c ∈ text, ¬ decide (c = space) = true := by
    intro c hc
    rw [decide_eq_true_eq]
    rintro rfl
    exact h hc
  have hright : zbxRtrim text = text :=
    List.rdropWhile_eq_self_iff.mpr fun hl => hne _ (List.getLast_mem hl)
  rw [zbxLrtrim, hright, zbxLtrim, List.dropWhile_eq_self_iff]
  exact fun hl => hne _ (List.getElem_mem hl)

theorem settled_emitSign (prev : Bool) (pending : Option UInt8) :
  Settled prev (emitSign prev pending)
  := by
  cases pending with
  | none => trivial
  | some sign =>
    rw [emitSign, settled_append]
    constructor
    · cases prev
      · trivial
      · exact ⟨by decide, by decide, fun _ => rfl, trivial⟩
    · by_cases hsign : sign = minus
      · rw [if_pos hsign]
        exact ⟨by decide, by decide, fun h => absurd h (by decide), trivial⟩
      · rw [if_neg hsign]
        trivial

/-- The result of `compress_signs` is settled. -/
theorem settled_scanSigns {prev : Bool} {pending : Option UInt8} {text : Bytes}
    (h : space ∉ text) :
  Settled prev (scanSigns prev pending text)
  := by
  induction text generalizing prev pending with
  | nil => exact settled_emitSign prev pending
  | cons c rest ih =>
    obtain ⟨hc, hrest⟩ := not_or.mp (List.mem_cons.not.mp h)
    rw [scanSigns]
    split
    case isTrue => exact ih hrest
    case isFalse hother =>
      rw [isSign_iff, not_or] at hother
      rw [settled_append]
      exact ⟨settled_emitSign prev pending, hother.2, Ne.symm hc,
        fun hplus => absurd hplus hother.1, ih hrest⟩

end Expression
