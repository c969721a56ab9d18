import Zabbix.Expression.Simple
import Zabbix.Text.DiscoveryMacros

/-!
# What discovery macros become

Without `ZBX_MACRO_NUMERIC` every macro that the row defines becomes its value.  With it the
function fails where a macro has no value or one that `is_double_suffix` refuses; this accepts
texts without a digit as well.
-/

open Ascii Expression

namespace DiscoveryMacros

variable {row : Bytes → Option Bytes} {text : Bytes}

/-! ### Numbers -/

/-- A text of the characters of a number in their order: a sign, digits with a decimal point
among them, and a suffix. -/
structure NumberParts (text sign whole point fraction suffix : Bytes) : Prop where
  text_eq : text = sign ++ (whole ++ (point ++ (fraction ++ suffix)))
  sign : sign = [] ∨ sign = [minus]
  whole : ∀ c ∈ whole, isDigit c = true
  point : point = [] ∨ point = [dot]
  fraction : ∀ c ∈ fraction, isDigit c = true
  suffix : suffix = [] ∨ ∃ c ∈ suffixes, suffix = [c]

/-- A number with at most one suffix. -/
def Numeric (text : Bytes) : Prop :=
  ∃ sign whole point fraction suffix, NumberParts text sign whole point fraction suffix ∧
    whole ++ fraction ≠ []

theorem isDoubleSuffixLoop_end {suffix : Bytes}
    (hsuffix : suffix = [] ∨ ∃ c ∈ suffixes, suffix = [c]) (point : Bool) :
  isDoubleSuffixLoop false point suffix = true
  := by
  obtain rfl | ⟨c, hc, rfl⟩ := hsuffix
  · rfl
  · obtain ⟨hdigit, hdot⟩ : isDigit c = false ∧ c ≠ dot := by
      have hall : suffixes.Forall fun c => isDigit c = false ∧ c ≠ dot := by decide
      exact List.forall_iff_forall_mem.mp hall c hc
    simp [isDoubleSuffixLoop, hdigit, hdot, hc]

theorem NumberParts.loop {sign whole point fraction suffix : Bytes}
    (h : NumberParts text sign whole point fraction suffix) :
  isDoubleSuffixLoop false false (whole ++ (point ++ (fraction ++ suffix))) = true
  := by
  rw [isDoubleSuffixLoop_digits h.whole]
  obtain rfl | rfl := h.point
  · rw [List.nil_append, isDoubleSuffixLoop_digits h.fraction]
    exact isDoubleSuffixLoop_end h.suffix false
  · have hdot : isDigit dot = false := by decide
    simp only [List.singleton_append, isDoubleSuffixLoop, hdot]
    simp only [Bool.false_eq_true, and_false, if_false, not_false_eq_true, and_self, if_true]
    rw [isDoubleSuffixLoop_digits h.fraction]
    exact isDoubleSuffixLoop_end h.suffix true

/-- No minus stands behind the place of the sign. -/
theorem NumberParts.not_minus {sign whole point fraction suffix : Bytes}
    (h : NumberParts text sign whole point fraction suffix) :
  minus ∉ whole ++ (point ++ (fraction ++ suffix))
  := by
  have hdigit : isDigit minus = false := by decide
  have hminus : minus ∉ suffixes ∧ minus ≠ dot := by decide
  simp only [List.mem_append, not_or]
  refine ⟨fun hmem => ?_, fun hmem => ?_, fun hmem => ?_, fun hmem => ?_⟩
  · rw [h.whole _ hmem] at hdigit
    cases hdigit
  · obtain hpoint | hpoint := h.point <;> rw [hpoint] at hmem
    · cases hmem
    · exact hminus.2 (List.mem_singleton.mp hmem)
  · rw [h.fraction _ hmem] at hdigit
    cases hdigit
  · obtain hsuffix | ⟨c, hc, hsuffix⟩ := h.suffix <;> rw [hsuffix] at hmem
    · cases hmem
    · rw [← List.mem_singleton.mp hmem] at hc
      exact hminus.1 hc

theorem parts_of_fraction (h : isDoubleSuffixLoop false true text = true) :
  ∃ fraction suffix, text = fraction ++ suffix ∧ (∀ c ∈ fraction, isDigit c = true) ∧
    (suffix = [] ∨ ∃ c ∈ suffixes, suffix = [c])
  := by
  induction text with
  | nil => exact ⟨[], [], rfl, by simp, .inl rfl⟩
  | cons c rest ih =>
    rw [isDoubleSuffixLoop, if_neg (by simp)] at h
    split_ifs at h with hdigit hdot hsuffix
    · obtain ⟨fraction, suffix, rfl, hfraction, hsuffix⟩ := ih h
      exact ⟨c :: fraction, suffix, rfl, List.forall_mem_cons.mpr ⟨hdigit, hfraction⟩, hsuffix⟩
    · exact absurd rfl hdot.2
    · obtain ⟨hc, rfl⟩ := hsuffix
      exact ⟨[], [c], rfl, by simp, .inr ⟨c, hc, rfl⟩⟩

theorem parts_of_whole (h : isDoubleSuffixLoop false false text = true) :
  ∃ whole point fraction suffix, NumberParts text [] whole point fraction suffix
  := by
  induction text with
  | nil => exact ⟨[], [], [], [], rfl, .inl rfl, by simp, .inl rfl, by simp, .inl rfl⟩
  | cons c rest ih =>
    rw [isDoubleSuffixLoop, if_neg (by simp)] at h
    split_ifs at h with hdigit hdot hsuffix
    · obtain ⟨whole, point, fraction, suffix, hparts⟩ := ih h
      refine ⟨c :: whole, point, fraction, suffix, ?_, .inl rfl, ?_, hparts.point,
        hparts.fraction, hparts.suffix⟩
      · rw [hparts.text_eq]
        rfl
      · exact List.forall_mem_cons.mpr ⟨hdigit, hparts.whole⟩
    · obtain ⟨fraction, suffix, rfl, hfraction, hsuffix⟩ := parts_of_fraction h
      refine ⟨[], [dot], fraction, suffix, ?_, .inl rfl, by simp, .inr rfl, hfraction, hsuffix⟩
      rw [hdot.1]
      rfl
    · obtain ⟨hc, rfl⟩ := hsuffix
      exact ⟨[], [], [], [c], rfl, .inl rfl, by simp, .inl rfl, by simp, .inr ⟨c, hc, rfl⟩⟩

/-- What `is_double_suffix` accepts. -/
theorem isDoubleSuffix_iff :
  isDoubleSuffix text = true ↔
    ∃ sign whole point fraction suffix, NumberParts text sign whole point fraction suffix
  := by
  rw [isDoubleSuffix]
  constructor
  · intro h
    cases text with
    | nil => exact ⟨[], parts_of_whole rfl⟩
    | cons c rest =>
      by_cases hc : c = minus
      · rw [isDoubleSuffixLoop, if_pos ⟨hc, rfl⟩] at h
        obtain ⟨whole, point, fraction, suffix, hparts⟩ := parts_of_whole h
        refine ⟨[minus], whole, point, fraction, suffix, ?_, .inr rfl, hparts.whole,
          hparts.point, hparts.fraction, hparts.suffix⟩
        rw [hc, hparts.text_eq]
        rfl
      · rw [isDoubleSuffixLoop_first (by simpa using hc)] at h
        exact ⟨[], parts_of_whole h⟩
  · rintro ⟨sign, whole, point, fraction, suffix, hparts⟩
    have hloop := hparts.loop
    have hminus := hparts.not_minus
    rw [hparts.text_eq]
    obtain rfl | rfl := hparts.sign
    · rw [List.nil_append, isDoubleSuffixLoop_first]
      · exact hloop
      · exact fun hhead => hminus (List.mem_of_head? hhead)
    · rw [List.singleton_append, isDoubleSuffixLoop, if_pos ⟨rfl, rfl⟩]
      exact hloop

/-- A number is what `is_double_suffix` accepts and has a digit. -/
theorem numeric_iff :
  Numeric text ↔ isDoubleSuffix text = true ∧ ∃ c ∈ text, isDigit c = true
  := by
  rw [isDoubleSuffix_iff]
  constructor
  · rintro ⟨sign, whole, point, fraction, suffix, hparts, hne⟩
    refine ⟨⟨sign, whole, point, fraction, suffix, hparts⟩, ?_⟩
    obtain ⟨c, hc⟩ := List.exists_mem_of_ne_nil _ hne
    rw [hparts.text_eq]
    obtain hc | hc := List.mem_append.mp hc
    · exact ⟨c, by simp [hc], hparts.whole c hc⟩
    · exact ⟨c, by simp [hc], hparts.fraction c hc⟩
  · rintro ⟨⟨sign, whole, point, fraction, suffix, hparts⟩, c, hc, hdigit⟩
    refine ⟨sign, whole, point, fraction, suffix, hparts, fun hnil => ?_⟩
    obtain ⟨rfl, rfl⟩ := List.append_eq_nil_iff.mp hnil
    have hother : isDigit minus = false ∧ isDigit dot = false ∧
        suffixes.Forall fun c => isDigit c = false := by decide
    rw [hparts.text_eq] at hc
    simp only [List.nil_append, List.mem_append] at hc
    obtain hc | hc | hc := hc
    · obtain rfl | rfl := hparts.sign
      · cases hc
      · rw [List.mem_singleton.mp hc, hother.1] at hdigit
        cases hdigit
    · obtain rfl | rfl := hparts.point
      · cases hc
      · rw [List.mem_singleton.mp hc, hother.2.1] at hdigit
        cases hdigit
    · obtain rfl | ⟨d, hd, rfl⟩ := hparts.suffix
      · cases hc
      · rw [List.mem_singleton.mp hc, List.forall_iff_forall_mem.mp hother.2.2 d hd] at hdigit
        cases hdigit

/-! ### Results -/

/-- The result of the function, which ends. -/
def Returns (row : Bytes → Option Bytes) (numeric : Bool) (maxErrorLen : ℕ) (text : Bytes)
    (r : Result) : Prop :=
  ∃ bound, ∀ rounds ≥ bound, substituteDiscoveryMacros row numeric maxErrorLen rounds text = some r

theorem returns_outcome (row : Bytes → Option Bytes) (numeric : Bool) (maxErrorLen : ℕ)
    (text : Bytes) :
  Returns row numeric maxErrorLen text (outcome row numeric maxErrorLen (pieces text))
  := ⟨text.length + 1, fun _ hle => substituteLoop_eq row numeric maxErrorLen [] text hle⟩

theorem Returns.unique {numeric : Bool} {maxErrorLen : ℕ} {r r' : Result}
    (h : Returns row numeric maxErrorLen text r) (h' : Returns row numeric maxErrorLen text r') :
  r = r'
  := by
  obtain ⟨bound, h⟩ := h
  obtain ⟨bound', h'⟩ := h'
  have heq := (h _ (le_max_left bound bound')).symm.trans (h' _ (le_max_right bound bound'))
  exact Option.some.inj heq

theorem outcome_plain (maxErrorLen : ℕ) (ps : List Piece) :
  outcome row false maxErrorLen ps = { data := ps.flatMap (valueOf row), error := none }
  := by
  induction ps with
  | nil => rfl
  | cons p ps ih =>
    cases p with
    | char c =>
      rw [outcome, ih, List.flatMap_cons]
      rfl
    | discoveryMacro name =>
      rw [outcome, ih, List.flatMap_cons, valueOf]
      cases row (braced name) <;> rfl

/-- With `ZBX_MACRO_NUMERIC` the function fails at a macro without an accepted value. -/
theorem outcome_fails_iff (maxErrorLen : ℕ) (ps : List Piece) :
  (outcome row true maxErrorLen ps).error.isSome ↔
    ∃ name, .discoveryMacro name ∈ ps ∧
      ∀ value ∈ row (braced name), isDoubleSuffix value = false
  := by
  induction ps with
  | nil => simp [outcome]
  | cons p ps ih =>
    cases p with
    | char c =>
      rw [outcome, Result.behind]
      dsimp only
      rw [ih]
      simp
    | discoveryMacro name =>
      rw [outcome]
      cases hrow : row (braced name) with
      | none =>
        refine iff_of_true rfl ⟨name, List.mem_cons_self, ?_⟩
        simp [hrow]
      | some value =>
        dsimp only
        by_cases hvalue : isDoubleSuffix value = true
        · rw [if_neg (by simp [hvalue]), Result.behind]
          dsimp only
          rw [ih]
          constructor
          · rintro ⟨name', hmem, hvalues⟩
            exact ⟨name', List.mem_cons_of_mem _ hmem, hvalues⟩
          · rintro ⟨name', hmem, hvalues⟩
            obtain heq | hmem := List.mem_cons.mp hmem
            · rw [Piece.discoveryMacro.inj heq, hrow] at hvalues
              rw [hvalues value rfl] at hvalue
              cases hvalue
            · exact ⟨name', hmem, hvalues⟩
        · rw [Bool.not_eq_true] at hvalue
          rw [if_pos (by simp [hvalue])]
          refine iff_of_true rfl ⟨name, List.mem_cons_self, ?_⟩
          rw [hrow]
          intro v hv
          rw [← Option.some.inj hv]
          exact hvalue

/-- What the function is to do: put the values in, and fail for a macro without a number. -/
structure Meets (row : Bytes → Option Bytes) (text : Bytes) : Prop where
  substitutes : ∀ maxErrorLen, Returns row false maxErrorLen text
    { data := (pieces text).flatMap (valueOf row), error := none }
  refuses : ∀ maxErrorLen, ∃ r, Returns row true maxErrorLen text r ∧
    (r.error.isSome ↔
      ∃ name, Occurs name text ∧ ∀ value ∈ row (braced name), ¬ Numeric value)

theorem outcome_isSome_iff (row : Bytes → Option Bytes) (text : Bytes) (maxErrorLen : ℕ) :
  (outcome row true maxErrorLen (pieces text)).error.isSome ↔
    ∃ name, Occurs name text ∧ ∀ value ∈ row (braced name), isDoubleSuffix value = false
  := by
  simp only [outcome_fails_iff, mem_pieces_iff]

/-- Where the function does what it is to do and all macros have accepted values, these have
digits. -/
theorem digit_of_meets {row : Bytes → Option Bytes} {text : Bytes} (h : Meets row text)
    (haccepted : ∀ name, Occurs name text →
      ∃ value ∈ row (braced name), isDoubleSuffix value = true)
    {name value : Bytes} (hname : Occurs name text) (hvalue : value ∈ row (braced name)) :
  ∃ c ∈ value, isDigit c = true
  := by
  obtain ⟨r, hreturns, hrefuses⟩ := h.refuses 0
  rw [hreturns.unique (returns_outcome row true 0 text), outcome_isSome_iff] at hrefuses
  by_contra hdigit
  -- the function accepts the value that has no digit, and all others
  obtain ⟨name', hname', hnone⟩ := hrefuses.mpr ⟨name, hname, fun v hv hnumeric => by
    rw [Option.mem_unique hv hvalue] at hnumeric
    exact hdigit (numeric_iff.mp hnumeric).2⟩
  obtain ⟨value', hvalue', hsuffix⟩ := haccepted name' hname'
  rw [hnone value' hvalue'] at hsuffix
  cases hsuffix

/-- The function does what it is to do unless all macros have accepted values and one of these
has no digit. -/
theorem macros_meet_iff (row : Bytes → Option Bytes) (text : Bytes) :
  Meets row text ↔
    ((∀ name, Occurs name text → ∃ value ∈ row (braced name), isDoubleSuffix value = true) →
      ∀ name, Occurs name text → ∀ value ∈ row (braced name), ∃ c ∈ value, isDigit c = true)
  := by
  constructor
  · intro h haccepted name hname value hvalue
    exact digit_of_meets h haccepted hname hvalue
  · intro h
    refine ⟨fun maxErrorLen => ?_, fun maxErrorLen => ?_⟩
    · rw [← outcome_plain maxErrorLen]
      exact returns_outcome row false maxErrorLen text
    · refine ⟨_, returns_outcome row true maxErrorLen text, ?_⟩
      rw [outcome_isSome_iff]
      constructor
      · rintro ⟨name, hname, hnone⟩
        refine ⟨name, hname, fun value hvalue hnumeric => ?_⟩
        have hsuffix := (numeric_iff.mp hnumeric).1
        rw [hnone value hvalue] at hsuffix
        cases hsuffix
      · rintro ⟨name, hname, hnone⟩
        by_contra hall
        have haccepted : ∀ name, Occurs name text →
            ∃ value ∈ row (braced name), isDoubleSuffix value = true := by
          intro name' hname'
          by_contra hno
          apply hall
          refine ⟨name', hname', fun value hvalue => ?_⟩
          rw [← Bool.not_eq_true]
          exact fun hsuffix => hno ⟨value, hvalue, hsuffix⟩
        obtain ⟨value, hvalue, hsuffix⟩ := haccepted name hname
        exact hnone value hvalue (numeric_iff.mpr ⟨hsuffix, h haccepted name hname value hvalue⟩)

/-- The macro `{#A}` with an empty value is accepted as a number. -/
theorem emptyValue_not_meets :
  ¬ Meets (fun _ => some []) (braced [0x41])
  := by
  intro h
  have hoccurs : Occurs [0x41] (braced [0x41]) :=
    ⟨List.all_eq_true.mp (by decide), List.infix_refl _⟩
  obtain ⟨c, hc, -⟩ := digit_of_meets h (fun _ _ => ⟨[], rfl, by decide⟩) hoccurs rfl
  cases hc

end DiscoveryMacros
