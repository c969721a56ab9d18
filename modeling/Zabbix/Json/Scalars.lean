import Mathlib.Data.List.TakeWhile
import Zabbix.Json.Validator

/-!
# Strings, numbers and whitespace of the validator

What the validator accepts as a string and as a number, and where it stops.
-/

open Ascii

namespace Json

/-! ### Whitespace -/

theorem skipWhitespace_append {ws : Bytes} (h : IsWs ws) (text : Bytes) :
  skipWhitespace (ws ++ text) = skipWhitespace text
  := by
  induction ws with
  | nil => rfl
  | cons c ws ih =>
    have hc : isWhitespace c = true := h c List.mem_cons_self
    have hrest := ih fun b hb => h b (List.mem_cons_of_mem _ hb)
    unfold skipWhitespace at hrest ⊢
    rw [List.cons_append, List.dropWhile_cons, if_pos hc]
    exact hrest

theorem skipWhitespace_cons {c : UInt8} (h : isWhitespace c = false) (text : Bytes) :
  skipWhitespace (c :: text) = c :: text
  := by
  simp [skipWhitespace, h]

theorem skipWhitespace_ws {ws : Bytes} (h : IsWs ws) :
  skipWhitespace ws = []
  := by
  have happend := skipWhitespace_append h []
  rw [List.append_nil] at happend
  exact happend

theorem exists_ws (text : Bytes) :
  ∃ ws, IsWs ws ∧ text = ws ++ skipWhitespace text
  := by
  refine ⟨text.takeWhile isWhitespace, ?_, List.takeWhile_append_dropWhile.symm⟩
  intro c hc
  exact List.mem_takeWhile_imp hc

theorem IsWs.append {ws ws' : Bytes} (h : IsWs ws) (h' : IsWs ws') :
  IsWs (ws ++ ws')
  := by
  intro c hc
  obtain hc | hc := List.mem_append.mp hc
  · exact h c hc
  · exact h' c hc

theorem isWs_nil :
  IsWs []
  := by
  intro c hc
  cases hc

/-! ### Numbers -/

/-- All bytes are digits. -/
def AllDigits (text : Bytes) : Prop := ∀ c ∈ text, isDigit c = true

/-- The text does not go on with a digit. -/
def NoDigit (text : Bytes) : Prop := ∀ c ∈ text.head?, isDigit c = false

theorem not_isDigit_dot :
  isDigit dot = false
  := by decide

theorem ne_dot_of_isDigit {c : UInt8} (h : isDigit c = true) :
  c ≠ dot
  := by
  rintro rfl
  rw [not_isDigit_dot] at h
  cases h

theorem takeWhile_isDigit (text : Bytes) :
  AllDigits (text.takeWhile isDigit) ∧ NoDigit (text.dropWhile isDigit) ∧
    text = text.takeWhile isDigit ++ text.dropWhile isDigit
  := by
  refine ⟨fun c hc => List.mem_takeWhile_imp hc, ?_, List.takeWhile_append_dropWhile.symm⟩
  intro c hc
  have hhead := List.head?_dropWhile_not isDigit text
  rw [hc] at hhead
  simpa using hhead

theorem dropWhile_digits {ds rest : Bytes} (hds : AllDigits ds) (hrest : NoDigit rest) :
  (ds ++ rest).dropWhile isDigit = rest
  := by
  induction ds with
  | nil =>
    cases rest with
    | nil => rfl
    | cons c rest =>
      have hc : isDigit c = false := hrest c rfl
      simp [hc]
  | cons c ds ih =>
    rw [List.cons_append, List.dropWhile_cons, if_pos (hds c List.mem_cons_self)]
    exact ih fun b hb => hds b (List.mem_cons_of_mem _ hb)

/-- Behind the decimal point the loop goes on over the digits. -/
theorem numberLoop_point (digit : ℕ) (text : Bytes) :
  numberLoop true digit text = (text.dropWhile isDigit, digit)
  := by
  induction text with
  | nil => rfl
  | cons c text ih =>
    by_cases hdot : c = dot
    · subst hdot
      simp [numberLoop, not_isDigit_dot]
    · by_cases hdigit : isDigit c = true
      · simpa [numberLoop, hdot, hdigit] using ih
      · simp [numberLoop, hdot, hdigit]

theorem numberLoop_digits {ds : Bytes} (hds : AllDigits ds) (digit : ℕ) (text : Bytes) :
  numberLoop false digit (ds ++ text) = numberLoop false (digit + ds.length) text
  := by
  induction ds generalizing digit with
  | nil => rfl
  | cons c ds ih =>
    have hc := hds c List.mem_cons_self
    have hrest := ih (fun b hb => hds b (List.mem_cons_of_mem _ hb)) (digit + 1)
    rw [List.cons_append, numberLoop, if_neg (ne_dot_of_isDigit hc), if_pos hc]
    simp only [Bool.false_eq_true, if_false, List.length_cons]
    rw [hrest]
    congr 1
    omega

/-- The loop stops behind the integer part and the fraction. -/
theorem numberLoop_complete {ds fraction rest : Bytes} (hds : AllDigits ds)
    (hfraction : IsFraction (fun _ => True) fraction) (hrest : NoDigit rest)
    (hdot : fraction = [] → rest.head? ≠ some dot) :
  numberLoop false 0 (ds ++ (fraction ++ rest)) = (rest, ds.length)
  := by
  rw [numberLoop_digits hds, Nat.zero_add]
  obtain rfl | ⟨fs, hfs, -, rfl⟩ := hfraction
  · cases rest with
    | nil => rfl
    | cons c rest =>
      have hc : isDigit c = false := hrest c rfl
      have hne : c ≠ dot := by simpa using hdot rfl
      simp [numberLoop, hc, hne]
  · rw [List.cons_append, numberLoop, if_pos rfl]
    simp only [Bool.false_eq_true, if_false]
    rw [numberLoop_point, dropWhile_digits hfs hrest]

/-- What the loop passes is an integer part and a fraction. -/
theorem numberLoop_sound {text rest : Bytes} {digit : ℕ}
    (h : numberLoop false 0 text = (rest, digit)) :
  ∃ ds fraction, AllDigits ds ∧ IsFraction (fun _ => True) fraction ∧
    text = ds ++ (fraction ++ rest) ∧ digit = ds.length
  := by
  obtain ⟨hds, hstop, hsplit⟩ := takeWhile_isDigit text
  have hloop := numberLoop_digits hds 0 (text.dropWhile isDigit)
  rw [← hsplit, h, Nat.zero_add] at hloop
  cases htail : text.dropWhile isDigit with
  | nil =>
    rw [htail] at hloop
    obtain ⟨rfl, rfl⟩ := Prod.mk.inj hloop
    exact ⟨_, [], hds, .inl rfl, by simpa [htail] using hsplit, rfl⟩
  | cons c tail =>
    rw [htail] at hloop hstop
    have hc : isDigit c = false := hstop c rfl
    by_cases hdot : c = dot
    · subst hdot
      rw [numberLoop, if_pos rfl] at hloop
      simp only [Bool.false_eq_true, if_false] at hloop
      rw [numberLoop_point] at hloop
      obtain ⟨rfl, rfl⟩ := Prod.mk.inj hloop
      obtain ⟨hfs, -, hfsplit⟩ := takeWhile_isDigit tail
      refine ⟨_, dot :: tail.takeWhile isDigit, hds, .inr ⟨_, hfs, trivial, rfl⟩, ?_, rfl⟩
      rw [List.cons_append, ← hfsplit, ← htail]
      exact hsplit
    · have hend : numberLoop false (text.takeWhile isDigit).length (c :: tail) =
          (c :: tail, (text.takeWhile isDigit).length) := by
        simp [numberLoop, hdot, hc]
      rw [hend] at hloop
      obtain ⟨rfl, rfl⟩ := Prod.mk.inj hloop
      exact ⟨_, [], hds, .inl rfl, by simpa [htail] using hsplit, rfl⟩

theorem parsePower_sound {ptr rest : Bytes} (h : parsePower ptr = .ok rest) :
  ∃ sign digits, (sign = [] ∨ sign = [plus] ∨ sign = [minus]) ∧ IsDigits digits ∧
    ptr = sign ++ (digits ++ rest)
  := by
  unfold parsePower at h
  cases ptr with
  | nil => cases h
  | cons c tail =>
    dsimp only at h
    have hsign : ∃ sign, (sign = [] ∨ sign = [plus] ∨ sign = [minus]) ∧
        c :: tail = sign ++ (if c = plus ∨ c = minus then tail else c :: tail) := by
      by_cases hc : c = plus ∨ c = minus
      · refine ⟨[c], ?_, by simp [hc]⟩
        obtain rfl | rfl := hc <;> simp
      · exact ⟨[], .inl rfl, by simp [hc]⟩
    obtain ⟨sign, hsign, hsplit⟩ := hsign
    revert h hsplit
    generalize (if c = plus ∨ c = minus then tail else c :: tail) = ptr
    intro h hsplit
    cases ptr with
    | nil => cases h
    | cons d more =>
      dsimp only at h
      by_cases hd : isDigit d = true
      · rw [if_pos hd] at h
        obtain rfl := Except.ok.inj h
        obtain ⟨hds, -, hmore⟩ := takeWhile_isDigit more
        refine ⟨sign, d :: more.takeWhile isDigit, hsign, ⟨by simp, ?_⟩, ?_⟩
        · intro b hb
          obtain rfl | hb := List.mem_cons.mp hb
          · exact hd
          · exact hds b hb
        · rw [List.cons_append, ← hmore]
          exact hsplit
      · rw [if_neg hd] at h
        cases h

theorem parsePower_complete {sign digits rest : Bytes}
    (hsign : sign = [] ∨ sign = [plus] ∨ sign = [minus]) (hdigits : IsDigits digits)
    (hrest : NoDigit rest) :
  parsePower (sign ++ (digits ++ rest)) = .ok rest
  := by
  obtain ⟨hne, hall⟩ := hdigits
  obtain ⟨d, more, rfl⟩ := List.exists_cons_of_ne_nil hne
  have hd : isDigit d = true := hall d List.mem_cons_self
  have hmore : AllDigits more := fun b hb => hall b (List.mem_cons_of_mem _ hb)
  have hplus : ¬ (d = plus ∨ d = minus) := by
    rintro (rfl | rfl) <;> exact absurd hd (by decide)
  have hdrop := dropWhile_digits hmore hrest
  obtain rfl | rfl | rfl := hsign
  · simp [parsePower, hplus, hd, hdrop]
  · simp [parsePower, hd, hdrop]
  · simp [parsePower, hd, hdrop]

/-- The text does not go on with a character of a number. -/
def EndsNumber (rest : Bytes) : Prop :=
  NoDigit rest ∧ rest.head? ≠ some dot ∧ rest.head? ≠ some 'e'.toUInt8 ∧
    rest.head? ≠ some 'E'.toUInt8

theorem IsDigits.head {digits : Bytes} (h : IsDigits digits) (rest : Bytes) :
  ∃ c more, digits = c :: more ∧ isDigit c = true ∧ (digits ++ rest).head? = some c
  := by
  obtain ⟨c, more, rfl⟩ := List.exists_cons_of_ne_nil h.1
  exact ⟨c, more, rfl, h.2 c List.mem_cons_self, rfl⟩

/-- `json_parse_number` without its sign. -/
theorem jsonParseNumber_sign {sign ptr : Bytes} (hsign : IsSign sign)
    (hptr : ptr.head? ≠ some minus) :
  (if (sign ++ ptr).head? = some minus then (sign ++ ptr).tail else sign ++ ptr) = ptr
  := by
  obtain rfl | rfl := hsign
  · simp [hptr]
  · simp

theorem jsonParseNumber_complete {raw rest : Bytes} (h : validated.number raw)
    (hrest : EndsNumber rest) :
  jsonParseNumber (raw ++ rest) = .ok rest
  := by
  obtain ⟨sign, int, fraction, power, hsign, ⟨hint, hzero⟩, hfraction, hpower, rfl⟩ := h
  obtain ⟨hnodigit, hnodot, hnoe, hnoE⟩ := hrest
  obtain ⟨c, more, rfl, hc, hhead⟩ := hint.head (fraction ++ (power ++ rest))
  have hminus : some c ≠ some minus := by
    rintro heq
    rw [Option.some.inj heq] at hc
    exact absurd hc (by decide)
  have hptr := jsonParseNumber_sign hsign (by rw [hhead]; exact hminus)
  have hassoc : sign ++ ((c :: more) ++ (fraction ++ power)) ++ rest =
      sign ++ ((c :: more) ++ (fraction ++ (power ++ rest))) := by simp
  have hlen : ¬ (c :: more).length = 0 := by simp
  have hlead : ¬ (some c = some '0'.toUInt8 ∧ 1 < (c :: more).length) := by
    rintro ⟨hc0, hlt⟩
    have hone := hzero hc0
    omega
  unfold jsonParseNumber
  rw [hassoc, hptr]
  dsimp only
  rw [hhead]
  obtain rfl | ⟨e, psign, digits, he, hpsign, hdigits, rfl⟩ := hpower
  · rw [List.nil_append, numberLoop_complete hint.2 hfraction hnodigit fun _ => hnodot]
    dsimp only
    rw [if_neg hlen, if_neg hlead, if_neg (by rintro (h | h); exacts [hnoe h, hnoE h])]
  · have hed : isDigit e = false ∧ e ≠ dot := by
      obtain rfl | rfl := he <;> decide
    have hnext : NoDigit (e :: (psign ++ digits) ++ rest) := by
      intro b hb
      obtain rfl : e = b := by simpa using hb
      exact hed.1
    rw [numberLoop_complete hint.2 hfraction hnext fun _ => by simpa using hed.2]
    dsimp only
    rw [if_neg hlen, if_neg hlead, if_pos (by simpa using he), List.cons_append,
      List.tail_cons, List.append_assoc]
    exact parsePower_complete hpsign hdigits hnodigit

theorem jsonParseNumber_sound {start rest : Bytes} (h : jsonParseNumber start = .ok rest) :
  ∃ raw, validated.number raw ∧ start = raw ++ rest
  := by
  unfold jsonParseNumber at h
  have hsign : ∃ sign, IsSign sign ∧
      start = sign ++ (if start.head? = some minus then start.tail else start) := by
    by_cases hminus : start.head? = some minus
    · obtain ⟨tail, rfl⟩ := List.head?_eq_some_iff.mp hminus
      exact ⟨[minus], .inr rfl, by simp⟩
    · exact ⟨[], .inl rfl, by simp [hminus]⟩
  obtain ⟨sign, hsign, hsplit⟩ := hsign
  revert h hsplit
  generalize (if start.head? = some minus then start.tail else start) = ptr
  intro h hsplit
  dsimp only at h
  cases hloop : numberLoop false 0 ptr with
  | mk ptr' digit =>
    obtain ⟨ds, fraction, hds, hfraction, rfl, rfl⟩ := numberLoop_sound hloop
    rw [hloop] at h
    dsimp only at h
    split at h
    · cases h
    rename_i hne
    split at h
    · cases h
    rename_i hlead
    have hint : IsInt ds := by
      refine ⟨⟨by rintro rfl; exact hne rfl, hds⟩, fun hzero => ?_⟩
      by_contra hlen
      apply hlead
      refine ⟨?_, by omega⟩
      cases ds with
      | nil => cases hzero
      | cons c ds => exact hzero
    split at h
    · rename_i he
      obtain ⟨psign, digits, hpsign, hdigits, htail⟩ := parsePower_sound h
      obtain ⟨e, he, hcons⟩ : ∃ e, (e = 'e'.toUInt8 ∨ e = 'E'.toUInt8) ∧
          ptr' = e :: ptr'.tail := by
        obtain he | he := he
        · obtain ⟨tail, rfl⟩ := List.head?_eq_some_iff.mp he
          exact ⟨_, .inl rfl, rfl⟩
        · obtain ⟨tail, rfl⟩ := List.head?_eq_some_iff.mp he
          exact ⟨_, .inr rfl, rfl⟩
      refine ⟨sign ++ (ds ++ (fraction ++ (e :: (psign ++ digits)))), ?_, ?_⟩
      · exact ⟨sign, ds, fraction, _, hsign, hint, hfraction,
          .inr ⟨e, psign, digits, he, hpsign, hdigits, rfl⟩, rfl⟩
      · rw [hsplit, hcons, htail]
        simp
    · obtain rfl := Except.ok.inj h
      refine ⟨sign ++ (ds ++ (fraction ++ [])), ?_, by rw [hsplit]; simp⟩
      exact ⟨sign, ds, fraction, [], hsign, hint, hfraction, .inl rfl, rfl⟩

end Json
