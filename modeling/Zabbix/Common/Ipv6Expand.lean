import Zabbix.Common.Ipv6

/-!
# The addresses `expand_ipv6` accepts

The loop of `expand_ipv6` reads a text part by part. From the parts it accepts the text is
rebuilt, so that the accepted texts are known exactly.
-/

namespace Ipv6

open Ascii

/-! ### A part of the text -/

@[simp]
theorem join_singleton (part : Bytes) :
  join [part] = part
  := Fields.join_singleton part

theorem join_cons (part : Bytes) {parts : List Bytes} (h : parts ≠ []) :
  join (part :: parts) = part ++ colon :: join parts
  := Fields.join_cons part h

theorem join_append {front back : List Bytes} (h : front ≠ []) (h' : back ≠ []) :
  join (front ++ back) = join front ++ colon :: join back
  := Fields.join_append h h'

theorem isHexDigit_colon :
  isHexDigit colon = false
  := by decide

theorem GroupText.not_mem_colon {t : Bytes} (h : GroupText t) :
  colon ∉ t
  := fun hmem => absurd (h.digits colon hmem) (by decide)

/-- A group that has been read. -/
def Expansion.put (e : Expansion) (t : Bytes) : Expansion :=
  { e with i := e.i.set e.pos (Digits.value 16 t), pos := e.pos + 1, buf := [] }

theorem Expansion.store_group (e : Expansion) {t : Bytes} (h : t ≠ []) :
  ({ e with buf := t } : Expansion).store = e.put t
  := if_neg h

theorem read_digit {e : Expansion} {ch : UInt8} (h : isHexDigit ch = true)
    (hroom : e.buf.length + 1 ≤ 4) :
  e.read ch = some { e with buf := e.buf ++ [ch] }
  := by
  rw [Expansion.read, if_pos h, if_neg (by omega)]

/-- The digits of a part before its last one are kept in the buffer. -/
theorem expandLoop_digits (c : ℕ) {t : Bytes} (h : ∀ ch ∈ t, isHexDigit ch = true)
    {e : Expansion} (hroom : e.buf.length + t.length ≤ 4) {rest : Bytes} (hrest : rest ≠ [])
    (j : ℕ) :
  expandLoop c (t ++ rest) j e
    = expandLoop c rest (j + t.length) { e with buf := e.buf ++ t }
  := by
  induction t generalizing e j with
  | nil => simp
  | cons ch t ih =>
    rw [List.forall_mem_cons] at h
    rw [List.length_cons] at hroom
    have hcolon : ¬ (ch = colon ∨ t ++ rest = []) := by
      rintro (rfl | hnil)
      · exact absurd h.1 (by decide)
      · exact hrest (List.append_eq_nil_iff.mp hnil).2
    rw [List.cons_append, expandLoop, read_digit h.1 (by omega)]
    simp only [if_neg hcolon]
    rw [ih h.2 (by simp only [List.length_append, List.length_singleton]; omega)]
    simp only [List.length_cons, List.append_assoc, List.singleton_append]
    congr 1
    omega

theorem expandLoop_colon (c : ℕ) (rest : Bytes) (j : ℕ) (e : Expansion) :
  expandLoop c (colon :: rest) j e =
    if rest.head? = some colon then
      if e.store.dc = false then
        expandLoop c rest (j + 1)
          { e.store with dc := true, pos := (8 - c) + e.store.pos + if j = 0 then 1 else 0 }
      else none
    else expandLoop c rest (j + 1) e.store
  := by
  rw [expandLoop]
  simp [Expansion.read, isHexDigit_colon]

/-- A group in front of a colon. -/
theorem expandLoop_group (c : ℕ) {t : Bytes} (h : GroupText t) {e : Expansion}
    (hbuf : e.buf = []) (rest : Bytes) (j : ℕ) :
  expandLoop c (t ++ colon :: rest) j e =
    if rest.head? = some colon then
      if e.dc = false then
        expandLoop c rest (j + t.length + 1)
          { e.put t with dc := true, pos := (8 - c) + (e.pos + 1) }
      else none
    else expandLoop c rest (j + t.length + 1) (e.put t)
  := by
  have hpos : 0 < t.length := List.length_pos_of_ne_nil h.nonempty
  rw [expandLoop_digits c h.digits (by simp [hbuf, h.short]) (by simp), hbuf, List.nil_append,
    expandLoop_colon, e.store_group h.nonempty]
  simp only [Expansion.put, if_neg (show ¬ j + t.length = 0 by omega), Nat.add_zero]

/-- A group at the end. -/
theorem expandLoop_last (c : ℕ) {t : Bytes} (h : GroupText t) {e : Expansion}
    (hbuf : e.buf = []) (j : ℕ) :
  expandLoop c t j e = some (e.put t).i
  := by
  obtain ⟨t', ch, rfl⟩ := List.eq_nil_or_concat t |>.resolve_left h.nonempty
  have hdigits := h.digits
  rw [List.concat_eq_append] at hdigits ⊢
  rw [List.forall_mem_append, List.forall_mem_singleton] at hdigits
  have hshort := h.short
  rw [List.length_concat] at hshort
  rw [expandLoop_digits c hdigits.1 (by rw [hbuf]; simp; omega) (by simp), hbuf, List.nil_append,
    expandLoop, read_digit hdigits.2 (by simpa using hshort)]
  simp only [or_true, if_true, List.head?_nil, reduceCtorEq, if_false, expandLoop,
    ← e.store_group (List.append_ne_nil_of_right_ne_nil t' (List.cons_ne_nil ch []))]

/-- A part that is no group is refused. -/
theorem expandLoop_none (c : ℕ) {t : Bytes} (hcolon : colon ∉ t) {e : Expansion}
    (hlen : e.buf.length ≤ 4)
    (h : ¬ ((∀ ch ∈ t, isHexDigit ch = true) ∧ e.buf.length + t.length ≤ 4)) (rest : Bytes)
    (j : ℕ) :
  expandLoop c (t ++ rest) j e = none
  := by
  induction t generalizing e j with
  | nil => exact absurd ⟨by simp, by simpa using hlen⟩ h
  | cons ch t ih =>
    rw [List.mem_cons, not_or] at hcolon
    rw [List.cons_append, expandLoop]
    by_cases hdigit : isHexDigit ch = true
    · by_cases hfull : e.buf.length > 3
      · rw [Expansion.read, if_pos hdigit, if_pos hfull]
      · rw [read_digit hdigit (by omega)]
        have hrest : ¬ ((∀ ch ∈ t, isHexDigit ch = true) ∧
            (e.buf ++ [ch]).length + t.length ≤ 4) := by
          rintro ⟨hall, hroom⟩
          rw [List.length_append, List.length_singleton] at hroom
          refine h ⟨List.forall_mem_cons.mpr ⟨hdigit, hall⟩, ?_⟩
          rw [List.length_cons]
          omega
        have hne : ¬ (ch = colon ∨ t ++ rest = []) := by
          rintro (heq | hnil)
          · exact hcolon.1 heq.symm
          · rw [(List.append_eq_nil_iff.mp hnil).1] at hrest
            exact hrest ⟨by simp, by simp; omega⟩
        simp only [if_neg hne]
        exact ih hcolon.2 (by simp; omega) hrest (j + 1)
    · rw [Expansion.read, if_neg hdigit, if_pos (Ne.symm hcolon.1)]

/-! ### Groups -/

theorem head?_part {t : Bytes} (hne : t ≠ []) (hcolon : colon ∉ t) (rest : Bytes) :
  (t ++ rest).head? ≠ some colon
  := by
  obtain ⟨ch, t', rfl⟩ := List.exists_cons_of_ne_nil hne
  rw [List.cons_append, List.head?_cons, ne_eq, Option.some.injEq]
  exact fun heq => hcolon (heq ▸ List.mem_cons_self)

theorem head?_join_part {t : Bytes} (hne : t ≠ []) (hcolon : colon ∉ t) (fields : List Bytes) :
  (join (t :: fields)).head? ≠ some colon
  := by
  cases fields with
  | nil =>
    rw [join_singleton, ← List.append_nil t]
    exact head?_part hne hcolon []
  | cons t' fields =>
    rw [join_cons t (List.cons_ne_nil t' fields)]
    exact head?_part hne hcolon _

theorem head?_join {t : Bytes} (h : GroupText t) (ts : List Bytes) :
  (join (t :: ts)).head? ≠ some colon
  := head?_join_part h.nonempty h.not_mem_colon ts

@[simp]
theorem put_buf (e : Expansion) (t : Bytes) :
  (e.put t).buf = []
  := rfl

@[simp]
theorem put_dc (e : Expansion) (t : Bytes) :
  (e.put t).dc = e.dc
  := rfl

@[simp]
theorem put_pos (e : Expansion) (t : Bytes) :
  (e.put t).pos = e.pos + 1
  := rfl

/-- Groups that have been read one behind the other. -/
def Expansion.putAll (e : Expansion) (ts : List Bytes) : Expansion := ts.foldl Expansion.put e

theorem putAll_cons (e : Expansion) (t : Bytes) (ts : List Bytes) :
  e.putAll (t :: ts) = (e.put t).putAll ts
  := rfl

theorem putAll_spec (ts : List Bytes) {e : Expansion} (hbuf : e.buf = []) :
  (e.putAll ts).buf = [] ∧ (e.putAll ts).dc = e.dc ∧ (e.putAll ts).pos = e.pos + ts.length
  := by
  induction ts generalizing e with
  | nil => exact ⟨hbuf, rfl, rfl⟩
  | cons t ts ih =>
    obtain ⟨hb, hd, hp⟩ := ih (put_buf e t)
    rw [putAll_cons]
    refine ⟨hb, hd, ?_⟩
    rw [hp, put_pos, List.length_cons]
    omega

/-- Groups take the places of as many numbers. -/
theorem putAll_i (ts : List Bytes) {e : Expansion} {front old back : List ℕ}
    (hi : e.i = front ++ old ++ back) (hpos : e.pos = front.length)
    (hold : old.length = ts.length) :
  (e.putAll ts).i = front ++ groups ts ++ back
  := by
  induction ts generalizing e front old with
  | nil =>
    rw [List.length_nil, List.length_eq_zero_iff] at hold
    rw [hold] at hi
    exact hi
  | cons t ts ih =>
    obtain ⟨x, old, rfl⟩ := List.exists_cons_of_length_eq_add_one hold
    have hset : (e.put t).i = front ++ [Digits.value 16 t] ++ old ++ back := by
      change e.i.set e.pos _ = _
      rw [hi, hpos, List.append_assoc, List.set_append_right _ _ (Nat.le_refl _), Nat.sub_self]
      simp
    rw [putAll_cons, ih hset (by simp [hpos]) (Nat.succ_inj.mp hold)]
    simp

theorem expandLoop_join (c : ℕ) {ts : List Bytes} (hne : ts ≠ []) (h : ∀ t ∈ ts, GroupText t)
    {e : Expansion} (hbuf : e.buf = []) (j : ℕ) :
  expandLoop c (join ts) j e = some (e.putAll ts).i
  := by
  induction ts generalizing e j with
  | nil => exact absurd rfl hne
  | cons t ts ih =>
    rw [List.forall_mem_cons] at h
    cases ts with
    | nil =>
      rw [join_singleton, expandLoop_last c h.1 hbuf]
      rfl
    | cons t' ts =>
      have hhead := head?_join (h.2 t' List.mem_cons_self) ts
      rw [join_cons t (List.cons_ne_nil t' ts), expandLoop_group c h.1 hbuf,
        if_neg hhead]
      exact ih (List.cons_ne_nil t' ts) h.2 (put_buf e t) _

/-- A `::` behind groups. -/
theorem expandLoop_join_colons (c : ℕ) {ts : List Bytes} (hne : ts ≠ [])
    (h : ∀ t ∈ ts, GroupText t) {e : Expansion} (hbuf : e.buf = []) (hdc : e.dc = false)
    (rest : Bytes) (j : ℕ) :
  expandLoop c (join ts ++ colon :: colon :: rest) j e
    = expandLoop c (colon :: rest) (j + (join ts).length + 1)
        { e.putAll ts with dc := true, pos := (8 - c) + (e.pos + ts.length) }
  := by
  induction ts generalizing e j with
  | nil => exact absurd rfl hne
  | cons t ts ih =>
    rw [List.forall_mem_cons] at h
    cases ts with
    | nil =>
      rw [join_singleton, expandLoop_group c h.1 hbuf, if_pos List.head?_cons,
        if_pos hdc]
      rfl
    | cons t' ts =>
      have hhead : (join (t' :: ts) ++ colon :: colon :: rest).head? ≠ some colon := by
        have hjoin := head?_join (h.2 t' List.mem_cons_self) ts
        cases htext : join (t' :: ts) with
        | nil =>
          have hfields := Fields.join_eq_nil htext (List.cons_ne_nil t' ts)
          rw [List.cons.injEq] at hfields
          exact absurd hfields.1 (h.2 t' List.mem_cons_self).nonempty
        | cons ch text => rwa [htext] at hjoin
      rw [join_cons t (List.cons_ne_nil t' ts), List.append_assoc, List.cons_append,
        expandLoop_group c h.1 hbuf, if_neg hhead,
        ih (List.cons_ne_nil t' ts) h.2 (put_buf e t) (by rw [put_dc, hdc]), putAll_cons]
      simp only [join, List.length_append, List.length_cons, put_pos]
      congr 1
      · omega
      · congr 1
        omega

/-- The second colon of a `::`. -/
theorem expandLoop_second (c : ℕ) {rest : Bytes} (hrest : rest.head? ≠ some colon)
    {e : Expansion} (hbuf : e.buf = []) (j : ℕ) :
  expandLoop c (colon :: rest) j e = expandLoop c rest (j + 1) e
  := by
  have hstore : e.store = e := if_pos hbuf
  rw [expandLoop_colon, if_neg hrest, hstore]

/-! ### Texts accepted -/

/-- The texts that `expand_ipv6` accepts, and their groups. -/
inductive Accepts : Bytes → List ℕ → Prop
  | groups {ts : List Bytes} (hthree : 3 ≤ ts.length) (height : ts.length ≤ 8)
    (htexts : ∀ t ∈ ts, GroupText t) :
    Accepts (join ts) (groups ts ++ List.replicate (8 - ts.length) 0)
  | short {front back : List Bytes}
    (hcolons : max front.length 1 + max back.length 1 ≤ 7)
    (hfront : ∀ t ∈ front, GroupText t) (hback : ∀ t ∈ back, GroupText t) :
    Accepts (shortText front back)
      (groups front ++ List.replicate (8 - (front.length + back.length)) 0 ++ groups back)

/-- The parts of a text on one side of a `::`. There is an empty one if there are no groups. -/
def parts (ts : List Bytes) : List Bytes := if ts = [] then [[]] else ts

theorem parts_eq {ts : List Bytes} (h : ts ≠ []) :
  parts ts = ts
  := if_neg h

theorem parts_spec (ts : List Bytes) :
  parts ts ≠ [] ∧ join (parts ts) = join ts ∧ (parts ts).length = max ts.length 1
  := by
  unfold parts
  split_ifs with h
  · rw [h]
    exact ⟨by simp, rfl, rfl⟩
  · have hpos := List.length_pos_of_ne_nil h
    exact ⟨h, rfl, by omega⟩

theorem not_mem_parts {ts : List Bytes} (h : ∀ t ∈ ts, GroupText t) :
  ∀ part ∈ parts ts, colon ∉ part
  := by
  unfold parts
  split_ifs
  · simp
  · exact fun t ht => (h t ht).not_mem_colon

/-- A text with `::` has an empty part between two others. -/
theorem shortText_eq (front back : List Bytes) :
  shortText front back = join (parts front ++ [] :: parts back)
  := by
  obtain ⟨hfront, hjoin, -⟩ := parts_spec front
  obtain ⟨hback, hjoin', -⟩ := parts_spec back
  rw [join_append hfront (by simp), join_cons _ hback]
  rw [hjoin, hjoin', shortText]
  simp

theorem count_join {ts : List Bytes} (hne : ts ≠ []) (h : ∀ t ∈ ts, GroupText t) :
  (join ts).count colon + 1 = ts.length
  := Fields.count_join (fun t ht => (h t ht).not_mem_colon) hne

theorem count_shortText {front back : List Bytes} (hfront : ∀ t ∈ front, GroupText t)
    (hback : ∀ t ∈ back, GroupText t) :
  (shortText front back).count colon = max front.length 1 + max back.length 1
  := by
  have hcolon : ∀ part ∈ parts front ++ [] :: parts back, colon ∉ part := by
    rw [List.forall_mem_append, List.forall_mem_cons]
    exact ⟨not_mem_parts hfront, by simp, not_mem_parts hback⟩
  have hcount := Fields.count_join hcolon (by simp)
  rw [List.length_append, List.length_cons, (parts_spec front).2.2, (parts_spec back).2.2]
    at hcount
  rw [shortText_eq]
  change (join _).count colon + 1 = _ at hcount
  omega

/-- The variables of the loop before it. -/
def start : Expansion := { i := List.replicate 8 0, buf := [], pos := 0, dc := false }

theorem expandLoop_groups {ts : List Bytes} (hne : ts ≠ []) (hle : ts.length ≤ 8)
    (h : ∀ t ∈ ts, GroupText t) (c : ℕ) :
  expandLoop c (join ts) 0 start = some (groups ts ++ List.replicate (8 - ts.length) 0)
  := by
  have hi : start.i = [] ++ List.replicate ts.length 0 ++ List.replicate (8 - ts.length) 0 := by
    rw [List.nil_append, List.replicate_append_replicate, Nat.add_sub_cancel' hle]
    rfl
  rw [expandLoop_join c hne h rfl, putAll_i ts hi rfl (List.length_replicate ..)]
  rfl

/-- What is read behind a `::` takes the last places. -/
theorem expandLoop_back (c : ℕ) {ts : List Bytes} (h : ∀ t ∈ ts, GroupText t) (e : Expansion)
    (hbuf : e.buf = []) (front : List ℕ) (n : ℕ) (hi : e.i = front ++ List.replicate n 0)
    (hle : ts.length ≤ n)
    (hpos : ts ≠ [] → e.pos + ts.length = front.length + n) (j : ℕ) :
  expandLoop c (colon :: join ts) j e
    = some (front ++ List.replicate (n - ts.length) 0 ++ groups ts)
  := by
  cases ts with
  | nil =>
    rw [expandLoop_second c (by simp [join]) hbuf]
    simp [expandLoop, join, hi]
  | cons t ts =>
    have hsplit : e.i = (front ++ List.replicate (n - (t :: ts).length) 0)
        ++ List.replicate (t :: ts).length 0 ++ [] := by
      rw [hi, List.append_nil, List.append_assoc, List.replicate_append_replicate,
        Nat.sub_add_cancel hle]
    have hplace := hpos (List.cons_ne_nil t ts)
    rw [expandLoop_second c (head?_join (h t List.mem_cons_self) ts) hbuf,
      expandLoop_join c (List.cons_ne_nil t ts) h hbuf,
      putAll_i _ hsplit (by rw [List.length_append, List.length_replicate]; omega)
        (List.length_replicate ..)]
    rw [List.append_nil]

theorem expandLoop_short {front back : List Bytes}
    (hcolons : max front.length 1 + max back.length 1 ≤ 7)
    (hfront : ∀ t ∈ front, GroupText t) (hback : ∀ t ∈ back, GroupText t) :
  expandLoop (max front.length 1 + max back.length 1) (shortText front back) 0 start
    = some (groups front ++ List.replicate (8 - (front.length + back.length)) 0 ++ groups back)
  := by
  have hsub : 8 - (front.length + back.length) = 8 - front.length - back.length := by omega
  have hback' : back ≠ [] → max back.length 1 = back.length := fun hne => by
    have hpos := List.length_pos_of_ne_nil hne
    omega
  rw [hsub]
  cases front with
  | nil =>
    have htext : shortText [] back = colon :: colon :: join back := by
      simp [shortText, join]
    rw [htext, expandLoop_colon, if_pos List.head?_cons, if_pos rfl]
    refine expandLoop_back _ hback _ rfl [] 8 rfl (by simp at hcolons; omega) ?_ _
    intro hne
    rw [hback' hne] at hcolons ⊢
    simp only [List.length_nil] at hcolons ⊢
    simp only [Expansion.store, start, if_true]
    omega
  | cons t ts =>
    have htext : shortText (t :: ts) back = join (t :: ts) ++ colon :: colon :: join back := by
      simp [shortText]
    have hlength : max (t :: ts).length 1 = (t :: ts).length := by
      rw [List.length_cons]
      omega
    obtain ⟨hbuf, -, -⟩ := putAll_spec (t :: ts) (e := start) rfl
    have hi : start.i = [] ++ List.replicate (t :: ts).length 0
        ++ List.replicate (8 - (t :: ts).length) 0 := by
      rw [List.nil_append, List.replicate_append_replicate, Nat.add_sub_cancel' (by omega)]
      rfl
    rw [hlength] at hcolons ⊢
    rw [htext, expandLoop_join_colons _ (List.cons_ne_nil t ts) hfront rfl rfl]
    refine expandLoop_back _ hback _ ?_ (groups (t :: ts)) (8 - (t :: ts).length) ?_ ?_ ?_ _
    · exact hbuf
    · exact putAll_i (t :: ts) hi rfl (List.length_replicate ..)
    · omega
    · intro hne
      rw [hback' hne] at hcolons ⊢
      rw [List.length_map]
      simp only [start]
      omega

/-! ### Rebuilding a text from its parts -/

/-- A part followed by a colon. A part that is not empty has to be a group. -/
theorem group_of_some {c : ℕ} {t : Bytes} (hne : t ≠ []) (hcolon : colon ∉ t) {e : Expansion}
    (hbuf : e.buf = []) {rest : Bytes} {j : ℕ} {g : List ℕ}
    (h : expandLoop c (t ++ rest) j e = some g) :
  GroupText t
  := by
  by_contra hgroup
  rw [expandLoop_none c hcolon (by simp [hbuf]) ?_ rest j] at h
  · contradiction
  · rintro ⟨hdigits, hroom⟩
    exact hgroup ⟨hne, by simpa [hbuf] using hroom, hdigits⟩

/-- The last part of a text is empty only if the one before it is. -/
def EndsWell (fields : List Bytes) : Prop :=
  ∀ front t, fields = front ++ [t, []] → t = []

theorem EndsWell.tail {t : Bytes} {fields : List Bytes} (h : EndsWell (t :: fields)) :
  EndsWell fields
  := fun front t' heq => h (t :: front) t' (by rw [heq, List.cons_append])

/-- Behind a `::` there are groups only. -/
theorem groups_of_some {c : ℕ} {t : Bytes} {fields : List Bytes} (hne : t ≠ [])
    (hcolon : ∀ part ∈ t :: fields, colon ∉ part) (hend : EndsWell (t :: fields))
    {e : Expansion} (hbuf : e.buf = []) (hdc : e.dc = true) {j : ℕ} {g : List ℕ}
    (h : expandLoop c (join (t :: fields)) j e = some g) :
  ∀ part ∈ t :: fields, GroupText part
  := by
  induction fields generalizing t e j with
  | nil =>
    rw [List.forall_mem_singleton] at hcolon ⊢
    rw [join_singleton, ← List.append_nil t] at h
    exact group_of_some hne hcolon hbuf h
  | cons t' fields ih =>
    rw [List.forall_mem_cons] at hcolon
    rw [join_cons t (List.cons_ne_nil t' fields)] at h
    have hgroup := group_of_some hne hcolon.1 hbuf h
    rw [expandLoop_group c hgroup hbuf] at h
    by_cases hempty : t' = []
    · exfalso
      cases fields with
      | nil => exact hne (hend [] t (by rw [hempty]; rfl))
      | cons t'' fields =>
        rw [hempty, join_cons [] (List.cons_ne_nil t'' fields), List.nil_append,
          if_pos List.head?_cons, if_neg (by simp [hdc])] at h
        contradiction
    · have hhead := head?_join_part hempty (hcolon.2 t' List.mem_cons_self) fields
      rw [if_neg hhead] at h
      exact List.forall_mem_cons.mpr
        ⟨hgroup, ih hempty hcolon.2 hend.tail (put_buf e t) (by rw [put_dc, hdc]) h⟩

theorem parts_of_some {c : ℕ} {fields : List Bytes} (hne : fields ≠ [])
    (hcolon : ∀ part ∈ fields, colon ∉ part) (hend : EndsWell fields) {e : Expansion}
    (hbuf : e.buf = []) (hdc : e.dc = true) {j : ℕ} {g : List ℕ}
    (h : expandLoop c (colon :: join fields) j e = some g) :
  ∃ back, fields = parts back ∧ ∀ t ∈ back, GroupText t
  := by
  obtain ⟨t, fields, rfl⟩ := List.exists_cons_of_ne_nil hne
  by_cases hempty : t = []
  · cases fields with
    | nil => exact ⟨[], by rw [hempty]; rfl, by simp⟩
    | cons t' fields =>
      rw [hempty, join_cons [] (List.cons_ne_nil t' fields), List.nil_append,
        expandLoop_colon, if_pos List.head?_cons] at h
      have hstore : e.store = e := if_pos hbuf
      rw [hstore, if_neg (by simp [hdc])] at h
      contradiction
  · have hhead := head?_join_part hempty (hcolon t List.mem_cons_self) fields
    rw [expandLoop_second c hhead hbuf] at h
    exact ⟨t :: fields, (parts_eq (List.cons_ne_nil t fields)).symm,
      groups_of_some hempty hcolon hend hbuf hdc h⟩

/-- In front of a `::` there are groups only, and without one there is nothing else. -/
theorem fields_of_some {c : ℕ} {t : Bytes} {fields : List Bytes} (hne : t ≠ [])
    (hcolon : ∀ part ∈ t :: fields, colon ∉ part) (hend : EndsWell (t :: fields))
    {e : Expansion} (hbuf : e.buf = []) (hdc : e.dc = false) {j : ℕ} {g : List ℕ}
    (h : expandLoop c (join (t :: fields)) j e = some g) :
  (∀ part ∈ t :: fields, GroupText part) ∨
  ∃ front back, t :: fields = parts front ++ [] :: parts back ∧
    (∀ t ∈ front, GroupText t) ∧ ∀ t ∈ back, GroupText t
  := by
  induction fields generalizing t e j with
  | nil =>
    rw [List.forall_mem_singleton] at hcolon ⊢
    rw [join_singleton, ← List.append_nil t] at h
    exact Or.inl (group_of_some hne hcolon hbuf h)
  | cons t' fields ih =>
    rw [List.forall_mem_cons] at hcolon
    rw [join_cons t (List.cons_ne_nil t' fields)] at h
    have hgroup := group_of_some hne hcolon.1 hbuf h
    rw [expandLoop_group c hgroup hbuf] at h
    by_cases hempty : t' = []
    · right
      cases fields with
      | nil => exact absurd (hend [] t (by rw [hempty]; rfl)) hne
      | cons t'' fields =>
        rw [List.forall_mem_cons] at hcolon
        rw [hempty, join_cons [] (List.cons_ne_nil t'' fields), List.nil_append,
          if_pos List.head?_cons, if_pos hdc] at h
        obtain ⟨back, hfields, hback⟩ := parts_of_some (List.cons_ne_nil t'' fields) hcolon.2.2
          hend.tail.tail (by rfl) (by rfl) h
        refine ⟨[t], back, ?_, List.forall_mem_singleton.mpr hgroup, hback⟩
        rw [hempty, hfields]
        rfl
    · have hhead := head?_join_part hempty (hcolon.2 t' List.mem_cons_self) fields
      rw [if_neg hhead] at h
      obtain hall | ⟨front, back, hfields, hfront, hback⟩ :=
        ih hempty hcolon.2 hend.tail (put_buf e t) (by rw [put_dc, hdc]) h
      · exact Or.inl (List.forall_mem_cons.mpr ⟨hgroup, hall⟩)
      · right
        refine ⟨t :: front, back, ?_, List.forall_mem_cons.mpr ⟨hgroup, hfront⟩, hback⟩
        have hfrontne : front ≠ [] := by
          rintro rfl
          rw [parts, if_pos rfl, List.singleton_append, List.cons.injEq] at hfields
          exact hempty hfields.1
        rw [hfields, parts_eq hfrontne, parts_eq (List.cons_ne_nil t front), List.cons_append]

/-! ### Colons at the ends of a text -/

/-- The test of `expand_ipv6` for a single colon at one of the ends of the text. -/
def LoneColon (ip : Bytes) : Prop :=
  ip[0]? = some colon ∧ ip[1]? ≠ some colon ∨
    ip[ip.length - 1]? = some colon ∧ ip[ip.length - 2]? ≠ some colon

theorem getLast?_join_part (fields : List Bytes) {t : Bytes} (hne : t ≠ [])
    (hcolon : colon ∉ t) :
  (join (fields ++ [t])).getLast? ≠ some colon
  := by
  have hlast : t.getLast? ≠ some colon := fun hlast => hcolon (List.mem_of_getLast? hlast)
  by_cases hnil : fields = []
  · rw [hnil, List.nil_append, join_singleton]
    exact hlast
  · rw [List.getLast?_eq_some_getLast hne] at hlast
    rw [join_append hnil (List.cons_ne_nil t []), join_singleton,
      List.getLast?_append, List.getLast?_cons, List.getLast?_eq_some_getLast hne]
    exact hlast

theorem not_loneColon_of_accepts {ip : Bytes} {g : List ℕ} (h : Accepts ip g) :
  ¬ LoneColon ip
  := by
  unfold LoneColon
  rw [← List.head?_eq_getElem?, ← List.getLast?_eq_getElem?]
  cases h with
  | @groups ts hthree _ htexts =>
    have hne : ts ≠ [] := List.ne_nil_of_length_pos (by omega)
    rintro (⟨hcolon, -⟩ | ⟨hcolon, -⟩)
    · obtain ⟨t, ts, rfl⟩ := List.exists_cons_of_ne_nil hne
      exact head?_join (htexts t List.mem_cons_self) ts hcolon
    · obtain ⟨ts, t, rfl⟩ := List.eq_nil_or_concat ts |>.resolve_left hne
      rw [List.concat_eq_append] at hcolon htexts
      have hgroup := htexts t (by simp)
      exact getLast?_join_part ts hgroup.nonempty hgroup.not_mem_colon hcolon
  | @short front back _ hfront hback =>
    rintro (⟨hcolon, hother⟩ | ⟨hcolon, hother⟩)
    · cases front with
      | nil => exact hother (by simp [shortText, join])
      | cons t ts =>
        rw [shortText_eq, parts_eq (List.cons_ne_nil t ts), List.cons_append] at hcolon
        exact head?_join (hfront t List.mem_cons_self) _ hcolon
    · obtain rfl | ⟨ts, t, rfl⟩ := List.eq_nil_or_concat back
      · refine hother ?_
        simp [shortText, join]
      · rw [List.concat_eq_append] at hback
        have hgroup := hback t (by simp)
        have hsplit : parts front ++ [] :: (ts ++ [t]) = (parts front ++ [] :: ts) ++ [t] := by
          simp
        rw [shortText_eq, List.concat_eq_append, parts_eq (List.append_ne_nil_of_right_ne_nil ts
          (List.cons_ne_nil t [])), hsplit] at hcolon
        exact getLast?_join_part _ hgroup.nonempty hgroup.not_mem_colon hcolon

theorem endsWell_of_not_loneColon {fields : List Bytes} (hcolon : ∀ part ∈ fields, colon ∉ part)
    (h : ¬ LoneColon (join fields)) :
  EndsWell fields
  := by
  rintro front t rfl
  by_contra hne
  obtain ⟨t, ch, rfl⟩ := List.eq_nil_or_concat t |>.resolve_left hne
  have hch : ch ≠ colon := by
    rintro rfl
    exact hcolon (t.concat colon) (by simp) (by simp)
  obtain ⟨text, htext⟩ : ∃ text, join (front ++ [t.concat ch, []]) = text ++ [ch, colon] := by
    have hpair : join [t.concat ch, []] = t ++ [ch, colon] := by
      rw [join_cons _ (List.cons_ne_nil [] []), join_singleton]
      simp
    by_cases hnil : front = []
    · rw [hnil, List.nil_append, hpair]
      exact ⟨t, rfl⟩
    · rw [join_append hnil (List.cons_ne_nil _ _), hpair]
      exact ⟨join front ++ colon :: t, by simp⟩
  refine h (Or.inr ?_)
  rw [htext]
  simp [hch]

/-! ### The texts accepted are these -/

/-- The first part of a text is empty only if the second one is. -/
theorem startsWell_of_not_loneColon {fields : List Bytes} {t : Bytes}
    (hcolon : ∀ part ∈ [] :: t :: fields, colon ∉ part)
    (h : ¬ LoneColon (join ([] :: t :: fields))) :
  t = []
  := by
  by_contra hne
  rw [List.forall_mem_cons, List.forall_mem_cons] at hcolon
  have hhead := head?_join_part hne hcolon.2.1 fields
  refine h (Or.inl ?_)
  rw [join_cons [] (List.cons_ne_nil t fields), List.nil_append]
  refine ⟨rfl, ?_⟩
  rw [List.getElem?_cons_succ, ← List.head?_eq_getElem?]
  exact hhead

theorem accepts_count {ip : Bytes} {g : List ℕ} (h : Accepts ip g) :
  2 ≤ ip.count colon ∧ ip.count colon ≤ 7 ∧ expandLoop (ip.count colon) ip 0 start = some g
  := by
  cases h with
  | @groups ts hthree height htexts =>
    have hne : ts ≠ [] := List.ne_nil_of_length_pos (by omega)
    have hcount := count_join hne htexts
    exact ⟨by omega, by omega, expandLoop_groups hne height htexts _⟩
  | @short front back hcolons hfront hback =>
    rw [count_shortText hfront hback]
    exact ⟨by omega, hcolons, expandLoop_short hcolons hfront hback⟩

theorem exists_parts (ip : Bytes) :
  ∃ t fields, (∀ part ∈ t :: fields, colon ∉ part) ∧ join (t :: fields) = ip
  := by
  obtain ⟨fields, hne, hcolon, hjoin⟩ := Fields.exists_join colon ip
  obtain ⟨t, fields, rfl⟩ := List.exists_cons_of_ne_nil hne
  exact ⟨t, fields, hcolon, hjoin⟩

/-- A text that starts with a colon starts with `::`. -/
theorem short_of_some {c : ℕ} {fields : List Bytes} (hne : 2 ≤ fields.length)
    (hcolon : ∀ part ∈ [] :: fields, colon ∉ part) (hlone : ¬ LoneColon (join ([] :: fields)))
    {g : List ℕ} (h : expandLoop c (join ([] :: fields)) 0 start = some g) :
  ∃ back, [] :: fields = parts [] ++ [] :: parts back ∧ ∀ t ∈ back, GroupText t
  := by
  obtain ⟨t, fields, rfl⟩ := List.exists_cons_of_length_pos (show 0 < fields.length by omega)
  have ht := startsWell_of_not_loneColon hcolon hlone
  subst ht
  have hfields : fields ≠ [] := List.ne_nil_of_length_pos (by rw [List.length_cons] at hne; omega)
  have hend := endsWell_of_not_loneColon hcolon hlone
  rw [List.forall_mem_cons, List.forall_mem_cons] at hcolon
  rw [join_cons [] (List.cons_ne_nil [] fields), join_cons [] hfields,
    List.nil_append, List.nil_append, expandLoop_colon, if_pos List.head?_cons, if_pos rfl] at h
  obtain ⟨back, hback, hgroups⟩ :=
    parts_of_some hfields hcolon.2.2 hend.tail.tail (by rfl) (by rfl) h
  exact ⟨back, by rw [hback]; rfl, hgroups⟩

theorem exists_accepts {ip : Bytes} {g : List ℕ} (htwo : 2 ≤ ip.count colon)
    (hseven : ip.count colon ≤ 7) (hlone : ¬ LoneColon ip)
    (h : expandLoop (ip.count colon) ip 0 start = some g) :
  ∃ g', Accepts ip g'
  := by
  obtain ⟨t, fields, hcolon, rfl⟩ := exists_parts ip
  have hcount : (join (t :: fields)).count colon + 1 = (t :: fields).length :=
    Fields.count_join hcolon (List.cons_ne_nil t fields)
  rw [List.length_cons] at hcount
  have hshape : (∀ part ∈ t :: fields, GroupText part) ∨
      ∃ front back, t :: fields = parts front ++ [] :: parts back ∧
        (∀ t ∈ front, GroupText t) ∧ ∀ t ∈ back, GroupText t := by
    by_cases hempty : t = []
    · subst hempty
      obtain ⟨back, hfields, hback⟩ := short_of_some (by omega) hcolon hlone h
      exact Or.inr ⟨[], back, hfields, by simp, hback⟩
    · exact fields_of_some hempty hcolon (endsWell_of_not_loneColon hcolon hlone) rfl rfl h
  obtain htexts | ⟨front, back, hfields, hfront, hback⟩ := hshape
  · exact ⟨_, .groups (by rw [List.length_cons]; omega) (by rw [List.length_cons]; omega) htexts⟩
  · have htext : join (t :: fields) = shortText front back := by rw [hfields, shortText_eq]
    rw [htext, count_shortText hfront hback] at hseven
    rw [htext]
    exact ⟨_, .short hseven hfront hback⟩

/-- What `expand_ipv6` gives for a text it accepts, and that it accepts no other. -/
theorem expandIpv6_eq_some_iff (ip : Bytes) (strLen : ℕ) (text : Bytes) :
  expandIpv6 ip strLen = some text ↔
    ∃ g, Accepts ip g ∧ text = (fullText g).take (strLen - 1)
  := by
  constructor
  · intro h
    rw [expandIpv6] at h
    split_ifs at h with hcount hlone
    obtain ⟨g, hloop, htext⟩ := Option.map_eq_some_iff.mp h
    obtain ⟨g', haccepts⟩ := exists_accepts (by omega) (by omega) hlone hloop
    obtain ⟨-, -, hloop'⟩ := accepts_count haccepts
    have hg : g = g' := Option.some.inj (hloop.symm.trans hloop')
    exact ⟨g, hg ▸ haccepts, htext.symm⟩
  · rintro ⟨g, haccepts, rfl⟩
    obtain ⟨htwo, hseven, hloop⟩ := accepts_count haccepts
    have hlone := not_loneColon_of_accepts haccepts
    unfold LoneColon at hlone
    rw [expandIpv6, if_neg (by omega), if_neg hlone]
    exact congrArg _ hloop

/-! ### Where it is exact -/

/-- `expand_ipv6` accepts the text exactly when it is an address, and then gives its groups. -/
def Exact (ip : Bytes) : Prop :=
  ∀ strLen,
    (∀ g, Denotes ip g → expandIpv6 ip strLen = some ((fullText g).take (strLen - 1))) ∧
    ((¬ ∃ g, Denotes ip g) → expandIpv6 ip strLen = none)

/-- Three to seven groups without a `::`. -/
def TooFew (ip : Bytes) : Prop :=
  ∃ ts : List Bytes, 3 ≤ ts.length ∧ ts.length ≤ 7 ∧ (∀ t ∈ ts, GroupText t) ∧ ip = join ts

/-- Seven groups, and a `::` in front of them or behind them for the eighth. -/
def SevenAtEdge (ip : Bytes) : Prop :=
  ∃ ts : List Bytes, ts.length = 7 ∧ (∀ t ∈ ts, GroupText t) ∧
    (ip = shortText [] ts ∨ ip = shortText ts [])

theorem SevenAtEdge.count {ip : Bytes} (h : SevenAtEdge ip) :
  ip.count colon = 8
  := by
  obtain ⟨ts, hlength, htexts, rfl | rfl⟩ := h
  · rw [count_shortText (by simp) htexts, hlength]
    rfl
  · rw [count_shortText htexts (by simp), hlength]
    rfl

theorem TooFew.count {ip : Bytes} (h : TooFew ip) :
  2 ≤ ip.count colon
  := by
  obtain ⟨ts, hthree, -, htexts, rfl⟩ := h
  have hcount := count_join (List.ne_nil_of_length_pos (by omega)) htexts
  omega

/-- Groups alone have one list of parts, and none of the parts is empty. -/
theorem not_denotes_of_tooFew {ip : Bytes} (h : TooFew ip) :
  ¬ ∃ g, Denotes ip g
  := by
  obtain ⟨ts, hthree, hseven, htexts, rfl⟩ := h
  have hne : ts ≠ [] := List.ne_nil_of_length_pos (by omega)
  have hcolon : ∀ t ∈ ts, colon ∉ t := fun t ht => (htexts t ht).not_mem_colon
  rintro ⟨g, hdenotes⟩
  generalize hip : join ts = ip at hdenotes
  cases hdenotes with
  | @full ts' hlength htexts' =>
    have hne' : ts' ≠ [] := List.ne_nil_of_length_pos (by omega)
    have heq := Fields.join_inj hcolon hne (fun t ht => (htexts' t ht).not_mem_colon) hne' hip
    rw [heq] at hseven
    omega
  | @short front back _ hfront hback =>
    have hcolon' : ∀ part ∈ parts front ++ [] :: parts back, colon ∉ part := by
      rw [List.forall_mem_append, List.forall_mem_cons]
      exact ⟨not_mem_parts hfront, by simp, not_mem_parts hback⟩
    rw [shortText_eq] at hip
    have heq := Fields.join_inj hcolon hne hcolon' (by simp) hip
    exact (htexts [] (by rw [heq]; simp)).nonempty rfl

/-- Apart from the two kinds of texts the accepted ones are the addresses. -/
theorem denotes_iff_accepts {ip : Bytes} (hfew : ¬ TooFew ip) (hedge : ¬ SevenAtEdge ip)
    (g : List ℕ) :
  Denotes ip g ↔ Accepts ip g
  := by
  constructor
  · intro hdenotes
    cases hdenotes with
    | @full ts hlength htexts =>
      have hgroups := Accepts.groups (by omega) (by omega) htexts
      rwa [hlength, Nat.sub_self, List.replicate_zero, List.append_nil] at hgroups
    | @short front back hlength hfront hback =>
      refine .short ?_ hfront hback
      by_contra hcolons
      refine hedge ?_
      by_cases hnil : front = []
      · subst hnil
        rw [List.length_nil] at hlength hcolons
        exact ⟨back, by omega, hback, Or.inl rfl⟩
      · have hpos := List.length_pos_of_ne_nil hnil
        have hback' : back = [] := List.length_eq_zero_iff.mp (by omega)
        subst hback'
        rw [List.length_nil] at hlength hcolons
        exact ⟨front, by omega, hfront, Or.inr rfl⟩
  · intro haccepts
    cases haccepts with
    | @groups ts hthree height htexts =>
      have hlength : ts.length = 8 := by
        by_contra hlt
        exact hfew ⟨ts, hthree, by omega, htexts, rfl⟩
      rw [hlength, Nat.sub_self, List.replicate_zero, List.append_nil]
      exact .full hlength htexts
    | @short front back hcolons hfront hback => exact .short (by omega) hfront hback

theorem expand_exact_iff (ip : Bytes) :
  Exact ip ↔ ¬ TooFew ip ∧ ¬ SevenAtEdge ip
  := by
  constructor
  · intro hexact
    constructor
    · intro hfew
      have hnone := (hexact 0).2 (not_denotes_of_tooFew hfew)
      obtain ⟨ts, hthree, hseven, htexts, rfl⟩ := hfew
      have hsome := (expandIpv6_eq_some_iff (join ts) 0 _).mpr
        ⟨_, .groups hthree (by omega) htexts, rfl⟩
      rw [hsome] at hnone
      contradiction
    · rintro ⟨ts, hlength, htexts, hip⟩
      have hcount : ip.count colon = 8 := SevenAtEdge.count ⟨ts, hlength, htexts, hip⟩
      obtain ⟨g, hdenotes⟩ : ∃ g, Denotes ip g := by
        obtain rfl | rfl := hip
        · exact ⟨_, .short (by rw [List.length_nil]; omega) (by simp) htexts⟩
        · exact ⟨_, .short (by rw [List.length_nil]; omega) htexts (by simp)⟩
      obtain ⟨g', haccepts, -⟩ := (expandIpv6_eq_some_iff ip 0 _).mp ((hexact 0).1 g hdenotes)
      obtain ⟨-, hseven, -⟩ := accepts_count haccepts
      omega
  · rintro ⟨hfew, hedge⟩ strLen
    have haccepts := denotes_iff_accepts hfew hedge
    constructor
    · intro g hdenotes
      exact (expandIpv6_eq_some_iff ip strLen _).mpr ⟨g, (haccepts g).mp hdenotes, rfl⟩
    · intro hdenotes
      rw [Option.eq_none_iff_forall_ne_some]
      intro text htext
      obtain ⟨g, hg, -⟩ := (expandIpv6_eq_some_iff ip strLen text).mp htext
      exact hdenotes ⟨g, (haccepts g).mpr hg⟩

end Ipv6
