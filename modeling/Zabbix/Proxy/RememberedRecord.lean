import Mathlib.Order.Nat
import Mathlib.Tactic.Common
import Zabbix.Library.Buffer

/-!
# Remembered records

While a proxy updates a table of its configuration it keeps the records of the database in one
large buffer, to find out which fields differ.  A field is stored up to a zero byte; where a field
may be NULL a flag byte behind it tells whether it is.  Fields are looked up in increasing order,
from the place where the last one was found.
-/

namespace Proxy

/-- `ZBX_NOTNULL`. -/
def flagNotNull : UInt8 := 2

/-- The part of `ZBX_FIELD` that tells how a value is stored. -/
structure RecordField where
  flags : UInt8

def RecordField.notNull (f : RecordField) : Prop := f.flags &&& flagNotNull ≠ 0

instance (f : RecordField) : Decidable f.notNull := inferInstanceAs (Decidable (_ ≠ _))

/-- A row of the database, where `none` is NULL. -/
structure Row (fields : List RecordField) where
  values : List (Option Bytes)
  length_eq : values.length = fields.length
  notNull : ∀ fv ∈ fields.zip values, fv.1.notNull → fv.2 ≠ none
  text : ∀ s, some s ∈ values → ∀ c ∈ s, c ≠ 0

/-! ### Storing a record -/

/-- `recs`, `recs_alloc` as its length, and `recs_offset`. -/
structure Recs where
  recs : Bytes
  offset : ℕ

/-- `zbx_strncpy_alloc` of a whole text, where `junk` is what stands in new memory. -/
def strcpyAlloc (junk : ℕ → UInt8) (r : Recs) (src : Bytes) : Option Recs := do
  let alloc := Buffer.doubled r.recs.length (r.offset + src.length)
  let more := (List.range (alloc - r.recs.length)).map fun j => junk (r.recs.length + j)
  let recs ← Buffer.write (r.recs ++ more) r.offset (src ++ [0])
  return ⟨recs, r.offset + src.length⟩

/-- The part of `remember_record` for a field; a NULL in a field that is not nullable has no
result. -/
def rememberField (junk : ℕ → UInt8) (f : RecordField) (value : Option Bytes) (r : Recs) :
    Option Recs :=
  if f.notNull then do
    let r ← strcpyAlloc junk r (← value)
    return { r with offset := r.offset + 1 }
  else match value with
    | some s => do
      let r ← strcpyAlloc junk r s
      strcpyAlloc junk { r with offset := r.offset + 1 } [1]
    | none => do
      let r ← strcpyAlloc junk r []
      strcpyAlloc junk { r with offset := r.offset + 1 } [2]

/-- `remember_record`. -/
def rememberRecord (junk : ℕ → UInt8) (fields : List RecordField) (r : Recs)
    (row : List (Option Bytes)) : Option Recs :=
  (fields.zip row).foldlM (fun r fv => rememberField junk fv.1 fv.2 r) r

/-! ### Comparing a field -/

/-- `strcmp`, with the difference of the first bytes that differ. -/
def strcmp : Bytes → Bytes → ℤ
  | [], [] => 0
  | [], d :: _ => -(d.toNat : ℤ)
  | c :: _, [] => c.toNat
  | c :: s, d :: t => if c = d then strcmp s t else c.toNat - d.toNat

/-- The position behind the next zero byte; there is no result when no zero byte follows. -/
def behindNul : Bytes → ℕ → Option ℕ
  | [], _ => none
  | c :: s, p => if c = 0 then some (p + 1) else behindNul s (p + 1)

/-- Reads the flag byte of a field, if it has one: whether the field is NULL and the position of
the next field, or `none` inside when the byte is no flag. -/
def readFlag (f : RecordField) (recs : Bytes) (recData p : ℕ) : Option (Option (Bool × ℕ)) :=
  if f.notNull then some (some (false, p))
  else do
    let c ← recs[p]?
    if c = 2 ∧ (recData = p - 1 ∨ recs[p - 2]? = some 0 ∨ recs[p - 2]? = some 1 ∨
        recs[p - 2]? = some 2) then
      return some (true, p + 1)
    else if c = 1 then return some (false, p + 1)
    else return none

/-- What the search for a field has found. -/
inductive FoundField
  | broken
  | found (fieldStart : ℕ) (nullInDb : Bool) (i p : ℕ)

/-- The loop of `compare_nth_field`. -/
def findField (fields : List RecordField) (recs : Bytes) (recData n i p : ℕ) :
    Option FoundField := do
  let behind ← behindNul (recs.drop p) p
  let f ← fields[i]?
  match ← readFlag f recs recData behind with
  | none => return .broken
  | some (nullInDb, next) =>
    if _h : i + 1 ≤ n then findField fields recs recData n (i + 1) next
    else return .found p nullInDb (i + 1) next
  termination_by n - i

/-- `last_n` and `last_pos`. -/
structure LastField where
  n : ℕ
  pos : ℕ

/-- `compare_nth_field`. -/
def compareNthField (fields : List RecordField) (recs : Bytes) (recData n : ℕ) (str : Bytes)
    (isNull : Bool) (last : LastField) : Option (ℤ × LastField) := do
  match ← findField fields recs recData n last.n (recData + last.pos) with
  | .broken => return (1, ⟨0, 0⟩)
  | .found fieldStart nullInDb i p =>
    let last : LastField := ⟨i, p - recData⟩
    if isNull = false then
      if nullInDb = false then return (strcmp (Buffer.text (recs.drop fieldStart)) str, last)
      else return (1, last)
    else if str = [] then return (if nullInDb then 0 else 1, last)
    else return (1, ⟨0, 0⟩)

/-- A field number and a value to compare it with, where `none` is NULL. -/
structure Query where
  n : ℕ
  value : Option Bytes

/-- Fields are compared one after another; the text of NULL is empty. -/
def compareFields (fields : List RecordField) (recs : Bytes) (recData : ℕ) :
    List Query → LastField → Option (List ℤ)
  | [], _ => some []
  | q :: queries, last => do
    let (result, last) ← compareNthField fields recs recData q.n (q.value.getD [])
      q.value.isNone last
    return result :: (← compareFields fields recs recData queries last)

/-! ### What is stored -/

/-- A value as it is stored. -/
def storedField (f : RecordField) (value : Option Bytes) : Bytes :=
  value.getD [] ++ 0 :: if f.notNull then [] else if value = none then [2] else [1]

def storedFields (columns : List (RecordField × Option Bytes)) : Bytes :=
  columns.flatMap fun fv => storedField fv.1 fv.2

/-- The value may stand in the field. -/
structure Admissible (fv : RecordField × Option Bytes) : Prop where
  notNull : fv.1.notNull → fv.2 ≠ none
  text : ∀ s, fv.2 = some s → ∀ c ∈ s, c ≠ 0

theorem Row.admissible {fields : List RecordField} (row : Row fields) :
  ∀ fv ∈ fields.zip row.values, Admissible fv
  := by
  intro fv hfv
  refine ⟨row.notNull fv hfv, fun s hs => row.text s ?_⟩
  rw [← hs]
  exact (List.of_mem_zip hfv).2

theorem Row.column {fields : List RecordField} (row : Row fields) {i : ℕ}
    (hi : i < fields.length) :
  ∃ f value, fields[i]? = some f ∧ row.values[i]? = some value ∧
    (fields.zip row.values)[i]? = some (f, value) ∧ Admissible (f, value)
  := by
  have hfield : fields[i]? = some fields[i] := List.getElem?_eq_getElem hi
  have hvalue : row.values[i]? = some (row.values.get ⟨i, row.length_eq ▸ hi⟩) :=
    List.getElem?_eq_getElem _
  have hcolumn : (fields.zip row.values)[i]? = some (fields[i], _) :=
    List.getElem?_zip_eq_some.mpr ⟨hfield, hvalue⟩
  exact ⟨_, _, hfield, hvalue, hcolumn, row.admissible _ (List.mem_of_getElem? hcolumn)⟩

/-- The buffer begins with some bytes, and its offset stands behind them. -/
structure Recs.Begins (r : Recs) (front : Bytes) : Prop where
  bytes : front <+: r.recs
  offset : r.offset = front.length
  alloc : 0 < r.recs.length

section Storing

variable (junk : ℕ → UInt8) {r : Recs} {front : Bytes}

/-- A text is stored, with a zero byte behind it that is kept when the offset is moved over it. -/
theorem Recs.Begins.strcpyAlloc (h : r.Begins front) (src : Bytes) :
  ∃ r', strcpyAlloc junk r src = some r' ∧ r'.Begins (front ++ src) ∧
    Recs.Begins { r' with offset := r'.offset + 1 } (front ++ (src ++ [0]))
  := by
  obtain ⟨hneed, halloc⟩ := Buffer.lt_doubled h.alloc (r.offset + src.length)
  let more := (List.range (Buffer.doubled r.recs.length (r.offset + src.length)
    - r.recs.length)).map fun j => junk (r.recs.length + j)
  have hlength : (r.recs ++ more).length
      = Buffer.doubled r.recs.length (r.offset + src.length) := by
    rw [List.length_append, List.length_map, List.length_range]
    omega
  have hroom : front.length + (src ++ [0]).length ≤ (r.recs ++ more).length := by
    rw [hlength, List.length_append, List.length_singleton, ← h.offset]
    omega
  obtain ⟨recs, hwrite, hfront, hsame⟩ :=
    Buffer.write_behind (src ++ [0]) (h.bytes.trans (List.prefix_append r.recs more)) hroom
  have halloc' : 0 < recs.length := by
    rw [hsame, hlength]
    exact Nat.lt_of_lt_of_le h.alloc halloc
  refine ⟨⟨recs, r.offset + src.length⟩, ?_, ⟨?_, ?_, halloc'⟩, ⟨hfront, ?_, halloc'⟩⟩
  · rw [← h.offset] at hwrite
    simp only [Proxy.strcpyAlloc, hwrite, more, Option.bind_eq_bind, Option.bind_some]
    rfl
  · rw [← List.append_assoc] at hfront
    exact (List.prefix_append _ [0]).trans hfront
  · rw [List.length_append, h.offset]
  · simp only [List.length_append, List.length_singleton, h.offset]
    omega

theorem Recs.Begins.rememberField (h : r.Begins front) {fv : RecordField × Option Bytes}
    (hfv : Admissible fv) :
  ∃ r', rememberField junk fv.1 fv.2 r = some r' ∧ r'.Begins (front ++ storedField fv.1 fv.2)
  := by
  obtain ⟨f, value⟩ := fv
  unfold Proxy.rememberField storedField
  dsimp only
  by_cases hflag : f.notNull
  · obtain ⟨s, rfl⟩ := Option.ne_none_iff_exists'.mp (hfv.notNull hflag)
    obtain ⟨r', hstore, -, hbegins⟩ := h.strcpyAlloc junk s
    refine ⟨{ r' with offset := r'.offset + 1 }, ?_, by rwa [if_pos hflag]⟩
    simp only [if_pos hflag, hstore, Option.bind_eq_bind, Option.bind_some]
    rfl
  · rw [if_neg hflag, if_neg hflag]
    cases value with
    | none =>
      obtain ⟨r', hstore, -, hbegins⟩ := h.strcpyAlloc junk []
      obtain ⟨r'', hstore', hbegins', -⟩ := hbegins.strcpyAlloc junk [2]
      refine ⟨r'', ?_, by simpa using hbegins'⟩
      simp only [hstore, hstore', Option.bind_eq_bind, Option.bind_some]
    | some s =>
      obtain ⟨r', hstore, -, hbegins⟩ := h.strcpyAlloc junk s
      obtain ⟨r'', hstore', hbegins', -⟩ := hbegins.strcpyAlloc junk [1]
      refine ⟨r'', ?_, by simpa using hbegins'⟩
      simp only [hstore, hstore', Option.bind_eq_bind, Option.bind_some]

theorem Recs.Begins.rememberFields {columns : List (RecordField × Option Bytes)}
    (hcolumns : ∀ fv ∈ columns, Admissible fv) (h : r.Begins front) :
  ∃ r', columns.foldlM (fun r fv => Proxy.rememberField junk fv.1 fv.2 r) r = some r' ∧
    r'.Begins (front ++ storedFields columns)
  := by
  induction columns generalizing r front with
  | nil => exact ⟨r, rfl, by rwa [storedFields, List.flatMap_nil, List.append_nil]⟩
  | cons fv columns ih =>
    obtain ⟨hfv, hcolumns⟩ := List.forall_mem_cons.mp hcolumns
    obtain ⟨r', hfield, hbegins⟩ := h.rememberField junk hfv
    obtain ⟨r'', hfields, hbegins'⟩ := ih hcolumns hbegins
    refine ⟨r'', ?_, ?_⟩
    · rw [List.foldlM_cons, hfield]
      exact hfields
    · rwa [List.append_assoc] at hbegins'

/-- Records are stored one behind another. -/
theorem Recs.Begins.rememberRecords {fields : List RecordField} (rows : List (Row fields))
    (h : r.Begins front) :
  ∃ r', rows.foldlM (fun r row => rememberRecord junk fields r row.values) r = some r' ∧
    r'.Begins (front ++ rows.flatMap fun row => storedFields (fields.zip row.values))
  := by
  induction rows generalizing r front with
  | nil => exact ⟨r, rfl, by rwa [List.flatMap_nil, List.append_nil]⟩
  | cons row rows ih =>
    obtain ⟨r', hrow, hbegins⟩ := h.rememberFields junk row.admissible
    obtain ⟨r'', hrows, hbegins'⟩ := ih hbegins
    refine ⟨r'', ?_, ?_⟩
    · rw [List.foldlM_cons, rememberRecord, hrow]
      exact hrows
    · rwa [List.append_assoc] at hbegins'

end Storing

/-! ### What is found -/

theorem strcmp_eq_zero_iff {s t : Bytes} (hs : ∀ c ∈ s, c ≠ 0) (ht : ∀ c ∈ t, c ≠ 0) :
  strcmp s t = 0 ↔ s = t
  := by
  have htoNat : ∀ c : UInt8, c ≠ 0 → (c.toNat : ℤ) ≠ 0 := by
    intro c hc hzero
    exact hc (UInt8.toNat_inj.mp (Int.ofNat_eq_zero.mp hzero))
  fun_induction strcmp s t with
  | case1 => simp
  | case2 d t =>
    exact iff_of_false (mt Int.neg_eq_zero.mp (htoNat d (ht d List.mem_cons_self))) nofun
  | case3 c s => exact iff_of_false (htoNat c (hs c List.mem_cons_self)) nofun
  | case4 s c t ih =>
    have hrest := ih (List.forall_mem_cons.mp hs).2 (List.forall_mem_cons.mp ht).2
    exact hrest.trans (List.cons_inj_right c).symm
  | case5 c s d t hdiffer =>
    refine iff_of_false (fun hzero => hdiffer ?_) fun h => hdiffer (List.cons.inj h).1
    exact UInt8.toNat_inj.mp (Int.ofNat_inj.mp (Int.sub_eq_zero.mp hzero))

theorem behindNul_append {s : Bytes} (hs : ∀ c ∈ s, c ≠ 0) (rest : Bytes) (p : ℕ) :
  behindNul (s ++ 0 :: rest) p = some (p + s.length + 1)
  := by
  induction s generalizing p with
  | nil => rfl
  | cons c s ih =>
    obtain ⟨hc, hs⟩ := List.forall_mem_cons.mp hs
    rw [List.cons_append, behindNul, if_neg hc, ih hs, List.length_cons]
    congr 1
    omega

section Finding

variable {fields : List RecordField} {columns : List (RecordField × Option Bytes)} {recs : Bytes}
  {recData : ℕ}

/-- The fields from a number on stand at a position, which is the beginning of the record or
comes behind a zero byte or a flag byte. -/
structure StandsAt (columns : List (RecordField × Option Bytes)) (recs : Bytes)
    (recData i p : ℕ) : Prop where
  fields : storedFields (columns.drop i) <+: recs.drop p
  le : recData ≤ p
  behind : recData = p ∨
    recData < p ∧ (recs[p - 1]? = some 0 ∨ recs[p - 1]? = some 1 ∨ recs[p - 1]? = some 2)

theorem storedFields_drop {i : ℕ} {f : RecordField} {value : Option Bytes}
    (hcolumn : columns[i]? = some (f, value)) :
  storedFields (columns.drop i) = storedField f value ++ storedFields (columns.drop (i + 1))
  := by
  obtain ⟨hi, hget⟩ := List.getElem?_eq_some_iff.mp hcolumn
  rw [List.drop_eq_getElem_cons hi, hget, storedFields, List.flatMap_cons]
  rfl

/-- The next field stands behind a zero byte or a flag byte. -/
theorem StandsAt.next {i p q : ℕ} (h : StandsAt columns recs recData i p) (hq : p ≤ q)
    (hbyte : recs[q]? = some 0 ∨ recs[q]? = some 1 ∨ recs[q]? = some 2) {rest : Bytes}
    (hrest : recs.drop (q + 1) = storedFields (columns.drop (i + 1)) ++ rest) :
  StandsAt columns recs recData (i + 1) (q + 1)
  where
  fields := hrest ▸ List.prefix_append _ rest
  le := le_trans h.le (Nat.le_succ_of_le hq)
  behind := .inr ⟨lt_of_le_of_lt h.le (Nat.lt_succ_of_le hq), hbyte⟩

/-- A flag byte is told from the beginning of the next field. -/
theorem StandsAt.flag {i p : ℕ} (h : StandsAt columns recs recData i p) {f : RecordField}
    {value : Option Bytes} (hadmissible : Admissible (f, value)) {rest : Bytes}
    (hrest : recs.drop p
      = storedField f value ++ (storedFields (columns.drop (i + 1)) ++ rest)) :
  ∃ next, readFlag f recs recData (p + (value.getD []).length + 1)
      = some (some (value.isNone, next)) ∧
    StandsAt columns recs recData (i + 1) next
  := by
  have hbytes : ∀ k, recs[p + k]? = (recs.drop p)[k]? := fun k => List.getElem?_drop.symm
  have hdrop : ∀ k, recs.drop (p + k) = (recs.drop p).drop k := fun k => List.drop_drop.symm
  rw [hrest, storedField] at hbytes hdrop
  unfold readFlag
  by_cases hflag : f.notNull
  · obtain ⟨s, rfl⟩ := Option.ne_none_iff_exists'.mp (hadmissible.notNull hflag)
    simp only [if_pos hflag, Option.getD_some, List.append_assoc, List.cons_append,
      List.nil_append] at hbytes hdrop ⊢
    have hread : recs[p + s.length]? = some 0 := by
      rw [hbytes, List.getElem?_append_right le_rfl, Nat.sub_self]
      rfl
    have hbehind : recs.drop (p + s.length + 1) = storedFields (columns.drop (i + 1)) ++ rest := by
      rw [Nat.add_assoc, hdrop, ← List.drop_drop, List.drop_left]
      rfl
    exact ⟨_, rfl, h.next (Nat.le_add_right p _) (.inl hread) hbehind⟩
  simp only [if_neg hflag, List.append_assoc, List.cons_append] at hbytes hdrop ⊢
  cases value with
  | none =>
    simp only [Option.getD_none, List.nil_append, List.length_nil, Nat.add_zero] at hbytes hdrop ⊢
    have hread : recs[p + 1]? = some 2 := hbytes 1
    have hmarked : recData = p + 1 - 1 ∨ recs[p + 1 - 2]? = some 0 ∨ recs[p + 1 - 2]? = some 1 ∨
        recs[p + 1 - 2]? = some 2 := h.behind.imp_right And.right
    rw [hread, Option.bind_eq_bind, Option.bind_some, if_pos ⟨rfl, hmarked⟩]
    exact ⟨_, rfl, h.next (Nat.le_succ p) (.inr (.inr hread)) (hdrop 2)⟩
  | some s =>
    simp only [reduceCtorEq, if_false, Option.getD_some] at hbytes hdrop ⊢
    have hread : recs[p + s.length + 1]? = some 1 := by
      rw [Nat.add_assoc, hbytes, List.getElem?_append_right (Nat.le_add_right _ 1),
        Nat.add_sub_cancel_left]
      rfl
    have hbehind : recs.drop (p + s.length + 1 + 1)
        = storedFields (columns.drop (i + 1)) ++ rest := by
      rw [Nat.add_assoc, Nat.add_assoc, hdrop, ← List.drop_drop, List.drop_left]
      rfl
    rw [hread, Option.bind_eq_bind, Option.bind_some, if_neg fun h => absurd h.1 (by decide),
      if_pos rfl]
    exact ⟨_, rfl, h.next (by omega) (.inr (.inl hread)) hbehind⟩

/-- A field is read from where it stands, and the next one stands behind it. -/
theorem StandsAt.read {i p : ℕ} (h : StandsAt columns recs recData i p)
    {f : RecordField} {value : Option Bytes} (hcolumn : columns[i]? = some (f, value))
    (hadmissible : Admissible (f, value)) :
  ∃ behind next, behindNul (recs.drop p) p = some behind ∧
    readFlag f recs recData behind = some (some (value.isNone, next)) ∧
    Buffer.text (recs.drop p) = value.getD [] ∧ StandsAt columns recs recData (i + 1) next
  := by
  have htext : ∀ c ∈ value.getD [], c ≠ 0 := by
    cases value with
    | none => nofun
    | some s => exact hadmissible.text s rfl
  obtain ⟨rest, hrest⟩ := h.fields
  rw [storedFields_drop hcolumn, List.append_assoc] at hrest
  obtain ⟨next, hflag, hnext⟩ := h.flag hadmissible hrest.symm
  rw [storedField, List.append_assoc, List.cons_append] at hrest
  have hbehind := behindNul_append htext
    ((if f.notNull then [] else if value = none then [2] else [1]) ++
      (storedFields (columns.drop (i + 1)) ++ rest)) p
  rw [hrest] at hbehind
  have hprefixed : value.getD [] ++ [0] <+: recs.drop p := by
    rw [← hrest]
    exact (List.prefix_append_right_inj _).mpr ⟨_, rfl⟩
  exact ⟨_, next, hbehind, hflag, Buffer.text_of_prefix htext hprefixed, hnext⟩

/-- The search goes on to the field with the number. -/
theorem StandsAt.findField {row : Row fields} {i n p : ℕ}
    (h : StandsAt (fields.zip row.values) recs recData i p) (hi : i ≤ n) (hn : n < fields.length) :
  ∃ value fieldStart next, row.values[n]? = some value ∧
    findField fields recs recData n i p
      = some (.found fieldStart value.isNone (n + 1) next) ∧
    Buffer.text (recs.drop fieldStart) = value.getD [] ∧
    StandsAt (fields.zip row.values) recs recData (n + 1) next
  := by
  induction hleft : n - i generalizing i p with
  | zero =>
    obtain rfl : i = n := by omega
    obtain ⟨f, value, hfield, hvalue, hcolumn, hadmissible⟩ := row.column hn
    obtain ⟨behind, next, hbehind, hflag, htext, hnext⟩ := h.read hcolumn hadmissible
    refine ⟨value, p, next, hvalue, ?_, htext, hnext⟩
    rw [Proxy.findField, hbehind, hfield]
    simp only [hflag, Option.bind_eq_bind, Option.bind_some]
    rw [dif_neg (by omega)]
    rfl
  | succ k ih =>
    obtain ⟨f, value, hfield, -, hcolumn, hadmissible⟩ := row.column (i := i) (by omega)
    obtain ⟨behind, next, hbehind, hflag, -, hnext⟩ := h.read hcolumn hadmissible
    obtain ⟨value', fieldStart, next', hvalue, hfound, htext, hnext'⟩ :=
      ih hnext (by omega) (by omega)
    refine ⟨value', fieldStart, next', hvalue, ?_, htext, hnext'⟩
    rw [Proxy.findField, hbehind, hfield]
    simp only [hflag, Option.bind_eq_bind, Option.bind_some]
    rw [dif_pos (by omega), hfound]

end Finding

/-! ### Comparisons -/

section Comparing

variable {fields : List RecordField} {recs : Bytes} {recData : ℕ}

/-- The result of `compare_nth_field` is 0 for the stored value, and the next comparison begins
behind the field. -/
theorem compareNthField_eq {row : Row fields} {n : ℕ} {last : LastField}
    (h : StandsAt (fields.zip row.values) recs recData last.n (recData + last.pos))
    (hlast : last.n ≤ n) (hn : n < fields.length) {value : Option Bytes}
    (htext : ∀ s, value = some s → ∀ c ∈ s, c ≠ 0) :
  ∃ result pos, compareNthField fields recs recData n (value.getD []) value.isNone last
      = some (result, ⟨n + 1, pos⟩) ∧
    (result = 0 ↔ row.values[n]? = some value) ∧
    StandsAt (fields.zip row.values) recs recData (n + 1) (recData + pos)
  := by
  obtain ⟨found, fieldStart, next, hvalue, hfind, hfound, hnext⟩ := h.findField hlast hn
  have hle := hnext.le
  have hpos : recData + (next - recData) = next := by omega
  rw [compareNthField, hfind, hvalue, Option.some_inj]
  simp only [Option.bind_eq_bind, Option.bind_some]
  cases value with
  | none =>
    cases found with
    | none => exact ⟨0, next - recData, rfl, by simp, hpos.symm ▸ hnext⟩
    | some t => exact ⟨1, next - recData, rfl, by simp, hpos.symm ▸ hnext⟩
  | some s =>
    cases found with
    | none => exact ⟨1, next - recData, rfl, by simp, hpos.symm ▸ hnext⟩
    | some t =>
      have ht : ∀ c ∈ t, c ≠ 0 := row.text t (List.mem_of_getElem? hvalue)
      refine ⟨strcmp t s, next - recData, ?_, ?_, hpos.symm ▸ hnext⟩
      · simp only [hfound]
        rfl
      · rw [strcmp_eq_zero_iff ht (htext s rfl), Option.some_inj]

theorem StandsAt.compareFields {row : Row fields} {queries : List Query} {last : LastField}
    (h : StandsAt (fields.zip row.values) recs recData last.n (recData + last.pos))
    (hincreasing : queries.Pairwise (·.n < ·.n)) (hfields : ∀ q ∈ queries, q.n < fields.length)
    (htext : ∀ q ∈ queries, ∀ s, q.value = some s → ∀ c ∈ s, c ≠ 0)
    (hlast : ∀ q ∈ queries, last.n ≤ q.n) :
  ∃ results, compareFields fields recs recData queries last = some results ∧
    List.Forall₂ (fun q result => result = 0 ↔ row.values[q.n]? = some q.value) queries results
  := by
  induction queries generalizing last with
  | nil => exact ⟨[], rfl, .nil⟩
  | cons q queries ih =>
    obtain ⟨hbehind, hincreasing⟩ := List.pairwise_cons.mp hincreasing
    obtain ⟨hn, hfields⟩ := List.forall_mem_cons.mp hfields
    obtain ⟨hq, htext⟩ := List.forall_mem_cons.mp htext
    obtain ⟨result, pos, hresult, hiff, hnext⟩ :=
      compareNthField_eq h (hlast q List.mem_cons_self) hn hq
    obtain ⟨results, hresults, hall⟩ :=
      @ih ⟨q.n + 1, pos⟩ hnext hincreasing hfields htext hbehind
    refine ⟨result :: results, ?_, .cons hiff hall⟩
    simp only [Proxy.compareFields, hresult, hresults, Option.bind_eq_bind, Option.bind_some]
    rfl

/-- The values are compared with those of the row that was stored, whatever is stored behind it. -/
theorem compareFields_remembered (junk : ℕ → UInt8) (row : Row fields) (later : List (Row fields))
    {r : Recs} (halloc : 0 < r.recs.length) (hoffset : r.offset ≤ r.recs.length)
    {queries : List Query} (hincreasing : queries.Pairwise (·.n < ·.n))
    (hfields : ∀ q ∈ queries, q.n < fields.length)
    (htext : ∀ q ∈ queries, ∀ s, q.value = some s → ∀ c ∈ s, c ≠ 0) :
  ∃ stored results,
    (row :: later).foldlM (fun r row => rememberRecord junk fields r row.values) r = some stored ∧
    compareFields fields stored.recs r.offset queries ⟨0, 0⟩ = some results ∧
    List.Forall₂ (fun q result => result = 0 ↔ row.values[q.n]? = some q.value) queries results
  := by
  have hbegins : r.Begins (r.recs.take r.offset) :=
    ⟨List.take_prefix _ _, by rw [List.length_take, Nat.min_eq_left hoffset], halloc⟩
  obtain ⟨stored, hstored, hfront⟩ := hbegins.rememberRecords junk (row :: later)
  have hstands : StandsAt (fields.zip row.values) stored.recs r.offset (LastField.mk 0 0).n
      (r.offset + (LastField.mk 0 0).pos) := by
    refine ⟨?_, Nat.le_refl _, .inl rfl⟩
    obtain ⟨rest, hrest⟩ := hfront.bytes
    rw [← hrest, List.append_assoc, List.flatMap_cons, Nat.add_zero,
      List.drop_left' (by rw [List.length_take, Nat.min_eq_left hoffset]), List.append_assoc]
    exact List.prefix_append _ _
  obtain ⟨results, hcompare, hall⟩ :=
    hstands.compareFields hincreasing hfields htext fun q _ => Nat.zero_le q.n
  exact ⟨stored, results, hstored, hcompare, hall⟩

end Comparing

/-- NULL in a nullable field, before a text in one that is not. -/
def nullThenText : Row [⟨0⟩, ⟨flagNotNull⟩] where
  values := [none, some [0x61]]
  length_eq := rfl
  notNull := by decide
  text := by
    intro s hs c hc
    obtain rfl : s = [0x61] := by simpa using hs
    obtain rfl : c = 0x61 := by simpa using hc
    decide

theorem compareFields_nullThenText :
  ∃ stored results,
    [nullThenText].foldlM
        (fun r row => rememberRecord (fun _ => 1) [⟨0⟩, ⟨flagNotNull⟩] r row.values)
      ⟨[7], 0⟩ = some stored ∧
    compareFields [⟨0⟩, ⟨flagNotNull⟩] stored.recs 0 [⟨0, some []⟩, ⟨1, none⟩] ⟨0, 0⟩
      = some results ∧
    List.Forall₂ (fun q result => result = 0 ↔ nullThenText.values[q.n]? = some q.value)
      [(⟨0, some []⟩ : Query), ⟨1, none⟩] results
  := by
  have htext : ∀ q ∈ [(⟨0, some []⟩ : Query), ⟨1, none⟩], ∀ s, q.value = some s →
      ∀ c ∈ s, c ≠ 0 := by
    intro q hq s hs
    obtain rfl | rfl : q = ⟨0, some []⟩ ∨ q = ⟨1, none⟩ := by simpa using hq
    · cases hs
      nofun
    · nomatch hs
  exact compareFields_remembered (fun _ => 1) nullThenText [] (by decide) (Nat.zero_le 1)
    (by decide) (by decide) htext

end Proxy
