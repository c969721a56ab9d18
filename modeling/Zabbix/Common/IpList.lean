import Mathlib.Data.List.TakeWhile
import Zabbix.Common.Ipv6Collapse

/-!
# Lists of addresses

`ip_in_list` looks for an IPv4 address in a list of addresses and ranges, and `ip6_in_list` for
an IPv6 address. Both write zero bytes over the commas and dashes of the caller's list while
they read an element. The list is kept in a buffer without the zero byte at its end.
-/

namespace IpList

open Ascii

/-- `MAX_STRING_LEN` -/
def maxStringLen : ℕ := 2048

/-- The text that a pointer into the list points to. -/
def cstring (list : Bytes) (start : ℕ) : Bytes := (list.drop start).takeWhile (· ≠ 0)

/-- `strchr`, for a character that is not zero. -/
def strchr (list : Bytes) (start : ℕ) (c : UInt8) : Option ℕ :=
  let text := cstring list start
  if c ∈ text then some (start + text.idxOf c) else none

/-- A character written through a pointer, unless the pointer is `NULL`. -/
def write (list : Bytes) (pointer : Option ℕ) (c : UInt8) : Bytes :=
  match pointer with
  | none => list
  | some p => list.set p c

theorem strchr_bounds {list : Bytes} {start : ℕ} {c : UInt8} {p : ℕ}
    (h : strchr list start c = some p) :
  start ≤ p ∧ p < list.length
  := by
  simp only [strchr] at h
  split_ifs at h with hmem
  have hidx := List.idxOf_lt_length_of_mem hmem
  have hlength : (cstring list start).length ≤ list.length - start := by
    rw [← List.length_drop]
    exact (List.takeWhile_prefix _).length_le
  rw [Option.some.injEq] at h
  omega

@[simp]
theorem length_write (list : Bytes) (pointer : Option ℕ) (c : UInt8) :
  (write list pointer c).length = list.length
  := by
  cases pointer with
  | none => rfl
  | some p => exact List.length_set ..

/-- How one of the two functions reads the parts of an element: an address, and the end of a
range behind a dash. -/
structure Reader where
  address : Bytes → Option (List ℤ)
  last : Bytes → Option ℤ

/-- The comparison of the address `i` with `j`, the last number of which is the first of a range
up to `last`. -/
def inRange (i j : List ℤ) (last : ℤ) : Bool :=
  match i.getLast?, j.getLast? with
  | some x, some y => i.dropLast = j.dropLast && y ≤ x && x ≤ last
  | _, _ => false

/-- An element between `start` and the next zero byte, with the dash in it overwritten: whether
it has the address `i` in it. -/
def element (reader : Reader) (i : List ℤ) (list : Bytes) (start : ℕ) (dash : Option ℕ) : Bool :=
  match dash with
  | none =>
    match reader.address (cstring list start) with
    | none => false
    | some j => inRange i j (j.getLast?.getD 0)
  | some p =>
    match reader.last (cstring list (p + 1)) with
    | none => false
    | some last =>
      match reader.address (cstring list start) with
      | none => false
      | some j => inRange i j last

/-- The loop over the elements: whether it returns `SUCCEED`, and the list behind it. -/
def listLoop (reader : Reader) (i : List ℤ) (list : Bytes) (start : ℕ) : Bool × Bytes :=
  if cstring list start = [] then (false, list)
  else
    match hcomma : strchr list start comma with
    | none =>
      let dash := strchr list start minus
      let cut := write list dash 0
      (element reader i cut start dash, write cut dash minus)
    | some p =>
      let cut := list.set p 0
      let dash := strchr cut start minus
      let cut := write cut dash 0
      let list' := (write cut dash minus).set p comma
      if element reader i cut start dash then (true, list')
      else listLoop reader i list' (p + 1)
  termination_by list.length - start
  decreasing_by
    have hbounds := strchr_bounds hcomma
    simp only [List.length_set, length_write]
    omega

section

/- What `sscanf` stores in an `int` for a number. -/
variable (store : ℤ → ℤ)

/-- `sscanf` with `"%d.%d.%d.%d"`, when it reads four numbers. -/
def readIpv4 (text : Bytes) : Option (List ℤ) :=
  let numbers := Scanf.separated Scanf.decimal dot 4 text
  if numbers.length ≠ 4 then none else some (numbers.map store)

/-- `expand_ipv6`, and `sscanf` with `"%x:%x:%x:%x:%x:%x:%x:%x"` of its result. -/
def readIpv6 (text : Bytes) : Option (List ℤ) :=
  match Ipv6.expandIpv6 text maxStringLen with
  | none => none
  | some buffer =>
    let numbers := Scanf.separated Scanf.hex colon 8 buffer
    if numbers.length ≠ 8 then none else some (numbers.map store)

/-- The parts of elements in `ip_in_list`. -/
def ipv4Reader : Reader where
  address := readIpv4 store
  last text := (Scanf.decimal text).map fun number => store number.1

/-- The parts of elements in `ip6_in_list`. -/
def ipv6Reader : Reader where
  address := readIpv6 store
  last text := (Scanf.hex text).map fun number => store number.1

/-- `ip6_in_list`: whether it returns `SUCCEED`, and the list behind it. -/
def ip6InList (list ip : Bytes) : Bool × Bytes :=
  match readIpv6 store ip with
  | none => (false, list)
  | some i => listLoop (ipv6Reader store) i list 0

/-- `ip_in_list`, of a build with IPv6: whether it returns `SUCCEED`, and the list behind it. -/
def ipInList (list ip : Bytes) : Bool × Bytes :=
  match readIpv4 store ip with
  | none => ip6InList store list ip
  | some i => listLoop (ipv4Reader store) i list 0

end

/-! ### The list is restored -/

theorem getElem?_strchr {list : Bytes} {start : ℕ} {c : UInt8} {p : ℕ}
    (h : strchr list start c = some p) :
  list[p]? = some c
  := by
  simp only [strchr] at h
  split_ifs at h with hmem
  have hlt := List.idxOf_lt_length_of_mem hmem
  have hprefix : (cstring list start) <+: list.drop start := List.takeWhile_prefix _
  have hget : (list.drop start)[(cstring list start).idxOf c]? = some c := by
    rw [List.prefix_iff_getElem?.mp hprefix _ hlt, List.getElem_idxOf]
  rw [List.getElem?_drop] at hget
  rw [← Option.some.inj h]
  exact hget

theorem set_restore {list : Bytes} {p : ℕ} {c : UInt8} (h : list[p]? = some c) (d : UInt8) :
  (list.set p d).set p c = list
  := by
  obtain ⟨hp, hget⟩ := List.getElem?_eq_some_iff.mp h
  rw [List.set_set, ← hget, List.set_getElem_self]

theorem write_restore (list : Bytes) (start : ℕ) (c d : UInt8) :
  write (write list (strchr list start c) d) (strchr list start c) c = list
  := by
  cases hp : strchr list start c with
  | none => rfl
  | some p => exact set_restore (getElem?_strchr hp) d

theorem listLoop_restore {list : Bytes} {start p : ℕ} (h : strchr list start comma = some p) :
  (write (write (list.set p 0) (strchr (list.set p 0) start minus) 0)
      (strchr (list.set p 0) start minus) minus).set p comma = list
  := by
  rw [write_restore]
  exact set_restore (getElem?_strchr h) 0

/-- The list behind the loop is the list before it. -/
theorem listLoop_list (reader : Reader) (i : List ℤ) (list : Bytes) (start : ℕ) :
  (listLoop reader i list start).2 = list
  := by
  fun_induction listLoop reader i list start with
  | case1 => rfl
  | case2 list start _ _ dash cut => exact write_restore list start minus 0
  | case3 list start _ p hcomma cut dash cut' list' _ => exact listLoop_restore hcomma
  | case4 list start _ p hcomma cut dash cut' list' _ ih =>
    rw [ih]
    exact listLoop_restore hcomma

/-! ### Elements -/

/-- The part of an element in front of its dash. -/
def base (e : Bytes) : Bytes := e.takeWhile (· ≠ minus)

/-- The part of an element behind its dash, if there is one. -/
def ending (e : Bytes) : Option Bytes :=
  if minus ∈ e then some (e.drop ((base e).length + 1)) else none

/-- An element as a text: whether it has the address `i` in it. -/
def elementText (reader : Reader) (i : List ℤ) (e : Bytes) : Bool :=
  match ending e with
  | none =>
    match reader.address (base e) with
    | none => false
    | some j => inRange i j (j.getLast?.getD 0)
  | some text =>
    match reader.last text with
    | none => false
    | some last =>
      match reader.address (base e) with
      | none => false
      | some j => inRange i j last

theorem cstring_append {e rest : Bytes} (he : 0 ∉ e) (hrest : ∀ c ∈ rest.head?, c = 0)
    (front : Bytes) :
  cstring (front ++ (e ++ rest)) front.length = e
  := by
  have hzero : ∀ c ∈ e, decide (c ≠ 0) = true := fun c hc =>
    decide_eq_true fun heq => he (heq ▸ hc)
  rw [cstring, List.drop_left, List.takeWhile_append_of_pos hzero]
  cases rest with
  | nil => rw [List.takeWhile_nil, List.append_nil]
  | cons c rest =>
    rw [List.takeWhile_cons_of_neg (by rw [hrest c rfl]; decide), List.append_nil]

/-- A character that is found, and the text around it. -/
theorem exists_first {c : UInt8} {e : Bytes} (h : c ∈ e) :
  ∃ text, e = e.takeWhile (· ≠ c) ++ c :: text ∧
    e.idxOf c = (e.takeWhile (· ≠ c)).length
  := by
  induction e with
  | nil => simp at h
  | cons d e ih =>
    by_cases hd : d = c
    · subst hd
      refine ⟨e, ?_, ?_⟩
      · rw [List.takeWhile_cons_of_neg (by simp), List.nil_append]
      · rw [List.takeWhile_cons_of_neg (by simp), List.idxOf_cons_self]
        rfl
    · obtain ⟨text, htext, hidx⟩ := ih ((List.mem_cons.mp h).resolve_left (Ne.symm hd))
      refine ⟨text, ?_, ?_⟩
      · rw [List.takeWhile_cons_of_pos (by simpa using hd), List.cons_append, ← htext]
      · rw [List.takeWhile_cons_of_pos (by simpa using hd), List.idxOf_cons_ne _ hd, hidx]
        rfl

/-- What is read of an element in the list is what is read of it as a text. -/
theorem element_append (reader : Reader) (i : List ℤ) {e rest : Bytes} (he : 0 ∉ e)
    (hrest : ∀ c ∈ rest.head?, c = 0) (front : Bytes) :
  element reader i (write (front ++ (e ++ rest)) (strchr (front ++ (e ++ rest)) front.length minus)
      0) front.length (strchr (front ++ (e ++ rest)) front.length minus)
    = elementText reader i e
  := by
  have hcstring := cstring_append he hrest front
  by_cases hmem : minus ∈ e
  · obtain ⟨text, htext, hidx⟩ := exists_first hmem
    have hstrchr : strchr (front ++ (e ++ rest)) front.length minus
        = some (front.length + (base e).length) := by
      rw [strchr, hcstring]
      simp only [if_pos hmem, hidx]
      rfl
    have hending : ending e = some (e.drop ((base e).length + 1)) := if_pos hmem
    rw [hstrchr, element, elementText, hending]
    change e = base e ++ minus :: text at htext
    generalize base e = b at htext ⊢
    subst htext
    rw [List.mem_append, List.mem_cons, not_or, not_or] at he
    have hcut : write (front ++ (b ++ minus :: text ++ rest)) (some (front.length + b.length)) 0
        = front ++ (b ++ 0 :: (text ++ rest)) := by
      simp [write]
    have hbase : cstring (front ++ (b ++ 0 :: (text ++ rest))) front.length = b :=
      cstring_append he.1 (by simp) front
    have htail : cstring (front ++ (b ++ 0 :: (text ++ rest))) (front.length + b.length + 1)
        = text := by
      have hsplit : front ++ (b ++ 0 :: (text ++ rest)) = (front ++ b ++ [0]) ++ (text ++ rest) := by
        simp
      have hlength : front.length + b.length + 1 = (front ++ b ++ [0]).length := by simp; omega
      rw [hsplit, hlength]
      exact cstring_append he.2.2 hrest _
    have hdrop : (b ++ minus :: text).drop (b.length + 1) = text := by simp
    rw [hcut, hdrop]
    simp only [hbase, htail]
  · have hstrchr : strchr (front ++ (e ++ rest)) front.length minus = none := by
      rw [strchr, hcstring]
      exact if_neg hmem
    have hbase : base e = e := by
      rw [base, List.takeWhile_eq_self_iff]
      intro c hc
      exact decide_eq_true fun heq => hmem (heq ▸ hc)
    rw [hstrchr, element, elementText, ending, if_neg hmem, hbase]
    simp only [write, hcstring]

/-! ### The loop -/

theorem listLoop_last {reader : Reader} {i : List ℤ} {list : Bytes} {start : ℕ}
    (hne : cstring list start ≠ []) (h : strchr list start comma = none) :
  (listLoop reader i list start).1
    = element reader i (write list (strchr list start minus) 0) start (strchr list start minus)
  := by
  rw [listLoop, if_neg hne]
  split
  · rfl
  · rename_i p hp
    rw [h] at hp
    contradiction

theorem listLoop_comma {reader : Reader} {i : List ℤ} {list : Bytes} {start p : ℕ}
    (h : strchr list start comma = some p) :
  (listLoop reader i list start).1
    = (element reader i (write (list.set p 0) (strchr (list.set p 0) start minus) 0) start
        (strchr (list.set p 0) start minus) || (listLoop reader i list (p + 1)).1)
  := by
  have hne : cstring list start ≠ [] := by
    intro hnil
    rw [strchr, hnil] at h
    simp at h
  rw [listLoop, if_neg hne]
  split
  · rename_i hnone
    rw [h] at hnone
    contradiction
  · rename_i q hq
    have hpq : p = q := Option.some.inj (h.symm.trans hq)
    subst hpq
    simp only [listLoop_restore h]
    cases element reader i (write (list.set p 0) (strchr (list.set p 0) start minus) 0) start
        (strchr (list.set p 0) start minus) <;> rfl

/-- The loop looks at the parts between the commas. An empty part has no address in it. -/
theorem listLoop_elements (reader : Reader) (i : List ℤ) (hempty : reader.address [] = none)
    {fields : List Bytes} (hne : fields ≠ [])
    (hfields : ∀ e ∈ fields, comma ∉ e ∧ (0 : UInt8) ∉ e) (front : Bytes) :
  (listLoop reader i (front ++ Fields.join comma fields) front.length).1
    = fields.any (elementText reader i)
  := by
  have hnone : elementText reader i [] = false := by
    simp [elementText, ending, base, hempty]
  induction fields generalizing front with
  | nil => exact absurd rfl hne
  | cons e fields ih =>
    rw [List.forall_mem_cons] at hfields
    obtain ⟨⟨hcomma, hzero⟩, hfields⟩ := hfields
    by_cases hlast : fields = []
    · subst hlast
      have hcstring : cstring (front ++ (e ++ [])) front.length = e :=
        cstring_append hzero (by simp) front
      have helement := @element_append reader i e [] hzero (by simp) front
      rw [List.append_nil] at hcstring helement
      rw [Fields.join_singleton, List.any_cons, List.any_nil, Bool.or_false]
      by_cases hnil : e = []
      · rw [listLoop, hcstring, if_pos hnil, hnil, hnone]
      · have hstrchr : strchr (front ++ e) front.length comma = none := by
          rw [strchr, hcstring]
          exact if_neg hcomma
        rw [listLoop_last (by rwa [hcstring]) hstrchr, helement]
    · have hall : (0 : UInt8) ∉ Fields.join comma (e :: fields) := by
        intro hmem
        obtain heq | ⟨field, hfield, hmem⟩ := Fields.mem_join hmem
        · exact absurd heq (by decide)
        · obtain heq | hfield := List.mem_cons.mp hfield
          · exact hzero (heq ▸ hmem)
          · exact (hfields field hfield).2 hmem
      have hcstring : cstring (front ++ Fields.join comma (e :: fields)) front.length
          = Fields.join comma (e :: fields) := by
        have happend := @cstring_append _ [] hall (by simp) front
        rwa [List.append_nil] at happend
      have hstrchr : strchr (front ++ Fields.join comma (e :: fields)) front.length comma
          = some (front.length + e.length) := by
        rw [strchr, hcstring, Fields.join_cons e hlast]
        simp only [List.mem_append, List.mem_cons, true_or, or_true, if_true,
          List.idxOf_append_of_notMem hcomma, List.idxOf_cons_self, Nat.add_zero]
      have hcut : (front ++ Fields.join comma (e :: fields)).set (front.length + e.length) 0
          = front ++ (e ++ 0 :: Fields.join comma fields) := by
        rw [Fields.join_cons e hlast]
        simp
      have hrest : front ++ Fields.join comma (e :: fields)
          = (front ++ e ++ [comma]) ++ Fields.join comma fields := by
        rw [Fields.join_cons e hlast]
        simp
      have hnext : front.length + e.length + 1 = (front ++ e ++ [comma]).length := by simp; omega
      rw [listLoop_comma hstrchr, hcut, element_append reader i hzero (by simp) front, hnext,
        hrest, ih hlast hfields, List.any_cons]

/-! ### What an element stands for -/

/-- An element has an address in it: its front part is read as an address with the same numbers
except the last, and the last number is in the range. -/
def Contains (reads : Bytes → List ℤ → Prop) (readsLast : Bytes → ℤ → Prop) (i : List ℤ)
    (e : Bytes) : Prop :=
  ∃ front first last x, reads (base e) (front ++ [first]) ∧
    (ending e = none ∧ last = first ∨ ∃ text, ending e = some text ∧ readsLast text last) ∧
    i = front ++ [x] ∧ first ≤ x ∧ x ≤ last

theorem inRange_iff (i j : List ℤ) (last : ℤ) :
  inRange i j last = true
    ↔ ∃ front first x, j = front ++ [first] ∧ i = front ++ [x] ∧ first ≤ x ∧ x ≤ last
  := by
  obtain rfl | ⟨front, x, rfl⟩ := List.eq_nil_or_concat i
  · simp [inRange]
  obtain rfl | ⟨front', first, rfl⟩ := List.eq_nil_or_concat j
  · simp [inRange]
  simp only [inRange, List.concat_eq_append, List.getLast?_concat, List.dropLast_concat,
    Bool.and_eq_true, decide_eq_true_eq]
  constructor
  · rintro ⟨⟨rfl, hle⟩, hle'⟩
    exact ⟨front, first, x, rfl, rfl, hle, hle'⟩
  · rintro ⟨front'', first', x', hj, hi, hle, hle'⟩
    obtain ⟨rfl, hfirst⟩ := List.append_inj' hj rfl
    obtain ⟨rfl, hx⟩ := List.append_inj' hi rfl
    rw [List.cons.injEq] at hfirst hx
    obtain ⟨rfl, -⟩ := hfirst
    obtain ⟨rfl, -⟩ := hx
    exact ⟨⟨rfl, hle⟩, hle'⟩

theorem elementText_iff (reader : Reader) (i : List ℤ) (e : Bytes) :
  elementText reader i e = true
    ↔ Contains (fun text j => reader.address text = some j)
        (fun text last => reader.last text = some last) i e
  := by
  rw [elementText, Contains]
  cases hending : ending e with
  | none =>
    simp only [reduceCtorEq, false_and, exists_false, or_false, true_and]
    cases haddress : reader.address (base e) with
    | none => simp
    | some j =>
      simp only [Option.some.injEq, inRange_iff]
      constructor
      · rintro ⟨front, first, x, rfl, hi, hle, hle'⟩
        rw [List.getLast?_concat, Option.getD_some] at hle'
        exact ⟨front, first, first, x, rfl, rfl, hi, hle, hle'⟩
      · rintro ⟨front, first, last, x, rfl, rfl, hi, hle, hle'⟩
        refine ⟨front, last, x, rfl, hi, hle, ?_⟩
        rwa [List.getLast?_concat, Option.getD_some]
  | some text =>
    simp only [reduceCtorEq, false_and, Option.some.injEq, exists_eq_left', false_or]
    cases hlast : reader.last text with
    | none => simp
    | some last =>
      cases haddress : reader.address (base e) with
      | none => simp
      | some j =>
        simp only [Option.some.injEq, inRange_iff]
        constructor
        · rintro ⟨front, first, x, rfl, hi, hle, hle'⟩
          exact ⟨front, first, last, x, rfl, rfl, hi, hle, hle'⟩
        · rintro ⟨front, first, last', x, rfl, rfl, hi, hle, hle'⟩
          exact ⟨front, first, x, rfl, hi, hle, hle'⟩

/-! ### IPv6 addresses -/

theorem accepts_groups {text : Bytes} {g : List ℕ} (h : Ipv6.Accepts text g) :
  g.length = 8 ∧ ∀ group ∈ g, group < 16 ^ 4
  := by
  have hgroups : ∀ {ts : List Bytes}, (∀ t ∈ ts, Ipv6.GroupText t) →
      ∀ group ∈ Ipv6.groups ts, group < 16 ^ 4 := by
    intro ts hts group hgroup
    obtain ⟨t, ht, rfl⟩ := List.mem_map.mp hgroup
    exact Ipv6.groups_lt (hts t ht)
  have hzeros : ∀ n, ∀ group ∈ List.replicate n 0, group < 16 ^ 4 := by
    intro n group hgroup
    rw [List.eq_of_mem_replicate hgroup]
    decide
  cases h with
  | @groups ts hthree height htexts =>
    refine ⟨?_, List.forall_mem_append.mpr ⟨hgroups htexts, hzeros _⟩⟩
    rw [List.length_append, List.length_map, List.length_replicate]
    omega
  | @short front back hcolons hfront hback =>
    refine ⟨?_, List.forall_mem_append.mpr
      ⟨List.forall_mem_append.mpr ⟨hgroups hfront, hzeros _⟩, hgroups hback⟩⟩
    rw [List.length_append, List.length_append, List.length_map, List.length_map,
      List.length_replicate]
    omega

theorem groupText_hexPadded {group : ℕ} (h : group < 16 ^ 4) :
  Ipv6.GroupText (Digits.hexPadded 4 group)
  := by
  have hlength := Digits.length_hexPadded (Digits.length_hex_le h)
  refine ⟨?_, hlength.le, Digits.isHexDigit_hexPadded 4 group⟩
  exact List.ne_nil_of_length_pos (by rw [hlength]; decide)

theorem length_fullText {g : List ℕ} (hlength : g.length = 8)
    (h : ∀ group ∈ g, group < 16 ^ 4) :
  (Ipv6.fullText g).length = 39
  := by
  have hsize : ∀ j : List ℕ, (∀ group ∈ j, group < 16 ^ 4) →
      Ipv6.size (j.map (Digits.hexPadded 4)) = 5 * j.length := by
    intro j hj
    induction j with
    | nil => rfl
    | cons group j ih =>
      rw [List.forall_mem_cons] at hj
      rw [List.map_cons, Ipv6.size_cons, ih hj.2,
        Digits.length_hexPadded (Digits.length_hex_le hj.1), List.length_cons]
      omega
  have hne : g.map (Digits.hexPadded 4) ≠ [] :=
    List.ne_nil_of_length_pos (by rw [List.length_map, hlength]; decide)
  have htotal := Ipv6.length_join hne
  rw [hsize g h, hlength] at htotal
  exact Nat.succ_inj.mp htotal

theorem scan_fullText {g : List ℕ} (hlength : g.length = 8) (h : ∀ group ∈ g, group < 16 ^ 4) :
  Scanf.separated Scanf.hex colon 8 (Ipv6.fullText g) = g.map Nat.cast
  := by
  have hne : g.map (Digits.hexPadded 4) ≠ [] :=
    List.ne_nil_of_length_pos (by rw [List.length_map, hlength]; decide)
  have hscan := Ipv6.scan_join hne
    (List.forall_mem_map.mpr fun group hgroup => groupText_hexPadded (h group hgroup))
  rw [List.length_map, hlength] at hscan
  rw [Ipv6.fullText, hscan, List.map_map]
  exact List.map_congr_left fun group _ => congrArg Nat.cast (Digits.value_hexPadded 4 group)

/-! ### What the list stands for -/

section

variable (store : ℤ → ℤ)

/-- The text begins with four numbers with dots between them. -/
def Dotted (text : Bytes) (i : List ℤ) : Prop :=
  ∃ numbers, Scanf.separated Scanf.decimal dot 4 text = numbers ∧ numbers.length = 4 ∧
    i = numbers.map store

/-- The text begins with a number. -/
def Begins (conversion : Bytes → Option (ℤ × Bytes)) (text : Bytes) (last : ℤ) : Prop :=
  ∃ number, conversion text = some number ∧ last = store number.1

/-- The text is an IPv6 address with the given groups. -/
def Ipv6Address (text : Bytes) (i : List ℤ) : Prop :=
  ∃ g, Ipv6.Denotes text g ∧ i = g.map Nat.cast

/-- An element of the list has the IPv6 address in it. -/
def Ipv6InList (list ip : Bytes) : Prop :=
  ∃ i, Ipv6Address ip i ∧
    ∃ e ∈ list.splitOn comma, Contains Ipv6Address (Begins store Scanf.hex) i e

/-- An element of the list has the address in it. -/
def InList (list ip : Bytes) : Prop :=
  (∃ i, Dotted store ip i ∧
    ∃ e ∈ list.splitOn comma, Contains (Dotted store) (Begins store Scanf.decimal) i e) ∨
  (¬ ∃ i, Dotted store ip i) ∧ Ipv6InList store list ip

/-- The text is none of those that `expand_ipv6` takes for an address, or refuses, by mistake. -/
def Regular (text : Bytes) : Prop := ¬ Ipv6.TooFew text ∧ ¬ Ipv6.SevenAtEdge text

end

section

variable {store : ℤ → ℤ}

theorem readIpv4_iff (text : Bytes) (i : List ℤ) :
  readIpv4 store text = some i ↔ Dotted store text i
  := by
  rw [readIpv4, Dotted]
  by_cases hlength : (Scanf.separated Scanf.decimal dot 4 text).length = 4
  · simp [hlength, eq_comm]
  · simp [hlength]

theorem begins_iff (conversion : Bytes → Option (ℤ × Bytes)) (text : Bytes) (last : ℤ) :
  ((conversion text).map fun number => store number.1) = some last
    ↔ Begins store conversion text last
  := by
  rw [Option.map_eq_some_iff, Begins]
  simp only [eq_comm]

/-- A number of a group is stored as it is. -/
def StoresInt (store : ℤ → ℤ) : Prop := ∀ n, 0 ≤ n → n < 2 ^ 31 → store n = n

theorem readIpv6_accepts (hstore : StoresInt store) {text : Bytes} {g : List ℕ}
    (h : Ipv6.Accepts text g) :
  readIpv6 store text = some (g.map Nat.cast)
  := by
  obtain ⟨hlength, hlt⟩ := accepts_groups h
  have hexpand := (Ipv6.expandIpv6_eq_some_iff text maxStringLen _).mpr ⟨g, h, rfl⟩
  rw [List.take_of_length_le (by rw [length_fullText hlength hlt]; decide)] at hexpand
  rw [readIpv6, hexpand]
  simp only [scan_fullText hlength hlt, List.length_map, hlength, ne_eq, not_true_eq_false,
    if_false, List.map_map]
  refine congrArg some (List.map_congr_left fun group hgroup => ?_)
  have hgroup := hlt group hgroup
  exact hstore group (by omega) (by omega)

theorem readIpv6_iff (hstore : StoresInt store) {text : Bytes} (hregular : Regular text)
    (i : List ℤ) :
  readIpv6 store text = some i ↔ Ipv6Address text i
  := by
  have haccepts : ∀ g, Ipv6.Denotes text g ↔ Ipv6.Accepts text g :=
    Ipv6.denotes_iff_accepts hregular.1 hregular.2
  constructor
  · intro h
    cases hexpand : Ipv6.expandIpv6 text maxStringLen with
    | none =>
      rw [readIpv6, hexpand] at h
      contradiction
    | some buffer =>
      obtain ⟨g, hg, -⟩ := (Ipv6.expandIpv6_eq_some_iff text maxStringLen buffer).mp hexpand
      rw [readIpv6_accepts hstore hg, Option.some.injEq] at h
      exact ⟨g, (haccepts g).mpr hg, h.symm⟩
  · rintro ⟨g, hdenotes, rfl⟩
    exact readIpv6_accepts hstore ((haccepts g).mp hdenotes)

theorem mem_splitOn {list : Bytes} (hlist : (0 : UInt8) ∉ list) :
  ∀ e ∈ list.splitOn comma, comma ∉ e ∧ (0 : UInt8) ∉ e
  := by
  intro e he
  refine ⟨Fields.not_mem_of_mem_splitOn list e he, fun hzero => hlist ?_⟩
  have hjoin : Fields.join comma (list.splitOn comma) = list := List.intercalate_splitOn comma
  rw [← hjoin]
  exact Fields.mem_join_of_mem he hzero

/-- The loop over the whole list, with readers that read what is meant. -/
theorem listLoop_iff {list : Bytes} (hlist : (0 : UInt8) ∉ list) {reader : Reader}
    (hempty : reader.address [] = none) {reads : Bytes → List ℤ → Prop}
    (hreads : ∀ e ∈ list.splitOn comma, ∀ j, reader.address (base e) = some j ↔ reads (base e) j)
    {readsLast : Bytes → ℤ → Prop}
    (hlast : ∀ text last, reader.last text = some last ↔ readsLast text last) (i : List ℤ) :
  (listLoop reader i list 0).1 = true
    ↔ ∃ e ∈ list.splitOn comma, Contains reads readsLast i e
  := by
  have hloop := listLoop_elements reader i hempty (List.splitOn_ne_nil comma list)
    (mem_splitOn hlist) []
  have hjoin : Fields.join comma (list.splitOn comma) = list := List.intercalate_splitOn comma
  rw [hjoin, List.nil_append, List.length_nil] at hloop
  rw [hloop, List.any_eq_true]
  refine exists_congr fun e => and_congr_right fun he => ?_
  rw [elementText_iff]
  simp only [Contains, hreads e he, hlast]

theorem ip6InList_iff (hstore : StoresInt store) {list ip : Bytes} (hlist : (0 : UInt8) ∉ list)
    (hip : Regular ip) (helements : ∀ e ∈ list.splitOn comma, Regular (base e)) :
  (ip6InList store list ip).1 = true ↔ Ipv6InList store list ip
  := by
  have hread := readIpv6_iff hstore hip
  have hempty : (ipv6Reader store).address [] = none := rfl
  have hloop := listLoop_iff hlist hempty
    (fun e he j => readIpv6_iff hstore (helements e he) j) (begins_iff Scanf.hex)
  rw [ip6InList, Ipv6InList]
  cases hip : readIpv6 store ip with
  | none =>
    refine iff_of_false Bool.false_ne_true ?_
    rintro ⟨i, hi, -⟩
    rw [← hread, hip] at hi
    contradiction
  | some i =>
    have hi := (hread i).mp hip
    rw [hloop i]
    constructor
    · intro h
      exact ⟨i, hi, h⟩
    · rintro ⟨i', hi', h⟩
      rw [← hread, hip] at hi'
      rwa [Option.some.inj hi']

theorem ipInList_dotted {list ip : Bytes} (hlist : (0 : UInt8) ∉ list) {i : List ℤ}
    (hi : Dotted store ip i) :
  (ipInList store list ip).1 = true
    ↔ ∃ e ∈ list.splitOn comma, Contains (Dotted store) (Begins store Scanf.decimal) i e
  := by
  have hempty : (ipv4Reader store).address [] = none := rfl
  rw [ipInList, (readIpv4_iff ip i).mpr hi]
  exact listLoop_iff hlist hempty (fun e _ j => readIpv4_iff (base e) j)
    (begins_iff Scanf.decimal) i

theorem dotted_inj {text : Bytes} {i i' : List ℤ} (h : Dotted store text i)
    (h' : Dotted store text i') :
  i = i'
  := Option.some.inj (((readIpv4_iff text i).mpr h).symm.trans ((readIpv4_iff text i').mpr h'))

theorem ip6InList_list (list ip : Bytes) :
  (ip6InList store list ip).2 = list
  := by
  rw [ip6InList]
  cases readIpv6 store ip with
  | none => rfl
  | some i => exact listLoop_list ..

theorem ipInList_list (list ip : Bytes) :
  (ipInList store list ip).2 = list
  := by
  rw [ipInList]
  cases readIpv4 store ip with
  | none => exact ip6InList_list list ip
  | some i => exact listLoop_list ..

end

/-- The addresses and elements of a list are read by the front of their texts, and what is
behind a number is not looked at. The list is restored in every case. -/
theorem ipInList_exact (store : ℤ → ℤ) (list ip : Bytes) :
  ((ipInList store list ip).2 = list ∧ (ip6InList store list ip).2 = list) ∧
  (StoresInt store → (0 : UInt8) ∉ list →
    (∃ i, Dotted store ip i) ∨ Regular ip ∧ (∀ e ∈ list.splitOn comma, Regular (base e)) →
    ((ipInList store list ip).1 = true ↔ InList store list ip)) ∧
  (StoresInt store → (0 : UInt8) ∉ list →
    Regular ip ∧ (∀ e ∈ list.splitOn comma, Regular (base e)) →
    ((ip6InList store list ip).1 = true ↔ Ipv6InList store list ip))
  := by
  refine ⟨⟨ipInList_list list ip, ip6InList_list list ip⟩, ?_, ?_⟩
  · intro hstore hlist hregular
    by_cases hdotted : ∃ i, Dotted store ip i
    · obtain ⟨i, hi⟩ := hdotted
      rw [ipInList_dotted hlist hi]
      constructor
      · intro h
        exact Or.inl ⟨i, hi, h⟩
      · rintro (⟨i', hi', h⟩ | ⟨hnone, -⟩)
        · rwa [dotted_inj hi hi']
        · exact absurd ⟨i, hi⟩ hnone
    · obtain ⟨hip, helements⟩ := hregular.resolve_left hdotted
      have hread : readIpv4 store ip = none := by
        rw [Option.eq_none_iff_forall_ne_some]
        intro i hi
        exact hdotted ⟨i, (readIpv4_iff ip i).mp hi⟩
      have hlist6 := ip6InList_iff hstore hlist hip helements
      rw [ipInList, hread]
      constructor
      · intro h
        exact Or.inr ⟨hdotted, hlist6.mp h⟩
      · rintro (hi | ⟨-, h⟩)
        · exact absurd (hi.imp fun _ => And.left) hdotted
        · exact hlist6.mpr h
  · rintro hstore hlist ⟨hip, helements⟩
    exact ip6InList_iff hstore hlist hip helements

theorem regular_of_count {text : Bytes} (h : text.count colon < 2) :
  Regular text
  := by
  constructor
  · intro hfew
    exact absurd hfew.count (by omega)
  · intro hedge
    have := hedge.count
    omega

theorem regular_of_denotes {text : Bytes} {g : List ℕ} (h : Ipv6.Denotes text g)
    (hcount : text.count colon ≠ 8) :
  Regular text
  := ⟨fun hfew => Ipv6.not_denotes_of_tooFew hfew ⟨g, h⟩, fun hedge => hcount hedge.count⟩

/-- An address and a range of IPv4, and a range of IPv6. -/
def sampleList : Bytes := bytes "192.168.0.1,10.0.0.1-5,fe80::1-5".toList

/-- An address `fe80::` with one more digit. -/
theorem denotes_linkLocal {c : UInt8} (hdigit : isHexDigit c = true) :
  Ipv6.Denotes (bytes "fe80::".toList ++ [c]) [0xfe80, 0, 0, 0, 0, 0, 0, Digits.value 16 [c]]
  := by
  have hfront : Ipv6.GroupText (bytes "fe80".toList) :=
    ⟨by decide, by decide, List.all_eq_true.mp (by decide)⟩
  have hback : Ipv6.GroupText [c] := ⟨by simp, by simp, by simpa using hdigit⟩
  have h := @Ipv6.Denotes.short [bytes "fe80".toList] [[c]] (by simp) (by simpa using hfront)
    (by simpa using hback)
  exact h

theorem ipInList_exact_sample :
  ((ipInList id sampleList (bytes "10.0.0.3".toList)).1 = true
    ↔ InList id sampleList (bytes "10.0.0.3".toList)) ∧
  ((ip6InList id sampleList (bytes "fe80::3".toList)).1 = true
    ↔ Ipv6InList id sampleList (bytes "fe80::3".toList))
  := by
  have hcomma : (0 : UInt8) ∉ sampleList := by decide
  have hsplit : sampleList.splitOn comma = [bytes "192.168.0.1".toList,
      bytes "10.0.0.1-5".toList, bytes "fe80::1-5".toList] := by decide
  constructor
  · refine (ipInList_exact id _ _).2.1 (fun _ _ _ => rfl) hcomma (Or.inl ?_)
    exact ⟨[10, 0, 0, 3], _, rfl, by decide, by decide⟩
  · refine (ipInList_exact id _ _).2.2 (fun _ _ _ => rfl) hcomma ⟨?_, ?_⟩
    · exact regular_of_denotes (denotes_linkLocal (c := 0x33) rfl) (by decide)
    · rw [hsplit]
      simp only [List.forall_mem_cons]
      refine ⟨regular_of_count (by decide), regular_of_count (by decide), ?_, by simp⟩
      exact regular_of_denotes (denotes_linkLocal (c := 0x31) rfl) (by decide)

/-- The text is a decimal address and nothing else. -/
def DottedText (text : Bytes) : Prop :=
  ∃ ts : List Bytes, ts.length = 4 ∧ (∀ t ∈ ts, t ≠ [] ∧ ∀ c ∈ t, isDigit c = true) ∧
    text = Fields.join dot ts

/-- The address 10.0.0.1 is found in the list `10.0.0.1x`, the only element of which is no
address and no range. -/
theorem ipInList_fails :
  (ipInList id (bytes "10.0.0.1x".toList) (bytes "10.0.0.1".toList)).1 = true ∧
    (bytes "10.0.0.1x".toList).splitOn comma = [bytes "10.0.0.1x".toList] ∧
    ending (bytes "10.0.0.1x".toList) = none ∧ ¬ DottedText (bytes "10.0.0.1x".toList) ∧
    ¬ ∃ g, Ipv6.Denotes (bytes "10.0.0.1x".toList) g
  := by
  have hsplit : (bytes "10.0.0.1x".toList).splitOn comma = [bytes "10.0.0.1x".toList] :=
    List.splitOn_eq_singleton (by decide)
  refine ⟨?_, hsplit, by decide, ?_, ?_⟩
  · have hi : Dotted id (bytes "10.0.0.1".toList) [10, 0, 0, 1] := ⟨_, rfl, by decide, by decide⟩
    rw [ipInList_dotted (by decide) hi, hsplit]
    refine ⟨_, List.mem_singleton_self _, [10, 0, 0], 1, 1, 1, ?_, ?_, by decide, by decide⟩
    · exact ⟨_, rfl, by decide, by decide⟩
    · exact Or.inl ⟨by decide, rfl⟩
  · rintro ⟨ts, -, htexts, heq⟩
    have hx : (0x78 : UInt8) ∈ Fields.join dot ts := heq ▸ (by decide)
    obtain hdot | ⟨t, ht, hmem⟩ := Fields.mem_join hx
    · exact absurd hdot (by decide)
    · exact absurd ((htexts t ht).2 0x78 hmem) (by decide)
  · rintro ⟨g, hdenotes⟩
    have hcount : (bytes "10.0.0.1x".toList).count colon = 0 := by decide
    generalize bytes "10.0.0.1x".toList = text at hdenotes hcount
    cases hdenotes with
    | full hlength htexts =>
      have hcolons := Ipv6.count_join (List.ne_nil_of_length_pos (by omega)) htexts
      omega
    | short _ hfront hback =>
      rw [Ipv6.count_shortText hfront hback] at hcount
      omega

end IpList
