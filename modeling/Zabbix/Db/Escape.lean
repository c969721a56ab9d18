import Zabbix.Library.SqlLiteral
import Zabbix.Library.Utf8

/-!
# Escaping strings for SQL statements

Before a string is put between single quotes in a statement, quotes in it, and in some
dialects backslashes, are written as pairs. One function computes the length of the escaped
string, one that of its front part with a limited number of characters, and one copies and
escapes as much as fits. All of them leave out carriage returns. The limit is a number of
64 bits.

A string in memory has less than 2^63 bytes, so that the lengths do not overflow.
-/

namespace Db

open Ascii

/-- The database the program is compiled for. For PostgreSQL `escapeBackslash` is
`ZBX_PG_ESCAPE_BACKSLASH`, which is set when its strings are not standard conforming. -/
inductive Dialect
  | mysql | postgresql (escapeBackslash : Bool) | ibmDb2 | oracle | sqlite3
deriving DecidableEq, Repr

/-- Whether a backslash is special in a string literal. -/
def Dialect.escapes : Dialect → Bool
  | .mysql => true
  | .postgresql escapeBackslash => escapeBackslash
  | .ibmDb2 | .oracle | .sqlite3 => false

/-- The characters that are written as pairs. -/
def needsEscape (d : Dialect) (c : UInt8) : Bool :=
  match d with
  | .mysql => c = apostrophe || c = backslash
  | .postgresql escapeBackslash => c = apostrophe || c = backslash && escapeBackslash
  | .ibmDb2 | .oracle | .sqlite3 => c = apostrophe

/-- The first character of a pair: `ZBX_DB_ESC_CH`, or for PostgreSQL the character again. -/
def escapeChar (d : Dialect) (c : UInt8) : UInt8 :=
  match d with
  | .mysql => backslash
  | .postgresql _ => c
  | .ibmDb2 | .oracle | .sqlite3 => apostrophe

/-- The number of bytes added to the length for a character that is not skipped. -/
def escapedLen (d : Dialect) (c : UInt8) : ℕ :=
  if needsEscape d c then 2 else 1

/-- The loop of `DBget_escape_string_len`. -/
def escapeStringLenLoop (d : Dialect) : Bytes → (len : ℕ) → ℕ
  | [], len => len
  | c :: s, len =>
    if c = carriageReturn then escapeStringLenLoop d s len
    else escapeStringLenLoop d s (len + escapedLen d c)

/-- `DBget_escape_string_len` -/
def getEscapeStringLen (d : Dialect) (src : Bytes) : ℕ := escapeStringLenLoop d src 1

/-- The loop of `DBescape_string`: the bytes written when there is room for `len` of them. -/
def escapeLoop (d : Dialect) : Bytes → (len : ℕ) → Bytes
  | [], _ => []
  | c :: s, len =>
    if len = 0 then []
    else if c = carriageReturn then escapeLoop d s len
    else if needsEscape d c then
      if len < 2 then [] else escapeChar d c :: c :: escapeLoop d s (len - 2)
    else c :: escapeLoop d s (len - 1)

/-- `DBescape_string`: the string it writes into a buffer of `len` bytes, the last of which
is for the terminating zero. -/
def escapeString (d : Dialect) (src : Bytes) (len : ℕ) : Bytes := escapeLoop d src (len - 1)

/-- `DBdyn_escape_string` -/
def dynEscapeString (d : Dialect) (src : Bytes) : Bytes :=
  escapeString d src (getEscapeStringLen d src)

/-- The loop of `DBdyn_escape_string_len`. -/
def limitedLenLoop (d : Dialect) : Bytes → (maxSrcLen : UInt64) → (len : ℕ) → ℕ
  | [], _, len => len
  | c :: s, maxSrcLen, len =>
    if maxSrcLen = 0 then len
    else if c = carriageReturn then limitedLenLoop d s maxSrcLen len
    else if Utf8.isContinuation c then limitedLenLoop d s maxSrcLen (len + escapedLen d c)
    else if maxSrcLen - 1 = 0 then len
    else limitedLenLoop d s (maxSrcLen - 1) (len + escapedLen d c)

/-- The size of the buffer that `DBdyn_escape_string_len` allocates. -/
def limitedLen (d : Dialect) (src : Bytes) (maxSrcLen : UInt64) : ℕ :=
  limitedLenLoop d src (maxSrcLen + 1) 1

/-- `DBdyn_escape_string_len` -/
def dynEscapeStringLen (d : Dialect) (src : Bytes) (maxSrcLen : UInt64) : Bytes :=
  escapeString d src (limitedLen d src maxSrcLen)

/-! ### The escaped string -/

/-- The string without carriage returns, with pairs for the characters that need them. -/
def escaped (d : Dialect) (src : Bytes) : Bytes :=
  (src.filter (· ≠ carriageReturn)).flatMap fun c =>
    if needsEscape d c then [escapeChar d c, c] else [c]

variable (d : Dialect)

@[simp]
theorem escaped_nil :
  escaped d [] = []
  := rfl

theorem escaped_append (s s' : Bytes) :
  escaped d (s ++ s') = escaped d s ++ escaped d s'
  := by
  rw [escaped, List.filter_append, List.flatMap_append]
  rfl

@[simp]
theorem escaped_carriageReturn (s : Bytes) :
  escaped d (carriageReturn :: s) = escaped d s
  := by
  rw [escaped, List.filter_cons_of_neg (by simp)]
  rfl

theorem escaped_cons {c : UInt8} (hc : c ≠ carriageReturn) (s : Bytes) :
  escaped d (c :: s)
    = (if needsEscape d c then [escapeChar d c, c] else [c]) ++ escaped d s
  := by
  rw [escaped, List.filter_cons_of_pos (by simpa using hc), List.flatMap_cons]
  rfl

theorem length_escaped_cons {c : UInt8} (hc : c ≠ carriageReturn) (s : Bytes) :
  (escaped d (c :: s)).length = escapedLen d c + (escaped d s).length
  := by
  rw [escaped_cons d hc, List.length_append, escapedLen]
  split <;> rfl

theorem escapeStringLenLoop_eq (s : Bytes) (len : ℕ) :
  escapeStringLenLoop d s len = len + (escaped d s).length
  := by
  induction s generalizing len with
  | nil => rfl
  | cons c s ih =>
    rw [escapeStringLenLoop]
    by_cases hc : c = carriageReturn
    · rw [if_pos hc, ih, hc, escaped_carriageReturn]
    · rw [if_neg hc, ih, length_escaped_cons d hc, Nat.add_assoc]

/-- With room for the escaped front part of a string, exactly that is written. -/
theorem escapeLoop_append (s s' : Bytes) :
  escapeLoop d (s ++ s') (escaped d s).length = escaped d s
  := by
  induction s with
  | nil =>
    cases s' with
    | nil => rfl
    | cons c s' => simp [escapeLoop]
  | cons c s ih =>
    rw [List.cons_append, escapeLoop]
    by_cases hc : c = carriageReturn
    · rw [hc, escaped_carriageReturn, if_pos rfl, ih]
      by_cases hlen : (escaped d s).length = 0
      · rw [if_pos hlen, List.length_eq_zero_iff.mp hlen]
      · rw [if_neg hlen]
    · have hlen := length_escaped_cons d hc s
      rw [escapedLen] at hlen
      rw [hlen, if_neg hc, escaped_cons d hc]
      by_cases hneeds : needsEscape d c
      · simp only [if_pos hneeds]
        rw [if_neg (by omega), if_neg (by omega), Nat.add_sub_cancel_left, ih]
        rfl
      · simp only [if_neg hneeds]
        rw [if_neg (by omega), Nat.add_sub_cancel_left, ih]
        rfl

/-- What is written has room in the buffer. -/
theorem length_escapeLoop_le (s : Bytes) (len : ℕ) :
  (escapeLoop d s len).length ≤ len
  := by
  fun_induction escapeLoop d s len with
  | case1 => simp
  | case2 => simp
  | case3 => assumption
  | case4 => simp
  | case5 =>
    simp only [List.length_cons]
    omega
  | case6 =>
    simp only [List.length_cons]
    omega

theorem dynEscapeString_eq (src : Bytes) :
  dynEscapeString d src = escaped d src
  := by
  rw [dynEscapeString, escapeString, getEscapeStringLen, escapeStringLenLoop_eq,
    Nat.add_sub_cancel_left]
  simpa using escapeLoop_append d src []

/-! ### The front part of a string -/

/-- The front part of a text with at most `n` characters that are no carriage returns. -/
def frontChars (n : ℕ) : List Char → List Char
  | [] => []
  | c :: text =>
    if c = '\r' then c :: frontChars n text
    else if n = 0 then []
    else c :: frontChars (n - 1) text

theorem frontChars_isFront (n : ℕ) (text : List Char) :
  frontChars n text <+: text
  := by
  fun_induction frontChars n text with
  | case1 => exact List.prefix_rfl
  | case2 n text ih => exact List.prefix_cons_inj _ |>.mpr ih
  | case3 => exact List.nil_prefix
  | case4 n c text hc hn ih => exact List.prefix_cons_inj _ |>.mpr ih

theorem filter_frontChars (n : ℕ) (text : List Char) :
  (frontChars n text).filter (· ≠ '\r') = (text.filter (· ≠ '\r')).take n
  := by
  fun_induction frontChars n text with
  | case1 => simp
  | case2 n text ih => simpa using ih
  | case3 c text hc => simp
  | case4 n c text hc hn ih =>
    rw [List.filter_cons_of_pos (by simpa using hc), List.filter_cons_of_pos (by simpa using hc),
      ih]
    obtain ⟨m, rfl⟩ := Nat.exists_eq_succ_of_ne_zero hn
    rfl

/-- The longest front part of a text with at most `n` characters that are no carriage
returns. -/
structure IsLongestFront (n : ℕ) (text front : List Char) : Prop where
  isPrefix : front <+: text
  length_le : (front.filter (· ≠ '\r')).length ≤ n
  longest : ∀ front', front' <+: text → (front'.filter (· ≠ '\r')).length ≤ n →
    front' <+: front

theorem frontChars_isLongestFront (n : ℕ) (text : List Char) :
  IsLongestFront n text (frontChars n text)
  := by
  refine ⟨frontChars_isFront n text, ?_, ?_⟩
  · rw [filter_frontChars, List.length_take]
    exact Nat.min_le_left _ _
  · intro front hprefix hlength
    fun_induction frontChars n text generalizing front with
    | case1 => exact hprefix
    | case2 n text ih =>
      cases front with
      | nil => exact List.nil_prefix
      | cons c front =>
        obtain ⟨rfl, hrest⟩ := List.cons_prefix_cons.mp hprefix
        exact List.cons_prefix_cons.mpr ⟨rfl, ih front hrest (by simpa using hlength)⟩
    | case3 c text hc =>
      cases front with
      | nil => exact List.nil_prefix
      | cons c' front =>
        obtain ⟨rfl, -⟩ := List.cons_prefix_cons.mp hprefix
        simp [hc] at hlength
    | case4 n c text hc hn ih =>
      cases front with
      | nil => exact List.nil_prefix
      | cons c' front =>
        obtain ⟨rfl, hrest⟩ := List.cons_prefix_cons.mp hprefix
        rw [List.filter_cons_of_pos (by simpa using hc), List.length_cons] at hlength
        exact List.cons_prefix_cons.mpr ⟨rfl, ih front hrest (by omega)⟩

/-- A carriage return is a byte of its own, and no byte of another character is one. -/
theorem utf8EncodeChar_carriageReturn (c : Char) :
  c = '\r' ∧ String.utf8EncodeChar c = [carriageReturn] ∨
    c ≠ '\r' ∧ ∀ b ∈ String.utf8EncodeChar c, b ≠ carriageReturn
  := by
  by_cases hc : c = '\r'
  · left
    subst hc
    exact ⟨rfl, rfl⟩
  · right
    refine ⟨hc, ?_⟩
    rcases Utf8.utf8EncodeChar_cases c with ⟨b, heq, -, hval⟩ | ⟨first, tail, heq, -, hhigh, htail, -⟩
    · rw [heq]
      intro b' hb'
      rw [List.mem_singleton.mp hb']
      rintro rfl
      exact hc (Char.toNat_inj.mp hval.symm)
    · rw [heq]
      intro b hb
      rcases List.mem_cons.mp hb with rfl | hb
      · rintro rfl
        exact absurd hhigh (by decide)
      · rintro rfl
        exact absurd (htail _ hb) (by decide)

theorem filter_encode (text : List Char) :
  (Utf8.encode text).filter (· ≠ carriageReturn) = Utf8.encode (text.filter (· ≠ '\r'))
  := by
  induction text with
  | nil => rfl
  | cons c text ih =>
    rw [Utf8.encode_cons, List.filter_append, ih]
    rcases utf8EncodeChar_carriageReturn c with ⟨rfl, hbytes⟩ | ⟨hc, hbytes⟩
    · rw [hbytes, List.filter_cons_of_neg (by simp), List.filter_cons_of_neg (by simp)]
      rfl
    · rw [List.filter_eq_self.mpr (by simpa using hbytes),
        List.filter_cons_of_pos (by simpa using hc), Utf8.encode_cons]

/-- The continuation bytes of a character are counted whatever the limit. -/
theorem limitedLenLoop_continuation {tail : Bytes} (htail : ∀ b ∈ tail, Utf8.isContinuation b)
    (s : Bytes) {maxSrcLen : UInt64} (hmax : maxSrcLen ≠ 0) (len : ℕ) :
  limitedLenLoop d (tail ++ s) maxSrcLen len
    = limitedLenLoop d s maxSrcLen (len + (escaped d tail).length)
  := by
  induction tail generalizing len with
  | nil => rfl
  | cons b tail ih =>
    have hb := htail b List.mem_cons_self
    have hreturn : b ≠ carriageReturn := by
      rintro rfl
      exact absurd hb (by decide)
    rw [List.cons_append, limitedLenLoop, if_neg hmax, if_neg hreturn, if_pos hb,
      ih fun b hb => htail b (List.mem_cons_of_mem _ hb), length_escaped_cons d hreturn,
      Nat.add_assoc]

/-- A character other than a carriage return takes one off the limit, and is counted if
something is left. -/
theorem limitedLenLoop_char {c : Char} (hc : c ≠ '\r') (s : Bytes) {maxSrcLen : UInt64}
    (hmax : maxSrcLen ≠ 0) (len : ℕ) :
  limitedLenLoop d (String.utf8EncodeChar c ++ s) maxSrcLen len
    = if maxSrcLen - 1 = 0 then len
      else limitedLenLoop d s (maxSrcLen - 1)
        (len + (escaped d (String.utf8EncodeChar c)).length)
  := by
  have hreturn : ∀ b ∈ String.utf8EncodeChar c, b ≠ carriageReturn := by
    rcases utf8EncodeChar_carriageReturn c with ⟨rfl, -⟩ | ⟨-, hbytes⟩
    · contradiction
    · exact hbytes
  obtain ⟨first, tail, heq, hfirst, htail⟩ : ∃ first tail,
      String.utf8EncodeChar c = first :: tail ∧ Utf8.isContinuation first = false ∧
        ∀ b ∈ tail, Utf8.isContinuation b = true := by
    rcases Utf8.utf8EncodeChar_cases c with ⟨b, heq, hlow, -⟩ | ⟨first, tail, heq, hfirst, -, htail, -⟩
    · exact ⟨b, [], heq, Utf8.isContinuation_of_low hlow, by simp⟩
    · exact ⟨first, tail, heq, hfirst, htail⟩
  rw [heq] at hreturn ⊢
  have hfirstreturn := hreturn first List.mem_cons_self
  rw [List.cons_append, limitedLenLoop, if_neg hmax, if_neg hfirstreturn,
    if_neg (by simp [hfirst])]
  by_cases hone : maxSrcLen - 1 = 0
  · rw [if_pos hone, if_pos hone]
  · rw [if_neg hone, if_neg hone, limitedLenLoop_continuation d htail s hone,
      length_escaped_cons d hfirstreturn, Nat.add_assoc]

/-- The loop counts the front part of the text with one character less than its limit. -/
theorem limitedLenLoop_eq (text : List Char) {maxSrcLen : UInt64} (hmax : maxSrcLen ≠ 0)
    (len : ℕ) :
  limitedLenLoop d (Utf8.encode text) maxSrcLen len
    = len + (escaped d (Utf8.encode (frontChars (maxSrcLen.toNat - 1) text))).length
  := by
  induction text generalizing maxSrcLen len with
  | nil => rfl
  | cons c text ih =>
    rw [Utf8.encode_cons, frontChars]
    have hpos : 0 < maxSrcLen.toNat := by
      rw [Nat.pos_iff_ne_zero]
      exact fun h => hmax (UInt64.toNat_inj.mp h)
    by_cases hc : c = '\r'
    · rw [if_pos hc, hc]
      change limitedLenLoop d (carriageReturn :: Utf8.encode text) maxSrcLen len
        = len + (escaped d (carriageReturn :: Utf8.encode _)).length
      rw [limitedLenLoop, if_neg hmax, if_pos rfl, ih hmax, escaped_carriageReturn]
    · have hsub : (maxSrcLen - 1).toNat = maxSrcLen.toNat - 1 := by
        rw [UInt64.toNat_sub_of_le _ _ (by rw [UInt64.le_iff_toNat_le]; exact hpos)]
        rfl
      have hzero : maxSrcLen - 1 = 0 ↔ maxSrcLen.toNat - 1 = 0 := by
        rw [← hsub, ← UInt64.toNat_inj]
        rfl
      rw [if_neg hc, limitedLenLoop_char d hc _ hmax]
      by_cases hone : maxSrcLen - 1 = 0
      · rw [if_pos hone, if_pos (hzero.mp hone)]
        rfl
      · rw [if_neg hone, if_neg (mt hzero.mpr hone), ih hone, hsub, Utf8.encode_cons,
          escaped_append, List.length_append, Nat.add_assoc]

/-- The escaped front part of a text, unless the limit is the largest number, which
overflows. -/
theorem dynEscapeStringLen_eq (text : List Char) (n : UInt64) :
  dynEscapeStringLen d (Utf8.encode text) n
    = if n + 1 = 0 then [] else escaped d (Utf8.encode (frontChars n.toNat text))
  := by
  rw [dynEscapeStringLen, escapeString, limitedLen]
  by_cases hover : n + 1 = 0
  · rw [if_pos hover, hover]
    cases Utf8.encode text with
    | nil => rfl
    | cons b s => rfl
  · have hsucc : (n + 1).toNat - 1 = n.toNat := by
      have hlt := n.toNat_lt
      have hne : (n + 1).toNat ≠ 0 := fun h => hover (UInt64.toNat_inj.mp h)
      rw [UInt64.toNat_add] at hne ⊢
      change (n.toNat + 1) % 2 ^ 64 ≠ 0 at hne
      change (n.toNat + 1) % 2 ^ 64 - 1 = n.toNat
      omega
    rw [if_neg hover, limitedLenLoop_eq d text hover, hsucc, Nat.add_sub_cancel_left]
    obtain ⟨rest, hrest⟩ := frontChars_isFront n.toNat text
    have hencode := escapeLoop_append d (Utf8.encode (frontChars n.toNat text)) (Utf8.encode rest)
    rwa [← Utf8.encode_append, hrest] at hencode

/-! ### What the escaped strings denote -/

/-- The escaped string is the literal of the string without carriage returns. -/
theorem denotes_escaped (s : Bytes) :
  SqlLiteral.Denotes d.escapes (escaped d s) (s.filter (· ≠ carriageReturn))
  := by
  induction s with
  | nil => exact SqlLiteral.denotes_nil _
  | cons c s ih =>
    by_cases hc : c = carriageReturn
    · rw [hc, escaped_carriageReturn, List.filter_cons_of_neg (by simp)]
      exact ih
    · rw [escaped_cons d hc, List.filter_cons_of_pos (by simpa using hc)]
      by_cases hquote : c = apostrophe
      · subst hquote
        cases d with
        | mysql => exact ih.escaped (Or.inl rfl)
        | postgresql | ibmDb2 | oracle | sqlite3 => exact ih.doubled
      · by_cases hescape : c = backslash ∧ d.escapes
        · obtain ⟨rfl, hd⟩ := hescape
          cases d with
          | mysql => exact ih.escaped (Or.inr rfl)
          | postgresql escapeBackslash =>
            obtain rfl : escapeBackslash = true := hd
            exact ih.escaped (Or.inr rfl)
          | ibmDb2 | oracle | sqlite3 => contradiction
        · have hneeds : needsEscape d c = false := by
            cases d <;> simp_all [needsEscape, Dialect.escapes]
          rw [hneeds]
          exact ih.plain hquote hescape

/-- The string with a limited number of characters is the literal of the longest front part
with so many, the whole string that of the whole text, both without carriage returns, and
both fit into their buffers with the terminating zero. -/
structure EscapesExactly (d : Dialect) (text : List Char) (n : UInt64) : Prop where
  limited : ∃ front, IsLongestFront n.toNat text front ∧
    SqlLiteral.Denotes d.escapes (dynEscapeStringLen d (Utf8.encode text) n)
      (Utf8.encode (front.filter (· ≠ '\r')))
  limited_fits : (dynEscapeStringLen d (Utf8.encode text) n).length + 1
    ≤ limitedLen d (Utf8.encode text) n
  whole : SqlLiteral.Denotes d.escapes (dynEscapeString d (Utf8.encode text))
    (Utf8.encode (text.filter (· ≠ '\r')))
  whole_fits : (dynEscapeString d (Utf8.encode text)).length + 1
    ≤ getEscapeStringLen d (Utf8.encode text)

theorem le_limitedLenLoop (s : Bytes) (maxSrcLen : UInt64) (len : ℕ) :
  len ≤ limitedLenLoop d s maxSrcLen len
  := by
  fun_induction limitedLenLoop d s maxSrcLen len <;> omega

theorem length_escapeString_lt (s : Bytes) {len : ℕ} (hlen : 0 < len) :
  (escapeString d s len).length + 1 ≤ len
  := by
  have := length_escapeLoop_le d s (len - 1)
  rw [escapeString]
  omega

/-- The functions escape exactly what they should unless the limit is the largest number of
64 bits and there is something to escape. -/
theorem escapesExactly_iff (d : Dialect) (text : List Char) (n : UInt64) :
  EscapesExactly d text n ↔ n.toNat ≠ 2 ^ 64 - 1 ∨ ∀ c ∈ text, c = '\r'
  := by
  have hover : n + 1 = 0 ↔ n.toNat = 2 ^ 64 - 1 := by
    have hlt := n.toNat_lt
    rw [← UInt64.toNat_inj, UInt64.toNat_add]
    change (n.toNat + 1) % 2 ^ 64 = 0 ↔ _
    omega
  have hlongest := frontChars_isLongestFront n.toNat text
  have hlimited := dynEscapeStringLen_eq d text n
  constructor
  · intro h
    by_cases hmax : n.toNat = 2 ^ 64 - 1
    · right
      rw [if_pos (hover.mpr hmax)] at hlimited
      obtain ⟨front, hfront, hdenotes⟩ := h.limited
      rw [hlimited] at hdenotes
      -- the empty literal leaves only the empty text without carriage returns
      have hempty : front.filter (· ≠ '\r') = [] := by
        have hvalue := (SqlLiteral.denotes_nil d.escapes).unique hdenotes
        cases hfilter : front.filter (· ≠ '\r') with
        | nil => rfl
        | cons c cs =>
          rw [hfilter, Utf8.encode_cons] at hvalue
          have hlen := congrArg List.length hvalue
          have := Char.utf8Size_pos c
          simp at hlen
          omega
      have hsub := (hfront.longest _ hlongest.isPrefix hlongest.length_le).sublist.filter
        (· ≠ '\r')
      rw [hempty, filter_frontChars] at hsub
      have htake := List.sublist_nil.mp hsub
      rw [List.take_eq_nil_iff] at htake
      rcases htake with hzero | hnone
      · omega
      · simpa using hnone
    · exact Or.inl hmax
  · intro hcond
    refine ⟨⟨_, hlongest, ?_⟩, length_escapeString_lt d _ (le_limitedLenLoop d _ _ 1), ?_,
      length_escapeString_lt d _ ?_⟩
    · rw [hlimited, ← filter_encode]
      by_cases hmax : n + 1 = 0
      · rw [if_pos hmax]
        rcases hcond with hne | hall
        · exact absurd (hover.mp hmax) hne
        · have hnone : (frontChars n.toNat text).filter (· ≠ '\r') = [] := by
            rw [filter_frontChars, List.filter_eq_nil_iff.mpr (by simpa using hall), List.take_nil]
          rw [filter_encode, hnone]
          exact SqlLiteral.denotes_nil _
      · rw [if_neg hmax]
        exact denotes_escaped d _
    · rw [dynEscapeString_eq, ← filter_encode]
      exact denotes_escaped d _
    · rw [getEscapeStringLen, escapeStringLenLoop_eq]
      omega

/-- With the largest limit nothing of the text is left. -/
theorem largestLimit_empty :
  dynEscapeStringLen .mysql (Utf8.encode ['a']) 0xffffffffffffffff = [] ∧
    ¬ EscapesExactly .mysql ['a'] 0xffffffffffffffff
  := by
  have hempty : dynEscapeStringLen .mysql (Utf8.encode ['a']) 0xffffffffffffffff = [] := by
    decide
  refine ⟨hempty, fun h => ?_⟩
  obtain ⟨front, hfront, hdenotes⟩ := h.limited
  have hall := hfront.longest ['a'] List.prefix_rfl (by decide)
  obtain rfl : front = ['a'] := hfront.isPrefix.eq_of_length_le hall.length_le
  rw [hempty] at hdenotes
  exact absurd ((SqlLiteral.denotes_nil _).unique hdenotes) (by decide)

end Db
