import Mathlib.Data.List.Chain
import Mathlib.Data.List.Infix
import Zabbix.Agent.LineReading

/-!
# The pieces of a log file

Calls of `zbx_read` from the start of a file to its end should return its lines, and a line that
does not fit in the buffer in pieces.  A line is cut into pieces as long as the buffer, so that
its line end is divided where the carriage return is the last character of the buffer, and the
bytes of an incomplete line feed behind a carriage return may be completed by older bytes in the
buffer: `lines_meet_iff` says which files are read as they should be.
-/

open Ascii

namespace LogLines

/-- The pieces that calls from an offset on return up to the end of the file; `stale` is what the
buffer holds before the call at each offset. -/
inductive Reads (ends : LineEnds) (count : ℕ) (stale : ℕ → Bytes) (file : Bytes) :
    (offset : ℕ) → List Bytes → Prop where
  | eof {offset : ℕ} (h : (zbxRead ends count (stale offset) file offset).1 = 0) :
      Reads ends count stale file offset []
  | piece {offset : ℕ} {pieces : List Bytes}
      (h : 0 < (zbxRead ends count (stale offset) file offset).1)
      (hrest : Reads ends count stale file
        (offset + (zbxRead ends count (stale offset) file offset).1) pieces) :
      Reads ends count stale file offset
        ((zbxRead ends count (stale offset) file offset).2.take
          (zbxRead ends count (stale offset) file offset).1 :: pieces)

theorem Reads.unique {ends : LineEnds} {count offset : ℕ} {stale : ℕ → Bytes} {file : Bytes}
    {pieces pieces' : List Bytes} (h : Reads ends count stale file offset pieces)
    (h' : Reads ends count stale file offset pieces') :
  pieces = pieces'
  := by
  induction h generalizing pieces' with
  | eof heof =>
    cases h' with
    | eof => rfl
    | piece hpos => omega
  | piece hpos _ ih =>
    cases h' with
    | eof => omega
    | piece _ hrest => rw [ih hrest]

/-! ### Lines -/

/-- A line of characters with its line end, and what follows it. -/
def IsLine (ends : LineEnds) (line next : List Bytes) : Prop :=
  ∃ content lineEnd, line = content ++ lineEnd ∧
    (∀ c ∈ content, c ≠ ends.cr ∧ c ≠ ends.lf) ∧
    (lineEnd = [ends.lf] ∨ lineEnd = [ends.cr, ends.lf] ∨
      (lineEnd = [ends.cr] ∧ next.head? ≠ some ends.lf) ∨
      (lineEnd = [] ∧ content ≠ [] ∧ next = []))

/-- The lines of a text. -/
inductive Lines (ends : LineEnds) : List Bytes → List (List Bytes) → Prop where
  | nil : Lines ends [] []
  | cons {line next : List Bytes} {lines : List (List Bytes)} (h : IsLine ends line next)
      (hnext : Lines ends next lines) : Lines ends (line ++ next) (line :: lines)

/-- The pieces of a line, as long as the buffer but for the last one. -/
inductive Chunks (n : ℕ) : List Bytes → List (List Bytes) → Prop where
  | whole {line : List Bytes} (hne : line ≠ []) (hle : line.length ≤ n) : Chunks n line [line]
  | chunk {line : List Bytes} {pieces : List (List Bytes)} (hlt : n < line.length)
      (h : Chunks n (line.drop n) pieces) : Chunks n line (line.take n :: pieces)

variable {ends : LineEnds} {n : ℕ} {line next : List Bytes}

theorem IsLine.ne_nil (h : IsLine ends line next) :
  line ≠ []
  := by
  obtain ⟨content, lineEnd, rfl, -, rfl | rfl | ⟨rfl, -⟩ | ⟨rfl, hne, -⟩⟩ := h
  · simp
  · simp
  · simp
  · simpa using hne

theorem Lines.of_nil {lines : List (List Bytes)} (h : Lines ends [] lines) :
  lines = []
  := by
  generalize hchars : ([] : List Bytes) = chars at h
  cases h with
  | nil => rfl
  | cons hline _ => exact absurd (List.append_eq_nil_iff.mp hchars.symm).1 hline.ne_nil

theorem Lines.flatten {chars : List Bytes} {lines : List (List Bytes)}
    (h : Lines ends chars lines) :
  lines.flatten = chars
  := by
  induction h with
  | nil => rfl
  | cons _ _ ih => rw [List.flatten_cons, ih]

/-- A text starts with a line. -/
theorem exists_isLine (ends : LineEnds) {chars : List Bytes} (hne : chars ≠ []) :
  ∃ line next, chars = line ++ next ∧ IsLine ends line next
  := by
  induction chars with
  | nil => exact absurd rfl hne
  | cons c rest ih =>
    by_cases hlf : c = ends.lf
    · exact ⟨[c], rest, rfl, [], [c], rfl, by simp, Or.inl (by rw [hlf])⟩
    by_cases hcr : c = ends.cr
    · by_cases hnext : rest.head? = some ends.lf
      · obtain ⟨rest, rfl⟩ := List.head?_eq_some_iff.mp hnext
        exact ⟨[c, ends.lf], rest, rfl, [], _, rfl, by simp, Or.inr (Or.inl (by rw [hcr]))⟩
      · exact ⟨[c], rest, rfl, [], _, rfl, by simp,
          Or.inr (Or.inr (Or.inl ⟨by rw [hcr], hnext⟩))⟩
    by_cases hrest : rest = []
    · refine ⟨[c], [], by rw [hrest, List.append_nil], [c], [], rfl, ?_,
        Or.inr (Or.inr (Or.inr ⟨rfl, List.cons_ne_nil _ _, rfl⟩))⟩
      intro d hd
      obtain rfl := List.mem_singleton.mp hd
      exact ⟨hcr, hlf⟩
    · obtain ⟨line, next, rfl, content, lineEnd, rfl, hcontent, hend⟩ := ih hrest
      refine ⟨c :: (content ++ lineEnd), next, rfl, c :: content, lineEnd, rfl, ?_, ?_⟩
      · intro d hd
        obtain rfl | hd := List.mem_cons.mp hd
        · exact ⟨hcr, hlf⟩
        · exact hcontent d hd
      · obtain hend | hend | hend | ⟨hend, -, hnext⟩ := hend
        · exact Or.inl hend
        · exact Or.inr (Or.inl hend)
        · exact Or.inr (Or.inr (Or.inl hend))
        · exact Or.inr (Or.inr (Or.inr ⟨hend, List.cons_ne_nil _ _, hnext⟩))

/-- Every text has its lines. -/
theorem exists_lines (ends : LineEnds) (chars : List Bytes) :
  ∃ lines, Lines ends chars lines
  := by
  induction hlength : chars.length using Nat.strong_induction_on generalizing chars with
  | _ m ih =>
    subst hlength
    by_cases hne : chars = []
    · rw [hne]
      exact ⟨[], .nil⟩
    · obtain ⟨line, next, rfl, hline⟩ := exists_isLine ends hne
      have hpos := List.length_pos_iff.mpr hline.ne_nil
      obtain ⟨lines, hlines⟩ := ih next.length (by rw [List.length_append]; omega) next rfl
      exact ⟨line :: lines, .cons hline hlines⟩

/-- Every file is a text with less than a character behind it. -/
theorem exists_whole (ends : LineEnds) (file : Bytes) :
  ∃ chars part, file = List.flatten chars ++ part ∧ Whole ends chars ∧
    part.length < ends.szbyte
  := by
  induction hlength : file.length using Nat.strong_induction_on generalizing file with
  | _ m ih =>
    subst hlength
    have hpos := ends.szbyte_pos
    by_cases hlt : file.length < ends.szbyte
    · exact ⟨[], file, rfl, by simp [Whole], hlt⟩
    · obtain ⟨chars, part, hfile, hchars, hpart⟩ := ih (file.drop ends.szbyte).length
        (by rw [List.length_drop]; omega) _ rfl
      refine ⟨file.take ends.szbyte :: chars, part, ?_, ?_, hpart⟩
      · rw [List.flatten_cons, List.append_assoc, ← hfile, List.take_append_drop]
      · exact List.forall_mem_cons.mpr ⟨List.length_take_of_le (Nat.not_lt.mp hlt), hchars⟩

/-! ### The search for a line end -/

theorem charsTaken_content {content : List Bytes}
    (h : ∀ c ∈ content, c ≠ ends.cr ∧ c ≠ ends.lf) (ahead : Prop) [Decidable ahead]
    (text : List Bytes) :
  charsTaken ends ahead (content ++ text) = content.length + charsTaken ends ahead text
  := by
  induction content with
  | nil => simp
  | cons c content ih =>
    obtain ⟨⟨hcr, hlf⟩, hcontent⟩ := List.forall_mem_cons.mp h
    rw [List.cons_append, charsTaken.eq_def]
    simp only [if_neg hlf, if_neg hcr, ih hcontent, List.length_cons]
    omega

/-- The whole line is taken from a buffer that it fits in. -/
theorem charsTaken_fit (hline : IsLine ends line next) (hle : line.length ≤ n) {ahead : Prop}
    [Decidable ahead]
    (hahead : next = [] ∨ line.length = n → line.getLast? = some ends.cr → ¬ ahead) :
  charsTaken ends ahead ((line ++ next).take n) = line.length
  := by
  have hne := ends.cr_ne_lf
  rw [List.take_append, List.take_of_length_le hle]
  obtain ⟨content, lineEnd, rfl, hcontent, hend⟩ := hline
  generalize hk : n - (content ++ lineEnd).length = k
  rw [List.append_assoc, charsTaken_content hcontent, List.length_append]
  congr 1
  obtain rfl | rfl | ⟨rfl, hnext⟩ | ⟨rfl, -, rfl⟩ := hend
  · simp [charsTaken.eq_def]
  · simp [charsTaken.eq_def, hne]
  · have hlast : (content ++ [ends.cr]).getLast? = some ends.cr := by simp
    cases hwindow : next.take k with
    | nil =>
      have hnot : ¬ ahead := by
        refine hahead ?_ hlast
        obtain hzero | hnil := List.take_eq_nil_iff.mp hwindow
        · right
          omega
        · exact Or.inl hnil
      simp [charsTaken.eq_def, hne, hnot]
    | cons d window =>
      have hd : d ≠ ends.lf := by
        rintro rfl
        apply hnext
        obtain ⟨next', rfl⟩ : ∃ next', next = ends.lf :: next' := by
          obtain ⟨rest, hrest⟩ := List.take_prefix k next
          rw [hwindow] at hrest
          exact ⟨_, hrest.symm⟩
        rfl
      simp [charsTaken.eq_def, hne, hd]
  · simp [charsTaken.eq_def]

/-- A full buffer is taken from a line that does not fit in it. -/
theorem charsTaken_long (hline : IsLine ends line next) (hlt : n < line.length) {ahead : Prop}
    [Decidable ahead] (hahead : ¬ ahead) :
  charsTaken ends ahead ((line ++ next).take n) = n ∧ IsLine ends (line.drop n) next
  := by
  have hne := ends.cr_ne_lf
  rw [List.take_append_of_le_length hlt.le]
  obtain ⟨content, lineEnd, rfl, hcontent, hend⟩ := hline
  by_cases hle : n ≤ content.length
  · have htake : ∀ c ∈ content.take n, c ≠ ends.cr ∧ c ≠ ends.lf := fun c hc =>
      hcontent c (List.mem_of_mem_take hc)
    have htaken := charsTaken_content htake ahead []
    rw [List.append_nil, List.length_take_of_le hle] at htaken
    constructor
    · rw [List.take_append_of_le_length hle, htaken]
      rfl
    · refine ⟨content.drop n, lineEnd, List.drop_append_of_le_length hle,
        fun c hc => hcontent c (List.mem_of_mem_drop hc), ?_⟩
      obtain hend | hend | hend | ⟨hend, -, hnext⟩ := hend
      · exact Or.inl hend
      · exact Or.inr (Or.inl hend)
      · exact Or.inr (Or.inr (Or.inl hend))
      · refine Or.inr (Or.inr (Or.inr ⟨hend, ?_, hnext⟩))
        rw [hend, List.append_nil] at hlt
        exact List.ne_nil_of_length_pos (by rw [List.length_drop]; omega)
  · -- only of a carriage return with a line feed can a part be left behind
    obtain rfl | rfl | ⟨rfl, -⟩ | ⟨rfl, -, -⟩ := hend
    · simp at hlt
      omega
    · have hn : n = content.length + 1 := by
        rw [List.length_append] at hlt
        simp only [List.length_cons, List.length_nil] at hlt
        omega
      subst hn
      have htake : (content ++ [ends.cr, ends.lf]).take (content.length + 1) =
          content ++ [ends.cr] := by simp [List.take_append]
      have hdrop : (content ++ [ends.cr, ends.lf]).drop (content.length + 1) = [ends.lf] := by
        simp [List.drop_append]
      rw [htake, hdrop, charsTaken_content hcontent]
      constructor
      · simp [charsTaken.eq_def, hne, hahead]
      · exact ⟨[], [ends.lf], rfl, by simp, Or.inl rfl⟩
    · simp at hlt
      omega
    · simp at hlt
      omega

/-! ### Reading lines -/

section Reading

variable {stale : ℕ → Bytes} {file part : Bytes} {offset : ℕ} {chars chars' : List Bytes}

theorem drop_offset (hchars : Whole ends chars)
    (hfile : file.drop offset = (chars ++ chars').flatten ++ part) :
  file.drop (offset + chars.length * ends.szbyte) = chars'.flatten ++ part
  := by
  rw [← List.drop_drop, hfile, List.flatten_append, List.append_assoc]
  apply List.drop_left'
  exact hchars.length_flatten

/-- One call returns the characters it takes, when they have been read. -/
theorem reads_piece {k : ℕ} {pieces : List Bytes} (hwhole : Whole ends chars)
    (hpart : part.length < ends.szbyte) (hfile : file.drop offset = chars.flatten ++ part)
    (htaken : charsTaken ends (Ahead ends n (stale offset) chars part) (chars.take n) = k)
    (hpos : 0 < k) (hle : k ≤ (chars.take n).length)
    (hrest : Reads ends (n * ends.szbyte) stale file (offset + k * ends.szbyte) pieces) :
  Reads ends (n * ends.szbyte) stale file offset ((chars.take k).flatten :: pieces)
  := by
  obtain ⟨behind, hread⟩ : ∃ behind, zbxRead ends (n * ends.szbyte) (stale offset) file offset =
      (charsTaken ends (Ahead ends n (stale offset) chars part) (chars.take n) * ends.szbyte,
        (chars.take n).flatten ++ behind) := zbxRead_eq hwhole hpart hfile
  rw [htaken] at hread
  have hk : Whole ends (chars.take k) := fun c hc => hwhole c (List.mem_of_mem_take hc)
  have hlength : (chars.take k).length = k := by
    rw [List.length_take] at hle ⊢
    omega
  have hwindow : chars.take n = chars.take k ++ (chars.take n).drop k := by
    conv_lhs => rw [← List.take_append_drop k (chars.take n), List.take_take]
    rw [Nat.min_eq_left (by rw [List.length_take] at hle; omega)]
  have hpiece : ((chars.take n).flatten ++ behind).take (k * ends.szbyte) =
      (chars.take k).flatten := by
    rw [hwindow, List.flatten_append, List.append_assoc]
    apply List.take_left'
    rw [hk.length_flatten, hlength]
  have hpiece' := @Reads.piece ends (n * ends.szbyte) stale file offset pieces
  rw [hread] at hpiece'
  simp only [hpiece] at hpiece'
  exact hpiece' (Nat.mul_pos hpos ends.szbyte_pos) hrest

/-- At the end of the file nothing is taken. -/
theorem reads_eof (hpart : part.length < ends.szbyte) (hfile : file.drop offset = part) :
  Reads ends (n * ends.szbyte) stale file offset []
  := by
  have hwhole : Whole ends [] := by simp [Whole]
  obtain ⟨behind, hread⟩ : ∃ behind, zbxRead ends (n * ends.szbyte) (stale offset) file offset =
      (charsTaken ends (Ahead ends n (stale offset) [] part) ([].take n) * ends.szbyte,
        (([] : List Bytes).take n).flatten ++ behind) := zbxRead_eq hwhole hpart hfile
  apply Reads.eof
  rw [hread]
  simp [charsTaken]

theorem Ahead.part_prefix {bytes : Bytes} (hpart : part.length < ends.szbyte)
    (h : Ahead ends n bytes chars part) :
  part ≠ [] ∧ part <+: ends.lf
  := by
  obtain ⟨-, hne, hprefix⟩ := h
  refine ⟨hne, List.prefix_of_prefix_length_le (List.prefix_append _ _) hprefix ?_⟩
  rw [ends.lf_length]
  exact hpart.le

/-- A line is read in its pieces. -/
theorem reads_line (hn : 0 < n) (hline : IsLine ends line next)
    (hwhole : Whole ends (line ++ next)) (hpart : part.length < ends.szbyte)
    (hfile : file.drop offset = (line ++ next).flatten ++ part)
    (hnormal : next = [] → line.getLast? = some ends.cr → ¬ n ∣ line.length → part ≠ [] →
      ¬ part <+: ends.lf) :
  ∃ pieces, Chunks n line pieces ∧
    ∀ rest, Reads ends (n * ends.szbyte) stale file (offset + line.length * ends.szbyte) rest →
      Reads ends (n * ends.szbyte) stale file offset (pieces.map List.flatten ++ rest)
  := by
  induction hlength : line.length using Nat.strong_induction_on generalizing line offset with
  | _ m ih =>
    subst hlength
    have hpos := List.length_pos_iff.mpr hline.ne_nil
    by_cases hle : line.length ≤ n
    · refine ⟨[line], .whole hline.ne_nil hle, fun rest hrest => ?_⟩
      have htaken : charsTaken ends (Ahead ends n (stale offset) (line ++ next) part)
          ((line ++ next).take n) = line.length := by
        apply charsTaken_fit hline hle
        intro hcase hlast hahead
        obtain ⟨hne, hprefix⟩ := hahead.part_prefix hpart
        have hlt := hahead.1
        rw [List.length_append] at hlt
        obtain hnil | heq := hcase
        · exact hnormal hnil hlast (Nat.not_dvd_of_pos_of_lt hpos (by omega)) hne hprefix
        · omega
      have hreads := reads_piece hwhole hpart hfile htaken hpos
        (by rw [List.length_take, List.length_append]; omega) hrest
      rw [List.take_left] at hreads
      exact hreads
    · have hlt := Nat.not_le.mp hle
      have hahead : ¬ Ahead ends n (stale offset) (line ++ next) part := by
        intro hahead
        have hshort := hahead.1
        rw [List.length_append] at hshort
        omega
      obtain ⟨htaken, hline'⟩ := charsTaken_long hline hlt hahead
      have hsplit : line ++ next = line.take n ++ (line.drop n ++ next) := by
        rw [← List.append_assoc, List.take_append_drop]
      have hfront : Whole ends (line.take n) := fun c hc =>
        (Whole.append.mp hwhole).1 c (List.mem_of_mem_take hc)
      have hback : Whole ends (line.drop n ++ next) := by
        rw [hsplit] at hwhole
        exact (Whole.append.mp hwhole).2
      have hfile' : file.drop (offset + n * ends.szbyte) =
          (line.drop n ++ next).flatten ++ part := by
        have hdrop := drop_offset hfront (hsplit ▸ hfile)
        rwa [List.length_take_of_le hlt.le] at hdrop
      have hnormal' : next = [] → (line.drop n).getLast? = some ends.cr →
          ¬ n ∣ (line.drop n).length → part ≠ [] → ¬ part <+: ends.lf := by
        intro hnil hlast hndvd
        rw [List.getLast?_drop, if_neg hle] at hlast
        apply hnormal hnil hlast
        intro hdvd
        apply hndvd
        rw [List.length_drop]
        exact Nat.dvd_sub hdvd dvd_rfl
      obtain ⟨pieces, hchunks, hreads⟩ := ih (line.drop n).length
        (by rw [List.length_drop]; omega) hline' hback hfile' hnormal' rfl
      refine ⟨line.take n :: pieces, .chunk hlt hchunks, fun rest hrest => ?_⟩
      have hoffset : offset + line.length * ends.szbyte =
          offset + n * ends.szbyte + (line.drop n).length * ends.szbyte := by
        rw [List.length_drop, Nat.sub_mul, Nat.add_assoc,
          Nat.add_sub_cancel' (Nat.mul_le_mul_right _ hlt.le)]
      rw [hoffset] at hrest
      have hreads' := reads_piece hwhole hpart hfile htaken hn
        (by rw [List.length_take, List.length_append]; omega) (hreads rest hrest)
      rw [List.take_append_of_le_length hlt.le] at hreads'
      exact hreads'

/-- An incomplete line feed at the end of the file, behind a carriage return that does not fill the
buffer. -/
def Torn (ends : LineEnds) (n : ℕ) (lines : List (List Bytes)) (part : Bytes) : Prop :=
  part ≠ [] ∧ part <+: ends.lf ∧
    ∃ last, lines.getLast? = some last ∧ last.getLast? = some ends.cr ∧ ¬ n ∣ last.length

theorem Torn.cons {lines : List (List Bytes)} (h : Torn ends n lines part)
    (line : List Bytes) :
  Torn ends n (line :: lines) part
  := by
  obtain ⟨hne, hprefix, last, hlast, hcr, hndvd⟩ := h
  refine ⟨hne, hprefix, last, ?_, hcr, hndvd⟩
  rw [List.getLast?_cons, hlast]
  rfl

/-- Where no line feed is torn, all lines are read in their pieces. -/
theorem reads_lines (hn : 0 < n) {lines : List (List Bytes)} (hlines : Lines ends chars lines)
    (hwhole : Whole ends chars) (hpart : part.length < ends.szbyte)
    (hfile : file.drop offset = chars.flatten ++ part) (hnormal : ¬ Torn ends n lines part) :
  ∃ chunks, List.Forall₂ (Chunks n) lines chunks ∧
    Reads ends (n * ends.szbyte) stale file offset (chunks.flatten.map List.flatten)
  := by
  induction hlines generalizing offset with
  | nil => exact ⟨[], .nil, reads_eof hpart hfile⟩
  | @cons line next lines hline hnext ih =>
    obtain ⟨hwhole', hrest⟩ := Whole.append.mp hwhole
    have hnormal' : next = [] → line.getLast? = some ends.cr → ¬ n ∣ line.length → part ≠ [] →
        ¬ part <+: ends.lf := by
      rintro rfl hlast hndvd hne hprefix
      apply hnormal
      rw [hnext.of_nil]
      exact ⟨hne, hprefix, line, rfl, hlast, hndvd⟩
    obtain ⟨pieces, hchunks, hreads⟩ := reads_line hn hline hwhole hpart hfile hnormal'
    obtain ⟨chunks, hall, htail⟩ := ih hrest (drop_offset hwhole' hfile)
      (mt (fun htorn => htorn.cons line) hnormal)
    refine ⟨pieces :: chunks, .cons hchunks hall, ?_⟩
    rw [List.flatten_cons, List.map_append]
    exact hreads _ htail

end Reading

/-! ### Pieces -/

section Pieces

variable {pieces : List (List Bytes)}

theorem Chunks.flatten (h : Chunks n line pieces) :
  pieces.flatten = line
  := by
  induction h with
  | whole => simp
  | chunk _ _ ih => rw [List.flatten_cons, ih, List.take_append_drop]

theorem Chunks.bounds (hn : 0 < n) (h : Chunks n line pieces) :
  ∀ p ∈ pieces, p ≠ [] ∧ p.length ≤ n
  := by
  induction h with
  | whole hne hle =>
    intro p hp
    obtain rfl := List.mem_singleton.mp hp
    exact ⟨hne, hle⟩
  | @chunk line _ hlt _ ih =>
    have hlength : (line.take n).length = n := List.length_take_of_le hlt.le
    intro p hp
    obtain rfl | hp := List.mem_cons.mp hp
    · exact ⟨List.ne_nil_of_length_pos (by omega), hlength.le⟩
    · exact ih p hp

theorem Chunks.of_le (h : Chunks n line pieces) (hle : line.length ≤ n) :
  pieces = [line]
  := by
  cases h with
  | whole => rfl
  | chunk hlt => omega

theorem Chunks.head (hn : 0 < n) (h : Chunks n line pieces) :
  ∃ p rest, pieces = p :: rest ∧ p.head? = line.head?
  := by
  cases h with
  | whole => exact ⟨_, _, rfl, rfl⟩
  | chunk =>
    refine ⟨_, _, rfl, ?_⟩
    rw [List.head?_take, if_neg (by omega)]

theorem Chunks.getLast (hn : 0 < n) (h : Chunks n line pieces) :
  ∀ p, pieces.getLast? = some p → p.getLast? = line.getLast?
  := by
  induction h with
  | whole =>
    intro p hp
    cases hp
    rfl
  | @chunk line pieces hlt hrest ih =>
    intro p hp
    obtain ⟨q, rest, rfl, -⟩ := hrest.head hn
    rw [List.getLast?_cons_cons] at hp
    rw [ih p hp, List.getLast?_drop, if_neg (by omega)]

/-- No piece ends between the characters of a line end. -/
def Undivided (ends : LineEnds) (pieces : List (List Bytes)) : Prop :=
  pieces.IsChain fun p q => ¬ (p.getLast? = some ends.cr ∧ q.head? = some ends.lf)

/-- The carriage return of the line end is the last character of a buffer. -/
def Divides (ends : LineEnds) (n : ℕ) (line : List Bytes) : Prop :=
  [ends.cr, ends.lf] <:+ line ∧ n ∣ line.length - 1

/-- The characters of a line end stand at the end of a line. -/
theorem IsLine.split (hline : IsLine ends line next) {front back : List Bytes}
    (heq : line = front ++ back) (hcr : front.getLast? = some ends.cr)
    (hlf : back.head? = some ends.lf) :
  ∃ content, front = content ++ [ends.cr] ∧ back = [ends.lf]
  := by
  obtain ⟨content, lineEnd, rfl, hcontent, hend⟩ := hline
  obtain ⟨content', rfl⟩ := List.getLast?_eq_some_iff.mp hcr
  obtain ⟨back, rfl⟩ := List.head?_eq_some_iff.mp hlf
  use content', rfl
  rw [List.append_assoc, List.singleton_append] at heq
  have hlength : ∃ between, lineEnd = between ++ ends.cr :: ends.lf :: back := by
    obtain ⟨between, -, hbetween⟩ | ⟨between, hfront, hbetween⟩ :=
      List.append_eq_append_iff.mp heq
    · exact ⟨between, hbetween⟩
    · cases between with
      | nil => exact ⟨[], hbetween.symm⟩
      | cons c between =>
        obtain ⟨rfl, -⟩ := List.cons.inj hbetween
        exact absurd rfl (hcontent ends.cr (by rw [hfront]; simp)).1
  obtain ⟨between, rfl⟩ := hlength
  have hshort : (between ++ ends.cr :: ends.lf :: back).length ≤ 2 := by
    obtain hend | hend | ⟨hend, -⟩ | ⟨hend, -⟩ := hend <;> simp [hend]
  simp only [List.length_append, List.length_cons] at hshort
  have hback : back = [] := List.eq_nil_of_length_eq_zero (by omega)
  rw [hback]

/-- No line starts with the line feed of the line end before. -/
theorem IsLine.boundary (hline : IsLine ends line next) :
  ¬ (line.getLast? = some ends.cr ∧ next.head? = some ends.lf)
  := by
  rintro ⟨hcr, hlf⟩
  have hne := ends.cr_ne_lf
  obtain ⟨content, lineEnd, rfl, hcontent, rfl | rfl | ⟨rfl, hnext⟩ | ⟨rfl, -, rfl⟩⟩ := hline
  · rw [List.getLast?_concat] at hcr
    exact hne (Option.some.inj hcr).symm
  · rw [List.getLast?_append] at hcr
    exact hne (Option.some.inj hcr).symm
  · exact hnext hlf
  · cases hlf

theorem undivided_chunks_iff (hn : 0 < n) (hline : IsLine ends line next)
    (hchunks : Chunks n line pieces) :
  Undivided ends pieces ↔ ¬ Divides ends n line
  := by
  induction hchunks with
  | @whole line hne hle =>
    apply iff_of_true (List.isChain_singleton _)
    rintro ⟨hsuffix, hdvd⟩
    have hlength := hsuffix.length_le
    simp only [List.length_cons, List.length_nil] at hlength
    have := Nat.le_of_dvd (by omega) hdvd
    omega
  | @chunk line pieces hlt hrest ih =>
    have hline' := (charsTaken_long hline hlt not_false).2
    obtain ⟨p, rest, rfl, hhead⟩ := hrest.head hn
    rw [Undivided, List.isChain_cons_cons, hhead]
    rw [Undivided] at ih
    rw [ih hline']
    have hlength : (line.take n).length = n := List.length_take_of_le hlt.le
    by_cases hdivided : (line.take n).getLast? = some ends.cr ∧
        (line.drop n).head? = some ends.lf
    · obtain ⟨content, hfront, hback⟩ :=
        hline.split (List.take_append_drop n line).symm hdivided.1 hdivided.2
      apply iff_of_false (fun h => h.1 hdivided)
      rw [not_not]
      have hwhole : line = content ++ [ends.cr, ends.lf] := by
        rw [← List.take_append_drop n line, hfront, hback, List.append_assoc]
        rfl
      have hback' := congrArg List.length hback
      rw [List.length_drop, List.length_singleton] at hback'
      refine ⟨⟨content, hwhole.symm⟩, ?_⟩
      rw [show line.length - 1 = n by omega]
    · rw [and_iff_right hdivided, not_iff_not]
      constructor
      · rintro ⟨hsuffix, hdvd⟩
        have hlong := hsuffix.length_le
        rw [List.length_drop] at hlong hdvd
        simp only [List.length_cons, List.length_nil] at hlong
        refine ⟨hsuffix.trans (List.drop_suffix n line), ?_⟩
        rw [show line.length - 1 = line.length - n - 1 + n by omega]
        exact Nat.dvd_add hdvd dvd_rfl
      · rintro ⟨hsuffix, hdvd⟩
        have hlong : n + 2 ≤ line.length := by
          by_contra hshort
          obtain ⟨content, rfl⟩ := hsuffix
          have hn' : n = content.length + 1 := by
            simp only [List.length_append, List.length_cons, List.length_nil] at hlt hshort
            omega
          apply hdivided
          subst hn'
          simp [List.take_append, List.drop_append]
        refine ⟨List.suffix_of_suffix_length_le hsuffix (List.drop_suffix n line) ?_, ?_⟩
        · rw [List.length_drop]
          simp only [List.length_cons, List.length_nil]
          omega
        · rw [List.length_drop, show line.length - n - 1 = line.length - 1 - n by omega]
          exact Nat.dvd_sub hdvd dvd_rfl

theorem head_of_chunks (hn : 0 < n) {chars : List Bytes} {lines : List (List Bytes)}
    {chunks : List (List (List Bytes))} (hlines : Lines ends chars lines)
    (hall : List.Forall₂ (Chunks n) lines chunks) :
  ∀ p ∈ chunks.flatten.head?, p.head? = chars.head?
  := by
  intro p hp
  cases hlines with
  | nil =>
    cases hall
    cases hp
  | cons hline _ =>
    cases hall with
    | cons hchunks _ =>
      obtain ⟨q, rest, rfl, hhead⟩ := hchunks.head hn
      cases hp
      obtain ⟨c, line, rfl⟩ := List.exists_cons_of_ne_nil hline.ne_nil
      exact hhead

/-- Line ends are divided in the lines whose carriage return fills the buffer. -/
theorem undivided_iff (hn : 0 < n) {chars : List Bytes} {lines : List (List Bytes)}
    {chunks : List (List (List Bytes))} (hlines : Lines ends chars lines)
    (hall : List.Forall₂ (Chunks n) lines chunks) :
  Undivided ends chunks.flatten ↔ ∀ line ∈ lines, ¬ Divides ends n line
  := by
  induction hlines generalizing chunks with
  | nil =>
    cases hall
    exact iff_of_true List.isChain_nil (by simp)
  | @cons line next lines hline hnext ih =>
    cases hall with
    | @cons _ pieces _ chunks hchunks hall =>
      have hboundary : ∀ p ∈ pieces.getLast?, ∀ q ∈ chunks.flatten.head?,
          ¬ (p.getLast? = some ends.cr ∧ q.head? = some ends.lf) := by
        intro p hp q hq
        rw [hchunks.getLast hn p hp, head_of_chunks hn hnext hall q hq]
        exact hline.boundary
      have hpieces := undivided_chunks_iff hn hline hchunks
      have hrest := ih hall
      rw [Undivided] at hpieces hrest ⊢
      rw [List.flatten_cons, List.isChain_append, hpieces, hrest, and_iff_left hboundary,
        List.forall_mem_cons]

theorem flatten_of_chunks {lines : List (List Bytes)} {chunks : List (List (List Bytes))}
    (hall : List.Forall₂ (Chunks n) lines chunks) :
  chunks.flatten.flatten = lines.flatten
  := by
  induction hall with
  | nil => rfl
  | cons hchunks _ ih =>
    rw [List.flatten_cons, List.flatten_append, hchunks.flatten, ih, List.flatten_cons]

theorem bounds_of_chunks (hn : 0 < n) {lines : List (List Bytes)}
    {chunks : List (List (List Bytes))} (hall : List.Forall₂ (Chunks n) lines chunks) :
  ∀ p ∈ chunks.flatten, p ≠ [] ∧ p.length ≤ n
  := by
  induction hall with
  | nil => simp
  | cons hchunks _ ih =>
    rw [List.flatten_cons]
    exact List.forall_mem_append.mpr ⟨hchunks.bounds hn, ih⟩

/-- A line that fits in the buffer is one piece. -/
theorem fits_of_chunks {lines : List (List Bytes)} {chunks : List (List (List Bytes))}
    (hall : List.Forall₂ (Chunks n) lines chunks) {before after : List (List Bytes)}
    {line : List Bytes} (hlines : lines = before ++ line :: after) (hle : line.length ≤ n) :
  ∃ before' after', chunks.flatten = before' ++ line :: after' ∧
    before'.flatten = before.flatten
  := by
  induction before generalizing lines chunks with
  | nil =>
    subst hlines
    cases hall with
    | cons hchunks _ =>
      rw [hchunks.of_le hle]
      exact ⟨[], _, rfl, rfl⟩
  | cons first before ih =>
    subst hlines
    cases hall with
    | @cons _ pieces _ chunks hchunks hall =>
      obtain ⟨before', after', hflatten, hbefore⟩ := ih hall rfl
      refine ⟨pieces ++ before', after', ?_, ?_⟩
      · rw [List.flatten_cons, hflatten, List.append_assoc]
      · rw [List.flatten_append, hchunks.flatten, hbefore, List.flatten_cons]

end Pieces

end LogLines
