import Zabbix.Agent.LinePieces

/-!
# Which log files are read line by line

Reading fails in two ways.  A line end is divided where its carriage return fills the buffer, and
a line feed that is not complete at the end of the file is completed by what the buffer held
before, so that a piece is longer than what has been read.
-/

open Ascii

namespace LogLines

variable {ends : LineEnds} {n : ℕ} {line chars : List Bytes} {lines : List (List Bytes)}
  {stale : ℕ → Bytes} {file part : Bytes} {offset : ℕ}

/-! ### A torn line feed -/

/-- Behind its carriage return a line takes another character when one seems to follow. -/
theorem charsTaken_ahead (hline : IsLine ends line []) (hlast : line.getLast? = some ends.cr)
    {ahead : Prop} [Decidable ahead] (hahead : ahead) :
  charsTaken ends ahead line = line.length + 1
  := by
  have hne := ends.cr_ne_lf
  obtain ⟨content, lineEnd, rfl, hcontent, rfl | rfl | ⟨rfl, -⟩ | ⟨rfl, hcn, -⟩⟩ := hline
  · rw [List.getLast?_concat] at hlast
    exact absurd (Option.some.inj hlast).symm hne
  · rw [List.getLast?_append] at hlast
    exact absurd (Option.some.inj hlast).symm hne
  · rw [charsTaken_content hcontent]
    simp [charsTaken.eq_def, hne, hahead]
  · rw [List.append_nil] at hlast
    exact absurd rfl (hcontent _ (List.mem_of_getLast? hlast)).1

theorem whole_lineFeeds (n : ℕ) :
  Whole ends (List.replicate n ends.lf)
  := by
  intro c hc
  rw [List.eq_of_mem_replicate hc, ends.lf_length]

theorem length_lineFeeds (n : ℕ) :
  (List.replicate n ends.lf).flatten.length = n * ends.szbyte
  := by
  rw [(whole_lineFeeds n).length_flatten, List.length_replicate]

/-- A buffer of line feeds completes one that is not complete. -/
theorem ahead_of_prefix (hchars : chars.length < n) (hne : part ≠ [])
    (hinitial : part <+: ends.lf) :
  Ahead ends n (List.replicate n ends.lf).flatten chars part
  := by
  use hchars, hne
  obtain ⟨behind, hlf⟩ := hinitial
  have hfront : Whole ends (List.replicate chars.length ends.lf) :=
    whole_lineFeeds chars.length
  have hsplit : (List.replicate n ends.lf).flatten =
      (List.replicate chars.length ends.lf).flatten ++
        (part ++ (behind ++ (List.replicate (n - chars.length - 1) ends.lf).flatten)) := by
    rw [← List.append_assoc part, hlf, ← List.flatten_cons, ← List.replicate_succ,
      ← List.flatten_append, List.replicate_append_replicate]
    congr 2
    omega
  have hdrop : (List.replicate n ends.lf).flatten.drop
      (chars.length * ends.szbyte + part.length) =
        behind ++ (List.replicate (n - chars.length - 1) ends.lf).flatten := by
    rw [hsplit, ← List.drop_drop]
    conv_lhs => rw [List.drop_left' (by rw [hfront.length_flatten, List.length_replicate])]
    exact List.drop_left
  rw [hdrop, ← List.append_assoc, hlf]
  exact List.prefix_append _ _

theorem length_zbxRead {count : ℕ} {bytes : Bytes} (h : bytes.length = count) :
  (zbxRead ends count bytes file offset).2.length = count
  := by
  have hle := List.length_take_le count (file.drop offset)
  simp only [zbxRead, List.length_append, List.length_drop, h]
  omega

/-- A line that ends with the carriage return before a torn line feed gives a character too
much. -/
theorem reads_torn_line (hn : 0 < n) (hline : IsLine ends line []) (hwhole : Whole ends line)
    (hpart : part.length < ends.szbyte) (hne : part ≠ []) (hinitial : part <+: ends.lf)
    (hfile : file.drop offset = line.flatten ++ part)
    (hlast : line.getLast? = some ends.cr) (hndvd : ¬ n ∣ line.length) :
  ∃ pieces, Reads ends (n * ends.szbyte) (fun _ => (List.replicate n ends.lf).flatten) file
      offset pieces ∧
    pieces.flatten.length = (line.length + 1) * ends.szbyte
  := by
  induction hlength : line.length using Nat.strong_induction_on generalizing line offset with
  | _ m ih =>
    subst hlength
    by_cases hlt : line.length < n
    · have hahead : Ahead ends n (List.replicate n ends.lf).flatten line part :=
        ahead_of_prefix hlt hne hinitial
      obtain ⟨behind, hread⟩ : ∃ behind,
          zbxRead ends (n * ends.szbyte) (List.replicate n ends.lf).flatten file offset =
            (charsTaken ends (Ahead ends n (List.replicate n ends.lf).flatten line part)
              (line.take n) * ends.szbyte, (line.take n).flatten ++ behind) :=
        zbxRead_eq hwhole hpart hfile
      rw [List.take_of_length_le hlt.le, charsTaken_ahead hline hlast hahead] at hread
      have hlong : (line.length + 1) * ends.szbyte ≤ n * ends.szbyte :=
        Nat.mul_le_mul_right _ hlt
      have hend : file.drop (offset + (line.length + 1) * ends.szbyte) = [] := by
        rw [← List.drop_drop, hfile]
        apply List.drop_of_length_le
        rw [List.length_append, hwhole.length_flatten, Nat.succ_mul]
        omega
      have hreads := @Reads.piece ends (n * ends.szbyte)
        (fun _ => (List.replicate n ends.lf).flatten) file offset []
      have hcount : (zbxRead ends (n * ends.szbyte) (List.replicate n ends.lf).flatten file
          offset).2.length = n * ends.szbyte := length_zbxRead (length_lineFeeds n)
      refine ⟨_, hreads ?_ ?_, ?_⟩
      · simp only [hread]
        exact Nat.mul_pos (Nat.succ_pos _) ends.szbyte_pos
      · simp only [hread]
        have hnone : ([] : Bytes).length < ends.szbyte := ends.szbyte_pos
        exact reads_eof hnone hend
      · simp only [List.flatten_cons, List.flatten_nil, List.append_nil, List.length_take, hcount]
        rw [hread]
        exact Nat.min_eq_left hlong
    · have hlong : n < line.length := by
        have hneq : line.length ≠ n := fun heq => hndvd (heq ▸ dvd_rfl)
        omega
      have hahead : ¬ Ahead ends n (List.replicate n ends.lf).flatten line part :=
        fun hahead => hlt hahead.1
      have hline' := charsTaken_long hline hlong hahead
      rw [List.append_nil] at hline'
      obtain ⟨htaken, hrest⟩ := hline'
      have hfront : Whole ends (line.take n) := fun c hc => hwhole c (List.mem_of_mem_take hc)
      have hback : Whole ends (line.drop n) := fun c hc => hwhole c (List.mem_of_mem_drop hc)
      have hfile' : file.drop (offset + n * ends.szbyte) = (line.drop n).flatten ++ part := by
        have hsplit : file.drop offset = (line.take n ++ line.drop n).flatten ++ part := by
          rw [List.take_append_drop]
          exact hfile
        have hdrop := drop_offset hfront hsplit
        rwa [List.length_take_of_le hlong.le] at hdrop
      obtain ⟨pieces, hreads, hlength⟩ := ih (line.drop n).length
        (by rw [List.length_drop]; omega) hrest hback hfile'
        (by rw [List.getLast?_drop, if_neg (by omega), hlast])
        (by
          rw [List.length_drop]
          intro hdvd
          apply hndvd
          rw [show line.length = line.length - n + n by omega]
          exact Nat.dvd_add hdvd dvd_rfl) rfl
      refine ⟨_, reads_piece hwhole hpart hfile htaken hn
        (by rw [List.length_take]; omega) hreads, ?_⟩
      rw [List.flatten_cons, List.length_append, hfront.length_flatten, hlength,
        List.length_take_of_le hlong.le, List.length_drop, ← Nat.add_mul]
      congr 1
      omega

theorem reads_torn (hn : 0 < n) (hlines : Lines ends chars lines) (hwhole : Whole ends chars)
    (hpart : part.length < ends.szbyte) (hfile : file.drop offset = chars.flatten ++ part)
    (htorn : Torn ends n lines part) :
  ∃ pieces, Reads ends (n * ends.szbyte) (fun _ => (List.replicate n ends.lf).flatten) file
      offset pieces ∧
    pieces.flatten.length = (chars.length + 1) * ends.szbyte
  := by
  obtain ⟨hne, hinitial, last, hlast, hcr, hndvd⟩ := htorn
  induction hlines generalizing offset with
  | nil => cases hlast
  | @cons line next lines hline hnext ih =>
    obtain ⟨hfront, hback⟩ := Whole.append.mp hwhole
    by_cases hnil : next = []
    · subst hnil
      rw [hnext.of_nil] at hlast
      cases hlast
      rw [List.append_nil] at hfile ⊢
      exact reads_torn_line hn hline hfront hpart hne hinitial hfile hcr hndvd
    · obtain ⟨pieces, hchunks, hreads⟩ := reads_line hn hline hwhole hpart hfile
        (fun h => absurd h hnil)
      have hlast' : lines.getLast? = some last := by
        cases hnext with
        | nil => exact absurd rfl hnil
        | cons => rwa [List.getLast?_cons_cons] at hlast
      obtain ⟨rest, hrest, hlength⟩ := ih hback (drop_offset hfront hfile) hlast'
      refine ⟨_, hreads rest hrest, ?_⟩
      rw [List.flatten_append, List.length_append, hlength, ← List.flatten_flatten,
        hchunks.flatten, hfront.length_flatten, List.length_append, ← Nat.add_mul, Nat.add_assoc]

/-! ### The pieces of a file -/

/-- Whatever the buffer holds before the calls, they come to the end of the file; what they
return is the whole characters of the file in pieces that have been read, without a divided
line end, each line that fits in the buffer being one piece. -/
def Meets (ends : LineEnds) (n : ℕ) (chars : List Bytes) (lines : List (List Bytes))
    (part : Bytes) : Prop :=
  ∀ stale : ℕ → Bytes, (∀ offset, (stale offset).length = n * ends.szbyte) →
    ∃ pieces : List (List Bytes),
      Reads ends (n * ends.szbyte) stale (chars.flatten ++ part) 0 (pieces.map List.flatten) ∧
      pieces.flatten = chars ∧
      (∀ p ∈ pieces, p ≠ [] ∧ p.length ≤ n) ∧
      Undivided ends pieces ∧
      ∀ before line after, lines = before ++ line :: after → line.length ≤ n →
        ∃ before' after', pieces = before' ++ line :: after' ∧
          before'.flatten = before.flatten

theorem map_flatten_injective {pieces pieces' : List (List Bytes)}
    (h : Whole ends pieces.flatten) (h' : Whole ends pieces'.flatten)
    (heq : pieces.map List.flatten = pieces'.map List.flatten) :
  pieces = pieces'
  := by
  induction pieces generalizing pieces' with
  | nil => exact (List.map_eq_nil_iff.mp heq.symm).symm
  | cons p pieces ih =>
    cases pieces' with
    | nil => cases heq
    | cons p' pieces' =>
      rw [List.flatten_cons] at h h'
      obtain ⟨hp, hpieces⟩ := Whole.append.mp h
      obtain ⟨hp', hpieces'⟩ := Whole.append.mp h'
      rw [List.map_cons, List.map_cons] at heq
      obtain ⟨hfirst, hrest⟩ := List.cons.inj heq
      rw [hp.flatten_injective hp' hfirst, ih hpieces hpieces' hrest]

theorem not_meets_of_torn (hn : 0 < n) (hlines : Lines ends chars lines)
    (hwhole : Whole ends chars) (hpart : part.length < ends.szbyte)
    (htorn : Torn ends n lines part) :
  ¬ Meets ends n chars lines part
  := by
  intro h
  obtain ⟨pieces, hreads, hflatten, -⟩ :=
    h (fun _ => (List.replicate n ends.lf).flatten) fun _ => length_lineFeeds n
  have hfile : (chars.flatten ++ part).drop 0 = chars.flatten ++ part := rfl
  obtain ⟨pieces', hreads', hlength⟩ := reads_torn hn hlines hwhole hpart hfile htorn
  rw [← hreads.unique hreads', ← List.flatten_flatten, hflatten, hwhole.length_flatten,
    Nat.succ_mul] at hlength
  have := ends.szbyte_pos
  omega

theorem divides_of_meets (hn : 0 < n) (hlines : Lines ends chars lines)
    (hwhole : Whole ends chars) (hpart : part.length < ends.szbyte)
    (hnormal : ¬ Torn ends n lines part) (h : Meets ends n chars lines part) :
  ∀ line ∈ lines, ¬ Divides ends n line
  := by
  obtain ⟨pieces, hreads, hflatten, -, hundivided, -⟩ :=
    h (fun _ => List.replicate (n * ends.szbyte) 0) fun _ => List.length_replicate
  obtain ⟨chunks, hall, hreads'⟩ : ∃ chunks, List.Forall₂ (Chunks n) lines chunks ∧
      Reads ends (n * ends.szbyte) (fun _ => List.replicate (n * ends.szbyte) 0)
        (chars.flatten ++ part) 0 (chunks.flatten.map List.flatten) :=
    reads_lines hn hlines hwhole hpart rfl hnormal
  have hchunks : chunks.flatten.flatten = chars := by
    rw [flatten_of_chunks hall, hlines.flatten]
  have hpieces : Whole ends pieces.flatten := by rwa [hflatten]
  have hpieces' : Whole ends chunks.flatten.flatten := by rwa [hchunks]
  have heq : pieces = chunks.flatten :=
    map_flatten_injective hpieces hpieces' (hreads.unique hreads')
  rw [heq] at hundivided
  exact (undivided_iff hn hlines hall).mp hundivided

/-- A file is read as it should be exactly when no carriage return of a line end is the last
character of a buffer, and no incomplete line feed follows a carriage return that does not fill
the buffer. -/
theorem lines_meet_iff (encoding : Bytes) {n : ℕ} (hn : 2 ≤ n) {chars : List Bytes}
    {lines : List (List Bytes)} {part : Bytes}
    (hwhole : Whole (LineEnds.of encoding) chars)
    (hpart : part.length < (LineEnds.of encoding).szbyte)
    (hlines : Lines (LineEnds.of encoding) chars lines) :
  Meets (LineEnds.of encoding) n chars lines part ↔
    (∀ line ∈ lines, ¬ Divides (LineEnds.of encoding) n line) ∧
      ¬ Torn (LineEnds.of encoding) n lines part
  := by
  have hpos : 0 < n := by omega
  constructor
  · intro h
    have hnormal : ¬ Torn (LineEnds.of encoding) n lines part := fun htorn =>
      not_meets_of_torn hpos hlines hwhole hpart htorn h
    exact ⟨divides_of_meets hpos hlines hwhole hpart hnormal h, hnormal⟩
  · rintro ⟨hdivides, hnormal⟩ stale -
    obtain ⟨chunks, hall, hreads⟩ : ∃ chunks, List.Forall₂ (Chunks n) lines chunks ∧
        Reads (LineEnds.of encoding) (n * (LineEnds.of encoding).szbyte) stale
          (chars.flatten ++ part) 0 (chunks.flatten.map List.flatten) :=
      reads_lines hpos hlines hwhole hpart rfl hnormal
    refine ⟨chunks.flatten, hreads, ?_, bounds_of_chunks hpos hall,
      (undivided_iff hpos hlines hall).mpr hdivides, ?_⟩
    · rw [flatten_of_chunks hall, hlines.flatten]
    · intro before line after heq hle
      exact fits_of_chunks hall heq hle

/-- The line `a` with its line end, in an encoding with single bytes. -/
def lineOfThree : List Bytes := [[0x61], [carriageReturn], [newline]]

theorem lineOfThree_whole :
  Whole (LineEnds.of []) lineOfThree
  := by
  unfold Whole
  decide

theorem lineOfThree_isLine (next : List Bytes) :
  IsLine (LineEnds.of []) lineOfThree next
  := by
  refine ⟨[[0x61]], [[carriageReturn], [newline]], rfl, ?_, Or.inr (Or.inl rfl)⟩
  intro c hc
  obtain rfl := List.mem_singleton.mp hc
  exact ⟨by decide, by decide⟩

theorem lineOfThree_lines :
  Lines (LineEnds.of []) lineOfThree [lineOfThree]
  := @Lines.cons _ lineOfThree [] [] (lineOfThree_isLine []) .nil

/-- The line `a`, the line `bcde` that ends with a line feed alone, and `f` without a line end. -/
def threeLines : List (List Bytes) :=
  [lineOfThree, [[0x62], [0x63], [0x64], [0x65], [newline]], [[0x66]]]

theorem threeLines_lines :
  Lines (LineEnds.of []) threeLines.flatten threeLines
  := by
  have hfeed : IsLine (LineEnds.of []) [[0x62], [0x63], [0x64], [0x65], [newline]] [[0x66]] :=
    ⟨[[0x62], [0x63], [0x64], [0x65]], [[newline]], rfl, by decide, Or.inl rfl⟩
  have hlast : IsLine (LineEnds.of []) [[0x66]] [] :=
    ⟨[[0x66]], [], rfl, by decide, Or.inr (Or.inr (Or.inr ⟨rfl, by decide, rfl⟩))⟩
  exact .cons (lineOfThree_isLine _) (.cons hfeed (.cons hlast .nil))

/-- A buffer of three characters reads the lines; the second is read in two pieces. -/
theorem threeLines_meet :
  Meets (LineEnds.of []) 3 threeLines.flatten threeLines []
  := by
  have hwhole : Whole (LineEnds.of []) threeLines.flatten := by
    unfold Whole
    decide
  apply (lines_meet_iff [] (by decide) hwhole (by decide) threeLines_lines).mpr
  constructor
  · unfold threeLines Divides
    simp only [List.forall_mem_cons]
    refine ⟨?_, ?_, ?_, by simp⟩
    · exact fun h => absurd h.2 (by decide)
    · exact fun h => absurd h.1 (by decide)
    · exact fun h => absurd h.1 (by decide)
  · rintro ⟨hne, -⟩
    exact hne rfl

/-- A buffer of two characters divides the line end. -/
theorem lineOfThree_not_meets :
  ¬ Meets (LineEnds.of []) 2 lineOfThree [lineOfThree] []
  := by
  intro h
  have hnormal : ¬ Torn (LineEnds.of []) 2 [lineOfThree] [] := fun htorn => htorn.1 rfl
  apply divides_of_meets (by decide) lineOfThree_lines lineOfThree_whole (by decide) hnormal h
    lineOfThree List.mem_cons_self
  exact ⟨⟨[[0x61]], rfl⟩, by decide⟩

end LogLines
