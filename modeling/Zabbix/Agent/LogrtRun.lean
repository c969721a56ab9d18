import Mathlib.Data.List.Basic
import Mathlib.Data.List.TakeWhile
import Mathlib.Tactic.Common
import Zabbix.Agent.Logrt
import Zabbix.Library.Lines
import Zabbix.Library.Run

/-!
# Reading logs under rotation

The files that match a pattern are followed from their creation on, in order of age, together
with the stored position of the item and the values of the calls whose position was stored.
The values should be the first lines of all files, file by file in order of age, and all of
them once a call finds nothing more to read.

The position tells only the size and the time of the file, so that this can go wrong: a file
before the position is appended to, the times do not follow the age of the files, or the file
that the position is in is not there any more, so that the next one is read from the same
offset on.  Moreover a carriage return ends a line too.  The lines are read exactly once, each
in its turn, when none of this happens (`logrt_reads`).
-/

open Ascii Lines LogLines

namespace Agent

/-- A log file, which may have been removed. -/
structure LogFile where
  entry : DirEntry
  present : Bool
deriving DecidableEq

namespace LogFile

def mtime (file : LogFile) : ℤ := file.entry.mtime

def content (file : LogFile) : Bytes := file.entry.content

/-- A text is written to the end of the file. -/
def append (file : LogFile) (text : Bytes) (now : ℤ) : LogFile :=
  { file with entry := { file.entry with content := file.content ++ text, mtime := now } }

def rename (file : LogFile) (name : Bytes) : LogFile :=
  { file with entry := { file.entry with name := name } }

def create (name : Bytes) (now : ℤ) : LogFile where
  entry := { name := name, regular := true, mtime := now, content := [] }
  present := true

end LogFile

/-- Every carriage return is followed by a newline. -/
def NoLoneReturn (text : Bytes) : Prop :=
  ∀ k < text.length, text[k]? = some carriageReturn → text[k + 1]? = some newline

instance (text : Bytes) : Decidable (NoLoneReturn text) :=
  inferInstanceAs (Decidable (∀ k < text.length, text[k]? = some carriageReturn →
    text[k + 1]? = some newline))

/-- The lines of files. -/
def linesOf (files : List LogFile) : List Bytes := files.flatMap fun file => lines file.content

/-- Files from the oldest to the youngest, the stored position, and the values of the calls
whose position was stored. -/
structure LogrtRun where
  files : List LogFile
  pos : LogPosition
  values : List Bytes
deriving DecidableEq

/-- What can happen: a file is appended to, renamed, created, or removed, or there is a call of
`process_logrt`, whose value the buffer of active checks accepts or not. -/
inductive LogrtAction where
  | append (index : ℕ) (text : Bytes) (now : ℤ)
  | rename (index : ℕ) (name : Bytes)
  | create (name : Bytes) (now : ℤ)
  | remove (index : ℕ)
  | check (call : LogrtCall) (accepted : Bool)
deriving DecidableEq

namespace LogrtRun

variable (item : LogrtItem)

def start : LogrtRun where
  files := []
  pos := { lastlogsize := 0, mtime := 0 }
  values := []

/-- The file of an index is changed, if it is there. -/
def change (s : LogrtRun) (index : ℕ) (f : LogFile → LogFile) : Option LogrtRun :=
  match s.files[index]? with
  | none => none
  | some file =>
    if file.present then some { s with files := s.files.set index (f file) } else none

/-- What `process_active_checks` does with the result of a call: the position is stored at the
end of the files, and when the value could be processed. -/
def store (s : LogrtRun) (result : LogrtResult) (accepted : Bool) : LogrtRun :=
  if result.succeeds then
    match result.value with
    | none => { s with pos := result.pos }
    | some value =>
      if accepted then { s with pos := result.pos, values := s.values ++ [value] } else s
  else s

/-- The call of `process_logrt`, with the stored position. -/
def result (s : LogrtRun) (call : LogrtCall) : LogrtResult := processLogrt item false s.pos call

/-- One action. -/
def step (s : LogrtRun) : LogrtAction → Option LogrtRun
  | .append index text now => s.change index (·.append text now)
  | .rename index name => s.change index (·.rename name)
  | .create name now => some { s with files := s.files ++ [.create name now] }
  | .remove index => s.change index ({ · with present := false })
  | .check call accepted => some (s.store (s.result item call) accepted)

/-! ### What may happen -/

/-- The files in the directory. -/
def inDirectory (s : LogrtRun) : List DirEntry := (s.files.filter (·.present)).map (·.entry)

/-- A call finds the files of the directory, which have different times and consist of
complete lines that fit into the buffer. -/
structure Finds (s : LogrtRun) (listing : List DirEntry) : Prop where
  perm : (listing.filter fun file => file.regular && item.isMatch file.name).Perm s.inDirectory
  distinct : (s.inDirectory.map (·.mtime)).Nodup
  complete : ∀ file ∈ s.inDirectory, Complete file.content
  fits : ∀ file ∈ s.inDirectory, ∀ line ∈ lines file.content, line.length ≤ maxBufferLen

instance (s : LogrtRun) (listing : List DirEntry) : Decidable (s.Finds item listing) :=
  decidable_of_iff
    ((listing.filter fun file => file.regular && item.isMatch file.name).Perm s.inDirectory ∧
      (s.inDirectory.map (·.mtime)).Nodup ∧ (∀ file ∈ s.inDirectory, Complete file.content) ∧
      ∀ file ∈ s.inDirectory, ∀ line ∈ lines file.content, line.length ≤ maxBufferLen)
    ⟨fun ⟨h1, h2, h3, h4⟩ => ⟨h1, h2, h3, h4⟩, fun ⟨h1, h2, h3, h4⟩ => ⟨h1, h2, h3, h4⟩⟩

/-- No file is removed before it has been read, and calls find the files. -/
def Allowed (s : LogrtRun) : LogrtAction → Prop
  | .remove index => (linesOf (s.files.take (index + 1))).length ≤ s.values.length
  | .check call _ => ∀ listing ∈ call.listing, s.Finds item listing
  | _ => True

instance (s : LogrtRun) (action : LogrtAction) : Decidable (s.Allowed item action) :=
  match action with
  | .append _ _ _ | .rename _ _ | .create _ _ => inferInstanceAs (Decidable True)
  | .remove index =>
    inferInstanceAs (Decidable ((linesOf (s.files.take (index + 1))).length ≤ s.values.length))
  | .check call _ =>
    inferInstanceAs (Decidable (∀ listing ∈ call.listing, s.Finds item listing))

/-- The files that are not older than the position, as far as the position tells. -/
def unreadFiles (s : LogrtRun) : List LogFile := s.files.dropWhile (·.mtime < s.pos.mtime)

/-- The times of the files follow their age. -/
def InOrder (s : LogrtRun) : Prop :=
  s.unreadFiles.Pairwise fun older file => file.present = true → older.mtime < file.mtime

/-- The file of the position is in the directory, or another one is read from its beginning:
the offset is 0, or it is larger than the next file. -/
def FindsFile (s : LogrtRun) : Prop :=
  ∀ file ∈ s.unreadFiles.head?, file.present = false →
    s.inDirectory = [] ∨
      ∃ next ∈ s.unreadFiles.find? (·.present),
        s.pos.lastlogsize = 0 ∨ next.content.length < s.pos.lastlogsize

/-- The condition on an action. The first file has no negative time, and an `int` can hold the
times that a call finds. -/
def Safe (s : LogrtRun) : LogrtAction → Prop
  | .append index _ now =>
    s.pos.mtime ≤ now ∧ ∀ file ∈ s.files[index]?, s.pos.mtime ≤ file.mtime
  | .create _ now => s.files = [] → 0 ≤ now
  | .check _ _ =>
    s.InOrder ∧ s.FindsFile ∧ (∀ file ∈ s.inDirectory, NoLoneReturn file.content) ∧
      ∀ file ∈ s.inDirectory, CInt.Fits file.mtime
  | .rename _ _ | .remove _ => True

instance (s : LogrtRun) : Decidable s.InOrder :=
  inferInstanceAs (Decidable (s.unreadFiles.Pairwise _))

instance (s : LogrtRun) : Decidable s.FindsFile :=
  inferInstanceAs (Decidable (∀ file ∈ s.unreadFiles.head?, _))

instance (s : LogrtRun) (action : LogrtAction) : Decidable (s.Safe action) :=
  match action with
  | .append index _ now =>
    inferInstanceAs (Decidable
      (s.pos.mtime ≤ now ∧ ∀ file ∈ s.files[index]?, s.pos.mtime ≤ file.mtime))
  | .create _ now => inferInstanceAs (Decidable (s.files = [] → 0 ≤ now))
  | .rename _ _ | .remove _ => inferInstanceAs (Decidable True)
  | .check _ _ =>
    inferInstanceAs (Decidable
      (s.InOrder ∧ s.FindsFile ∧ (∀ file ∈ s.inDirectory, NoLoneReturn file.content) ∧
        ∀ file ∈ s.inDirectory, CInt.Fits file.mtime))

/-- The values are the first lines of the files. -/
def InStep (s : LogrtRun) (values : List Bytes) : Prop :=
  values <+: (linesOf s.files).map item.valueOf

end LogrtRun

/-! ### Reading one line -/

theorem NoLoneReturn.drop {text : Bytes} (h : NoLoneReturn text) (j : ℕ) :
  NoLoneReturn (text.drop j)
  := by
  intro k hk hreturn
  rw [List.length_drop] at hk
  rw [List.getElem?_drop] at hreturn
  rw [List.getElem?_drop, ← Nat.add_assoc]
  apply h _ (by omega) hreturn

/-- The ends of lines in an encoding with characters of one byte. -/
structure SingleByte (ends : LineEnds) : Prop where
  cr : ends.cr = [carriageReturn]
  lf : ends.lf = [newline]
  szbyte : ends.szbyte = 1

theorem singleByte_of {encoding : Bytes} (h : lineEnd encoding = ([carriageReturn], [newline])) :
  SingleByte (LineEnds.of encoding)
  := by
  refine ⟨?_, ?_, ?_⟩ <;> simp [LineEnds.of, h]

/-- The length of a line whose carriage returns are followed by newlines. -/
theorem lineLength_line {ends : LineEnds} (hends : SingleByte ends) {front rest : Bytes}
    (hfront : newline ∉ front) (h : NoLoneReturn (front ++ newline :: rest)) (more : Bytes)
    {fuel nbytes : ℕ} (hfuel : front.length < fuel) (hnbytes : front.length < nbytes) :
  lineLength ends fuel (front ++ newline :: more) nbytes = front.length + 1
  := by
  obtain ⟨fuel, rfl⟩ := Nat.exists_eq_succ_of_ne_zero (Nat.ne_zero_of_lt hfuel)
  induction front generalizing fuel nbytes with
  | nil =>
    rw [lineLength, if_pos (by rw [hends.szbyte]; omega), if_pos (by simp [hends.lf]),
      hends.szbyte]
    rfl
  | cons c front ih =>
    obtain ⟨hc, hfront⟩ := not_or.mp fun hor => hfront (List.mem_cons.mpr hor)
    rw [List.length_cons] at hfuel hnbytes
    rw [lineLength, if_pos (by rw [hends.szbyte]; omega),
      if_neg (by simpa [hends.lf] using hc), hends.cr, hends.lf, hends.szbyte]
    by_cases hreturn : c = carriageReturn
    · -- the newline that follows is the one that ends the line
      have hnext := h 0 (by simp) (by rw [hreturn]; rfl)
      cases front with
      | nil => simp [hreturn, show 1 < nbytes by simpa using hnbytes]
      | cons d front =>
        obtain rfl : d = newline := by simpa using hnext
        exact absurd List.mem_cons_self hfront
    · have hnot : ¬ ([carriageReturn] <+: c :: front ++ newline :: more) := by
        simpa using fun heq => hreturn heq.symm
      obtain ⟨fuel, rfl⟩ := Nat.exists_eq_succ_of_ne_zero (show fuel ≠ 0 by omega)
      have hbytes : front.length < nbytes - 1 := by omega
      have hrest := ih hfront (h.drop 1) hbytes fuel (by omega)
      rw [if_neg hnot, List.cons_append, List.drop_one, List.tail_cons, hrest, List.length_cons]
      omega

/-- Nothing is read when there is no line left. -/
theorem zbxRead_end {ends : LineEnds} {stale content : Bytes} {offset count : ℕ}
    (hlines : lines (content.drop offset) = []) :
  (zbxRead ends count stale content offset).1 = 0
  := by
  have hnil := flatten_lines (content.drop offset)
  rw [hlines, List.flatten_nil] at hnil
  simp [zbxRead, ← hnil, lineLength]

/-- The first line is read. -/
theorem zbxRead_line {ends : LineEnds} (hends : SingleByte ends) {stale content line : Bytes}
    {more : List Bytes} {offset : ℕ} (hcomplete : Complete (content.drop offset))
    (hreturns : NoLoneReturn (content.drop offset))
    (hlines : lines (content.drop offset) = line :: more)
    (hfits : line.length ≤ maxBufferLen) :
  (zbxRead ends maxBufferLen stale content offset).1 = line.length ∧
    (zbxRead ends maxBufferLen stale content offset).2.take line.length = line
  := by
  obtain ⟨front, rest, rfl, hfront, htext, -, -⟩ := lines_eq_cons hcomplete hlines
  obtain ⟨k, hk⟩ := Nat.exists_eq_add_of_le hfits
  have hbytes : (content.drop offset).take maxBufferLen = front ++ newline :: rest.take k := by
    rw [htext, hk, List.take_length_add_append, List.append_assoc]
    rfl
  rw [htext, List.append_assoc] at hreturns
  have hlong : front.length < (front ++ newline :: rest.take k).length := by simp
  have hsplit : ∀ behind : Bytes, front ++ newline :: behind = (front ++ [newline]) ++ behind := by
    simp
  rw [zbxRead]
  simp only [hbytes]
  rw [List.append_assoc, List.cons_append, lineLength_line hends hfront hreturns _ hlong hlong]
  constructor
  · simp
  · rw [hsplit (_ ++ _)]
    exact List.take_left

/-! ### The sorted list of files -/

theorem mem_addLogfile {file entry : DirEntry} {logfiles : List DirEntry}
    (h : entry ∈ addLogfile file logfiles) :
  entry = file ∨ entry ∈ logfiles
  := by
  induction logfiles with
  | nil => exact Or.inl (List.mem_singleton.mp h)
  | cons logfile rest ih =>
    rw [addLogfile] at h
    grind

/-- A file with a time of its own gets its place. -/
theorem addLogfile_spec {file : DirEntry} {logfiles : List DirEntry}
    (hsorted : logfiles.Pairwise (·.mtime < ·.mtime))
    (hnew : ∀ logfile ∈ logfiles, logfile.mtime ≠ file.mtime) :
  (addLogfile file logfiles).Perm (file :: logfiles) ∧
    (addLogfile file logfiles).Pairwise (·.mtime < ·.mtime)
  := by
  induction logfiles with
  | nil => exact ⟨List.Perm.refl _, List.pairwise_singleton _ _⟩
  | cons logfile rest ih =>
    obtain ⟨hfirst, hrest⟩ := List.pairwise_cons.mp hsorted
    obtain ⟨hne, hnew⟩ := List.forall_mem_cons.mp hnew
    obtain ⟨hperm, hpairwise⟩ := ih hrest hnew
    rw [addLogfile]
    by_cases hlt : logfile.mtime < file.mtime
    · rw [if_pos hlt]
      refine ⟨(hperm.cons _).trans (List.Perm.swap _ _ _), ?_⟩
      refine List.pairwise_cons.mpr ⟨fun entry hentry => ?_, hpairwise⟩
      obtain rfl | hmem := mem_addLogfile hentry
      · exact hlt
      · exact hfirst entry hmem
    · rw [if_neg hlt, if_neg fun heq => hne heq.symm]
      refine ⟨List.Perm.refl _, List.pairwise_cons.mpr ⟨fun entry hentry => ?_, hsorted⟩⟩
      obtain rfl | hmem := List.mem_cons.mp hentry
      · omega
      · have := hfirst entry hmem
        omega

theorem foldl_addLogfile {entries logfiles : List DirEntry}
    (hsorted : logfiles.Pairwise (·.mtime < ·.mtime))
    (hdistinct : ((entries ++ logfiles).map (·.mtime)).Nodup) :
  (entries.foldl (fun logfiles file => addLogfile file logfiles) logfiles).Perm
      (entries ++ logfiles) ∧
    (entries.foldl (fun logfiles file => addLogfile file logfiles) logfiles).Pairwise
      (·.mtime < ·.mtime)
  := by
  induction entries generalizing logfiles with
  | nil => exact ⟨List.Perm.refl _, hsorted⟩
  | cons file entries ih =>
    rw [List.cons_append, List.map_cons, List.nodup_cons] at hdistinct
    have hnew : ∀ logfile ∈ logfiles, logfile.mtime ≠ file.mtime := by
      intro logfile hmem heq
      apply hdistinct.1
      rw [← heq]
      exact List.mem_map_of_mem (List.mem_append_right _ hmem)
    obtain ⟨hperm, hpairwise⟩ := addLogfile_spec hsorted hnew
    have hmoved : (entries ++ addLogfile file logfiles).Perm (file :: (entries ++ logfiles)) :=
      (hperm.append_left entries).trans List.perm_middle
    have hnodup : ((entries ++ addLogfile file logfiles).map (·.mtime)).Nodup := by
      rw [(hmoved.map _).nodup_iff]
      exact List.nodup_cons.mpr hdistinct
    obtain ⟨hperm', hpairwise'⟩ := ih hpairwise hnodup
    exact ⟨hperm'.trans hmoved, hpairwise'⟩

theorem skipSame_eq {logfiles : List DirEntry}
    (hsorted : logfiles.Pairwise (·.mtime < ·.mtime)) :
  skipSame logfiles = logfiles
  := by
  match logfiles with
  | [] => rfl
  | [_] => rfl
  | logfile :: next :: rest =>
    have hlt := (List.pairwise_cons.mp hsorted).1 next List.mem_cons_self
    rw [skipSame, if_neg (by omega)]

/-- In a sorted list the files before a time come first. -/
theorem dropWhile_sorted {logfiles : List DirEntry}
    (hsorted : logfiles.Pairwise (·.mtime < ·.mtime)) (mtime : ℤ) :
  logfiles.dropWhile (·.mtime < mtime) = logfiles.filter (mtime ≤ ·.mtime)
  := by
  induction logfiles with
  | nil => rfl
  | cons logfile rest ih =>
    obtain ⟨hfirst, hrest⟩ := List.pairwise_cons.mp hsorted
    by_cases hlt : logfile.mtime < mtime
    · rw [List.dropWhile_cons_of_pos (by simpa using hlt), ih hrest,
        List.filter_cons_of_neg (by simpa using hlt)]
    · rw [List.dropWhile_cons_of_neg (by simpa using hlt)]
      symm
      rw [List.filter_eq_self]
      intro entry hentry
      rw [decide_eq_true_eq]
      obtain rfl | hmem := List.mem_cons.mp hentry
      · omega
      · have := hfirst entry hmem
        omega

/-! ### Going on from a file -/

theorem linesOf_append (front back : List LogFile) :
  linesOf (front ++ back) = linesOf front ++ linesOf back
  := List.flatMap_append

theorem linesOf_cons (file : LogFile) (files : List LogFile) :
  linesOf (file :: files) = lines file.content ++ linesOf files
  := List.flatMap_cons

theorem linesOf_eq_nil {files : List LogFile} (h : ∀ file ∈ files, file.content = []) :
  linesOf files = []
  := by
  rw [linesOf, List.flatMap_eq_nil_iff]
  intro file hmem
  rw [h file hmem]
  rfl

/-- The files that are in the directory, as a call finds them. -/
def presentEntries (files : List LogFile) : List DirEntry :=
  (files.filter (·.present)).map (·.entry)

/-- The lines that are read when the position is behind some bytes of a file. -/
def linesRead (before : List LogFile) (file : LogFile) (offset : ℕ) : List Bytes :=
  linesOf before ++ lines (file.content.take offset)

/-- What is known of a file that has been read up to an offset, and of the younger files. -/
structure Followed (file : LogFile) (younger : List LogFile) (offset : ℕ) : Prop where
  offset_le : offset ≤ file.content.length
  complete_take : Complete (file.content.take offset)
  ordered : (file :: younger).Pairwise fun older other => other.present = true →
    older.mtime < other.mtime
  complete : ∀ other ∈ file :: younger, other.present = true → Complete other.content
  fits : ∀ other ∈ file :: younger, other.present = true →
    ∀ line ∈ lines other.content, line.length ≤ maxBufferLen
  noLoneReturn : ∀ other ∈ file :: younger, other.present = true → NoLoneReturn other.content
  empty : ∀ other ∈ younger, other.present = false → other.content = []

/-- The file can be read on. -/
structure Readable (file : LogFile) (younger : List LogFile) (offset : ℕ) : Prop extends
    Followed file younger offset where
  present : file.present = true

variable {file : LogFile} {younger : List LogFile} {offset : ℕ}

namespace Followed

theorem lines_split (h : Followed file younger offset) :
  lines file.content = lines (file.content.take offset) ++ lines (file.content.drop offset)
  := by
  rw [← lines_append h.complete_take, List.take_append_drop]

/-- When the file has been read, the next file in the directory can be read. -/
theorem next (h : Followed file younger offset) {mid younger' : List LogFile} {file' : LogFile}
    (hyounger : younger = mid ++ file' :: younger') (hpresent : file'.present = true) :
  Readable file' younger' 0
  := by
  have hsub : (file' :: younger').Sublist (file :: younger) := by
    rw [hyounger]
    exact (List.sublist_append_right mid _).cons file
  have hsub' : younger'.Sublist younger := by
    rw [hyounger]
    exact ((List.sublist_cons_self _ _).trans (List.sublist_append_right mid _))
  exact
    { present := hpresent
      offset_le := Nat.zero_le _
      complete_take := by simp [Complete]
      ordered := h.ordered.sublist hsub
      complete := fun _ hmem => h.complete _ (hsub.subset hmem)
      fits := fun _ hmem => h.fits _ (hsub.subset hmem)
      noLoneReturn := fun _ hmem => h.noLoneReturn _ (hsub.subset hmem)
      empty := fun _ hmem => h.empty _ (hsub'.subset hmem) }

theorem before_next (h : Followed file younger offset) {before mid younger' : List LogFile}
    {file' : LogFile} (hbefore : ∀ older ∈ before, older.mtime < file.mtime)
    (hyounger : younger = mid ++ file' :: younger') (hpresent : file'.present = true) :
  ∀ older ∈ before ++ file :: mid, older.mtime < file'.mtime
  := by
  have hordered := h.ordered
  rw [hyounger, ← List.cons_append] at hordered
  have hlater : ∀ older ∈ file :: mid, older.mtime < file'.mtime := fun older hmem =>
    (List.pairwise_append.mp hordered).2.2 older hmem file' List.mem_cons_self hpresent
  intro older hmem
  obtain hmem | hmem := List.mem_append.mp hmem
  · exact (hbefore older hmem).trans (hlater file List.mem_cons_self)
  · exact hlater older hmem

/-- Until then the lines that have been read are the same ones. -/
theorem linesRead_next (h : Followed file younger offset) {mid younger' : List LogFile}
    {file' : LogFile} (hyounger : younger = mid ++ file' :: younger')
    (hmid : ∀ file ∈ mid, file.present = false)
    (hread : lines (file.content.drop offset) = []) (before : List LogFile) :
  linesRead (before ++ file :: mid) file' 0 = linesRead before file offset
  := by
  have hempty : linesOf mid = [] := linesOf_eq_nil fun file hmem =>
    h.empty file (by rw [hyounger]; exact List.mem_append_left _ hmem) (hmid file hmem)
  rw [linesRead, linesRead, linesOf_append, linesOf_cons, hempty, h.lines_split, hread]
  simp [lines]

end Followed

namespace Readable

theorem complete_drop (h : Readable file younger offset) :
  Complete (file.content.drop offset)
  := by
  intro c hc
  have hcomplete := h.complete file List.mem_cons_self h.present
  rw [← List.take_append_drop offset file.content] at hcomplete
  apply hcomplete
  rw [List.getLast?_append, hc]
  rfl

/-- The next line of the file is read. -/
theorem zbxRead_next (h : Readable file younger offset) {ends : LineEnds}
    (hends : SingleByte ends) {line : Bytes} {more : List Bytes}
    (hlines : lines (file.content.drop offset) = line :: more) (stale : Bytes) :
  (zbxRead ends maxBufferLen stale file.content offset).1 = line.length ∧
    (zbxRead ends maxBufferLen stale file.content offset).2.take line.length = line
  := by
  apply zbxRead_line hends h.complete_drop _ hlines
  · apply h.fits file List.mem_cons_self h.present
    rw [h.lines_split, hlines]
    exact List.mem_append_right _ List.mem_cons_self
  · exact (h.noLoneReturn file List.mem_cons_self h.present).drop offset

/-- Behind the next line the file is readable, and the line has been read. -/
theorem advance (h : Readable file younger offset) {line : Bytes} {more : List Bytes}
    (hlines : lines (file.content.drop offset) = line :: more) :
  Readable file younger (offset + line.length) ∧ line.length ≠ 0 ∧
    lines (file.content.take (offset + line.length)) =
      lines (file.content.take offset) ++ [line]
  := by
  obtain ⟨front, rest, rfl, hfront, htext, -, -⟩ := lines_eq_cons h.complete_drop hlines
  have htake : file.content.take (offset + (front ++ [newline]).length)
      = file.content.take offset ++ (front ++ [newline]) := by
    rw [List.take_add, htext, List.take_left]
  have hlength := congrArg List.length htext
  rw [List.length_drop, List.length_append] at hlength
  refine ⟨⟨⟨?_, ?_, h.ordered, h.complete, h.fits, h.noLoneReturn, h.empty⟩, h.present⟩, by simp,
    ?_⟩
  · have := h.offset_le
    omega
  · rw [htake]
    exact complete_append h.complete_take (complete_line front)
  · rw [htake, lines_append h.complete_take]
    rw [lines_line hfront]

/-- When no other file is in the directory, all lines have been read. -/
theorem linesRead_all (h : Readable file younger offset)
    (hyounger : younger.filter (·.present) = [])
    (hread : lines (file.content.drop offset) = []) (before : List LogFile) :
  linesRead before file offset = linesOf (before ++ file :: younger)
  := by
  have hempty : linesOf younger = [] := linesOf_eq_nil fun file hmem =>
    h.empty file hmem (by simpa using List.filter_eq_nil_iff.mp hyounger file hmem)
  rw [linesRead, linesOf_append, linesOf_cons, hempty, h.lines_split, hread]
  simp

end Readable

/-- What a call that succeeds does to the lines that have been read. -/
inductive ReadsOn (item : LogrtItem) (files : List LogFile) (read : List Bytes) :
    LogrtResult → Prop where
  | reads {before younger : List LogFile} {file : LogFile} {result : LogrtResult}
      {line : Bytes} (hfiles : files = before ++ file :: younger)
      (hbefore : ∀ older ∈ before, older.mtime < result.pos.mtime)
      (hmtime : result.pos.mtime = file.mtime)
      (hreadable : Readable file younger result.pos.lastlogsize)
      (hvalue : result.value = some (item.valueOf line))
      (hread : linesRead before file result.pos.lastlogsize = read ++ [line]) :
      ReadsOn item files read result
  | ends {before younger : List LogFile} {file : LogFile} {result : LogrtResult}
      (hfiles : files = before ++ file :: younger)
      (hbefore : ∀ older ∈ before, older.mtime < result.pos.mtime)
      (hmtime : result.pos.mtime = file.mtime)
      (hreadable : Readable file younger result.pos.lastlogsize)
      (hvalue : result.value = none)
      (hread : linesRead before file result.pos.lastlogsize = read)
      (hall : read = linesOf files) :
      ReadsOn item files read result

/-- A line of the file is read. -/
theorem Readable.readsOn {item : LogrtItem} {before younger : List LogFile} {file : LogFile}
    {offset : ℕ} (hreadable : Readable file younger offset)
    (hbefore : ∀ older ∈ before, older.mtime < file.mtime) {line : Bytes} {more : List Bytes}
    (hlines : lines (file.content.drop offset) = line :: more) :
  ReadsOn item (before ++ file :: younger) (linesRead before file offset)
    { succeeds := true
      pos := { lastlogsize := offset + line.length, mtime := file.mtime }
      value := some (item.valueOf line) }
  := by
  obtain ⟨hnext, -, hread⟩ := hreadable.advance hlines
  refine .reads rfl hbefore rfl hnext rfl ?_
  rw [linesRead, linesRead, hread, List.append_assoc]

theorem faults_none {faults : List (Option FileFault)} (h : ∀ fault ∈ faults, fault = none) :
  faults.head?.join = none
  := by
  cases faults with
  | nil => rfl
  | cons fault faults => exact h fault List.mem_cons_self

/-- One round of the loop. -/
theorem readLogfiles_cons {item : LogrtItem}
    (hencoding : lineEnd item.encoding = ([carriageReturn], [newline]))
    {younger : List LogFile} {file : LogFile} {offset : ℕ}
    (hreadable : Readable file younger offset) {pos : LogPosition}
    (hoffset : (if file.content.length < pos.lastlogsize then 0 else pos.lastlogsize) = offset)
    (faults : List (Option FileFault)) (stale : Bytes) (rest : List DirEntry) :
  (faults.head?.join ≠ none ∧
      (readLogfiles item false faults stale (file.entry :: rest) pos).succeeds = false) ∨
    (faults.head?.join = none ∧ ∃ stale',
      readLogfiles item false faults stale (file.entry :: rest) pos =
        match lines (file.content.drop offset) with
        | line :: _ =>
          { succeeds := true
            pos := { lastlogsize := offset + line.length, mtime := file.mtime }
            value := some (item.valueOf line) }
        | [] =>
          if rest = [] then
            { succeeds := true
              pos := { lastlogsize := offset, mtime := file.mtime }
              value := none }
          else
            readLogfiles item false faults.tail stale' rest
              { lastlogsize := 0, mtime := file.mtime })
  := by
  simp only [readLogfiles, Bool.false_eq_true, if_false]
  change (if file.entry.content.length < pos.lastlogsize then 0 else pos.lastlogsize) = offset
    at hoffset
  rw [hoffset]
  cases hfault : faults.head?.join with
  | some fault =>
    refine Or.inl ⟨by simp, ?_⟩
    split
    · rfl
    · rfl
  | none =>
    refine Or.inr ⟨rfl, (zbxRead (LineEnds.of item.encoding) maxBufferLen stale file.content
      offset).2, ?_⟩
    simp only [reduceCtorEq, if_false, ne_eq, not_true_eq_false]
    cases hlines : lines (file.content.drop offset) with
    | nil =>
      have hend : (zbxRead (LineEnds.of item.encoding) maxBufferLen stale file.entry.content
          offset).1 = 0 := zbxRead_end hlines
      simp only [hend, not_true_eq_false, if_false]
      rfl
    | cons line more =>
      have hne : line.length ≠ 0 := (hreadable.advance hlines).2.1
      obtain ⟨hnbytes, hline⟩ := hreadable.zbxRead_next (singleByte_of hencoding) hlines stale
      change (zbxRead (LineEnds.of item.encoding) maxBufferLen stale file.entry.content
        offset).1 = _ at hnbytes
      change (zbxRead (LineEnds.of item.encoding) maxBufferLen stale file.entry.content
        offset).2.take _ = _ at hline
      simp only [hnbytes, hne, not_false_eq_true, if_true, hline]
      rfl

/-- The next line is read, in the first file that has one. -/
theorem readLogfiles_spec {item : LogrtItem}
    (hencoding : lineEnd item.encoding = ([carriageReturn], [newline]))
    {before younger : List LogFile} {file : LogFile} {offset : ℕ}
    (hreadable : Readable file younger offset)
    (hbefore : ∀ older ∈ before, older.mtime < file.mtime) {pos : LogPosition}
    (hoffset : (if file.content.length < pos.lastlogsize then 0 else pos.lastlogsize) = offset)
    {faults : List (Option FileFault)} {stale : Bytes} {result : LogrtResult}
    (h : readLogfiles item false faults stale (presentEntries (file :: younger)) pos = result) :
  (result.succeeds = true →
      ReadsOn item (before ++ file :: younger) (linesRead before file offset) result) ∧
    ((∀ fault ∈ faults, fault = none) → result.succeeds = true)
  := by
  induction hrest : younger.filter (·.present)
    generalizing before younger file offset pos faults stale with
  | nil =>
    have hentries : presentEntries (file :: younger) = [file.entry] := by
      rw [presentEntries, List.filter_cons_of_pos hreadable.present, hrest]
      rfl
    rw [hentries] at h
    obtain ⟨hfault, hfails⟩ | ⟨-, _, hround⟩ :=
      readLogfiles_cons hencoding hreadable hoffset faults stale []
    · rw [h] at hfails
      exact ⟨fun hsucceeds => by simp [hfails] at hsucceeds, fun hnone => absurd hfault (by
        simp [faults_none hnone])⟩
    · rw [h] at hround
      cases hlines : lines (file.content.drop offset) with
      | nil =>
        rw [hlines] at hround
        obtain rfl := hround
        refine ⟨fun _ => ?_, fun _ => rfl⟩
        exact .ends rfl hbefore rfl hreadable rfl rfl (hreadable.linesRead_all hrest hlines before)
      | cons line more =>
        rw [hlines] at hround
        obtain rfl := hround
        exact ⟨fun _ => hreadable.readsOn hbefore hlines, fun _ => rfl⟩
  | cons next rest ih =>
    have hentries : presentEntries (file :: younger) =
        file.entry :: (next :: rest).map (·.entry) := by
      rw [presentEntries, List.filter_cons_of_pos hreadable.present, hrest]
      rfl
    rw [hentries] at h
    obtain ⟨hfault, hfails⟩ | ⟨-, stale', hround⟩ :=
      readLogfiles_cons hencoding hreadable hoffset faults stale ((next :: rest).map (·.entry))
    · rw [h] at hfails
      exact ⟨fun hsucceeds => by simp [hfails] at hsucceeds, fun hnone => absurd hfault (by
        simp [faults_none hnone])⟩
    · rw [h] at hround
      cases hlines : lines (file.content.drop offset) with
      | cons line more =>
        rw [hlines] at hround
        obtain rfl := hround
        exact ⟨fun _ => hreadable.readsOn hbefore hlines, fun _ => rfl⟩
      | nil =>
        rw [hlines] at hround
        obtain ⟨mid, younger', hyounger, hmid, hpresent, hrest'⟩ :=
          List.filter_eq_cons_iff.mp hrest
        have hmid : ∀ file ∈ mid, file.present = false := by simpa using hmid
        have hfiles : before ++ file :: younger = (before ++ file :: mid) ++ next :: younger' := by
          rw [hyounger, List.append_assoc, List.cons_append]
        rw [hfiles, ← hreadable.linesRead_next hyounger hmid hlines before]
        have hentries' : presentEntries (next :: younger') = (next :: rest).map (·.entry) := by
          rw [presentEntries, List.filter_cons_of_pos hpresent, hrest']
        have hround' : readLogfiles item false faults.tail stale'
            (presentEntries (next :: younger')) { lastlogsize := 0, mtime := file.mtime } =
            result := by
          rw [hentries', hround]
          rfl
        obtain ⟨hreads, hsucceeds⟩ := ih (hreadable.next hyounger hpresent)
          (hreadable.before_next hbefore hyounger hpresent) (ite_self 0) hround' hrest'
        exact ⟨hreads, fun hnone => hsucceeds fun fault hmem =>
          hnone fault (List.mem_of_mem_tail hmem)⟩

/-! ### The file of the position -/

/-- Where a list can be split that is split somewhere else. -/
theorem split_cases {α : Type*} {front back before younger : List α} {a b : α}
    (h : front ++ a :: back = before ++ b :: younger) :
  (∃ mid, before = front ++ a :: mid ∧ back = mid ++ b :: younger) ∨
    (front = before ∧ a = b ∧ back = younger) ∨
    ∃ mid, front = before ++ b :: mid ∧ younger = mid ++ a :: back
  := by
  obtain ⟨mid, hbefore, hmid⟩ | ⟨mid, hfront, hmid⟩ := List.append_eq_append_iff.mp h
  · cases mid with
    | nil =>
      obtain ⟨rfl, rfl⟩ := List.cons.inj hmid
      exact Or.inr (Or.inl ⟨by simpa using hbefore.symm, rfl, rfl⟩)
    | cons c mid =>
      obtain ⟨rfl, hback⟩ := List.cons.inj hmid
      exact Or.inl ⟨mid, hbefore, hback⟩
  · cases mid with
    | nil =>
      obtain ⟨rfl, rfl⟩ := List.cons.inj hmid
      exact Or.inr (Or.inl ⟨by simpa using hfront, rfl, rfl⟩)
    | cons c mid =>
      obtain ⟨rfl, hyounger⟩ := List.cons.inj hmid
      exact Or.inr (Or.inr ⟨mid, hfront, hyounger⟩)

namespace LogrtRun

variable {item : LogrtItem} {s s' : LogrtRun} {before younger : List LogFile} {file : LogFile}

theorem change_spec {index : ℕ} {f : LogFile → LogFile} (h : s.change index f = some s') :
  ∃ front changed back, s.files = front ++ changed :: back ∧ front.length = index ∧
    changed.present = true ∧ s' = { s with files := front ++ f changed :: back }
  := by
  rw [change] at h
  split at h
  · contradiction
  · case h_2 changed hchanged =>
    split at h
    · case isTrue hpresent =>
      obtain rfl := Option.some.inj h
      obtain ⟨hlt, hget⟩ := List.getElem?_eq_some_iff.mp hchanged
      refine ⟨s.files.take index, changed, s.files.drop (index + 1), ?_, ?_, hpresent, ?_⟩
      · rw [← hget, ← List.drop_eq_getElem_cons hlt, List.take_append_drop]
      · rw [List.length_take]
        omega
      · rw [List.set_eq_take_append_cons_drop, if_pos hlt]
    · contradiction

/-- The position is in a file: the older files and the file up to the offset have been
read, and what has been removed has been read. -/
structure Located (item : LogrtItem) (s : LogrtRun) (before : List LogFile) (file : LogFile)
    (younger : List LogFile) : Prop where
  files : s.files = before ++ file :: younger
  before_lt : ∀ older ∈ before, older.mtime < s.pos.mtime
  mtime_le : s.pos.mtime ≤ file.mtime
  offset_le : s.pos.lastlogsize ≤ file.content.length
  complete : Complete (file.content.take s.pos.lastlogsize)
  values : s.values = (linesRead before file s.pos.lastlogsize).map item.valueOf
  removed : file.present = false → lines (file.content.drop s.pos.lastlogsize) = []
  empty : ∀ other ∈ younger, other.present = false → other.content = []

/-- Nothing has happened yet, or the position is in a file. -/
def Inv (item : LogrtItem) (s : LogrtRun) : Prop :=
  s = start ∨ ∃ before file younger, s.Located item before file younger

theorem Located.lines_split (h : s.Located item before file younger) :
  lines file.content = lines (file.content.take s.pos.lastlogsize) ++
    lines (file.content.drop s.pos.lastlogsize)
  := by
  rw [← lines_append h.complete, List.take_append_drop]

/-- The values are the first lines of the files. -/
theorem Inv.inStep (h : s.Inv item) :
  s.InStep item s.values
  := by
  obtain rfl | ⟨before, file, younger, h⟩ := h
  · exact List.nil_prefix
  · refine ⟨(lines (file.content.drop s.pos.lastlogsize) ++ linesOf younger).map item.valueOf, ?_⟩
    rw [h.values, ← List.map_append, h.files, linesOf_append, linesOf_cons, h.lines_split]
    simp only [linesRead, List.append_assoc]

/-- A file with the same lines and a time that is not before the position takes the place of
another one. -/
theorem linesOf_set {front back : List LogFile} {changed changed' : LogFile}
    (h : lines changed'.content = lines changed.content) :
  linesOf (front ++ changed' :: back) = linesOf (front ++ changed :: back)
  := by
  rw [linesOf_append, linesOf_append, linesOf_cons, linesOf_cons, h]

/-- A file before the position keeps its text and time. -/
theorem Located.set_before (h : s.Located item before file younger) {front mid : List LogFile}
    {changed changed' : LogFile} (hbefore : before = front ++ changed :: mid)
    (hmtime : changed'.mtime < s.pos.mtime) (hcontent : changed'.content = changed.content) :
  Located item { s with files := front ++ changed' :: (mid ++ file :: younger) }
    (front ++ changed' :: mid) file younger
  := by
  refine ⟨by simp, ?_, h.mtime_le, h.offset_le, h.complete, ?_, h.removed, h.empty⟩
  · intro older hmem
    have hlt := h.before_lt
    rw [hbefore] at hlt
    simp only [List.mem_append, List.mem_cons] at hmem hlt
    obtain hmem | rfl | hmem := hmem
    · exact hlt older (Or.inl hmem)
    · exact hmtime
    · exact hlt older (Or.inr (Or.inr hmem))
  · rw [h.values, linesRead, linesRead, hbefore, linesOf_set (congrArg lines hcontent)]

/-- The file of the position may grow. -/
theorem Located.set_file (h : s.Located item before file younger) {file' : LogFile}
    (hmtime : s.pos.mtime ≤ file'.mtime) {text : Bytes}
    (hcontent : file'.content = file.content ++ text)
    (hremoved : file'.present = false → lines (file'.content.drop s.pos.lastlogsize) = []) :
  Located item { s with files := before ++ file' :: younger } before file' younger
  := by
  have htake : file'.content.take s.pos.lastlogsize = file.content.take s.pos.lastlogsize := by
    rw [hcontent, List.take_append_of_le_length h.offset_le]
  refine ⟨rfl, h.before_lt, hmtime, ?_, ?_, ?_, hremoved, h.empty⟩
  · have := h.offset_le
    simp only [hcontent, List.length_append]
    omega
  · simp only [htake]
    exact h.complete
  · rw [h.values, linesRead, linesRead, htake]

/-- A younger file may change, but it is only removed when it is empty. -/
theorem Located.set_younger (h : s.Located item before file younger) {mid back : List LogFile}
    {changed changed' : LogFile} (hyounger : younger = mid ++ changed :: back)
    (hempty : changed'.present = false → changed'.content = []) :
  Located item { s with files := (before ++ file :: mid) ++ changed' :: back } before file
    (mid ++ changed' :: back)
  := by
  refine ⟨by simp, h.before_lt, h.mtime_le, h.offset_le, h.complete, h.values, h.removed, ?_⟩
  intro other hmem
  have hother := h.empty
  rw [hyounger] at hother
  simp only [List.mem_append, List.mem_cons] at hmem hother
  obtain hmem | rfl | hmem := hmem
  · exact hother other (Or.inl hmem)
  · exact hempty
  · exact hother other (Or.inr (Or.inr hmem))

/-! ### Changes of the files -/

/-- A change of a file keeps the position located, when a file before the position keeps its
text and time, the file of the position grows, and a younger file is only removed empty. -/
theorem Inv.change (h : s.Inv item) {index : ℕ} {f : LogFile → LogFile}
    (hs' : s.change index f = some s')
    (hbefore : ∀ changed ∈ s.files[index]?, changed.mtime < s.pos.mtime →
      (f changed).mtime < s.pos.mtime ∧ (f changed).content = changed.content)
    (hfile : ∀ changed ∈ s.files[index]?, s.pos.mtime ≤ changed.mtime →
      s.pos.mtime ≤ (f changed).mtime ∧
        ∃ text, (f changed).content = changed.content ++ text)
    (hremoved : ∀ before file younger, s.Located item before file younger →
      before.length = index → (f file).present = false →
      lines ((f file).content.drop s.pos.lastlogsize) = [])
    (hempty : ∀ before file mid changed back, s.Located item before file (mid ++ changed :: back) →
      before.length + 1 + mid.length = index → (f changed).present = false →
      (f changed).content = []) :
  s'.Inv item
  := by
  obtain rfl | ⟨before, file, younger, hlocated⟩ := h
  · contradiction
  · obtain ⟨front, changed, back, hfiles, rfl, -, rfl⟩ := change_spec hs'
    have hget : changed ∈ s.files[front.length]? := by
      rw [hfiles]
      simp
    right
    obtain ⟨mid, hmid, rfl⟩ | ⟨rfl, rfl, rfl⟩ | ⟨mid, rfl, hmid⟩ :=
      split_cases (hfiles.symm.trans hlocated.files)
    · have hlt := hlocated.before_lt changed (by rw [hmid]; simp)
      obtain ⟨hmtime, hcontent⟩ := hbefore changed hget hlt
      exact ⟨_, _, _, hlocated.set_before hmid hmtime hcontent⟩
    · obtain ⟨hmtime, text, hcontent⟩ := hfile changed hget hlocated.mtime_le
      exact ⟨_, _, _, hlocated.set_file hmtime hcontent (hremoved _ _ _ hlocated rfl)⟩
    · subst hmid
      refine ⟨_, _, _, hlocated.set_younger rfl (hempty _ _ _ _ _ hlocated ?_)⟩
      simp only [List.length_append, List.length_cons]
      omega

theorem Inv.append (h : s.Inv item) {index : ℕ} {text : Bytes} {now : ℤ}
    (hsafe : s.Safe (.append index text now))
    (hs' : s.change index (·.append text now) = some s') :
  s'.Inv item
  := by
  have hpresent : ∀ changed, s.files[index]? = some changed →
      (changed.append text now).present = true := by
    intro changed hchanged
    obtain ⟨front, changed', back, hfiles, rfl, hpresent, -⟩ := change_spec hs'
    rw [hfiles] at hchanged
    obtain rfl : changed' = changed := by simpa using hchanged
    exact hpresent
  apply h.change hs'
  · intro changed hchanged hlt
    have := hsafe.2 changed hchanged
    omega
  · exact fun changed _ _ => ⟨hsafe.1, text, rfl⟩
  · rintro before file younger hlocated rfl hremoved
    rw [hpresent file (by rw [hlocated.files]; simp)] at hremoved
    contradiction
  · rintro before file mid changed back hlocated rfl hremoved
    have hget : s.files[before.length + 1 + mid.length]? = some changed := by
      rw [hlocated.files, Nat.add_assoc, List.getElem?_append_right (Nat.le_add_right _ _),
        Nat.add_sub_cancel_left, Nat.add_comm 1]
      simp
    rw [hpresent changed hget] at hremoved
    contradiction

theorem Inv.rename (h : s.Inv item) {index : ℕ} {name : Bytes}
    (hs' : s.change index (·.rename name) = some s') :
  s'.Inv item
  := by
  apply h.change hs'
  · exact fun changed _ hlt => ⟨hlt, rfl⟩
  · exact fun changed _ hle => ⟨hle, [], (List.append_nil _).symm⟩
  · exact fun before file younger hlocated _ hremoved => hlocated.removed hremoved
  · exact fun before file mid changed back hlocated _ hremoved =>
      hlocated.empty changed (by simp) hremoved

/-- A file that has been read may be removed. -/
theorem Inv.remove (h : s.Inv item) {index : ℕ}
    (hread : (linesOf (s.files.take (index + 1))).length ≤ s.values.length)
    (hs' : s.change index ({ · with present := false }) = some s') :
  s'.Inv item
  := by
  apply h.change hs'
  · exact fun changed _ hlt => ⟨hlt, rfl⟩
  · exact fun changed _ hle => ⟨hle, [], (List.append_nil _).symm⟩
  · rintro before file younger hlocated rfl -
    have htake : s.files.take (before.length + 1) = before ++ [file] := by
      rw [hlocated.files, List.take_length_add_append]
      rfl
    rw [htake, linesOf_append, linesOf_cons, hlocated.lines_split, hlocated.values,
      linesRead] at hread
    simp only [List.length_append, List.length_map] at hread
    apply List.length_eq_zero_iff.mp
    change (lines (file.content.drop s.pos.lastlogsize)).length = 0
    omega
  · rintro before file mid changed back hlocated rfl -
    have htake : s.files.take (before.length + 1 + mid.length + 1)
        = before ++ file :: (mid ++ [changed]) := by
      rw [hlocated.files, Nat.add_assoc, Nat.add_assoc, List.take_length_add_append,
        Nat.add_comm 1, List.take_succ_cons, List.take_length_add_append]
      rfl
    rw [htake, linesOf_append, linesOf_cons, hlocated.lines_split, linesOf_append, linesOf_cons,
      hlocated.values, linesRead] at hread
    simp only [List.length_append, List.length_map] at hread
    have hnone : lines changed.content = [] := by
      apply List.length_eq_zero_iff.mp
      omega
    have hflat := flatten_lines changed.content
    rw [hnone] at hflat
    exact hflat.symm

theorem Inv.create (h : s.Inv item) (name : Bytes) {now : ℤ} (hfirst : s.files = [] → 0 ≤ now) :
  Inv item { s with files := s.files ++ [.create name now] }
  := by
  right
  obtain rfl | ⟨before, file, younger, h⟩ := h
  · refine ⟨[], .create name now, [], rfl, by simp, hfirst rfl, Nat.zero_le _, ?_, rfl, ?_, ?_⟩
    · intro c hc
      contradiction
    · intro hremoved
      contradiction
    · simp
  · refine ⟨before, file, younger ++ [.create name now], ?_, h.before_lt, h.mtime_le, h.offset_le,
      h.complete, h.values, h.removed, ?_⟩
    · simp [h.files]
    · intro other hmem hremoved
      obtain hmem | hmem := List.mem_append.mp hmem
      · exact h.empty other hmem hremoved
      · rw [List.mem_singleton.mp hmem]
        rfl

/-! ### The files that a call reads -/

theorem presentEntries_append (front back : List LogFile) :
  presentEntries (front ++ back) = presentEntries front ++ presentEntries back
  := by
  rw [presentEntries, List.filter_append, List.map_append]
  rfl

theorem presentEntries_of_absent {files : List LogFile}
    (h : ∀ file ∈ files, file.present = false) :
  presentEntries files = []
  := by
  rw [presentEntries, List.filter_eq_nil_iff.mpr, List.map_nil]
  simpa using h

theorem presentEntries_cons {file : LogFile} (h : file.present = true) (files : List LogFile) :
  presentEntries (file :: files) = file.entry :: presentEntries files
  := by
  rw [presentEntries, List.filter_cons_of_pos h]
  rfl

theorem presentEntries_sorted {files : List LogFile}
    (h : files.Pairwise fun older file => file.present = true → older.mtime < file.mtime) :
  (presentEntries files).Pairwise (·.mtime < ·.mtime)
  := by
  refine List.Pairwise.map _ (fun _ _ => id) ((h.filter _).imp_of_mem ?_)
  intro older file _ hmem hlt
  exact hlt (List.mem_filter.mp hmem).2

theorem Located.unreadFiles_eq (h : s.Located item before file younger) :
  s.unreadFiles = file :: younger
  := by
  have hdrop : before.dropWhile (·.mtime < s.pos.mtime) = [] := by
    rw [List.dropWhile_eq_nil_iff]
    simpa using h.before_lt
  have hstay : (file :: younger).dropWhile (·.mtime < s.pos.mtime) = file :: younger := by
    apply List.dropWhile_cons_of_neg
    simpa using h.mtime_le
  rw [unreadFiles, h.files, List.dropWhile_append, hdrop]
  exact hstay

/-- The list of files begins where the position is. -/
theorem Located.filesFrom_eq (h : s.Located item before file younger) (horder : s.InOrder)
    {logfiles : List DirEntry} (hperm : logfiles.Perm s.inDirectory)
    (hsorted : logfiles.Pairwise (·.mtime < ·.mtime))
    (hfound : presentEntries (file :: younger) ≠ []) :
  filesFrom logfiles s.pos.mtime false = presentEntries (file :: younger)
  := by
  rw [InOrder, h.unreadFiles_eq] at horder
  have hentries : s.inDirectory = presentEntries before ++ presentEntries (file :: younger) := by
    rw [← presentEntries_append, ← h.files]
    rfl
  have hbefore : (presentEntries before).filter (s.pos.mtime ≤ ·.mtime) = [] := by
    rw [List.filter_eq_nil_iff]
    intro entry hmem
    obtain ⟨older, holder, rfl⟩ := List.mem_map.mp hmem
    have hlt : older.entry.mtime < s.pos.mtime :=
      h.before_lt older (List.mem_filter.mp holder).1
    simpa using hlt
  have hyounger : (presentEntries (file :: younger)).filter (s.pos.mtime ≤ ·.mtime)
      = presentEntries (file :: younger) := by
    rw [List.filter_eq_self]
    intro entry hmem
    rw [decide_eq_true_eq]
    obtain ⟨other, hother, rfl⟩ := List.mem_map.mp hmem
    obtain ⟨hother, hpresent⟩ := List.mem_filter.mp hother
    obtain rfl | hother := List.mem_cons.mp hother
    · exact h.mtime_le
    · have hlt := (List.pairwise_cons.mp horder).1 other hother hpresent
      exact h.mtime_le.trans hlt.le
  have hperm' := hperm.filter fun file => decide (s.pos.mtime ≤ file.mtime)
  rw [hentries, List.filter_append, hbefore, hyounger, List.nil_append] at hperm'
  have heq : logfiles.filter (s.pos.mtime ≤ ·.mtime) = presentEntries (file :: younger) := by
    have hantisymm : ∀ a b : DirEntry, a ∈ logfiles.filter (s.pos.mtime ≤ ·.mtime) →
        b ∈ presentEntries (file :: younger) → a.mtime < b.mtime → b.mtime < a.mtime → a = b := by
      intro a b _ _ hab hba
      omega
    exact List.Perm.eq_of_pairwise hantisymm (hsorted.filter _) (presentEntries_sorted horder)
      hperm'
  rw [filesFrom]
  simp only [Bool.false_eq_true, if_false]
  rw [dropWhile_sorted hsorted, heq, skipSame_eq (presentEntries_sorted horder)]
  split
  · contradiction
  · rfl

/-- The file of the position can be read from the offset on, or a younger one from its
beginning. -/
theorem Located.exists_readable (h : s.Located item before file younger)
    {listing : List DirEntry} (hfinds : s.Finds item listing) {accepted : Bool}
    {call : LogrtCall} (hsafe : s.Safe (.check call accepted)) :
  s.inDirectory = [] ∨ ∃ before' file' younger' offset,
    s.files = before' ++ file' :: younger' ∧ Readable file' younger' offset ∧
      (∀ older ∈ before', older.mtime < file'.mtime) ∧
      (if file'.content.length < s.pos.lastlogsize then 0 else s.pos.lastlogsize) = offset ∧
      presentEntries (file :: younger) = presentEntries (file' :: younger') ∧
      linesRead before' file' offset = linesRead before file s.pos.lastlogsize
  := by
  obtain ⟨horder, hfile, hreturns, -⟩ := hsafe
  rw [InOrder, h.unreadFiles_eq] at horder
  rw [FindsFile, h.unreadFiles_eq] at hfile
  have hmem : ∀ other ∈ file :: younger, other.present = true → other.entry ∈ s.inDirectory := by
    intro other hother hpresent
    apply List.mem_map_of_mem
    apply List.mem_filter.mpr ⟨?_, hpresent⟩
    rw [h.files]
    exact List.mem_append_right _ hother
  have hbefore : ∀ older ∈ before, older.mtime < file.mtime := fun older holder =>
    (h.before_lt older holder).trans_le h.mtime_le
  have hfollowed : Followed file younger s.pos.lastlogsize :=
    { offset_le := h.offset_le
      complete_take := h.complete
      ordered := horder
      complete := fun other hother hpresent => hfinds.complete _ (hmem other hother hpresent)
      fits := fun other hother hpresent => hfinds.fits _ (hmem other hother hpresent)
      noLoneReturn := fun other hother hpresent => hreturns _ (hmem other hother hpresent)
      empty := h.empty }
  cases hpresent : file.present with
  | true =>
    right
    refine ⟨before, file, younger, s.pos.lastlogsize, h.files, ⟨hfollowed, hpresent⟩, hbefore,
      ?_, rfl, rfl⟩
    exact if_neg (Nat.not_lt.mpr h.offset_le)
  | false =>
    obtain hnone | ⟨next, hnext, hoffset⟩ := hfile file rfl hpresent
    · exact Or.inl hnone
    · right
      rw [List.find?_cons_of_neg (by simp [hpresent])] at hnext
      obtain ⟨hnextpresent, mid, younger', hyounger, hmid⟩ := List.find?_eq_some_iff_append.mp hnext
      have hmid : ∀ other ∈ mid, other.present = false := by simpa using hmid
      refine ⟨before ++ file :: mid, next, younger', 0, ?_, hfollowed.next hyounger hnextpresent,
        hfollowed.before_next hbefore hyounger hnextpresent, ?_, ?_,
        hfollowed.linesRead_next hyounger hmid (h.removed hpresent) before⟩
      · rw [h.files, hyounger, List.append_assoc, List.cons_append]
      · split <;> omega
      · have habsent : presentEntries (file :: mid) = [] :=
          presentEntries_of_absent (List.forall_mem_cons.mpr ⟨hpresent, hmid⟩)
        rw [hyounger, ← List.cons_append, presentEntries_append, habsent, List.nil_append]

/-! ### Calls -/

theorem result_eq {call : LogrtCall} {listing : List DirEntry} (hcall : call.listing = some listing)
    {logfiles : List DirEntry}
    (hlogfiles : ((listing.filter fun file => file.regular && item.isMatch file.name).map
      (·.stat)).foldl (fun logfiles file => addLogfile file logfiles) [] = logfiles) :
  s.result item call =
    readLogfiles item false call.faults call.stale (filesFrom logfiles s.pos.mtime false) s.pos
  := by
  rw [result, processLogrt, hcall]
  simp only [hlogfiles]

/-- Times that an `int` can hold are kept. -/
theorem Finds.stat_eq {listing : List DirEntry} (h : s.Finds item listing)
    (hfits : ∀ file ∈ s.inDirectory, CInt.Fits file.mtime) :
  (listing.filter fun file => file.regular && item.isMatch file.name).map (·.stat) =
    listing.filter fun file => file.regular && item.isMatch file.name
  := by
  conv_rhs => rw [← List.map_id (listing.filter _)]
  apply List.map_congr_left
  intro file hmem
  rw [id, DirEntry.stat, CInt.wrap_of_fits (hfits file (h.perm.mem_iff.mp hmem))]

/-- Without files in the directory a call fails. -/
theorem result_nil {call : LogrtCall} (hallowed : ∀ listing ∈ call.listing, s.Finds item listing)
    (hnone : s.inDirectory = []) :
  (s.result item call).succeeds = false
  := by
  cases hcall : call.listing with
  | none => rw [result, processLogrt, hcall]
  | some listing =>
    have hperm := (hallowed listing hcall).perm
    rw [hnone] at hperm
    rw [result, processLogrt, hcall]
    simp only [hperm.eq_nil, List.map_nil]
    rfl

/-- A call that succeeds reads on, and a call without a fault succeeds. -/
theorem Located.result_spec (h : s.Located item before file younger)
    (hencoding : lineEnd item.encoding = ([carriageReturn], [newline])) {call : LogrtCall}
    {accepted : Bool} (hallowed : s.Allowed item (.check call accepted))
    (hsafe : s.Safe (.check call accepted)) :
  ((s.result item call).succeeds = true →
      ReadsOn item s.files (linesRead before file s.pos.lastlogsize) (s.result item call)) ∧
    (call.listing ≠ none → (∀ fault ∈ call.faults, fault = none) → s.inDirectory ≠ [] →
      (s.result item call).succeeds = true)
  := by
  cases hcall : call.listing with
  | none =>
    refine ⟨fun hsucceeds => ?_, fun hnone => absurd rfl hnone⟩
    simp [result, processLogrt, hcall] at hsucceeds
  | some listing =>
    have hfinds := hallowed listing hcall
    obtain hnone | ⟨before', file', younger', offset, hfiles, hreadable, hbefore, hoffset, hentries,
      hread⟩ := h.exists_readable hfinds hsafe
    · have hfails := result_nil hallowed hnone
      exact ⟨fun hsucceeds => by simp [hfails] at hsucceeds, fun _ _ hsome => absurd hnone hsome⟩
    · have hnodup := (hfinds.perm.map (·.mtime)).nodup_iff.mpr hfinds.distinct
      obtain ⟨hperm, hsorted⟩ := foldl_addLogfile List.Pairwise.nil
        (by rw [List.append_nil]; exact hnodup)
      rw [List.append_nil] at hperm
      have hfound : presentEntries (file :: younger) ≠ [] := by
        rw [hentries, presentEntries_cons hreadable.present]
        exact List.cons_ne_nil _ _
      have hfrom := h.filesFrom_eq hsafe.1 (hperm.trans hfinds.perm) hsorted hfound
      obtain ⟨hreads, hsucceeds⟩ := readLogfiles_spec hencoding hreadable hbefore hoffset rfl
      rw [result_eq hcall (congrArg _ (hfinds.stat_eq hsafe.2.2.2)), hfrom, hentries, hfiles,
        ← hread]
      exact ⟨hreads, fun _ hnofault _ => hsucceeds hnofault⟩

/-- A position in a file that can be read is located. -/
theorem located_of_readable {pos : LogPosition} {values : List Bytes}
    (hfiles : s.files = before ++ file :: younger)
    (hbefore : ∀ older ∈ before, older.mtime < pos.mtime) (hmtime : pos.mtime = file.mtime)
    (hreadable : Readable file younger pos.lastlogsize)
    (hvalues : values = (linesRead before file pos.lastlogsize).map item.valueOf) :
  Located item { s with pos := pos, values := values } before file younger
  where
    files := hfiles
    before_lt := hbefore
    mtime_le := hmtime.le
    offset_le := hreadable.offset_le
    complete := hreadable.complete_take
    values := hvalues
    removed := fun hremoved => by simp [hreadable.present] at hremoved
    empty := hreadable.empty

/-- Nothing is stored when a call fails. -/
theorem store_of_fails {result : LogrtResult} (h : result.succeeds = false) (accepted : Bool) :
  s.store result accepted = s
  := by
  rw [store, if_neg (by simp [h])]

theorem Inv.check (h : s.Inv item)
    (hencoding : lineEnd item.encoding = ([carriageReturn], [newline])) {call : LogrtCall}
    {accepted : Bool} (hallowed : s.Allowed item (.check call accepted))
    (hsafe : s.Safe (.check call accepted)) :
  (s.store (s.result item call) accepted).Inv item
  := by
  cases hsucceeds : (s.result item call).succeeds with
  | false =>
    rw [store_of_fails hsucceeds]
    exact h
  | true =>
    obtain rfl | ⟨before, file, younger, hlocated⟩ := h
    · rw [result_nil hallowed rfl] at hsucceeds
      contradiction
    · rw [store, if_pos hsucceeds]
      have hreads := (hlocated.result_spec hencoding hallowed hsafe).1 hsucceeds
      cases hreads with
      | ends hfiles hbefore hmtime hreadable hvalue hread _ =>
        rw [hvalue]
        refine Or.inr ⟨_, _, _, located_of_readable hfiles hbefore hmtime hreadable ?_⟩
        rw [hlocated.values, hread]
      | reads hfiles hbefore hmtime hreadable hvalue hread =>
        rw [hvalue]
        cases accepted with
        | false => exact Or.inr ⟨_, _, _, hlocated⟩
        | true =>
          refine Or.inr ⟨_, _, _, located_of_readable hfiles hbefore hmtime hreadable ?_⟩
          rw [hlocated.values, hread, List.map_append]
          rfl

/-- Every action that is allowed and meets the condition keeps the position located. -/
theorem Inv.step (h : s.Inv item)
    (hencoding : lineEnd item.encoding = ([carriageReturn], [newline])) {action : LogrtAction}
    (hallowed : s.Allowed item action) (hsafe : s.Safe action)
    (hstep : s.step item action = some s') :
  s'.Inv item
  := by
  cases action with
  | append index text now => exact h.append hsafe hstep
  | rename index name => exact h.rename hstep
  | create name now =>
    obtain rfl := Option.some.inj hstep
    exact h.create name hsafe
  | remove index => exact h.remove hallowed hstep
  | check call accepted =>
    obtain rfl := Option.some.inj hstep
    exact h.check hencoding hallowed hsafe

/-! ### Lines are read once -/

/-- What a call should do: when it finds nothing to read, everything has been read; the value
is that of the next line; and without a fault it does not fail when there is a file. -/
structure Answers (item : LogrtItem) (s : LogrtRun) (call : LogrtCall) : Prop where
  ends : (s.result item call).succeeds = true → (s.result item call).value = none →
    s.values = (linesOf s.files).map item.valueOf
  reads : (s.result item call).succeeds = true → ∀ value ∈ (s.result item call).value,
    s.InStep item (s.values ++ [value])
  succeeds : call.listing ≠ none → (∀ fault ∈ call.faults, fault = none) → s.inDirectory ≠ [] →
    (s.result item call).succeeds = true

/-- The stored values are the first lines of the files, a call finds the next one, and a call
that fails changes nothing. -/
def ReadsLines (item : LogrtItem) (s : LogrtRun) : Prop :=
  s.InStep item s.values ∧
    (∀ call accepted, s.Allowed item (.check call accepted) → s.Safe (.check call accepted) →
      s.Answers item call) ∧
    ∀ call accepted, (s.result item call).succeeds = false →
      s.step item (.check call accepted) = some s

theorem Inv.answers (h : s.Inv item)
    (hencoding : lineEnd item.encoding = ([carriageReturn], [newline])) {call : LogrtCall}
    {accepted : Bool} (hallowed : s.Allowed item (.check call accepted))
    (hsafe : s.Safe (.check call accepted)) :
  s.Answers item call
  := by
  obtain rfl | ⟨before, file, younger, hlocated⟩ := h
  · have hnone := result_nil hallowed rfl
    exact ⟨fun hsome => by simp [hnone] at hsome, fun hsome => by simp [hnone] at hsome,
      fun _ _ hfiles => absurd rfl hfiles⟩
  · obtain ⟨hreads, hsucceeds⟩ := hlocated.result_spec hencoding hallowed hsafe
    refine ⟨fun hsome hnone => ?_, fun hsome value hvalue => ?_, hsucceeds⟩
    · cases hreads hsome with
      | reads _ _ _ _ hvalue _ => simp [hnone] at hvalue
      | ends _ _ _ _ _ _ hall => rw [hlocated.values, hall]
    · cases hreads hsome with
      | ends _ _ _ _ hnone _ _ => simp [hnone] at hvalue
      | reads hfiles hbefore hmtime hreadable hvalue' hread =>
        have hnext : Inv item { s with
            pos := (s.result item call).pos, values := s.values ++ [value] } := by
          refine Or.inr ⟨_, _, _, located_of_readable hfiles hbefore hmtime hreadable ?_⟩
          obtain rfl := Option.some.inj (hvalue.symm.trans hvalue')
          rw [hlocated.values, hread, List.map_append]
          rfl
        exact hnext.inStep

end LogrtRun

open LogrtRun

/-! ### Samples -/

/-- An item for all files, in a single-byte encoding. -/
def sampleLogrtItem : LogrtItem where
  isMatch _ := true
  encoding := []
  convertToUtf8 := id

/-- A call that finds files, each with its time and contents. -/
def sampleLogrtCheck (files : List (Bytes × ℤ × Bytes)) : LogrtAction :=
  .check
    { listing := some (files.map fun (name, mtime, content) => ⟨name, true, mtime, content⟩)
      faults := []
      stale := [] } true

/-- A line is written to a file and read. Before the second line of the file is read, the file is
renamed and a new one is created and written to. -/
def rotatingActions : List LogrtAction :=
  let log := bytes "log".toList
  let old := bytes "log.1".toList
  let one := bytes "ab\n".toList
  let two := bytes "ab\ncd\n".toList
  let new := bytes "e\n".toList
  [.create log 10, .append 0 one 10, sampleLogrtCheck [(log, 10, one)], .append 0 (two.drop 3) 20,
    .rename 0 old, .create log 30, .append 1 new 30,
    sampleLogrtCheck [(log, 30, new), (old, 20, two)],
    sampleLogrtCheck [(log, 30, new), (old, 20, two)],
    sampleLogrtCheck [(log, 30, new), (old, 20, two)]]

/-- A file is removed once it has been read, and the next one is read from the same offset. -/
def skippingActions : List LogrtAction :=
  let old := bytes "aa\n".toList
  let new := bytes "b\nccccc\n".toList
  [.create (bytes "old".toList) 10, .append 0 old 10,
    sampleLogrtCheck [(bytes "old".toList, 10, old)], .remove 0, .create (bytes "new".toList) 20,
    .append 1 new 20, sampleLogrtCheck [(bytes "new".toList, 20, new)]]

/-- Two lines are lost, up to the offset that is left from the removed file. -/
theorem logrt_skips :
  ∃ s, Run (StepOf (LogrtRun.step sampleLogrtItem))
      (fun s action => s.Allowed sampleLogrtItem action) start skippingActions s ∧
    s.values = [bytes "aa".toList, bytes "cccc".toList] ∧
    ¬ s.InStep sampleLogrtItem s.values
  := by
  have hsome : (execute (LogrtRun.step sampleLogrtItem) start skippingActions).isSome = true := by
    decide +kernel
  obtain ⟨s, hs⟩ := Option.isSome_iff_exists.mp hsome
  refine ⟨s, Run.of_execute hs (by decide +kernel), ?_⟩
  have hvalues : ∀ s ∈ execute (LogrtRun.step sampleLogrtItem) start skippingActions,
      s.values = [bytes "aa".toList, bytes "cccc".toList] ∧
        ¬ s.values <+: (linesOf s.files).map sampleLogrtItem.valueOf := by
    decide +kernel
  exact hvalues s hs

/-- When no file before the position is appended to, the times of the files follow their age,
a file is read on from where it was left, and carriage returns are only in front of newlines,
the values are the lines of the files, each once and in its turn. -/
theorem logrt_reads {item : LogrtItem}
    (hencoding : lineEnd item.encoding = ([carriageReturn], [newline]))
    {actions : List LogrtAction} {s : LogrtRun}
    (run : Run (StepOf (LogrtRun.step item))
      (fun s action => s.Allowed item action ∧ s.Safe action) start actions s) :
  s.ReadsLines item
  := by
  have hinv : s.Inv item := run.invariant (Or.inl rfl) fun s action s' h hmeets hstep =>
    h.step hencoding hmeets.1 hmeets.2 hstep
  refine ⟨hinv.inStep, fun call accepted hallowed hsafe => hinv.answers hencoding hallowed hsafe,
    fun call accepted hfails => ?_⟩
  rw [LogrtRun.step, store_of_fails hfails]

theorem logrt_reads_sample :
  ∃ s, Run (StepOf (LogrtRun.step sampleLogrtItem))
      (fun s action => s.Allowed sampleLogrtItem action ∧ s.Safe action) start rotatingActions s ∧
    s.values = [bytes "ab".toList, bytes "cd".toList, bytes "e".toList] ∧
    s.pos = ⟨2, 30⟩ ∧ s.ReadsLines sampleLogrtItem
  := by
  have hsome : (execute (LogrtRun.step sampleLogrtItem) start rotatingActions).isSome = true := by
    decide +kernel
  obtain ⟨s, hs⟩ := Option.isSome_iff_exists.mp hsome
  have hvalues : ∀ s ∈ execute (LogrtRun.step sampleLogrtItem) start rotatingActions,
      s.values = [bytes "ab".toList, bytes "cd".toList, bytes "e".toList] ∧ s.pos = ⟨2, 30⟩ := by
    decide +kernel
  have run : Run (StepOf (LogrtRun.step sampleLogrtItem))
      (fun s action => s.Allowed sampleLogrtItem action ∧ s.Safe action) start rotatingActions s :=
    Run.of_execute hs (by decide +kernel)
  exact ⟨s, run, (hvalues s hs).1, (hvalues s hs).2, logrt_reads (by decide +kernel) run⟩

end Agent
