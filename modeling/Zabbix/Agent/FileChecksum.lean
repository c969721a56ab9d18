import Zabbix.Crypto.Md5
import Zabbix.Library.Digits

/-!
# The checksum of a file

The item `vfs.file.md5sum`. The file is read in pieces of at most 16 kB, in whatever sizes the
reads give them, and the digest is printed two digits at a time into an allocated text.
-/

open Buffer

namespace FileChecksum

/-- `MD5_DIGEST_SIZE`. -/
def digestSize : ℕ := 16

/-- A file that has been opened: whether `CONFIG_TIMEOUT` has passed by then, what its reads
give, each with whether the time has passed behind it, and whether the last read fails instead of
finding the end. -/
structure Opened where
  late : Bool
  reads : List (Bytes × Bool)
  failed : Bool
  length_le : ∀ read ∈ reads, read.1.length ≤ 16 * 1024

/-- The bytes of a file. -/
def Opened.content (file : Opened) : Bytes := (file.reads.map (·.1)).flatten

/-- No step of reading the file fails or comes too late. -/
def Opened.ReadInTime (file : Opened) : Prop :=
  file.late = false ∧ (∀ read ∈ file.reads, read.2 = false) ∧ file.failed = false

/-- What a call meets: the files, and the two arrays as they are before it writes to them. -/
structure Surroundings where
  opened : Bytes → Option Opened
  buf : Bytes
  hashText : Bytes
  length_buf : buf.length = 64
  length_hashText : hashText.length = digestSize * 2 + 1

/-- `SYSINFO_RET_FAIL`, or `SYSINFO_RET_OK` with the text of the result. -/
inductive Result
  | fail
  | ok (text : Bytes)
deriving DecidableEq

/-- The loop over the reads, which ends early when the time has passed. A copy outside of a
buffer has no result. -/
def readLoop (state : Md5.State) : List (Bytes × Bool) → Option (Option Md5.State)
  | [] => some (some state)
  | (chunk, late) :: reads =>
    if late then some none
    else (Md5.md5Append state chunk).bind fun state => readLoop state reads

/-- The loop that prints the bytes of the hash from the `i`-th one on. -/
def printLoop (hashText : Bytes) (i : ℕ) : Bytes → Option Bytes
  | [] => some hashText
  | c :: hash =>
    (write hashText (i * 2) (Digits.hexPadded 2 c.toNat ++ [0])).bind fun hashText =>
      printLoop hashText (i + 1) hash

/-- `VFS_FILE_MD5SUM` behind `zbx_open`. -/
def checksum (env : Surroundings) (file : Opened) : Option Result :=
  if file.late then some .fail
  else
    (readLoop (Md5.md5Init env.buf) file.reads).bind fun
      | none => some .fail
      | some state =>
        (Md5.md5Finish state).bind fun hash =>
          if file.failed then some .fail
          else (printLoop env.hashText 0 hash).map fun hashText => .ok (text hashText)

/-- `VFS_FILE_MD5SUM`. -/
def vfsFileMd5sum (env : Surroundings) (params : List Bytes) : Option Result :=
  if 1 < params.length then some .fail
  else
    match params[0]? with
    | none => some .fail
    | some filename =>
      if filename.isEmpty then some .fail
      else
        match env.opened filename with
        | none => some .fail
        | some file => checksum env file

/-! ### Printing -/

/-- The text of a digest. -/
def digits (hash : Bytes) : Bytes := hash.flatMap fun c => Digits.hexPadded 2 c.toNat

theorem hexPadded_byte (c : UInt8) :
  (Digits.hexPadded 2 c.toNat).length = 2 ∧ ∀ d ∈ Digits.hexPadded 2 c.toNat, d ≠ 0
  := by
  have hlength : (Digits.hex c.toNat).length ≤ 2 := Digits.length_hex_le c.toNat_lt
  refine ⟨Digits.length_hexPadded hlength, fun d hd hzero => ?_⟩
  have hdigit := Digits.isHexDigit_hexPadded 2 c.toNat d hd
  rw [hzero] at hdigit
  contradiction

theorem length_digits (hash : Bytes) :
  (digits hash).length = hash.length * 2
  := by
  induction hash with
  | nil => rfl
  | cons c hash ih =>
    rw [digits, List.flatMap_cons, List.length_append, (hexPadded_byte c).1, ← digits, ih,
      List.length_cons]
    omega

theorem digits_ne_zero (hash : Bytes) :
  ∀ d ∈ digits hash, d ≠ 0
  := by
  intro d hd
  obtain ⟨c, -, hd⟩ := List.mem_flatMap.mp hd
  exact (hexPadded_byte c).2 d hd

/-- The bytes that are still to be printed go behind the text of those before. -/
theorem printLoop_eq {hashText printed hash : Bytes} (hprinted : digits printed <+: hashText)
    (hroom : (printed.length + hash.length) * 2 + 1 ≤ hashText.length)
    (hzero : hash = [] → digits printed ++ [0] <+: hashText) :
  ∃ result, printLoop hashText printed.length hash = some result ∧
    digits (printed ++ hash) ++ [0] <+: result
  := by
  induction hash generalizing hashText printed with
  | nil =>
    rw [List.append_nil]
    exact ⟨hashText, rfl, hzero rfl⟩
  | cons c hash ih =>
    have hlength : (Digits.hexPadded 2 c.toNat ++ [0]).length = 3 := by
      rw [List.length_append, (hexPadded_byte c).1, List.length_singleton]
    obtain ⟨written, hwrite, hwritten, hsame⟩ :=
      write_behind (Digits.hexPadded 2 c.toNat ++ [0]) hprinted (by
        rw [length_digits, hlength]
        rw [List.length_cons] at hroom
        omega)
    have hdigits : digits (printed ++ [c]) = digits printed ++ Digits.hexPadded 2 c.toNat := by
      rw [digits, List.flatMap_append, List.flatMap_singleton, ← digits]
    rw [← List.append_assoc, ← hdigits] at hwritten
    have hlonger : (printed ++ [c]).length = printed.length + 1 := by
      rw [List.length_append, List.length_singleton]
    obtain ⟨result, hresult, hbegins⟩ := ih ((List.prefix_append _ _).trans hwritten)
      (by rw [hsame, hlonger]; rw [List.length_cons] at hroom; omega) (fun _ => hwritten)
    refine ⟨result, ?_, ?_⟩
    · rw [printLoop, ← length_digits, hwrite, Option.bind_some, ← hlonger]
      exact hresult
    · rwa [List.append_assoc, List.singleton_append] at hbegins

theorem length_digest (message : Bytes) :
  (Md5.messageDigest message).length = digestSize
  := rfl

/-- The text of the digest fits into the allocated one. -/
theorem text_printed {hashText : Bytes} (hlength : hashText.length = digestSize * 2 + 1)
    (message : Bytes) :
  ∃ result, printLoop hashText 0 (Md5.messageDigest message) = some result ∧
    text result = digits (Md5.messageDigest message)
  := by
  obtain ⟨result, hresult, hbegins⟩ := @printLoop_eq hashText [] (Md5.messageDigest message)
    List.nil_prefix (by rw [length_digest, hlength]; rfl)
    (by simp [Md5.messageDigest, Md5.Registers.digest, Md5.wordBytes])
  exact ⟨result, hresult, text_of_prefix (digits_ne_zero _) hbegins⟩

/-! ### Reading -/

/-- The reads are appended one after another. -/
theorem readLoop_in_time {state : Md5.State} {reads : List (Bytes × Bool)}
    (htime : ∀ read ∈ reads, read.2 = false) :
  readLoop state reads = ((reads.map (·.1)).foldlM Md5.md5Append state).map some
  := by
  induction reads generalizing state with
  | nil => rfl
  | cons read reads ih =>
    obtain ⟨hread, hreads⟩ := List.forall_mem_cons.mp htime
    obtain ⟨chunk, late⟩ := read
    dsimp only at hread
    rw [readLoop, hread, if_neg (by simp), List.map_cons, List.foldlM_cons]
    cases Md5.md5Append state chunk with
    | none => rfl
    | some state => exact ih hreads

/-- A read that comes too late ends the loop, and no copy before it goes outside. -/
theorem readLoop_late {message : Bytes} {state : Md5.State} {reads : List (Bytes × Bool)}
    (habsorbed : Md5.Absorbed message state) (hlength : ∀ read ∈ reads, read.1.length ≤ 16 * 1024)
    (hlate : ∃ read ∈ reads, read.2 = true) :
  readLoop state reads = some none
  := by
  induction reads generalizing message state with
  | nil => simp at hlate
  | cons read reads ih =>
    obtain ⟨hread, hreads⟩ := List.forall_mem_cons.mp hlength
    obtain ⟨chunk, late⟩ := read
    rw [readLoop]
    cases late with
    | true => rfl
    | false =>
      obtain ⟨state', happend, habsorbed'⟩ := @Md5.Absorbed.append message chunk state habsorbed (by
        dsimp only at hread
        omega)
      rw [if_neg (by simp), happend]
      refine ih habsorbed' hreads ?_
      obtain ⟨read, hmem, hread⟩ := hlate
      obtain rfl | hmem := List.mem_cons.mp hmem
      · contradiction
      · exact ⟨read, hmem, hread⟩

/-- The result for an opened file. -/
theorem checksum_eq (env : Surroundings) (file : Opened) :
  (file.ReadInTime ∧ checksum env file = some (.ok (digits (Md5.messageDigest file.content)))) ∨
    (¬file.ReadInTime ∧ checksum env file = some .fail)
  := by
  have hinit := Md5.absorbed_init env.length_buf
  have hlength : ∀ chunk ∈ file.reads.map (·.1), chunk.length < 2 ^ 28 := by
    intro chunk hchunk
    obtain ⟨read, hread, rfl⟩ := List.mem_map.mp hchunk
    have hle := file.length_le read hread
    omega
  rw [checksum, Opened.ReadInTime]
  cases hlate : file.late with
  | true => exact .inr ⟨by simp, rfl⟩
  | false =>
    rw [if_neg (by simp)]
    by_cases htime : ∀ read ∈ file.reads, read.2 = false
    · obtain ⟨state, happends, hstate⟩ := hinit.appends hlength
      rw [readLoop_in_time htime, happends, Option.map_some, Option.bind_some]
      dsimp only
      rw [hstate.finish, Option.bind_some, List.nil_append]
      cases hfailed : file.failed with
      | true => exact .inr ⟨by simp, rfl⟩
      | false =>
        obtain ⟨result, hresult, htext⟩ := text_printed env.length_hashText file.content
        refine .inl ⟨⟨rfl, htime, rfl⟩, ?_⟩
        rw [if_neg (by simp), ← Opened.content, hresult, Option.map_some, htext]
    · refine .inr ⟨fun h => htime h.2.1, ?_⟩
      rw [readLoop_late hinit file.length_le (by simpa using htime)]
      rfl

/-- The item has a result, and every copy stays inside of its array. It succeeds exactly for a
file that is read in time and without an error, and its text is the digest of the bytes of the
file, in whatever pieces they were read. -/
theorem vfsFileMd5sum_ok_iff (env : Surroundings) (params : List Bytes) :
  ∃ result, vfsFileMd5sum env params = some result ∧
    ∀ text, result = .ok text ↔ ∃ filename file, params = [filename] ∧ filename ≠ [] ∧
      env.opened filename = some file ∧ file.ReadInTime ∧
      text = digits (Md5.messageDigest file.content)
  := by
  cases params with
  | nil => exact ⟨.fail, rfl, fun text => iff_of_false (by simp) (by simp)⟩
  | cons filename params =>
    cases params with
    | cons other params =>
      refine ⟨.fail, ?_, fun text => iff_of_false (by simp) (by simp)⟩
      rw [vfsFileMd5sum, if_pos (by simp)]
    | nil =>
      rw [vfsFileMd5sum, if_neg (by simp), List.getElem?_cons_zero]
      dsimp only
      cases filename with
      | nil =>
        refine ⟨.fail, rfl, fun text => iff_of_false (by simp) ?_⟩
        rintro ⟨name, file, hname, hne, -⟩
        exact absurd (List.singleton_inj.mp hname).symm hne
      | cons c filename =>
        rw [List.isEmpty_cons, if_neg (by simp)]
        cases hopened : env.opened (c :: filename) with
        | none =>
          refine ⟨.fail, rfl, fun text => iff_of_false (by simp) ?_⟩
          rintro ⟨name, file, hname, -, hfile, -⟩
          rw [← List.singleton_inj.mp hname, hopened] at hfile
          exact absurd hfile (by simp)
        | some file =>
          dsimp only
          obtain ⟨hread, hresult⟩ | ⟨hread, hresult⟩ := checksum_eq env file
          · refine ⟨_, hresult, fun text => ⟨?_, ?_⟩⟩
            · intro htext
              exact ⟨_, file, rfl, List.cons_ne_nil _ _, hopened, hread, (Result.ok.inj htext).symm⟩
            · rintro ⟨name, file', hname, -, hfile, -, rfl⟩
              rw [← List.singleton_inj.mp hname, hopened] at hfile
              rw [Option.some.inj hfile]
          · refine ⟨_, hresult, fun text => iff_of_false (by simp) ?_⟩
            rintro ⟨name, file', hname, -, hfile, hread', -⟩
            rw [← List.singleton_inj.mp hname, hopened] at hfile
            exact absurd (Option.some.inj hfile ▸ hread') hread

end FileChecksum
