import Mathlib.Data.List.DropRight
import Zabbix.Agent.LineReading
import Zabbix.Library.CInt

/-!
# Log files with rotation

`process_logrt` reads one line from the log files that match a pattern.  It sorts them by the
times of their modification, looks for the file it read from last time, which it knows by the
time of its modification then, and goes on where it stopped; at the end of a file it goes on
with the next one.  The position, `lastlogsize` and `mtime`, is kept by
`process_active_checks`, which stores the new one when the value could be put into its buffer.

The files and what the system calls do are parameters of a call.
-/

open Ascii LogLines

namespace Agent

/-- A file in the directory, as `stat` and `read` find it. -/
structure DirEntry where
  name : Bytes
  regular : Bool
  mtime : ℤ
  content : Bytes
deriving DecidableEq

/-- The file with its time as `process_logrt` keeps it, in an `int`. -/
def DirEntry.stat (file : DirEntry) : DirEntry := { file with mtime := CInt.wrap file.mtime }

/-- `lastlogsize` and `mtime` of an item. -/
structure LogPosition where
  lastlogsize : ℕ
  mtime : ℤ
deriving DecidableEq

/-! ### Reading a line -/

/-- `MAX_BUFFER_LEN`. -/
def maxBufferLen : ℕ := 65536

/-- `zbx_rtrim` of line ends and spaces. -/
def rtrimLine (text : Bytes) : Bytes :=
  text.rdropWhile fun c => c = carriageReturn || c = newline || c = space

/-! ### The list of files -/

/-- `add_logfile`: the files are sorted by ascending times and, with the same time, by
descending names. -/
def addLogfile (file : DirEntry) : List DirEntry → List DirEntry
  | [] => [file]
  | logfile :: rest =>
    if logfile.mtime < file.mtime then logfile :: addLogfile file rest
    else if file.mtime = logfile.mtime then
      if file.name < logfile.name then logfile :: addLogfile file rest
      else if file.name = logfile.name then logfile :: rest
      else file :: logfile :: rest
    else file :: logfile :: rest

/-- The files of the same time as the first one are passed over, but for the last of them. -/
def skipSame : List DirEntry → List DirEntry
  | [] => []
  | [logfile] => [logfile]
  | logfile :: next :: rest =>
    if next.mtime = logfile.mtime then skipSame (next :: rest) else logfile :: next :: rest

/-- The files from the one that the position is in. -/
def filesFrom (logfiles : List DirEntry) (mtime : ℤ) (skipOldData : Bool) : List DirEntry :=
  let rest := if skipOldData then logfiles.drop (logfiles.length - 1) else logfiles
  match skipSame (rest.dropWhile (·.mtime < mtime)) with
  | [] => logfiles.drop (logfiles.length - 1)
  | files => files

/-! ### Processing -/

/-- The first system call that fails for a file. -/
inductive FileFault where
  | stat
  | open
  | seek
  | read
deriving DecidableEq

/-- What a call of `process_logrt` meets: the entries of the directory, in the order in which
they are read, unless the directory cannot be read, the faults of the files that it tries
one after the other, and what its buffer holds at first. -/
structure LogrtCall where
  listing : Option (List DirEntry)
  faults : List (Option FileFault)
  stale : Bytes
deriving DecidableEq

/-- The result of `process_logrt`, with the position as it is left, and the value. -/
structure LogrtResult where
  succeeds : Bool
  pos : LogPosition
  value : Option Bytes
deriving DecidableEq

/-- What an item is about: which names match the pattern, the encoding, and the conversion of
texts to UTF-8. -/
structure LogrtItem where
  isMatch : Bytes → Bool
  encoding : Bytes
  convertToUtf8 : Bytes → Bytes

/-- The value for the bytes of a line. -/
def LogrtItem.valueOf (item : LogrtItem) (line : Bytes) : Bytes :=
  rtrimLine (item.convertToUtf8 line)

/-- The loop over the files. -/
def readLogfiles (item : LogrtItem) (skipOldData : Bool) :
    List (Option FileFault) → (stale : Bytes) → List DirEntry → LogPosition → LogrtResult
  | _, _, [], pos => { succeeds := false, pos := pos, value := none }
  | faults, stale, file :: rest, pos =>
    let fault := faults.head?.join
    if fault = some .stat then { succeeds := false, pos := pos, value := none }
    else
      let lastlogsize := if skipOldData then file.content.length else pos.lastlogsize
      let pos : LogPosition :=
        { lastlogsize := if file.content.length < lastlogsize then 0 else lastlogsize
          mtime := file.mtime }
      if fault ≠ none then { succeeds := false, pos := pos, value := none }
      else
        let (nbytes, buffer) :=
          zbxRead (LineEnds.of item.encoding) maxBufferLen stale file.content pos.lastlogsize
        if nbytes ≠ 0 then
          { succeeds := true
            pos := { pos with lastlogsize := pos.lastlogsize + nbytes }
            value := some (item.valueOf (buffer.take nbytes)) }
        else if rest = [] then { succeeds := true, pos := pos, value := none }
        else
          readLogfiles item skipOldData faults.tail buffer rest { pos with lastlogsize := 0 }

/-- `process_logrt`. -/
def processLogrt (item : LogrtItem) (skipOldData : Bool) (pos : LogPosition)
    (call : LogrtCall) : LogrtResult :=
  match call.listing with
  | none => { succeeds := false, pos := pos, value := none }
  | some listing =>
    let found := (listing.filter fun file => file.regular && item.isMatch file.name).map (·.stat)
    let logfiles := found.foldl (fun logfiles file => addLogfile file logfiles) []
    readLogfiles item skipOldData call.faults call.stale
      (filesFrom logfiles pos.mtime skipOldData) pos

end Agent
