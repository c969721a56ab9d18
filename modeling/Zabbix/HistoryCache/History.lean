import Zabbix.Library.Ascii
import Zabbix.Library.Memmove

/-!
# The history cache

New values wait in a ring of history entries until they are written to the database; their
strings stand in a text area. Entries that are taken from the middle of the ring leave an
empty slot, and strings that are taken leave unused text. When there is no more room, the
ring or the text area is compacted.

Addresses in the text area are counted from its beginning.
-/

namespace HistoryCache

/-- `ITEM_STATE_NORMAL`, `ITEM_STATE_NOTSUPPORTED`. -/
inductive ItemState where
  | normal
  | notsupported
deriving DecidableEq, Repr

/-- `ITEM_VALUE_TYPE_FLOAT` and so on. -/
inductive ItemValueType where
  | float
  | str
  | log
  | uint64
  | text
deriving DecidableEq, Repr

/-- `ZBX_DC_HISTORY`. The union `value_orig` is a number or an address in the text area, and
`value` is the address of the source of a log value, if it has one. -/
structure History where
  itemid : UInt64
  valueOrig : ℕ
  value : Option ℕ
  valueType : ItemValueType
  state : ItemState
deriving DecidableEq, Repr

/-- The ring and the text area of `ZBX_DC_CACHE`. The ring has `ZBX_HISTORY_SIZE` slots and the
text area `CONFIG_TEXT_CACHE_SIZE` bytes. -/
structure Cache where
  history : List History
  historyFirst : ℕ
  historyNum : ℕ
  historyGapNum : ℕ
  text : Bytes
  lastText : ℕ
  textFree : ℤ
deriving DecidableEq, Repr

/-! ### Compacting the ring -/

/-- An index that went past the end of the ring goes on from its beginning. -/
def wrap (size f : ℕ) : ℕ := if size ≤ f then f - size else f

/-- `DCmove_history`: the calls of `memmove`. -/
def moveHistory (size src nData nGap : ℕ) : List Move :=
  let dst := src + nGap
  if size ≤ dst ∨ dst + nData ≤ size then
    [⟨wrap size dst, src, nData⟩]
  else
    let nData2 := dst + nData - size
    let nData1 := nData - nData2
    [⟨0, src + nData1, nData2⟩, ⟨dst, src, nData1⟩]

/-- The variables of the loop of `DCvacuum_history`, with the moves done so far. -/
structure VacuumLoop where
  history : List History
  f : ℕ
  nGap : ℕ
  nData : ℕ
  moves : List Move

/-- Moves the entries that wait for it, which begin at `src`. -/
def VacuumLoop.move (s : VacuumLoop) (src : ℕ) : Option VacuumLoop :=
  let moves := moveHistory s.history.length src s.nData s.nGap
  (memmoves s.history moves).map fun history =>
    { s with history, nData := 0, moves := s.moves ++ moves }

/-- A round of the loop of `DCvacuum_history`. -/
def VacuumLoop.round (s : VacuumLoop) : Option VacuumLoop :=
  let f := (if s.f = 0 then s.history.length else s.f) - 1
  match s.history[f]? with
  | none => none
  | some entry =>
    if entry.itemid = 0 then
      (if s.nData ≠ 0 then s.move (f + 1) else some s).map fun s =>
        { s with f, nGap := s.nGap + 1 }
    else if s.nGap ≠ 0 then
      let s := { s with f, nData := s.nData + 1 }
      if f = 0 then s.move f else some s
    else some { s with f }

def VacuumLoop.rounds : (n : ℕ) → VacuumLoop → Option VacuumLoop
  | 0, s => some s
  | n + 1, s => s.round.bind (rounds n)

/-- `DCvacuum_history`, with the moves it does. -/
def Cache.vacuumHistory (c : Cache) : Option (Cache × List Move) :=
  let size := c.history.length
  if c.historyGapNum ≤ size / 100 then some (c, [])
  else
    let f := wrap size (c.historyFirst + c.historyNum)
    (VacuumLoop.rounds c.historyNum ⟨c.history, f, 0, 0, []⟩).bind fun s =>
      (if s.nData ≠ 0 then s.move s.f else some s).map fun s =>
        ({ c with
          history := s.history
          historyNum := c.historyNum - s.nGap
          historyGapNum := c.historyGapNum - s.nGap
          historyFirst := wrap size (c.historyFirst + s.nGap) }, s.moves)

/-! ### Compacting the text area -/

/-- `strlen`; it has no result when no zero byte comes before the end of the area. -/
def strlen (text : Bytes) (str : ℕ) : Option ℕ := (text.drop str).findIdx? (· = 0)

/-- `DCmove_text`: the text area, the new `last_text` and the new address of the string. -/
def moveText (text : Bytes) (lastText str : ℕ) : Option (Bytes × ℕ × ℕ) :=
  (strlen text str).bind fun len =>
    let sz := len + 1
    if lastText ≠ str then
      (memmove text ⟨lastText, str, sz⟩).map fun text => (text, lastText + sz, lastText)
    else some (text, lastText + sz, str)

/-- A slot in the loop of `DCvacuum_text`. -/
def vacuumEntry (text : Bytes) (lastText : ℕ) (entry : History) :
    Option (Bytes × ℕ × History) :=
  let moveOrig := (moveText text lastText entry.valueOrig).map fun (text, lastText, valueOrig) =>
    (text, lastText, { entry with valueOrig })
  match entry.state, entry.valueType with
  | .notsupported, _ => moveOrig
  | .normal, .str | .normal, .text => moveOrig
  | .normal, .log =>
    moveOrig.bind fun (text, lastText, entry) =>
      match entry.value with
      | none => some (text, lastText, entry)
      | some str => (moveText text lastText str).map fun (text, lastText, value) =>
        (text, lastText, { entry with value := some value })
  | .normal, .float | .normal, .uint64 => some (text, lastText, entry)

/-- The loop of `DCvacuum_text`. -/
def Cache.vacuumTextLoop : (n f : ℕ) → Cache → Option Cache
  | 0, _, c => some c
  | n + 1, f, c =>
    let f := if c.history.length = f then 0 else f
    (c.history[f]?).bind fun entry =>
      (vacuumEntry c.text c.lastText entry).bind fun (text, lastText, entry) =>
        vacuumTextLoop n (f + 1) { c with history := c.history.set f entry, text, lastText }

/-- `DCvacuum_text`. -/
def Cache.vacuumText (c : Cache) : Option Cache :=
  if c.textFree ≤ c.text.length / 1024 then some c
  else vacuumTextLoop c.historyNum c.historyFirst { c with lastText := 0 }

/-! ### The entries -/

/-- The entries of the ring in their order, those of empty slots included. -/
def Cache.entries (c : Cache) : List History :=
  (c.history.rotate c.historyFirst).take c.historyNum

/-- The entries of the ring that are not emptied. -/
def Cache.live (c : Cache) : List History := c.entries.filter (·.itemid ≠ 0)

/-- A slot has an entry. -/
def Cache.Filled (c : Cache) (i : ℕ) : Prop :=
  ∃ k < c.historyNum, i = ringSlot c.history.length c.historyFirst k
    ∧ ∃ entry, c.entries[k]? = some entry ∧ entry.itemid ≠ 0

/-- The ring begins at one of its slots and does not have more entries than slots, and its empty
slots are counted. -/
structure Cache.Ring (c : Cache) : Prop where
  first : c.historyFirst < c.history.length
  num : c.historyNum ≤ c.history.length
  gaps : c.historyGapNum = c.entries.countP (·.itemid = 0)

end HistoryCache
