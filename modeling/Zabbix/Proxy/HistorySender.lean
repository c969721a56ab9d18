import Zabbix.Library.IdLog
import Zabbix.Config.Holding

/-!
# Sending the history of a proxy

A proxy stores values in tables whose rows have increasing ids and sends them to the
server from time to time, in batches of rows above the last id that it has sent. Other
processes add rows all the time, and a row may appear between two others when its
transaction ends late, so a reader that finds an id missing waits once and reads on from
there.

The values of items are sent with the host and the key of the item as the configuration
cache has them. A row whose item is not in the cache any more is read but not sent, and
when a batch has no other rows the sender does not see that it has read anything.
-/

namespace Proxy

open DbConfig

/-- `ZBX_MAX_HRECORDS`. -/
def maxHrecords : ℕ := 1000

/-! ### Reading a batch -/

section Reading

variable {ρ : Type*} {idOf : ρ → ℕ}

/-- What has been read when a result has been fetched to its end, or when the reader waits
and tries again. -/
inductive Fetched (ρ : Type*)
  | finished (rows : List ρ) (lastid : ℕ)
  | tryAgain (rows : List ρ) (id lastid limit : ℕ) (retries : ℤ)

/-- Fetches the rows of a result. -/
def fetch (idOf : ρ → ℕ) (rows : List ρ) (id lastid limit : ℕ) (retries : ℤ) :
    (result : List ρ) → Fetched ρ
  | [] => .finished rows lastid
  | row :: result =>
    let lastid := idOf row
    if 1 < lastid - id then
      if 0 < retries then .tryAgain rows id lastid limit (retries - 1)
      else fetch idOf (rows ++ [row]) lastid lastid (limit - 1) (retries - 1) result
    else fetch idOf (rows ++ [row]) lastid lastid (limit - 1) retries result

/-- Reads the rows above an id. The table may have more rows every time it is asked. -/
def readRows (idOf : ρ → ℕ) (rows : List ρ) (id lastid limit : ℕ) (retries : ℤ) :
    (tables : List (IdLog ρ idOf)) → List ρ × ℕ
  | [] => (rows, lastid)
  | table :: tables =>
    match fetch idOf rows id lastid limit retries (table.select id limit) with
    | .finished rows lastid => (rows, lastid)
    | .tryAgain rows id lastid limit retries => readRows idOf rows id lastid limit retries tables

/-- The rows of a batch and the last id read, where the table is `now` at first and `later`
after the wait. -/
def readBatch (now later : IdLog ρ idOf) (id : ℕ) : List ρ × ℕ :=
  readRows idOf [] id 0 maxHrecords 1 [now, later]

/-- Without retries all rows are fetched. -/
theorem fetch_of_nonpos {retries : ℤ} (hretries : retries ≤ 0) (rows result : List ρ)
    (id lastid limit : ℕ) :
  fetch idOf rows id lastid limit retries result =
    .finished (rows ++ result) (IdLog.lastId idOf lastid result)
  := by
  induction result generalizing rows id lastid limit retries with
  | nil => simp [fetch]
  | cons row result ih =>
    unfold fetch
    dsimp only
    split
    · rw [if_neg (by omega), ih (by omega), IdLog.lastId_cons]
      simp
    · rw [ih hretries, IdLog.lastId_cons]
      simp

/-- With retries left all rows are fetched up to the first gap. -/
theorem fetch_of_pos {retries : ℤ} (hretries : 0 < retries) (rows result : List ρ)
    (id lastid limit : ℕ) :
  (¬ IdLog.HasGap idOf id result ∧
    fetch idOf rows id lastid limit retries result =
      .finished (rows ++ result) (IdLog.lastId idOf lastid result)) ∨
  (IdLog.HasGap idOf id result ∧ ∃ pre row post, result = pre ++ row :: post ∧
    ¬ IdLog.HasGap idOf id pre ∧
    fetch idOf rows id lastid limit retries result =
      .tryAgain (rows ++ pre) (IdLog.lastId idOf id pre) (idOf row) (limit - pre.length)
        (retries - 1))
  := by
  induction result generalizing rows id lastid limit with
  | nil => exact Or.inl ⟨fun h => h, by simp [fetch]⟩
  | cons row result ih =>
    unfold fetch
    dsimp only
    by_cases hgap : 1 < idOf row - id
    · right
      rw [if_pos hgap, if_pos hretries]
      exact ⟨Or.inl hgap, [], row, result, rfl, fun h => h, by simp⟩
    · rw [if_neg hgap, IdLog.lastId_cons]
      obtain ⟨hno, heq⟩ | ⟨hhas, pre, row', post, rfl, hpre, heq⟩ :=
        ih (rows ++ [row]) (idOf row) (idOf row) (limit - 1)
      · left
        rw [heq]
        exact ⟨not_or.mpr ⟨hgap, hno⟩, by simp⟩
      · right
        rw [heq]
        refine ⟨Or.inr hhas, row :: pre, row', post, rfl, not_or.mpr ⟨hgap, hpre⟩, ?_⟩
        simp [Nat.sub_sub, Nat.add_comm]

/-- The table as it is when it is asked for the last time. -/
def lastAsked (now later : IdLog ρ idOf) (id : ℕ) : IdLog ρ idOf :=
  if IdLog.HasGap idOf id (now.select id maxHrecords) then later else now

/-- The rows of a batch are the next rows of the table as it is when it is asked for the
last time. -/
theorem readBatch_eq {now later : IdLog ρ idOf} (hadded : now.records ⊆ later.records)
    (id : ℕ) :
  readBatch now later id =
    ((lastAsked now later id).select id maxHrecords,
      IdLog.lastId idOf 0 ((lastAsked now later id).select id maxHrecords))
  := by
  unfold readBatch readRows lastAsked
  obtain ⟨hno, heq⟩ | ⟨hhas, pre, row, post, hsplit, hpre, heq⟩ :=
    @fetch_of_pos ρ idOf 1 (by decide) [] (now.select id maxHrecords) id 0 maxHrecords
  · rw [heq, if_neg hno]
    rfl
  · rw [heq, if_pos hhas]
    have hsorted : (now.select id maxHrecords).Pairwise fun x y => idOf x < idOf y :=
      now.select_sorted
    have hmem : ∀ x ∈ pre ++ row :: post, id < idOf x ∧ x ∈ later.records := by
      intro x hx
      rw [← hsplit] at hx
      exact ⟨IdLog.lt_of_mem_select hx, hadded (IdLog.mem_of_mem_select hx)⟩
    have hlength : pre.length < maxHrecords := by
      have htake := List.length_take_le maxHrecords (now.records.filter fun x => id < idOf x)
      change (now.select id maxHrecords).length ≤ _ at htake
      rw [hsplit, List.length_append, List.length_cons] at htake
      omega
    rw [hsplit, List.pairwise_append] at hsorted
    have hrow : IdLog.lastId idOf id pre < idOf row := by
      apply IdLog.lastId_lt (hmem row (by simp)).1
      intro x hx
      exact hsorted.2.2 x hx row List.mem_cons_self
    have hne := later.select_ne_nil (hmem row (by simp)).2 hrow (by omega :
      0 < maxHrecords - pre.length)
    have happend : later.select id maxHrecords = pre ++ _ := later.select_append hsorted.1
      (fun x hx => (hmem x (List.mem_append_left _ hx)).1) hpre
      (fun x hx => (hmem x (List.mem_append_left _ hx)).2) hlength.le
    unfold readRows
    dsimp only
    rw [fetch_of_nonpos (by decide : (1 - 1 : ℤ) ≤ 0), happend, IdLog.lastId_append,
      List.nil_append, IdLog.lastId_of_ne_nil hne (idOf row)]

end Reading

/-! ### Messages -/

/-- A value in a message. -/
inductive JsonValue
  | string (s : String)
  | number (n : ℤ)
deriving DecidableEq, Repr

/-- An object in a message: tags with their values. -/
abbrev JsonObject := List (String × JsonValue)

/-- A row of table `proxy_history`. -/
structure HistoryRow where
  id : ℕ
  itemid : UInt64
  clock : ℤ
  ns : ℤ
  timestamp : ℤ
  source : String
  severity : ℤ
  value : String
  logeventid : ℤ
  state : UInt8
deriving DecidableEq, Repr

/-- `DCconfig_get_items_by_itemids` for one item: the host and the key of an item that is in
the cache with its host. -/
def getItemByItemid (cfg : Config) (itemid : UInt64) : Option (String × String) :=
  (cfg.items.rows.search itemid).bind fun item =>
    (cfg.hosts.rows.search item.hostid).map fun host => (host.host, item.key)

/-- The object for a row, when its item is known. -/
def historyObject (cfg : Config) (row : HistoryRow) : Option JsonObject :=
  (getItemByItemid cfg row.itemid).map fun (host, key) =>
    [("host", .string host), ("key", .string key), ("clock", .number row.clock),
      ("ns", .number row.ns)] ++
    (if row.timestamp ≠ 0 then [("timestamp", .number row.timestamp)] else []) ++
    (if row.source ≠ "" then [("source", .string row.source)] else []) ++
    (if row.severity ≠ 0 then [("severity", .number row.severity)] else []) ++
    [("value", .string row.value)] ++
    (if row.logeventid ≠ 0 then [("eventid", .number row.logeventid)] else []) ++
    (if row.state ≠ 0 then [("state", .number row.state.toNat)] else [])

/-- `proxy_get_history_data`: the objects of the known rows of a batch and the last id
read. -/
def proxyGetHistoryData (cfg : Config) (now later : IdLog HistoryRow HistoryRow.id)
    (id : ℕ) : List JsonObject × ℕ :=
  let (rows, lastid) := readBatch now later id
  (rows.filterMap (historyObject cfg), lastid)

/-- A column that `proxy_get_history_data_simple` sends: its tag, whether it is a number, and
the value that is left out. -/
structure HistoryField where
  tag : String
  number : Bool
  defaultValue : Option String

/-- A row of a table that is sent as it is: the id and the columns as texts. -/
structure SimpleRow where
  id : ℕ
  columns : List String
deriving DecidableEq, Repr

/-- The object for a row that is sent as it is. Numbers are written as the database has
them. -/
def simpleObject (fields : List HistoryField) (row : SimpleRow) : List (String × Bool × String) :=
  (fields.zip row.columns).filterMap fun (field, column) =>
    if field.defaultValue = some column then none else some (field.tag, field.number, column)

/-- `proxy_get_history_data_simple`. -/
def proxyGetHistoryDataSimple (fields : List HistoryField) (now later : IdLog SimpleRow SimpleRow.id)
    (id : ℕ) : List (List (String × Bool × String)) × ℕ :=
  let (rows, lastid) := readBatch now later id
  (rows.map (simpleObject fields), lastid)

/-! ### The sender -/

/-- What a cycle of the sender leads to: the last id that is stored, and the objects that
the server has received. -/
structure Cycle (ω : Type*) where
  stored : ℕ
  received : List ω

/-- `history_sender` with the data and the last id that it has got. A message without
objects is not sent, and the last id is stored after a message has been sent. -/
def historySender {ω : Type*} (records : List ω) (lastid stored : ℕ) (sendSucceeds : Bool) :
    Cycle ω :=
  if records.length > 0 then
    if sendSucceeds then ⟨lastid, records⟩ else ⟨stored, []⟩
  else ⟨stored, []⟩

/-- A sender of the next rows of a table makes progress: when the message is sent, it has the
objects of these rows and the id of the last of them is stored, which is above the id that
was stored before; when it is not, the id stays. -/
structure Progresses {ρ ω : Type*} (idOf : ρ → ℕ) (object : ρ → Option ω) (rows : List ρ)
    (stored : ℕ) (cycle : Bool → Cycle ω) : Prop where
  sends : (cycle true).received = rows.filterMap object
  stores : (cycle true).stored = IdLog.lastId idOf stored rows
  increases : rows ≠ [] → stored < (cycle true).stored
  fails : (cycle false).stored = stored

theorem filterMap_ne_nil_iff {ρ ω : Type*} {object : ρ → Option ω} {rows : List ρ} :
  rows.filterMap object ≠ [] ↔ ∃ row ∈ rows, (object row).isSome
  := by
  rw [Ne, List.filterMap_eq_nil_iff]
  simp [Option.ne_none_iff_isSome]

/-- The sender makes progress exactly when there is nothing to read or something to send. -/
theorem progresses_sender_iff {ρ ω : Type*} {idOf : ρ → ℕ} (object : ρ → Option ω)
    (table : IdLog ρ idOf) (stored limit : ℕ) :
  Progresses idOf object (table.select stored limit) stored
      (historySender ((table.select stored limit).filterMap object)
        (IdLog.lastId idOf 0 (table.select stored limit)) stored) ↔
    table.select stored limit = [] ∨ ∃ row ∈ table.select stored limit, (object row).isSome
  := by
  have hlast : ∀ hne : table.select stored limit ≠ [],
      stored < IdLog.lastId idOf 0 (table.select stored limit) :=
    fun hne => IdLog.lastId_select_lt hne 0
  rw [← filterMap_ne_nil_iff]
  generalize hrows : table.select stored limit = rows at *
  constructor
  · intro h
    by_contra hnot
    obtain ⟨hne, hnone⟩ := not_or.mp hnot
    have hincreases := h.increases hne
    rw [not_not.mp hnone] at hincreases
    exact absurd hincreases (lt_irrefl _)
  · rintro (hnil | hsome)
    · subst hnil
      constructor <;> simp [historySender]
    · have hne : rows ≠ [] := by
        rintro rfl
        contradiction
      have hlength : (rows.filterMap object).length > 0 := List.length_pos_of_ne_nil hsome
      have htrue : historySender (rows.filterMap object) (IdLog.lastId idOf 0 rows) stored true =
          ⟨IdLog.lastId idOf 0 rows, rows.filterMap object⟩ := by
        unfold historySender
        rw [if_pos hlength, if_pos rfl]
      have hfalse : historySender (rows.filterMap object) (IdLog.lastId idOf 0 rows) stored false =
          ⟨stored, []⟩ := by
        unfold historySender
        rw [if_pos hlength, if_neg Bool.false_ne_true]
      constructor
      · rw [htrue]
      · rw [htrue]
        exact IdLog.lastId_of_ne_nil hne _ _
      · intro _
        rw [htrue]
        exact hlast hne
      · rw [hfalse]

/-- A cycle of the sender of the values of items, over a table that is `now` at first and
`later` after a wait. -/
def historyCycle (cfg : Config) (now later : IdLog HistoryRow HistoryRow.id) (stored : ℕ)
    (sendSucceeds : Bool) : Cycle JsonObject :=
  let (records, lastid) := proxyGetHistoryData cfg now later stored
  historySender records lastid stored sendSucceeds

/-- A cycle of the sender of discovery or registration data. -/
def simpleCycle (fields : List HistoryField) (now later : IdLog SimpleRow SimpleRow.id)
    (stored : ℕ) (sendSucceeds : Bool) : Cycle (List (String × Bool × String)) :=
  let (records, lastid) := proxyGetHistoryDataSimple fields now later stored
  historySender records lastid stored sendSucceeds

/-- The next rows of the table, as it is when it is asked for the last time. -/
def nextRows {ρ : Type*} {idOf : ρ → ℕ} (now later : IdLog ρ idOf) (stored : ℕ) : List ρ :=
  (lastAsked now later stored).select stored maxHrecords

/-- A cycle makes progress exactly when no rows are above the last id or one of the next
rows has an item that is in the cache. -/
theorem historyCycle_progresses_iff (cfg : Config)
    {now later : IdLog HistoryRow HistoryRow.id} (hadded : now.records ⊆ later.records)
    (stored : ℕ) :
  Progresses HistoryRow.id (historyObject cfg) (nextRows now later stored) stored
      (historyCycle cfg now later stored) ↔
    nextRows now later stored = [] ∨
      ∃ row ∈ nextRows now later stored, (getItemByItemid cfg row.itemid).isSome
  := by
  have hcycle : historyCycle cfg now later stored =
      historySender ((nextRows now later stored).filterMap (historyObject cfg))
        (IdLog.lastId HistoryRow.id 0 (nextRows now later stored)) stored := by
    funext sendSucceeds
    unfold historyCycle proxyGetHistoryData nextRows
    rw [readBatch_eq hadded]
  have hobject : ∀ row, (historyObject cfg row).isSome =
      (getItemByItemid cfg row.itemid).isSome := by
    intro row
    unfold historyObject
    rw [Option.isSome_map]
  simp only [hcycle, ← hobject]
  apply progresses_sender_iff

/-- A cycle for rows that are sent as they are always makes progress. -/
theorem simpleCycle_progresses (fields : List HistoryField)
    {now later : IdLog SimpleRow SimpleRow.id} (hadded : now.records ⊆ later.records)
    (stored : ℕ) :
  Progresses SimpleRow.id (fun row => some (simpleObject fields row))
    (nextRows now later stored) stored (simpleCycle fields now later stored)
  := by
  have hcycle : simpleCycle fields now later stored =
      historySender ((nextRows now later stored).filterMap
          fun row => some (simpleObject fields row))
        (IdLog.lastId SimpleRow.id 0 (nextRows now later stored)) stored := by
    funext sendSucceeds
    unfold simpleCycle proxyGetHistoryDataSimple nextRows
    rw [readBatch_eq hadded, List.filterMap_eq_map']
  rw [hcycle]
  apply (progresses_sender_iff _ _ _ _).mpr
  cases hrows : (lastAsked now later stored).select stored maxHrecords with
  | nil => exact Or.inl rfl
  | cons row rows => exact Or.inr ⟨row, List.mem_cons_self, rfl⟩

/-- A value of an item. -/
def sampleValue (id : ℕ) (itemid : UInt64) : HistoryRow where
  id
  itemid
  clock := 100
  ns := 0
  timestamp := 0
  source := ""
  severity := 0
  value := "1"
  logeventid := 0
  state := 0

/-- The row in the middle appears while the sender waits. -/
def rowsBefore : IdLog HistoryRow HistoryRow.id where
  records := [sampleValue 1 1, sampleValue 3 1]
  sorted := by decide

/-- The rows after the wait. The item of the second one is not known. -/
def rowsAfter : IdLog HistoryRow HistoryRow.id where
  records := [sampleValue 1 1, sampleValue 2 99, sampleValue 3 1]
  sorted := by decide

/-- One row, the item of which is not known. -/
def unknownRows : IdLog HistoryRow HistoryRow.id where
  records := [sampleValue 1 99]
  sorted := by decide

/-- A batch with rows of a known item is sent, and the id of the last row is stored. -/
theorem sampleRows_progress :
  Progresses HistoryRow.id (historyObject System.served.config) (nextRows rowsBefore rowsAfter 0)
    0 (historyCycle System.served.config rowsBefore rowsAfter 0)
  := by
  apply (historyCycle_progresses_iff _ _ _).mpr
  · right
    exact ⟨sampleValue 1 1, by decide +kernel, by decide +kernel⟩
  · decide

/-- A batch with no rows of known items is read again and again. -/
theorem unknownRows_stall :
  ¬ Progresses HistoryRow.id (historyObject System.served.config)
    (nextRows unknownRows unknownRows 0) 0
    (historyCycle System.served.config unknownRows unknownRows 0)
  := by
  intro h
  have hstored : (historyCycle System.served.config unknownRows unknownRows 0 true).stored = 0 := by
    decide +kernel
  have hincreases := h.increases (by decide +kernel)
  rw [hstored] at hincreases
  exact absurd hincreases (lt_irrefl _)

end Proxy
