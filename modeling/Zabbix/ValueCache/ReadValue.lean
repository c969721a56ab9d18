import Zabbix.ValueCache.Database

/-!
# Reading one value from the database

When the cache cannot be used, a request for the last value not after a time stamp goes to
the database. `vc_db_read_value` looks for a record with exactly that time stamp; if there
is none it reads the records from the second of the one wanted up to the second of the time
stamp, and picks one.
-/

namespace ValueCache

variable {V : Type*}

/-- The test on a value read from the database: it is not after the time stamp. -/
def NotAfter (ts : Timespec) (r : Record V) : Prop :=
  r.sec = ts.sec ∧ r.timestamp.ns ≤ ts.ns ∨ r.sec < ts.sec

instance (ts : Timespec) (r : Record V) : Decidable (NotAfter ts r) :=
  inferInstanceAs (Decidable (_ ∨ _))

/-- The loop over the values from the index `i` on. A value that is not after the time
stamp makes the loop copy the value at the index 0. -/
def pickValue (ts : Timespec) (values : List (Record V)) :
    (left : List (Record V)) → Option (Record V) → Option (Record V)
  | [], value => value
  | r :: left, value =>
    pickValue ts values left (if NotAfter ts r then values.head? else value)

/-- `vc_db_read_value`: the value read, `none` on `FAIL`. -/
def dbReadValue (p : Platform V) (rows : List (Record V)) (ts : Timespec) :
    Option (Record V) :=
  match p.selectAt rows ts with
  | row :: _ => some row
  | [] =>
    let values := p.sortDesc (dbReadValuesByCount p rows [] 1 ts.sec ts false)
    pickValue ts values values none

variable {rows : List (Record V)} {ts : Timespec}

end ValueCache
