import Zabbix.Library.Fields
import Zabbix.Library.Scanf

/-!
# IPv6 addresses

`expand_ipv6` writes an address with all its eight groups, and `collapse_ipv6` abbreviates the
longest run of groups that are zero. An address is the list of its groups.
-/

namespace Ipv6

open Ascii

/-- A text with a colon between its parts. -/
abbrev join (parts : List Bytes) : Bytes := Fields.join colon parts

/-- The text that `"%04x:%04x:%04x:%04x:%04x:%04x:%04x:%04x"` gives for the groups. -/
def fullText (i : List ℕ) : Bytes := join (i.map (Digits.hexPadded 4))

/-! ### Expanding -/

/-- The variables of the loop in `expand_ipv6`. The digits in `buf` are counted by `len`. -/
structure Expansion where
  i : List ℕ
  buf : Bytes
  pos : ℕ
  dc : Bool
deriving DecidableEq, Repr

/-- The digits in `buf`, if there are any, become the next group. There are four digits at most,
and `sscanf` reads them all. -/
def Expansion.store (e : Expansion) : Expansion :=
  if e.buf = [] then e
  else { e with i := e.i.set e.pos (Digits.value 16 e.buf), pos := e.pos + 1, buf := [] }

/-- A character of `expand_ipv6`, or `none` for a return with `FAIL`. -/
def Expansion.read (e : Expansion) (ch : UInt8) : Option Expansion :=
  if isHexDigit ch then if e.buf.length > 3 then none else some { e with buf := e.buf ++ [ch] }
  else if ch ≠ colon then none
  else some e

/-- The loop of `expand_ipv6` behind the first `j` characters, with `c` colons in the text. It
gives the groups. -/
def expandLoop (c : ℕ) : (ip : Bytes) → (j : ℕ) → Expansion → Option (List ℕ)
  | [], _, e => some e.i
  | ch :: ip, j, e =>
    match e.read ch with
    | none => none
    | some e =>
      if ch = colon ∨ ip = [] then
        let e := e.store
        if ip.head? = some colon then
          if e.dc = false then
            expandLoop c ip (j + 1)
              { e with dc := true, pos := (8 - c) + e.pos + if j = 0 then 1 else 0 }
          else none
        else expandLoop c ip (j + 1) e
      else expandLoop c ip (j + 1) e

/-- `expand_ipv6`: the text left in the buffer, or `none` when it returns `FAIL`. -/
def expandIpv6 (ip : Bytes) (strLen : ℕ) : Option Bytes :=
  let c := ip.count colon
  if c < 2 ∨ 7 < c then none
  else if ip[0]? = some colon ∧ ip[1]? ≠ some colon ∨
      ip[ip.length - 1]? = some colon ∧ ip[ip.length - 2]? ≠ some colon then none
  else
    (expandLoop c ip 0 { i := List.replicate 8 0, buf := [], pos := 0, dc := false }).map
      fun i => (fullText i).take (strLen - 1)

/-! ### Collapsing -/

/-- The variables of the first loop in `collapse_ipv6`: the zeros of the run that is read and
its start, and the zeros of the longest run so far and its start. -/
structure ZeroRun where
  c : ℕ
  m : ℕ
  idx : Option ℕ
  idx2 : Option ℕ
deriving DecidableEq, Repr

/-- A run of zeros has ended. -/
def ZeroRun.close (run : ZeroRun) : ZeroRun :=
  if run.c ≠ 0 ∧ run.c > run.m then { c := 0, m := run.c, idx := run.idx2, idx2 := none }
  else { run with c := 0, idx2 := none }

/-- The first loop, behind `i` groups. -/
def zeroRunLoop : (j : List ℕ) → (i : ℕ) → ZeroRun → ZeroRun
  | [], _, run => run.close
  | group :: j, i, run =>
    zeroRunLoop j (i + 1) (if group = 0 then
      { run with idx2 := if run.idx2 = none then some i else run.idx2, c := run.c + 1 }
    else run.close)

/-- The second loop, behind `i` groups. It gives what is printed. -/
def printLoop : (j : List ℕ) → (i : ℕ) → (idx : Option ℕ) → Bytes
  | [], _, _ => []
  | group :: j, i, idx =>
    if group ≠ 0 ∨ idx = none ∨ i < idx.getD 0 then
      Digits.hex group ++ (if i < 7 then [colon] else [])
        ++ printLoop j (i + 1) (if idx.getD 0 < i then none else idx)
    else if idx = some i then
      colon :: ((if i = 0 then [colon] else []) ++ printLoop j (i + 1) idx)
    else printLoop j (i + 1) idx

/-- `collapse_ipv6`: the text left in the buffer. -/
def collapseIpv6 (str : Bytes) (strLen : ℕ) : Bytes :=
  let j := Scanf.separated Scanf.hex colon 8 str
  if j.length ≠ 8 then str
  else
    let j := j.map fun group => (group % 2 ^ 32).toNat
    let run := zeroRunLoop j 0 { c := 0, m := 0, idx := none, idx2 := none }
    (printLoop j 0 run.idx).take (strLen - 1)

/-! ### What a text stands for -/

/-- One to four hexadecimal digits. -/
structure GroupText (t : Bytes) : Prop where
  nonempty : t ≠ []
  short : t.length ≤ 4
  digits : ∀ c ∈ t, isHexDigit c = true

/-- The groups that texts of groups stand for. -/
abbrev groups (ts : List Bytes) : List ℕ := ts.map (Digits.value 16)

/-- A text with `::`, by the groups before it and those behind it. -/
def shortText (front back : List Bytes) : Bytes := join front ++ [colon, colon] ++ join back

/-- The text is the IPv6 address with the given groups. It has eight groups, or fewer and a `::`
for the others, which are zero. -/
inductive Denotes : Bytes → List ℕ → Prop
  | full {ts : List Bytes} (hlength : ts.length = 8) (htexts : ∀ t ∈ ts, GroupText t) :
    Denotes (join ts) (groups ts)
  | short {front back : List Bytes} (hlength : front.length + back.length ≤ 7)
    (hfront : ∀ t ∈ front, GroupText t) (hback : ∀ t ∈ back, GroupText t) :
    Denotes (shortText front back)
      (groups front ++ List.replicate (8 - (front.length + back.length)) 0 ++ groups back)

end Ipv6
