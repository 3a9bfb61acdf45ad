import PawnDB.Lib.Probing
import PawnDB.Lib.Slots
import PawnDB.Table.StudentTuple
import Mathlib.Data.Fintype.Pi
import Mathlib.Data.List.FinRange

set_option autoImplicit false

/-! # The student table

Ten rows, addressed by `key % Rows` with linear probing. Every operation runs under the
table's mutex, so each is one atomic function of the table.

A result `none` is a call that does not return. `traitInsert` waits without a timeout while
the table is full; the probe loops of `traitRemove`, `traitWrite`, `traitPromote` and
`traitRelease` have no bound and stop only at a slot with the key that is not marked deleted,
whether it is in use or not (`keyAt`). `Probing.seek_fuel` is why one round decides them.

The waits for an available row are bounded by a timeout. What such a wait returns is decided
by the table at the moment it ends: a row if the counters say that there is one, and a
timeout otherwise.
-/

namespace PawnDB

open Probing

/-- Student table operation error codes. -/
inductive StudentTableError
  | notFound
  deriving DecidableEq, Repr

/-- Tuple table operation error codes. -/
inductive TupleTableError
  | full | timeout | notFound
  deriving DecidableEq, Repr

/-- `tbl_id<StudentTable>()` -/
def studentTableId : TpId := 1

/-- `StudentTable::Rows` -/
abbrev rows : Nat := 10

instance neZero_rows : NeZero rows := ⟨by decide⟩

/-- A row: its tuple, its lock word (`-1` exclusive, `n ≥ 0` shared by `n`) and its flags. -/
structure Row where
  tuple : StudentTuple
  lock : LkT
  isUsed : Bool
  isDeleted : Bool
  deriving DecidableEq

/-- The default-constructed row. -/
def Row.empty : Row := ⟨StudentTuple.empty, 0, false, false⟩

/-- The row holds a record. -/
def Row.live (r : Row) : Bool := r.isUsed && !r.isDeleted

structure StudentTable where
  table : Fin rows → Row
  sAvailCnt : TblRow
  xAvailCnt : TblRow
  size : SizeT
  nextKey : TblRow

namespace StudentTable

/-- The constructor. -/
def init : StudentTable := ⟨fun _ => Row.empty, 0, 0, 0, 0⟩

variable (t : StudentTable)

def setRow (i : Fin rows) (r : Row) : StudentTable :=
  { t with table := Slots.set t.table i r }

@[simp] theorem setRow_table (i : Fin rows) (r : Row) :
    (t.setRow i r).table = Slots.set t.table i r := rfl

/-- Row `i` holds a record. -/
def live (i : Fin rows) : Bool := (t.table i).live

/-- The key stored in row `i`. -/
def keyOf (i : Fin rows) : TblRow := (t.table i).tuple.key

/-- `key % Rows` -/
def home (key : TblRow) : Fin rows := Fin.ofNat rows key.toNat

def traitEmpty : Bool := t.size == 0
def traitFull : Bool := t.size == UInt64.ofNat rows

/-- Wait until the table is not full, then put the tuple under key `nextKey` into the first
row, from that key's home on, that is unused or deleted. Returns that row. -/
def traitInsert (tuple : StudentTuple) : Option (Fin rows × StudentTable) :=
  if t.traitFull then none
  else
    match seek (fun i => !(t.table i).isUsed || (t.table i).isDeleted) rows (home t.nextKey) with
    | none => none
    | some idx =>
        some (idx,
          { t.setRow idx ⟨{ tuple with key := t.nextKey }, 0, true, false⟩ with
            sAvailCnt := t.sAvailCnt + 1
            xAvailCnt := t.xAvailCnt + 1
            nextKey := t.nextKey + 1
            size := t.size + 1 })

/-- The condition on which the probe loops stop at row `i`. -/
def keyAt (key : TblRow) (i : Fin rows) : Bool :=
  t.keyOf i == key && !(t.table i).isDeleted

/-- The row the probe loops of `traitRemove`, `traitWrite`, `traitPromote` and `traitRelease`
stop at. -/
def seekKey (key : TblRow) : Option (Fin rows) := seek (t.keyAt key) rows (home key)

/-- Look up a key, giving up at a row that was never used and after one round. -/
def traitSearch (key : TblRow) : Except StudentTableError (Fin rows) :=
  match scan (fun i => !(t.table i).isUsed) (t.keyAt key) rows (home key) with
  | none => .error .notFound
  | some idx => .ok idx

def traitRemove (key : TblRow) : Option StudentTable :=
  match t.seekKey key with
  | none => none
  | some idx =>
      some { t.setRow idx { t.table idx with isDeleted := true } with size := t.size - 1 }

def traitWrite (tuple : StudentTuple) : Option StudentTable :=
  match t.seekKey tuple.key with
  | none => none
  | some idx => some (t.setRow idx { t.table idx with tuple := tuple })

/-- Every row is unused again. Its tuple stays, and with it its key. -/
def traitClear : StudentTable where
  table := fun i => { t.table i with lock := 0, isUsed := false, isDeleted := false }
  sAvailCnt := 0
  xAvailCnt := 0
  size := 0
  nextKey := 0

/-- The first row, in slot order, that is live and satisfies `p`. -/
def firstRow (p : Row → Bool) : Option (Fin rows) :=
  (List.finRange rows).find? fun i => t.live i && p (t.table i)

/-- Take a shared lock on the first row that is not locked exclusively. -/
def traitWaitShared : Except TupleTableError StudentTuple × StudentTable :=
  if t.traitEmpty then (.error .timeout, t)
  else if t.sAvailCnt = 0 then (.error .timeout, t)
  else
    match t.firstRow (fun r => decide (0 ≤ r.lock)) with
    | none => (.error .notFound, t)
    | some i =>
        let r := { t.table i with lock := (t.table i).lock + 1 }
        (.ok r.tuple,
          { t.setRow i r with
            xAvailCnt := if r.lock = 1 then t.xAvailCnt - 1 else t.xAvailCnt })

/-- Take an exclusive lock on the first row that is not locked at all. -/
def traitWaitExclusive : Except TupleTableError StudentTuple × StudentTable :=
  if t.traitEmpty then (.error .timeout, t)
  else if t.xAvailCnt = 0 then (.error .timeout, t)
  else
    match t.firstRow (fun r => r.lock == 0) with
    | none => (.error .notFound, t)
    | some i =>
        let r := { t.table i with lock := -1 }
        (.ok r.tuple,
          { t.setRow i r with
            xAvailCnt := t.xAvailCnt - 1
            sAvailCnt := t.sAvailCnt - 1 })

/-- Turn the only shared lock on a row into an exclusive one, or time out. -/
def traitPromote (key : TblRow) : Option (Except TupleTableError Unit × StudentTable) :=
  match t.seekKey key with
  | none => none
  | some idx =>
      if (t.table idx).lock = 1 then
        some (.ok (),
          { t.setRow idx { t.table idx with lock := -1 } with sAvailCnt := t.sAvailCnt - 1 })
      else some (.error .timeout, t)

/-- Give back one lock on a row, of the kind its lock word shows. -/
def traitRelease (key : TblRow) : Option StudentTable :=
  match t.seekKey key with
  | none => none
  | some idx =>
      if (t.table idx).lock = -1 then
        some { t.setRow idx { t.table idx with lock := 0 } with
          xAvailCnt := t.xAvailCnt + 1
          sAvailCnt := t.sAvailCnt + 1 }
      else
        let r := { t.table idx with lock := (t.table idx).lock - 1 }
        some { t.setRow idx r with
          xAvailCnt := if r.lock = 0 then t.xAvailCnt + 1 else t.xAvailCnt }

end StudentTable

end PawnDB
