import PawnDB.Basic.Params
import PawnDB.Lib.Probing
import PawnDB.Lib.Slots
import Mathlib.Data.Fintype.Pi
import Mathlib.Data.List.FinRange

set_option autoImplicit false

/-! # The lock list of a transaction

Sixteen entries, addressed by the table id with linear probing, so the keys of one table all
start from one slot. `insert` takes the first entry that is free and meets a conflict only on
the way there; `remove` has no bound.
-/

namespace PawnDB

open Probing

/-- Lock operation error codes. -/
inductive LockError
  | none | full | notFound | conflict
  deriving DecidableEq, Repr

/-- `unique_key`: a table id and a tuple key. -/
structure UniqueKey where
  tableId : TpId
  tupleKey : TblRow
  deriving DecidableEq, Repr

/-- The default-constructed key. -/
def UniqueKey.empty : UniqueKey := ⟨0, 0⟩

/-- `hash_`: the table id alone. -/
def UniqueKey.hash (k : UniqueKey) : Nat := k.tableId.toNat

/-- `equals_` -/
def UniqueKey.equals (k other : UniqueKey) : Bool :=
  k.tableId == other.tableId && k.tupleKey == other.tupleKey

@[simp] theorem UniqueKey.equals_iff {k other : UniqueKey} :
    k.equals other = true ↔ k = other := by
  cases k
  cases other
  simp [equals]

/-- `lock_entry` -/
structure LockEntry where
  key : UniqueKey
  type : LockType
  isUsed : Bool
  isDeleted : Bool
  deriving DecidableEq, Repr

/-- The default-constructed entry. -/
def LockEntry.empty : LockEntry := ⟨UniqueKey.empty, .exclusive, false, false⟩

/-- The entry records a lock. -/
def LockEntry.active (e : LockEntry) : Bool := e.isUsed && !e.isDeleted

structure LockList where
  locks : Fin maxLockPerTransaction → LockEntry
  size : SizeT

namespace LockList

/-- The constructor. -/
def init : LockList := ⟨fun _ => LockEntry.empty, 0⟩

variable (l : LockList)

def setEntry (i : Fin maxLockPerTransaction) (e : LockEntry) : LockList :=
  { l with locks := Slots.set l.locks i e }

@[simp] theorem setEntry_locks (i : Fin maxLockPerTransaction) (e : LockEntry) :
    (l.setEntry i e).locks = Slots.set l.locks i e := rfl

/-- `hash_() % N` -/
def home (key : UniqueKey) : Fin maxLockPerTransaction :=
  Fin.ofNat maxLockPerTransaction key.hash

/-- Entry `i` can be overwritten. -/
def free (i : Fin maxLockPerTransaction) : Bool :=
  !(l.locks i).isUsed || (l.locks i).isDeleted

/-- The condition on which the probe loops of `remove` and `search` stop at entry `i`. -/
def keyAt (key : UniqueKey) (i : Fin maxLockPerTransaction) : Bool :=
  (l.locks i).key.equals key && !(l.locks i).isDeleted

/-- Record the lock in the first free entry, unless an entry with its key comes before. -/
def insert (entry : LockEntry) :
    Option (Except LockError (Fin maxLockPerTransaction) × LockList) :=
  match seek (fun i => l.free i || (l.locks i).key.equals entry.key)
      maxLockPerTransaction (home entry.key) with
  | none => none
  | some idx =>
      if l.free idx then
        some (.ok idx,
          { l.setEntry idx { entry with isUsed := true, isDeleted := false } with
            size := l.size + 1 })
      else some (.error .conflict, l)

/-- Look up a key, giving up at an entry that was never used and after one round. -/
def search (key : UniqueKey) : Except LockError (Fin maxLockPerTransaction) :=
  match scan (fun i => !(l.locks i).isUsed) (l.keyAt key) maxLockPerTransaction (home key) with
  | none => .error .notFound
  | some idx => .ok idx

def remove (key : UniqueKey) : Option LockList :=
  match seek (l.keyAt key) maxLockPerTransaction (home key) with
  | none => none
  | some idx =>
      some { l.setEntry idx { l.locks idx with isDeleted := true } with size := l.size - 1 }

def clear : LockList :=
  { locks := fun i => { l.locks i with isUsed := false }, size := 0 }

def full : Bool := decide (UInt64.ofNat maxLockPerTransaction ≤ l.size)

def addLock (key : UniqueKey) (type : LockType) : Option (LockError × LockList) :=
  if l.full then some (.full, l)
  else
    match l.insert ⟨key, type, true, false⟩ with
    | none => none
    | some (.error .conflict, l') => some (.conflict, l')
    | some (_, l') => some (.none, l')

def rmLock (key : UniqueKey) : Option LockList := l.remove key

/-- The search result is used unchecked: without an entry there is no result. -/
def promoteLock (key : UniqueKey) : Option LockList :=
  match l.search key with
  | .error _ => none
  | .ok idx => some (l.setEntry idx { l.locks idx with type := .exclusive })

def getLock (key : UniqueKey) : Except LockError LockType :=
  match l.search key with
  | .error _ => .error .notFound
  | .ok idx => .ok (l.locks idx).type

/-- The check of the handlers: the list has a lock of this type for the key. -/
def holds (key : UniqueKey) (type : LockType) : Bool :=
  match l.getLock key with
  | .error _ => false
  | .ok t => decide (t = type)

theorem holds_iff {l : LockList} {key : UniqueKey} {type : LockType} :
    l.holds key type = true ↔ l.getLock key = .ok type := by
  unfold holds
  split <;> simp [*]

/-- The first active entry from slot `idx` on: where `begin` and `next` leave the iterator,
`none` being `end`. -/
def advanceToValid (idx : Nat) : Option (Fin maxLockPerTransaction) :=
  (List.finRange maxLockPerTransaction).find? fun i => decide (idx ≤ i.val) && (l.locks i).active

end LockList

end PawnDB
