import Mathlib.Data.UInt

set_option autoImplicit false

/-! # Parameters and codes

The constants and type aliases of `params.h` and the enumerations of the protocol. The
integer types are the fixed-width ones of the source, so counters wrap where the source's
do. `size_t` is 64 bits wide. An enumeration without its `None` member is the error type of
a `Result`; where a function returns the bare error code, `none` is a member.
-/

namespace PawnDB

/-- `tbl_row_t`: tuple keys and row counters. -/
abbrev TblRow : Type := UInt8

/-- `tp_id_t`: table ids. -/
abbrev TpId : Type := UInt8

/-- `txn_id_t` -/
abbrev TxnId : Type := UInt32

/-- `op_t`: operation ids. -/
abbrev OpId : Type := UInt8

/-- `lk_t`: the lock word of a row. -/
abbrev LkT : Type := Int8

/-- `std::size_t` -/
abbrev SizeT : Type := UInt64

abbrev bufferWidth : Nat := 32768
abbrev bufferRows : Nat := 64
abbrev maxItemPerChannel : Nat := 16
abbrev maxTransactions : Nat := 64
abbrev maxLockPerTransaction : Nat := 16
abbrev maxCommitPerTransaction : Nat := 16
abbrev maxTimeoutRetry : Nat := 8

/-- The fields of one byte. -/
instance neZero_one : NeZero 1 := ⟨by decide⟩

instance neZero_bufferRows : NeZero bufferRows := ⟨by decide⟩
instance neZero_maxItemPerChannel : NeZero maxItemPerChannel := ⟨by decide⟩
instance neZero_maxTransactions : NeZero maxTransactions := ⟨by decide⟩
instance neZero_maxLockPerTransaction : NeZero maxLockPerTransaction := ⟨by decide⟩
instance neZero_maxCommitPerTransaction : NeZero maxCommitPerTransaction := ⟨by decide⟩

/-- Queue operation error codes. -/
inductive QueueError
  | none | empty | full | timeout
  deriving DecidableEq, Repr

/-- Lock type. -/
inductive LockType
  | shared | exclusive
  deriving DecidableEq, Repr

/-- Operation types, in the order of their codes; `maxOpValue` is the sentinel. -/
inductive OpType
  | startTxn | addTuple | sharedRead | exclusiveRead | yieldRead | promote | update | delete
  | commitTxn | abortTxn | maxOpValue
  deriving DecidableEq, Repr

/-- Operation acknowledgements, in the order of their codes. -/
inductive OpAck
  | success | busy | badOp | badTable | badTp | badTxn | badPhase | badData | badAccess
  | commitFull | timeout | aborted | deadTxn
  deriving DecidableEq, Repr

/-- Parser error codes. -/
inductive ParserError
  | readAfterEnd | invalidValue
  deriving DecidableEq, Repr

/-- The code of an operation. -/
def OpType.code (op : OpType) : UInt8 := UInt8.ofNat op.ctorIdx

/-- The code of an acknowledgement. -/
def OpAck.code (ack : OpAck) : UInt8 := UInt8.ofNat ack.ctorIdx

/-- The operation with the given code, below the sentinel. -/
def OpType.ofCode (raw : UInt8) : Option OpType :=
  [OpType.startTxn, .addTuple, .sharedRead, .exclusiveRead, .yieldRead, .promote, .update,
    .delete, .commitTxn, .abortTxn][raw.toNat]?

/-- The acknowledgement with the given code. -/
def OpAck.ofCode (raw : UInt8) : Option OpAck :=
  [OpAck.success, .busy, .badOp, .badTable, .badTp, .badTxn, .badPhase, .badData, .badAccess,
    .commitFull, .timeout, .aborted, .deadTxn][raw.toNat]?

theorem OpType.ofCode_code (op : OpType) :
    OpType.ofCode op.code = if op = .maxOpValue then none else some op := by
  cases op <;> rfl

theorem OpAck.ofCode_code (ack : OpAck) : OpAck.ofCode ack.code = some ack := by
  cases ack <;> rfl

/-! ## `size_t` arithmetic -/

theorem SizeT.toNat_succ {x : SizeT} (h : x.toNat < 1000) : (x + 1).toNat = x.toNat + 1 := by
  rw [UInt64.toNat_add]
  have : (1 : UInt64).toNat = 1 := rfl
  omega

theorem SizeT.toNat_pred {x : SizeT} (h : 0 < x.toNat) : (x - 1).toNat = x.toNat - 1 := by
  have h1 : (1 : UInt64) ≤ x := UInt64.le_iff_toNat_le.mpr h
  rw [UInt64.toNat_sub_of_le _ _ h1]
  rfl

end PawnDB
