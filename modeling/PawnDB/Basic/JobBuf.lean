import PawnDB.Lib.Bytes
import PawnDB.Basic.Params

set_option autoImplicit false

/-! # Messages in pool buffers

A message is a pool buffer with the number of bytes received, `JobBuf`. The header is

    | op (1) | op_id (1) | txn_id (4) | ack (1) | table_id (1) | tp_key (1) | data...

and the getters refuse to read a field that does not lie within the received bytes. A buffer
is taken from the pool with whatever it held before: the bytes from `bufferSize` on are those
of an earlier message.

A `buf_ref` is modelled by the contents it refers to. The reference count keeps a buffer that
a job or a commit entry refers to out of the pool, and a worker writes only to the buffer of
the job it is handling, so every holder of a reference sees the contents it was given.
-/

namespace PawnDB

open Bytes

/-- `buf_t`: one buffer of the pool. -/
abbrev Buf : Type := Block bufferWidth

/-- Offsets of the header fields. -/
inductive FieldOffset
  | op | opId | txn | ack | tbl | tpKey | tuple
  deriving DecidableEq, Repr

/-- The offset of a field in the message. -/
def FieldOffset.pos : FieldOffset → Nat
  | .op => 0
  | .opId => 1
  | .txn => 2
  | .ack => 6
  | .tbl => 7
  | .tpKey => 8
  | .tuple => 9

/-- `job_buf`: a buffer and the size of the message in it. -/
structure JobBuf where
  buffer : Buf
  bufferSize : Nat

/-- `client_conn`: the bytes of the client's socket address. -/
abbrev ClientConn : Type := List UInt8

/-- `job`: a message and the client it came from. -/
structure Job where
  buf : JobBuf
  conn : ClientConn

/-- A datagram sent to a client, with the `OpAck` the reply was made with. -/
structure Reply where
  ack : OpAck
  data : List UInt8
  conn : ClientConn
  deriving DecidableEq

namespace JobBuf

variable (jb : JobBuf)

/-- The `len` bytes of a field, if they lie within the message. -/
def parseField (offset : FieldOffset) (len : Nat) : Option (Block len) :=
  if offset.pos + len > jb.bufferSize then none else some (slice jb.buffer offset.pos len)

def getOp : Except ParserError OpType :=
  match jb.parseField .op 1 with
  | none => .error .readAfterEnd
  | some raw =>
      match OpType.ofCode (raw 0) with
      | none => .error .invalidValue
      | some op => .ok op

def getOpId : Except ParserError OpId :=
  match jb.parseField .opId 1 with
  | none => .error .readAfterEnd
  | some raw => .ok (raw 0)

def getTxn : Except ParserError TxnId :=
  match jb.parseField .txn 4 with
  | none => .error .readAfterEnd
  | some raw => .ok (ofLe32 raw)

def getTbl : Except ParserError TpId :=
  match jb.parseField .tbl 1 with
  | none => .error .readAfterEnd
  | some raw => .ok (raw 0)

def getKey : Except ParserError TblRow :=
  match jb.parseField .tpKey 1 with
  | none => .error .readAfterEnd
  | some raw => .ok (raw 0)

def getAck : Except ParserError OpAck :=
  match jb.parseField .ack 1 with
  | none => .error .readAfterEnd
  | some raw =>
      match OpAck.ofCode (raw 0) with
      | none => .error .invalidValue
      | some ack => .ok ack

/-- The string in the data section: its length in two bytes, then its characters. The empty
string if it does not lie within the message. -/
def getString : List UInt8 :=
  if FieldOffset.tuple.pos + 2 > jb.bufferSize then []
  else
    let length := (ofLe16 (slice jb.buffer FieldOffset.tuple.pos 2)).toNat
    if FieldOffset.tuple.pos + 2 + length > jb.bufferSize then []
    else read jb.buffer (FieldOffset.tuple.pos + 2) length

/-- The sum of the bytes of the message; `0` for a message without a data section. -/
def getChecksum : UInt32 :=
  if jb.bufferSize ≤ FieldOffset.tuple.pos then 0
  else (List.range jb.bufferSize).foldl (fun sum i => sum + (peek jb.buffer i).toUInt32) 0

/-- Overwrite a field, whatever the size of the message. -/
def setField {len : Nat} (value : Block len) (offset : FieldOffset) : JobBuf :=
  { jb with buffer := poke jb.buffer offset.pos value }

def setAck (ack : OpAck) : JobBuf := jb.setField (byte ack.code) .ack
def setTxn (txn : TxnId) : JobBuf := jb.setField (le32 txn) .txn
def setKey (key : TblRow) : JobBuf := jb.setField (byte key) .tpKey
def setBufferSize (size : Nat) : JobBuf := { jb with bufferSize := size }

/-- The offset where tuple data begins. -/
def getTupleOffset (_ : JobBuf) : Nat := FieldOffset.tuple.pos

@[simp] theorem setField_bufferSize {len : Nat} (value : Block len) (offset : FieldOffset) :
    (jb.setField value offset).bufferSize = jb.bufferSize := rfl

@[simp] theorem setAck_bufferSize (ack : OpAck) :
    (jb.setAck ack).bufferSize = jb.bufferSize := rfl

@[simp] theorem setTxn_bufferSize (txn : TxnId) :
    (jb.setTxn txn).bufferSize = jb.bufferSize := rfl

@[simp] theorem setKey_bufferSize (key : TblRow) :
    (jb.setKey key).bufferSize = jb.bufferSize := rfl

@[simp] theorem setBufferSize_bufferSize (size : Nat) :
    (jb.setBufferSize size).bufferSize = size := rfl

/-- A field that is read lies within the received bytes. -/
theorem pos_le_of_parseField {jb : JobBuf} {offset : FieldOffset} {len : Nat}
    {raw : Block len} (h : jb.parseField offset len = some raw) :
    offset.pos + len ≤ jb.bufferSize := by
  unfold parseField at h
  split at h
  · cases h
  · omega

/-! ## What lies behind the message -/

/-- Two buffers with the same message. What an earlier message has left behind it may differ. -/
structure Same (jb jb' : JobBuf) : Prop where
  size : jb'.bufferSize = jb.bufferSize
  bytes : Agree jb.bufferSize jb.buffer jb'.buffer

namespace Same

variable {jb jb' : JobBuf}

/-- A field is read from the message or not at all. -/
theorem parseField (h : Same jb jb') (offset : FieldOffset) (len : Nat) :
    jb'.parseField offset len = jb.parseField offset len := by
  unfold JobBuf.parseField
  rw [h.size]
  split
  · rfl
  · rw [h.bytes.slice (by omega)]

theorem getOp (h : Same jb jb') : jb'.getOp = jb.getOp := by
  rw [JobBuf.getOp, JobBuf.getOp, h.parseField]

theorem getOpId (h : Same jb jb') : jb'.getOpId = jb.getOpId := by
  rw [JobBuf.getOpId, JobBuf.getOpId, h.parseField]

theorem getTxn (h : Same jb jb') : jb'.getTxn = jb.getTxn := by
  rw [JobBuf.getTxn, JobBuf.getTxn, h.parseField]

theorem getAck (h : Same jb jb') : jb'.getAck = jb.getAck := by
  rw [JobBuf.getAck, JobBuf.getAck, h.parseField]

theorem getTbl (h : Same jb jb') : jb'.getTbl = jb.getTbl := by
  rw [JobBuf.getTbl, JobBuf.getTbl, h.parseField]

theorem getKey (h : Same jb jb') : jb'.getKey = jb.getKey := by
  rw [JobBuf.getKey, JobBuf.getKey, h.parseField]

theorem getString (h : Same jb jb') : jb'.getString = jb.getString := by
  unfold JobBuf.getString
  rw [h.size]
  split
  · rfl
  · rw [h.bytes.slice (by omega)]
    dsimp only
    split
    · rfl
    · refine List.map_congr_left fun i hi => (h.bytes _ ?_).symm
      have := List.mem_range.mp hi
      omega

theorem getChecksum (h : Same jb jb') : jb'.getChecksum = jb.getChecksum := by
  unfold JobBuf.getChecksum
  rw [h.size]
  split
  · rfl
  · refine List.foldl_ext _ _ _ fun sum i hi => ?_
    rw [h.bytes i (List.mem_range.mp hi)]

theorem setField {len : Nat} (h : Same jb jb') (value : Block len) (offset : FieldOffset) :
    Same (jb.setField value offset) (jb'.setField value offset) :=
  ⟨h.size, h.bytes.poke_same value⟩

end Same

/-- The buffer with another byte at position `i`. -/
def flip (i : Nat) : JobBuf := { jb with buffer := poke jb.buffer i (byte (peek jb.buffer i + 1)) }

theorem same_flip {i : Nat} (h : jb.bufferSize ≤ i) : Same jb (jb.flip i) :=
  ⟨rfl, fun _ hj => (peek_poke_of_lt (by omega)).symm⟩

theorem peek_flip {i : Nat} (h : i < bufferWidth) :
    peek (jb.flip i).buffer i = peek jb.buffer i + 1 := by
  rw [flip, peek_poke _ _ _ _ h, if_pos (by omega), Nat.sub_self]
  rfl

theorem peek_flip_ne {i : Nat} (h : i < bufferWidth) :
    peek (jb.flip i).buffer i ≠ peek jb.buffer i := by
  rw [peek_flip jb h]
  intro he
  grind

end JobBuf

/-- A request as a client sends it, in a zeroed buffer. -/
def Job.request (op : OpType) (tbl : TpId) (key : TblRow) (data : List UInt8) : Job :=
  ⟨⟨ofList ([op.code, 0, 0, 0, 0, 0, 0, tbl, key] ++ data) 0, 9 + data.length⟩, []⟩

end PawnDB
