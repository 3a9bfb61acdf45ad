import PawnDB.Basic.JobBuf

set_option autoImplicit false

/-! # The getters see the received bytes

A getter refuses a field exactly when it is not received as a whole, and its result depends on
nothing but the received bytes (`parses_received`). A string comes out only if its length and all
its characters have been received.
-/

namespace PawnDB

open Bytes

/-- The number of bytes of a field. The tuple data has no width of its own. -/
def FieldOffset.width : FieldOffset → Nat
  | .op | .opId | .ack | .tbl | .tpKey => 1
  | .txn => 4
  | .tuple => 0

/-- An operation code is in range exactly if it is below the sentinel. -/
theorem OpType.ofCode_eq_none_iff {raw : UInt8} :
    OpType.ofCode raw = none ↔ OpType.maxOpValue.code ≤ raw := by
  rw [OpType.ofCode, List.getElem?_eq_none_iff, UInt8.le_iff_toNat_le]
  rfl

theorem OpAck.ofCode_eq_none_iff {raw : UInt8} :
    OpAck.ofCode raw = none ↔ OpAck.deadTxn.code < raw := by
  rw [OpAck.ofCode, List.getElem?_eq_none_iff, UInt8.lt_iff_toNat_lt]
  rfl

namespace JobBuf

variable (jb : JobBuf)

/-- The field lies wholly within the received bytes. -/
def Received (offset : FieldOffset) : Prop := offset.pos + offset.width ≤ jb.bufferSize

/-- The value of the two bytes before the characters of a string. -/
def stringLength : Nat := (ofLe16 (slice jb.buffer FieldOffset.tuple.pos 2)).toNat

variable {jb}

theorem parseField_eq_none_iff {offset : FieldOffset} {len : Nat} :
    jb.parseField offset len = none ↔ ¬ offset.pos + len ≤ jb.bufferSize := by
  unfold parseField
  split <;> simp <;> omega

theorem parseField_eq_some_iff {offset : FieldOffset} {len : Nat} {raw : Block len} :
    jb.parseField offset len = some raw ↔
      offset.pos + len ≤ jb.bufferSize ∧ slice jb.buffer offset.pos len = raw := by
  unfold parseField
  split <;> simp <;> omega

/-! ## Where a getter fails -/

theorem getOp_readAfterEnd : jb.getOp = .error .readAfterEnd ↔ ¬ jb.Received .op := by
  rw [Received, FieldOffset.width, ← parseField_eq_none_iff, getOp]
  split
  · next h => simp [h]
  · next raw h => split <;> simp [h]

theorem getAck_readAfterEnd : jb.getAck = .error .readAfterEnd ↔ ¬ jb.Received .ack := by
  rw [Received, FieldOffset.width, ← parseField_eq_none_iff, getAck]
  split
  · next h => simp [h]
  · next raw h => split <;> simp [h]

theorem getOpId_readAfterEnd : jb.getOpId = .error .readAfterEnd ↔ ¬ jb.Received .opId := by
  rw [Received, FieldOffset.width, ← parseField_eq_none_iff, getOpId]
  split <;> next h => simp [h]

theorem getTxn_readAfterEnd : jb.getTxn = .error .readAfterEnd ↔ ¬ jb.Received .txn := by
  rw [Received, FieldOffset.width, ← parseField_eq_none_iff, getTxn]
  split <;> next h => simp [h]

theorem getTbl_readAfterEnd : jb.getTbl = .error .readAfterEnd ↔ ¬ jb.Received .tbl := by
  rw [Received, FieldOffset.width, ← parseField_eq_none_iff, getTbl]
  split <;> next h => simp [h]

theorem getKey_readAfterEnd : jb.getKey = .error .readAfterEnd ↔ ¬ jb.Received .tpKey := by
  rw [Received, FieldOffset.width, ← parseField_eq_none_iff, getKey]
  split <;> next h => simp [h]

theorem getOp_invalidValue : jb.getOp = .error .invalidValue ↔
    jb.Received .op ∧ OpType.maxOpValue.code ≤ peek jb.buffer FieldOffset.op.pos := by
  rw [← OpType.ofCode_eq_none_iff, getOp, Received, FieldOffset.width]
  split
  · next h => simp [parseField_eq_none_iff.mp h]
  · next raw h =>
      obtain ⟨hle, rfl⟩ := parseField_eq_some_iff.mp h
      rw [slice]
      simp only [Fin.val_zero, Nat.add_zero]
      split <;> next hc => simp [hle, hc]

theorem getAck_invalidValue : jb.getAck = .error .invalidValue ↔
    jb.Received .ack ∧ OpAck.deadTxn.code < peek jb.buffer FieldOffset.ack.pos := by
  rw [← OpAck.ofCode_eq_none_iff, getAck, Received, FieldOffset.width]
  split
  · next h => simp [parseField_eq_none_iff.mp h]
  · next raw h =>
      obtain ⟨hle, rfl⟩ := parseField_eq_some_iff.mp h
      rw [slice]
      simp only [Fin.val_zero, Nat.add_zero]
      split <;> next hc => simp [hle, hc]

/-- A string has its length and all its characters within the received bytes. -/
theorem le_of_getString (h : jb.getString ≠ []) :
    FieldOffset.tuple.pos + 2 ≤ jb.bufferSize ∧
      FieldOffset.tuple.pos + 2 + jb.stringLength ≤ jb.bufferSize ∧
      jb.getString = read jb.buffer (FieldOffset.tuple.pos + 2) jb.stringLength := by
  unfold getString at h ⊢
  split at h
  · exact absurd rfl h
  next hlen =>
  rw [if_neg hlen]
  dsimp only at h ⊢
  split at h
  · exact absurd rfl h
  next hstr =>
  rw [if_neg hstr]
  exact ⟨by omega, Nat.le_of_not_lt hstr, rfl⟩

/-- **Parsing sees exactly the received bytes.** -/
theorem parses_received (jb : JobBuf) :
    (jb.getOp = .error .readAfterEnd ↔ ¬ jb.Received .op) ∧
    (jb.getOpId = .error .readAfterEnd ↔ ¬ jb.Received .opId) ∧
    (jb.getTxn = .error .readAfterEnd ↔ ¬ jb.Received .txn) ∧
    (jb.getAck = .error .readAfterEnd ↔ ¬ jb.Received .ack) ∧
    (jb.getTbl = .error .readAfterEnd ↔ ¬ jb.Received .tbl) ∧
    (jb.getKey = .error .readAfterEnd ↔ ¬ jb.Received .tpKey) ∧
    (jb.getOp = .error .invalidValue ↔
      jb.Received .op ∧ OpType.maxOpValue.code ≤ peek jb.buffer FieldOffset.op.pos) ∧
    (jb.getAck = .error .invalidValue ↔
      jb.Received .ack ∧ OpAck.deadTxn.code < peek jb.buffer FieldOffset.ack.pos) ∧
    (jb.getString ≠ [] → FieldOffset.tuple.pos + 2 ≤ jb.bufferSize ∧
      FieldOffset.tuple.pos + 2 + jb.stringLength ≤ jb.bufferSize ∧
      jb.getString = read jb.buffer (FieldOffset.tuple.pos + 2) jb.stringLength) ∧
    ∀ jb', jb.Same jb' → jb'.getOp = jb.getOp ∧ jb'.getOpId = jb.getOpId ∧
      jb'.getTxn = jb.getTxn ∧ jb'.getAck = jb.getAck ∧ jb'.getTbl = jb.getTbl ∧
      jb'.getKey = jb.getKey ∧ jb'.getString = jb.getString ∧
      jb'.getChecksum = jb.getChecksum :=
  ⟨getOp_readAfterEnd, getOpId_readAfterEnd, getTxn_readAfterEnd, getAck_readAfterEnd,
    getTbl_readAfterEnd, getKey_readAfterEnd, getOp_invalidValue, getAck_invalidValue,
    le_of_getString, fun _ h => ⟨h.getOp, h.getOpId, h.getTxn, h.getAck, h.getTbl, h.getKey,
      h.getString, h.getChecksum⟩⟩

end JobBuf

end PawnDB
