import PawnDB.Basic.JobBuf

set_option autoImplicit false

/-! # Composing messages

`ret_buf` is the class with which a message is put together. It is written independently of
`job_buf`, which takes messages apart, and shares with it only the offsets of the fields.

The two agree. A field that a setter wrote is read back as that value by either class, and every
other field is read as before (`header_of_setters`). A string is written with a length of 16
bits, and the check whether it fits is made with that length: `setString_all_or_nothing_iff`
says for which strings this is all or nothing.
-/

namespace PawnDB

open Bytes

/-- `ret_buf`: a buffer and the size of the message in it. -/
structure RetBuf where
  buffer : Buf
  bufferSize : Nat

namespace RetBuf

variable (rb : RetBuf)

/-- The `len` bytes of a field, if they lie within the message. -/
def parseField (offset : FieldOffset) (len : Nat) : Option (Block len) :=
  if offset.pos + len > rb.bufferSize then none else some (slice rb.buffer offset.pos len)

def getOp : Except ParserError OpType :=
  match rb.parseField .op 1 with
  | none => .error .readAfterEnd
  | some raw =>
      match OpType.ofCode (raw 0) with
      | none => .error .invalidValue
      | some op => .ok op

def getOpId : Except ParserError OpId :=
  match rb.parseField .opId 1 with
  | none => .error .readAfterEnd
  | some raw => .ok (raw 0)

def getTxn : Except ParserError TxnId :=
  match rb.parseField .txn 4 with
  | none => .error .readAfterEnd
  | some raw => .ok (ofLe32 raw)

def getTbl : Except ParserError TpId :=
  match rb.parseField .tbl 1 with
  | none => .error .readAfterEnd
  | some raw => .ok (raw 0)

def getKey : Except ParserError TblRow :=
  match rb.parseField .tpKey 1 with
  | none => .error .readAfterEnd
  | some raw => .ok (raw 0)

def getAck : Except ParserError OpAck :=
  match rb.parseField .ack 1 with
  | none => .error .readAfterEnd
  | some raw =>
      match OpAck.ofCode (raw 0) with
      | none => .error .invalidValue
      | some ack => .ok ack

/-- The string in the data section, or the empty string if it does not lie within the message. -/
def getString : List UInt8 :=
  if FieldOffset.tuple.pos + 2 > rb.bufferSize then []
  else
    let length := (ofLe16 (slice rb.buffer FieldOffset.tuple.pos 2)).toNat
    if FieldOffset.tuple.pos + 2 + length > rb.bufferSize then []
    else read rb.buffer (FieldOffset.tuple.pos + 2) length

/-- Overwrite a field, whatever the size of the message. -/
def setField {len : Nat} (value : Block len) (offset : FieldOffset) : RetBuf :=
  { rb with buffer := poke rb.buffer offset.pos value }

def setOp (op : OpType) : RetBuf := rb.setField (byte op.code) .op
def setOpId (id : OpId) : RetBuf := rb.setField (byte id) .opId
def setAck (ack : OpAck) : RetBuf := rb.setField (byte ack.code) .ack
def setTxn (txn : TxnId) : RetBuf := rb.setField (le32 txn) .txn
def setTbl (tbl : TpId) : RetBuf := rb.setField (byte tbl) .tbl
def setKey (key : TblRow) : RetBuf := rb.setField (byte key) .tpKey

/-- Write a string into the data section, if it fits. Its length is narrowed to 16 bits first. -/
def setString (str : List UInt8) : RetBuf :=
  let length := UInt16.ofNat str.length
  if FieldOffset.tuple.pos + 2 + length.toNat > bufferWidth then rb
  else
    let buffer := poke rb.buffer FieldOffset.tuple.pos (le16 length)
    let buffer := poke buffer (FieldOffset.tuple.pos + 2) (ofList str 0 : Block length.toNat)
    ⟨buffer, FieldOffset.tuple.pos + 2 + length.toNat⟩

/-- The same bytes and size as a `job_buf`. -/
def toJobBuf : JobBuf := ⟨rb.buffer, rb.bufferSize⟩

@[simp] theorem setField_bufferSize {len : Nat} (value : Block len) (offset : FieldOffset) :
    (rb.setField value offset).bufferSize = rb.bufferSize := rfl

variable {rb}

/-- A field that was written is read back. -/
theorem parseField_setField_self {len : Nat} {value : Block len} {offset : FieldOffset}
    (hs : offset.pos + len ≤ rb.bufferSize) (hw : offset.pos + len ≤ bufferWidth) :
    (rb.setField value offset).parseField offset len = some value := by
  rw [parseField, setField_bufferSize, if_neg (by omega), setField, slice_poke_same _ _ _ hw]

/-- Writing one field is not seen in another. -/
theorem parseField_setField_of_disjoint {len n : Nat} {value : Block len}
    {offset other : FieldOffset}
    (h : other.pos + n ≤ offset.pos ∨ offset.pos + len ≤ other.pos) :
    (rb.setField value offset).parseField other n = rb.parseField other n := by
  rw [parseField, parseField, setField_bufferSize, setField, slice_poke_of_disjoint h]

/-! ## The header -/

/-- A setter call. -/
inductive Setter
  | op (op : OpType)
  | opId (id : OpId)
  | txn (txn : TxnId)
  | ack (ack : OpAck)
  | tbl (tbl : TpId)
  | key (key : TblRow)

/-- The field that a call sets. -/
def Setter.field : Setter → FieldOffset
  | .op _ => .op
  | .opId _ => .opId
  | .txn _ => .txn
  | .ack _ => .ack
  | .tbl _ => .tbl
  | .key _ => .tpKey

/-- Make the call. -/
def call (rb : RetBuf) : Setter → RetBuf
  | .op op => rb.setOp op
  | .opId id => rb.setOpId id
  | .txn txn => rb.setTxn txn
  | .ack ack => rb.setAck ack
  | .tbl tbl => rb.setTbl tbl
  | .key key => rb.setKey key

def Setter.op? : Setter → Option OpType
  | .op x => some x
  | _ => none

def Setter.opId? : Setter → Option OpId
  | .opId x => some x
  | _ => none

def Setter.txn? : Setter → Option TxnId
  | .txn x => some x
  | _ => none

def Setter.ack? : Setter → Option OpAck
  | .ack x => some x
  | _ => none

def Setter.tbl? : Setter → Option TpId
  | .tbl x => some x
  | _ => none

def Setter.key? : Setter → Option TblRow
  | .key x => some x
  | _ => none

end RetBuf

/-- What the getters make of the six fields. -/
structure Header where
  op : Except ParserError OpType
  opId : Except ParserError OpId
  txn : Except ParserError TxnId
  ack : Except ParserError OpAck
  tbl : Except ParserError TpId
  key : Except ParserError TblRow

def JobBuf.header (jb : JobBuf) : Header :=
  ⟨jb.getOp, jb.getOpId, jb.getTxn, jb.getAck, jb.getTbl, jb.getKey⟩

namespace RetBuf

def header (rb : RetBuf) : Header :=
  ⟨rb.getOp, rb.getOpId, rb.getTxn, rb.getAck, rb.getTbl, rb.getKey⟩

/-- A field after a sequence of calls: the last value set, or else what was there before. -/
def lastSet {α : Type} (value : Setter → Option α) (calls : List Setter)
    (before : Except ParserError α) : Except ParserError α :=
  match (calls.filterMap value).getLast? with
  | some v => .ok v
  | none => before

/-- What the header should be after a sequence of calls. -/
def expected (before : Header) (calls : List Setter) : Header where
  op := lastSet Setter.op? calls before.op
  opId := lastSet Setter.opId? calls before.opId
  txn := lastSet Setter.txn? calls before.txn
  ack := lastSet Setter.ack? calls before.ack
  tbl := lastSet Setter.tbl? calls before.tbl
  key := lastSet Setter.key? calls before.key

theorem lastSet_snoc {α : Type} {value : Setter → Option α} {calls : List Setter} {c : Setter}
    {before : Except ParserError α} : lastSet value (calls ++ [c]) before
      = lastSet value [c] (lastSet value calls before) := by
  cases hc : value c with
  | none => simp [lastSet, hc]
  | some v => simp [lastSet, hc]

variable {rb : RetBuf}

/-- The two classes decode alike. -/
theorem header_toJobBuf : rb.toJobBuf.header = rb.header := rfl

theorem ofCode_code_of_ne {op : OpType} (h : op ≠ .maxOpValue) :
    OpType.ofCode op.code = some op := by
  rw [OpType.ofCode_code, if_neg h]

/-- One call sets its field and no other. -/
theorem header_call {c : Setter} (hsize : FieldOffset.tuple.pos ≤ rb.bufferSize)
    (hop : ∀ op, c = .op op → op ≠ .maxOpValue) :
    (rb.call c).header = expected rb.header [c] := by
  have h9 : 9 ≤ rb.bufferSize := hsize
  have hself : ∀ {len : Nat} {value : Block len} {offset : FieldOffset},
      offset.pos + len ≤ 9 → (rb.setField value offset).parseField offset len = some value :=
    fun h => parseField_setField_self (h.trans h9) (h.trans (by decide))
  -- a setter writes its own field, and the other five are at other offsets
  cases c with
  | op op =>
      have hcode := ofCode_code_of_ne (hop op rfl)
      simp [call, setOp, header, expected, lastSet, getOp, getOpId, getTxn, getAck, getTbl, getKey,
        Setter.op?, Setter.opId?, Setter.txn?, Setter.ack?, Setter.tbl?, Setter.key?,
        hself (show FieldOffset.op.pos + 1 ≤ 9 by decide), byte, hcode,
        parseField_setField_of_disjoint, FieldOffset.pos]
  | opId id =>
      simp [call, setOpId, header, expected, lastSet, getOp, getOpId, getTxn, getAck, getTbl,
        getKey, Setter.op?, Setter.opId?, Setter.txn?, Setter.ack?, Setter.tbl?, Setter.key?,
        hself (show FieldOffset.opId.pos + 1 ≤ 9 by decide), byte,
        parseField_setField_of_disjoint, FieldOffset.pos]
  | txn txn =>
      simp [call, setTxn, header, expected, lastSet, getOp, getOpId, getTxn, getAck, getTbl,
        getKey, Setter.op?, Setter.opId?, Setter.txn?, Setter.ack?, Setter.tbl?, Setter.key?,
        hself (show FieldOffset.txn.pos + 4 ≤ 9 by decide),
        parseField_setField_of_disjoint, FieldOffset.pos]
  | ack ack =>
      simp [call, setAck, header, expected, lastSet, getOp, getOpId, getTxn, getAck, getTbl,
        getKey, Setter.op?, Setter.opId?, Setter.txn?, Setter.ack?, Setter.tbl?, Setter.key?,
        hself (show FieldOffset.ack.pos + 1 ≤ 9 by decide), byte, OpAck.ofCode_code,
        parseField_setField_of_disjoint, FieldOffset.pos]
  | tbl tbl =>
      simp [call, setTbl, header, expected, lastSet, getOp, getOpId, getTxn, getAck, getTbl,
        getKey, Setter.op?, Setter.opId?, Setter.txn?, Setter.ack?, Setter.tbl?, Setter.key?,
        hself (show FieldOffset.tbl.pos + 1 ≤ 9 by decide), byte,
        parseField_setField_of_disjoint, FieldOffset.pos]
  | key key =>
      simp [call, setKey, header, expected, lastSet, getOp, getOpId, getTxn, getAck, getTbl,
        getKey, Setter.op?, Setter.opId?, Setter.txn?, Setter.ack?, Setter.tbl?, Setter.key?,
        hself (show FieldOffset.tpKey.pos + 1 ≤ 9 by decide), byte,
        parseField_setField_of_disjoint, FieldOffset.pos]

theorem call_bufferSize (c : Setter) : (rb.call c).bufferSize = rb.bufferSize := by
  cases c <;> rfl

/-- No call touches the data section. -/
theorem peek_call (c : Setter) {i : Nat} (hi : FieldOffset.tuple.pos ≤ i) :
    peek (rb.call c).buffer i = peek rb.buffer i := by
  cases c <;> exact peek_poke_of_ge (le_trans (by decide) hi)

theorem calls_bufferSize (calls : List Setter) :
    (calls.foldl call rb).bufferSize = rb.bufferSize := by
  induction calls generalizing rb with
  | nil => rfl
  | cons c calls ih => rw [List.foldl_cons, ih, call_bufferSize]

theorem peek_calls (calls : List Setter) {i : Nat} (hi : FieldOffset.tuple.pos ≤ i) :
    peek (calls.foldl call rb).buffer i = peek rb.buffer i := by
  induction calls generalizing rb with
  | nil => rfl
  | cons c calls ih => rw [List.foldl_cons, ih, peek_call c hi]

theorem header_calls (calls : List Setter) (hsize : FieldOffset.tuple.pos ≤ rb.bufferSize)
    (hops : ∀ op, .op op ∈ calls → op ≠ .maxOpValue) :
    (calls.foldl call rb).header = expected rb.header calls := by
  induction calls using List.reverseRecOn with
  | nil => rfl
  | append_singleton calls c ih =>
      have ih := ih fun op hop => hops op (List.mem_append_left _ hop)
      have hc : ∀ op, c = .op op → op ≠ .maxOpValue := fun op he =>
        hops op (by rw [he]; exact List.mem_append_right _ (List.mem_singleton.mpr rfl))
      have hstep : ((calls.foldl call rb).call c).header
          = expected (calls.foldl call rb).header [c] :=
        header_call (by rw [calls_bufferSize]; exact hsize) hc
      rw [List.foldl_append, List.foldl_cons, List.foldl_nil, hstep, ih]
      simp only [expected, lastSet_snoc]

/-- Writes that do not overlap can be made in either order. -/
theorem setField_comm {m n : Nat} {x : Block m} {y : Block n} {f g : FieldOffset}
    (h : f.pos + m ≤ g.pos ∨ g.pos + n ≤ f.pos) :
    (rb.setField x f).setField y g = (rb.setField y g).setField x f := by
  simp only [setField, mk.injEq, and_true]
  funext i
  simp only [poke]
  by_cases hf : f.pos ≤ i.val ∧ i.val < f.pos + m <;>
    by_cases hg : g.pos ≤ i.val ∧ i.val < g.pos + n
  · omega
  · simp [hf, hg]
  · simp [hf, hg]
  · simp [hf, hg]

theorem call_comm {c d : Setter} (h : c.field ≠ d.field) :
    (rb.call c).call d = (rb.call d).call c := by
  cases c <;> cases d <;> first
    | exact absurd rfl h
    | exact setField_comm (by decide)

/-- **Encoder and decoder of the header agree.** After any setter calls both classes decode each
field that was set as the last value set and each other field as before; the data section stays;
calls for different fields commute; and the setters that `job_buf` has write the same bytes. -/
theorem header_of_setters (rb : RetBuf) (calls : List Setter)
    (hsize : FieldOffset.tuple.pos ≤ rb.bufferSize)
    (hops : ∀ op, .op op ∈ calls → op ≠ .maxOpValue) :
    (calls.foldl call rb).header = expected rb.header calls ∧
    (calls.foldl call rb).toJobBuf.header = expected rb.toJobBuf.header calls ∧
    (∀ i, FieldOffset.tuple.pos ≤ i →
      peek (calls.foldl call rb).buffer i = peek rb.buffer i) ∧
    (∀ c d : Setter, c.field ≠ d.field → (rb.call c).call d = (rb.call d).call c) ∧
    (∀ txn, rb.toJobBuf.setTxn txn = (rb.setTxn txn).toJobBuf) ∧
    (∀ ack, rb.toJobBuf.setAck ack = (rb.setAck ack).toJobBuf) ∧
    (∀ key, rb.toJobBuf.setKey key = (rb.setKey key).toJobBuf) := by
  refine ⟨header_calls calls hsize hops, ?_, fun i hi => peek_calls calls hi,
    fun c d hcd => call_comm hcd, fun _ => rfl, fun _ => rfl, fun _ => rfl⟩
  rw [header_toJobBuf, header_toJobBuf]
  exact header_calls calls hsize hops

theorem header_of_setters_twice :
    ([Setter.op .update, .key 3, .op .delete].foldl call
      ⟨fun _ => 0, FieldOffset.tuple.pos⟩).header.op = .ok .delete := by
  rw [(header_of_setters ⟨fun _ => 0, FieldOffset.tuple.pos⟩
    [.op .update, .key 3, .op .delete] (Nat.le_refl _) (by simp)).1]
  rfl

/-! ## Strings -/

/-- What `setString` should do with a string that fits: both classes read it back, and only the
bytes from the data section up to the new size have changed. -/
def Stored (rb rb' : RetBuf) (str : List UInt8) : Prop :=
  rb'.getString = str ∧ rb'.toJobBuf.getString = str ∧
    ∀ i, i < FieldOffset.tuple.pos ∨ rb'.bufferSize ≤ i →
      peek rb'.buffer i = peek rb.buffer i

/-- The string is stored or nothing changes, and it is stored if and only if it fits. -/
def AllOrNothing (rb : RetBuf) (str : List UInt8) : Prop :=
  (Stored rb (rb.setString str) str ∨ rb.setString str = rb) ∧
    (Stored rb (rb.setString str) str ↔
      FieldOffset.tuple.pos + 2 + str.length ≤ bufferWidth)

/-- The length that is written and checked. -/
def narrowed (str : List UInt8) : Nat := str.length % 65536

theorem toNat_length (str : List UInt8) :
    (UInt16.ofNat str.length).toNat = narrowed str := UInt16.toNat_ofNat'

theorem setString_of_not_fits {str : List UInt8}
    (h : ¬ FieldOffset.tuple.pos + 2 + narrowed str ≤ bufferWidth) : rb.setString str = rb := by
  unfold setString
  dsimp only
  rw [toNat_length, if_pos (by omega)]

/-- The size and the bytes after a call that writes. -/
theorem setString_of_fits {str : List UInt8}
    (h : FieldOffset.tuple.pos + 2 + narrowed str ≤ bufferWidth) :
    (rb.setString str).bufferSize = FieldOffset.tuple.pos + 2 + narrowed str ∧
      (rb.setString str).getString = str.take (narrowed str) ∧
      ∀ i, i < FieldOffset.tuple.pos ∨ (rb.setString str).bufferSize ≤ i →
        peek (rb.setString str).buffer i = peek rb.buffer i := by
  -- the length is written in 16 bits, and only that many bytes follow
  have hset : rb.setString str
      = ⟨poke (poke rb.buffer FieldOffset.tuple.pos (le16 (UInt16.ofNat str.length)))
          (FieldOffset.tuple.pos + 2)
          (ofList str 0 : Block (UInt16.ofNat str.length).toNat),
        FieldOffset.tuple.pos + 2 + (UInt16.ofNat str.length).toNat⟩ := by
    unfold setString
    dsimp only
    rw [toNat_length, if_neg (by omega)]
  rw [hset]
  refine ⟨by rw [toNat_length], ?_, fun i hi => ?_⟩
  · -- the string is written after its length and does not touch it
    have hlen : slice (poke (poke rb.buffer FieldOffset.tuple.pos
          (le16 (UInt16.ofNat str.length))) (FieldOffset.tuple.pos + 2)
          (ofList str 0 : Block (UInt16.ofNat str.length).toNat)) FieldOffset.tuple.pos 2
        = le16 (UInt16.ofNat str.length) := by
      rw [slice_poke_of_disjoint (Or.inl (Nat.le_refl _)), slice_poke_same _ _ _ (by decide)]
    unfold getString
    dsimp only
    rw [if_neg (by omega), hlen, ofLe16_le16, if_neg (by omega),
      read_poke_ofList _ _ _ _ ?_ ?_, toNat_length]
    · rw [toNat_length]
      exact Nat.mod_le _ _
    · rw [toNat_length]
      exact h
  · change i < _ ∨ _ ≤ i at hi
    change peek (poke (poke _ _ _) _ _) i = _
    rcases hi with hi | hi
    · rw [peek_poke_of_lt (Nat.lt_of_lt_of_le hi (by omega)), peek_poke_of_lt hi]
    · rw [peek_poke_of_ge hi, peek_poke_of_ge (Nat.le_trans (Nat.le_add_right _ _) hi)]

/-- A string that fits is stored. -/
theorem stored_of_fits {str : List UInt8}
    (h : FieldOffset.tuple.pos + 2 + str.length ≤ bufferWidth) :
    Stored rb (rb.setString str) str := by
  have hn : narrowed str = str.length := Nat.mod_eq_of_lt
    (Nat.lt_of_le_of_lt (Nat.le_trans (Nat.le_add_left _ _) h) (by decide))
  have hfits : FieldOffset.tuple.pos + 2 + narrowed str ≤ bufferWidth := by
    rw [hn]
    exact h
  obtain ⟨-, hget, hrest⟩ := setString_of_fits hfits
  rw [hn, List.take_length] at hget
  exact ⟨hget, hget, hrest⟩

/-- A string whose narrowed length fits, but which does not fit itself, is not stored. -/
theorem not_stored_of_narrowed {str : List UInt8}
    (h : ¬ FieldOffset.tuple.pos + 2 + str.length ≤ bufferWidth)
    (hn : FieldOffset.tuple.pos + 2 + narrowed str ≤ bufferWidth) :
    ¬ Stored rb (rb.setString str) str := by
  rintro ⟨hget, -, -⟩
  rw [(setString_of_fits hn).2.1] at hget
  have hlen := congrArg List.length hget
  rw [List.length_take] at hlen
  omega

/-- The bytes and the size that a call would write are there already. -/
structure AlreadyThere (rb : RetBuf) (str : List UInt8) : Prop where
  size : rb.bufferSize = FieldOffset.tuple.pos + 2 + narrowed str
  length : slice rb.buffer FieldOffset.tuple.pos 2 = le16 (UInt16.ofNat str.length)
  chars : slice rb.buffer (FieldOffset.tuple.pos + 2) (UInt16.ofNat str.length).toNat
    = ofList str 0

theorem setString_eq_self_iff {str : List UInt8}
    (h : FieldOffset.tuple.pos + 2 + narrowed str ≤ bufferWidth) :
    rb.setString str = rb ↔ AlreadyThere rb str := by
  have hlen := toNat_length str
  unfold setString
  dsimp only
  rw [if_neg (by omega)]
  constructor
  · intro he
    have hb := congrArg RetBuf.buffer he
    dsimp only at hb
    refine ⟨by rw [← he, ← hlen], ?_, ?_⟩
    · rw [← hb, slice_poke_of_disjoint (Or.inl (Nat.le_refl _)),
        slice_poke_same _ _ _ (by decide)]
    · rw [← hb, slice_poke_same _ _ _ (by omega)]
  · rintro ⟨hsize, hl, hc⟩
    rw [← hl, poke_slice_self, ← hc, poke_slice_self, hlen, ← hsize]

/-- **When `set_string` is all or nothing.** A string that fits is stored. One that does not fit
leaves everything as it was exactly if its length does not fit either once it is narrowed to 16
bits, or what the call writes is there already; and what is there must not be the string. -/
theorem setString_all_or_nothing_iff (rb : RetBuf) (str : List UInt8) :
    AllOrNothing rb str ↔ FieldOffset.tuple.pos + 2 + str.length ≤ bufferWidth ∨
      (bufferWidth < FieldOffset.tuple.pos + 2 + narrowed str ∨ AlreadyThere rb str) ∧
        rb.getString ≠ str := by
  by_cases hfit : FieldOffset.tuple.pos + 2 + str.length ≤ bufferWidth
  · have hst : Stored rb (rb.setString str) str := stored_of_fits hfit
    exact ⟨fun _ => Or.inl hfit, fun _ => ⟨Or.inl hst, fun _ => hfit, fun _ => hst⟩⟩
  · -- the string does not fit: nothing may have changed
    have hkept : rb.setString str = rb ↔
        bufferWidth < FieldOffset.tuple.pos + 2 + narrowed str ∨ AlreadyThere rb str := by
      by_cases hn : FieldOffset.tuple.pos + 2 + narrowed str ≤ bufferWidth
      · rw [setString_eq_self_iff hn]
        exact ⟨Or.inr, fun h => h.resolve_left (by omega)⟩
      · exact ⟨fun _ => Or.inl (by omega), fun _ => setString_of_not_fits hn⟩
    -- and unchanged bytes are the string only if it was there before
    have hstored : rb.setString str = rb →
        (Stored rb (rb.setString str) str ↔ rb.getString = str) := fun he => by
      rw [he]
      exact ⟨fun h => h.1, fun h => ⟨h, h, fun _ _ => rfl⟩⟩
    rw [← hkept]
    constructor
    · rintro ⟨hcase, hiff⟩
      have hns : ¬ Stored rb (rb.setString str) str := fun h => hfit (hiff.mp h)
      have he := hcase.resolve_left hns
      exact Or.inr ⟨he, fun hget => hns ((hstored he).mpr hget)⟩
    · intro h
      obtain ⟨he, hne⟩ := h.resolve_left hfit
      exact ⟨Or.inr he, fun hst => absurd ((hstored he).mp hst) hne, fun hf => absurd hf hfit⟩

/-- A string of 65536 characters does not fit and is neither stored nor refused: the buffer
then says that it holds the empty string. -/
theorem not_always_all_or_nothing : ¬ ∀ (rb : RetBuf) (str : List UInt8),
    AllOrNothing rb str := by
  intro hall
  have hlen : (List.replicate 65536 (120 : UInt8)).length = 65536 := List.length_replicate
  have hn : FieldOffset.tuple.pos + 2 + narrowed (List.replicate 65536 120) ≤ bufferWidth := by
    rw [narrowed, hlen]
    decide
  have hfit : ¬ FieldOffset.tuple.pos + 2 + (List.replicate 65536 (120 : UInt8)).length
      ≤ bufferWidth := by
    rw [hlen]
    decide
  obtain ⟨hcase, -⟩ := hall ⟨fun _ => 0, FieldOffset.tuple.pos⟩ (List.replicate 65536 120)
  have hkept := hcase.resolve_left (not_stored_of_narrowed hfit hn)
  have hsize := ((setString_eq_self_iff hn).mp hkept).size
  rw [narrowed, hlen] at hsize
  exact absurd hsize (by decide)

end RetBuf

end PawnDB
