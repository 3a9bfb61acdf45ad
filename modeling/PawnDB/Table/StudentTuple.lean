import PawnDB.Basic.JobBuf

set_option autoImplicit false

/-! # Student records

A `StudentTuple` exists in two byte layouts. On the wire it is name, age and checksum, 37
bytes (`traitSerialize`, `traitDeserialize`). In a queued commit entry it is the raw object,
44 bytes copied by `memcpy`: the fields in declaration order with two bytes of padding at the
end (`objectBytes`, `ofObjectBytes`). Only the raw object carries the key and the tickstamp.
-/

namespace PawnDB

open Bytes

/-- Serializer error codes. -/
inductive SerializerError
  | exceededWidth
  deriving DecidableEq, Repr

/-- `StudentTuple::NAME_LENGTH` -/
abbrev nameLength : Nat := 32

/-- A student record. -/
structure StudentTuple where
  checksum : UInt32
  tickstamp : UInt32
  name : Block nameLength
  age : UInt8
  key : TblRow
  deriving DecidableEq

namespace StudentTuple

/-- The default-constructed record. -/
def empty : StudentTuple := ⟨0, 0, fun _ => 0, 0, 0⟩

/-- The number of bytes of a record on the wire. -/
abbrev serialSize : Nat := 4 + nameLength + 1

/-- Write name, age and checksum from `offset` on; returns the number of bytes written. -/
def traitSerialize (t : StudentTuple) (buffer : Buf) (offset : Nat) :
    Except SerializerError Nat × Buf :=
  let buffer := poke buffer offset t.name
  let buffer := poke buffer (offset + nameLength) (byte t.age)
  let buffer := poke buffer (offset + nameLength + 1) (le32 t.checksum)
  (.ok serialSize, buffer)

/-- Read name, age and checksum from `offset` on, whatever lies there; key and tickstamp stay
as they are. -/
def traitDeserialize (t : StudentTuple) (buffer : Buf) (offset : Nat) :
    Except SerializerError Nat × StudentTuple :=
  (.ok serialSize,
    { t with
      name := slice buffer offset nameLength
      age := peek buffer (offset + nameLength)
      checksum := ofLe32 (slice buffer (offset + nameLength + 1) 4) })

/-- **What is read from a message is what is written to a reply.** -/
theorem slice_traitSerialize_traitDeserialize (t : StudentTuple) (src buffer : Buf)
    (offset offset' : Nat) (h : offset' + serialSize ≤ bufferWidth) :
    slice ((t.traitDeserialize src offset).2.traitSerialize buffer offset').2 offset' serialSize
      = slice src offset serialSize := by
  funext i
  have hi : i.val < 37 := i.isLt
  have hw : offset' + i.val < bufferWidth := by
    have : serialSize = 37 := rfl
    omega
  have hname : nameLength = 32 := rfl
  simp only [traitSerialize, traitDeserialize, le32_ofLe32]
  rw [slice, slice]
  -- the byte is in the checksum, is the age, or is in the name
  rcases Nat.lt_trichotomy i.val 32 with hlt | heq | hgt
  · rw [peek_poke_of_lt (by omega), peek_poke_of_lt (by omega), peek_poke _ _ _ _ hw,
      if_pos (by omega), show offset' + i.val - offset' = i.val by omega]
    exact dif_pos hlt
  · rw [peek_poke_of_lt (by omega), peek_poke _ _ _ _ hw, if_pos (by omega), heq]
    rw [show offset' + 32 - (offset' + nameLength) = 0 by omega]
    rfl
  · rw [peek_poke _ _ _ _ hw, if_pos (by omega),
      show offset' + i.val - (offset' + nameLength + 1) = i.val - 33 by omega]
    rw [peek, dif_pos (show i.val - 33 < 4 by omega), slice,
      show offset + nameLength + 1 + (i.val - 33) = offset + i.val by omega]

/-! ## Checksums -/

/-- `static_cast<cksum_t>` of a `char`, which is signed. -/
def charToCksum (c : UInt8) : UInt32 := c.toInt8.toInt32.toUInt32

def computeChecksum (t : StudentTuple) : UInt32 :=
  (List.finRange nameLength).foldl (fun result i => result + charToCksum (t.name i)) 0
    + t.age.toUInt32

def traitValChecksum (t : StudentTuple) : Bool := t.checksum == t.computeChecksum

/-! ## The raw object -/

/-- `sizeof(StudentTuple)` -/
abbrev objectSize : Nat := 44

/-- The object representation. The two bytes of padding at its end have no defined value and
nothing reads them; they are taken to be `0`. -/
def objectBytes (t : StudentTuple) : Block objectSize :=
  let b : Block objectSize := fun _ => 0
  let b := poke b 0 (le32 t.checksum)
  let b := poke b 4 (le32 t.tickstamp)
  let b := poke b 8 t.name
  let b := poke b 40 (byte t.age)
  poke b 41 (byte t.key)

/-- The record whose object representation is `b`. -/
def ofObjectBytes (b : Block objectSize) : StudentTuple where
  checksum := ofLe32 (slice b 0 4)
  tickstamp := ofLe32 (slice b 4 4)
  name := slice b 8 nameLength
  age := peek b 40
  key := peek b 41

@[simp] theorem ofObjectBytes_objectBytes (t : StudentTuple) :
    ofObjectBytes (objectBytes t) = t := by
  obtain ⟨checksum, tickstamp, name, age, key⟩ := t
  simp only [ofObjectBytes, objectBytes, mk.injEq]
  refine ⟨?_, ?_, ?_, ?_, ?_⟩
  · rw [slice_poke_of_disjoint (by decide), slice_poke_of_disjoint (by decide),
      slice_poke_of_disjoint (by decide), slice_poke_of_disjoint (by decide),
      slice_poke_same _ _ _ (by decide), ofLe32_le32]
  · rw [slice_poke_of_disjoint (by decide), slice_poke_of_disjoint (by decide),
      slice_poke_of_disjoint (by decide), slice_poke_same _ _ _ (by decide), ofLe32_le32]
  · rw [slice_poke_of_disjoint (by decide), slice_poke_of_disjoint (by decide),
      slice_poke_same _ _ _ (by decide)]
  · rw [peek_poke_of_lt (by decide), peek_poke _ _ _ _ (by decide), if_pos (by decide)]
    rfl
  · rw [peek_poke _ _ _ _ (by decide), if_pos (by decide)]
    rfl

/-- `memcpy` of the object to the start of a buffer. -/
def copyTo (t : StudentTuple) (buffer : Buf) : Buf := poke buffer 0 t.objectBytes

/-- `memcpy` of an object from the start of a buffer. -/
def copyFrom (buffer : Buf) : StudentTuple := ofObjectBytes (slice buffer 0 objectSize)

/-- What is copied into a buffer is what is copied back. -/
@[simp] theorem copyFrom_copyTo (t : StudentTuple) (buffer : Buf) :
    copyFrom (t.copyTo buffer) = t := by
  rw [copyFrom, copyTo, slice_poke_same _ _ _ (by decide), ofObjectBytes_objectBytes]

end StudentTuple

end PawnDB
