import PawnDB.Basic.Tools
import PawnDB.Table.StudentTuple

set_option autoImplicit false

/-! # Laws of student records

The bytes of a record on the wire and what is read from them determine each other
(`serialize_deserialize`). Two records are equal if they have the same key, the same age and, as C
strings, the same name; that is an equivalence, and equal records have the same hash
(`equals_laws`).
-/

namespace PawnDB

open Bytes

namespace StudentTuple

variable {t u : StudentTuple} {buffer : Buf} {offset : Nat}

/-! ## The wire format -/

/-- **Serializing touches the bytes of the record and no others.** -/
theorem peek_traitSerialize (t : StudentTuple) (buffer : Buf) {offset i : Nat}
    (h : i < offset ∨ offset + serialSize ≤ i) :
    peek (t.traitSerialize buffer offset).2 i = peek buffer i := by
  have hsize : serialSize = nameLength + 1 + 4 := rfl
  simp only [traitSerialize]
  rcases h with h | h
  · rw [peek_poke_of_lt (by omega), peek_poke_of_lt (by omega), peek_poke_of_lt h]
  · rw [peek_poke_of_ge (by omega), peek_poke_of_ge (by omega), peek_poke_of_ge (by omega)]

/-- What is read where a record was written is that record, up to its key and tickstamp. -/
theorem traitDeserialize_traitSerialize (t u : StudentTuple) (buffer : Buf)
    (h : offset + serialSize ≤ bufferWidth) :
    (u.traitDeserialize (t.traitSerialize buffer offset).2 offset).2
      = { u with name := t.name, age := t.age, checksum := t.checksum } := by
  have hsize : serialSize = nameLength + 1 + 4 := rfl
  simp only [traitSerialize, traitDeserialize, mk.injEq, and_true, true_and]
  refine ⟨?_, ?_, ?_⟩
  · -- checksum
    rw [slice_poke_same _ _ _ (by omega), ofLe32_le32]
  · -- name
    rw [slice_poke_of_disjoint (by omega), slice_poke_of_disjoint (by omega),
      slice_poke_same _ _ _ (by omega)]
  · -- age
    rw [peek_poke_of_lt (by omega), peek_poke _ _ _ _ (by omega), if_pos (by omega), Nat.sub_self]
    rfl

theorem traitValChecksum_congr (hname : u.name = t.name) (hage : u.age = t.age)
    (hsum : u.checksum = t.checksum) : u.traitValChecksum = t.traitValChecksum := by
  rw [traitValChecksum, traitValChecksum, computeChecksum, computeChecksum, hname, hage, hsum]

/-- **Serialization is a bijection on the bytes of a record.** It changes no other byte; what is
read back is the name, the age and the checksum, and the rest of the record that is read into
stays; and bytes that are read are written again as they were. -/
theorem serialize_deserialize (t u : StudentTuple) (buffer : Buf)
    (h : offset + serialSize ≤ bufferWidth) :
    (∀ i, i < offset ∨ offset + serialSize ≤ i →
      peek (t.traitSerialize buffer offset).2 i = peek buffer i) ∧
    (∀ v, v = (u.traitDeserialize (t.traitSerialize buffer offset).2 offset).2 →
      v.name = t.name ∧ v.age = t.age ∧ v.checksum = t.checksum ∧
        v.traitValChecksum = t.traitValChecksum ∧ v.key = u.key ∧ v.tickstamp = u.tickstamp) ∧
    ∀ src, slice ((u.traitDeserialize src offset).2.traitSerialize buffer offset).2 offset
      serialSize = slice src offset serialSize := by
  refine ⟨fun i hi => peek_traitSerialize t buffer hi, ?_, fun src =>
    slice_traitSerialize_traitDeserialize u src buffer offset offset h⟩
  rintro v rfl
  rw [traitDeserialize_traitSerialize t u buffer h]
  exact ⟨rfl, rfl, rfl, traitValChecksum_congr rfl rfl rfl, rfl, rfl⟩

/-- A name without a null character, at the end of the buffer. -/
theorem serialize_deserialize_last :
    ((empty.traitDeserialize ((⟨7, 0, fun _ => 120, 5, 9⟩ : StudentTuple).traitSerialize
      (fun _ => 0) (bufferWidth - serialSize)).2 (bufferWidth - serialSize)).2).name
        = fun _ => 120 :=
  ((serialize_deserialize ⟨7, 0, fun _ => 120, 5, 9⟩ empty (fun _ => 0) (by decide)).2.1 _ rfl).1

/-! ## Equality -/

/-- The name as characters, which are signed. -/
def chars (t : StudentTuple) : Fin nameLength → Int := fun i => (t.name i).toInt8.toInt

def traitHash (t : StudentTuple) : SizeT := t.key.toUInt64

def traitEquals (t other : StudentTuple) : Bool :=
  t.key == other.key && arrayCmp 0 t.chars other.chars == 0 && t.age == other.age

theorem traitEquals_iff : t.traitEquals u = true ↔
    t.key = u.key ∧ arrayCmp 0 t.chars u.chars = 0 ∧ t.age = u.age := by
  simp [traitEquals, and_assoc]

theorem traitEquals_equivalence :
    Equivalence fun t u : StudentTuple => t.traitEquals u = true where
  refl := fun _ => traitEquals_iff.mpr ⟨rfl, arrayCmp_equivalence.refl _, rfl⟩
  symm := fun h => by
    obtain ⟨hkey, hname, hage⟩ := traitEquals_iff.mp h
    exact traitEquals_iff.mpr ⟨hkey.symm, arrayCmp_equivalence.symm hname, hage.symm⟩
  trans := fun h h' => by
    obtain ⟨hkey, hname, hage⟩ := traitEquals_iff.mp h
    obtain ⟨hkey', hname', hage'⟩ := traitEquals_iff.mp h'
    exact traitEquals_iff.mpr ⟨hkey.trans hkey', arrayCmp_equivalence.trans hname hname',
      hage.trans hage'⟩

/-- **`array_cmp` is the order of C strings, and equality of records an equivalence** with which
the hash agrees. -/
theorem equals_laws {C : Type} [LinearOrder C] (nul : C) {n : Nat} (a b c : Fin n → C) :
    (arrayCmp nul a b = 0 ↔ SameString nul a b) ∧
    arrayCmp nul b a = - arrayCmp nul a b ∧
    (arrayCmp nul a b ≤ 0 → arrayCmp nul b c ≤ 0 → arrayCmp nul a c ≤ 0) ∧
    (Equivalence fun t u : StudentTuple => t.traitEquals u = true) ∧
    ∀ t u : StudentTuple, t.traitEquals u = true → t.traitHash = u.traitHash := by
  refine ⟨arrayCmp_eq_zero_iff, arrayCmp_antisymm, arrayCmp_trans, traitEquals_equivalence, ?_⟩
  intro t u h
  rw [traitHash, traitHash, (traitEquals_iff.mp h).1]

/-- What comes after the null character does not count, and `é` comes before `a`. -/
example : arrayCmp (n := 3) (0 : Int) ![97, 0, 98] ![97, 0, 99] = 0 ∧
    arrayCmp (n := 1) 0 (fun _ => (233 : UInt8).toInt8.toInt) (fun _ => 97) = -1 := by decide

end StudentTuple

end PawnDB
