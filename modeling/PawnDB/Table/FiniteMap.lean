import PawnDB.Table.LiveKeys
import Mathlib.Data.Set.Card

set_option autoImplicit false

/-! # The table is a finite map

`Store` is what the table is for: tuples under keys, and the key that the next insert assigns.
`Represents t m` says that the live rows of `t` are the tuples of `m`, and `Serves t m` that
every operation of `t` answers and acts as on `m`.

The two hold along every history in which fewer than 256 inserts are made before a `clear`
(`serves_of_run`). What carries them is that the table is consistent (`Wf`) and that the next
key is free, which the number of inserts guarantees (`Aged`).
-/

namespace PawnDB

open StudentTable Probing

/-- The operations of the student table. -/
inductive StudentOp
  | insert (tuple : StudentTuple)
  | search (key : TblRow)
  | remove (key : TblRow)
  | write (tuple : StudentTuple)
  | clear
  | waitShared
  | waitExclusive
  | promote (key : TblRow)
  | release (key : TblRow)
  deriving DecidableEq

/-- What an operation returned. -/
inductive StudentResult
  | table (r : Except StudentTableError StudentTuple)
  | tupleTable (r : Except TupleTableError StudentTuple)
  | promoted (r : Except TupleTableError Unit)

/-! ## Lock operations -/

/-- At most a lock word of the table changed. -/
def LockOnly (t t' : StudentTable) : Prop := t' = t ∨ ∃ i l, Relocked t i l t'

namespace LockOnly

variable {t t' : StudentTable}

theorem waitShared (t : StudentTable) : LockOnly t t.traitWaitShared.2 := by
  rcases hr : t.traitWaitShared with ⟨_ | tuple, t'⟩
  · exact Or.inl (traitWaitShared_error hr)
  · obtain ⟨i, -, -, -, hi⟩ := traitWaitShared_ok hr
    exact Or.inr ⟨i, _, hi⟩

theorem waitExclusive (t : StudentTable) : LockOnly t t.traitWaitExclusive.2 := by
  rcases hr : t.traitWaitExclusive with ⟨_ | tuple, t'⟩
  · exact Or.inl (traitWaitExclusive_error hr)
  · obtain ⟨i, -, -, -, hi⟩ := traitWaitExclusive_ok hr
    exact Or.inr ⟨i, _, hi⟩

theorem promote {key : TblRow} {r : Except TupleTableError Unit}
    (hr : t.traitPromote key = some (r, t')) : LockOnly t t' := by
  rcases r with _ | _
  · exact Or.inl (traitPromote_error hr)
  · obtain ⟨i, -, -, hi⟩ := traitPromote_ok hr
    exact Or.inr ⟨i, _, hi⟩

theorem release {key : TblRow} (hr : t.traitRelease key = some t') : LockOnly t t' := by
  obtain ⟨i, -, hi⟩ := traitRelease_some hr
  exact Or.inr ⟨i, _, hi⟩

theorem fewer (h : LockOnly t t') : Fewer t t' := by
  rcases h with rfl | ⟨i, l, hi⟩
  · exact Fewer.refl t'
  · exact Fewer.of_relocked hi

theorem wf (h : LockOnly t t') (hw : t.Wf) : t'.Wf := by
  rcases h with rfl | ⟨i, l, hi⟩
  · exact hw
  · exact hi.wf hw

end LockOnly

theorem StudentTable.traitPromote_isSome {t : StudentTable} {key : TblRow} {i : Fin rows}
    (h : t.seekKey key = some i) : ∃ r t', t.traitPromote key = some (r, t') := by
  unfold traitPromote
  rw [h]
  dsimp only
  split
  · exact ⟨_, _, rfl⟩
  · exact ⟨_, _, rfl⟩

/-! ## The abstract map -/

/-- Tuples under keys, and the key of the next insert. -/
structure Store where
  tuples : TblRow → Option StudentTuple
  nextKey : TblRow

namespace Store

def empty : Store := ⟨fun _ => none, 0⟩

variable (m : Store)

/-- The number of keys in the map. -/
noncomputable def size : Nat := {k | (m.tuples k).isSome = true}.ncard

def search (key : TblRow) : Except StudentTableError StudentTuple :=
  match m.tuples key with
  | some tuple => .ok tuple
  | none => .error .notFound

/-- What an operation does to the map. -/
def after : StudentOp → Store
  | .insert tuple =>
      ⟨Slots.set m.tuples m.nextKey (some { tuple with key := m.nextKey }), m.nextKey + 1⟩
  | .remove key => { m with tuples := Slots.set m.tuples key none }
  | .write tuple => { m with tuples := Slots.set m.tuples tuple.key (some tuple) }
  | .clear => empty
  | .search _ | .waitShared | .waitExclusive | .promote _ | .release _ => m

end Store

/-! ## Representation -/

/-- The live rows of the table are the tuples of the map. -/
structure Represents (t : StudentTable) (m : Store) : Prop where
  nextKey : t.nextKey = m.nextKey
  tuples : ∀ key tuple, m.tuples key = some tuple ↔
    ∃ i, t.IsRow key i ∧ (t.table i).tuple = tuple

/-- Some live row has the key. -/
def StudentTable.hasKey (t : StudentTable) (key : TblRow) : Bool :=
  (List.finRange rows).any fun i => t.live i && t.keyOf i == key

theorem StudentTable.hasKey_iff {t : StudentTable} {key : TblRow} :
    t.hasKey key = true ↔ ∃ i, t.IsRow key i := by
  simp [hasKey, IsRow]

theorem StudentTable.wf_traitClear (t : StudentTable) : t.traitClear.Wf where
  unique := fun _ _ h => by cases h
  linked := fun _ h => by cases h
  size := (Slots.count_eq_zero.mpr fun _ => rfl).symm

/-- **Search finds exactly the live rows.** -/
theorem StudentTable.traitSearch_eq_ok_iff {t : StudentTable} (hw : t.Wf) {key : TblRow}
    {i : Fin rows} : t.traitSearch key = .ok i ↔ t.IsRow key i := by
  have hscan : scan (fun j => !(t.table j).isUsed) (t.keyAt key) rows (home key) = some i ↔
      t.IsRow key i := by
    constructor
    · intro h
      -- it stops at a row in use with the key that is not deleted
      obtain ⟨j, -, -, hhit, hstop, -⟩ := scan_eq_some_iff.mp h
      obtain ⟨hkey, hdel⟩ := keyAt_iff.mp hhit
      exact ⟨live_iff.mpr ⟨by simpa using hstop, hdel⟩, hkey⟩
    · rintro ⟨hlive, rfl⟩
      -- every row on the way to a live row is in use, and only that row has its key
      obtain ⟨hused, hdel⟩ := live_iff.mp hlive
      refine scan_of_linked (hw.linked i hlive) hused (keyAt_iff.mpr ⟨rfl, hdel⟩) ?_
      intro j huj hj
      obtain ⟨hkey, hdj⟩ := keyAt_iff.mp hj
      exact hw.unique j i (live_iff.mpr ⟨huj, hdj⟩) hlive hkey
  rw [← hscan, traitSearch]
  cases scan (fun j => !(t.table j).isUsed) (t.keyAt key) rows (home key) with
  | none => simp
  | some j => simp

/-- The tuple that the live row with this key has. -/
def StudentTable.tuples (t : StudentTable) (key : TblRow) : Option StudentTuple :=
  match t.traitSearch key with
  | .ok i => some (t.table i).tuple
  | .error _ => none

theorem StudentTable.tuples_eq_some_iff {t : StudentTable} (hw : t.Wf) {key : TblRow}
    {tuple : StudentTuple} :
    t.tuples key = some tuple ↔ ∃ i, t.IsRow key i ∧ (t.table i).tuple = tuple := by
  simp only [← traitSearch_eq_ok_iff hw]
  unfold tuples
  cases t.traitSearch key with
  | ok i => simp
  | error e => simp

namespace Represents

variable {t t' : StudentTable} {m : Store}

theorem init : Represents StudentTable.init Store.empty where
  nextKey := rfl
  tuples := fun key tuple => by
    constructor
    · intro h
      cases h
    · rintro ⟨i, ⟨hlive, -⟩, -⟩
      cases hlive

theorem cleared (t : StudentTable) : Represents t.traitClear Store.empty where
  nextKey := rfl
  tuples := fun key tuple => by
    constructor
    · intro h
      cases h
    · rintro ⟨i, ⟨hlive, -⟩, -⟩
      cases hlive

/-- A table represents the map of its own tuples, and no other one. -/
theorem of_wf (hw : t.Wf) : Represents t ⟨t.tuples, t.nextKey⟩ where
  nextKey := rfl
  tuples := fun _ _ => tuples_eq_some_iff hw

theorem tuples_eq (h : Represents t m) (hw : t.Wf) : t.tuples = m.tuples := by
  funext key
  refine Option.ext fun tuple => ?_
  rw [tuples_eq_some_iff hw, h.tuples]

theorem isSome_iff (h : Represents t m) {key : TblRow} :
    (m.tuples key).isSome = true ↔ ∃ i, t.IsRow key i := by
  rw [Option.isSome_iff_exists]
  constructor
  · rintro ⟨tuple, htuple⟩
    obtain ⟨i, hi, -⟩ := (h.tuples key tuple).mp htuple
    exact ⟨i, hi⟩
  · rintro ⟨i, hi⟩
    exact ⟨_, (h.tuples key _).mpr ⟨i, hi, rfl⟩⟩

/-- Lock words are no concern of the map. -/
theorem lockOnly (h : Represents t m) (hl : LockOnly t t') : Represents t' m := by
  rcases hl with rfl | ⟨i, l, hi⟩
  · exact h
  · refine ⟨hi.nextKey.trans h.nextKey, fun key tuple => ?_⟩
    rw [h.tuples]
    exact exists_congr fun j => by rw [hi.isRow, hi.tuple]

/-- An operation that touches one row, with key `key`, sets that key and no other. -/
theorem set {key : TblRow} {v : Option StudentTuple} {i : Fin rows} {next : TblRow}
    (h : Represents t m) (hnext : t'.nextKey = next)
    (hkey : ∀ tuple, v = some tuple ↔ ∃ j, t'.IsRow key j ∧ (t'.table j).tuple = tuple)
    (hoff : ∀ j, j ≠ i → t'.table j = t.table j)
    (hi : ∀ k, k ≠ key → ¬ t.IsRow k i ∧ ¬ t'.IsRow k i) :
    Represents t' ⟨Slots.set m.tuples key v, next⟩ where
  nextKey := hnext
  tuples := fun k tuple => by
    dsimp only
    by_cases hk : k = key
    · rw [hk, Slots.set_self]
      exact hkey tuple
    · rw [Slots.set_of_ne _ _ hk, h.tuples]
      refine exists_congr fun j => ?_
      by_cases hj : j = i
      · rw [hj]
        exact ⟨fun hrow => absurd hrow.1 (hi k hk).1, fun hrow => absurd hrow.1 (hi k hk).2⟩
      · rw [IsRow, IsRow, live, live, keyOf, keyOf, hoff j hj]

theorem inserted {i : Fin rows} {tuple : StudentTuple} (h : Represents t m)
    (hr : Inserted t i tuple t') (hf : t.Fresh) : Represents t' (m.after (.insert tuple)) := by
  rw [Store.after, ← h.nextKey]
  have hnew : t'.IsRow t.nextKey i := ⟨hr.live_self, hr.keyOf_self⟩
  have htuple : (t'.table i).tuple = { tuple with key := t.nextKey } := by
    rw [hr.table, Slots.set_self]
  refine h.set hr.nextKey (fun u => ?_) (fun j hj => hr.row_of_ne hj) fun k hk => ⟨?_, ?_⟩
  · rw [Option.some_inj, ← htuple]
    constructor
    · intro hu
      exact ⟨i, hnew, hu⟩
    · rintro ⟨j, ⟨hlive, hkey⟩, hu⟩
      -- no old row has the new key
      by_cases hji : j = i
      · rw [← hu, hji]
      · rw [hr.live_of_ne hji] at hlive
        rw [hr.keyOf_of_ne hji] at hkey
        exact absurd hkey (hf j hlive)
  · intro hold
    rw [IsRow, hr.notLive] at hold
    cases hold.1
  · intro hold
    exact hk (hold.2.symm.trans hnew.2)

theorem removed {i : Fin rows} {key : TblRow} (h : Represents t m) (hw : t.Wf)
    (hi : t.IsRow key i) (hr : Removed t i t') : Represents t' (m.after (.remove key)) := by
  rw [Store.after]
  refine h.set (hr.nextKey.trans h.nextKey) (fun u => ?_) (fun j hj => hr.row_of_ne hj)
    fun k hk => ⟨?_, ?_⟩
  · refine ⟨fun hu => (by cases hu), ?_⟩
    rintro ⟨j, ⟨hlive, hkey⟩, -⟩
    -- the removed row was the only one with its key
    have hji := hr.ne_of_live hlive
    rw [hr.live_of_ne hji] at hlive
    rw [hr.keyOf] at hkey
    exact absurd (IsRow.unique hw ⟨hlive, hkey⟩ hi) hji
  · intro hold
    exact hk (hold.2.symm.trans hi.2)
  · intro hold
    exact hr.ne_of_live hold.1 rfl

theorem written {i : Fin rows} {tuple : StudentTuple} (h : Represents t m) (hw : t.Wf)
    (hi : t.IsRow tuple.key i) (hr : Written t i tuple t') :
    Represents t' (m.after (.write tuple)) := by
  rw [Store.after]
  have hnew : t'.IsRow tuple.key i := hr.isRow.mpr hi
  refine h.set (hr.nextKey.trans h.nextKey) (fun u => ?_) (fun j hj => hr.row_of_ne hj)
    fun k hk => ⟨?_, ?_⟩
  · rw [Option.some_inj, ← hr.tuple_self]
    constructor
    · intro hu
      refine ⟨i, ?_, hu⟩
      rw [hr.tuple_self]
      exact hnew
    · rintro ⟨j, hj, hu⟩
      rw [hr.tuple_self] at hj
      rw [← hu, IsRow.unique (hr.wf hw) hj hnew]
  · intro hold
    exact hk (hold.2.symm.trans hi.2)
  · intro hold
    exact hk (hold.2.symm.trans hnew.2)

/-- Live rows and keys of the map are the same in number. -/
theorem size_eq (h : Represents t m) (hw : t.Wf) : t.size.toNat = m.size := by
  have hkeys : {k | (m.tuples k).isSome = true}
      = ((Finset.univ.filter fun i => t.live i = true).image t.keyOf : Finset TblRow) := by
    ext k
    rw [Set.mem_ofPred_eq, h.isSome_iff, Finset.mem_coe, Finset.mem_image]
    refine exists_congr fun i => ?_
    rw [Finset.mem_filter, IsRow]
    exact and_congr_left fun _ => ⟨fun hl => ⟨Finset.mem_univ i, hl⟩, fun hl => hl.2⟩
  rw [Store.size, hkeys, Set.ncard_coe_finset, hw.size, Slots.count]
  refine (Finset.card_image_of_injOn fun i hi j hj => ?_).symm
  exact hw.unique i j (Finset.mem_filter.mp hi).2 (Finset.mem_filter.mp hj).2

end Represents

/-! ## Service -/

/-- Every operation of the table ends, answers as the map does and acts as on the map. -/
structure Serves (t : StudentTable) (m : Store) : Prop where
  /-- `size` is the number of keys. -/
  size : t.size.toNat = m.size
  /-- An insert stores its argument under the next key and touches no other live row. -/
  insert : t.traitFull = false → ∀ tuple, ∃ i t', t.traitInsert tuple = some (i, t') ∧
    (t'.table i).tuple = { tuple with key := m.nextKey } ∧
    Represents t' (m.after (.insert tuple)) ∧ ∀ j, t.live j = true → t'.table j = t.table j
  /-- A remove takes that key away. -/
  remove : ∀ key, (m.tuples key).isSome = true →
    ∃ t', t.traitRemove key = some t' ∧ Represents t' (m.after (.remove key))
  /-- A write replaces the tuple of that key. -/
  write : ∀ tuple, (m.tuples tuple.key).isSome = true →
    ∃ t', t.traitWrite tuple = some t' ∧ Represents t' (m.after (.write tuple))
  /-- A search returns the tuple that is stored, if one is. -/
  search : ∀ key, (t.traitSearch key).map (fun i => (t.table i).tuple) = m.search key
  /-- The other probe loops stop at the row that search finds. -/
  seek : ∀ key i, t.traitSearch key = .ok i → t.seekKey key = some i
  /-- Lock operations end and leave the map as it is. -/
  promote : ∀ key, (m.tuples key).isSome = true →
    ∃ r t', t.traitPromote key = some (r, t') ∧ Represents t' m
  release : ∀ key, (m.tuples key).isSome = true →
    ∃ t', t.traitRelease key = some t' ∧ Represents t' m
  waitShared : Represents t.traitWaitShared.2 m
  waitExclusive : Represents t.traitWaitExclusive.2 m
  clear : Represents t.traitClear (m.after .clear)

namespace Represents

variable {t t' : StudentTable} {m : Store}

theorem search (h : Represents t m) (hw : t.Wf) (key : TblRow) :
    (t.traitSearch key).map (fun i => (t.table i).tuple) = m.search key := by
  rw [Store.search]
  cases hs : t.traitSearch key with
  | ok i =>
      have hrow := (traitSearch_eq_ok_iff hw).mp hs
      rw [(h.tuples key _).mpr ⟨i, hrow, rfl⟩]
      rfl
  | error e =>
      have hnone : m.tuples key = none := by
        rw [← Option.not_isSome_iff_eq_none, h.isSome_iff]
        rintro ⟨i, hi⟩
        rw [(traitSearch_eq_ok_iff hw).mpr hi] at hs
        cases hs
      rw [hnone]
      cases e
      rfl

/-- A consistent table whose next key is free serves the map it represents. -/
theorem serves (h : Represents t m) (hw : t.Wf) (hf : t.Fresh) : Serves t m where
  size := h.size_eq hw
  insert := fun hfull tuple => by
    obtain ⟨⟨i, t'⟩, hi⟩ := Option.isSome_iff_exists.mp (traitInsert_isSome hw hfull tuple)
    have hr := traitInsert_some hi
    refine ⟨i, t', hi, ?_, h.inserted hr hf, fun j hj => hr.row_of_ne (hr.ne_of_live hj)⟩
    rw [hr.table, Slots.set_self, h.nextKey]
  remove := fun key hkey => by
    obtain ⟨i, hi⟩ := h.isSome_iff.mp hkey
    have hseek := seekKey_of_isRow hw hi
    obtain ⟨t', ht'⟩ := traitRemove_isSome hseek
    obtain ⟨j, hj, hr⟩ := traitRemove_some ht'
    rw [hseek] at hj
    obtain rfl := Option.some.inj hj
    exact ⟨t', ht', h.removed hw hi hr⟩
  write := fun tuple hkey => by
    obtain ⟨i, hi⟩ := h.isSome_iff.mp hkey
    have hseek := seekKey_of_isRow hw hi
    obtain ⟨t', ht'⟩ := traitWrite_isSome hseek
    obtain ⟨j, hj, hr⟩ := traitWrite_some ht'
    rw [hseek] at hj
    obtain rfl := Option.some.inj hj
    exact ⟨t', ht', h.written hw hi hr⟩
  search := h.search hw
  seek := fun key i hi => seekKey_of_isRow hw ((traitSearch_eq_ok_iff hw).mp hi)
  promote := fun key hkey => by
    obtain ⟨i, hi⟩ := h.isSome_iff.mp hkey
    obtain ⟨r, t', ht'⟩ := traitPromote_isSome (seekKey_of_isRow hw hi)
    exact ⟨r, t', ht', h.lockOnly (LockOnly.promote ht')⟩
  release := fun key hkey => by
    obtain ⟨i, hi⟩ := h.isSome_iff.mp hkey
    obtain ⟨t', ht'⟩ := traitRelease_isSome (seekKey_of_isRow hw hi)
    exact ⟨t', ht', h.lockOnly (LockOnly.release ht')⟩
  waitShared := h.lockOnly (LockOnly.waitShared t)
  waitExclusive := h.lockOnly (LockOnly.waitExclusive t)
  clear := cleared t

end Represents

/-! ## Histories -/

/-- The table and the number of inserts since the constructor or the last `clear`. -/
structure CountedTable where
  table : StudentTable
  inserts : Nat

namespace CountedTable

def init : CountedTable := ⟨StudentTable.init, 0⟩

/-- One operation: an insert when the table is not full, a remove, write, promote or release of
a live key, or any of the others. -/
def step (s : CountedTable) : StudentOp → Option (CountedTable × List StudentResult)
  | .insert tuple =>
      (s.table.traitInsert tuple).map fun r =>
        (⟨r.2, s.inserts + 1⟩, [.table (.ok (r.2.table r.1).tuple)])
  | .search key =>
      some (s, [.table ((s.table.traitSearch key).map fun i => (s.table.table i).tuple)])
  | .remove key =>
      if s.table.hasKey key then
        (s.table.traitRemove key).map fun t => ({ s with table := t }, [])
      else none
  | .write tuple =>
      if s.table.hasKey tuple.key then
        (s.table.traitWrite tuple).map fun t => ({ s with table := t }, [])
      else none
  | .clear => some (⟨s.table.traitClear, 0⟩, [])
  | .waitShared =>
      some ({ s with table := s.table.traitWaitShared.2 },
        [.tupleTable s.table.traitWaitShared.1])
  | .waitExclusive =>
      some ({ s with table := s.table.traitWaitExclusive.2 },
        [.tupleTable s.table.traitWaitExclusive.1])
  | .promote key =>
      if s.table.hasKey key then
        (s.table.traitPromote key).map fun r => ({ s with table := r.2 }, [.promoted r.1])
      else none
  | .release key =>
      if s.table.hasKey key then
        (s.table.traitRelease key).map fun t => ({ s with table := t }, [])
      else none

def machine : Machine CountedTable StudentOp StudentResult := ⟨step⟩

/-- The table is consistent, and its rows are as old as the number of inserts says. -/
def Ok (s : CountedTable) : Prop := s.table.Wf ∧ ∃ birth, Aged s.table s.inserts birth

theorem ok_init : init.Ok := ⟨wf_init, _, Aged.init fun _ => 0⟩

variable {s s' : CountedTable} {op : StudentOp} {out : List StudentResult} {m : Store}

/-- What a step does: a row is inserted, removed or written, the table is cleared, or at most a
lock word changes. -/
inductive Did (s : CountedTable) : StudentOp → CountedTable → Prop
  | inserted {tuple : StudentTuple} {i : Fin rows} {t' : StudentTable} :
      Inserted s.table i tuple t' → Did s (.insert tuple) ⟨t', s.inserts + 1⟩
  | removed {key : TblRow} {i : Fin rows} {t' : StudentTable} :
      s.table.IsRow key i → Removed s.table i t' → Did s (.remove key) ⟨t', s.inserts⟩
  | written {tuple : StudentTuple} {i : Fin rows} {t' : StudentTable} :
      s.table.IsRow tuple.key i → Written s.table i tuple t' →
      Did s (.write tuple) ⟨t', s.inserts⟩
  | cleared : Did s .clear ⟨s.table.traitClear, 0⟩
  | locks {op : StudentOp} {t' : StudentTable} :
      (∀ m : Store, m.after op = m) → LockOnly s.table t' → Did s op ⟨t', s.inserts⟩

theorem step_did (hw : s.table.Wf) (h : machine.step s op = some (s', out)) : s.Did op s' := by
  change s.step op = _ at h
  cases op with
  | insert tuple =>
      obtain ⟨⟨i, t'⟩, hi, heq⟩ := Option.map_eq_some_iff.mp h
      cases heq
      exact .inserted (traitInsert_some hi)
  | search key =>
      cases h
      exact .locks (fun _ => rfl) (Or.inl rfl)
  | remove key =>
      simp only [step] at h
      split at h
      · next hkey =>
          obtain ⟨t', ht', heq⟩ := Option.map_eq_some_iff.mp h
          cases heq
          obtain ⟨p, hp⟩ := hasKey_iff.mp hkey
          obtain ⟨i, hi, hr⟩ := traitRemove_some ht'
          rw [isRow_of_seekKey hw hp hi] at hr
          exact .removed hp hr
      · cases h
  | write tuple =>
      -- the guard gives a row, and `traitWrite` seeks the same one
      simp only [step] at h
      split at h
      · next hkey =>
          obtain ⟨t', ht', heq⟩ := Option.map_eq_some_iff.mp h
          cases heq
          obtain ⟨p, hp⟩ := hasKey_iff.mp hkey
          obtain ⟨i, hi, hr⟩ := traitWrite_some ht'
          rw [isRow_of_seekKey hw hp hi] at hr
          exact .written hp hr
      · cases h
  | clear =>
      cases h
      exact .cleared
  | waitShared =>
      cases h
      exact .locks (fun _ => rfl) (LockOnly.waitShared _)
  | waitExclusive =>
      cases h
      exact .locks (fun _ => rfl) (LockOnly.waitExclusive _)
  | promote key =>
      simp only [step] at h
      split at h
      · obtain ⟨⟨r, t'⟩, ht', heq⟩ := Option.map_eq_some_iff.mp h
        cases heq
        exact .locks (fun _ => rfl) (LockOnly.promote ht')
      · cases h
  | release key =>
      simp only [step] at h
      split at h
      · obtain ⟨t', ht', heq⟩ := Option.map_eq_some_iff.mp h
        cases heq
        exact .locks (fun _ => rfl) (LockOnly.release ht')
      · cases h

theorem Ok.fresh (hs : s.Ok) (hn : s.inserts < 256) : s.table.Fresh := by
  obtain ⟨-, birth, haged⟩ := hs
  exact haged.fresh_of_lt hn

/-- One operation keeps the table consistent. -/
theorem Ok.step (hs : s.Ok) (hn : s.inserts < 256) (h : machine.step s op = some (s', out)) :
    s'.Ok := by
  have hf := hs.fresh hn
  obtain ⟨hw, birth, haged⟩ := hs
  cases step_did hw h with
  | inserted hi => exact ⟨hi.wf hw hf, _, haged.inserted hi⟩
  | removed hrow hr => exact ⟨hr.wf hw hrow.1, birth, haged.fewer (Fewer.of_removed hr)⟩
  | written _ hr => exact ⟨hr.wf hw, birth, haged.fewer (Fewer.of_written hr)⟩
  | cleared =>
      refine ⟨wf_traitClear _, birth, rfl, fun _ hl => ?_, fun _ hl => ?_, fun _ _ hl => ?_⟩
      all_goals cases hl
  | locks _ hl => exact ⟨hl.wf hw, birth, haged.fewer hl.fewer⟩

/-- **One operation refines the map.** -/
theorem Ok.represents_step (hs : s.Ok) (hn : s.inserts < 256) (hm : Represents s.table m)
    (h : machine.step s op = some (s', out)) : Represents s'.table (m.after op) := by
  cases step_did hs.1 h with
  | inserted hi => exact hm.inserted hi (hs.fresh hn)
  | removed hrow hr => exact hm.removed hs.1 hrow hr
  | written hrow hr => exact hm.written hs.1 hrow hr
  | cleared => exact Represents.cleared _
  | locks hsame hl =>
      rw [hsame]
      exact hm.lockOnly hl

/-- The table is consistent after every history with fewer than 256 inserts since the last
`clear`. -/
theorem ok_of_run {h : List (Entry CountedTable StudentOp StudentResult)}
    (hr : machine.Run init h s) (hn : ∀ e ∈ h, e.post.inserts < 256) :
    s.Ok ∧ s.inserts < 256 :=
  hr.invariant_within (P := fun _ t => t.Ok ∧ t.inserts < 256) hn ⟨ok_init, by decide⟩
    fun _ _ _ _ _ _ _ hu hstep hlt => ⟨hu.1.step hu.2 hstep, hlt⟩

/-- The map after a history. -/
def storeAfter (h : List (Entry CountedTable StudentOp StudentResult)) : Store :=
  h.foldl (fun m e => m.after e.act) Store.empty

theorem storeAfter_snoc (h : List (Entry CountedTable StudentOp StudentResult))
    (e : Entry CountedTable StudentOp StudentResult) :
    storeAfter (h ++ [e]) = (storeAfter h).after e.act := by
  rw [storeAfter, List.foldl_append]
  rfl

/-- **The table is a finite map.** After any history with fewer than 256 inserts since the last
`clear`, the table represents the map of that history and every operation of it is served. -/
theorem serves_of_run {h : List (Entry CountedTable StudentOp StudentResult)}
    (hr : machine.Run init h s) (hn : ∀ e ∈ h, e.post.inserts < 256) :
    Represents s.table (storeAfter h) ∧ Serves s.table (storeAfter h) := by
  obtain ⟨hok, hlt⟩ := ok_of_run hr hn
  have hm : Represents s.table (storeAfter h) := by
    refine hr.invariant_within (P := fun h t => Represents t.table (storeAfter h)) hn
      Represents.init ?_
    intro k u a out v hk hkn ih hstep _
    obtain ⟨huok, hult⟩ := ok_of_run hk hkn
    rw [storeAfter_snoc]
    exact huok.represents_step hult ih hstep
  exact ⟨hm, hm.serves hok.1 (hok.fresh hlt)⟩

/-- Two rows go in, the second is read, locked, promoted and written, the first is removed, and
after a `clear` the first key is given again. -/
def sampleOps : List StudentOp :=
  [.insert StudentTuple.empty, .insert StudentTuple.empty, .search 1, .waitShared, .promote 0,
    .write { StudentTuple.empty with age := 7 }, .release 0, .remove 0, .search 0, .clear,
    .search 1, .insert StudentTuple.empty]

theorem serves_of_run_sample : ∃ h s, machine.Run init h s ∧ s.table.hasKey 0 = true ∧
    s.table.hasKey 1 = false ∧ Represents s.table (storeAfter h) ∧
    Serves s.table (storeAfter h) := by
  obtain ⟨h, s, hr, hp⟩ := Machine.exists_run_of_exec (M := machine) (s := init)
    (p := fun h s => decide ((∀ e ∈ h, e.post.inserts < 256) ∧ s.table.hasKey 0 = true ∧
      s.table.hasKey 1 = false))
    (show (machine.exec init sampleOps).map _ = some true by decide +kernel)
  obtain ⟨hn, h0, h1⟩ := of_decide_eq_true hp
  obtain ⟨hm, hs⟩ := serves_of_run hr hn
  exact ⟨h, s, hr, h0, h1, hm, hs⟩

end CountedTable

end PawnDB
