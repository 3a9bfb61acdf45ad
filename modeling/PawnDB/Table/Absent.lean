import PawnDB.Table.Stored

set_option autoImplicit false

/-! # Keys that no live row has

`trait_search` answers `NotFound` for such a key. The loops of `trait_remove`, `trait_write`,
`trait_promote` and `trait_release` have no such exit. They go round for ever, unless an unused row
has the key in its tuple: a row that was never used has key `0`, and `trait_clear` leaves the keys
of all rows behind. Then they work on that row (`seekKey_absent_isSome_iff`).
-/

namespace PawnDB

open Probing

namespace StudentTable

variable (t : StudentTable)

/-- `trait_remove` with its result, which is the same wherever it returns. -/
def removeResult (key : TblRow) : Option (Except StudentTableError Unit × StudentTable) :=
  (t.traitRemove key).map fun t' => (.ok (), t')

/-- `trait_write` with its result, which is the same wherever it returns. -/
def writeResult (tuple : StudentTuple) : Option (Except StudentTableError Unit × StudentTable) :=
  (t.traitWrite tuple).map fun t' => (.ok (), t')

/-- No live row has the key. -/
def Absent (key : TblRow) : Prop := ∀ i, t.live i = true → t.keyOf i ≠ key

/-- All rows are as they were, and so are the counters. -/
structure Untouched (t' : StudentTable) : Prop where
  table : t'.table = t.table
  size : t'.size = t.size
  sAvailCnt : t'.sAvailCnt = t.sAvailCnt
  xAvailCnt : t'.xAvailCnt = t.xAvailCnt

/-- The call ends, reports this error and changes nothing. -/
def Declines {ε : Type} (r : Option (Except ε Unit × StudentTable)) (e : ε) : Prop :=
  ∃ t', r = some (.error e, t') ∧ t.Untouched t'

/-- What calls for an absent key are to do. -/
structure DeclinesAll (key : TblRow) : Prop where
  remove : t.Declines (t.removeResult key) .notFound
  write : ∀ tuple : StudentTuple, tuple.key = key → t.Declines (t.writeResult tuple) .notFound
  promote : t.Declines (t.traitPromote key) .notFound
  release : ∃ t', t.traitRelease key = some t' ∧ t.Untouched t'

variable {t} {key : TblRow} {t' : StudentTable}

/-- **The loops end for an absent key exactly if** an unused row has it, and that row is not marked
deleted. -/
theorem seekKey_absent_isSome_iff (habs : t.Absent key) :
    (t.seekKey key).isSome ↔
      ∃ i, t.keyOf i = key ∧ (t.table i).isUsed = false ∧ (t.table i).isDeleted = false := by
  rw [seekKey, seek_isSome_iff]
  constructor
  · rintro ⟨i, hi⟩
    obtain ⟨hkey, hdel⟩ := keyAt_iff.mp hi
    refine ⟨i, hkey, ?_, hdel⟩
    by_contra hused
    rw [Bool.not_eq_false] at hused
    exact habs i (live_iff.mpr ⟨hused, hdel⟩) hkey
  · rintro ⟨i, hkey, -, hdel⟩
    exact ⟨i, keyAt_iff.mpr ⟨hkey, hdel⟩⟩

/-- Giving back a lock changes a lock word, whatever it was. -/
theorem not_untouched_of_release (h : t.traitRelease key = some t') : ¬ t.Untouched t' := by
  intro hsame
  unfold traitRelease at h
  split at h
  · cases h
  · next i hi =>
      have hrow : (t'.table i).lock = (t.table i).lock := by rw [hsame.table]
      split at h
      · next hlock =>
          cases h
          rw [setRow_table, Slots.set_self, hlock] at hrow
          cases hrow
      · cases h
        rw [setRow_table, Slots.set_self] at hrow
        dsimp only at hrow
        generalize (t.table i).lock = l at hrow
        grind

/-- **No call for an absent key does what it should.** `trait_remove`, `trait_write` and
`trait_promote` never report `NotFound`, and `trait_release` changes a lock word if it returns. -/
theorem absent_not_declined (t : StudentTable) (key : TblRow) (habs : t.Absent key) :
    ¬ t.Declines (t.removeResult key) .notFound ∧
    (∀ tuple : StudentTuple, tuple.key = key →
      ¬ t.Declines (t.writeResult tuple) .notFound) ∧
    ¬ t.Declines (t.traitPromote key) .notFound ∧
    (¬ ∃ t', t.traitRelease key = some t' ∧ t.Untouched t') ∧
    ((t.removeResult key).isSome ↔
      ∃ i, t.keyOf i = key ∧ (t.table i).isUsed = false ∧ (t.table i).isDeleted = false) := by
  refine ⟨?_, ?_, ?_, ?_, ?_⟩
  · rintro ⟨t', h, -⟩
    obtain ⟨u, -, heq⟩ := Option.map_eq_some_iff.mp h
    cases heq
  · rintro tuple - ⟨t', h, -⟩
    obtain ⟨u, -, heq⟩ := Option.map_eq_some_iff.mp h
    cases heq
  · rintro ⟨t', h, -⟩
    unfold traitPromote at h
    split at h
    · cases h
    · split at h <;> cases h
  · rintro ⟨t', h, hsame⟩
    exact not_untouched_of_release h hsame
  · rw [← seekKey_absent_isSome_iff habs, removeResult, Option.isSome_map, traitRemove]
    split <;> next h => simp [h]

/-- Of a table with two rows no operation declines the key `5`. -/
theorem absent_not_declined_two : ∃ t : StudentTable, t = ofTuples [.empty, .empty] ∧
    t.live 0 = true ∧ t.live 1 = true ∧ t.Absent 5 ∧ ¬ t.Declines (t.removeResult 5) .notFound ∧
    ¬ t.Declines (t.traitPromote 5) .notFound := by
  have habs : (ofTuples [.empty, .empty]).Absent 5 := by
    unfold Absent
    decide +kernel
  obtain ⟨hremove, -, hpromote, -⟩ := absent_not_declined (ofTuples [.empty, .empty]) 5 habs
  exact ⟨_, rfl, by decide +kernel, by decide +kernel, habs, hremove, hpromote⟩

theorem not_declinesAll_init : init.Absent 5 ∧ ¬ init.DeclinesAll 5 := by
  refine ⟨fun _ h => (by cases h), fun hall => ?_⟩
  obtain ⟨t', h, -⟩ := hall.remove
  rw [show init.removeResult 5 = none by decide +kernel] at h
  cases h

/-- A cleared table still finds the key of the row that it had, and its size wraps around. -/
example : ((init.traitInsert StudentTuple.empty).bind fun r =>
    (r.2.traitClear.traitRemove 0).map StudentTable.size) = some (0 - 1) := by decide +kernel

end StudentTable

end PawnDB
