import PawnDB.Table.StudentTable

set_option autoImplicit false

/-! # What the table operations do to the rows

`Wf` is what the table keeps of itself: live rows have different keys, a live row is found
by probing for its key, and `size` counts the live rows. It holds as long as an insert never
assigns a key that is still live (`Fresh`).

Below, one lemma says what each operation does. The lock operations change the lock word of
one row (`Relocked`); which row and to what is the only difference between them.
-/

namespace PawnDB

open Probing

namespace StudentTable

variable {t t' : StudentTable}

/-- The table is consistent. -/
structure Wf (t : StudentTable) : Prop where
  /-- Live rows have different keys. -/
  unique : ∀ i j, t.live i = true → t.live j = true → t.keyOf i = t.keyOf j → i = j
  /-- Every row on the way from the home of a live row to that row is in use. -/
  linked : ∀ i, t.live i = true → Linked (home (t.keyOf i)) (fun j => (t.table j).isUsed) i
  /-- `size` is the number of live rows. -/
  size : t.size.toNat = Slots.count t.live

/-- A table that nobody works on: it is consistent and no row is locked. -/
structure AtRest (t : StudentTable) : Prop where
  wf : t.Wf
  unlocked : ∀ i, t.live i = true → (t.table i).lock = 0

/-- No live row has the key that the next insert assigns. -/
def Fresh (t : StudentTable) : Prop := ∀ i, t.live i = true → t.keyOf i ≠ t.nextKey

instance (t : StudentTable) : Decidable t.Fresh := Fintype.decidableForallFintype

/-- Row `p` is the live row with key `key`. -/
def IsRow (t : StudentTable) (key : TblRow) (p : Fin rows) : Prop :=
  t.live p = true ∧ t.keyOf p = key

instance (t : StudentTable) (key : TblRow) (p : Fin rows) : Decidable (t.IsRow key p) := by
  unfold IsRow
  infer_instance

theorem wf_init : init.Wf where
  unique := fun _ _ h => by cases h
  linked := fun _ h => by cases h
  size := (Slots.count_eq_zero.mpr fun _ => rfl).symm

theorem atRest_init : init.AtRest := ⟨wf_init, fun _ h => by cases h⟩

/-! ## Live rows -/

theorem live_iff {i : Fin rows} :
    t.live i = true ↔ (t.table i).isUsed = true ∧ (t.table i).isDeleted = false := by
  simp [live, Row.live]

theorem keyAt_iff {key : TblRow} {i : Fin rows} :
    t.keyAt key i = true ↔ t.keyOf i = key ∧ (t.table i).isDeleted = false := by
  simp [keyAt]

theorem IsRow.unique (hw : t.Wf) {key : TblRow} {p q : Fin rows} (hp : t.IsRow key p)
    (hq : t.IsRow key q) : p = q :=
  hw.unique p q hp.1 hq.1 (hp.2.trans hq.2.symm)

/-- **Probing finds the live row.** -/
theorem seekKey_of_isRow (hw : t.Wf) {key : TblRow} {p : Fin rows} (hp : t.IsRow key p) :
    t.seekKey key = some p := by
  obtain ⟨hlive, rfl⟩ := hp
  refine seek_of_linked (hw.linked p hlive) ?_ ?_
  · exact keyAt_iff.mpr ⟨rfl, (live_iff.mp hlive).2⟩
  · intro i hused hi
    obtain ⟨hkey, hdel⟩ := keyAt_iff.mp hi
    exact hw.unique i p (live_iff.mpr ⟨hused, hdel⟩) hlive hkey

theorem isRow_of_seekKey (hw : t.Wf) {key : TblRow} {p q : Fin rows} (hp : t.IsRow key p)
    (hq : t.seekKey key = some q) : q = p := by
  rw [seekKey_of_isRow hw hp] at hq
  exact (Option.some.inj hq).symm

/-- A table whose rows have the same flags and keys is consistent as well. -/
theorem Wf.of_same (hw : t.Wf) (hsize : t'.size = t.size)
    (h : ∀ i, (t'.table i).isUsed = (t.table i).isUsed ∧
      (t'.table i).isDeleted = (t.table i).isDeleted ∧ t'.keyOf i = t.keyOf i) : t'.Wf := by
  have hl : ∀ i, t'.live i = t.live i := fun i => by
    simp only [live, Row.live, (h i).1, (h i).2.1]
  constructor
  · intro i j hi hj hk
    rw [hl] at hi hj
    rw [(h i).2.2, (h j).2.2] at hk
    exact hw.unique i j hi hj hk
  · intro i hi
    rw [hl] at hi
    rw [(h i).2.2]
    exact (hw.linked i hi).mono fun j hj => by rw [(h j).1]; exact hj
  · rw [hsize, hw.size]
    exact Slots.count_congr fun i => (hl i).symm

/-! ## The lock operations -/

/-- Row `i` got the lock word `l`; no other row changed, and no flag and no tuple. -/
structure Relocked (t : StudentTable) (i : Fin rows) (l : LkT) (t' : StudentTable) : Prop where
  table : t'.table = Slots.set t.table i { t.table i with lock := l }
  size : t'.size = t.size
  nextKey : t'.nextKey = t.nextKey

namespace Relocked

variable {i : Fin rows} {l : LkT}

theorem tuple (h : Relocked t i l t') (j : Fin rows) :
    (t'.table j).tuple = (t.table j).tuple := by
  rw [h.table]; exact Slots.map_set Row.tuple _ _ _ (by rfl) j

theorem keyOf (h : Relocked t i l t') (j : Fin rows) : t'.keyOf j = t.keyOf j := by
  rw [StudentTable.keyOf, h.tuple]; rfl

theorem live (h : Relocked t i l t') (j : Fin rows) : t'.live j = t.live j := by
  rw [StudentTable.live, h.table]; exact Slots.map_set Row.live _ _ _ (by rfl) j

theorem lock_self (h : Relocked t i l t') : (t'.table i).lock = l := by
  rw [h.table, Slots.set_self]

theorem lock_of_ne (h : Relocked t i l t') {j : Fin rows} (hj : j ≠ i) :
    (t'.table j).lock = (t.table j).lock := by
  rw [h.table, Slots.set_of_ne _ _ hj]

theorem isRow (h : Relocked t i l t') {key : TblRow} {p : Fin rows} :
    t'.IsRow key p ↔ t.IsRow key p := by
  rw [IsRow, IsRow, h.live, h.keyOf]

theorem wf (h : Relocked t i l t') (hw : t.Wf) : t'.Wf := by
  refine hw.of_same h.size fun j => ⟨?_, ?_, h.keyOf j⟩
  · rw [h.table]; exact Slots.map_set Row.isUsed _ _ _ (by rfl) j
  · rw [h.table]; exact Slots.map_set Row.isDeleted _ _ _ (by rfl) j

end Relocked

theorem firstRow_some {p : Row → Bool} {i : Fin rows} (h : t.firstRow p = some i) :
    t.live i = true ∧ p (t.table i) = true := by
  have := List.find?_some h
  simpa using this

theorem traitWaitShared_eq {tuple : StudentTuple} (h : t.traitWaitShared = (.ok tuple, t')) :
    ∃ i, t.live i = true ∧ 0 ≤ (t.table i).lock ∧ (t.table i).tuple = tuple ∧
      t' = { t.setRow i { t.table i with lock := (t.table i).lock + 1 } with
        xAvailCnt := if (t.table i).lock + 1 = 1 then t.xAvailCnt - 1 else t.xAvailCnt } := by
  unfold traitWaitShared at h
  split at h
  · cases h
  split at h
  · cases h
  split at h
  · cases h
  · rename_i i hi
    obtain ⟨hlive, hlock⟩ := firstRow_some hi
    obtain ⟨htuple, rfl⟩ := Prod.mk.inj h
    exact ⟨i, hlive, by simpa using hlock, Except.ok.inj htuple, rfl⟩

/-- A wait that obtains a row takes a shared lock on a live row that shows no exclusive one. -/
theorem traitWaitShared_ok {tuple : StudentTuple} (h : t.traitWaitShared = (.ok tuple, t')) :
    ∃ i, t.live i = true ∧ 0 ≤ (t.table i).lock ∧ (t.table i).tuple = tuple ∧
      Relocked t i ((t.table i).lock + 1) t' := by
  obtain ⟨i, hlive, hlock, htuple, rfl⟩ := traitWaitShared_eq h
  exact ⟨i, hlive, hlock, htuple, ⟨rfl, rfl, rfl⟩⟩

theorem traitWaitShared_error {e : TupleTableError} (h : t.traitWaitShared = (.error e, t')) :
    t' = t := by
  unfold traitWaitShared at h
  grind

theorem traitWaitExclusive_eq {tuple : StudentTuple}
    (h : t.traitWaitExclusive = (.ok tuple, t')) :
    ∃ i, t.live i = true ∧ (t.table i).lock = 0 ∧ (t.table i).tuple = tuple ∧
      t' = { t.setRow i { t.table i with lock := -1 } with
        xAvailCnt := t.xAvailCnt - 1
        sAvailCnt := t.sAvailCnt - 1 } := by
  unfold traitWaitExclusive at h
  split at h
  · cases h
  split at h
  · cases h
  split at h
  · cases h
  · rename_i i hi
    obtain ⟨hlive, hlock⟩ := firstRow_some hi
    obtain ⟨htuple, rfl⟩ := Prod.mk.inj h
    exact ⟨i, hlive, by simpa using hlock, Except.ok.inj htuple, rfl⟩

/-- A wait that obtains a row takes the exclusive lock on a live row that shows no lock. -/
theorem traitWaitExclusive_ok {tuple : StudentTuple}
    (h : t.traitWaitExclusive = (.ok tuple, t')) :
    ∃ i, t.live i = true ∧ (t.table i).lock = 0 ∧ (t.table i).tuple = tuple ∧
      Relocked t i (-1) t' := by
  obtain ⟨i, hlive, hlock, htuple, rfl⟩ := traitWaitExclusive_eq h
  exact ⟨i, hlive, hlock, htuple, ⟨rfl, rfl, rfl⟩⟩

theorem traitWaitExclusive_error {e : TupleTableError}
    (h : t.traitWaitExclusive = (.error e, t')) : t' = t := by
  unfold traitWaitExclusive at h
  grind

theorem traitPromote_eq {key : TblRow} (h : t.traitPromote key = some (.ok (), t')) :
    ∃ i, t.seekKey key = some i ∧ (t.table i).lock = 1 ∧
      t' = { t.setRow i { t.table i with lock := -1 } with sAvailCnt := t.sAvailCnt - 1 } := by
  unfold traitPromote at h
  split at h
  · cases h
  · rename_i i hi
    split at h
    · rename_i hlock
      exact ⟨i, hi, hlock, (Prod.mk.inj (Option.some.inj h)).2.symm⟩
    · cases h

/-- A promotion happens on a row with exactly one shared lock. -/
theorem traitPromote_ok {key : TblRow} (h : t.traitPromote key = some (.ok (), t')) :
    ∃ i, t.seekKey key = some i ∧ (t.table i).lock = 1 ∧ Relocked t i (-1) t' := by
  obtain ⟨i, hi, hlock, rfl⟩ := traitPromote_eq h
  exact ⟨i, hi, hlock, ⟨rfl, rfl, rfl⟩⟩

theorem traitPromote_error {key : TblRow} {e : TupleTableError}
    (h : t.traitPromote key = some (.error e, t')) : t' = t := by
  unfold traitPromote at h
  grind

theorem traitRelease_eq {key : TblRow} (h : t.traitRelease key = some t') :
    ∃ i, t.seekKey key = some i ∧
      (((t.table i).lock = -1 ∧ t' = { t.setRow i { t.table i with lock := 0 } with
          xAvailCnt := t.xAvailCnt + 1
          sAvailCnt := t.sAvailCnt + 1 }) ∨
        ((t.table i).lock ≠ -1 ∧
          t' = { t.setRow i { t.table i with lock := (t.table i).lock - 1 } with
            xAvailCnt :=
              if (t.table i).lock - 1 = 0 then t.xAvailCnt + 1 else t.xAvailCnt })) := by
  unfold traitRelease at h
  split at h
  · cases h
  · rename_i i hi
    split at h
    · rename_i hlock
      exact ⟨i, hi, Or.inl ⟨hlock, (Option.some.inj h).symm⟩⟩
    · rename_i hlock
      exact ⟨i, hi, Or.inr ⟨hlock, (Option.some.inj h).symm⟩⟩

/-- A release takes back the exclusive lock if the word shows one, else a shared one. -/
theorem traitRelease_some {key : TblRow} (h : t.traitRelease key = some t') :
    ∃ i, t.seekKey key = some i ∧
      Relocked t i (if (t.table i).lock = -1 then 0 else (t.table i).lock - 1) t' := by
  obtain ⟨i, hi, ⟨hlock, rfl⟩ | ⟨hlock, rfl⟩⟩ := traitRelease_eq h
  · exact ⟨i, hi, ⟨by rw [if_pos hlock]; rfl, rfl, rfl⟩⟩
  · exact ⟨i, hi, ⟨by rw [if_neg hlock]; rfl, rfl, rfl⟩⟩

theorem traitRelease_isSome {key : TblRow} {i : Fin rows} (h : t.seekKey key = some i) :
    ∃ t', t.traitRelease key = some t' := by
  unfold traitRelease
  rw [h]
  dsimp only
  split
  · exact ⟨_, rfl⟩
  · exact ⟨_, rfl⟩

/-! ## Insert, remove and write -/

theorem count_live_le : Slots.count t.live ≤ rows := by
  refine (Finset.card_le_univ _).trans ?_
  rw [Fintype.card_fin]

/-- The tuple went under the next key into row `i`, which was not live. -/
structure Inserted (t : StudentTable) (i : Fin rows) (tuple : StudentTuple)
    (t' : StudentTable) : Prop where
  notLive : t.live i = false
  linked : Linked (home t.nextKey) (fun j => (t.table j).isUsed) i
  table : t'.table = Slots.set t.table i ⟨{ tuple with key := t.nextKey }, 0, true, false⟩
  size : t'.size = t.size + 1
  nextKey : t'.nextKey = t.nextKey + 1

theorem traitInsert_some {tuple : StudentTuple} {i : Fin rows}
    (h : t.traitInsert tuple = some (i, t')) : Inserted t i tuple t' := by
  unfold traitInsert at h
  split at h
  · cases h
  split at h
  · cases h
  · rename_i idx hidx
    obtain ⟨rfl, rfl⟩ := Prod.mk.inj (Option.some.inj h)
    have hfree := seek_holds hidx
    refine ⟨?_, linked_of_seek hidx ?_, rfl, rfl, rfl⟩
    · simp only [Bool.or_eq_true, Bool.not_eq_true'] at hfree
      rcases hfree with hf | hf
      · simp [live, Row.live, hf]
      · simp [live, Row.live, hf]
    · intro j hj
      simp only [Bool.or_eq_false_iff, Bool.not_eq_false'] at hj
      exact hj.1

/-- An insert into a table that is not full finds a row. -/
theorem traitInsert_isSome (hw : t.Wf) (hfull : t.traitFull = false) (tuple : StudentTuple) :
    (t.traitInsert tuple).isSome = true := by
  cases h : t.traitInsert tuple with
  | some r => rfl
  | none =>
      unfold traitInsert at h
      rw [if_neg (by simp [hfull])] at h
      split at h
      · rename_i hseek
        have hall : ∀ i, t.live i = true := fun i => by
          have := seek_eq_none_iff.mp hseek i
          simpa [live, Row.live] using this
        have hc : Slots.count t.live = rows := by
          rw [Slots.count, Finset.filter_true_of_mem fun i _ => hall i, Finset.card_univ,
            Fintype.card_fin]
        have hsize : t.traitFull = true := by
          rw [traitFull, beq_iff_eq, ← UInt64.toNat_inj, hw.size, hc]
          rfl
        rw [hsize] at hfull
        cases hfull
      · cases h

namespace Inserted

variable {i : Fin rows} {tuple : StudentTuple}

theorem live_self (h : Inserted t i tuple t') : t'.live i = true := by
  rw [live, h.table, Slots.set_self]; rfl

theorem keyOf_self (h : Inserted t i tuple t') : t'.keyOf i = t.nextKey := by
  rw [keyOf, h.table, Slots.set_self]

theorem lock_self (h : Inserted t i tuple t') : (t'.table i).lock = 0 := by
  rw [h.table, Slots.set_self]

theorem row_of_ne (h : Inserted t i tuple t') {j : Fin rows} (hj : j ≠ i) :
    t'.table j = t.table j := by
  rw [h.table, Slots.set_of_ne _ _ hj]

theorem live_of_ne (h : Inserted t i tuple t') {j : Fin rows} (hj : j ≠ i) :
    t'.live j = t.live j := by
  rw [live, h.row_of_ne hj]; rfl

theorem keyOf_of_ne (h : Inserted t i tuple t') {j : Fin rows} (hj : j ≠ i) :
    t'.keyOf j = t.keyOf j := by
  rw [keyOf, h.row_of_ne hj]; rfl

/-- The rows that were live are not the new one. -/
theorem ne_of_live (h : Inserted t i tuple t') {j : Fin rows} (hj : t.live j = true) : j ≠ i := by
  rintro rfl
  rw [h.notLive] at hj
  cases hj

theorem wf (h : Inserted t i tuple t') (hw : t.Wf) (hf : t.Fresh) : t'.Wf := by
  have hkey : ∀ j, j ≠ i → t'.live j = true → t'.keyOf j ≠ t'.keyOf i := fun j hj hl => by
    rw [h.live_of_ne hj] at hl
    rw [h.keyOf_of_ne hj, h.keyOf_self]
    exact hf j hl
  have hused : ∀ j, (t.table j).isUsed = true → (t'.table j).isUsed = true := fun j hj => by
    by_cases hji : j = i
    · rw [h.table, hji, Slots.set_self]
    · rw [h.row_of_ne hji]; exact hj
  constructor
  · intro j k hj hk hjk
    by_cases hji : j = i <;> by_cases hki : k = i
    · rw [hji, hki]
    · subst hji; exact absurd hjk.symm (hkey k hki hk)
    · subst hki; exact absurd hjk (hkey j hji hj)
    · rw [h.live_of_ne hji] at hj
      rw [h.live_of_ne hki] at hk
      rw [h.keyOf_of_ne hji, h.keyOf_of_ne hki] at hjk
      exact hw.unique j k hj hk hjk
  · intro j hj
    by_cases hji : j = i
    · subst hji
      rw [h.keyOf_self]
      exact h.linked.mono hused
    · rw [h.live_of_ne hji] at hj
      rw [h.keyOf_of_ne hji]
      exact (hw.linked j hj).mono hused
  · have hc : _ = Slots.count t.live + _ :=
      Slots.count_congr_off (p := t'.live) i fun j hj => h.live_of_ne hj
    rw [h.notLive, h.live_self, if_pos rfl, if_neg (by simp)] at hc
    have hle := count_live_le (t := t)
    have hrows : rows = 10 := rfl
    rw [h.size, SizeT.toNat_succ (by rw [hw.size]; omega), hw.size]
    omega

end Inserted

/-- Row `i` was marked deleted. -/
structure Removed (t : StudentTable) (i : Fin rows) (t' : StudentTable) : Prop where
  table : t'.table = Slots.set t.table i { t.table i with isDeleted := true }
  size : t'.size = t.size - 1
  nextKey : t'.nextKey = t.nextKey

theorem traitRemove_some {key : TblRow} (h : t.traitRemove key = some t') :
    ∃ i, t.seekKey key = some i ∧ Removed t i t' := by
  unfold traitRemove at h
  split at h
  · cases h
  · rename_i i hi
    obtain rfl := Option.some.inj h
    exact ⟨i, hi, ⟨rfl, rfl, rfl⟩⟩

theorem traitRemove_isSome {key : TblRow} {i : Fin rows} (h : t.seekKey key = some i) :
    ∃ t', t.traitRemove key = some t' := by
  unfold traitRemove
  rw [h]
  exact ⟨_, rfl⟩

namespace Removed

variable {i : Fin rows}

theorem live_self (h : Removed t i t') : t'.live i = false := by
  rw [live, h.table, Slots.set_self]; simp [Row.live]

theorem row_of_ne (h : Removed t i t') {j : Fin rows} (hj : j ≠ i) :
    t'.table j = t.table j := by
  rw [h.table, Slots.set_of_ne _ _ hj]

theorem tuple (h : Removed t i t') (j : Fin rows) : (t'.table j).tuple = (t.table j).tuple := by
  rw [h.table]; exact Slots.map_set Row.tuple _ _ _ (by rfl) j

theorem keyOf (h : Removed t i t') (j : Fin rows) : t'.keyOf j = t.keyOf j := by
  rw [StudentTable.keyOf, h.tuple]; rfl

theorem live_of_ne (h : Removed t i t') {j : Fin rows} (hj : j ≠ i) : t'.live j = t.live j := by
  rw [live, h.row_of_ne hj]; rfl

theorem ne_of_live (h : Removed t i t') {j : Fin rows} (hj : t'.live j = true) : j ≠ i := by
  rintro rfl
  rw [h.live_self] at hj
  cases hj

theorem wf (h : Removed t i t') (hw : t.Wf) (hlive : t.live i = true) : t'.Wf := by
  have hl : ∀ j, t'.live j = true → t.live j = true := fun j hj => by
    rw [← h.live_of_ne (h.ne_of_live hj)]; exact hj
  constructor
  · intro j k hj hk hjk
    rw [h.keyOf, h.keyOf] at hjk
    exact hw.unique j k (hl j hj) (hl k hk) hjk
  · intro j hj
    rw [h.keyOf]
    refine (hw.linked j (hl j hj)).mono fun k hk => ?_
    rw [h.table]
    exact (Slots.map_set Row.isUsed _ _ _ (by rfl) k).trans hk
  · have hc : _ = Slots.count t.live + _ :=
      Slots.count_congr_off (p := t'.live) i fun j hj => h.live_of_ne hj
    rw [hlive, h.live_self, if_pos rfl, if_neg (by simp)] at hc
    rw [h.size, SizeT.toNat_pred (by rw [hw.size]; omega), hw.size]
    omega

end Removed

/-- The tuple of row `i` was overwritten with one that has the same key. -/
structure Written (t : StudentTable) (i : Fin rows) (tuple : StudentTuple)
    (t' : StudentTable) : Prop where
  key : tuple.key = t.keyOf i
  table : t'.table = Slots.set t.table i { t.table i with tuple := tuple }
  size : t'.size = t.size
  nextKey : t'.nextKey = t.nextKey

theorem traitWrite_some {tuple : StudentTuple} (h : t.traitWrite tuple = some t') :
    ∃ i, t.seekKey tuple.key = some i ∧ Written t i tuple t' := by
  unfold traitWrite at h
  split at h
  · cases h
  · rename_i i hi
    obtain rfl := Option.some.inj h
    exact ⟨i, hi, ⟨(keyAt_iff.mp (seek_holds hi)).1.symm, rfl, rfl, rfl⟩⟩

theorem traitWrite_isSome {tuple : StudentTuple} {i : Fin rows}
    (h : t.seekKey tuple.key = some i) : ∃ t', t.traitWrite tuple = some t' := by
  unfold traitWrite
  rw [h]
  exact ⟨_, rfl⟩

namespace Written

variable {i : Fin rows} {tuple : StudentTuple}

theorem row_of_ne (h : Written t i tuple t') {j : Fin rows} (hj : j ≠ i) :
    t'.table j = t.table j := by
  rw [h.table, Slots.set_of_ne _ _ hj]

theorem tuple_self (h : Written t i tuple t') : (t'.table i).tuple = tuple := by
  rw [h.table, Slots.set_self]

theorem lock (h : Written t i tuple t') (j : Fin rows) :
    (t'.table j).lock = (t.table j).lock := by
  rw [h.table]; exact Slots.map_set Row.lock _ _ _ (by rfl) j

theorem live (h : Written t i tuple t') (j : Fin rows) : t'.live j = t.live j := by
  rw [StudentTable.live, h.table]; exact Slots.map_set Row.live _ _ _ (by rfl) j

theorem keyOf (h : Written t i tuple t') (j : Fin rows) : t'.keyOf j = t.keyOf j := by
  rw [StudentTable.keyOf, h.table]
  exact Slots.map_set (fun r : Row => r.tuple.key) _ _ _ h.key j

theorem isRow (h : Written t i tuple t') {key : TblRow} {p : Fin rows} :
    t'.IsRow key p ↔ t.IsRow key p := by
  rw [IsRow, IsRow, h.live, h.keyOf]

theorem wf (h : Written t i tuple t') (hw : t.Wf) : t'.Wf := by
  refine hw.of_same h.size fun j => ⟨?_, ?_, h.keyOf j⟩
  · rw [h.table]; exact Slots.map_set Row.isUsed _ _ _ (by rfl) j
  · rw [h.table]; exact Slots.map_set Row.isDeleted _ _ _ (by rfl) j

end Written

end StudentTable

end PawnDB
