import PawnDB.Table.LiveKeys

set_option autoImplicit false

/-! # Tables with rows

`ofTuples` is the table that has been filled with some tuples. As all its rows were inserted and
none was removed, the number of inserts is the number of rows, so the counter of the keys has not
come round and the table is at rest (`atRest_ofTuples`).
-/

namespace PawnDB

namespace StudentTable

/-- Insert the tuples in order. -/
def insertAll (t : StudentTable) : List StudentTuple → Option StudentTable
  | [] => some t
  | tuple :: rest =>
      match t.traitInsert tuple with
      | none => none
      | some (_, t) => t.insertAll rest

/-- The table with these tuples, if there is room for them. -/
def ofTuples (tuples : List StudentTuple) : StudentTable := (init.insertAll tuples).getD init

variable {t t' : StudentTable} {i : Fin rows} {tuple : StudentTuple}

theorem Inserted.atRest (h : Inserted t i tuple t') (hrest : t.AtRest) (hf : t.Fresh) :
    t'.AtRest := by
  refine ⟨h.wf hrest.wf hf, fun j hj => ?_⟩
  by_cases hji : j = i
  · rw [hji, h.lock_self]
  · rw [h.live_of_ne hji] at hj
    rw [h.row_of_ne hji]
    exact hrest.unlocked j hj

theorem Inserted.count (h : Inserted t i tuple t') :
    Slots.count t'.live = Slots.count t.live + 1 := by
  have hc : _ = Slots.count t.live + _ :=
    Slots.count_congr_off (p := t'.live) i fun j hj => h.live_of_ne hj
  rw [h.notLive, h.live_self, if_pos rfl, if_neg (by decide)] at hc
  exact hc

/-- Every row of the table is one that was inserted, and none was removed. -/
def Filled (t : StudentTable) : Prop :=
  t.AtRest ∧ ∃ birth, Aged t (Slots.count t.live) birth

theorem filled_init : init.Filled := by
  have hnone : Slots.count init.live = 0 := Slots.count_eq_zero.mpr fun _ => rfl
  refine ⟨atRest_init, fun _ => 0, ?_⟩
  rw [hnone]
  exact Aged.init _

theorem Filled.inserted (h : t.Filled) (hi : Inserted t i tuple t') : t'.Filled := by
  obtain ⟨hrest, birth, hage⟩ := h
  -- there are at most ten rows, so the next key is not in use
  have hle : Slots.count t.live ≤ 10 := count_live_le
  refine ⟨hi.atRest hrest (hage.fresh_of_lt (by omega)), Slots.set birth i (Slots.count t.live), ?_⟩
  rw [hi.count]
  exact hage.inserted hi

theorem Filled.insertAll {tuples : List StudentTuple} (h : t.Filled)
    (hi : t.insertAll tuples = some t') : t'.Filled := by
  induction tuples generalizing t with
  | nil =>
      cases hi
      exact h
  | cons tuple rest ih =>
      rw [StudentTable.insertAll] at hi
      split at hi
      · cases hi
      · next hins => exact ih (h.inserted (traitInsert_some hins)) hi

/-- **A table that was filled with tuples is at rest.** -/
theorem atRest_ofTuples (tuples : List StudentTuple) : (ofTuples tuples).AtRest := by
  unfold ofTuples
  cases h : init.insertAll tuples with
  | none => exact atRest_init
  | some t => exact (filled_init.insertAll h).1

end StudentTable

end PawnDB
