import PawnDB.Txn.LockList

set_option autoImplicit false

/-! # The iterator of a lock list

`begin` and `next` move on to the next entry that records a lock, and `end` lies behind the last
slot. A walk from `begin` to `end` meets every lock once, in slot order, and nothing else
(`visits_eq`). `advanceToValid`, with which a worker releases its locks turn by turn, is the same
iterator (`advance_eq_advanceToValid`).
-/

namespace PawnDB

namespace LockList

variable (l : LockList)

/-- The loop of `advance_to_valid` from slot `idx` on, for at most `fuel` turns. -/
def advance : Nat → Nat → Nat
  | 0, idx => idx
  | fuel + 1, idx =>
      if h : idx < maxLockPerTransaction then
        if l.free ⟨idx, h⟩ then advance fuel (idx + 1) else idx
      else idx

/-- `begin` -/
def iterBegin : Nat := l.advance maxLockPerTransaction 0

/-- `end` -/
def iterEnd : Nat := maxLockPerTransaction

/-- `next` -/
def iterNext (idx : Nat) : Nat := l.advance maxLockPerTransaction (idx + 1)

/-- The entries that a loop from iterator position `idx` to `end` meets. There is no result if the
loop has not come to its end after `fuel` turns or goes past it. -/
def visitsFrom : Nat → Nat → Option (List (Fin maxLockPerTransaction))
  | 0, idx => if idx = iterEnd then some [] else none
  | fuel + 1, idx =>
      if idx = iterEnd then some []
      else if h : idx < maxLockPerTransaction then
        (visitsFrom fuel (l.iterNext idx)).map (⟨idx, h⟩ :: ·)
      else none

/-- The entries that a loop from `begin` to `end` meets. -/
def visits : Option (List (Fin maxLockPerTransaction)) :=
  l.visitsFrom maxLockPerTransaction l.iterBegin

/-- The entries from slot `idx` on that record a lock. -/
def activeFrom (idx : Nat) : List (Fin maxLockPerTransaction) :=
  ((List.finRange maxLockPerTransaction).drop idx).filter fun i => !l.free i

variable {l} {idx fuel : Nat}

theorem not_free_eq_active (i : Fin maxLockPerTransaction) :
    (!l.free i) = (l.locks i).active := by
  simp [LockEntry.active, free]

theorem activeFrom_of_lt (h : idx < maxLockPerTransaction) :
    l.activeFrom idx =
      if l.free ⟨idx, h⟩ then l.activeFrom (idx + 1) else ⟨idx, h⟩ :: l.activeFrom (idx + 1) := by
  have hlen : idx < (List.finRange maxLockPerTransaction).length := by
    rw [List.length_finRange]
    exact h
  rw [activeFrom, List.drop_eq_getElem_cons hlen, List.getElem_finRange]
  simp only [Fin.cast_mk, List.filter_cons]
  cases l.free ⟨idx, h⟩ <;> simp [activeFrom]

theorem activeFrom_end (h : maxLockPerTransaction ≤ idx) : l.activeFrom idx = [] := by
  rw [activeFrom, List.drop_eq_nil_of_le (by rw [List.length_finRange]; exact h)]
  rfl

/-- **`advance_to_valid` passes free entries only** and stops at one that is not, or at the end. -/
theorem advance_spec (l : LockList) (fuel idx : Nat) (hidx : idx ≤ maxLockPerTransaction)
    (hfuel : maxLockPerTransaction ≤ idx + fuel) :
    idx ≤ l.advance fuel idx ∧ l.advance fuel idx ≤ maxLockPerTransaction ∧
      l.activeFrom (l.advance fuel idx) = l.activeFrom idx ∧
      ∀ h : l.advance fuel idx < maxLockPerTransaction, l.free ⟨l.advance fuel idx, h⟩ = false := by
  induction fuel generalizing idx with
  | zero =>
      have hend : idx = maxLockPerTransaction := by omega
      exact ⟨le_rfl, hidx, rfl, fun h => absurd h (by simp [advance, hend])⟩
  | succ fuel ih =>
      by_cases hlt : idx < maxLockPerTransaction
      · cases hfree : l.free ⟨idx, hlt⟩ with
        | true =>
            -- a free slot is skipped, and it adds nothing to the locks that are left
            have hadv : l.advance (fuel + 1) idx = l.advance fuel (idx + 1) := by
              rw [advance, dif_pos hlt, hfree, if_pos rfl]
            obtain ⟨h1, h2, h3, h4⟩ := ih (idx + 1) (by omega) (by omega)
            rw [hadv, activeFrom_of_lt hlt, hfree, if_pos rfl]
            exact ⟨by omega, h2, h3, h4⟩
        | false =>
            have hadv : l.advance (fuel + 1) idx = idx := by
              rw [advance, dif_pos hlt, hfree, if_neg (by decide)]
            rw [hadv]
            exact ⟨le_rfl, hidx, rfl, fun _ => hfree⟩
      · have hadv : l.advance (fuel + 1) idx = idx := by rw [advance, dif_neg hlt]
        rw [hadv]
        exact ⟨le_rfl, hidx, rfl, fun h => absurd h hlt⟩

theorem visitsFrom_eq (hidx : idx ≤ maxLockPerTransaction)
    (hfuel : maxLockPerTransaction ≤ idx + fuel)
    (hvalid : ∀ h : idx < maxLockPerTransaction, l.free ⟨idx, h⟩ = false) :
    l.visitsFrom fuel idx = some (l.activeFrom idx) := by
  induction fuel generalizing idx with
  | zero =>
      have hend : idx = iterEnd := by
        unfold iterEnd
        omega
      rw [visitsFrom, if_pos hend, activeFrom_end hend.ge]
  | succ fuel ih =>
      by_cases hend : idx = iterEnd
      · rw [visitsFrom, if_pos hend, activeFrom_end hend.ge]
      · have hlt : idx < maxLockPerTransaction := Nat.lt_of_le_of_ne hidx hend
        obtain ⟨h1, h2, h3, h4⟩ :=
          l.advance_spec maxLockPerTransaction (idx + 1) hlt (by omega)
        rw [visitsFrom, if_neg hend, dif_pos hlt, iterNext, ih h2 (by omega) h4, h3,
          activeFrom_of_lt hlt, hvalid hlt]
        rfl

/-- **The iterator meets every lock once**, in slot order, and comes to its end. -/
theorem visits_eq (l : LockList) :
    l.visits = some ((List.finRange maxLockPerTransaction).filter fun i => (l.locks i).active) := by
  obtain ⟨-, h2, h3, h4⟩ :=
    l.advance_spec maxLockPerTransaction 0 (Nat.zero_le _) (by omega)
  rw [visits, iterBegin, visitsFrom_eq h2 (by omega) h4, h3, activeFrom, List.drop_zero,
    funext not_free_eq_active]

theorem advanceToValid_eq_head? (idx : Nat) :
    l.advanceToValid idx = (l.activeFrom idx).head? := by
  have hsplit : (List.finRange maxLockPerTransaction).filter
      (fun i => decide (idx ≤ i.val) && (l.locks i).active) = l.activeFrom idx := by
    conv_lhs => rw [← List.take_append_drop idx (List.finRange maxLockPerTransaction)]
    rw [List.filter_append]
    -- the slots before `idx` are left out, and those after it are not told apart from it
    have hbefore : ((List.finRange maxLockPerTransaction).take idx).filter
        (fun i => decide (idx ≤ i.val) && (l.locks i).active) = [] := by
      refine List.filter_eq_nil_iff.mpr fun i hi => ?_
      obtain ⟨k, hk, rfl⟩ := List.getElem_of_mem hi
      rw [List.length_take] at hk
      simp only [List.getElem_take, List.getElem_finRange, Fin.val_cast]
      simp only [Bool.and_eq_true, decide_eq_true_eq, not_and]
      omega
    rw [hbefore, List.nil_append]
    refine List.filter_congr fun i hi => ?_
    obtain ⟨k, hk, rfl⟩ := List.getElem_of_mem hi
    simp [List.getElem_drop, List.getElem_finRange, not_free_eq_active]
  rw [← hsplit, List.head?_filter]
  rfl

/-- The iterator of `release_all_locks`. -/
theorem advance_eq_advanceToValid (hidx : idx ≤ maxLockPerTransaction) :
    l.advance maxLockPerTransaction idx =
      match l.advanceToValid idx with
      | none => iterEnd
      | some i => i.val := by
  obtain ⟨-, h2, h3, h4⟩ :=
    l.advance_spec maxLockPerTransaction idx hidx (by omega)
  rw [advanceToValid_eq_head?, ← h3]
  by_cases hlt : l.advance maxLockPerTransaction idx < maxLockPerTransaction
  · rw [activeFrom_of_lt hlt, h4 hlt]
    rfl
  · rw [activeFrom_end (Nat.le_of_not_lt hlt)]
    exact Nat.le_antisymm h2 (Nat.le_of_not_lt hlt)

end LockList

end PawnDB
