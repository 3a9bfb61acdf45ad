import PawnDB.Table.StudentTable
import PawnDB.Txn.LockList

set_option autoImplicit false

/-! # The locks a list records

`heldFrom idx type key` counts the entries, from slot `idx` on, that record a lock of that
type on the student with that key. The operations change it as their names say, provided
that the entry they are called for exists: `rm_lock` and `promote_lock` go to the entry that
`get_lock` has found (`rmLock_of_getLock`, `promoteLock_of_getLock`), because the loop of
`remove` and that of `search` meet the same entry first.
-/

namespace PawnDB

open Probing

/-- The lock key of a student. -/
def studentKey (key : TblRow) : UniqueKey := ⟨studentTableId, key⟩

theorem studentKey_inj {key key' : TblRow} (h : studentKey key = studentKey key') : key = key' :=
  (UniqueKey.mk.inj h).2

namespace LockList

variable {l l' : LockList}

/-- What a list keeps of itself until it is cleared: only student rows are locked, an entry that
was never used has no student's key, and `size` counts the entries that record a lock. -/
structure Wf (l : LockList) : Prop where
  tableId : ∀ i, (l.locks i).active = true → (l.locks i).key.tableId = studentTableId
  unused : ∀ i, (l.locks i).isUsed = false → (l.locks i).key.tableId ≠ studentTableId
  size : l.size.toNat = Slots.count fun i => (l.locks i).active

theorem wf_init : init.Wf where
  tableId := fun _ h => by cases h
  unused := fun _ _ => (by decide : UniqueKey.empty.tableId ≠ studentTableId)
  size := (Slots.count_eq_zero.mpr fun _ => rfl).symm

/-- The entry records a lock of this type on the student with this key. -/
def recordsLock (type : LockType) (key : TblRow) (e : LockEntry) : Bool :=
  e.active && e.key.equals (studentKey key) && decide (e.type = type)

/-- The number of locks recorded from slot `idx` on. -/
def heldFrom (l : LockList) (idx : Nat) (type : LockType) (key : TblRow) : Nat :=
  Slots.count fun i => decide (idx ≤ i.val) && recordsLock type key (l.locks i)

theorem recordsLock_iff {type : LockType} {key : TblRow} {e : LockEntry} :
    recordsLock type key e = true ↔
      e.active = true ∧ e.key = studentKey key ∧ e.type = type := by
  simp [recordsLock, and_assoc]

/-- An entry in use for the student with key `key` records its own lock and no other. -/
theorem recordsLock_iff_of_active {e : LockEntry} {key : TblRow} (hact : e.active = true)
    (hkey : e.key = studentKey key) (type' : LockType) (key' : TblRow) :
    recordsLock type' key' e = true ↔ type' = e.type ∧ key' = key := by
  rw [recordsLock_iff, hkey]
  constructor
  · rintro ⟨-, hk, ht⟩
    exact ⟨ht.symm, (studentKey_inj hk).symm⟩
  · rintro ⟨rfl, rfl⟩
    exact ⟨hact, rfl, rfl⟩

theorem recordsLock_of_not_active {e : LockEntry} (hact : e.active = false) (type' : LockType)
    (key' : TblRow) : recordsLock type' key' e = false := by
  simp [recordsLock, hact]

/-- Overwriting one entry changes the count by what the old and the new one record. -/
theorem heldFrom_set {i : Fin maxLockPerTransaction} {e : LockEntry} {idx : Nat}
    (h : l'.locks = Slots.set l.locks i e) (hi : idx ≤ i.val) (type : LockType) (key : TblRow) :
    l'.heldFrom idx type key + (if recordsLock type key (l.locks i) = true then 1 else 0)
      = l.heldFrom idx type key + (if recordsLock type key e = true then 1 else 0) := by
  have hc := Slots.count_congr_off
    (p := fun j : Fin maxLockPerTransaction =>
      decide (idx ≤ j.val) && recordsLock type key (l'.locks j))
    (q := fun j => decide (idx ≤ j.val) && recordsLock type key (l.locks j)) i
    fun j hj => by rw [h, Slots.set_of_ne _ _ hj]
  simpa [heldFrom, h, hi] using hc

/-- The same for the number of entries in use. -/
theorem active_set {i : Fin maxLockPerTransaction} {e : LockEntry}
    (h : l'.locks = Slots.set l.locks i e) :
    Slots.count (fun j => (l'.locks j).active) + (if (l.locks i).active = true then 1 else 0)
      = Slots.count (fun j => (l.locks j).active) + (if e.active = true then 1 else 0) := by
  have hc := Slots.count_congr_off
    (p := fun j : Fin maxLockPerTransaction => (l'.locks j).active)
    (q := fun j => (l.locks j).active) i fun j hj => by rw [h, Slots.set_of_ne _ _ hj]
  simpa [h] using hc

/-! ## `add_lock` -/

theorem active_of_free {i : Fin maxLockPerTransaction} :
    (l.locks i).active = !l.free i := by
  simp [LockEntry.active, free]

/-- The list cannot take a lock for `key`: it is full, or an entry for `key` comes before the
first free one. -/
def refuses (l : LockList) (key : UniqueKey) : Bool :=
  l.full ||
    match seek (fun i => l.free i || (l.locks i).key.equals key) maxLockPerTransaction
        (home key) with
    | none => false
    | some i => !l.free i

/-- One more lock is recorded. -/
structure Recorded (l : LockList) (type : LockType) (key : TblRow) (l' : LockList) : Prop where
  wf : l.Wf → l'.Wf
  held : ∀ type' key', l'.heldFrom 0 type' key'
    = l.heldFrom 0 type' key' + (if type' = type ∧ key' = key then 1 else 0)

theorem recorded_of_set {i : Fin maxLockPerTransaction} {type : LockType} {key : TblRow}
    (hfree : (l.locks i).active = false) (hfull : l.full = false)
    (hlocks : l'.locks = Slots.set l.locks i ⟨studentKey key, type, true, false⟩)
    (hsize : l'.size = l.size + 1) : Recorded l type key l' := by
  constructor
  · intro hw
    constructor
    · intro j hj
      rw [hlocks] at hj ⊢
      by_cases hji : j = i
      · rw [hji, Slots.set_self]; rfl
      · rw [Slots.set_of_ne _ _ hji] at hj ⊢
        exact hw.tableId j hj
    · intro j hj
      rw [hlocks] at hj ⊢
      by_cases hji : j = i
      · rw [hji, Slots.set_self] at hj
        cases hj
      · rw [Slots.set_of_ne _ _ hji] at hj ⊢
        exact hw.unused j hj
    · have hc := active_set hlocks
      rw [hfree, if_neg (by simp), if_pos (by rfl)] at hc
      -- the list is not full, so the count does not wrap
      have hlt : l.size.toNat < 16 := by
        simp only [full, decide_eq_false_iff_not, UInt64.le_iff_toNat_le, not_le] at hfull
        exact hfull
      rw [hsize, SizeT.toNat_succ (by omega), hw.size]
      omega
  · intro type' key'
    have hc := heldFrom_set hlocks (Nat.zero_le _) type' key'
    rw [recordsLock_of_not_active hfree, if_neg (by simp)] at hc
    simp only [recordsLock_iff_of_active (e := ⟨studentKey key, type, true, false⟩) rfl rfl] at hc
    omega

/-- **What `add_lock` does.** Either the list refuses the key and stays as it is, or it
records the lock. -/
theorem addLock_cases (hw : l.Wf) (key : TblRow) (type : LockType) :
    (l.refuses (studentKey key) = true ∧
      ∃ e, e ≠ .none ∧ l.addLock (studentKey key) type = some (e, l)) ∨
    (l.refuses (studentKey key) = false ∧
      ∃ l', l.addLock (studentKey key) type = some (.none, l') ∧ Recorded l type key l') := by
  unfold refuses addLock insert
  cases hfull : l.full with
  | true => exact Or.inl ⟨rfl, .full, by decide, rfl⟩
  | false =>
      rw [if_neg (by simp)]
      dsimp only
      cases hseek : seek (fun i => l.free i || (l.locks i).key.equals (studentKey key))
          maxLockPerTransaction (home (studentKey key)) with
      | none =>
          -- every entry is in use, but then the list is full
          have hall : ∀ i, (l.locks i).active = true := fun i => by
            have := seek_eq_none_iff.mp hseek i
            rw [active_of_free]
            simp only [Bool.or_eq_false_iff] at this
            simp [this.1]
          have hc : Slots.count (fun i => (l.locks i).active) = maxLockPerTransaction := by
            rw [Slots.count, Finset.filter_true_of_mem fun i _ => hall i, Finset.card_univ,
              Fintype.card_fin]
          have : l.full = true := by
            rw [full, decide_eq_true_iff, UInt64.le_iff_toNat_le, hw.size, hc]
            decide
          rw [this] at hfull
          cases hfull
      | some i =>
          dsimp only
          cases hfree : l.free i with
          | true =>
              rw [if_pos rfl]
              exact Or.inr ⟨rfl, _, rfl, recorded_of_set (by rw [active_of_free, hfree]; rfl)
                hfull rfl rfl⟩
          | false => exact Or.inl ⟨rfl, .conflict, by decide, by simp⟩

theorem recorded_of_addLock (hw : l.Wf) {key : TblRow} {type : LockType}
    (h : l.addLock (studentKey key) type = some (.none, l')) :
    l.refuses (studentKey key) = false ∧ Recorded l type key l' := by
  rcases addLock_cases hw key type with ⟨-, e, hne, hadd⟩ | ⟨href, l'', hadd, hrec⟩
  · rw [h] at hadd
    cases hadd
    exact absurd rfl hne
  · rw [h] at hadd
    cases hadd
    exact ⟨href, hrec⟩

theorem refuses_of_addLock (hw : l.Wf) {key : TblRow} {type : LockType} {e : LockError}
    (hne : e ≠ .none) (h : l.addLock (studentKey key) type = some (e, l')) :
    l.refuses (studentKey key) = true ∧ l' = l := by
  rcases addLock_cases hw key type with ⟨href, e', -, hadd⟩ | ⟨-, l'', hadd, -⟩
  · rw [h] at hadd
    cases hadd
    exact ⟨href, rfl⟩
  · rw [h] at hadd
    cases hadd
    exact absurd rfl hne

/-! ## `get_lock` and the operations on the entry it finds -/

theorem getLock_ok {key : UniqueKey} {type : LockType} (h : l.getLock key = .ok type) :
    ∃ i, l.search key = .ok i ∧ (l.locks i).active = true ∧ (l.locks i).key = key ∧
      (l.locks i).type = type ∧
      seek (l.keyAt key) maxLockPerTransaction (home key) = some i := by
  unfold getLock at h
  split at h
  · cases h
  · rename_i i hi
    have hs := hi
    unfold search at hs
    split at hs
    · cases hs
    · rename_i j hj
      obtain rfl := Except.ok.inj hs
      obtain ⟨hat, hused⟩ := scan_holds hj
      simp only [keyAt, Bool.and_eq_true, Bool.not_eq_true', UniqueKey.equals_iff] at hat
      refine ⟨j, hi, ?_, hat.1, Except.ok.inj h, seek_of_scan hj⟩
      rw [LockEntry.active, hat.2]
      simpa using hused

/-- A lock that `get_lock` finds is counted. -/
theorem heldFrom_pos_of_getLock {key : TblRow} {type : LockType}
    (h : l.getLock (studentKey key) = .ok type) : 0 < l.heldFrom 0 type key := by
  obtain ⟨i, -, hact, hkey, htype, -⟩ := getLock_ok h
  refine Slots.count_pos (i := i) ?_
  rw [recordsLock_iff.mpr ⟨hact, hkey, htype⟩]
  simp

/-- Only students are found. -/
theorem Wf.tableId_of_getLock (hw : l.Wf) {key : UniqueKey} {type : LockType}
    (h : l.getLock key = .ok type) : key.tableId = studentTableId := by
  obtain ⟨i, -, hact, hkey, -, -⟩ := getLock_ok h
  rw [← hkey]
  exact hw.tableId i hact

/-- One lock fewer is recorded. -/
structure Erased (l : LockList) (type : LockType) (key : TblRow) (l' : LockList) : Prop where
  wf : l.Wf → l'.Wf
  held : ∀ type' key', l.heldFrom 0 type' key'
    = l'.heldFrom 0 type' key' + (if type' = type ∧ key' = key then 1 else 0)
  others : ∀ key', key' ≠ studentKey key → l'.getLock key' = l.getLock key'

theorem erased_of_set {i : Fin maxLockPerTransaction} {type : LockType} {key : TblRow}
    (hact : (l.locks i).active = true) (hkey : (l.locks i).key = studentKey key)
    (htype : (l.locks i).type = type)
    (hlocks : l'.locks = Slots.set l.locks i { l.locks i with isDeleted := true })
    (hsize : l'.size = l.size - 1) : Erased l type key l' := by
  have hdel : LockEntry.active { l.locks i with isDeleted := true } = false := by
    simp [LockEntry.active]
  -- the slot keeps its used flag, so searches still walk over it
  have hused : ∀ j, (l'.locks j).isUsed = (l.locks j).isUsed := fun j => by
    rw [hlocks]; exact Slots.map_set LockEntry.isUsed _ _ _ (by rfl) j
  constructor
  · intro hw
    constructor
    · intro j hj
      rw [hlocks] at hj ⊢
      by_cases hji : j = i
      · rw [hji, Slots.set_self, hdel] at hj
        cases hj
      · rw [Slots.set_of_ne _ _ hji] at hj ⊢
        exact hw.tableId j hj
    · intro j hj
      rw [hused] at hj
      rw [hlocks, Slots.map_set LockEntry.key _ _ _ (by rfl) j]
      exact hw.unused j hj
    · have hc := active_set hlocks
      rw [hact, if_pos rfl, hdel, if_neg (by simp)] at hc
      rw [hsize, SizeT.toNat_pred (by rw [hw.size]; omega), hw.size]
      omega
  · intro type' key'
    have hc := heldFrom_set hlocks (Nat.zero_le _) type' key'
    rw [recordsLock_of_not_active hdel] at hc
    simp only [recordsLock_iff_of_active hact hkey, htype, Bool.false_eq_true, if_false] at hc
    omega
  · intro key' hne
    -- the entry found for another key is found as before
    have hat : ∀ j, l'.keyAt key' j = l.keyAt key' j := fun j => by
      by_cases hji : j = i
      · have : (l.locks i).key.equals key' = false := by
          rw [← Bool.not_eq_true, UniqueKey.equals_iff, hkey]
          exact fun he => hne he.symm
        simp [keyAt, hlocks, hji, this]
      · simp [keyAt, hlocks, Slots.set_of_ne _ _ hji]
    have hsearch : l'.search key' = l.search key' := by
      simp only [search, hused, funext hat]
    unfold getLock
    rw [hsearch]
    split
    · rfl
    · rename_i j hj
      rw [hlocks]
      exact congrArg Except.ok (Slots.map_set LockEntry.type _ _ _ (by rfl) j)

theorem rmLock_of_getLock {key : TblRow} {type : LockType}
    (h : l.getLock (studentKey key) = .ok type) :
    ∃ l', l.rmLock (studentKey key) = some l' ∧ Erased l type key l' := by
  obtain ⟨i, -, hact, hkey, htype, hseek⟩ := getLock_ok h
  exact ⟨_, by rw [rmLock, remove, hseek], erased_of_set hact hkey htype rfl rfl⟩

/-- Even where `get_lock` was not asked before, `rm_lock` erases a recorded lock for the key. -/
theorem Wf.rmLock_some (hw : l.Wf) {key : TblRow}
    (h : l.rmLock (studentKey key) = some l') :
    ∃ type, 0 < l.heldFrom 0 type key ∧ Erased l type key l' := by
  unfold rmLock remove at h
  split at h
  · cases h
  · rename_i i hi
    cases h
    have hat := seek_holds hi
    simp only [keyAt, Bool.and_eq_true, Bool.not_eq_true', UniqueKey.equals_iff] at hat
    have hact : (l.locks i).active = true := by
      cases hu : (l.locks i).isUsed with
      | true => simp [LockEntry.active, hu, hat.2]
      | false => exact absurd (by rw [hat.1]; rfl) (hw.unused i hu)
    refine ⟨(l.locks i).type, Slots.count_pos (i := i) ?_,
      erased_of_set hact hat.1 rfl rfl rfl⟩
    rw [recordsLock_iff.mpr ⟨hact, hat.1, rfl⟩]
    simp

/-- A shared lock has become an exclusive one. -/
structure Promoted (l : LockList) (key : TblRow) (l' : LockList) : Prop where
  wf : l.Wf → l'.Wf
  shared : ∀ key', l.heldFrom 0 .shared key'
    = l'.heldFrom 0 .shared key' + (if key' = key then 1 else 0)
  exclusive : ∀ key', l'.heldFrom 0 .exclusive key'
    = l.heldFrom 0 .exclusive key' + (if key' = key then 1 else 0)

theorem promoteLock_of_getLock {key : TblRow}
    (h : l.getLock (studentKey key) = .ok .shared) :
    ∃ l', l.promoteLock (studentKey key) = some l' ∧ Promoted l key l' := by
  obtain ⟨i, hsearch, hact, hkey, htype, -⟩ := getLock_ok h
  refine ⟨l.setEntry i { l.locks i with type := .exclusive }, by rw [promoteLock, hsearch], ?_⟩
  have hactive : ∀ j, ((l.setEntry i { l.locks i with type := .exclusive }).locks j).active
      = (l.locks j).active := fun j => Slots.map_set LockEntry.active _ _ _ (by rfl) j
  have hset := l.setEntry_locks i { l.locks i with type := .exclusive }
  have hc := fun type' key' => heldFrom_set hset (Nat.zero_le _) type' key'
  simp only [recordsLock_iff_of_active hact hkey, htype,
    recordsLock_iff_of_active (e := { l.locks i with type := .exclusive }) hact hkey] at hc
  -- only the type of the one entry changes
  constructor
  · intro hw
    constructor
    · intro j hj
      rw [hactive] at hj
      rw [setEntry_locks, Slots.map_set LockEntry.key _ _ _ (by rfl) j]
      exact hw.tableId j hj
    · intro j hj
      rw [setEntry_locks, Slots.map_set LockEntry.isUsed _ _ _ (by rfl) j] at hj
      rw [setEntry_locks, Slots.map_set LockEntry.key _ _ _ (by rfl) j]
      exact hw.unused j hj
    · simp only [hactive]
      exact hw.size
  · intro key'
    simpa using (hc .shared key').symm
  · intro key'
    simpa using hc .exclusive key'

/-! ## The walk of `release_all_locks` -/

/-- At its end the iterator leaves no lock behind. -/
theorem heldFrom_of_end {idx : Nat} (h : l.advanceToValid idx = none) (type : LockType)
    (key : TblRow) : l.heldFrom idx type key = 0 := by
  refine Slots.count_eq_zero.mpr fun i => ?_
  have hi := List.find?_eq_none.mp h i (List.mem_finRange i)
  simp only [Bool.and_eq_true, decide_eq_true_eq, not_and, Bool.not_eq_true] at hi
  by_cases hidx : idx ≤ i.val
  · rw [recordsLock_of_not_active (hi hidx), Bool.and_false]
  · simp [hidx]

/-- Moving past the entry the iterator is at leaves its lock behind and no other. -/
theorem heldFrom_of_advance {idx : Nat} {i : Fin maxLockPerTransaction} {key : TblRow}
    (h : l.advanceToValid idx = some i) (hkey : (l.locks i).key = studentKey key)
    (type' : LockType) (key' : TblRow) :
    l.heldFrom idx type' key' = l.heldFrom (i.val + 1) type' key'
      + (if type' = (l.locks i).type ∧ key' = key then 1 else 0) := by
  have hi := List.find?_some h
  simp only [Bool.and_eq_true, decide_eq_true_eq] at hi
  -- the entries that the iterator passes over are free
  have hbefore : ∀ j : Fin maxLockPerTransaction, idx ≤ j.val → j.val < i.val →
      (l.locks j).active = false := fun j hj hji => by
    obtain ⟨-, as, bs, heq, has⟩ := List.find?_eq_some_iff_append.mp h
    have hmem : j ∈ as := by
      have hsorted := List.pairwise_lt_finRange maxLockPerTransaction
      have hj' := List.mem_finRange j
      rw [heq] at hsorted hj'
      rcases List.mem_append.mp hj' with hj' | hj'
      · exact hj'
      · rw [List.pairwise_append] at hsorted
        rcases List.mem_cons.mp hj' with hj' | hj'
        · exact absurd hji (by rw [hj']; omega)
        · have := (List.pairwise_cons.mp hsorted.2.1).1 j hj'
          exact absurd hji (by omega)
    have := has j hmem
    simpa [hj] using this
  have hc := Slots.count_congr_off
    (p := fun j : Fin maxLockPerTransaction =>
      decide (idx ≤ j.val) && recordsLock type' key' (l.locks j))
    (q := fun j => decide (i.val + 1 ≤ j.val) && recordsLock type' key' (l.locks j)) i
    fun j hj => by
      rcases Nat.lt_or_gt_of_ne (Fin.val_ne_of_ne hj) with hlt | hgt
      · by_cases hidx : idx ≤ j.val
        · rw [recordsLock_of_not_active (hbefore j hidx hlt), Bool.and_false, Bool.and_false]
        · simp [hidx, show ¬ i.val + 1 ≤ j.val by omega]
      · simp [show idx ≤ j.val by omega, show i.val + 1 ≤ j.val by omega]
  simpa [heldFrom, hi.1, recordsLock_iff_of_active hi.2 hkey] using hc

theorem heldFrom_init (idx : Nat) (type : LockType) (key : TblRow) :
    init.heldFrom idx type key = 0 := by
  refine Slots.count_eq_zero.mpr fun i => ?_
  rw [recordsLock_of_not_active rfl, Bool.and_false]

/-- A cleared list records nothing. -/
theorem heldFrom_clear (idx : Nat) (type : LockType) (key : TblRow) :
    l.clear.heldFrom idx type key = 0 := by
  refine Slots.count_eq_zero.mpr fun i => ?_
  rw [recordsLock_of_not_active (by simp [clear, LockEntry.active]), Bool.and_false]

end LockList

end PawnDB
