import PawnDB.Lib.Machine
import PawnDB.Txn.HeldLocks
import PawnDB.Txn.LockIterator

set_option autoImplicit false

/-! # Histories of a lock list

A lock list after any sequence of its operations, with keys of any tables. `rm_lock` and
`promote_lock` are called for keys that are held; nothing is asked of the others.

`Probed` is what every such list keeps of itself: every slot on the way from the home of a held
key to its entry is in use, and `size` is the number of entries that record a lock. From it follows
what `search`, the count and the iterator say (`exact_of_run`). It does not keep the keys apart:
an insertion stops at the first free entry, and a lock for the key may lie behind that one. Keys are
recorded once exactly as long as this does not happen (`recordedOnce_iff`).
-/

namespace PawnDB

open Probing

namespace LockList

variable (l : LockList)

/-- Some entry records a lock for the key. -/
def Held (key : UniqueKey) : Prop := ∃ i, (l.locks i).active = true ∧ (l.locks i).key = key

instance (key : UniqueKey) : Decidable (l.Held key) := Fintype.decidableExistsFintype

/-- No two entries record locks for one key. -/
def NoDup : Prop := ∀ i j, (l.locks i).active = true → (l.locks j).active = true →
  (l.locks i).key = (l.locks j).key → i = j

instance : Decidable l.NoDup :=
  inferInstanceAs (Decidable (∀ i j, (l.locks i).active = true → (l.locks j).active = true →
    (l.locks i).key = (l.locks j).key → i = j))

/-- On the way from the home of the key a free entry comes before every lock for the key. -/
def Overlooks (key : UniqueKey) : Prop :=
  ∃ d < maxLockPerTransaction, l.free (walk (home key) d) = true ∧
    ∀ e ≤ d, (l.locks (walk (home key) e)).active = true →
      (l.locks (walk (home key) e)).key ≠ key

instance (key : UniqueKey) : Decidable (l.Overlooks key) :=
  inferInstanceAs (Decidable (∃ d < maxLockPerTransaction, l.free (walk (home key) d) = true ∧
    ∀ e ≤ d, (l.locks (walk (home key) e)).active = true →
      (l.locks (walk (home key) e)).key ≠ key))

/-- What a lock list keeps of itself. -/
structure Probed : Prop where
  linked : ∀ i, (l.locks i).active = true →
    Linked (home (l.locks i).key) (fun j => (l.locks j).isUsed) i
  size : l.size.toNat = Slots.count fun i => (l.locks i).active

variable {l} {l' : LockList} {key : UniqueKey} {i : Fin maxLockPerTransaction}

theorem active_iff : (l.locks i).active = true ↔
    (l.locks i).isUsed = true ∧ (l.locks i).isDeleted = false := by
  simp [LockEntry.active]

theorem keyAt_iff : l.keyAt key i = true ↔
    (l.locks i).key = key ∧ (l.locks i).isDeleted = false := by
  simp [keyAt]

theorem probed_init : init.Probed where
  linked := fun _ h => by cases h
  size := (Slots.count_eq_zero.mpr fun _ => rfl).symm

theorem probed_clear : l.clear.Probed where
  linked := fun _ h => by simp [clear, LockEntry.active] at h
  size := (Slots.count_eq_zero.mpr fun _ => by simp [clear, LockEntry.active]).symm

/-! ## Finding a held key -/

/-- The lookup and the loop of `remove` meet the same lock for a held key. -/
theorem Probed.find (hp : l.Probed) (hheld : l.Held key) :
    ∃ i, l.search key = .ok i ∧ (l.locks i).active = true ∧ (l.locks i).key = key ∧
      seek (l.keyAt key) maxLockPerTransaction (home key) = some i := by
  obtain ⟨q, hact, rfl⟩ := hheld
  have hused := (active_iff.mp hact).1
  obtain ⟨r, hr, hat, hru⟩ := exists_scan_of_linked (p := l.keyAt (l.locks q).key)
    (hp.linked q hact) hused (keyAt_iff.mpr ⟨rfl, (active_iff.mp hact).2⟩)
  obtain ⟨hkey, hdel⟩ := keyAt_iff.mp hat
  exact ⟨r, by rw [search, hr], active_iff.mpr ⟨hru, hdel⟩, hkey, seek_of_scan hr⟩

/-- Whatever the lookup finds is a lock for the key. -/
theorem search_ok (h : l.search key = .ok i) :
    (l.locks i).active = true ∧ (l.locks i).key = key := by
  unfold search at h
  split at h
  · cases h
  · next j hj =>
      obtain rfl := Except.ok.inj h
      obtain ⟨hat, hused⟩ := scan_holds hj
      obtain ⟨hkey, hdel⟩ := keyAt_iff.mp hat
      exact ⟨active_iff.mpr ⟨by simpa using hused, hdel⟩, hkey⟩

theorem Probed.search_iff (hp : l.Probed) : (∃ i, l.search key = .ok i) ↔ l.Held key := by
  constructor
  · rintro ⟨i, hi⟩
    exact ⟨i, search_ok hi⟩
  · intro hheld
    obtain ⟨i, hi, -⟩ := hp.find hheld
    exact ⟨i, hi⟩

theorem getLock_of_search (h : l.search key = .ok i) : l.getLock key = .ok (l.locks i).type := by
  rw [getLock, h]

theorem Probed.getLock_iff (hp : l.Probed) : (∃ t, l.getLock key = .ok t) ↔ l.Held key := by
  rw [← hp.search_iff]
  constructor
  · rintro ⟨t, ht⟩
    obtain ⟨i, hi, -⟩ := getLock_ok ht
    exact ⟨i, hi⟩
  · rintro ⟨i, hi⟩
    exact ⟨_, getLock_of_search hi⟩

/-- **`rm_lock` of a held key** deactivates one entry, one with that key. -/
theorem Probed.rmLock_spec (hp : l.Probed) (hheld : l.Held key) :
    ∃ i l', l.rmLock key = some l' ∧ (l.locks i).active = true ∧ (l.locks i).key = key ∧
      l'.locks = Slots.set l.locks i { l.locks i with isDeleted := true } ∧
      l'.size = l.size - 1 := by
  obtain ⟨i, -, hact, hkey, hseek⟩ := hp.find hheld
  exact ⟨i, _, by rw [rmLock, remove, hseek], hact, hkey, rfl, rfl⟩

/-- A step that leaves the keys and the flags of the entries in use keeps the list probed. -/
theorem Probed.of_active (hp : l.Probed)
    (hsize : l'.size.toNat = Slots.count fun i => (l'.locks i).active)
    (hact : ∀ i, (l'.locks i).active = true →
      (l.locks i).active = true ∧ (l'.locks i).key = (l.locks i).key)
    (hused : ∀ i, (l.locks i).isUsed = true → (l'.locks i).isUsed = true) : l'.Probed where
  linked := fun i hi => by
    obtain ⟨hold, hkey⟩ := hact i hi
    rw [hkey]
    exact (hp.linked i hold).mono hused
  size := hsize

/-- After an `rm_lock` every lock is one that was there. -/
theorem Probed.rmLock_fewer (hp : l.Probed) (hheld : l.Held key) (h : l.rmLock key = some l')
    (j : Fin maxLockPerTransaction) (hj : (l'.locks j).active = true) :
    (l.locks j).active = true ∧ (l'.locks j).key = (l.locks j).key := by
  obtain ⟨i, u, hu, -, -, hlocks, -⟩ := hp.rmLock_spec hheld
  rw [h] at hu
  obtain rfl := Option.some.inj hu
  rw [hlocks] at hj ⊢
  by_cases hji : j = i
  · rw [hji, Slots.set_self] at hj
    simp [LockEntry.active] at hj
  · rw [Slots.set_of_ne _ _ hji] at hj ⊢
    exact ⟨hj, rfl⟩

theorem Probed.rmLock (hp : l.Probed) (hheld : l.Held key) (h : l.rmLock key = some l') :
    l'.Probed := by
  obtain ⟨i, u, hu, hact, -, hlocks, hsize⟩ := hp.rmLock_spec hheld
  rw [h] at hu
  obtain rfl := Option.some.inj hu
  refine hp.of_active ?_ (hp.rmLock_fewer hheld h) fun j hj => ?_
  · have hdel : LockEntry.active { l.locks i with isDeleted := true } = false := by
      simp [LockEntry.active]
    have hc := active_set hlocks
    rw [hact, if_pos rfl, hdel, if_neg (by simp)] at hc
    rw [hsize, SizeT.toNat_pred (by rw [hp.size]; omega), hp.size]
    omega
  · rw [hlocks]
    exact (Slots.map_set LockEntry.isUsed _ _ _ (by rfl) j).trans hj

/-- A promotion changes the type of one entry. -/
theorem promoteLock_some (h : l.promoteLock key = some l') :
    ∃ i, l' = l.setEntry i { l.locks i with type := .exclusive } := by
  unfold LockList.promoteLock at h
  split at h
  · cases h
  · next i hi => exact ⟨i, (Option.some.inj h).symm⟩

theorem promoteLock_active (h : l.promoteLock key = some l') (j : Fin maxLockPerTransaction) :
    (l'.locks j).active = (l.locks j).active ∧ (l'.locks j).key = (l.locks j).key := by
  obtain ⟨i, rfl⟩ := promoteLock_some h
  exact ⟨Slots.map_set LockEntry.active _ _ _ (by rfl) j,
    Slots.map_set LockEntry.key _ _ _ (by rfl) j⟩

theorem promoteLock_fewer (h : l.promoteLock key = some l') (j : Fin maxLockPerTransaction)
    (hj : (l'.locks j).active = true) :
    (l.locks j).active = true ∧ (l'.locks j).key = (l.locks j).key := by
  obtain ⟨hact, hkey⟩ := promoteLock_active h j
  exact ⟨hact ▸ hj, hkey⟩

theorem Probed.promoteLock (hp : l.Probed) (h : l.promoteLock key = some l') : l'.Probed := by
  refine hp.of_active ?_ (promoteLock_fewer h) fun j hj => ?_
  · have hcount : Slots.count (fun i => (l'.locks i).active)
        = Slots.count fun i => (l.locks i).active :=
      Slots.count_congr fun i => (promoteLock_active h i).1
    have hsize : l'.size = l.size := by
      obtain ⟨i, rfl⟩ := promoteLock_some h
      rfl
    rw [hcount, hsize, hp.size]
  · obtain ⟨i, rfl⟩ := promoteLock_some h
    exact (Slots.map_set LockEntry.isUsed _ _ _ (by rfl) j).trans hj

/-! ## Adding a lock -/

/-- The slot at which the loop of `insert` stops. -/
def insertAt (l : LockList) (key : UniqueKey) : Option (Fin maxLockPerTransaction) :=
  seek (fun i => l.free i || (l.locks i).key.equals key) maxLockPerTransaction (home key)

theorem full_eq_false_iff : l.full = false ↔ l.size.toNat < maxLockPerTransaction := by
  rw [full, decide_eq_false_iff_not, UInt64.le_iff_toNat_le, not_le]
  rfl

/-- **The loop of `insert` ends** if not every entry is in use. -/
theorem Probed.insertAt_isSome (hp : l.Probed) (hfull : l.full = false) (key : UniqueKey) :
    ∃ i, l.insertAt key = some i := by
  refine Option.isSome_iff_exists.mp (seek_isSome_iff.mpr ?_)
  by_contra hno
  -- otherwise every entry records a lock
  have hall : ∀ i, (l.locks i).active = true := fun i => by
    rw [active_of_free]
    by_contra hfree
    exact hno ⟨i, by simp at hfree; simp [hfree]⟩
  have hcount : Slots.count (fun i => (l.locks i).active) = maxLockPerTransaction := by
    rw [Slots.count, Finset.filter_true_of_mem fun i _ => hall i, Finset.card_univ,
      Fintype.card_fin]
  have hlt := full_eq_false_iff.mp hfull
  rw [hp.size, hcount] at hlt
  exact absurd hlt (lt_irrefl _)

/-- The loop stops at a free entry exactly if it overlooks the locks for the key. -/
theorem free_insertAt_iff (h : l.insertAt key = some i) : l.free i = true ↔ l.Overlooks key := by
  obtain ⟨d, hd, rfl, hat, hbefore⟩ := seek_eq_some_iff.mp h
  constructor
  · intro hfree
    refine ⟨d, hd, hfree, fun e he hact => ?_⟩
    rcases Nat.lt_or_eq_of_le he with hlt | rfl
    · have hne := hbefore e hlt
      rw [Bool.or_eq_false_iff] at hne
      rw [Ne, ← UniqueKey.equals_iff, hne.2]
      exact Bool.false_ne_true
    · rw [active_of_free, hfree] at hact
      cases hact
  · rintro ⟨d', -, hfree', hover⟩
    have hle : d ≤ d' := by
      by_contra hlt
      have hne := hbefore d' (by omega)
      rw [hfree'] at hne
      cases hne
    by_contra hfree
    rw [Bool.not_eq_true] at hfree
    rw [hfree, Bool.false_or, UniqueKey.equals_iff] at hat
    exact hover d hle (by rw [active_of_free, hfree]; rfl) hat

/-- A key that is not held is overlooked. -/
theorem held_of_not_free (h : l.insertAt key = some i) (hfree : l.free i = false) :
    (l.locks i).active = true ∧ (l.locks i).key = key := by
  have hat := seek_holds h
  rw [hfree, Bool.false_or, UniqueKey.equals_iff] at hat
  exact ⟨by rw [active_of_free, hfree]; rfl, hat⟩

theorem addLock_of_free {type : LockType} (hfull : l.full = false)
    (h : l.insertAt key = some i) (hfree : l.free i = true) :
    l.addLock key type = some (.none,
      { l.setEntry i ⟨key, type, true, false⟩ with size := l.size + 1 }) := by
  unfold insertAt at h
  rw [addLock, hfull, if_neg (by decide), insert]
  dsimp only
  rw [h]
  dsimp only
  rw [if_pos hfree]

theorem addLock_of_not_free {type : LockType} (hfull : l.full = false)
    (h : l.insertAt key = some i) (hfree : l.free i = false) :
    l.addLock key type = some (.conflict, l) := by
  unfold insertAt at h
  rw [addLock, hfull, if_neg (by decide), insert]
  dsimp only
  rw [h]
  dsimp only
  rw [hfree]
  rfl

theorem addLock_of_full {type : LockType} (hfull : l.full = true) :
    l.addLock key type = some (.full, l) := by
  rw [addLock, if_pos hfull]

/-- Entry `i` has taken a lock for `key`. -/
structure Took (l : LockList) (i : Fin maxLockPerTransaction) (key : UniqueKey) (type : LockType)
    (l' : LockList) : Prop where
  free : l.free i = true
  linked : Linked (home key) (fun j => (l.locks j).isUsed) i
  locks : l'.locks = Slots.set l.locks i ⟨key, type, true, false⟩
  size : l'.size = l.size + 1

/-- **What `add_lock` does.** A full list refuses. Otherwise the lock goes into a free entry if the
locks for the key are overlooked, and there is a conflict if not. -/
theorem Probed.addLock_cases (hp : l.Probed) (key : UniqueKey) (type : LockType) :
    (l.full = true ∧ l.addLock key type = some (.full, l)) ∨
    (l.full = false ∧ ¬ l.Overlooks key ∧ l.Held key ∧
      l.addLock key type = some (.conflict, l)) ∨
    (l.full = false ∧ l.Overlooks key ∧
      ∃ i l', l.addLock key type = some (.none, l') ∧ Took l i key type l') := by
  cases hfull : l.full with
  | true => exact Or.inl ⟨rfl, addLock_of_full hfull⟩
  | false =>
      obtain ⟨i, hi⟩ := hp.insertAt_isSome hfull key
      cases hfree : l.free i with
      | false =>
          refine Or.inr (Or.inl ⟨rfl, ?_, ⟨i, held_of_not_free hi hfree⟩,
            addLock_of_not_free hfull hi hfree⟩)
          rw [← free_insertAt_iff hi, hfree]
          decide
      | true =>
          refine Or.inr (Or.inr ⟨rfl, (free_insertAt_iff hi).mp hfree, i, _,
            addLock_of_free hfull hi hfree, hfree, linked_of_seek hi fun j hj => ?_, rfl, rfl⟩)
          rw [Bool.or_eq_false_iff, LockList.free, Bool.or_eq_false_iff] at hj
          simpa using hj.1.1

namespace Took

variable {type : LockType}

theorem entry_of_ne (h : Took l i key type l') {j : Fin maxLockPerTransaction} (hj : j ≠ i) :
    l'.locks j = l.locks j := by
  rw [h.locks, Slots.set_of_ne _ _ hj]

theorem used (h : Took l i key type l') (j : Fin maxLockPerTransaction)
    (hj : (l.locks j).isUsed = true) : (l'.locks j).isUsed = true := by
  by_cases hji : j = i
  · rw [hji, h.locks, Slots.set_self]
  · rw [h.entry_of_ne hji]
    exact hj

theorem probed (h : Took l i key type l') (hp : l.Probed) (hfull : l.full = false) :
    l'.Probed where
  linked := fun j hj => by
    by_cases hji : j = i
    · rw [hji, h.locks, Slots.set_self, ← h.locks]
      exact h.linked.mono h.used
    · rw [h.entry_of_ne hji] at hj ⊢
      exact (hp.linked j hj).mono h.used
  size := by
    have hc := active_set h.locks
    have hlt := full_eq_false_iff.mp hfull
    have hmax : maxLockPerTransaction = 16 := rfl
    rw [active_of_free, h.free, if_neg (by decide), if_pos (by rfl)] at hc
    rw [h.size, SizeT.toNat_succ (by omega), hp.size]
    omega

/-- A lock for a key that was not held leaves the keys apart. -/
theorem noDup (h : Took l i key type l') (hd : l.NoDup) (hnew : ¬ l.Held key) : l'.NoDup := by
  have hkey : (l'.locks i).key = key := by rw [h.locks, Slots.set_self]
  have hother : ∀ j, j ≠ i → (l'.locks j).active = true → (l'.locks j).key ≠ key := by
    intro j hj hact he
    rw [h.entry_of_ne hj] at hact he
    exact hnew ⟨j, hact, he⟩
  intro j k hj hk he
  by_cases hji : j = i
  · by_cases hki : k = i
    · rw [hji, hki]
    · rw [hji, hkey] at he
      exact absurd he.symm (hother k hki hk)
  · by_cases hki : k = i
    · rw [hki, hkey] at he
      exact absurd he (hother j hji hj)
    · rw [h.entry_of_ne hji] at hj he
      rw [h.entry_of_ne hki] at hk he
      exact hd j k hj hk he

/-- A lock for a key that was not held is what `get_lock` finds. -/
theorem getLock (h : Took l i key type l') (hnew : ¬ l.Held key) : l'.getLock key = .ok type := by
  have hentry : l'.locks i = ⟨key, type, true, false⟩ := by rw [h.locks, Slots.set_self]
  have hscan : scan (fun j => !(l'.locks j).isUsed) (l'.keyAt key) maxLockPerTransaction
      (home key) = some i := by
    refine scan_of_linked (h.linked.mono h.used) ?_ ?_ fun j hused hat => ?_
    · rw [hentry]
    · exact keyAt_iff.mpr (by rw [hentry]; exact ⟨rfl, rfl⟩)
    · by_contra hji
      rw [h.entry_of_ne hji] at hused
      obtain ⟨hkey, hdel⟩ := keyAt_iff.mp hat
      rw [h.entry_of_ne hji] at hkey hdel
      exact hnew ⟨j, active_iff.mpr ⟨hused, hdel⟩, hkey⟩
  have hsearch : l'.search key = .ok i := by rw [search, hscan]
  rw [getLock_of_search hsearch, hentry]

end Took

/-! ## Histories -/

/-- The operations on a lock list. -/
inductive LockOp
  | add (key : UniqueKey) (type : LockType)
  | rm (key : UniqueKey)
  | promote (key : UniqueKey)
  | get (key : UniqueKey)
  | clear
  deriving DecidableEq, Repr

/-- What they answer. -/
inductive LockAnswer
  | error (e : LockError)
  | lock (type : Option LockType)
  deriving DecidableEq, Repr

/-- One operation. A lock is removed or promoted only for a key that is held. -/
def step (l : LockList) : LockOp → Option (LockList × List LockAnswer)
  | .add key type => (l.addLock key type).map fun r => (r.2, [.error r.1])
  | .rm key =>
      if l.Held key then (l.rmLock key).map fun l' => (l', [.error .none]) else none
  | .promote key =>
      if l.Held key then (l.promoteLock key).map fun l' => (l', [.error .none]) else none
  | .get key => some (l, [.lock (l.getLock key).toOption])
  | .clear => some (l.clear, [])

def machine : Machine LockList LockOp LockAnswer := ⟨step⟩

variable {op : LockOp} {out : List LockAnswer} {h : List (Entry LockList LockOp LockAnswer)}

/-- What a step does. -/
inductive Did (l : LockList) : LockOp → LockList → List LockAnswer → Prop
  | full {key : UniqueKey} {type : LockType} : l.full = true →
      Did l (.add key type) l [.error .full]
  | conflict {key : UniqueKey} {type : LockType} : l.full = false → ¬ l.Overlooks key →
      l.Held key → Did l (.add key type) l [.error .conflict]
  | took {key : UniqueKey} {type : LockType} {i : Fin maxLockPerTransaction} {l' : LockList} :
      l.full = false → l.Overlooks key → Took l i key type l' →
      Did l (.add key type) l' [.error .none]
  | removed {key : UniqueKey} {l' : LockList} : l.Held key → l.rmLock key = some l' →
      Did l (.rm key) l' [.error .none]
  | promoted {key : UniqueKey} {l' : LockList} : l.promoteLock key = some l' →
      Did l (.promote key) l' [.error .none]
  | got (key : UniqueKey) : Did l (.get key) l [.lock (l.getLock key).toOption]
  | cleared : Did l .clear l.clear []

theorem step_did (hp : l.Probed) (hs : machine.step l op = some (l', out)) : l.Did op l' out := by
  change l.step op = _ at hs
  cases op with
  | add key type =>
      obtain ⟨r, hr, heq⟩ := Option.map_eq_some_iff.mp hs
      cases heq
      rcases hp.addLock_cases key type with ⟨hfull, hadd⟩ | ⟨hfull, hover, hheld, hadd⟩ |
        ⟨hfull, hover, i, u, hadd, htook⟩
      · rw [hr] at hadd
        cases hadd
        exact .full hfull
      · rw [hr] at hadd
        cases hadd
        exact .conflict hfull hover hheld
      · rw [hr] at hadd
        cases hadd
        exact .took hfull hover htook
  | rm key =>
      simp only [step] at hs
      split at hs
      · next hheld =>
          obtain ⟨u, hu, heq⟩ := Option.map_eq_some_iff.mp hs
          cases heq
          exact .removed hheld hu
      · cases hs
  | promote key =>
      simp only [step] at hs
      split at hs
      · obtain ⟨u, hu, heq⟩ := Option.map_eq_some_iff.mp hs
        cases heq
        exact .promoted hu
      · cases hs
  | get key =>
      cases hs
      exact .got key
  | clear =>
      cases hs
      exact .cleared

/-- **One operation keeps the list probed.** -/
theorem Probed.step (hp : l.Probed) (hs : machine.step l op = some (l', out)) : l'.Probed := by
  cases step_did hp hs with
  | full | conflict | got => exact hp
  | took hfull _ htook => exact htook.probed hp hfull
  | removed hheld hrm => exact hp.rmLock hheld hrm
  | promoted hpr => exact hp.promoteLock hpr
  | cleared => exact probed_clear

theorem probed_of_run (hr : machine.Run init h l) : l.Probed :=
  hr.invariant (P := fun _ u => u.Probed) probed_init fun _ _ _ _ _ _ hu hs => hu.step hs

/-! ## What the list says of itself -/

/-- The count, the lookups, `rm_lock`, the loop of `insert` and the iterator say what the entries
say. -/
structure Exact (l : LockList) : Prop where
  size : l.size.toNat = Slots.count fun i => (l.locks i).active
  search : ∀ key, (∃ i, l.search key = .ok i) ↔ l.Held key
  found : ∀ key i, l.search key = .ok i → (l.locks i).active = true ∧ (l.locks i).key = key
  getLock : ∀ key, (∃ type, l.getLock key = .ok type) ↔ l.Held key
  rmLock : ∀ key, l.Held key → ∃ i l', l.rmLock key = some l' ∧ (l.locks i).active = true ∧
    (l.locks i).key = key ∧ (l'.locks i).active = false ∧
    ∀ j, j ≠ i → l'.locks j = l.locks j
  insert : ∀ entry, l.size.toNat < maxLockPerTransaction → (l.insert entry).isSome
  visits : l.visits =
    some ((List.finRange maxLockPerTransaction).filter fun i => (l.locks i).active)

theorem Probed.exact (hp : l.Probed) : l.Exact where
  size := hp.size
  search := fun _ => hp.search_iff
  found := fun _ _ hi => search_ok hi
  getLock := fun _ => hp.getLock_iff
  rmLock := fun key hheld => by
    obtain ⟨i, l', hl', hact, hkey, hlocks, -⟩ := hp.rmLock_spec hheld
    refine ⟨i, l', hl', hact, hkey, ?_, fun j hj => ?_⟩
    · rw [hlocks, Slots.set_self]
      simp [LockEntry.active]
    · rw [hlocks, Slots.set_of_ne _ _ hj]
  insert := fun entry hlt => by
    obtain ⟨i, hi⟩ := hp.insertAt_isSome (full_eq_false_iff.mpr hlt) entry.key
    unfold insertAt at hi
    rw [LockList.insert, hi]
    dsimp only
    split <;> rfl
  visits := visits_eq l

/-- **The list is exact after every history.** -/
theorem exact_of_run (hr : machine.Run init h l) : l.Exact := (probed_of_run hr).exact

/-- Two locks, a lock of another table whose home they have taken, removals, a second lock for a
key that is held, and a cleared list that is used again. -/
def sampleOps : List LockOp :=
  [.add ⟨1, 0⟩ .shared, .add ⟨1, 1⟩ .shared, .add ⟨2, 0⟩ .exclusive, .rm ⟨1, 0⟩,
    .add ⟨1, 1⟩ .exclusive, .promote ⟨1, 1⟩, .rm ⟨1, 1⟩, .clear, .add ⟨2, 0⟩ .shared,
    .add ⟨18, 0⟩ .shared]

theorem exact_of_run_sample : ∃ h l, machine.Run init h l ∧ l.size = 2 ∧ l.visits = some [2, 3] ∧
    l.Exact := by
  obtain ⟨h, l, hr, hp⟩ := Machine.exists_run_of_exec (M := machine) (s := init)
    (p := fun _ l => decide (l.size = 2 ∧ l.visits = some [2, 3]))
    (show (machine.exec init sampleOps).map _ = some true by decide +kernel)
  obtain ⟨hsize, hvisits⟩ := of_decide_eq_true hp
  exact ⟨h, l, hr, hsize, hvisits, exact_of_run hr⟩

/-! ## Recorded at most once -/

/-- A lock that is added to a list with room is a conflict exactly if its key is held, and is found
afterwards if it is not. -/
def AddExact (e : Entry LockList LockOp LockAnswer) : Prop :=
  ∀ key type, e.act = .add key type → e.pre.full = false →
    (e.out = [.error .conflict] ∧ e.post = e.pre ↔ e.pre.Held key) ∧
    (¬ e.pre.Held key → e.out = [.error .none] ∧ e.post.getLock key = .ok type)

/-- No list of the history has two locks for one key, and every lock is added as it should be. -/
structure RecordedOnce (h : List (Entry LockList LockOp LockAnswer)) : Prop where
  noDup : ∀ e ∈ h, e.post.NoDup
  add : ∀ e ∈ h, AddExact e

/-- If the key is held, no free entry comes before the locks for it. -/
def Noticed (e : Entry LockList LockOp LockAnswer) : Prop :=
  match e.act with
  | .add key _ => e.pre.full = false → e.pre.Held key → ¬ e.pre.Overlooks key
  | _ => True

instance (e : Entry LockList LockOp LockAnswer) : Decidable (Noticed e) :=
  match e with
  | ⟨l, .add key _, _, _⟩ =>
      inferInstanceAs (Decidable (l.full = false → l.Held key → ¬ l.Overlooks key))
  | ⟨_, .rm _, _, _⟩ => .isTrue trivial
  | ⟨_, .promote _, _, _⟩ => .isTrue trivial
  | ⟨_, .get _, _, _⟩ => .isTrue trivial
  | ⟨_, .clear, _, _⟩ => .isTrue trivial

theorem NoDup.of_active (hd : l.NoDup) (hact : ∀ i, (l'.locks i).active = true →
    (l.locks i).active = true ∧ (l'.locks i).key = (l.locks i).key) : l'.NoDup := by
  intro i j hi hj he
  obtain ⟨hi, hki⟩ := hact i hi
  obtain ⟨hj, hkj⟩ := hact j hj
  rw [hki, hkj] at he
  exact hd i j hi hj he

/-- **What one step keeps.** -/
theorem NoDup.step (hd : l.NoDup) (hp : l.Probed) (hs : machine.step l op = some (l', out))
    (hn : Noticed ⟨l, op, out, l'⟩) : l'.NoDup ∧ AddExact ⟨l, op, out, l'⟩ := by
  cases step_did hp hs with
  | full hfull =>
      refine ⟨hd, fun key type hact hroom => ?_⟩
      rw [hfull] at hroom
      cases hroom
  | conflict hfull hover hheld =>
      refine ⟨hd, fun key type hact _ => ?_⟩
      cases hact
      exact ⟨⟨fun _ => hheld, fun _ => ⟨rfl, rfl⟩⟩, fun hnew => absurd hheld hnew⟩
  | took hfull hover htook =>
      have hnew := fun hheld => hn hfull hheld hover
      refine ⟨htook.noDup hd hnew, fun key type hact _ => ?_⟩
      cases hact
      exact ⟨⟨fun he => absurd he.1 (by simp), fun hheld => absurd hheld hnew⟩,
        fun _ => ⟨rfl, htook.getLock hnew⟩⟩
  | removed hheld hrm =>
      exact ⟨hd.of_active (hp.rmLock_fewer hheld hrm), fun _ _ hact => by cases hact⟩
  | promoted hpr => exact ⟨hd.of_active (promoteLock_fewer hpr), fun _ _ hact => by cases hact⟩
  | got => exact ⟨hd, fun _ _ hact => by cases hact⟩
  | cleared =>
      refine ⟨fun i j hi => ?_, fun _ _ hact => by cases hact⟩
      simp [clear, LockEntry.active] at hi

/-- **Keys are recorded once exactly if** every held key that is added again is noticed. -/
theorem recordedOnce_iff (hr : machine.Run init h l) :
    RecordedOnce h ↔ ∀ e ∈ h, Noticed e := by
  constructor
  · intro hrec e he
    obtain ⟨k, m, rfl, hk, hs, -⟩ := hr.split he
    obtain ⟨l, op, out, l'⟩ := e
    have hadd := hrec.add _ he
    have hdid : l.Did op l' out := step_did (probed_of_run hk) hs
    cases hdid with
    | full hfull =>
        intro hroom
        dsimp only at hroom
        rw [hfull] at hroom
        cases hroom
    | conflict _ hover _ => exact fun _ _ => hover
    | took hfull hover htook =>
        -- a held key that is overlooked is not reported as a conflict
        intro _ hheld
        obtain ⟨hout, -⟩ := (hadd _ _ rfl hfull).1.mpr hheld
        exact absurd hout (by simp)
    | removed | promoted | got | cleared => exact trivial
  · intro hn
    have hall : l.NoDup ∧ ∀ e ∈ h, e.post.NoDup ∧ AddExact e := by
      refine hr.invariant_within
        (P := fun k u => u.NoDup ∧ ∀ e ∈ k, e.post.NoDup ∧ AddExact e) hn ?_ ?_
      · exact ⟨fun _ _ hi => (by cases hi), fun _ he => (by cases he)⟩
      · intro k u a out v hk _ ih hs hne
        have hstep := ih.1.step (probed_of_run hk) hs hne
        refine ⟨hstep.1, fun e he => ?_⟩
        rcases List.mem_append.mp he with he | he
        · exact ih.2 e he
        · rw [List.mem_singleton.mp he]
          exact hstep
    exact ⟨fun e he => (hall.2 e he).1, fun e he => (hall.2 e he).2⟩

/-- A held key is added again, once where it is noticed. -/
theorem recordedOnce_iff_conflict : ∃ h l, machine.Run init h l ∧ l.size = 2 ∧ RecordedOnce h := by
  obtain ⟨h, l, hr, hp⟩ := Machine.exists_run_of_exec (M := machine) (s := init)
    (p := fun h l => decide (l.size = 2 ∧ ∀ e ∈ h, Noticed e))
    (show (machine.exec init [.add ⟨1, 0⟩ .shared, .add ⟨1, 1⟩ .shared, .add ⟨1, 1⟩ .exclusive,
      .rm ⟨1, 1⟩, .add ⟨1, 1⟩ .exclusive]).map _ = some true by decide +kernel)
  obtain ⟨hsize, hn⟩ := of_decide_eq_true hp
  exact ⟨h, l, hr, hsize, (recordedOnce_iff hr).mpr hn⟩

/-- The lock for key `1` lies behind the one for key `0`, which is removed. -/
theorem not_always_recordedOnce :
    ¬ ∀ h l, machine.Run init h l → RecordedOnce h := by
  intro hall
  obtain ⟨h, l, hr, hp⟩ := Machine.exists_run_of_exec (M := machine) (s := init)
    (p := fun h _ => decide (∃ e ∈ h, ¬ e.post.NoDup))
    (show (machine.exec init [.add ⟨1, 0⟩ .shared, .add ⟨1, 1⟩ .shared, .rm ⟨1, 0⟩,
      .add ⟨1, 1⟩ .shared]).map _ = some true by decide +kernel)
  obtain ⟨e, he, hdup⟩ := of_decide_eq_true hp
  exact hdup ((hall h l hr).noDup e he)

end LockList

end PawnDB
