import PawnDB.System.Coupling
import PawnDB.System.Defs
import PawnDB.Table.Stored

set_option autoImplicit false

/-! # Lock words agree with lock lists

`System.Inv` is the invariant of the system: every thread is well-formed, every queued update
or delete is for a row its worker has no shared lock on, and the lock words are coupled with
the lock lists of all workers together. `inv_of_run` carries it through every run that begins
with a table at rest.

The coupling is exact, and then the words and the lists agree literally, as long as no lock
list refuses a row that the table has already granted (`locksAgree_of_run`). A worker that
reads the same row twice is enough to break it (`not_always_locksAgree`).
-/

namespace PawnDB

open StudentTable

namespace System

variable {ι : Type} [Fintype ι] [DecidableEq ι]

/-- The number of locks of this type that the lock lists record for a student. Of a worker that
is quitting only the locks count that it has not given back yet. -/
def held (s : System ι) (type : LockType) (key : TblRow) : Nat :=
  ∑ i, (s.threads i).worker.heldAt (s.threads i).point type key

/-- The invariant of the system. -/
structure Inv (exact : Prop) (s : System ι) : Prop where
  thread : ∀ i, (s.threads i).worker.Wf (s.threads i).point
  owned : ∀ i, (s.threads i).worker.Owned
  coupled : Coupled exact s.students s.held

omit [Fintype ι] in
theorem step_eq {s s' : System ι} {a : ι × Act} {out : List Event}
    (h : s.step a = some (s', out)) :
    ∃ th, (s.threads a.1).step s.students a.2 = some (th, s'.students, out) ∧
      s'.threads = Slots.set s.threads a.1 th := by
  unfold step at h
  split at h
  · cases h
  · rename_i th db out' hth
    cases h
    exact ⟨th, hth, rfl⟩

/-- The locks of one thread and those of the others. -/
theorem held_split (s : System ι) (i : ι) : ∃ rest : LockType → TblRow → Nat,
    ∀ th' : WorkerThread, ∀ type key,
      (System.mk s.students (Slots.set s.threads i th')).held type key
        = th'.worker.heldAt th'.point type key + rest type key := by
  refine ⟨fun type key => ∑ j ∈ Finset.univ.erase i,
    (s.threads j).worker.heldAt (s.threads j).point type key, fun th' type key => ?_⟩
  rw [held, ← Finset.add_sum_erase _ _ (Finset.mem_univ i)]
  congr 1
  · simp only [Slots.set_self]
  · refine Finset.sum_congr rfl fun j hj => ?_
    simp only [Slots.set_of_ne _ _ (Finset.ne_of_mem_erase hj)]

/-- The coupling as one thread sees it: its own locks, whatever it does next, and the others'. -/
theorem Inv.coupled_thread {exact : Prop} {s : System ι} (hinv : s.Inv exact) (i : ι) :
    ∃ rest : LockType → TblRow → Nat,
      (∀ th' : WorkerThread, ∀ type key,
        (System.mk s.students (Slots.set s.threads i th')).held type key
          = th'.worker.heldAt th'.point type key + rest type key) ∧
      Coupled exact s.students fun type key =>
        (s.threads i).worker.heldAt (s.threads i).point type key + rest type key := by
  obtain ⟨rest, hrest⟩ := s.held_split i
  have hself : s = ⟨s.students, Slots.set s.threads i (s.threads i)⟩ := by
    rw [Slots.set_eq_update, Function.update_eq_self]
  refine ⟨rest, hrest, hinv.coupled.congr id fun type key => ?_⟩
  rw [← hrest, ← hself]

/-- The row that the table grants the thread in this step, if any, is taken by its lock list. -/
def Takes (e : Entry (System ι) (ι × Act) Event) : Prop :=
  match e.act.2 with
  | .resume => (e.pre.threads e.act.1).takes e.pre.students = true
  | _ => True

instance (e : Entry (System ι) (ι × Act) Event) : Decidable (Takes e) := by
  unfold Takes
  split <;> infer_instance

omit [DecidableEq ι] in
theorem inv_init {db : StudentTable} (hdb : db.AtRest) (txnIds : ι → TxnId) :
    (init db txnIds).Inv True where
  thread := fun i => Worker.wf_init _
  owned := fun i e he => by cases he
  coupled := Coupled.init hdb fun type key =>
    Finset.sum_eq_zero fun _ _ => LockList.heldFrom_init _ type key

/-- **The step lemma of the system.** -/
theorem Inv.step {exact exact' : Prop} {s s' : System ι} {a : ι × Act} {out : List Event}
    (hinv : s.Inv exact) (h : s.step a = some (s', out))
    (hex : exact' → exact ∧ Takes ⟨s, a, out, s'⟩) : s'.Inv exact' := by
  obtain ⟨th, hth, hs'⟩ := step_eq h
  have heff := WorkerThread.step_effect (hinv.thread a.1) hth
  obtain ⟨rest, hrest, hc⟩ := hinv.coupled_thread a.1
  refine ⟨fun i => ?_, fun i => ?_, ?_⟩
  · rw [hs']
    by_cases hi : i = a.1
    · rw [hi, Slots.set_self]
      exact heff.wf (hinv.thread a.1)
    · rw [Slots.set_of_ne _ _ hi]
      exact hinv.thread i
  · rw [hs']
    by_cases hi : i = a.1
    · rw [hi, Slots.set_self]
      exact heff.owned (hinv.thread a.1) (hinv.owned a.1) hc
    · rw [Slots.set_of_ne _ _ hi]
      exact hinv.owned i
  · refine (heff.coupled (hinv.thread a.1) (hinv.owned a.1) hc fun hx => ?_).congr id
      fun type key => ?_
    · refine ⟨(hex hx).1, fun type tuple hm => ?_⟩
      obtain ⟨ha, hg⟩ := WorkerThread.grants_of_granted (hinv.thread a.1) hth hm
      have ht := (hex hx).2
      simp only [Takes, ha, WorkerThread.takes, hg] at ht
      simpa using ht
    rw [← hrest th type key, ← hs']
    rfl

/-- **The invariant holds in every state of a run**; it is exact if no list has refused a row. -/
theorem inv_of_run {db : StudentTable} (hdb : db.AtRest) {txnIds : ι → TxnId}
    {h : List (Entry (System ι) (ι × Act) Event)} {s : System ι}
    (hr : (machine ι).Run (init db txnIds) h s) : s.Inv (∀ e ∈ h, Takes e) := by
  refine hr.invariant (P := fun k t => t.Inv (∀ e ∈ k, Takes e)) ?_ ?_
  · have := inv_init hdb txnIds
    exact ⟨this.thread, this.owned, this.coupled.congr (fun _ => trivial) fun _ _ => rfl⟩
  · intro k u a out v _ ih hs
    refine ih.step hs fun ht => ⟨fun e he => ht e (List.mem_append_left _ he), ?_⟩
    exact ht _ (List.mem_append_right _ (List.mem_singleton.mpr rfl))

omit [DecidableEq ι] in
theorem heldAt_le_held (s : System ι) (i : ι) (type : LockType) (key : TblRow) :
    (s.threads i).worker.heldAt (s.threads i).point type key ≤ s.held type key :=
  Finset.single_le_sum
    (f := fun j => (s.threads j).worker.heldAt (s.threads j).point type key)
    (fun _ _ => Nat.zero_le _) (Finset.mem_univ i)

omit [DecidableEq ι] in
/-- A student that a worker at work has locked is a live row. -/
theorem Inv.isRow_of_getLock {exact : Prop} {s : System ι} (hinv : s.Inv exact) {i : ι}
    (hp : (s.threads i).point.iter = 0) {key : TblRow} {type : LockType}
    (h : (s.threads i).worker.lockList.getLock (studentKey key) = .ok type) :
    ∃ p, s.students.IsRow key p := by
  have hpos := LockList.heldFrom_pos_of_getLock h
  have hle := s.heldAt_le_held i type key
  rw [Worker.heldAt, hp] at hle
  exact hinv.coupled.isRow_of_held (hpos.trans_le hle)

omit [Fintype ι] in
theorem threads_of_run {db : StudentTable} {txnIds : ι → TxnId}
    {h : List (Entry (System ι) (ι × Act) Event)} {s : System ι}
    (hr : (machine ι).Run (init db txnIds) h s) (i : ι) :
    (s.threads i).worker.Wf (s.threads i).point := by
  refine hr.invariant (P := fun _ t => (t.threads i).worker.Wf (t.threads i).point)
    (Worker.wf_init _) fun k u a out v hk ih hs => ?_
  obtain ⟨th, hth, hv⟩ := step_eq hs
  rw [hv]
  by_cases hi : i = a.1
  · subst hi
    rw [Slots.set_self]
    exact (WorkerThread.step_effect ih hth).wf ih
  · rw [Slots.set_of_ne _ _ hi]
    exact ih

/-! ## Agreement -/

/-- The words of the live rows and the lock lists show the same locks: an exclusively locked row
has one exclusive entry in one list and no other entry anywhere, and a row with `n` shared locks
has `n` shared entries and no exclusive one. -/
def LocksAgree (s : System ι) : Prop := ∀ i, s.students.live i = true →
  ((s.students.table i).lock = -1 →
    s.held .exclusive (s.students.keyOf i) = 1 ∧ s.held .shared (s.students.keyOf i) = 0) ∧
  (0 ≤ (s.students.table i).lock →
    s.held .shared (s.students.keyOf i) = (s.students.table i).lock.toInt ∧
      s.held .exclusive (s.students.keyOf i) = 0)

/-- Every worker has quit. -/
def AllEnded (s : System ι) : Prop := ∀ i, (s.threads i).point.isEnded = true

/-- No request and no quit is under way. -/
def Idle (s : System ι) : Prop := ∀ i, (s.threads i).point.isIdle = true

instance (s : System ι) : Decidable s.AllEnded := Fintype.decidableForallFintype
instance (s : System ι) : Decidable s.Idle := Fintype.decidableForallFintype

/-- No live row is locked. -/
def Unlocked (s : System ι) : Prop :=
  ∀ i, s.students.live i = true → (s.students.table i).lock = 0

omit [DecidableEq ι] in
theorem Inv.locksAgree {s : System ι} (h : s.Inv True) : s.LocksAgree := by
  intro i hi
  obtain ⟨a, b, hs, he⟩ := h.coupled.words i hi
  obtain ⟨rfl, rfl⟩ := he trivial
  rw [Nat.add_zero, Nat.add_zero] at hs
  refine ⟨hs.of_eq_neg_one, fun hl => ?_⟩
  obtain ⟨hx, hn⟩ := hs.of_nonneg hl
  exact ⟨hn.symm, hx⟩

omit [DecidableEq ι] in
theorem Inv.unlocked {s : System ι} (h : s.Inv True) (hend : s.AllEnded) : s.Unlocked := by
  have hnone : ∀ type key, s.held type key = 0 := fun type key =>
    Finset.sum_eq_zero fun i _ => by
      have hi := Point.isEnded_iff.mp (hend i)
      rw [Worker.heldAt, hi]
      exact (h.thread i).ended hi type key
  intro i hi
  obtain ⟨a, b, hs, he⟩ := h.coupled.words i hi
  obtain ⟨rfl, rfl⟩ := he trivial
  rw [hnone, hnone] at hs
  exact hs.eq_zero

/-- A worker reads `reads` times. -/
def readAgain (reads : Nat) : List (Fin 2 × Act) :=
  (List.replicate reads (handle 1 (.request .sharedRead 1 0 []) 1)).flatten

/-- **Lock words and lock lists agree** in every state of a run in which the lock lists take every
row that is granted; so when all workers have quit no live row is locked. -/
theorem locksAgree_of_run {db : StudentTable} (hdb : db.AtRest) {txnIds : ι → TxnId}
    {h : List (Entry (System ι) (ι × Act) Event)} {s : System ι}
    (hr : (machine ι).Run (init db txnIds) h s) (ht : ∀ e ∈ h, Takes e) :
    s.LocksAgree ∧ (s.AllEnded → s.Unlocked) := by
  have hinv := inv_of_run hdb hr
  rw [eq_true ht] at hinv
  exact ⟨hinv.locksAgree, hinv.unlocked⟩

/-- Both workers commit, the second after a read of the only row. -/
theorem locksAgree_of_run_read_once : ∃ h s,
    (machine (Fin 2)).Run (init (ofTuples [.empty]) fun _ => 0) h s ∧
      s.AllEnded ∧ s.LocksAgree ∧ s.Unlocked := by
  obtain ⟨h, s, hr, hp⟩ := Machine.exists_run_of_exec (M := machine (Fin 2))
    (s := init (ofTuples [.empty]) fun _ => 0)
    (p := fun h s => decide (s.AllEnded ∧ ∀ e ∈ h, Takes e))
    (show ((machine (Fin 2)).exec _ (handle 0 (.request .commitTxn 1 0 []) 1 ++ readAgain 1 ++
      handle 1 (.request .commitTxn 1 0 []) 2)).map _ = some true by decide +kernel)
  simp only [decide_eq_true_eq] at hp
  obtain ⟨hend, ht⟩ := hp
  have hagree := locksAgree_of_run (atRest_ofTuples _) hr ht
  exact ⟨h, s, hr, hend, hagree.1, hagree.2 hend⟩

/-- The second read of a row is granted, but the lock list already has an entry for it: the
word shows two shared locks and the lists only one. -/
theorem not_always_locksAgree : ¬ ∀ (db : StudentTable) (txnIds : Fin 2 → TxnId)
    (h : List (Entry (System (Fin 2)) (Fin 2 × Act) Event)) (s : System (Fin 2)), db.AtRest →
    (machine (Fin 2)).Run (init db txnIds) h s → s.Idle → s.LocksAgree := by
  intro hall
  obtain ⟨h, s, hr, hp⟩ := Machine.exists_run_of_exec (M := machine (Fin 2))
    (s := init (ofTuples [.empty]) fun _ => 0) (p := fun _ s => decide (s.Idle ∧
      s.students.live 0 = true ∧ (s.students.table 0).lock = 2 ∧
      s.held .shared (s.students.keyOf 0) = 1))
    (show ((machine (Fin 2)).exec _ (readAgain 2)).map _ = some true by decide +kernel)
  simp only [decide_eq_true_eq] at hp
  obtain ⟨hidle, hlive, hlock, hheld⟩ := hp
  have := ((hall _ _ h s (atRest_ofTuples _) hr hidle) 0 hlive).2 (by rw [hlock]; decide)
  rw [hheld, hlock] at this
  exact absurd this.1 (by decide)

end System

end PawnDB
