import PawnDB.Server.Managed

set_option autoImplicit false

/-! # The locks of the server

The lock words of the table and the lock lists of the workers in the slots agree, whatever slots
are reused and whatever workers are joined meanwhile (`Server.exactLocks_of_run`). A transaction
whose worker is gone has given back all its locks, so a row that is locked is locked by a worker
that is there, and after a shutdown no row is.
-/

namespace PawnDB

namespace System

variable {ι : Type} {l : List (Entry (System ι) (ι × Act) Event)}

theorem ownTurns_of_ne {e : Entry (System ι) (ι × Act) Event} (ha : e.act.2 ≠ .stop) :
    ownTurns e = [own e] := by
  rw [ownTurns]
  cases hact : e.act.2 with
  | stop => exact absurd hact ha
  | _ => rfl

/-- What the turns of a history meet its steps meet, if a `stop` does. -/
theorem forall_of_turns {P : Entry (System ι) (ι × Act) Event → Prop} {Q : OwnStep → Prop}
    (hQ : ∀ o ∈ l.flatMap ownTurns, Q o) (hturn : ∀ e ∈ l, Q (own e) → P e)
    (hstop : ∀ e ∈ l, e.act.2 = .stop → P e) : ∀ e ∈ l, P e := by
  intro e he
  by_cases ha : e.act.2 = .stop
  · exact hstop e he ha
  · refine hturn e he (hQ _ (List.mem_flatMap.mpr ⟨e, he, ?_⟩))
    rw [ownTurns_of_ne ha]
    exact List.mem_singleton_self _

end System

namespace Server

variable {db : StudentTable} {h : List (Entry Server ServerAct ServerEvent)} {s : Server}

/-- A row that the worker is granted is taken by its lock list. -/
def takesRow (o : OwnStep) : Bool := decide (System.Takes o)

/-- The number of entries with a lock of this type on a key in the lock lists of the workers in the
slots. Of a worker that is quitting only the locks count that it has not given back yet. -/
def held (s : Server) (type : LockType) (key : TblRow) : Nat :=
  ∑ idx, if (s.manager.workers.context idx).thread.isSome = true
    then (s.bodies idx).worker.heldAt (s.bodies idx).point type key else 0

/-- The words of the live rows show the locks of the workers in the slots: `-1` for one exclusive
lock and no shared one, and otherwise the number of the shared ones. -/
def LocksAgree (s : Server) : Prop := ∀ i, s.students.live i = true →
  LockWord.Shows (s.students.table i).lock (s.held .shared (s.students.keyOf i))
    (s.held .exclusive (s.students.keyOf i))

/-- The transactions that are in no slot have no locks. -/
theorem Linked.held_eq {n k : Nat} {txnIds : Fin n → TxnId} {t : System (Fin n)}
    {txn : Fin maxTransactions → Option (Fin n)} (hl : Linked txnIds k s t txn) (hk : n ≤ k)
    (hw : ∀ j, (t.threads j).worker.Wf (t.threads j).point) (type : LockType) (key : TblRow) :
    s.held type key = t.held type key := by
  let f := fun j => (t.threads j).worker.heldAt (t.threads j).point type key
  have hslot : ∀ idx, (if (s.manager.workers.context idx).thread.isSome = true
      then (s.bodies idx).worker.heldAt (s.bodies idx).point type key else 0)
        = (txn idx).elim 0 f := fun idx => by
    rw [← hl.present idx]
    cases hj : txn idx with
    | none => rfl
    | some j =>
        have hth := hl.thread idx j hj
        simp only [Option.isSome_some, if_true, Option.elim_some, f, hth]
        rfl
  have hgone : ∀ j, (∀ idx, txn idx ≠ some j) → f j = 0 := fun j hno => by
    have hend := hl.gone j (j.isLt.trans_le hk) hno
    simp only [f, Worker.heldAt, hend]
    exact (hw j).ended hend type key
  calc s.held type key = ∑ idx, (txn idx).elim 0 f := Finset.sum_congr rfl fun idx _ => hslot idx
    _ = t.held type key := Slots.sum_elim hl.single hgone

/-- The transactions of a run keep the invariant of `System`. -/
theorem exists_inv (hdb : db.AtRest) (hr : machine.Run (init db) h s) :
    ∃ (t : System (Fin (startedIds h).length)) (txn : _),
      Linked (startedIds h).get (startedIds h).length s t txn ∧
      t.Inv (EveryTurn takesRow h) := by
  obtain ⟨l, t, txn, hl, hlinked, hturns⟩ := linked_of_run hr
  have hinv := System.inv_of_run hdb hl
  refine ⟨t, txn, hlinked, hinv.thread, hinv.owned,
    hinv.coupled.congr (fun hc => ?_) fun _ _ => rfl⟩
  -- a turn that takes its row does so in the system
  refine System.forall_of_turns (Q := fun o => takesRow o = true) ?_ (fun e _ hq => ?_)
    fun e _ ha => ?_
  · rw [hturns]
    intro o ho
    obtain ⟨e, he, ho⟩ := List.mem_flatMap.mp ho
    exact hc e he o ho
  · exact of_decide_eq_true hq
  · rw [System.Takes, ha]
    trivial

/-- **Lock words and the locks of the workers in the slots agree** in every state of a run in which
the lock lists take every row that is granted. When the server has stopped, no live row is
locked. -/
theorem exactLocks_of_run (hdb : db.AtRest) (hr : machine.Run (init db) h s)
    (hc : EveryTurn takesRow h) : s.LocksAgree ∧ (s.manager.phase = .stopped →
      ∀ i, s.students.live i = true → (s.students.table i).lock = 0) := by
  obtain ⟨t, txn, hlinked, hinv⟩ := exists_inv hdb hr
  rw [eq_true hc] at hinv
  have hheld := hlinked.held_eq (Nat.le_refl _) hinv.thread
  refine ⟨fun i hi => ?_, fun hstop => ?_⟩
  · obtain ⟨a, b, hshows, hexact⟩ := hinv.coupled.words i (by rw [hlinked.students]; exact hi)
    obtain ⟨rfl, rfl⟩ := hexact trivial
    rwa [Nat.add_zero, Nat.add_zero, hlinked.students, ← hheld, ← hheld] at hshows
  · -- no slot is in use, so all transactions have ended
    have hs := wf_of_run hr
    have hnone : ∀ idx, txn idx = none := fun idx => by
      have hlive := hs.live idx
      rw [hs.cleared.stopped hstop idx, ← hlinked.present] at hlive
      exact Option.not_isSome_iff_eq_none.mp (by rw [← hlive]; decide)
    have hended : t.AllEnded := fun j => Point.isEnded_iff.mpr
      (hlinked.gone j j.isLt fun idx hj => by rw [hnone idx] at hj; cases hj)
    have hunlocked := hinv.unlocked hended
    rwa [System.Unlocked, hlinked.students] at hunlocked

/-- The job as it is sent to a transaction. -/
def forTxn (txnId : TxnId) (job : Job) : Job := { job with buf := job.buf.setTxn txnId }

/-- The second transaction begins when the first has deleted its row, and reads the other one. -/
def readAfter : List ServerAct :=
  deleteAndCommit ++ .datagram (.request .startTxn 0 0 []) :: List.replicate 4 .resume ++
    [.worker 1 .resume, .worker 1 .recv] ++ serve 1 (forTxn 1 (.request .sharedRead 1 0 [])) 1

theorem exactLocks_of_run_shared : ∃ h s, machine.Run (init twoRows) h s ∧
    startedIds h = [0, 1] ∧ (s.students.table 1).lock = 1 ∧
    LockWord.Shows 1 (s.held .shared (s.students.keyOf 1))
      (s.held .exclusive (s.students.keyOf 1)) := by
  obtain ⟨h, s, hr, hp⟩ := Machine.exists_run_of_exec
    (p := fun h s => decide (startedIds h = [0, 1] ∧ EveryTurn takesRow h ∧
      s.students.live 1 = true ∧ (s.students.table 1).lock = 1))
    (show (machine.exec (init twoRows) readAfter).map _ = some true by decide +kernel)
  obtain ⟨hids, hc, hlive, hlock⟩ := of_decide_eq_true hp
  obtain ⟨hagree, -⟩ := exactLocks_of_run (StudentTable.atRest_ofTuples _) hr hc
  have hshows := hagree 1 hlive
  rw [hlock] at hshows
  exact ⟨h, s, hr, hids, hlock, hshows⟩

end Server

end PawnDB
