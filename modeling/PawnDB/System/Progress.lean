import PawnDB.System.Drain
import PawnDB.System.Growing
import PawnDB.Table.FiniteMap
import PawnDB.Worker.Quits

set_option autoImplicit false

/-! # Which threads are stuck, and how stopped threads end

The loops of the table and of the lock lists have no bound of their own: they end because the row
or the entry they look for is there. Outside the drain loop it always is, so a thread that has not
ended can make its next step. In the drain loop a thread is stuck exactly if the next entry is an
insert or an update, which it applies through a null buffer, or a delete whose lock is gone
(`ready_iff`).

A stopped thread makes at most `maxStepsToEnd` more turns of its own, and if it makes as many as
are left to it, it has ended (`quits_of_run`). Whether it makes them is the question of `ready_iff`:
a thread that is stuck in a commit does not end.
-/

namespace PawnDB

open StudentTable

namespace Worker

variable {w : Worker} {db : StudentTable} {parser : JobBuf} {conn : ClientConn}

/-- Every row that the list has locked is there. -/
def RowsLocked (w : Worker) (db : StudentTable) : Prop :=
  ∀ type key, w.lockList.getLock (studentKey key) = .ok type → ∃ p, db.IsRow key p

theorem processYield_isSome (hl : w.lockList.Wf) (ht : db.Wf) (hrow : w.RowsLocked db) :
    ∃ r, w.processYield db parser conn = some r := by
  unfold processYield
  split
  · exact ⟨_, rfl⟩
  split
  · exact ⟨_, rfl⟩
  split
  · exact ⟨_, rfl⟩
  next tableId _ _ tupleKey _ =>
  split
  · next hlock =>
      have hget := LockList.holds_iff.mp hlock
      obtain rfl : tableId = studentTableId := hl.tableId_of_getLock hget
      -- the entry is found in the list, and the row in the table
      obtain ⟨l', hrm, -⟩ := LockList.rmLock_of_getLock hget
      obtain ⟨p, hp⟩ := hrow _ _ hget
      obtain ⟨db', hrel⟩ := traitRelease_isSome (seekKey_of_isRow ht hp)
      rw [show w.lockList.rmLock ⟨studentTableId, tupleKey⟩ = some l' from hrm]
      dsimp only
      rw [if_pos rfl, hrel]
      exact ⟨_, rfl⟩
  · exact ⟨_, rfl⟩

theorem received_isSome (hl : w.lockList.Wf) (ht : db.Wf) (hrow : w.RowsLocked db) (job : Job) :
    ∃ t, w.received db job = some t := by
  rw [received_eq]
  unfold dispatch
  dsimp only
  split
  case h_8 =>
    have hyield : ∃ t, { w with timeoutCnt := 0 }.processYield db job.buf job.conn = some t :=
      processYield_isSome hl ht hrow
    obtain ⟨t, hr⟩ := hyield
    rw [hr]
    exact ⟨_, rfl⟩
  all_goals exact ⟨_, rfl⟩

theorem sharedReadTurn_isSome (hl : w.lockList.Wf) (running : Bool) (cnt : Nat) :
    ∃ t, w.sharedReadTurn running db parser conn cnt = some t := by
  unfold sharedReadTurn
  split
  · exact ⟨_, rfl⟩
  split
  · exact ⟨_, rfl⟩
  split
  · exact ⟨_, rfl⟩
  next tuple _ _ =>
  rcases LockList.addLock_cases hl tuple.key .shared with ⟨-, e, hne, hadd⟩ | ⟨-, l', hadd, -⟩
  · rw [show w.lockList.addLock ⟨studentTableId, tuple.key⟩ .shared = some (e, w.lockList)
      from hadd]
    cases e <;> exact ⟨_, rfl⟩
  · rw [show w.lockList.addLock ⟨studentTableId, tuple.key⟩ .shared = some (.none, l') from hadd]
    exact ⟨_, rfl⟩

theorem exclusiveReadTurn_isSome (hl : w.lockList.Wf) (running : Bool) (cnt : Nat) :
    ∃ t, w.exclusiveReadTurn running db parser conn cnt = some t := by
  unfold exclusiveReadTurn
  split
  · exact ⟨_, rfl⟩
  split
  · exact ⟨_, rfl⟩
  split
  · exact ⟨_, rfl⟩
  next tuple _ _ =>
  rcases LockList.addLock_cases hl tuple.key .exclusive with ⟨-, e, hne, hadd⟩ | ⟨-, l', hadd, -⟩
  · rw [show w.lockList.addLock ⟨studentTableId, tuple.key⟩ .exclusive = some (e, w.lockList)
      from hadd]
    cases e <;> exact ⟨_, rfl⟩
  · rw [show w.lockList.addLock ⟨studentTableId, tuple.key⟩ .exclusive = some (.none, l')
      from hadd]
    exact ⟨_, rfl⟩

theorem promoteTurn_isSome {key : TblRow} (ht : db.Wf)
    (hget : w.lockList.getLock (studentKey key) = .ok .shared) (hrow : w.RowsLocked db)
    (running : Bool) (cnt : Nat) :
    ∃ t, w.promoteTurn running db parser conn key cnt = some t := by
  obtain ⟨p, hp⟩ := hrow _ _ hget
  obtain ⟨r, db', hprom⟩ := traitPromote_isSome (seekKey_of_isRow ht hp)
  obtain ⟨l', hl', -⟩ := LockList.promoteLock_of_getLock hget
  unfold promoteTurn
  split
  · exact ⟨_, rfl⟩
  split
  · exact ⟨_, rfl⟩
  rw [hprom]
  cases r with
  | error e => exact ⟨_, rfl⟩
  | ok u =>
      dsimp only
      rw [show w.lockList.promoteLock ⟨studentTableId, key⟩ = some l' from hl']
      exact ⟨_, rfl⟩

theorem releaseTurn_isSome {idx : Nat} (hl : w.lockList.Wf) (ht : db.Wf)
    (hrow : ∀ type key, 0 < w.lockList.heldFrom idx type key → ∃ p, db.IsRow key p) :
    ∃ t, w.releaseTurn db idx = some t := by
  unfold releaseTurn
  dsimp only
  split
  · exact ⟨_, rfl⟩
  next i hi =>
  have hact := List.find?_some hi
  simp only [Bool.and_eq_true] at hact
  have hid := hl.tableId i hact.2
  rw [if_pos hid]
  -- the lock that the iterator is at is one that has not been given back
  have hkey : (w.lockList.locks i).key = studentKey (w.lockList.locks i).key.tupleKey := by
    rw [studentKey, ← hid]
  obtain ⟨p, hp⟩ := hrow (w.lockList.locks i).type (w.lockList.locks i).key.tupleKey (by
    rw [LockList.heldFrom_of_advance hi hkey, if_pos ⟨rfl, rfl⟩]
    omega)
  obtain ⟨db', hrel⟩ := traitRelease_isSome (seekKey_of_isRow ht hp)
  rw [hrel]
  exact ⟨_, rfl⟩

end Worker

def Act.isStop : Act → Bool
  | .stop => true
  | _ => false

namespace System

variable {ι : Type} [DecidableEq ι]

/-- Thread `i` has ended or can make its next step; where it waits for a job, it can take up any
job and time out. -/
def Ready (s : System ι) (i : ι) : Prop :=
  match (s.threads i).point with
  | .recv => (∀ job, ∃ s' out, s.step (i, .recv job) = some (s', out)) ∧
      ∃ s' out, s.step (i, .recvTimeout) = some (s', out)
  | .ended => True
  | _ => ∃ s' out, s.step (i, .resume) = some (s', out)

variable {db : StudentTable} {txnIds : ι → TxnId}
  {h : List (Entry (System ι) (ι × Act) Event)} {s : System ι}

omit [DecidableEq ι] in
theorem Inv.rowsLocked [Fintype ι] {exact : Prop} (hinv : s.Inv exact) {i : ι}
    (hp : (s.threads i).point.Active) : (s.threads i).worker.RowsLocked s.students :=
  fun _ _ hget => hinv.isRow_of_getLock hp.iter hget

/-- **When a thread that has a next turn can make it.** -/
theorem resume_iff [Fintype ι] (hdb : db.AtRest) (hr : (machine ι).Run (init db txnIds) h s)
    {i : ι} (hrecv : (s.threads i).point ≠ .recv) (hend : (s.threads i).point ≠ .ended) :
    (∃ t, (s.threads i).resume s.students = some t) ↔
      ((s.threads i).point.isCommit = true → (s.threads i).worker.drains = true) := by
  have hinv := inv_of_run hdb hr
  have ht := hinv.coupled.table
  have hl := (hinv.thread i).list hend
  have hpl := (hinv.thread i).placed
  cases hc : (s.threads i).point.isCommit with
  | true =>
      rw [commit_resume_iff hdb hr hc]
      exact ⟨fun h _ => h, fun h => h rfl⟩
  | false =>
      refine iff_of_true ?_ fun h => absurd h (by decide)
      unfold WorkerThread.resume
      cases hp : (s.threads i).point with
      | loop => exact ⟨_, rfl⟩
      | recv => exact absurd hp hrecv
      | ended => exact absurd hp hend
      | sharedRead => exact Worker.sharedReadTurn_isSome hl _ _
      | exclusiveRead => exact Worker.exclusiveReadTurn_isSome hl _ _
      | promote =>
          rw [hp] at hpl
          exact Worker.promoteTurn_isSome ht hpl.2 (hinv.rowsLocked (by rw [hp]; trivial)) _ _
      | commit => rw [hp] at hc; cases hc
      | release idx =>
          refine Worker.releaseTurn_isSome hl ht fun type key hpos => ?_
          have hle := s.heldAt_le_held i type key
          rw [Worker.heldAt, hp, Point.iter] at hle
          exact hinv.coupled.isRow_of_held (hpos.trans_le hle)

/-- A thread that waits for a job can take up any. -/
theorem received_isSome [Fintype ι] (hdb : db.AtRest)
    (hr : (machine ι).Run (init db txnIds) h s) {i : ι} (hp : (s.threads i).point = .recv)
    (job : Job) : ∃ t, (s.threads i).worker.received s.students job = some t := by
  have hinv := inv_of_run hdb hr
  refine Worker.received_isSome ((hinv.thread i).list ?_) hinv.coupled.table
    (hinv.rowsLocked ?_) job
  · rw [hp]
    exact Point.noConfusion
  · rw [hp]
    trivial

/-- **Which threads are stuck**: those that are in a commit whose next entry is no delete, or one
whose lock is gone. -/
theorem ready_iff [Fintype ι] (hdb : db.AtRest) (hr : (machine ι).Run (init db txnIds) h s)
    (i : ι) : s.Ready i ↔
      ((s.threads i).point.isCommit = true → (s.threads i).worker.drains = true) := by
  by_cases hrecv : (s.threads i).point = .recv
  · refine iff_of_true ?_ fun hc => ?_
    · rw [Ready, hrecv]
      refine ⟨fun job => ?_, ?_⟩
      · obtain ⟨t, ht⟩ := received_isSome hdb hr hrecv job
        simp only [step, WorkerThread.step, hrecv, ht]
        exact ⟨_, _, rfl⟩
      · simp only [step, WorkerThread.step, hrecv]
        exact ⟨_, _, rfl⟩
    · rw [hrecv] at hc
      cases hc
  by_cases hend : (s.threads i).point = .ended
  · refine iff_of_true ?_ fun hc => ?_
    · rw [Ready, hend]
      trivial
    · rw [hend] at hc
      cases hc
  rw [← resume_iff hdb hr hrecv hend]
  have hready : s.Ready i ↔ ∃ s' out, s.step (i, .resume) = some (s', out) := by
    unfold Ready
    split
    · next hp => exact absurd hp hrecv
    · next hp => exact absurd hp hend
    · exact Iff.rfl
  rw [hready]
  constructor
  · rintro ⟨s', out, hs⟩
    obtain ⟨th, hth, -⟩ := step_eq hs
    obtain ⟨t, ht, -⟩ := Option.map_eq_some_iff.mp hth
    exact ⟨t, ht⟩
  · rintro ⟨t, ht⟩
    obtain ⟨s', hs', -⟩ := step_resume ht
    exact ⟨s', _, hs'⟩

/-- The first of two deletes of one row can be applied, and after it the thread is stuck. -/
theorem ready_iff_delete : ∃ s s' : System (Fin 2),
    (∃ out, s.step (1, .resume) = some (s', out)) ∧ s.Ready 1 ∧ ¬ s'.Ready 1 := by
  obtain ⟨h, s, s', out, hr, hs, hp⟩ := Machine.exists_step_of_exec (M := machine (Fin 2))
    (s := init (ofTuples [.empty]) fun _ => 0) (a := (1, .resume))
    (p := fun _ s s' _ => decide ((s.threads 1).worker.drains = true ∧
      (s'.threads 1).point.isCommit = true ∧ (s'.threads 1).worker.drains = false))
    (show (((machine (Fin 2)).exec _ (deleteAgain 2 0)).bind _) = some true by decide +kernel)
  obtain ⟨hdrains, hcommit, hstuck⟩ := of_decide_eq_true hp
  have hrest := atRest_ofTuples [.empty]
  refine ⟨s, s', ⟨out, hs⟩, (ready_iff hrest hr 1).mpr fun _ => hdrains, fun hready => ?_⟩
  have hdrains' := (ready_iff hrest (hr.snoc hs) 1).mp hready hcommit
  rw [hstuck] at hdrains'
  cases hdrains'

/-! ## The end of a stopped thread -/

/-- The steps that thread `i` makes in a history. -/
def ownSteps (i : ι) (h : List (Entry (System ι) (ι × Act) Event)) : Nat :=
  h.countP fun e => decide (e.act.1 = i) && !e.act.2.isStop

/-- **A stopped thread makes few turns.** From a state in which the flag of thread `i` is cleared,
the thread makes at most `stepsToEnd` steps of its own, whatever the other threads do, and none
is left to it exactly if it has ended. That it makes them is not said: a turn of a commit may never
end. -/
theorem quits_of_run {i : ι} {t : System ι} {k : List (Entry (System ι) (ι × Act) Event)}
    (hr : (machine ι).Run (init db txnIds) h s) (hk : (machine ι).Run s k t)
    (hstop : (s.threads i).running = false) :
    ownSteps i k + (t.threads i).point.stepsToEnd (t.threads i).worker
      ≤ (s.threads i).point.stepsToEnd (s.threads i).worker ∧
    (s.threads i).point.stepsToEnd (s.threads i).worker ≤ maxStepsToEnd ∧
    ((t.threads i).point.stepsToEnd (t.threads i).worker = 0 ↔ (t.threads i).point = .ended) := by
  have hw := threads_of_run hr i
  refine ⟨?_, Point.stepsToEnd_le hw.queue _, Point.stepsToEnd_eq_zero⟩
  refine (Machine.Run.countP_add_rank_le
    (fun u => (u.threads i).worker.Wf (u.threads i).point ∧ (u.threads i).running = false)
    (fun u => (u.threads i).point.stepsToEnd (u.threads i).worker) (C := fun _ => True) hk
    (fun _ _ => trivial) ⟨hw, hstop⟩ fun u a out v hu hs _ => ?_).2
  obtain ⟨hwu, hrun⟩ := hu
  obtain ⟨th, hth, hv⟩ := step_eq hs
  by_cases hi : i = a.1
  · subst hi
    obtain ⟨hrun', hlt, hsame⟩ := WorkerThread.step_stepsToEnd hwu hrun hth
    rw [hv, Slots.set_self]
    refine ⟨⟨(WorkerThread.step_effect hwu hth).wf hwu, hrun'⟩, ?_⟩
    cases ha : a.2 with
    | stop => rw [hsame ha]; simp [Act.isStop]
    | recv | recvTimeout | resume =>
        have := hlt (by rw [ha]; exact Act.noConfusion)
        simp only [Act.isStop]
        simp
        omega
  · rw [hv, Slots.set_of_ne _ _ hi]
    refine ⟨⟨hwu, hrun⟩, ?_⟩
    rw [decide_eq_false (Ne.symm hi), Bool.false_and]
    simp

/-- Thread `1` asks in vain for the row of thread `0` and is stopped meanwhile. -/
def stopWaiting : List (Fin 2 × Act) :=
  handle 0 (.request .exclusiveRead 1 0 []) 1 ++
    handle 1 (.request .exclusiveRead 1 0 []) 1 ++ [(1, .stop)]

/-- Thread `0` does its commit and thread `1` finds out that it is stopped. -/
def commitThenLeave : List (Fin 2 × Act) :=
  handle 0 (.request .commitTxn 1 0 []) 2 ++ List.replicate 3 (1, .resume)

theorem quits_of_run_stop :
    ∃ s k t, (∃ h, (machine (Fin 2)).Run (init (ofTuples [.empty]) fun _ => 0) h s) ∧
    (machine (Fin 2)).Run s k t ∧ (t.threads 1).point.isEnded = true ∧
    ownSteps 1 k + (t.threads 1).point.stepsToEnd (t.threads 1).worker
      ≤ (s.threads 1).point.stepsToEnd (s.threads 1).worker := by
  obtain ⟨h, s, k, t, hr, hk, -, hp⟩ := Machine.exists_runs_of_exec
    (p := fun s _ t => !(s.threads 1).running && (t.threads 1).point.isEnded)
    (show (((machine (Fin 2)).exec (init (ofTuples [.empty]) fun _ => 0) stopWaiting).bind fun r =>
      ((machine (Fin 2)).exec r.2 commitThenLeave).map _) = some true by decide +kernel)
  rw [Bool.and_eq_true, Bool.not_eq_true'] at hp
  exact ⟨s, k, t, ⟨h, hr⟩, hk, hp.2, (quits_of_run hr hk hp.1).1⟩

end System

end PawnDB
