import PawnDB.Worker.Solo

set_option autoImplicit false

/-! # An uncommitted transaction leaves no trace

Rows are inserted, written and removed by the drain loop of a commit and by nothing else, and a
thread gets there only by a `COMMIT_TXN` in phase `SHRINKING` (`WorkerThread.step_isCommit`).
Everything else a worker does to the table, its quit included, changes lock words and
availability counters (`Effect.sameData`).
-/

namespace PawnDB

open StudentTable

/-- The two tables have the same rows, apart from their lock words. -/
structure SameData (t t' : StudentTable) : Prop where
  live : ∀ i, t'.live i = t.live i
  tuple : ∀ i, (t'.table i).tuple = (t.table i).tuple
  size : t'.size = t.size
  nextKey : t'.nextKey = t.nextKey

namespace SameData

variable {t t' t'' : StudentTable}

theorem refl (t : StudentTable) : SameData t t := ⟨fun _ => rfl, fun _ => rfl, rfl, rfl⟩

theorem trans (h : SameData t t') (h' : SameData t' t'') : SameData t t'' where
  live := fun i => (h'.live i).trans (h.live i)
  tuple := fun i => (h'.tuple i).trans (h.tuple i)
  size := h'.size.trans h.size
  nextKey := h'.nextKey.trans h.nextKey

theorem of_relocked {i : Fin rows} {l : LkT} (h : Relocked t i l t') : SameData t t' :=
  ⟨h.live, h.tuple, h.size, h.nextKey⟩

end SameData

/-- **Outside the drain loop no step changes the data.** -/
theorem Effect.sameData {w w' : Worker} {p p' : Point} {db db' : StudentTable} {a : Act}
    {out : List Event} (h : Effect w p db a w' p' db' out) (hp : p.isCommit = false) :
    SameData db db' := by
  cases h.tableStep with
  | none => exact SameData.refl db
  | relocked hrel => exact SameData.of_relocked hrel
  | removed hcommit =>
      rw [hp] at hcommit
      cases hcommit

/-! ## How a thread gets to the drain loop -/

namespace Worker

variable {w : Worker} {parser : JobBuf} {conn : ClientConn} {db : StudentTable}

theorem processPromote_isCommit :
    (w.processPromote parser conn).1.isCommit = false := by
  cases h : w.processPromote parser conn with
  | mk p out =>
      cases processPromote_start h with
      | refused | entered => rfl

theorem processRead_isCommit {enter : Point} (he : enter.isCommit = false) :
    (w.processRead enter parser conn).1.isCommit = false := by
  cases h : w.processRead enter parser conn with
  | mk p out =>
      cases processRead_start h with
      | refused => rfl
      | entered => exact he

/-- Only a commit request in phase `SHRINKING` leads to the drain loop. -/
theorem received_isCommit {job : Job} {t : Turn} (h : w.received db job = some t)
    (hc : t.point.isCommit = true) :
    job.buf.getOp = .ok .commitTxn ∧ w.status = .shrinking := by
  rw [received_eq] at h
  unfold dispatch at h
  dsimp only at h
  split at h
  · cases h; cases hc
  · cases h; cases hc
  · -- COMMIT_TXN
    rename_i hop
    cases h
    refine ⟨hop, ?_⟩
    unfold processCommit at hc
    split at hc
    · cases hc
    · rename_i hst
      exact not_not.mp hst
  · cases h; cases hc
  · cases h; cases hc
  · cases h
    rw [show (Turn.mk _ _ _ _).point = _ from rfl, processSharedRead,
      processRead_isCommit rfl] at hc
    cases hc
  · cases h
    rw [show (Turn.mk _ _ _ _).point = _ from rfl, processExclusiveRead,
      processRead_isCommit rfl] at hc
    cases hc
  · split at h
    · cases h
    · cases h; cases hc
  · cases h
    rw [show (Turn.mk _ _ _ _).point = _ from rfl, processPromote_isCommit] at hc
    cases hc
  · cases h; cases hc
  · cases h; cases hc
  · cases h; cases hc

theorem ReadTurn.isCommit {running : Bool} {cnt : Nat} {t : Turn} {type : LockType}
    {wait : Except TupleTableError StudentTuple × StudentTable} {retry : Point}
    {refusal : StudentTuple → List Event}
    (h : w.ReadTurn db parser conn running cnt type wait retry refusal t)
    (hretry : retry.isCommit = false) : t.point.isCommit = false := by
  cases h with
  | waits => exact hretry
  | timeout | stopped | granted | refused => rfl

theorem promoteTurn_isCommit {running : Bool} {key : TblRow} {cnt : Nat} {t : Turn}
    (h : w.promoteTurn running db parser conn key cnt = some t) : t.point.isCommit = false := by
  cases promoteTurn_turn h with
  | timeout | stopped | waits | promoted => rfl

theorem releaseTurn_isCommit {idx : Nat} {t : Turn} (h : w.releaseTurn db idx = some t) :
    t.point.isCommit = false := by
  cases releaseTurn_turn h with
  | finished | released | foreign => rfl

end Worker

/-- **A thread enters the drain loop only by a commit request in phase `SHRINKING`.** -/
theorem WorkerThread.step_isCommit {th th' : WorkerThread} {db db' : StudentTable} {a : Act}
    {out : List Event} (h : th.step db a = some (th', db', out))
    (hc : th'.point.isCommit = true) (hp : th.point.isCommit = false) :
    ∃ job, a = .recv job ∧ job.buf.getOp = .ok .commitTxn ∧ th.worker.status = .shrinking := by
  unfold step at h
  cases a with
  | recv job =>
      dsimp only at h
      split at h
      · obtain ⟨t, ht, heq⟩ := Option.map_eq_some_iff.mp h
        obtain ⟨rfl, -, -⟩ := after_eq heq
        exact ⟨job, rfl, Worker.received_isCommit ht hc⟩
      · cases h
  | recvTimeout =>
      dsimp only at h
      split at h
      · cases h
        cases hc
      · cases h
  | stop =>
      cases h
      exact absurd hc (by simp [hp])
  | resume =>
      obtain ⟨t, ht, heq⟩ := Option.map_eq_some_iff.mp h
      obtain ⟨rfl, -, -⟩ := after_eq heq
      change t.point.isCommit = true at hc
      -- a thread that is resumed stays in its loop or goes back to the main one
      exfalso
      unfold resume at ht
      split at ht
      · cases ht
        cases hr : th.running <;> simp [hr, Point.isCommit] at hc
      · cases ht
      · rw [(Worker.sharedReadTurn_turn ht).isCommit rfl] at hc; cases hc
      · rw [(Worker.exclusiveReadTurn_turn ht).isCommit rfl] at hc; cases hc
      · rw [Worker.promoteTurn_isCommit ht] at hc; cases hc
      · rename_i hcommit
        rw [hcommit] at hp
        cases hp
      · rw [Worker.releaseTurn_isCommit ht] at hc; cases hc
      · cases ht

namespace Solo

/-- The step takes up a `COMMIT_TXN` in phase `SHRINKING`. -/
def CommitsShrinking (e : Entry Solo SoloAct Event) : Prop :=
  match e.act with
  | .own (.recv job) =>
      job.buf.getOp = .ok .commitTxn ∧ e.pre.thread.worker.status = .shrinking
  | _ => False

instance (e : Entry Solo SoloAct Event) : Decidable (CommitsShrinking e) :=
  match e with
  | ⟨pre, .own (.recv job), _, _⟩ => inferInstanceAs (Decidable
      (job.buf.getOp = .ok .commitTxn ∧ pre.thread.worker.status = .shrinking))
  | ⟨_, .own .recvTimeout, _, _⟩ => inferInstanceAs (Decidable False)
  | ⟨_, .own .resume, _, _⟩ => inferInstanceAs (Decidable False)
  | ⟨_, .own .stop, _, _⟩ => inferInstanceAs (Decidable False)
  | ⟨_, .env _, _, _⟩ => inferInstanceAs (Decidable False)

/-- Nobody but the thread inserts, writes or removes rows. -/
def OnlyLocks (e : Entry Solo SoloAct Event) : Prop :=
  match e.act with
  | .own _ => True
  | .env students => SameData e.pre.students students

/-- **An uncommitted transaction leaves no trace in the data**, however far it got and however
it ended. -/
theorem sameData_of_run {txnId : TxnId} {db : StudentTable} {s : Solo}
    {h : List (Entry Solo SoloAct Event)} (hr : machine.Run (init txnId db) h s)
    (henv : ∀ e ∈ h, OnlyLocks e) (hc : ∀ e ∈ h, ¬ CommitsShrinking e) :
    SameData db s.students := by
  -- the thread stays out of the drain loop, and then no step of its own changes the data
  suffices hinv : s.thread.point.isCommit = false ∧ SameData db s.students from hinv.2
  refine hr.invariant_within
    (C := fun e => OnlyLocks e ∧ ¬ CommitsShrinking e)
    (P := fun _ t => t.thread.point.isCommit = false ∧ SameData db t.students)
    (fun e he => ⟨henv e he, hc e he⟩) ⟨rfl, SameData.refl db⟩ ?_
  intro k u a out v hk _ ih hs hcond
  obtain ⟨hp, hsame⟩ := ih
  obtain ⟨honly, hnot⟩ := hcond
  cases a with
  | env students =>
      cases hs
      exact ⟨hp, hsame.trans honly⟩
  | own a =>
      have hw := wf_of_run hk (Worker.wf_init txnId)
      have hstep := step_own hs
      constructor
      · by_contra hcommit
        have hcommit : v.thread.point.isCommit = true := by simpa using hcommit
        obtain ⟨job, rfl, hop, hst⟩ := WorkerThread.step_isCommit hstep hcommit hp
        exact hnot ⟨hop, hst⟩
      · exact hsame.trans ((WorkerThread.step_effect hw hstep).sameData hp)

theorem onlyLocks_of_isOwn {e : Entry Solo SoloAct Event} (h : e.act.isOwn = true) :
    OnlyLocks e := by
  unfold OnlyLocks
  split
  · trivial
  · rename_i hact
    rw [hact] at h
    cases h

/-- The row is read, an update of it is queued, and the transaction aborts and gives it back. -/
theorem sameData_of_run_abort : ∃ h s, machine.Run (init 0 oneRow) h s ∧
    s.thread.point.isEnded = true ∧ (∃ e ∈ h, e.post.thread.worker.commitQueue.empty = false) ∧
    SameData oneRow s.students := by
  obtain ⟨h, s, hr, hp⟩ := Machine.exists_run_of_exec (M := machine) (s := init 0 oneRow)
    (p := fun h s => decide (s.thread.point.isEnded = true ∧
      (∃ e ∈ h, e.post.thread.worker.commitQueue.empty = false) ∧
      (∀ e ∈ h, e.act.isOwn = true) ∧ ∀ e ∈ h, ¬ CommitsShrinking e))
    (show (machine.exec _ (handle (.request .exclusiveRead 1 0 []) 1 ++
      handle (.request .update 1 0 (List.replicate 37 7)) 0 ++
      handle (.request .abortTxn 1 0 []) 2)).map _ = some true by decide +kernel)
  simp only [decide_eq_true_eq] at hp
  obtain ⟨hend, hqueued, hown, hc⟩ := hp
  exact ⟨h, s, hr, hend, hqueued,
    sameData_of_run hr (fun e he => onlyLocks_of_isOwn (hown e he)) hc⟩

end Solo

end PawnDB
