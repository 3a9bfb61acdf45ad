import PawnDB.Server.ThreadManager

set_option autoImplicit false

/-! # What a step of the manager or a worker does

`Did` lists the steps by their effect, with what is known about each, and `step_did` is the one
place where the definitions of the steps are unfolded.
-/

namespace PawnDB

open Probing

/-- The datagram is a `START_TXN`. -/
def Job.IsStart (job : Job) : Prop := job.buf.getOp = .ok .startTxn

/-- The datagram is another request, with this id in its header. -/
def Job.IsRequest (job : Job) (txnId : TxnId) : Prop :=
  job.buf.getTxn = .ok txnId ∧ ∃ op, job.buf.getOp = .ok op ∧ op ≠ .startTxn

/-- No code stands for the sentinel. -/
theorem JobBuf.getOp_ne_maxOpValue (jb : JobBuf) : jb.getOp ≠ .ok .maxOpValue := by
  unfold getOp
  intro hop
  split at hop
  · cases hop
  · next raw _ =>
      split at hop
      · cases hop
      · next op hop' =>
          cases hop
          exact absurd (List.mem_of_getElem? hop') (by decide)

namespace WorkerTable

variable {t t' : WorkerTable} {key : TxnId} {idx : Fin maxTransactions}

/-- A search finds a worker with the id. -/
theorem traitSearch_ok (h : t.traitSearch key = .ok idx) :
    (t.table idx).live = true ∧ (t.context idx).txnId = key := by
  unfold traitSearch at h
  split at h
  · cases h
  · next i hi =>
      cases h
      obtain ⟨hhit, hstop⟩ := scan_holds hi
      rw [keyAt, Bool.and_eq_true, beq_iff_eq] at hhit
      refine ⟨?_, hhit.1⟩
      rw [WorkerEntry.live, hhit.2, Bool.and_true]
      simpa using hstop

theorem removeStop_some (h : t.removeStop key = some (idx, t')) :
    (t.context idx).txnId = key ∧ (t.table idx).isDeleted = false ∧
      seek (t.keyAt key) maxTransactions (home key) = some idx ∧
      t' = t.setContext idx (t.context idx).traitStop := by
  unfold removeStop at h
  split at h
  · cases h
  · next i hi =>
      cases h
      have hhit := seek_holds hi
      rw [keyAt, Bool.and_eq_true, beq_iff_eq] at hhit
      exact ⟨hhit.1, by simpa using hhit.2, hi, rfl⟩

theorem joinEntry_some {replies : List Reply} (h : t.joinEntry idx = some (t', replies)) :
    ∃ c, (t.context idx).traitJoin = some (c, replies) ∧
      t' = ⟨Slots.set t.table idx { t.table idx with context := c, isDeleted := true },
        t.size - 1⟩ := by
  unfold joinEntry at h
  split at h
  · cases h
  · next c _ hc =>
      cases h
      exact ⟨c, hc, rfl⟩

/-- An insertion takes the first slot without a worker. -/
theorem traitInsert_ok {c : WorkerContext} (h : t.traitInsert c = some (.ok idx, t')) :
    (t.table idx).live = false ∧
      seek (fun i => !(t.table i).isUsed || (t.table i).isDeleted) maxTransactions
        (home c.txnId) = some idx ∧
      ∃ started, ((t.context idx).assign c).traitStart = some started ∧
        t' = ⟨Slots.set t.table idx ⟨started, true, false⟩, t.size + 1⟩ := by
  unfold traitInsert at h
  split at h
  · cases h
  · split at h
    · cases h
    · next i hi =>
        split at h
        · cases h
        · next started hs =>
            cases h
            refine ⟨?_, hi, started, hs, rfl⟩
            have hfree := seek_holds hi
            rw [WorkerEntry.live]
            revert hfree
            cases (t.table idx).isUsed <;> cases (t.table idx).isDeleted <;> decide

/-- An insertion that is refused leaves the table as it is. -/
theorem traitInsert_error {c : WorkerContext} {e : WorkerTableError}
    (h : t.traitInsert c = some (.error e, t')) : t' = t := by
  unfold traitInsert at h
  split at h
  · cases h
    rfl
  · split at h
    · cases h
    · split at h <;> cases h

end WorkerTable

namespace ThreadManager

/-- What a step does. -/
inductive Did (m : ThreadManager) : ThreadManager → List ManagerEvent → Prop
  | ignored : Did m m []
  | began : m.phase = .stopped →
      Did m { m with phase := .listening, nextTxnId := 0, fdOpen := true } []
  | shut : Did m { m with fdOpen := false } []
  | refused (r : Reply) :
      (m.phase = .listening ∨ ∃ job, m.phase = .draining job ∧ m.retCh.empty = true) →
      Did m { m with phase := .listening } [.reply m.fdOpen r]
  | left : m.phase = .listening → Did m m.leave []
  | startTxn {job : Job} :
      m.phase = .listening → job.IsStart → Did m { m with phase := .draining job } []
  | routed {txnId : TxnId} {job : Job} {idx : Fin maxTransactions} {jobCh : JobChannel}
      {phase : Phase} :
      m.phase = .listening → phase = .listening ∨ phase = .aborting idx → job.IsRequest txnId →
      (m.workers.table idx).live = true → (m.workers.context idx).txnId = txnId →
      (m.workers.context idx).jobCh.send job = (.none, jobCh) →
      Did m { m with
        workers := m.workers.setContext idx { m.workers.context idx with jobCh := jobCh }
        phase := phase } [.sent idx job]
  | aborted {idx : Fin maxTransactions} :
      m.phase = .aborting idx →
      Did m { m with
        workers := m.workers.setContext idx (m.workers.context idx).traitStop
        phase := .listening } []
  | removing {job : Job} {deadTxn : TxnId} {idx : Fin maxTransactions} {workers : WorkerTable} :
      m.phase = .draining job → m.retCh.get = .ok deadTxn →
      m.workers.removeStop deadTxn = some (idx, workers) →
      Did m { m with workers := workers, phase := .joining job idx } [.removing deadTxn idx]
  | joined {job : Job} {idx : Fin maxTransactions} {workers : WorkerTable}
      {replies : List Reply} :
      m.phase = .joining job idx → m.workers.joinEntry idx = some (workers, replies) →
      Did m { m with workers := workers, retCh := m.retCh.pop, phase := .draining job }
        (.joined idx :: replies.map (.reply m.fdOpen))
  | started {job : Job} {idx : Fin maxTransactions} {workers : WorkerTable} :
      m.phase = .draining job → m.retCh.empty = true →
      m.workers.traitInsert (WorkerContext.ofTxn m.nextTxnId) = some (.ok idx, workers) →
      Did m { m with workers := workers, phase := .starting job idx }
        [.started idx m.nextTxnId job]
  | opened {job : Job} {idx : Fin maxTransactions} {jobCh : JobChannel} :
      m.phase = .starting job idx → (m.workers.context idx).jobCh.send job = (.none, jobCh) →
      Did m { m with
        nextTxnId := m.nextTxnId + 1
        phase := .listening
        workers := m.workers.setContext idx { m.workers.context idx with jobCh := jobCh } }
        [.sent idx job]
  | unopened {job : Job} {idx : Fin maxTransactions} :
      m.phase = .starting job idx → (m.workers.context idx).jobCh.full = true →
      Did m { m with nextTxnId := m.nextTxnId + 1, phase := .listening } []
  | cleared {slot : Nat} {idx : Fin maxTransactions} {workers : WorkerTable}
      {replies : List Reply} :
      m.phase = .clearing slot → (m.workers.table idx).live = true →
      m.workers.joinEntry idx = some (workers, replies) →
      Did m { m with workers := workers, phase := .clearing (slot + 1) }
        (.joined idx :: replies.map (.reply m.fdOpen))
  | passed {slot : Nat} {phase : Phase} :
      m.phase = .clearing slot → phase = .clearing (slot + 1) ∨ phase = .stopped →
      Did m { m with phase := phase } []
  | moved {idx : Fin maxTransactions} {th : Thread} {point : ThreadPoint} :
      (m.workers.context idx).thread = some th →
      th.point = .loop ∧ point = .recv ∨ th.point = .recv ∧ point = .loop →
      Did m { m with
        workers := m.workers.setContext idx ((m.workers.context idx).goTo th point) } []
  | quit {idx : Fin maxTransactions} {th : Thread} :
      (m.workers.context idx).thread = some th → th.point = .loop →
      Did m { m with
        workers := m.workers.setContext idx ((m.workers.context idx).goTo th .ended)
        retCh := m.retCh.send th.txnId } [.quit th.txnId]
  | received {idx : Fin maxTransactions} {th : Thread} {job : Job} :
      (m.workers.context idx).thread = some th → th.point = .recv →
      (m.workers.context idx).jobCh.get = .ok (some job) →
      Did m { m with
        workers := m.workers.setContext idx ((m.workers.context idx).goTo th (.handling job)) }
        [.received idx th.txnId job]
  | popped {idx : Fin maxTransactions} {th : Thread} {job : Job} :
      (m.workers.context idx).thread = some th → th.point = .handling job →
      Did m { m with
        workers := m.workers.setContext idx { (m.workers.context idx).goTo th .loop with
          jobCh := (m.workers.context idx).jobCh.pop } } [.popped idx]

variable {m m' : ThreadManager} {out : List ManagerEvent} {job : Job}
  {idx : Fin maxTransactions}

/-- The refusal of a datagram leaves the manager listening. -/
theorem did_refused (hp : m.phase = .listening) (r : Reply) :
    m.Did m [.reply m.fdOpen r] := by
  have h := Did.refused (m := m) r (.inl hp)
  rwa [← hp] at h

theorem route_did {op : OpType} (hp : m.phase = .listening) (hop : job.buf.getOp = .ok op)
    (hne : op ≠ .startTxn) : m.Did (m.route op job).1 (m.route op job).2 := by
  unfold route
  split
  · exact did_refused hp _
  · next txnId htxn =>
      split
      · exact did_refused hp _
      · next idx hidx =>
          obtain ⟨hlive, hsame⟩ := WorkerTable.traitSearch_ok hidx
          split
          · next jobCh hsend =>
              refine .routed hp ?_ ⟨htxn, op, hop, hne⟩ hlive hsame hsend
              split
              · exact .inr rfl
              · exact .inl rfl
          · exact did_refused hp _

theorem receive_did (hp : m.phase = .listening) : m.Did (m.receive job).1 (m.receive job).2 := by
  unfold receive
  split
  · exact .left hp
  · split
    · next op opId hop hopId =>
        split
        · exact .startTxn hp hop
        · exact .ignored
        · next hne _ => exact route_did hp hop hne
    · exact did_refused hp _

theorem drainTurn_did (hp : m.phase = .draining job) (h : m.drainTurn job = some (m', out)) :
    m.Did m' out := by
  unfold drainTurn at h
  split at h
  · next deadTxn hget =>
      split at h
      · cases h
      · next idx workers hrem =>
          cases h
          exact .removing hp hget hrem
  · next err hget =>
      have hempty : m.retCh.empty = true := by
        rw [RetChannel.get] at hget
        split at hget
        · cases hget
        · next he => simpa using he
      split at h
      · cases h
      · next idx workers hins =>
          cases h
          exact .started hp hempty hins
      · next hins =>
          cases h
          exact .refused _ (.inr ⟨job, hp, hempty⟩)

theorem joinTurn_did (hp : m.phase = .joining job idx)
    (h : m.joinTurn job idx = some (m', out)) : m.Did m' out := by
  unfold joinTurn at h
  split at h
  · cases h
  · next workers replies hjoin =>
      cases h
      exact .joined hp hjoin

theorem startTurn_did (hp : m.phase = .starting job idx) :
    m.Did (m.startTurn job idx).1 (m.startTurn job idx).2 := by
  unfold startTurn
  dsimp only
  split
  · next jobCh hsend => exact .opened hp hsend
  · next hsend =>
      refine .unopened hp ?_
      by_contra hfull
      have herr := JobChannel.send_error_of_not_full job (Bool.not_eq_true _ ▸ hfull)
      exact hsend _ (Prod.ext herr rfl)

theorem clearTurn_did {slot : Nat} (hp : m.phase = .clearing slot)
    (h : m.clearTurn slot = some (m', out)) : m.Did m' out := by
  unfold clearTurn at h
  split at h
  · next hslot =>
      unfold WorkerTable.clearJoin at h
      by_cases hlive : (m.workers.table ⟨slot, hslot⟩).live = true
      · simp only [if_pos hlive] at h
        split at h
        · cases h
        · next workers replies hjoin =>
            cases h
            exact .cleared hp hlive hjoin
      · simp only [if_neg hlive] at h
        cases h
        exact .passed hp (.inl rfl)
  · cases h
    exact .passed hp (.inr rfl)

theorem workerTurn_did {a : ThreadAct} (h : m.workerTurn idx a = some (m', out)) :
    m.Did m' out := by
  unfold workerTurn at h
  dsimp only at h
  split at h
  · cases h
  · next th hth =>
      split at h
      · next hp =>
          split at h
          · cases h
            exact .moved hth (.inl ⟨hp, rfl⟩)
          · cases h
      · next hp =>
          cases h
          exact .quit hth hp
      · next hp =>
          split at h
          · next job hget =>
              cases h
              exact .received hth hp hget
          · cases h
      · next hp =>
          cases h
          exact .moved hth (.inr ⟨hp, rfl⟩)
      · next job hp =>
          cases h
          exact .popped hth hp
      · cases h

theorem did_of_some {r : ThreadManager × List ManagerEvent} (hd : m.Did r.1 r.2)
    (h : some r = some (m', out)) : m.Did m' out := by
  cases h
  exact hd

/-- **Every step is one of these.** -/
theorem step_did {a : ManagerAct} (h : machine.step m a = some (m', out)) : m.Did m' out := by
  change m.step a = _ at h
  unfold step at h
  split at h
  · split at h
    · next hp =>
        cases h
        exact .began hp
    · cases h
  · cases h
    exact .shut
  · split at h
    · next hp => exact did_of_some (receive_did hp) h
    · cases h
  · split at h
    · next hp =>
        split at h
        · cases h
        · cases h
          exact .left hp
    · cases h
  · unfold resume at h
    split at h
    · cases h
    · cases h
    · next hp => exact drainTurn_did hp h
    · next hp => exact joinTurn_did hp h
    · next hp => exact did_of_some (startTurn_did hp) h
    · next hp =>
        cases h
        exact .aborted hp
    · next hp => exact clearTurn_did hp h
  · exact workerTurn_did h

end ThreadManager

end PawnDB
