import PawnDB.Table.LiveKeys
import PawnDB.Worker.Outcomes

set_option autoImplicit false

/-! # What a step of a thread can do

`Effect` lists every kind of step a worker thread can make, by what becomes of its queue, its
lock list, its phase and the table. Later invariants are case analyses over it and never look
into a handler again; `WorkerThread.step_effect` is the one place where the handlers are taken
apart.

The list is complete for threads that satisfy `Worker.Wf`, which every thread does from its
start on (`Worker.wf_init`, `Effect.wf`): a thread that reads or promotes is still growing and has
nothing queued, one that drains is shrinking, and every queued entry is a write for the student
table.
-/

namespace PawnDB

/-- An event that is not about the table. -/
def Event.plain : Event → Bool
  | .reply _ | .pop | .ret _ => true
  | _ => false

def Event.isRemove (key : TblRow) : Event → Bool
  | .remove k => decide (k = key)
  | _ => false

/-- Only replies, pops and the message of a worker that has ended. -/
def Plain (out : List Event) : Prop := ∀ e ∈ out, e.plain = true

theorem plain_nil : Plain [] := fun _ h => by cases h

theorem plain_answer (ack : OpAck) (parser : JobBuf) (size : Nat) (conn : ClientConn) :
    Plain (answer ack parser size conn) := by
  intro e he
  simp only [answer, reply, List.mem_cons, List.not_mem_nil, or_false] at he
  rcases he with rfl | rfl <;> rfl

theorem Plain.append {out out' : List Event} (h : Plain out) (h' : Plain out') :
    Plain (out ++ out') := fun e he => (List.mem_append.mp he).elim (h e) (h' e)

theorem plain_answerRow (tuple : StudentTuple) (parser : JobBuf) (conn : ClientConn) :
    Plain (Worker.answerRow tuple parser conn) := plain_answer _ _ _ _

/-- The operations that are queued for the commit. -/
def OpType.Writes (op : OpType) : Prop := op = .addTuple ∨ op = .update ∨ op = .delete

instance (op : OpType) : Decidable op.Writes := by unfold OpType.Writes; infer_instance

/-- What a queued entry satisfies. -/
structure Commit.Wf (e : Commit) : Prop where
  tableId : e.key.tableId = studentTableId
  writes : e.op.Writes

theorem Commit.Wf.key_eq {e : Commit} (h : e.Wf) : e.key = studentKey e.key.tupleKey := by
  rw [studentKey, ← h.tableId]

namespace Worker

variable (w : Worker)

/-- The key under which an `ADD_TUPLE`, `UPDATE` or `DELETE` request is queued, if it passes
the checks of its handler. -/
def target (op : OpType) (parser : JobBuf) : Option UniqueKey :=
  match op, parser.getTbl, parser.getKey with
  | .addTuple, .ok tableId, _ =>
      if tableId = studentTableId then some ⟨tableId, 0⟩ else none
  | .update, .ok tableId, .ok tupleKey =>
      if w.lockList.holds ⟨tableId, tupleKey⟩ .exclusive ∧ tableId = studentTableId then
        some ⟨tableId, tupleKey⟩
      else none
  | .delete, .ok tableId, .ok tupleKey =>
      if w.lockList.holds ⟨tableId, tupleKey⟩ .exclusive then some ⟨tableId, tupleKey⟩ else none
  | _, _, _ => none

/-- The tuple in the data of a request, as `process_add` and `process_update` build it. -/
def tupleOf (parser : JobBuf) : StudentTuple :=
  (StudentTuple.empty.traitDeserialize parser.buffer parser.getTupleOffset).2

/-- The entry that is queued for a request. -/
def entryFor (op : OpType) (key : UniqueKey) (parser : JobBuf) : Commit :=
  ⟨key, op, if op = .delete then none
    else some ((tupleOf parser).copyTo (parser.setAck .success).buffer)⟩

/-- A request that writes keeps the locks and ends the growing phase. -/
structure Left (w' : Worker) : Prop where
  lockList : w'.lockList = w.lockList
  status : w'.status = if w.status = .growing then .shrinking else w.status

/-- The outcomes of `process_add`, `process_update` and `process_rm`. -/
inductive Wrote (op : OpType) (job : Job) (w' : Worker) : List Event → Prop
  | rejected (ack : OpAck) : w.Left w' → w.target op job.buf = none → ack ≠ .success →
      ack ≠ .commitFull → w'.commitQueue = w.commitQueue →
      Wrote op job w' (answer ack job.buf 7 job.conn)
  /-- The queue is full, and the reply that tells so is the second one. -/
  | lost (key : UniqueKey) (size : Nat) (parser : JobBuf) : w.Left w' →
      w.target op job.buf = some key → w.commitQueue.full = true → op ≠ .delete →
      parser.buffer = (tupleOf job.buf).copyTo (job.buf.setAck .success).buffer →
      w'.commitQueue = w.commitQueue →
      Wrote op job w'
        ((reply .success job.buf size job.conn).2 :: answer .commitFull parser 7 job.conn)
  | full (key : UniqueKey) : w.Left w' → w.target op job.buf = some key →
      w.commitQueue.full = true → op = .delete → w'.commitQueue = w.commitQueue →
      Wrote op job w' (answer .commitFull job.buf 7 job.conn)
  | queued (key : UniqueKey) (size : Nat) : w.Left w' → w.target op job.buf = some key →
      w.commitQueue.full = false →
      w'.commitQueue = (w.commitQueue.send (entryFor op key job.buf)).2 →
      Wrote op job w' (answer .success job.buf size job.conn)

theorem left_leaveGrowing : w.Left w.leaveGrowing := ⟨rfl, rfl⟩

theorem Left.aborted_iff {w w' : Worker} (h : w.Left w') :
    w'.status = .aborted ↔ w.status = .aborted := by
  rw [h.status]
  split
  · rename_i hg
    simp [hg]
  · exact Iff.rfl

theorem send_eq {q : CommitQueue} {e : Commit} (h : q.full = false) :
    q.send e = (.none, (q.send e).2) := by
  rw [← CommitQueue.send_error h]

/-- A request that fails a check is answered and not queued. -/
theorem wrote_rejected {op : OpType} {job : Job} {ack : OpAck}
    (hack : ack ≠ .success ∧ ack ≠ .commitFull) (htarget : w.target op job.buf = none) :
    w.Wrote op job w.leaveGrowing (answer ack job.buf 7 job.conn) :=
  .rejected ack w.left_leaveGrowing htarget hack.1 hack.2 rfl

theorem processAdd_wrote (job : Job) :
    w.Wrote .addTuple job (w.processAdd job.buf job.conn).1
      (w.processAdd job.buf job.conn).2 := by
  unfold processAdd
  dsimp only
  split
  · rename_i htbl
    exact w.wrote_rejected (by decide) (by simp [target, htbl])
  · rename_i tableId htbl
    by_cases hid : tableId = studentTableId
    · have htarget : w.target .addTuple job.buf = some ⟨tableId, 0⟩ := by
        simp [target, htbl, hid]
      rw [if_pos hid]
      cases hfull : w.commitQueue.full with
      | true =>
          have hs : ∀ e, w.leaveGrowing.commitQueue.send e = (.full, w.commitQueue) :=
            fun e => CommitQueue.send_of_full hfull
          simp only [hs]
          exact Wrote.lost _ _ _ w.left_leaveGrowing htarget hfull (by decide) rfl rfl
      | false =>
          have hs : ∀ e, w.leaveGrowing.commitQueue.send e = (.none, (w.commitQueue.send e).2) :=
            fun e => send_eq hfull
          simp only [hs]
          exact Wrote.queued _ _ ⟨rfl, rfl⟩ htarget hfull rfl
    · rw [if_neg hid]
      exact w.wrote_rejected (by decide) (by simp [target, htbl, hid])

theorem processUpdate_wrote (job : Job) :
    w.Wrote .update job (w.processUpdate job.buf job.conn).1
      (w.processUpdate job.buf job.conn).2 := by
  unfold processUpdate
  dsimp only
  split
  · rename_i htbl
    exact w.wrote_rejected (by decide) (by simp [target, htbl])
  · rename_i tableId htbl
    split
    · rename_i hkey
      exact w.wrote_rejected (by decide) (by simp [target, htbl, hkey])
    · rename_i tupleKey hkey
      have hlist : w.leaveGrowing.lockList = w.lockList := rfl
      rw [hlist]
      by_cases hlock : w.lockList.holds ⟨tableId, tupleKey⟩ .exclusive = true
      · rw [if_pos hlock]
        by_cases hid : tableId = studentTableId
        · have htarget : w.target .update job.buf = some ⟨tableId, tupleKey⟩ := by
            simp only [target, htbl, hkey]
            rw [if_pos ⟨hlock, hid⟩]
          rw [if_pos hid]
          -- the success is sent first, so a full queue loses an acknowledged update
          cases hfull : w.commitQueue.full with
          | true =>
              have hs : ∀ e, w.leaveGrowing.commitQueue.send e = (.full, w.commitQueue) :=
                fun e => CommitQueue.send_of_full hfull
              simp only [hs]
              exact Wrote.lost _ _ _ w.left_leaveGrowing htarget hfull (by decide) rfl rfl
          | false =>
              have hs : ∀ e, w.leaveGrowing.commitQueue.send e
                  = (.none, (w.commitQueue.send e).2) := fun e => send_eq hfull
              simp only [hs]
              exact Wrote.queued _ _ ⟨rfl, rfl⟩ htarget hfull rfl
        · rw [if_neg hid]
          exact w.wrote_rejected (by decide) (by simp [target, htbl, hkey, hid])
      · rw [if_neg hlock]
        exact w.wrote_rejected (by decide) (by simp [target, htbl, hkey, hlock])

theorem processRm_wrote (job : Job) :
    w.Wrote .delete job (w.processRm job.buf job.conn).1 (w.processRm job.buf job.conn).2 := by
  unfold processRm
  dsimp only
  split
  · rename_i htbl
    exact w.wrote_rejected (by decide) (by simp [target, htbl])
  · rename_i tableId htbl
    split
    · rename_i hkey
      exact w.wrote_rejected (by decide) (by simp [target, htbl, hkey])
    · rename_i tupleKey hkey
      have hlist : w.leaveGrowing.lockList = w.lockList := rfl
      rw [hlist]
      by_cases hlock : w.lockList.holds ⟨tableId, tupleKey⟩ .exclusive = true
      · have htarget : w.target .delete job.buf = some ⟨tableId, tupleKey⟩ := by
          simp only [target, htbl, hkey, hlock, if_true]
        rw [if_pos hlock]
        cases hfull : w.commitQueue.full with
        | true =>
            have hs : ∀ e, w.leaveGrowing.commitQueue.send e = (.full, w.commitQueue) :=
              fun e => CommitQueue.send_of_full hfull
            simp only [hs]
            exact Wrote.full _ w.left_leaveGrowing htarget hfull rfl rfl
        | false =>
            have hs : ∀ e, w.leaveGrowing.commitQueue.send e
                = (.none, (w.commitQueue.send e).2) := fun e => send_eq hfull
            simp only [hs]
            exact Wrote.queued _ _ ⟨rfl, rfl⟩ htarget hfull rfl
      · rw [if_neg hlock]
        exact w.wrote_rejected (by decide) (by simp [target, htbl, hkey, hlock])

end Worker

/-! ## Threads -/

/-- The iterator of `release_all_locks`, at the start of the list elsewhere. -/
def Point.iter : Point → Nat
  | .release idx => idx
  | _ => 0

def Point.isEnded : Point → Bool
  | .ended => true
  | _ => false

def Point.isCommit : Point → Bool
  | .commit _ _ => true
  | _ => false

theorem Point.isCommit_iff {p : Point} :
    p.isCommit = true ↔ ∃ parser conn, p = .commit parser conn := by
  cases p <;> simp [Point.isCommit]

/-- No request and no quit is under way. -/
def Point.isIdle : Point → Bool
  | .loop | .recv | .ended => true
  | _ => false

theorem Point.isEnded_iff {p : Point} : p.isEnded = true ↔ p = .ended := by
  cases p <;> simp [Point.isEnded]

/-- The phase, and for a promotion the lock, that a thread at this point relies on. -/
def Point.Placed (w : Worker) : Point → Prop
  | .sharedRead _ _ _ => w.status = .growing
  | .exclusiveRead _ _ _ => w.status = .growing
  | .promote _ _ key _ =>
      w.status = .growing ∧ w.lockList.getLock (studentKey key) = .ok .shared
  | .commit _ _ => w.status = .shrinking
  | _ => True

/-- What a worker at point `p` keeps of itself, whatever the other threads do. -/
structure Worker.Wf (w : Worker) (p : Point) : Prop where
  list : p ≠ .ended → w.lockList.Wf
  queue : w.commitQueue.Wf
  entries : ∀ e ∈ w.commitQueue.contents, e.Wf
  growing : w.status = .growing → w.commitQueue.contents = []
  placed : p.Placed w
  ended : p = .ended → ∀ type key, w.lockList.heldFrom 0 type key = 0

/-- A worker drains its queue in the phase `SHRINKING` only. -/
theorem Worker.Wf.shrinking {w : Worker} {p : Point} (hw : w.Wf p) {parser : JobBuf}
    {conn : ClientConn} (hp : p = .commit parser conn) : w.status = .shrinking := by
  have := hw.placed
  rwa [hp] at this

/-- The points that are neither in the release of the locks nor after it. -/
def Point.Active : Point → Prop
  | .release _ | .ended => False
  | _ => True

/-- The points from which a thread can go on to another place: from the drain loop only when
there is nothing left to apply. -/
def Point.Open (w : Worker) : Point → Prop
  | .release _ | .ended => False
  | .commit _ _ => w.commitQueue.empty = true
  | _ => True

theorem Point.Open.active {w : Worker} {p : Point} (h : p.Open w) : p.Active := by
  cases p <;> trivial

theorem Point.Active.ne_ended {p : Point} (h : p.Active) : p ≠ .ended := by
  rintro rfl
  exact h

/-- The growing phase is over: a request that writes ends it, and a failed wait for a row aborts
it. No handler sets the phase to `COMMITTED`. -/
def TxnStatus.Leaves (st st' : TxnStatus) : Prop :=
  st' = (if st = .growing then .shrinking else st) ∨ st = .growing ∧ st' = .aborted

theorem TxnStatus.Leaves.ne_growing {st st' : TxnStatus} (h : st.Leaves st') :
    st' ≠ .growing := by
  rcases h with rfl | ⟨-, rfl⟩
  · split
    · decide
    · assumption
  · decide

theorem TxnStatus.Leaves.aborted {st st' : TxnStatus} (h : st.Leaves st')
    (ha : st = .aborted) : st' = .aborted := by
  rcases h with rfl | ⟨hg, rfl⟩
  · rw [ha]; rfl
  · rfl

/-- The kinds of steps of a thread at point `p` with worker `w`, on the table `db`. -/
inductive Effect (w : Worker) (p : Point) (db : StudentTable) :
    Act → Worker → Point → StudentTable → List Event → Prop
  /-- The running flag is cleared. -/
  | stop : Effect w p db .stop w p db []
  /-- The thread goes on without touching its queue, its locks or the table. -/
  | move {a w' p' out} : p.Open w → w'.commitQueue = w.commitQueue → w'.lockList = w.lockList →
      w'.status = w.status → p'.iter = 0 → p' ≠ .ended → p'.Placed w' → Plain out →
      Effect w p db a w' p' db out
  /-- The phase changes and nothing else. -/
  | phase {a w' out} : p.Open w → w'.commitQueue = w.commitQueue → w'.lockList = w.lockList →
      w.status.Leaves w'.status → Plain out → Effect w p db a w' .loop db out
  /-- A request is queued. -/
  | queue {job op key w' out} : p = .recv → job.buf.getOp = .ok op → op.Writes →
      w.target op job.buf = some key → w.commitQueue.full = false →
      w'.commitQueue = (w.commitQueue.send (Worker.entryFor op key job.buf)).2 →
      w'.lockList = w.lockList → w.status.Leaves w'.status → Plain out →
      Effect w p db (.recv job) w' .loop db out
  /-- A read is granted a row. -/
  | grantShared {parser conn cnt tuple l' db' out} : w.status = .growing →
      p = .sharedRead parser conn cnt → db.traitWaitShared = (.ok tuple, db') →
      w.lockList.refuses (studentKey tuple.key) = false → w.lockList.Recorded .shared tuple.key l' →
      Plain out →
      Effect w p db .resume { w with lockList := l' } .loop db' (.granted .shared tuple :: out)
  | grantExclusive {parser conn cnt tuple l' db' out} : w.status = .growing →
      p = .exclusiveRead parser conn cnt → db.traitWaitExclusive = (.ok tuple, db') →
      w.lockList.refuses (studentKey tuple.key) = false →
      w.lockList.Recorded .exclusive tuple.key l' → Plain out →
      Effect w p db .resume { w with lockList := l' } .loop db' (.granted .exclusive tuple :: out)
  /-- A read is granted a row that the lock list refuses. -/
  | refuseShared {parser conn cnt tuple db' out} : w.status = .growing →
      p = .sharedRead parser conn cnt → db.traitWaitShared = (.ok tuple, db') →
      w.lockList.refuses (studentKey tuple.key) = true → Plain out →
      Effect w p db .resume w .loop db' (.granted .shared tuple :: out)
  | refuseExclusive {parser conn cnt tuple db' out} : w.status = .growing →
      p = .exclusiveRead parser conn cnt → db.traitWaitExclusive = (.ok tuple, db') →
      w.lockList.refuses (studentKey tuple.key) = true → Plain out →
      Effect w p db .resume w .loop db' (.granted .exclusive tuple :: out)
  | yield {job w' key l' db' out} : p = .recv → w.status = .growing →
      w.lockList.getLock (studentKey key) = .ok .shared → w.lockList.Erased .shared key l' →
      db.traitRelease key = some db' → w'.commitQueue = w.commitQueue → w'.lockList = l' →
      w'.status = w.status → Plain out →
      Effect w p db (.recv job) w' .loop db' (.released key :: out)
  | promote {key l' db' out} : w.status = .growing → p.Active → p ≠ .recv →
      w.lockList.getLock (studentKey key) = .ok .shared →
      db.traitPromote key = some (.ok (), db') → w.lockList.Promoted key l' → Plain out →
      Effect w p db .resume { w with lockList := l' } .loop db' (.promoted key :: out)
  /-- A commit carries out the `DELETE` at the head of the queue. -/
  | remove {parser conn key l' db'} : p = .commit parser conn → w.commitQueue.empty = false →
      w.commitQueue.get.op = .delete → w.commitQueue.get.key = studentKey key →
      w.lockList.rmLock (studentKey key) = some l' → db.traitRemove key = some db' →
      Effect w p db .resume { w with lockList := l', commitQueue := w.commitQueue.pop } p db'
        [.remove key]
  /-- A quitting worker gives back the lock its iterator is at. -/
  | free {idx i key db'} : p = .release idx → w.lockList.advanceToValid idx = some i →
      (w.lockList.locks i).key = studentKey key → db.traitRelease key = some db' →
      Effect w p db .resume w (.release (i.val + 1)) db' [.released key]
  | finish {idx w' out} : p = .release idx → w.lockList.advanceToValid idx = none →
      w'.lockList = w.lockList.clear → w'.status = w.status → w'.commitQueue.contents = [] →
      w'.commitQueue.Wf → Plain out → Effect w p db .resume w' .ended db out

namespace Worker

variable {w : Worker} {db : StudentTable}

/-- What a handler does does not depend on the timeouts counted before. -/
theorem Wrote.of_reset {op : OpType} {job : Job} {w' : Worker} {out : List Event}
    (h : ({ w with timeoutCnt := 0 } : Worker).Wrote op job w' out) : w.Wrote op job w' out := by
  cases h with
  | rejected ack hleft htarget hs hf hq => exact .rejected ack ⟨hleft.1, hleft.2⟩ htarget hs hf hq
  | lost key size parser hleft htarget hfull hop hb hq =>
      exact .lost key size parser ⟨hleft.1, hleft.2⟩ htarget hfull hop hb hq
  | full key hleft htarget hfull hop hq => exact .full key ⟨hleft.1, hleft.2⟩ htarget hfull hop hq
  | queued key size hleft htarget hfull hq =>
      exact .queued key size ⟨hleft.1, hleft.2⟩ htarget hfull hq

/-- What a write request does is an effect. -/
theorem Wrote.effect {op : OpType} {job : Job} {w' : Worker} {out : List Event}
    (h : w.Wrote op job w' out) (hop : job.buf.getOp = .ok op) (hw : op.Writes) :
    Effect w .recv db (.recv job) w' .loop db out := by
  cases h with
  | rejected ack hleft _ _ _ hq =>
      exact .phase trivial hq hleft.lockList (Or.inl hleft.status) (plain_answer _ _ _ _)
  | lost key size parser hleft _ _ _ _ hq =>
      refine .phase trivial hq hleft.lockList (Or.inl hleft.status) fun e he => ?_
      rcases List.mem_cons.mp he with rfl | he
      · rfl
      · exact plain_answer _ _ _ _ e he
  | full key hleft _ _ _ hq =>
      exact .phase trivial hq hleft.lockList (Or.inl hleft.status) (plain_answer _ _ _ _)
  | queued key size hleft htarget hfull hq =>
      exact .queue rfl hop hw htarget hfull hq hleft.lockList (Or.inl hleft.status)
        (plain_answer _ _ _ _)

/-- A request that is answered at once and changes nothing. -/
theorem effect_answer {p : Point} {a : Act} {w' : Worker} {ack : OpAck} {parser : JobBuf}
    {size : Nat} {conn : ClientConn} (hp : p.Open w) (hq : w'.commitQueue = w.commitQueue)
    (hl : w'.lockList = w.lockList) (hs : w'.status = w.status) :
    Effect w p db a w' .loop db (answer ack parser size conn) :=
  .move hp hq hl hs rfl (by simp) trivial (plain_answer _ _ _ _)

theorem processRead_effect {enter : Point} {job : Job} {p : Point} {out : List Event}
    (h : ({ w with timeoutCnt := 0 } : Worker).processRead enter job.buf job.conn = (p, out))
    (hi : enter.iter = 0) (he : enter ≠ .ended)
    (hp : w.status = .growing → enter.Placed { w with timeoutCnt := 0 }) :
    Effect w .recv db (.recv job) { w with timeoutCnt := 0 } p db out := by
  cases processRead_start h with
  | refused ack => exact effect_answer trivial rfl rfl rfl
  | entered hstatus => exact .move trivial rfl rfl rfl hi he (hp hstatus) plain_nil

theorem processYield_effect {job : Job} {w' : Worker} {db' : StudentTable} {out : List Event}
    (hl : w.lockList.Wf)
    (h : ({ w with timeoutCnt := 0 } : Worker).processYield db job.buf job.conn
      = some (w', db', out)) :
    Effect w .recv db (.recv job) w' .loop db' out := by
  cases processYield_yielded h with
  | refused ack => exact effect_answer trivial rfl rfl rfl
  | foreign hid hlock => exact absurd (hl.tableId_of_getLock (LockList.holds_iff.mp hlock)) hid
  | released hstatus hlock hrm hrel =>
      have hget := LockList.holds_iff.mp hlock
      obtain ⟨l', hrm', her⟩ := LockList.rmLock_of_getLock hget
      cases hrm.symm.trans hrm'
      exact .yield rfl hstatus hget her hrel rfl rfl rfl (plain_answer _ _ _ _)

theorem processPromote_effect {job : Job} {p : Point} {out : List Event}
    (h : ({ w with timeoutCnt := 0 } : Worker).processPromote job.buf job.conn = (p, out)) :
    Effect w .recv db (.recv job) { w with timeoutCnt := 0 } p db out := by
  cases processPromote_start h with
  | refused ack => exact effect_answer trivial rfl rfl rfl
  | entered key hstatus hlock =>
      exact .move trivial rfl rfl rfl rfl (by simp) ⟨hstatus, LockList.holds_iff.mp hlock⟩
        plain_nil

theorem received_eq (w : Worker) (db : StudentTable) (job : Job) :
    w.received db job = ({ w with timeoutCnt := 0 } : Worker).dispatch db job := by
  unfold received
  exact if_neg (show ¬ UInt8.ofNat maxTimeoutRetry ≤ 0 by decide)

theorem received_effect {job : Job} {t : Turn} (hl : w.lockList.Wf)
    (h : w.received db job = some t) :
    Effect w .recv db (.recv job) t.worker t.point t.db t.out := by
  rw [received_eq] at h
  unfold dispatch at h
  dsimp only at h
  split at h
  · cases h
    exact effect_answer trivial rfl rfl rfl
  · cases h
    exact effect_answer trivial rfl rfl rfl
  · -- COMMIT_TXN
    cases h
    unfold processCommit
    split
    · exact .move trivial rfl rfl rfl rfl (by simp) trivial (plain_answer _ _ _ _)
    · rename_i hstatus
      exact .move trivial rfl rfl rfl rfl (by simp) (not_not.mp hstatus) plain_nil
  · cases h
    exact .move trivial rfl rfl rfl rfl (by simp) trivial (plain_answer _ _ _ _)
  · rename_i hop
    cases h
    exact (processAdd_wrote _ job).of_reset.effect hop (by decide)
  · cases h
    exact processRead_effect rfl rfl (by simp) fun hs => hs
  · cases h
    exact processRead_effect rfl rfl (by simp) fun hs => hs
  · split at h
    · cases h
    · rename_i hy
      cases h
      exact processYield_effect hl hy
  · cases h
    exact processPromote_effect rfl
  · rename_i hop
    cases h
    exact (processUpdate_wrote _ job).of_reset.effect hop (by decide)
  · rename_i hop
    cases h
    exact (processRm_wrote _ job).of_reset.effect hop (by decide)
  · cases h
    exact effect_answer trivial rfl rfl rfl

theorem sharedReadTurn_effect {running : Bool} {parser : JobBuf} {conn : ClientConn} {cnt : Nat}
    {t : Turn} (hl : w.lockList.Wf) (hs : w.status = .growing)
    (h : w.sharedReadTurn running db parser conn cnt = some t) :
    Effect w (.sharedRead parser conn cnt) db .resume t.worker t.point t.db t.out := by
  cases sharedReadTurn_turn h with
  | timeout => exact effect_answer trivial rfl rfl rfl
  | stopped => exact .phase trivial rfl rfl (Or.inr ⟨hs, rfl⟩) (plain_answer _ _ _ _)
  | waits _ hwait =>
      rw [StudentTable.traitWaitShared_error hwait]
      exact .move trivial rfl rfl rfl rfl (by simp) hs plain_nil
  | granted _ _ hwait hadd =>
      obtain ⟨href, hrec⟩ := LockList.recorded_of_addLock hl hadd
      exact .grantShared hs rfl hwait href hrec (plain_answerRow _ _ _)
  | refused _ _ hwait hne hadd =>
      obtain ⟨href, rfl⟩ := LockList.refuses_of_addLock hl hne hadd
      exact .refuseShared hs rfl hwait href ((plain_answer _ _ _ _).append (plain_answerRow _ _ _))

theorem exclusiveReadTurn_effect {running : Bool} {parser : JobBuf} {conn : ClientConn}
    {cnt : Nat} {t : Turn} (hl : w.lockList.Wf) (hs : w.status = .growing)
    (h : w.exclusiveReadTurn running db parser conn cnt = some t) :
    Effect w (.exclusiveRead parser conn cnt) db .resume t.worker t.point t.db t.out := by
  cases exclusiveReadTurn_turn h with
  | timeout => exact effect_answer trivial rfl rfl rfl
  | stopped => exact .phase trivial rfl rfl (Or.inr ⟨hs, rfl⟩) (plain_answer _ _ _ _)
  | waits _ hwait =>
      rw [StudentTable.traitWaitExclusive_error hwait]
      exact .move trivial rfl rfl rfl rfl (by simp) hs plain_nil
  | granted _ _ hwait hadd =>
      obtain ⟨href, hrec⟩ := LockList.recorded_of_addLock hl hadd
      exact .grantExclusive hs rfl hwait href hrec (plain_answerRow _ _ _)
  | refused _ _ hwait hne hadd =>
      obtain ⟨href, rfl⟩ := LockList.refuses_of_addLock hl hne hadd
      exact .refuseExclusive hs rfl hwait href (plain_answer _ _ _ _)

theorem promoteTurn_effect {running : Bool} {parser : JobBuf} {conn : ClientConn} {key : TblRow}
    {cnt : Nat} {t : Turn} (hs : w.status = .growing)
    (hget : w.lockList.getLock (studentKey key) = .ok .shared)
    (h : w.promoteTurn running db parser conn key cnt = some t) :
    Effect w (.promote parser conn key cnt) db .resume t.worker t.point t.db t.out := by
  cases promoteTurn_turn h with
  | timeout => exact .phase trivial rfl rfl (Or.inr ⟨hs, rfl⟩) (plain_answer _ _ _ _)
  | stopped => exact effect_answer trivial rfl rfl rfl
  | waits _ hprom =>
      rw [StudentTable.traitPromote_error hprom]
      exact .move trivial rfl rfl rfl rfl (by simp) ⟨hs, hget⟩ plain_nil
  | promoted hprom hlock =>
      obtain ⟨l', hl', hpr⟩ := LockList.promoteLock_of_getLock hget
      cases hlock.symm.trans hl'
      exact .promote hs trivial (by simp) hget hprom hpr (plain_answer _ _ _ _)

theorem commitTurn_effect {parser : JobBuf} {conn : ClientConn} {t : Turn}
    (hq : w.commitQueue.Wf) (he : ∀ e ∈ w.commitQueue.contents, e.Wf)
    (h : w.commitTurn db parser conn = some t) :
    Effect w (.commit parser conn) db .resume t.worker t.point t.db t.out := by
  have hwf : w.commitQueue.empty = false → w.commitQueue.get.Wf :=
    fun hempty => he _ (CommitQueue.get_mem hq hempty)
  cases commitTurn_turn h with
  | drained hempty => exact .move hempty rfl rfl rfl rfl (by simp) trivial (plain_answer _ _ _ _)
  | removed hempty hop hrm hremove =>
      have hkey := (hwf hempty).key_eq
      exact .remove rfl hempty hop hkey (by rw [← hkey]; exact hrm) hremove
  | foreign hempty hforeign =>
      -- the entry is one for the student table
      rcases hforeign with hid | ⟨hadd, hdelete, hupdate⟩
      · exact absurd (hwf hempty).tableId hid
      · rcases (hwf hempty).writes with hop | hop | hop
        · exact absurd hop hadd
        · exact absurd hop hupdate
        · exact absurd hop hdelete

/-- Popping as long as there is something to pop empties the queue. -/
theorem clearCommitQueue_contents (hq : w.commitQueue.Wf) :
    w.clearCommitQueue.commitQueue.contents = [] ∧ w.clearCommitQueue.commitQueue.Wf := by
  have hgen : ∀ n (q : CommitQueue), q.Wf → q.size.toNat = n →
      (CommitQueue.pop^[n] q).contents = [] ∧ (CommitQueue.pop^[n] q).Wf := by
    intro n
    induction n with
    | zero =>
        intro q hq hn
        refine ⟨?_, hq⟩
        rw [Function.iterate_zero, id, ← List.length_eq_zero_iff, CommitQueue.contents_length, hn]
    | succ n ih =>
        intro q hq hn
        have hne : q.empty = false := by
          rw [← Bool.not_eq_true, CommitQueue.empty_iff, ← List.length_eq_zero_iff,
            CommitQueue.contents_length]
          omega
        obtain ⟨hpw, hpc⟩ := CommitQueue.contents_pop hq hne
        have hlen := congrArg List.length hpc
        rw [List.length_cons, CommitQueue.contents_length, CommitQueue.contents_length] at hlen
        rw [Function.iterate_succ_apply]
        exact ih q.pop hpw (by omega)
  exact hgen _ _ hq rfl

theorem releaseTurn_effect {idx : Nat} {t : Turn} (hl : w.lockList.Wf) (hq : w.commitQueue.Wf)
    (h : w.releaseTurn db idx = some t) :
    Effect w (.release idx) db .resume t.worker t.point t.db t.out := by
  have hid : ∀ {i : Fin maxLockPerTransaction}, w.lockList.advanceToValid idx = some i →
      (w.lockList.locks i).key.tableId = studentTableId := by
    intro i hi
    have hact := List.find?_some hi
    simp only [Bool.and_eq_true] at hact
    exact hl.tableId i hact.2
  cases releaseTurn_turn h with
  | finished hend =>
      obtain ⟨hc, hw⟩ := clearCommitQueue_contents (w := { w with lockList := w.lockList.clear }) hq
      exact .finish rfl hend rfl rfl hc hw fun e he => by rw [List.mem_singleton.mp he]; rfl
  | released hi hrel => exact .free rfl hi (by rw [studentKey, ← hid hi]) hrel
  | foreign hi hne => exact absurd (hid hi) hne

end Worker

theorem WorkerThread.after_eq {th th' : WorkerThread} {t : Turn} {db' : StudentTable}
    {out : List Event} (h : th.after t = (th', db', out)) :
    th' = { th with worker := t.worker, point := t.point } ∧ db' = t.db ∧ out = t.out := by
  cases h
  exact ⟨rfl, rfl, rfl⟩

/-- **Every step of a well-formed thread is one of the listed ones.** -/
theorem WorkerThread.step_effect {th th' : WorkerThread} {db db' : StudentTable} {a : Act}
    {out : List Event} (hw : th.worker.Wf th.point) (h : th.step db a = some (th', db', out)) :
    Effect th.worker th.point db a th'.worker th'.point db' out := by
  unfold step at h
  cases a with
  | recv job =>
      dsimp only at h
      split at h
      · rename_i hp
        obtain ⟨t, ht, heq⟩ := Option.map_eq_some_iff.mp h
        obtain ⟨rfl, rfl, rfl⟩ := after_eq heq
        rw [hp]
        exact Worker.received_effect (hw.list (by simp [hp])) ht
      · cases h
  | recvTimeout =>
      dsimp only at h
      split at h
      · rename_i hp
        cases h
        rw [hp]
        exact .move trivial rfl rfl rfl rfl (by simp) trivial plain_nil
      · cases h
  | resume =>
      obtain ⟨t, ht, heq⟩ := Option.map_eq_some_iff.mp h
      obtain ⟨rfl, rfl, rfl⟩ := after_eq heq
      have hpl := hw.placed
      unfold resume at ht
      split at ht
      · rename_i hp
        rw [hp]
        cases ht
        -- at the head of the loop the flag alone decides
        cases hr : th.running with
        | true => exact .move trivial rfl rfl rfl rfl (by simp) trivial plain_nil
        | false => exact .move trivial rfl rfl rfl rfl (by simp) trivial plain_nil
      · cases ht
      · rename_i hp
        rw [hp] at hpl ⊢
        exact Worker.sharedReadTurn_effect (hw.list (by simp [hp])) hpl ht
      · rename_i hp
        rw [hp] at hpl ⊢
        exact Worker.exclusiveReadTurn_effect (hw.list (by simp [hp])) hpl ht
      · rename_i hp
        rw [hp] at hpl ⊢
        exact Worker.promoteTurn_effect hpl.1 hpl.2 ht
      · rename_i hp
        rw [hp]
        exact Worker.commitTurn_effect hw.queue hw.entries ht
      · rename_i hp
        rw [hp]
        exact Worker.releaseTurn_effect (hw.list (by simp [hp])) hw.queue ht
      · cases ht
  | stop =>
      cases h
      exact .stop

/-- What a step does with a request that writes. -/
theorem WorkerThread.step_wrote {th th' : WorkerThread} {db db' : StudentTable} {job : Job}
    {out : List Event} {op : OpType} (h : th.step db (.recv job) = some (th', db', out))
    (hop : job.buf.getOp = .ok op) (hwr : op.Writes) :
    th.worker.Wrote op job th'.worker out ∧
      th.point = .recv ∧ th'.point = .loop ∧ db' = db := by
  unfold step at h
  dsimp only at h
  split at h
  · rename_i hp
    obtain ⟨t, ht, heq⟩ := Option.map_eq_some_iff.mp h
    obtain ⟨rfl, rfl, rfl⟩ := after_eq heq
    rw [Worker.received_eq, Worker.dispatch, hop] at ht
    rcases hwr with rfl | rfl | rfl
    · cases ht
      exact ⟨(Worker.processAdd_wrote _ job).of_reset, hp, rfl, rfl⟩
    · cases ht
      exact ⟨(Worker.processUpdate_wrote _ job).of_reset, hp, rfl, rfl⟩
    · cases ht
      exact ⟨(Worker.processRm_wrote _ job).of_reset, hp, rfl, rfl⟩
  · cases h

/-- The key of the row that the table grants a reading thread in its next turn. -/
def WorkerThread.grants (th : WorkerThread) (db : StudentTable) : Option TblRow :=
  match th.point with
  | .sharedRead _ _ cnt =>
      if cnt < maxTimeoutRetry ∧ th.running = true then
        match db.traitWaitShared with
        | (.ok tuple, _) => some tuple.key
        | (.error _, _) => none
      else none
  | .exclusiveRead _ _ cnt =>
      if cnt < maxTimeoutRetry ∧ th.running = true then
        match db.traitWaitExclusive with
        | (.ok tuple, _) => some tuple.key
        | (.error _, _) => none
      else none
  | _ => none

/-- The lock list takes the row that the next turn is granted, if there is one. -/
def WorkerThread.takes (th : WorkerThread) (db : StudentTable) : Bool :=
  match th.grants db with
  | none => true
  | some key => !th.worker.lockList.refuses (studentKey key)

theorem Plain.not_granted {out : List Event} (h : Plain out) {type : LockType}
    {tuple : StudentTuple} : .granted type tuple ∉ out := fun hm => by cases h _ hm

theorem Worker.ReadTurn.granted_event {w : Worker} {db : StudentTable} {running : Bool}
    {parser : JobBuf} {conn : ClientConn} {cnt : Nat} {t : Turn} {type type' : LockType}
    {tuple : StudentTuple} {wait : Except TupleTableError StudentTuple × StudentTable}
    {retry : Point} {refusal : StudentTuple → List Event}
    (h : w.ReadTurn db parser conn running cnt type' wait retry refusal t)
    (hm : .granted type tuple ∈ t.out) : cnt < maxTimeoutRetry ∧ running = true := by
  cases h with
  | timeout => exact absurd hm (plain_answer _ _ _ _).not_granted
  | stopped => exact absurd hm (plain_answer _ _ _ _).not_granted
  | waits => exact absurd hm plain_nil.not_granted
  | granted hcnt hrun => exact ⟨hcnt, hrun⟩
  | refused hcnt hrun => exact ⟨hcnt, hrun⟩

/-- A row is obtained only by a thread in one of the two retry loops, from the table. -/
theorem Effect.granted {w w' : Worker} {p p' : Point} {db db' : StudentTable} {a : Act}
    {out : List Event} (h : Effect w p db a w' p' db' out) {type : LockType}
    {tuple : StudentTuple} (hm : .granted type tuple ∈ out) : a = .resume ∧
      ((∃ parser conn cnt, p = .sharedRead parser conn cnt ∧
          db.traitWaitShared = (.ok tuple, db')) ∨
        ∃ parser conn cnt, p = .exclusiveRead parser conn cnt ∧
          db.traitWaitExclusive = (.ok tuple, db')) := by
  have hhead : ∀ {e : Event} {out : List Event}, Plain out → .granted type tuple ∈ e :: out →
      e = .granted type tuple := fun ho hmem => by
    rcases List.mem_cons.mp hmem with heq | hmem
    · exact heq.symm
    · exact absurd hmem ho.not_granted
  cases h with
  | stop => exact absurd hm List.not_mem_nil
  | move _ _ _ _ _ _ _ ho => exact absurd hm ho.not_granted
  | phase _ _ _ _ ho => exact absurd hm ho.not_granted
  | queue _ _ _ _ _ _ _ _ ho => exact absurd hm ho.not_granted
  | grantShared _ hp hwait _ _ ho =>
      cases hhead ho hm
      exact ⟨rfl, Or.inl ⟨_, _, _, hp, hwait⟩⟩
  | grantExclusive _ hp hwait _ _ ho =>
      cases hhead ho hm
      exact ⟨rfl, Or.inr ⟨_, _, _, hp, hwait⟩⟩
  | refuseShared _ hp hwait _ ho =>
      cases hhead ho hm
      exact ⟨rfl, Or.inl ⟨_, _, _, hp, hwait⟩⟩
  | refuseExclusive _ hp hwait _ ho =>
      cases hhead ho hm
      exact ⟨rfl, Or.inr ⟨_, _, _, hp, hwait⟩⟩
  | yield _ _ _ _ _ _ _ _ ho => cases hhead ho hm
  | promote _ _ _ _ _ _ ho => cases hhead ho hm
  | remove | free => cases hhead plain_nil hm
  | finish _ _ _ _ _ _ ho => exact absurd hm ho.not_granted

/-- A row is obtained only in a turn in which the table grants it. -/
theorem WorkerThread.grants_of_granted {th th' : WorkerThread} {db db' : StudentTable} {a : Act}
    {out : List Event} (hw : th.worker.Wf th.point) (h : th.step db a = some (th', db', out))
    {type : LockType} {tuple : StudentTuple} (hm : .granted type tuple ∈ out) :
    a = .resume ∧ th.grants db = some tuple.key := by
  obtain ⟨rfl, hcase⟩ := (step_effect hw h).granted hm
  obtain ⟨t, ht, heq⟩ := Option.map_eq_some_iff.mp h
  obtain ⟨-, -, rfl⟩ := after_eq heq
  refine ⟨rfl, ?_⟩
  unfold resume at ht
  rcases hcase with ⟨parser, conn, cnt, hp, hwait⟩ | ⟨parser, conn, cnt, hp, hwait⟩
  · rw [hp] at ht
    rw [grants, hp]
    dsimp only
    rw [if_pos ((Worker.sharedReadTurn_turn ht).granted_event hm), hwait]
  · rw [hp] at ht
    rw [grants, hp]
    dsimp only
    rw [if_pos ((Worker.exclusiveReadTurn_turn ht).granted_event hm), hwait]

/-! ## What every thread keeps of itself -/

theorem Worker.wf_init (txnId : TxnId) : (Worker.init txnId).Wf .loop where
  list := fun _ => LockList.wf_init
  queue := CommitQueue.wf_init
  entries := fun _ h => by cases h
  growing := fun _ => rfl
  placed := trivial
  ended := fun h => by cases h

/-- A request that passes its checks names a student, and to change or to delete it the list
must have the exclusive lock. -/
theorem Worker.target_some {w : Worker} (hl : w.lockList.Wf) {op : OpType} {parser : JobBuf}
    {key : UniqueKey} (h : w.target op parser = some key) :
    key.tableId = studentTableId ∧
      (op ≠ .addTuple → w.lockList.getLock key = .ok .exclusive ∧
        parser.getKey = .ok key.tupleKey) := by
  unfold target at h
  split at h
  · split at h
    · rename_i hid
      cases h
      exact ⟨hid, fun hne => absurd rfl hne⟩
    · cases h
  · rename_i hkey
    split at h
    · rename_i hlock
      cases h
      exact ⟨hlock.2, fun _ => ⟨LockList.holds_iff.mp hlock.1, hkey⟩⟩
    · cases h
  · rename_i hkey
    split at h
    · rename_i hlock
      cases h
      have hget := LockList.holds_iff.mp hlock
      exact ⟨hl.tableId_of_getLock hget, fun _ => ⟨hget, hkey⟩⟩
    · cases h
  · cases h

theorem Worker.entryFor_wf {w : Worker} (hl : w.lockList.Wf) {op : OpType} {parser : JobBuf}
    {key : UniqueKey} (h : w.target op parser = some key) (hop : op.Writes) :
    (Worker.entryFor op key parser).Wf where
  tableId := (Worker.target_some hl h).1
  writes := hop

/-- A thread that is back in its loop with another lock list, and the same queue. -/
theorem Worker.Wf.listed {w : Worker} {p : Point} (hw : w.Wf p) {l : LockList} (hl : l.Wf) :
    Worker.Wf { w with lockList := l } .loop where
  list := fun _ => hl
  queue := hw.queue
  entries := hw.entries
  growing := hw.growing
  placed := trivial
  ended := fun h => by cases h

/-- A commit that has carried out the entry at the head of its queue. -/
theorem Worker.Wf.popped {w : Worker} {p : Point} (hw : w.Wf p) {parser : JobBuf}
    {conn : ClientConn} (hp : p = .commit parser conn) (he : w.commitQueue.empty = false)
    {l : LockList} (hl : l.Wf) :
    Worker.Wf { w with lockList := l, commitQueue := w.commitQueue.pop } p := by
  obtain ⟨hpw, hpc⟩ := CommitQueue.contents_pop hw.queue he
  have hs := hw.shrinking hp
  refine ⟨fun _ => hl, hpw, fun e hmem => hw.entries e ?_, fun hg => ?_, ?_, fun hend => ?_⟩
  · rw [hpc]
    exact List.mem_cons_of_mem _ hmem
  · rw [show w.status = .growing from hg] at hs
    cases hs
  · rw [hp]
    exact hs
  · rw [hp] at hend
    cases hend

/-- **Every step of a thread keeps it well-formed.** -/
theorem Effect.wf {w w' : Worker} {p p' : Point} {db db' : StudentTable} {a : Act}
    {out : List Event} (hw : w.Wf p) (h : Effect w p db a w' p' db' out) : w'.Wf p' := by
  have hloop : Point.loop = .ended → ∀ type key, w'.lockList.heldFrom 0 type key = 0 :=
    fun h => by cases h
  cases h with
  | stop => exact hw
  | move hopen hq hl hs _ hne hp _ =>
      exact ⟨fun _ => hl ▸ hw.list hopen.active.ne_ended, hq ▸ hw.queue, hq ▸ hw.entries,
        fun hg => by rw [hq]; exact hw.growing (hs ▸ hg), hp, fun he => absurd he hne⟩
  | phase hopen hq hl hs _ =>
      exact ⟨fun _ => hl ▸ hw.list hopen.active.ne_ended, hq ▸ hw.queue, hq ▸ hw.entries,
        fun hg => absurd hg hs.ne_growing, trivial, hloop⟩
  | queue hp _ hop htarget hfull hq hl hs _ =>
      have hlist := hw.list (by simp [hp])
      obtain ⟨hsw, hsc⟩ := CommitQueue.contents_send hw.queue hfull
      -- the phase is left as the entry is queued: a worker that still grows has none
      refine ⟨fun _ => hl ▸ hlist, hq ▸ hsw, fun e he => ?_, fun hg => absurd hg hs.ne_growing,
        trivial, hloop⟩
      rw [hq, hsc] at he
      rcases List.mem_append.mp he with he | he
      · exact hw.entries e he
      · rw [List.mem_singleton.mp he]
        exact Worker.entryFor_wf hlist htarget hop
  | grantShared _ hp _ _ hrec _ => exact hw.listed (hrec.wf (hw.list (by simp [hp])))
  | grantExclusive _ hp _ _ hrec _ => exact hw.listed (hrec.wf (hw.list (by simp [hp])))
  | refuseShared _ hp => exact hw.listed (hw.list (by simp [hp]))
  | refuseExclusive _ hp => exact hw.listed (hw.list (by simp [hp]))
  | yield hp _ _ her _ hq hl hs _ =>
      exact ⟨fun _ => hl ▸ her.wf (hw.list (by simp [hp])), hq ▸ hw.queue, hq ▸ hw.entries,
        fun hg => by rw [hq]; exact hw.growing (hs ▸ hg), trivial, hloop⟩
  | promote _ hact _ _ _ hpr _ => exact hw.listed (hpr.wf (hw.list hact.ne_ended))
  | remove hp he _ _ hrm _ =>
      have hlist := hw.list (by simp [hp])
      obtain ⟨type, -, her⟩ := hlist.rmLock_some hrm
      exact hw.popped hp he (her.wf hlist)
  | free hp =>
      exact ⟨fun _ => hw.list (by simp [hp]), hw.queue, hw.entries, hw.growing, trivial,
        fun h => by cases h⟩
  | finish _ _ hl _ hc hq _ =>
      refine ⟨fun h => absurd rfl h, hq, fun e he => ?_, fun _ => hc, trivial, fun _ type key => ?_⟩
      · rw [hc] at he
        cases he
      · rw [hl]
        exact LockList.heldFrom_clear _ _ _

/-! ## What a step does to the table -/

/-- The rows of the table are left alone, one of them gets another lock word, or a commit removes
one. -/
inductive TableStep (p : Point) (db : StudentTable) : StudentTable → List Event → Prop
  | none {out : List Event} : Plain out → TableStep p db db out
  | relocked {i : Fin rows} {l : LkT} {db' : StudentTable} {e : Event} {out : List Event} :
      StudentTable.Relocked db i l db' → (∀ key, e.isRemove key = false) → Plain out →
      TableStep p db db' (e :: out)
  | removed {key : TblRow} {i : Fin rows} {db' : StudentTable} : p.isCommit = true →
      db.keyOf i = key → StudentTable.Removed db i db' → TableStep p db db' [.remove key]

section TableStep

open StudentTable

variable {w w' : Worker} {p p' : Point} {db db' : StudentTable} {a : Act} {out : List Event}

theorem Effect.tableStep (h : Effect w p db a w' p' db' out) : TableStep p db db' out := by
  cases h with
  | stop => exact .none plain_nil
  | move _ _ _ _ _ _ _ hout => exact .none hout
  | phase _ _ _ _ hout => exact .none hout
  | queue _ _ _ _ _ _ _ _ hout => exact .none hout
  | grantShared _ _ hwait _ _ hout =>
      obtain ⟨i, -, -, -, hrel⟩ := traitWaitShared_ok hwait
      exact .relocked hrel (fun _ => rfl) hout
  | grantExclusive _ _ hwait _ _ hout =>
      obtain ⟨i, -, -, -, hrel⟩ := traitWaitExclusive_ok hwait
      exact .relocked hrel (fun _ => rfl) hout
  | refuseShared _ _ hwait _ hout =>
      obtain ⟨i, -, -, -, hrel⟩ := traitWaitShared_ok hwait
      exact .relocked hrel (fun _ => rfl) hout
  | refuseExclusive _ _ hwait _ hout =>
      obtain ⟨i, -, -, -, hrel⟩ := traitWaitExclusive_ok hwait
      exact .relocked hrel (fun _ => rfl) hout
  | yield _ _ _ _ hrelease _ _ _ hout =>
      obtain ⟨i, -, hrel⟩ := traitRelease_some hrelease
      exact .relocked hrel (fun _ => rfl) hout
  | promote _ _ _ _ hprom _ hout =>
      obtain ⟨i, -, -, hrel⟩ := traitPromote_ok hprom
      exact .relocked hrel (fun _ => rfl) hout
  | remove hp _ _ _ _ hremove =>
      obtain ⟨i, hseek, hrm⟩ := traitRemove_some hremove
      exact .removed (by rw [hp]; rfl) (keyAt_iff.mp (Probing.seek_holds hseek)).1 hrm
  | free _ _ _ hrelease =>
      obtain ⟨i, -, hrel⟩ := traitRelease_some hrelease
      exact .relocked hrel (fun _ => rfl) plain_nil
  | finish _ _ _ _ _ _ hout => exact .none hout

/-- **What a step does to the rows**: live rows stay or disappear. -/
theorem Effect.fewer (h : Effect w p db a w' p' db' out) : Fewer db db' := by
  cases h.tableStep with
  | none => exact Fewer.refl _
  | relocked hrel => exact Fewer.of_relocked hrel
  | removed _ _ hrm => exact Fewer.of_removed hrm

end TableStep

end PawnDB
