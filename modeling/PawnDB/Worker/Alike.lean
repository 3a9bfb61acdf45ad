import PawnDB.Worker.Effects

set_option autoImplicit false

/-! # A worker does not look behind the message

Pool buffers are reused as they are, so behind the received bytes of a job lie those of earlier
messages, and a queued entry keeps the whole buffer although only its tuple is ever used. Two
workers are `Alike` if they differ in nothing else.

`WorkerThread.resume_alike` is about the turns of a thread: they take alike threads to alike
threads and send the same. What a worker makes of a job that it receives depends on how much of
the header lies within the message, and `Worker.received_alike` says how much has to.
-/

namespace PawnDB

open Bytes

/-! ## Replies -/

theorem take_setAck {k size : Nat} {jb jb' : JobBuf} (h : Agree k jb.buffer jb'.buffer)
    (hs : size ≤ k ∨ 6 ≤ k ∧ size ≤ 7) (ack : OpAck) :
    take (jb'.setAck ack).buffer size = take (jb.setAck ack).buffer size := by
  rcases hs with hs | ⟨hk, hs⟩
  · exact ((h.mono hs).poke_same _).take.symm
  · -- the byte at position 6 is the acknowledgement itself
    have h7 : Agree (max k 7) (jb.setAck ack).buffer (jb'.setAck ack).buffer :=
      h.poke (byte ack.code) hk
    exact (h7.mono (by omega)).take.symm

theorem sent_congr {k size : Nat} {jb jb' : JobBuf} (h : Agree k jb.buffer jb'.buffer)
    (hs : size ≤ k ∨ 6 ≤ k ∧ size ≤ 7) (ack : OpAck) (conn : ClientConn) :
    (reply ack jb' size conn).2 = (reply ack jb size conn).2 := by
  rw [reply, reply, take_setAck h hs]

theorem answer_congr {k size : Nat} {jb jb' : JobBuf} (h : Agree k jb.buffer jb'.buffer)
    (hs : size ≤ k ∨ 6 ≤ k ∧ size ≤ 7) (ack : OpAck) (conn : ClientConn) :
    answer ack jb' size conn = answer ack jb size conn := by
  rw [answer, answer, sent_congr h hs]

variable {jb jb' : JobBuf}

/-- A reply of the seven bytes up to the acknowledgement. -/
theorem answer_header (h : jb.Same jb') (hs : 6 ≤ jb.bufferSize) (ack : OpAck)
    (conn : ClientConn) : answer ack jb' 7 conn = answer ack jb 7 conn :=
  answer_congr h.bytes (Or.inr ⟨hs, le_rfl⟩) ack conn

/-- A reply that is as long as the message. -/
theorem answer_message (h : jb.Same jb') (ack : OpAck) (conn : ClientConn) :
    answer ack jb' jb'.bufferSize conn = answer ack jb jb.bufferSize conn := by
  rw [h.size]
  exact answer_congr h.bytes (Or.inl le_rfl) ack conn

/-- A reply with a row: the header comes from the message and the rest is written over. -/
theorem answerRow_congr (h : jb.Same jb') (hs : 8 ≤ jb.bufferSize) (tuple : StudentTuple)
    (conn : ClientConn) :
    Worker.answerRow tuple jb' conn = Worker.answerRow tuple jb conn := by
  have hkey : Agree 9 (jb.setKey tuple.key).buffer (jb'.setKey tuple.key).buffer :=
    ((h.bytes.mono hs).poke (byte tuple.key) le_rfl).mono (by decide)
  have hname := (hkey.poke tuple.name le_rfl).mono (show 41 ≤ max 9 (9 + nameLength) by decide)
  have hage := (hname.poke (byte tuple.age) le_rfl).mono (show 42 ≤ max 41 (41 + 1) by decide)
  have hsum := (hage.poke (le32 tuple.checksum) le_rfl).mono (show 46 ≤ max 42 (42 + 4) by decide)
  exact answer_congr hsum (Or.inl le_rfl) _ _

/-! ## Queued entries -/

/-- What a commit uses of an entry. -/
def Commit.content (e : Commit) : UniqueKey × OpType × Option StudentTuple :=
  (e.key, e.op, e.buffer.map StudentTuple.copyFrom)

/-- What is left of the entries once they are destroyed is the same. -/
theorem Commit.destroyed_congr {e e' : Commit} (h : e'.content = e.content) :
    e'.destroyed = e.destroyed := by
  simp only [content, Prod.mk.injEq] at h
  simp only [destroyed, h.1, h.2.1]

namespace CommitQueue

/-- The entries differ at most in what lies behind their tuples. -/
structure Alike (q q' : CommitQueue) : Prop where
  content : ∀ i, (q'.commits i).content = (q.commits i).content
  head : q'.head = q.head
  tail : q'.tail = q.tail
  size : q'.size = q.size

namespace Alike

variable {q q' : CommitQueue}

theorem refl (q : CommitQueue) : q.Alike q := ⟨fun _ => rfl, rfl, rfl, rfl⟩

theorem full (h : q.Alike q') : q'.full = q.full := by rw [CommitQueue.full, h.size]; rfl

theorem empty (h : q.Alike q') : q'.empty = q.empty := by rw [CommitQueue.empty, h.size]; rfl

theorem get (h : q.Alike q') : q'.get.content = q.get.content := by
  rw [CommitQueue.get, h.tail, h.content]
  rfl

theorem pop (h : q.Alike q') : q.pop.Alike q'.pop where
  content := h.content
  head := h.head
  tail := congrArg (· + 1) h.tail
  size := congrArg (· - 1) h.size

theorem pops (h : q.Alike q') (n : Nat) :
    (CommitQueue.pop^[n] q).Alike (CommitQueue.pop^[n] q') := by
  induction n generalizing q q' with
  | zero => exact h
  | succ n ih => exact ih h.pop

theorem send {e e' : Commit} (h : q.Alike q') (he : e'.content = e.content) :
    (q'.send e').1 = (q.send e).1 ∧ (q.send e).2.Alike (q'.send e').2 := by
  unfold CommitQueue.send
  rw [h.full]
  split
  · exact ⟨rfl, h⟩
  · refine ⟨rfl, fun i => ?_, congrArg (· + 1) h.head, h.tail, congrArg (· + 1) h.size⟩
    dsimp only
    rw [h.head]
    by_cases hi : i = q.head
    · rw [hi, Slots.set_self, Slots.set_self, he]
    · rw [Slots.set_of_ne _ _ hi, Slots.set_of_ne _ _ hi, h.content]

end Alike

end CommitQueue

/-! ## Workers, points and turns -/

/-- The workers differ at most in what lies behind the tuples of their queued entries. -/
structure Worker.Alike (w w' : Worker) : Prop where
  txnId : w'.txnId = w.txnId
  timeoutCnt : w'.timeoutCnt = w.timeoutCnt
  commitQueue : w.commitQueue.Alike w'.commitQueue
  status : w'.status = w.status
  lockList : w'.lockList = w.lockList

/-- The threads have got equally far with the same message. One that waits for a row has read
the table id, so that the header up to it has been received. -/
inductive Point.Alike : Point → Point → Prop
  | loop : Alike .loop .loop
  | recv : Alike .recv .recv
  | sharedRead {jb jb' : JobBuf} (conn : ClientConn) (cnt : Nat) :
      jb.Same jb' → 8 ≤ jb.bufferSize → Alike (.sharedRead jb conn cnt) (.sharedRead jb' conn cnt)
  | exclusiveRead {jb jb' : JobBuf} (conn : ClientConn) (cnt : Nat) : jb.Same jb' →
      8 ≤ jb.bufferSize → Alike (.exclusiveRead jb conn cnt) (.exclusiveRead jb' conn cnt)
  | promote {jb jb' : JobBuf} (conn : ClientConn) (key : TblRow) (cnt : Nat) : jb.Same jb' →
      8 ≤ jb.bufferSize → Alike (.promote jb conn key cnt) (.promote jb' conn key cnt)
  | commit {jb jb' : JobBuf} (conn : ClientConn) :
      jb.Same jb' → Alike (.commit jb conn) (.commit jb' conn)
  | release (idx : Nat) : Alike (.release idx) (.release idx)
  | ended : Alike .ended .ended

/-- The turns do and send the same. -/
structure Turn.Alike (t t' : Turn) : Prop where
  worker : t.worker.Alike t'.worker
  point : t.point.Alike t'.point
  db : t'.db = t.db
  out : t'.out = t.out

namespace Worker

variable {w w' : Worker} {running : Bool} {db : StudentTable} {conn : ClientConn}

theorem Alike.refl (w : Worker) : w.Alike w := ⟨rfl, rfl, CommitQueue.Alike.refl _, rfl, rfl⟩

theorem Alike.setStatus (h : w.Alike w') (status : TxnStatus) :
    Alike { w with status := status } { w' with status := status } :=
  ⟨h.txnId, h.timeoutCnt, h.commitQueue, rfl, h.lockList⟩

theorem Alike.setLockList (h : w.Alike w') (lockList : LockList) :
    Alike { w with lockList := lockList } { w' with lockList := lockList } :=
  ⟨h.txnId, h.timeoutCnt, h.commitQueue, h.status, rfl⟩

theorem Alike.setCommitQueue (h : w.Alike w') {q q' : CommitQueue} (hq : q.Alike q') :
    Alike { w with commitQueue := q } { w' with commitQueue := q' } :=
  ⟨h.txnId, h.timeoutCnt, hq, h.status, h.lockList⟩

theorem Alike.setTimeoutCnt (h : w.Alike w') (cnt : UInt8) :
    Alike { w with timeoutCnt := cnt } { w' with timeoutCnt := cnt } :=
  ⟨h.txnId, rfl, h.commitQueue, h.status, h.lockList⟩

theorem Alike.leaveGrowing (h : w.Alike w') : w.leaveGrowing.Alike w'.leaveGrowing := by
  rw [Worker.leaveGrowing, Worker.leaveGrowing, h.status]
  exact h.setStatus _

theorem Alike.clearCommitQueue (h : w.Alike w') :
    w.clearCommitQueue.Alike w'.clearCommitQueue := by
  rw [Worker.clearCommitQueue, Worker.clearCommitQueue, h.commitQueue.size]
  exact h.setCommitQueue (h.commitQueue.pops _)

/-! ## The turns of a thread -/

theorem sharedReadTurn_alike (hw : w.Alike w') (h : jb.Same jb') (hs : 8 ≤ jb.bufferSize)
    (cnt : Nat) : Option.Rel Turn.Alike (w.sharedReadTurn running db jb conn cnt)
      (w'.sharedReadTurn running db jb' conn cnt) := by
  unfold sharedReadTurn
  by_cases hcnt : maxTimeoutRetry ≤ cnt
  · rw [if_pos hcnt, if_pos hcnt]
    exact .some ⟨hw, .loop, rfl, answer_header h (by omega) _ _⟩
  rw [if_neg hcnt, if_neg hcnt]
  cases running with
  | false => exact .some ⟨hw.setStatus _, .loop, rfl, answer_header h (by omega) _ _⟩
  | true =>
      simp only [Bool.not_true, Bool.false_eq_true, if_false]
      rcases db.traitWaitShared with ⟨e | tuple, db'⟩
      · exact .some ⟨hw, .sharedRead conn _ h hs, rfl, rfl⟩
      · dsimp only
        rw [hw.lockList]
        rcases w.lockList.addLock ⟨studentTableId, tuple.key⟩ .shared with _ | ⟨e, l⟩
        · exact .none
        · have hrow := answerRow_congr h hs tuple conn
          have hrow' := answerRow_congr (h.setField (byte OpAck.badAccess.code) .ack) hs tuple conn
          have hbad := answer_header h (by omega) .badAccess conn
          cases e with
          | none => exact .some ⟨hw.setLockList _, .loop, rfl, congrArg (_ :: ·) hrow⟩
          | full | notFound | conflict =>
              refine .some ⟨hw.setLockList _, .loop, rfl, congrArg (_ :: ·) ?_⟩
              rw [hbad]
              exact congrArg (_ ++ ·) hrow'

theorem exclusiveReadTurn_alike (hw : w.Alike w') (h : jb.Same jb') (hs : 8 ≤ jb.bufferSize)
    (cnt : Nat) : Option.Rel Turn.Alike (w.exclusiveReadTurn running db jb conn cnt)
      (w'.exclusiveReadTurn running db jb' conn cnt) := by
  unfold exclusiveReadTurn
  by_cases hcnt : maxTimeoutRetry ≤ cnt
  · rw [if_pos hcnt, if_pos hcnt]
    exact .some ⟨hw, .loop, rfl, answer_header h (by omega) _ _⟩
  rw [if_neg hcnt, if_neg hcnt]
  cases running with
  | false => exact .some ⟨hw.setStatus _, .loop, rfl, answer_header h (by omega) _ _⟩
  | true =>
      simp only [Bool.not_true, Bool.false_eq_true, if_false]
      rcases db.traitWaitExclusive with ⟨e | tuple, db'⟩
      · exact .some ⟨hw, .exclusiveRead conn _ h hs, rfl, rfl⟩
      · dsimp only
        rw [hw.lockList]
        rcases w.lockList.addLock ⟨studentTableId, tuple.key⟩ .exclusive with _ | ⟨e, l⟩
        · exact .none
        · have hrow := answerRow_congr h hs tuple conn
          have hbad := answer_header h (by omega) .badAccess conn
          cases e with
          | none => exact .some ⟨hw.setLockList _, .loop, rfl, congrArg (_ :: ·) hrow⟩
          | full | notFound | conflict =>
              exact .some ⟨hw.setLockList _, .loop, rfl, congrArg (_ :: ·) hbad⟩

theorem promoteTurn_alike (hw : w.Alike w') (h : jb.Same jb') (hs : 8 ≤ jb.bufferSize)
    (key : TblRow) (cnt : Nat) : Option.Rel Turn.Alike (w.promoteTurn running db jb conn key cnt)
      (w'.promoteTurn running db jb' conn key cnt) := by
  unfold promoteTurn
  by_cases hcnt : maxTimeoutRetry ≤ cnt
  · rw [if_pos hcnt, if_pos hcnt]
    exact .some ⟨hw.setStatus _, .loop, rfl, answer_header h (by omega) _ _⟩
  rw [if_neg hcnt, if_neg hcnt]
  cases running with
  | false => exact .some ⟨hw, .loop, rfl, answer_header h (by omega) _ _⟩
  | true =>
      simp only [Bool.not_true, Bool.false_eq_true, if_false]
      rcases db.traitPromote key with _ | ⟨e | _, db'⟩
      · exact .none
      · exact .some ⟨hw, .promote conn key _ h hs, rfl, rfl⟩
      · dsimp only
        rw [hw.lockList]
        rcases w.lockList.promoteLock ⟨studentTableId, key⟩ with _ | l
        · exact .none
        · exact .some ⟨hw.setLockList _, .loop, rfl, congrArg (_ :: ·) (answer_message h _ _)⟩

theorem commitTurn_alike (hw : w.Alike w') (h : jb.Same jb') :
    Option.Rel Turn.Alike (w.commitTurn db jb conn) (w'.commitTurn db jb' conn) := by
  unfold commitTurn
  rw [hw.commitQueue.empty, hw.lockList, Commit.destroyed_congr hw.commitQueue.get]
  by_cases hempty : w.commitQueue.empty = true
  · rw [if_pos hempty, if_pos hempty]
    exact .some ⟨hw, .release 0, rfl, answer_message h _ _⟩
  rw [if_neg hempty, if_neg hempty]
  rcases applyEntry w.lockList db w.commitQueue.get.destroyed with _ | ⟨l, db', out⟩
  · exact .none
  · exact .some ⟨(hw.setLockList l).setCommitQueue hw.commitQueue.pop, .commit conn h, rfl, rfl⟩

theorem releaseTurn_alike (hw : w.Alike w') (idx : Nat) :
    Option.Rel Turn.Alike (w.releaseTurn db idx) (w'.releaseTurn db idx) := by
  unfold releaseTurn
  rw [hw.lockList, hw.txnId]
  rcases w.lockList.advanceToValid idx with _ | i
  · exact .some ⟨Alike.clearCommitQueue ⟨rfl, hw.timeoutCnt, hw.commitQueue, hw.status, rfl⟩,
      .ended, rfl, rfl⟩
  · dsimp only
    split
    · rcases db.traitRelease (w.lockList.locks i).key.tupleKey with _ | db'
      · exact .none
      · exact .some ⟨hw, .release _, rfl, rfl⟩
    · exact .some ⟨hw, .release _, rfl, rfl⟩

end Worker

/-- The threads differ at most in what lies behind messages. -/
structure WorkerThread.Alike (th th' : WorkerThread) : Prop where
  worker : th.worker.Alike th'.worker
  running : th'.running = th.running
  point : th.point.Alike th'.point

/-- **The turns of alike threads are alike.** -/
theorem WorkerThread.resume_alike {th th' : WorkerThread} (h : th.Alike th') (db : StudentTable) :
    Option.Rel Turn.Alike (th.resume db) (th'.resume db) := by
  obtain ⟨w, running, p⟩ := th
  obtain ⟨w', running', p'⟩ := th'
  obtain ⟨hw, rfl, hp⟩ := h
  cases hp with
  | loop =>
      refine .some ⟨hw, ?_, rfl, rfl⟩
      cases running' with
      | true => exact .recv
      | false => exact .release 0
  | recv => exact .none
  | sharedRead conn cnt hjb hs => exact Worker.sharedReadTurn_alike hw hjb hs cnt
  | exclusiveRead conn cnt hjb hs => exact Worker.exclusiveReadTurn_alike hw hjb hs cnt
  | promote conn key cnt hjb hs => exact Worker.promoteTurn_alike hw hjb hs key cnt
  | commit conn hjb => exact Worker.commitTurn_alike hw hjb
  | release idx => exact Worker.releaseTurn_alike hw idx
  | ended => exact .none

/-! ## Receiving a job -/

theorem JobBuf.le_of_getTbl {tableId : TpId} (h : jb.getTbl = .ok tableId) :
    8 ≤ jb.bufferSize := by
  unfold JobBuf.getTbl at h
  split at h
  · cases h
  · next hraw => exact JobBuf.pos_le_of_parseField hraw

namespace Worker

variable {w w' : Worker} {db : StudentTable} {conn : ClientConn}

/-- The tuple in a message that is long enough for it. -/
theorem tupleOf_congr (h : jb.Same jb') (hs : 46 ≤ jb.bufferSize) :
    tupleOf jb' = tupleOf jb := by
  have hb : Agree 46 jb.buffer jb'.buffer := h.bytes.mono hs
  have hname := hb.slice (show FieldOffset.tuple.pos + nameLength ≤ 46 by decide)
  have hage := hb _ (show FieldOffset.tuple.pos + nameLength < 46 by decide)
  have hsum := hb.slice (show FieldOffset.tuple.pos + nameLength + 1 + 4 ≤ 46 by decide)
  simp only [tupleOf, StudentTuple.traitDeserialize, JobBuf.getTupleOffset]
  rw [hname, hage, hsum]

theorem traitDeserialize_eq (jb : JobBuf) :
    StudentTuple.empty.traitDeserialize jb.buffer jb.getTupleOffset
      = (.ok StudentTuple.serialSize, tupleOf jb) := rfl

theorem target_congr (hw : w.Alike w') (h : jb.Same jb') (op : OpType) :
    w'.target op jb' = w.target op jb := by
  unfold target
  rw [h.getTbl, h.getKey, hw.lockList]

/-- How many bytes have to be received for the answer to depend on nothing else: the header up
to the acknowledgement, which is written over; less of it where the reply is no longer than the
message or has another field written over; and the whole tuple if it is queued. -/
def needs (w : Worker) (parser : JobBuf) : Nat :=
  match parser.getOp with
  | .ok .startTxn => 2
  | .ok .commitTxn => if w.status = .shrinking then 0 else 6
  | .ok .addTuple => if (w.target .addTuple parser).isSome then 46 else 6
  | .ok .update => if (w.target .update parser).isSome then 46 else 6
  | _ => 6

/-- The answer to a request whose tuple finds no room in the queue: the buffer has the tuple at its
start already. -/
theorem answer_copyTo (tuple : StudentTuple) (ack : OpAck) (jb jb' : JobBuf) (conn : ClientConn) :
    answer ack { jb' with buffer := tuple.copyTo jb'.buffer } 7 conn
      = answer ack { jb with buffer := tuple.copyTo jb.buffer } 7 conn := by
  have h0 : Agree 0 jb.buffer jb'.buffer := fun i hi => absurd hi (Nat.not_lt_zero i)
  exact answer_congr (h0.poke tuple.objectBytes le_rfl) (Or.inl (by decide)) ack conn

theorem processAdd_alike (hw : w.Alike w') (h : jb.Same jb') (hs : 6 ≤ jb.bufferSize)
    (ht : (w.target .addTuple jb).isSome → 46 ≤ jb.bufferSize) :
    (w.processAdd jb conn).1.Alike (w'.processAdd jb' conn).1 ∧
      (w'.processAdd jb' conn).2 = (w.processAdd jb conn).2 := by
  have hg := hw.leaveGrowing
  unfold processAdd
  dsimp only
  rw [h.getTbl]
  cases htbl : jb.getTbl with
  | error e => exact ⟨hg, answer_header h hs _ _⟩
  | ok tableId =>
      dsimp only
      by_cases hid : tableId = studentTableId
      · rw [if_pos hid, if_pos hid]
        have htuple := tupleOf_congr h (ht (by simp [target, htbl, hid]))
        have hsent : (reply .success jb' jb'.bufferSize conn).2
            = (reply .success jb jb.bufferSize conn).2 := by
          rw [h.size]
          exact sent_congr h.bytes (Or.inl le_rfl) _ _
        rw [traitDeserialize_eq, traitDeserialize_eq, htuple]
        dsimp only
        rw [hsent]
        cases hfull : w.commitQueue.full with
        | true =>
            have hq : ∀ e, w.leaveGrowing.commitQueue.send e = (.full, w.commitQueue) :=
              fun e => CommitQueue.send_of_full hfull
            have hq' : ∀ e, w'.leaveGrowing.commitQueue.send e = (.full, w'.commitQueue) :=
              fun e => CommitQueue.send_of_full (hw.commitQueue.full.trans hfull)
            rw [hq, hq']
            exact ⟨hg, congrArg (_ :: ·) (answer_copyTo _ _ _ _ _)⟩
        | false =>
            have hq : ∀ e, w.leaveGrowing.commitQueue.send e
                = (.none, (w.commitQueue.send e).2) := fun e => send_eq hfull
            have hq' : ∀ e, w'.leaveGrowing.commitQueue.send e
                = (.none, (w'.commitQueue.send e).2) :=
              fun e => send_eq (hw.commitQueue.full.trans hfull)
            rw [hq, hq']
            refine ⟨hg.setCommitQueue (hw.commitQueue.send ?_).2, rfl⟩
            simp [Commit.content]
      · rw [if_neg hid, if_neg hid]
        exact ⟨hg, answer_header h hs _ _⟩

theorem processUpdate_alike (hw : w.Alike w') (h : jb.Same jb') (hs : 6 ≤ jb.bufferSize)
    (ht : (w.target .update jb).isSome → 46 ≤ jb.bufferSize) :
    (w.processUpdate jb conn).1.Alike (w'.processUpdate jb' conn).1 ∧
      (w'.processUpdate jb' conn).2 = (w.processUpdate jb conn).2 := by
  have hg := hw.leaveGrowing
  have hheader := fun ack => answer_header h hs ack conn
  unfold processUpdate
  dsimp only
  rw [h.getTbl, h.getKey, congrArg LockList.holds hg.lockList]
  cases htbl : jb.getTbl with
  | error e => exact ⟨hg, hheader _⟩
  | ok tableId =>
      dsimp only
      cases hkey : jb.getKey with
      | error e => exact ⟨hg, hheader _⟩
      | ok tupleKey =>
          dsimp only
          by_cases hlock : w.leaveGrowing.lockList.holds ⟨tableId, tupleKey⟩ .exclusive = true
          swap
          · rw [if_neg hlock, if_neg hlock]
            exact ⟨hg, hheader _⟩
          rw [if_pos hlock, if_pos hlock]
          by_cases hid : tableId = studentTableId
          swap
          · rw [if_neg hid, if_neg hid]
            exact ⟨hg, hheader _⟩
          rw [if_pos hid, if_pos hid]
          have hlock' : w.lockList.holds ⟨tableId, tupleKey⟩ .exclusive = true := hlock
          -- the checks are passed, so the tuple data is in both buffers
          have htuple := tupleOf_congr h (ht (by
            simp only [target, htbl, hkey]
            rw [if_pos ⟨hlock', hid⟩]
            rfl))
          have hsent := sent_congr h.bytes (Or.inr ⟨hs, le_rfl⟩) .success conn
          rw [traitDeserialize_eq, traitDeserialize_eq, htuple]
          dsimp only
          rw [hsent]
          -- the acknowledgement goes out before the entry is queued
          cases hfull : w.commitQueue.full with
          | true =>
              have hq : ∀ e, w.leaveGrowing.commitQueue.send e = (.full, w.commitQueue) :=
                fun e => CommitQueue.send_of_full hfull
              have hq' : ∀ e, w'.leaveGrowing.commitQueue.send e = (.full, w'.commitQueue) :=
                fun e => CommitQueue.send_of_full (hw.commitQueue.full.trans hfull)
              rw [hq, hq']
              exact ⟨hg, congrArg (_ :: ·) (answer_copyTo _ _ _ _ _)⟩
          | false =>
              have hq : ∀ e, w.leaveGrowing.commitQueue.send e
                  = (.none, (w.commitQueue.send e).2) := fun e => send_eq hfull
              have hq' : ∀ e, w'.leaveGrowing.commitQueue.send e
                  = (.none, (w'.commitQueue.send e).2) :=
                fun e => send_eq (hw.commitQueue.full.trans hfull)
              rw [hq, hq']
              refine ⟨hg.setCommitQueue (hw.commitQueue.send ?_).2, rfl⟩
              simp [Commit.content]

theorem processRm_alike (hw : w.Alike w') (h : jb.Same jb') (hs : 6 ≤ jb.bufferSize) :
    (w.processRm jb conn).1.Alike (w'.processRm jb' conn).1 ∧
      (w'.processRm jb' conn).2 = (w.processRm jb conn).2 := by
  have hg := hw.leaveGrowing
  have hheader := fun ack => answer_header h hs ack conn
  unfold processRm
  dsimp only
  rw [h.getTbl, h.getKey, congrArg LockList.holds hg.lockList]
  cases jb.getTbl with
  | error e => exact ⟨hg, hheader _⟩
  | ok tableId =>
      dsimp only
      cases jb.getKey with
      | error e => exact ⟨hg, hheader _⟩
      | ok tupleKey =>
          dsimp only
          by_cases hlock : w.leaveGrowing.lockList.holds ⟨tableId, tupleKey⟩ .exclusive = true
          swap
          · rw [if_neg hlock, if_neg hlock]
            exact ⟨hg, hheader _⟩
          rw [if_pos hlock, if_pos hlock]
          cases hfull : w.commitQueue.full with
          | true =>
              have hq : ∀ e, w.leaveGrowing.commitQueue.send e = (.full, w.commitQueue) :=
                fun e => CommitQueue.send_of_full hfull
              have hq' : ∀ e, w'.leaveGrowing.commitQueue.send e = (.full, w'.commitQueue) :=
                fun e => CommitQueue.send_of_full (hw.commitQueue.full.trans hfull)
              rw [hq, hq']
              exact ⟨hg, hheader _⟩
          | false =>
              have hq : ∀ e, w.leaveGrowing.commitQueue.send e
                  = (.none, (w.commitQueue.send e).2) := fun e => send_eq hfull
              have hq' : ∀ e, w'.leaveGrowing.commitQueue.send e
                  = (.none, (w'.commitQueue.send e).2) :=
                fun e => send_eq (hw.commitQueue.full.trans hfull)
              rw [hq, hq']
              exact ⟨hg.setCommitQueue (hw.commitQueue.send rfl).2, answer_message h _ _⟩

theorem processRead_alike {enter enter' : Point} (hw : w.Alike w') (h : jb.Same jb')
    (hs : 6 ≤ jb.bufferSize) (he : 8 ≤ jb.bufferSize → enter.Alike enter') :
    (w.processRead enter jb conn).1.Alike (w'.processRead enter' jb' conn).1 ∧
      (w'.processRead enter' jb' conn).2 = (w.processRead enter jb conn).2 := by
  have hheader := fun ack => answer_header h hs ack conn
  unfold processRead
  rw [hw.status, h.getTbl]
  by_cases hphase : w.status ≠ .growing
  · rw [if_pos hphase, if_pos hphase]
    exact ⟨.loop, hheader _⟩
  rw [if_neg hphase, if_neg hphase]
  cases htbl : jb.getTbl with
  | error e => exact ⟨.loop, hheader _⟩
  | ok tableId =>
      dsimp only
      by_cases hid : tableId = studentTableId
      · rw [if_pos hid, if_pos hid]
        exact ⟨he (JobBuf.le_of_getTbl htbl), rfl⟩
      · rw [if_neg hid, if_neg hid]
        exact ⟨.loop, hheader _⟩

theorem processPromote_alike (hw : w.Alike w') (h : jb.Same jb') (hs : 6 ≤ jb.bufferSize) :
    (w.processPromote jb conn).1.Alike (w'.processPromote jb' conn).1 ∧
      (w'.processPromote jb' conn).2 = (w.processPromote jb conn).2 := by
  have hheader := fun ack => answer_header h hs ack conn
  unfold processPromote
  rw [hw.status, h.getTbl, h.getKey, hw.lockList]
  by_cases hphase : w.status ≠ .growing
  · rw [if_pos hphase, if_pos hphase]
    exact ⟨.loop, hheader _⟩
  rw [if_neg hphase, if_neg hphase]
  cases htbl : jb.getTbl with
  | error e => exact ⟨.loop, hheader _⟩
  | ok tableId =>
      dsimp only
      cases jb.getKey with
      | error e => exact ⟨.loop, hheader _⟩
      | ok tupleKey =>
          dsimp only
          split
          · split
            · exact ⟨.promote conn tupleKey 0 h (JobBuf.le_of_getTbl htbl), rfl⟩
            · exact ⟨.loop, hheader _⟩
          · exact ⟨.loop, hheader _⟩

theorem processYield_alike (hw : w.Alike w') (h : jb.Same jb') (hs : 6 ≤ jb.bufferSize) :
    Option.Rel (fun r r' => r.1.Alike r'.1 ∧ r'.2 = r.2) (w.processYield db jb conn)
      (w'.processYield db jb' conn) := by
  have hheader := fun ack => answer_header h hs ack conn
  unfold processYield
  rw [h.getTbl, h.getKey]
  by_cases hphase : w.status ≠ .growing
  · rw [if_pos hphase, if_pos (hw.status ▸ hphase)]
    exact .some ⟨hw, congrArg (Prod.mk db) (hheader _)⟩
  rw [if_neg hphase, if_neg (hw.status ▸ hphase)]
  cases jb.getTbl with
  | error e => exact .some ⟨hw, congrArg (Prod.mk db) (hheader _)⟩
  | ok tableId =>
  cases jb.getKey with
  | error e => exact .some ⟨hw, congrArg (Prod.mk db) (hheader _)⟩
  | ok tupleKey =>
      dsimp only
      rw [hw.lockList]
      by_cases hlock : w.lockList.holds ⟨tableId, tupleKey⟩ .shared = true
      swap
      · rw [if_neg hlock, if_neg hlock]
        exact .some ⟨hw, congrArg (Prod.mk db) (hheader _)⟩
      rw [if_pos hlock, if_pos hlock]
      rcases w.lockList.rmLock ⟨tableId, tupleKey⟩ with _ | l
      · exact .none
      dsimp only
      split
      · rcases db.traitRelease tupleKey with _ | db'
        · exact .none
        · exact .some ⟨hw.setLockList l,
            congrArg (fun out => (db', .released tupleKey :: out)) (answer_message h _ _)⟩
      · exact .some ⟨hw.setLockList l, congrArg (Prod.mk db) (hheader _)⟩

theorem processCommit_alike (hw : w.Alike w') (h : jb.Same jb')
    (hs : w.status ≠ .shrinking → 6 ≤ jb.bufferSize) :
    (w.processCommit jb conn).1.Alike (w'.processCommit jb' conn).1 ∧
      (w'.processCommit jb' conn).2 = (w.processCommit jb conn).2 := by
  unfold processCommit
  rw [hw.status]
  by_cases hphase : w.status ≠ .shrinking
  · rw [if_pos hphase, if_pos hphase]
    exact ⟨.release 0, answer_header h (hs hphase) _ _⟩
  · rw [if_neg hphase, if_neg hphase]
    exact ⟨.commit conn h, rfl⟩

/-- The reply to `START_TXN`: the transaction id is written over too. -/
theorem answer_setTxn (h : jb.Same jb') (hs : 2 ≤ jb.bufferSize) (txnId : TxnId) (ack : OpAck) :
    answer ack (jb'.setTxn txnId) 7 conn = answer ack (jb.setTxn txnId) 7 conn :=
  answer_congr ((h.bytes.mono hs).poke (le32 txnId) le_rfl) (Or.inr (by decide)) ack conn

/-- **What a worker makes of a job** whose message is as long as it needs to be. -/
theorem dispatch_alike {job job' : Job} (hw : w.Alike w') (h : job.buf.Same job'.buf)
    (hconn : job'.conn = job.conn) (hn : w.needs job.buf ≤ job.buf.bufferSize) :
    Option.Rel Turn.Alike (w.dispatch db job) (w'.dispatch db job') := by
  -- an answer that only changes the header copies the same six bytes from both requests
  have hheader : 6 ≤ job.buf.bufferSize → ∀ ack,
      answer ack job'.buf 7 job.conn = answer ack job.buf 7 job.conn :=
    fun hs ack => answer_header h hs ack job.conn
  unfold dispatch
  unfold needs at hn
  dsimp only
  rw [h.getOp, hconn]
  cases hop : job.buf.getOp with
  | error e =>
      rw [hop] at hn
      exact .some ⟨hw, .loop, rfl, hheader hn _⟩
  | ok op =>
      rw [hop] at hn
      cases op with
      | startTxn =>
          refine .some ⟨hw, .loop, rfl, ?_⟩
          rw [hw.txnId]
          exact answer_setTxn h hn _ _
      | addTuple =>
          have hs : 6 ≤ job.buf.bufferSize := by
            dsimp only at hn
            split at hn <;> omega
          obtain ⟨h1, h2⟩ := processAdd_alike hw h hs fun ht => by
            dsimp only at hn
            rwa [if_pos ht] at hn
          exact .some ⟨h1, .loop, rfl, h2⟩
      | sharedRead =>
          obtain ⟨h1, h2⟩ := processRead_alike hw h hn fun hs =>
            Point.Alike.sharedRead job.conn 0 h hs
          exact .some ⟨hw, h1, rfl, h2⟩
      | exclusiveRead =>
          obtain ⟨h1, h2⟩ := processRead_alike hw h hn fun hs =>
            Point.Alike.exclusiveRead job.conn 0 h hs
          exact .some ⟨hw, h1, rfl, h2⟩
      | yieldRead =>
          have hy : Option.Rel _ (w.processYield db job.buf job.conn)
              (w'.processYield db job'.buf job.conn) := processYield_alike hw h hn
          -- the yield may fail on the table; it then fails in both runs
          generalize w.processYield db job.buf job.conn = r at hy ⊢
          generalize w'.processYield db job'.buf job.conn = r' at hy ⊢
          cases hy with
          | none => exact .none
          | some hrel =>
              obtain ⟨h1, h2⟩ := hrel
              exact .some ⟨h1, .loop, congrArg Prod.fst h2, congrArg Prod.snd h2⟩
      | promote =>
          obtain ⟨h1, h2⟩ := processPromote_alike hw h hn
          exact .some ⟨hw, h1, rfl, h2⟩
      | update =>
          have hs : 6 ≤ job.buf.bufferSize := by
            dsimp only at hn
            split at hn <;> omega
          obtain ⟨h1, h2⟩ := processUpdate_alike hw h hs fun ht => by
            dsimp only at hn
            rwa [if_pos ht] at hn
          exact .some ⟨h1, .loop, rfl, h2⟩
      | delete =>
          obtain ⟨h1, h2⟩ := processRm_alike hw h hn
          exact .some ⟨h1, .loop, rfl, h2⟩
      | commitTxn =>
          obtain ⟨h1, h2⟩ := processCommit_alike hw h fun hs => by
            dsimp only at hn
            rwa [if_neg hs] at hn
          exact .some ⟨hw, h1, rfl, h2⟩
      | abortTxn => exact .some ⟨hw, .release 0, rfl, hheader hn _⟩
      | maxOpValue => exact .some ⟨hw, .loop, rfl, hheader hn _⟩

theorem received_alike {job job' : Job} (hw : w.Alike w') (h : job.buf.Same job'.buf)
    (hconn : job'.conn = job.conn) (hn : w.needs job.buf ≤ job.buf.bufferSize) :
    Option.Rel Turn.Alike (w.received db job) (w'.received db job') := by
  rw [received_eq, received_eq]
  exact dispatch_alike (hw.setTimeoutCnt 0) h hconn hn

end Worker

end PawnDB
