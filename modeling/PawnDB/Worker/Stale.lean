import PawnDB.Basic.Parsing
import PawnDB.Lib.Machine
import PawnDB.Worker.Alike
import PawnDB.Worker.Solo

set_option autoImplicit false

/-! # Stale bytes

The handling of a job should not depend on what an earlier message has left in its buffer. It does
not if the message is as long as `Worker.needs` says, and it does if the message is shorter
(`sealed_iff`): the replies have seven bytes whatever the message had, and a tuple is read from its
fixed place in the buffer, received or not.
-/

namespace PawnDB

open Bytes Ring

/-- The datagram of an event. -/
def Event.datagram : Event → Option Reply
  | .reply r => some r
  | _ => none

def SoloAct.receives : SoloAct → Bool
  | .own (.recv _) => true
  | _ => false

theorem CommitQueue.Alike.contents {q q' : CommitQueue} (h : q.Alike q') :
    q'.contents.map Commit.content = q.contents.map Commit.content := by
  rw [CommitQueue.contents, CommitQueue.contents, ← window_map, ← window_map, h.tail, h.size,
    funext h.content]

namespace Solo

/-- The threads differ at most in what lies behind messages, and the tables are the same. -/
structure Alike (s s' : Solo) : Prop where
  thread : s.thread.Alike s'.thread
  students : s'.students = s.students

/-- What a worker shows of a job and of some steps after it: the replies, and what is queued. -/
def seen (s : Solo) (job : Job) (as : List SoloAct) :
    Option (List Reply × List (UniqueKey × OpType × Option StudentTuple)) :=
  (machine.exec s (.own (.recv job) :: as)).map fun r =>
    ((r.1.flatMap Entry.out).filterMap Event.datagram,
      r.2.thread.worker.commitQueue.contents.map Commit.content)

/-- A request that should have a tuple is too short to hold one. -/
def TooShort (job : Job) : Prop :=
  (job.buf.getOp = .ok .addTuple ∨ job.buf.getOp = .ok .update) ∧
    job.buf.bufferSize < job.buf.getTupleOffset + StudentTuple.serialSize

/-- **No stale bytes.** Workers that are alike show the same of jobs with the same message, all
through the handling of the job; and a request without a whole tuple is answered `BAD_DATA`. -/
structure Sealed (s : Solo) (job : Job) : Prop where
  same : ∀ s' job', s.Alike s' → job.buf.Same job'.buf → job'.conn = job.conn →
    ∀ as, (∀ a ∈ as, a.receives = false) → s'.seen job' as = s.seen job as
  badData : TooShort job → ∃ s' out r, s.step (.own (.recv job)) = some (s', out) ∧
    .reply r ∈ out ∧ r.ack = .badData

variable {s s' : Solo} {job job' : Job}

/-! ## Messages that are long enough -/

/-- A turn that alike threads take alike. -/
theorem after_alike {th th' : WorkerThread} {r r' : Option Turn}
    (hrunning : th'.running = th.running) (h : Option.Rel Turn.Alike r r') :
    Option.Rel (fun q q' : Solo × List Event => q.1.Alike q'.1 ∧ q'.2 = q.2)
      ((r.map th.after).map fun q => (⟨q.1, q.2.1⟩, q.2.2))
      ((r'.map th'.after).map fun q => (⟨q.1, q.2.1⟩, q.2.2)) := by
  cases h with
  | none => exact .none
  | some ht => exact .some ⟨⟨⟨ht.worker, hrunning, ht.point⟩, ht.db⟩, ht.out⟩

/-- **A step that receives nothing** is alike from alike states. -/
theorem step_alike {a : SoloAct} (h : s.Alike s') (ha : a.receives = false) :
    Option.Rel (fun r r' => r.1.Alike r'.1 ∧ r'.2 = r.2) (s.step a) (s'.step a) := by
  obtain ⟨th, db⟩ := s
  obtain ⟨th', db'⟩ := s'
  obtain ⟨hth, hdb⟩ := h
  have hdb : db' = db := hdb
  subst hdb
  cases a with
  | env students => exact .some ⟨⟨hth, rfl⟩, rfl⟩
  | own a =>
      cases a with
      | recv job => cases ha
      | resume => exact after_alike hth.running (WorkerThread.resume_alike hth db')
      | stop => exact .some ⟨⟨⟨hth.worker, rfl, hth.point⟩, rfl⟩, rfl⟩
      | recvTimeout =>
          obtain ⟨w, running, p⟩ := th
          obtain ⟨w', running', p'⟩ := th'
          obtain ⟨hw, hrunning, hp⟩ := hth
          -- only a thread that waits for a job can time out
          cases hp with
          | recv =>
              refine .some ⟨⟨⟨?_, hrunning, .loop⟩, rfl⟩, rfl⟩
              change Worker.Alike _ { w' with timeoutCnt := w'.timeoutCnt + 1 }
              rw [hw.timeoutCnt]
              exact hw.setTimeoutCnt _
          | loop => exact .none
          | sharedRead => exact .none
          | exclusiveRead => exact .none
          | promote => exact .none
          | commit => exact .none
          | release => exact .none
          | ended => exact .none

/-- The step that receives the job, when the message is as long as it needs to be. -/
theorem recv_alike (h : s.Alike s') (hp : s.thread.point = .recv) (hjob : job.buf.Same job'.buf)
    (hconn : job'.conn = job.conn)
    (hn : s.thread.worker.needs job.buf ≤ job.buf.bufferSize) :
    Option.Rel (fun r r' => r.1.Alike r'.1 ∧ r'.2 = r.2) (s.step (.own (.recv job)))
      (s'.step (.own (.recv job'))) := by
  obtain ⟨⟨w, running, p⟩, db⟩ := s
  obtain ⟨⟨w', running', p'⟩, db'⟩ := s'
  obtain ⟨⟨hw, hrunning, hpoint⟩, hdb⟩ := h
  have hdb : db' = db := hdb
  have hp : p = .recv := hp
  subst hdb hp
  cases hpoint
  exact after_alike hrunning (Worker.received_alike hw hjob hconn hn)

/-- **A message that is long enough**: what is seen depends on nothing else. -/
theorem seen_alike (h : s.Alike s') (hp : s.thread.point = .recv) (hjob : job.buf.Same job'.buf)
    (hconn : job'.conn = job.conn) (hn : s.thread.worker.needs job.buf ≤ job.buf.bufferSize)
    {as : List SoloAct} (has : ∀ a ∈ as, a.receives = false) :
    s'.seen job' as = s.seen job as := by
  have hrest : ∀ t t' : Solo, t.Alike t' →
      Option.Rel (fun r r' => r'.1.map Entry.out = r.1.map Entry.out ∧ r.2.Alike r'.2)
        (machine.exec t as) (machine.exec t' as) := by
    intro t t' ht
    exact Machine.exec_rel (M := machine) (R := Alike) (fun _ _ _ hR ha => step_alike hR ha) ht has
  have hexec : Option.Rel (fun r r' => r'.1.map Entry.out = r.1.map Entry.out ∧ r.2.Alike r'.2)
      (machine.exec s (.own (.recv job) :: as)) (machine.exec s' (.own (.recv job') :: as)) :=
    Machine.exec_cons_rel (recv_alike h hp hjob hconn hn) hrest
  rw [seen, seen]
  generalize machine.exec s (.own (.recv job) :: as) = r at hexec ⊢
  generalize machine.exec s' (.own (.recv job') :: as) = r' at hexec ⊢
  cases hexec with
  | none => rfl
  | some hrel =>
      simp only [Option.map_some, List.flatMap_def, hrel.1,
        hrel.2.thread.worker.commitQueue.contents]

/-! ## Messages that are too short -/

theorem seen_nil (hp : s.thread.point = .recv) :
    s.seen job [] = (s.thread.worker.received s.students job).map fun t =>
      (t.out.filterMap Event.datagram, t.worker.commitQueue.contents.map Commit.content) := by
  obtain ⟨⟨w, running, p⟩, db⟩ := s
  have hp : p = .recv := hp
  subst hp
  have hstep : machine.step ⟨⟨w, running, .recv⟩, db⟩ (.own (.recv job))
      = ((w.received db job).map (WorkerThread.after ⟨w, running, .recv⟩)).map
        fun r => (⟨r.1, r.2.1⟩, r.2.2) := rfl
  rw [seen, Machine.exec, hstep]
  cases w.received db job with
  | none => rfl
  | some t =>
      simp only [Option.map_some, Machine.exec, List.flatMap_cons, List.flatMap_nil,
        List.append_nil]
      rfl

/-- The seven bytes of two short replies differ where the messages do, except at the
acknowledgement. -/
theorem datagram_ne {a b : JobBuf} {i : Nat} {ack ack' : OpAck} {conn conn' : ClientConn}
    (hi : i < 7) (hack : i ≠ 6) (hne : peek b.buffer i ≠ peek a.buffer i) :
    (answer ack' b 7 conn').filterMap Event.datagram
      ≠ (answer ack a 7 conn).filterMap Event.datagram := by
  intro heq
  have hdata : take (b.setAck ack').buffer 7 = take (a.setAck ack).buffer 7 :=
    congrArg Reply.data (List.cons.inj heq).1
  have hbyte := agree_of_take hdata i hi
  -- the acknowledgement is written at position 6 only
  have hpeek : ∀ (jb : JobBuf) (c : OpAck), peek (jb.setAck c).buffer i = peek jb.buffer i := by
    intro jb c
    rcases Nat.lt_or_gt_of_ne hack with hlt | hgt
    · exact peek_poke_of_lt hlt
    · exact peek_poke_of_ge (show FieldOffset.ack.pos + 1 ≤ i from hgt)
  rw [hpeek, hpeek] at hbyte
  exact hne hbyte

theorem seen_ne_of_out (hp : s.thread.point = .recv) {t t' : Turn}
    (ht : s.thread.worker.received s.students job = some t)
    (ht' : s.thread.worker.received s.students job' = some t')
    (hne : t'.out.filterMap Event.datagram ≠ t.out.filterMap Event.datagram) :
    s.seen job' [] ≠ s.seen job [] := by
  rw [seen_nil hp, seen_nil hp, ht, ht', Option.map_some, Option.map_some]
  intro heq
  exact hne (congrArg Prod.fst (Option.some.inj heq))

theorem seen_ne_of_contents (hp : s.thread.point = .recv) {t t' : Turn}
    (ht : s.thread.worker.received s.students job = some t)
    (ht' : s.thread.worker.received s.students job' = some t')
    (hne : t'.worker.commitQueue.contents.map Commit.content
      ≠ t.worker.commitQueue.contents.map Commit.content) :
    s.seen job' [] ≠ s.seen job [] := by
  rw [seen_nil hp, seen_nil hp, ht, ht', Option.map_some, Option.map_some]
  intro heq
  exact hne (congrArg Prod.snd (Option.some.inj heq))

end Solo

namespace Worker

variable {w : Worker} {db : StudentTable} {job : Job}

/-- **A job without a table id** is answered with the seven bytes of a header, unless it is a
`START_TXN` or a commit that is carried out. -/
theorem dispatch_short (w : Worker) (db : StudentTable) (job : Job)
    (hs : job.buf.bufferSize < 8) (hstart : job.buf.getOp ≠ .ok .startTxn)
    (hcommit : job.buf.getOp = .ok .commitTxn → w.status ≠ .shrinking) :
    ∃ t ack, w.dispatch db job = some t ∧ t.out = answer ack job.buf 7 job.conn := by
  -- byte 7, the table id, was not received
  have htbl : job.buf.getTbl = .error .readAfterEnd := by
    rw [JobBuf.getTbl_readAfterEnd, JobBuf.Received]
    change ¬ 7 + 1 ≤ job.buf.bufferSize
    omega
  unfold dispatch
  dsimp only
  cases hop : job.buf.getOp with
  | error e => exact ⟨_, .badOp, rfl, rfl⟩
  | ok op =>
      cases op with
      | startTxn => exact absurd hop hstart
      | addTuple =>
          refine ⟨_, .badTable, rfl, ?_⟩
          simp only [processAdd, htbl]
      | sharedRead =>
          by_cases hphase : w.status ≠ .growing
          · exact ⟨_, .badPhase, rfl, by simp only [processSharedRead, processRead, if_pos hphase]⟩
          · exact ⟨_, .badTable, rfl, by
              simp only [processSharedRead, processRead, if_neg hphase, htbl]⟩
      | exclusiveRead =>
          by_cases hphase : w.status ≠ .growing
          · exact ⟨_, .badPhase, rfl, by
              simp only [processExclusiveRead, processRead, if_pos hphase]⟩
          · exact ⟨_, .badTable, rfl, by
              simp only [processExclusiveRead, processRead, if_neg hphase, htbl]⟩
      | yieldRead =>
          by_cases hphase : w.status ≠ .growing
          · simp only [processYield, if_pos hphase]
            exact ⟨_, .badPhase, rfl, rfl⟩
          · simp only [processYield, if_neg hphase, htbl]
            exact ⟨_, .badTable, rfl, rfl⟩
      | promote =>
          by_cases hphase : w.status ≠ .growing
          · exact ⟨_, .badPhase, rfl, by simp only [processPromote, if_pos hphase]⟩
          · exact ⟨_, .badTable, rfl, by simp only [processPromote, if_neg hphase, htbl]⟩
      | update =>
          refine ⟨_, .badTable, rfl, ?_⟩
          simp only [processUpdate, htbl]
      | delete =>
          refine ⟨_, .badTable, rfl, ?_⟩
          simp only [processRm, htbl]
      | commitTxn =>
          refine ⟨_, .success, rfl, ?_⟩
          simp only [processCommit, if_pos (hcommit hop)]
      | abortTxn => exact ⟨_, .success, rfl, rfl⟩
      | maxOpValue => exact ⟨_, .badOp, rfl, rfl⟩

/-- A request to add or to update. -/
def IsWrite (op : OpType) : Prop := op = .addTuple ∨ op = .update

theorem received_wrote (w : Worker) (db : StudentTable) {op : OpType}
    (hop : job.buf.getOp = .ok op) (hw : IsWrite op) :
    ∃ t, w.received db job = some t ∧ w.Wrote op job t.worker t.out := by
  rw [received_eq, dispatch, hop]
  rcases hw with rfl | rfl
  · exact ⟨_, rfl, (processAdd_wrote _ job).of_reset⟩
  · exact ⟨_, rfl, (processUpdate_wrote _ job).of_reset⟩

/-- The first bytes of a tuple in a buffer are its checksum. -/
theorem checksum_eq_of_agree {t t' : StudentTuple} {b b' : Buf}
    (h : Agree 4 (t.copyTo b) (t'.copyTo b')) : t.checksum = t'.checksum := by
  have hcopy : ∀ (t : StudentTuple) (b : Buf),
      t.checksum = ofLe32 (slice (slice (t.copyTo b) 0 StudentTuple.objectSize) 0 4) := by
    intro t b
    conv_lhs => rw [← StudentTuple.copyFrom_copyTo t b]
    rfl
  have hobject : Agree 4 (slice (t.copyTo b) 0 StudentTuple.objectSize)
      (slice (t'.copyTo b') 0 StudentTuple.objectSize) := by
    intro i hi
    have hlt : i < StudentTuple.objectSize := Nat.lt_trans hi (by decide)
    rw [peek, dif_pos hlt, peek, dif_pos hlt, slice, slice]
    exact h _ (by rw [Nat.zero_add]; exact hi)
  rw [hcopy t b, hcopy t' b', hobject.slice (show 0 + 4 ≤ 4 by decide)]

/-- The top byte of the checksum is the last byte of a tuple. -/
theorem checksum_flip_ne (jb : JobBuf) :
    (tupleOf (jb.flip 45)).checksum ≠ (tupleOf jb).checksum := by
  intro heq
  have hsum : ofLe32 (slice (jb.flip 45).buffer 42 4) = ofLe32 (slice jb.buffer 42 4) := heq
  have hslice := congrArg le32 hsum
  rw [le32_ofLe32, le32_ofLe32] at hslice
  exact jb.peek_flip_ne (by decide) (congrFun hslice 3)

theorem ack_of_sent {ack : OpAck} {parser : JobBuf} {size : Nat} {conn : ClientConn} {r : Reply}
    (h : .reply r = (reply ack parser size conn).2) : r.ack = ack :=
  congrArg Reply.ack (Event.reply.inj h)

theorem ack_of_mem_answer {ack : OpAck} {parser : JobBuf} {size : Nat} {conn : ClientConn}
    {r : Reply} (h : .reply r ∈ answer ack parser size conn) : r.ack = ack := by
  rcases List.mem_cons.mp h with he | hpop
  · exact ack_of_sent he
  · rcases List.mem_cons.mp hpop with he | he
    · cases he
    · cases he

/-- No request to add is answered `BAD_DATA`: the tuple is decoded in any case. -/
theorem processAdd_not_badData {parser : JobBuf} {conn : ClientConn} {r : Reply}
    (h : .reply r ∈ (w.processAdd parser conn).2) : r.ack ≠ .badData := by
  unfold processAdd at h
  dsimp only at h
  rw [traitDeserialize_eq] at h
  split at h
  · rw [ack_of_mem_answer h]
    decide
  · split at h
    · dsimp only at h
      split at h
      · rcases List.mem_cons.mp h with he | h
        · rw [ack_of_sent he]
          decide
        · rw [ack_of_mem_answer h]
          decide
      · rcases List.mem_cons.mp h with he | h
        · rw [ack_of_sent he]
          decide
        · cases List.mem_singleton.mp h
    · rw [ack_of_mem_answer h]
      decide

/-- Nor is one to update. -/
theorem processUpdate_not_badData {parser : JobBuf} {conn : ClientConn} {r : Reply}
    (h : .reply r ∈ (w.processUpdate parser conn).2) : r.ack ≠ .badData := by
  unfold processUpdate at h
  dsimp only at h
  rw [traitDeserialize_eq] at h
  split at h
  · rw [ack_of_mem_answer h]
    decide
  · split at h
    · rw [ack_of_mem_answer h]
      decide
    · split at h
      · split at h
        · dsimp only at h
          split at h
          · rcases List.mem_cons.mp h with he | h
            · rw [ack_of_sent he]
              decide
            · rw [ack_of_mem_answer h]
              decide
          · rcases List.mem_cons.mp h with he | h
            · rw [ack_of_sent he]
              decide
            · cases List.mem_singleton.mp h
        · rw [ack_of_mem_answer h]
          decide
      · rw [ack_of_mem_answer h]
        decide

theorem received_not_badData {op : OpType} (hop : job.buf.getOp = .ok op) (hw : IsWrite op)
    {t : Turn} (ht : w.received db job = some t) {r : Reply} (hr : .reply r ∈ t.out) :
    r.ack ≠ .badData := by
  rw [received_eq, dispatch, hop] at ht
  rcases hw with rfl | rfl
  · cases ht
    exact processAdd_not_badData hr
  · cases ht
    exact processUpdate_not_badData hr

end Worker

namespace Solo

variable {s s' : Solo} {job : Job}

/-- The message with another byte behind it. -/
def flipped (job : Job) (i : Nat) : Job := ⟨job.buf.flip i, job.conn⟩

theorem not_sealed_of_seen (hp : s.thread.point = .recv) {i : Nat}
    (hi : job.buf.bufferSize ≤ i) (hne : s.seen (flipped job i) [] ≠ s.seen job []) :
    ¬ s.Sealed job := by
  intro hs
  have hpoint : s.thread.point.Alike s.thread.point := by
    rw [hp]
    exact .recv
  have hsame : s.Alike s := ⟨⟨Worker.Alike.refl _, rfl, hpoint⟩, rfl⟩
  exact hne (hs.same s (flipped job i) hsame (job.buf.same_flip hi) rfl [] fun _ ha => by cases ha)

/-- A reply of seven bytes to a message that has fewer of them. -/
theorem not_sealed_of_short (hp : s.thread.point = .recv) (hs : job.buf.bufferSize < 6)
    (hstart : job.buf.getOp ≠ .ok .startTxn)
    (hcommit : job.buf.getOp = .ok .commitTxn → s.thread.worker.status ≠ .shrinking) :
    ¬ s.Sealed job := by
  have hsame : job.buf.Same (flipped job job.buf.bufferSize).buf := job.buf.same_flip le_rfl
  have hshort : job.buf.bufferSize < 8 := by omega
  have hstart' : (flipped job job.buf.bufferSize).buf.getOp ≠ .ok .startTxn := by
    rwa [hsame.getOp]
  have hcommit' : (flipped job job.buf.bufferSize).buf.getOp = .ok .commitTxn →
      s.thread.worker.status ≠ .shrinking := by
    rwa [hsame.getOp]
  obtain ⟨t, ack, ht, hout⟩ := Worker.dispatch_short { s.thread.worker with timeoutCnt := 0 }
    s.students job hshort hstart hcommit
  obtain ⟨t', ack', ht', hout'⟩ := Worker.dispatch_short { s.thread.worker with timeoutCnt := 0 }
    s.students (flipped job job.buf.bufferSize) hshort hstart' hcommit'
  rw [← Worker.received_eq] at ht ht'
  apply not_sealed_of_seen hp le_rfl
  apply seen_ne_of_out hp ht ht'
  rw [hout, hout']
  have hwidth : job.buf.bufferSize < bufferWidth := Nat.lt_trans hs (by decide)
  exact datagram_ne (by omega) (by omega) (job.buf.peek_flip_ne hwidth)

/-- The reply to a `START_TXN` of one byte has the operation id of an earlier message. -/
theorem not_sealed_of_start (hp : s.thread.point = .recv) (hs : job.buf.bufferSize = 1)
    (hstart : job.buf.getOp = .ok .startTxn) : ¬ s.Sealed job := by
  have hsame : job.buf.Same (flipped job 1).buf := job.buf.same_flip hs.le
  have hrecv : ∀ j : Job, j.buf.getOp = .ok .startTxn →
      s.thread.worker.received s.students j = some ⟨{ s.thread.worker with timeoutCnt := 0 }, .loop,
        s.students, answer .success (j.buf.setTxn s.thread.worker.txnId) 7 j.conn⟩ := by
    intro j hop
    rw [Worker.received_eq, Worker.dispatch, hop]
  apply not_sealed_of_seen hp hs.le
  apply seen_ne_of_out hp (hrecv job hstart) (hrecv (flipped job 1) (by rwa [hsame.getOp]))
  -- the transaction id is written from position 2 on
  have hpeek : ∀ jb : JobBuf, peek (jb.setTxn s.thread.worker.txnId).buffer 1 = peek jb.buffer 1 :=
    fun jb => peek_poke_of_lt (by decide)
  apply datagram_ne (show 1 < 7 by decide) (by decide)
  rw [hpeek, hpeek]
  exact job.buf.peek_flip_ne (by decide)

/-- The second of two replies tells two buffers with different tuples apart. -/
theorem datagrams_ne_of_checksum {e e' : Event} {parser parser' : JobBuf} {t t' : StudentTuple}
    {b b' : Buf} {conn : ClientConn} (he : ∃ r, e.datagram = some r)
    (he' : ∃ r, e'.datagram = some r) (hb : parser.buffer = t.copyTo b)
    (hb' : parser'.buffer = t'.copyTo b') (hne : t'.checksum ≠ t.checksum) :
    (e' :: answer .commitFull parser' 7 conn).filterMap Event.datagram
      ≠ (e :: answer .commitFull parser 7 conn).filterMap Event.datagram := by
  intro heq
  obtain ⟨r, hr⟩ := he
  obtain ⟨r', hr'⟩ := he'
  rw [List.filterMap_cons_some hr, List.filterMap_cons_some hr'] at heq
  have hdata : take (parser'.setAck .commitFull).buffer 7
      = take (parser.setAck .commitFull).buffer 7 :=
    congrArg Reply.data (List.cons.inj (List.cons.inj heq).2).1
  have hbytes : Agree 4 (t'.copyTo b') (t.copyTo b) := by
    intro i hi
    have hi6 : i < FieldOffset.ack.pos := Nat.lt_trans hi (by decide)
    have hbyte := agree_of_take hdata i (by omega)
    rw [← hb, ← hb']
    rwa [JobBuf.setAck, JobBuf.setField, JobBuf.setAck, JobBuf.setField, peek_poke_of_lt hi6,
      peek_poke_of_lt hi6] at hbyte
  exact hne (Worker.checksum_eq_of_agree hbytes)

/-- What is queued for two requests with different tuples. -/
theorem contents_ne_of_checksum {q : CommitQueue} (hq : q.Wf) (hroom : q.full = false)
    {op : OpType} (hop : op ≠ .delete) (key key' : UniqueKey) {jb jb' : JobBuf}
    (hne : (Worker.tupleOf jb').checksum ≠ (Worker.tupleOf jb).checksum) :
    (q.send (Worker.entryFor op key' jb')).2.contents.map Commit.content
      ≠ (q.send (Worker.entryFor op key jb)).2.contents.map Commit.content := by
  rw [(CommitQueue.contents_send hq hroom).2, (CommitQueue.contents_send hq hroom).2]
  intro heq
  rw [List.map_append, List.map_append] at heq
  have hcontent : (Worker.entryFor op key' jb').content = (Worker.entryFor op key jb).content :=
    List.singleton_inj.mp (List.append_cancel_left heq)
  simp only [Worker.entryFor, if_neg hop, Commit.content, Option.map_some,
    StudentTuple.copyFrom_copyTo, Prod.mk.injEq, Option.some.injEq] at hcontent
  exact hne (congrArg StudentTuple.checksum hcontent.2.2)

/-- A tuple that does not lie within the message. -/
theorem not_sealed_of_write {op : OpType} (hq : s.thread.worker.commitQueue.Wf)
    (hp : s.thread.point = .recv) (hop : job.buf.getOp = .ok op) (hw : Worker.IsWrite op)
    (htarget : (s.thread.worker.target op job.buf).isSome = true)
    (hs : job.buf.bufferSize < 46) : ¬ s.Sealed job := by
  have hle : job.buf.bufferSize ≤ 45 := by omega
  have hsame : job.buf.Same (flipped job 45).buf := job.buf.same_flip hle
  have hop' : (flipped job 45).buf.getOp = .ok op := by rwa [hsame.getOp]
  have htarget' : s.thread.worker.target op (flipped job 45).buf
      = s.thread.worker.target op job.buf :=
    Worker.target_congr (Worker.Alike.refl _) hsame op
  obtain ⟨t, ht, hwrote⟩ := Worker.received_wrote s.thread.worker s.students hop hw
  obtain ⟨t', ht', hwrote'⟩ := Worker.received_wrote s.thread.worker s.students hop' hw
  have hsum := Worker.checksum_flip_ne job.buf
  have hdelete : op ≠ .delete := by
    rcases hw with rfl | rfl
    · decide
    · decide
  apply not_sealed_of_seen hp hle
  generalize hout : t.out = out at hwrote
  generalize hout' : t'.out = out' at hwrote'
  cases hwrote with
  | rejected _ _ hnone =>
      rw [hnone] at htarget
      cases htarget
  | full _ _ _ _ hdel => exact absurd hdel hdelete
  | lost key size parser _ _ hfull _ hb =>
      cases hwrote' with
      | rejected _ _ hnone =>
          rw [← htarget', hnone] at htarget
          cases htarget
      | full _ _ _ _ hdel => exact absurd hdel hdelete
      | queued _ _ _ _ hroom =>
          rw [hfull] at hroom
          cases hroom
      | lost key' size' parser' _ _ _ _ hb' =>
          -- the queue is full, and the second reply begins with the tuple
          apply seen_ne_of_out hp ht ht'
          rw [hout, hout']
          exact datagrams_ne_of_checksum ⟨_, rfl⟩ ⟨_, rfl⟩ hb hb' hsum
  | queued key size _ _ hroom hcq =>
      cases hwrote' with
      | rejected _ _ hnone =>
          rw [← htarget', hnone] at htarget
          cases htarget
      | full _ _ _ _ hdel => exact absurd hdel hdelete
      | lost _ _ _ _ _ hfull =>
          rw [hroom] at hfull
          cases hfull
      | queued key' size' _ _ _ hcq' =>
          apply seen_ne_of_contents hp ht ht'
          rw [hcq, hcq']
          exact contents_ne_of_checksum hq hroom hdelete key key' hsum

/-- A message that is shorter than it needs to be. -/
theorem not_sealed_of_needs (hq : s.thread.worker.commitQueue.Wf) (hp : s.thread.point = .recv)
    (hs : job.buf.bufferSize < s.thread.worker.needs job.buf) : ¬ s.Sealed job := by
  unfold Worker.needs at hs
  split at hs
  · next hstart =>
      refine not_sealed_of_start hp ?_ hstart
      -- the operation has been received
      have hle : 1 ≤ job.buf.bufferSize := by
        rw [JobBuf.getOp] at hstart
        split at hstart
        · cases hstart
        · next hraw => exact JobBuf.pos_le_of_parseField hraw
      omega
  · next hcommit =>
      split at hs
      · omega
      · next hphase => exact not_sealed_of_short hp hs (by simp [hcommit]) fun _ => hphase
  · next hop =>
      split at hs
      · next htarget => exact not_sealed_of_write hq hp hop (Or.inl rfl) htarget hs
      · exact not_sealed_of_short hp hs (by simp [hop]) (by simp [hop])
  · next hop =>
      split at hs
      · next htarget => exact not_sealed_of_write hq hp hop (Or.inr rfl) htarget hs
      · exact not_sealed_of_short hp hs (by simp [hop]) (by simp [hop])
  · next hstart hcommit _ _ => exact not_sealed_of_short hp hs hstart fun hc => absurd hc hcommit

/-! ## Every job -/

theorem received_of_step {out : List Event} (h : s.step (.own (.recv job)) = some (s', out)) :
    ∃ t, s.thread.worker.received s.students job = some t ∧ t.out = out := by
  have hown := step_own h
  unfold WorkerThread.step at hown
  dsimp only at hown
  split at hown
  · obtain ⟨t, ht, heq⟩ := Option.map_eq_some_iff.mp hown
    exact ⟨t, ht, congrArg (fun r => r.2.2) heq⟩
  · cases hown

variable {txnId : TxnId} {db : StudentTable} {h : List (Entry Solo SoloAct Event)}

/-- **When the handling of a job shows no stale bytes**: exactly when the message is as long as it
needs to be and is no request to add or to update without a whole tuple. -/
theorem sealed_iff (hr : machine.Run (init txnId db) h s) (hp : s.thread.point = .recv)
    (job : Job) : s.Sealed job ↔
      s.thread.worker.needs job.buf ≤ job.buf.bufferSize ∧ ¬ TooShort job := by
  have hq : s.thread.worker.commitQueue.Wf := (wf_of_run hr (Worker.wf_init txnId)).queue
  constructor
  · intro hsealed
    constructor
    · by_contra hn
      exact not_sealed_of_needs hq hp (by omega) hsealed
    · intro hshort
      obtain ⟨s', out, r, hstep, hmem, hack⟩ := hsealed.badData hshort
      obtain ⟨t, ht, hout⟩ := received_of_step hstep
      obtain ⟨op, hop, hw⟩ : ∃ op, job.buf.getOp = .ok op ∧ Worker.IsWrite op := by
        rcases hshort.1 with hop | hop
        · exact ⟨_, hop, Or.inl rfl⟩
        · exact ⟨_, hop, Or.inr rfl⟩
      rw [← hout] at hmem
      exact Worker.received_not_badData hop hw ht hmem hack
  · rintro ⟨hn, hshort⟩
    refine ⟨?_, fun hs => absurd hs hshort⟩
    intro s' job' halike hsame hconn as has
    exact seen_alike halike hp hsame hconn hn has

/-- A new worker that waits for its first job. -/
theorem run_recv : ∃ h, machine.Run (init 0 StudentTable.init) h
    ⟨⟨Worker.init 0, true, .recv⟩, StudentTable.init⟩ :=
  ⟨_, .single (M := machine) (a := .own .resume) rfl⟩

/-- A request to add a tuple that is all there. -/
theorem sealed_iff_add :
    Sealed ⟨⟨Worker.init 0, true, .recv⟩, StudentTable.init⟩
      (.request .addTuple 1 0 (List.replicate 37 7)) := by
  obtain ⟨h, hr⟩ := run_recv
  refine (sealed_iff hr rfl _).mpr ⟨by decide, ?_⟩
  intro hshort
  exact absurd hshort.2 (by decide)

/-- **A request to add a tuple that has none** is taken for one with the tuple that an earlier
message has left in the buffer. -/
theorem not_always_sealed : ¬ ∀ h s, machine.Run (init 0 StudentTable.init) h s →
    s.thread.point = .recv → ∀ job, s.Sealed job := by
  intro hall
  obtain ⟨h, hr⟩ := run_recv
  have hop : (Job.request .addTuple 1 0 []).buf.getOp = .ok .addTuple := by rfl
  exact not_sealed_of_write CommitQueue.wf_init rfl hop (Or.inl rfl) (by decide) (by decide)
    (hall h _ hr rfl (.request .addTuple 1 0 []))

end Solo

end PawnDB
