import PawnDB.Worker.Solo

set_option autoImplicit false

/-! # Acknowledged and performed

A transaction is told `SUCCESS` for each of its writes long before its commit performs them.
`acked` is what it was told would be done, `performed` is what was done, and `Worker.pending`
is what the commit is still to do. A step moves operations from the one to the other; the two
lists agree when a commit is answered if and only if every write that passed its checks found
room in the queue and came in a phase that can still be committed (`performed_eq_acked_iff`): a
commit in the phase `ABORTED` is answered and performs nothing.
-/

namespace PawnDB

/-- A table operation of a commit. -/
def Event.isOperation : Event → Bool
  | .insert _ | .write _ | .remove _ => true
  | _ => false

/-- A reply with `SUCCESS`. -/
def Event.isSuccess : Event → Bool
  | .reply r => decide (r.ack = .success)
  | _ => false

/-- The table operations among the events of a step. -/
def operations (out : List Event) : List Event := out.filter Event.isOperation

theorem Plain.operations {out : List Event} (h : Plain out) : operations out = [] := by
  refine List.filter_eq_nil_iff.mpr fun e he hop => ?_
  have hp := h e he
  cases e <;> simp_all [Event.plain, Event.isOperation]

theorem any_isSuccess_answer {ack : OpAck} {parser : JobBuf} {size : Nat} {conn : ClientConn} :
    (answer ack parser size conn).any Event.isSuccess = decide (ack = .success) := by
  simp [answer, reply, Event.isSuccess]

/-- The table operation that an entry is queued for. -/
def Commit.operation (e : Commit) : List Event :=
  match e.op, e.buffer with
  | .addTuple, some b => [.insert (StudentTuple.copyFrom b)]
  | .update, some b => [.write { StudentTuple.copyFrom b with key := e.key.tupleKey }]
  | .delete, _ => [.remove e.key.tupleKey]
  | _, _ => []

namespace Worker

/-- The table operation that a request asks for. -/
def requested (op : OpType) (parser : JobBuf) : Option Event :=
  match op, parser.getKey with
  | .addTuple, _ => some (.insert (tupleOf parser))
  | .update, .ok tupleKey => some (.write { tupleOf parser with key := tupleKey })
  | .delete, .ok tupleKey => some (.remove tupleKey)
  | _, _ => none

/-- What a commit is still to do. An aborted transaction is not committed. -/
def pending (w : Worker) : List Event :=
  if w.status = .aborted then [] else w.commitQueue.contents.flatMap Commit.operation

/-- A request that passes the checks of its handler comes in a phase that can be committed. If
the queue is full, it must be one that is told so and nothing else. -/
def keeps (w : Worker) (job : Job) : Bool :=
  match job.buf.getOp with
  | .error _ => true
  | .ok op =>
      match w.target op job.buf with
      | none => true
      | some _ =>
          if w.commitQueue.full then decide (op = .delete)
          else decide (w.status ≠ .aborted)

variable {w w' : Worker} {op : OpType} {key : UniqueKey} {parser : JobBuf}

theorem pending_of_nil (h : w.commitQueue.contents = []) : w.pending = [] := by
  rw [pending, h, List.flatMap_nil, ite_self]

theorem pending_congr (hq : w'.commitQueue = w.commitQueue)
    (hs : w'.status = .aborted ↔ w.status = .aborted) : w'.pending = w.pending := by
  simp only [pending, hq, hs]

theorem target_eq_none (h : ¬ op.Writes) : w.target op parser = none := by
  cases op <;> first | rfl | exact absurd (by decide) h

theorem requested_eq_none (h : ¬ op.Writes) : requested op parser = none := by
  cases op <;> first | rfl | exact absurd (by decide) h

theorem keeps_of_target_none {job : Job} (hop : job.buf.getOp = .ok op)
    (h : w.target op job.buf = none) : w.keeps job = true := by
  rw [keeps, hop]
  simp only [h]

theorem keeps_iff {job : Job} (hop : job.buf.getOp = .ok op)
    (h : w.target op job.buf = some key) : w.keeps job = true ↔
      if w.commitQueue.full then op = .delete else w.status ≠ .aborted := by
  rw [keeps, hop]
  simp only [h]
  split <;> exact decide_eq_true_iff

/-- A request that passes its checks is queued for the operation it asks for. -/
theorem requested_of_target (hl : w.lockList.Wf) (h : w.target op parser = some key)
    (hop : op.Writes) :
    ∃ ev, requested op parser = some ev ∧ (entryFor op key parser).operation = [ev] := by
  obtain ⟨-, hkey⟩ := target_some hl h
  rcases hop with rfl | rfl | rfl
  · refine ⟨_, rfl, ?_⟩
    simp [entryFor, Commit.operation]
  · have hk := (hkey (by decide)).2
    refine ⟨.write { tupleOf parser with key := key.tupleKey }, by simp [requested, hk], ?_⟩
    simp [entryFor, Commit.operation]
  · have hk := (hkey (by decide)).2
    exact ⟨.remove key.tupleKey, by simp [requested, hk], rfl⟩

end Worker

variable {w w' : Worker} {p p' : Point} {db db' : StudentTable} {a : Act} {out : List Event}

/-- **A step that handles no write request** performs an operation that was pending, or none. -/
theorem Effect.pending (h : Effect w p db a w' p' db' out) (hw : w.Wf p) (hp' : p' ≠ .ended)
    (hr : ∀ job op, a = .recv job → job.buf.getOp = .ok op → ¬ op.Writes) :
    operations out ++ w'.pending = w.pending := by
  have hcons : ∀ {e : Event} {out : List Event}, e.isOperation = false → Plain out →
      operations (e :: out) = [] := fun he ho => by
    rw [operations, List.filter_cons_of_neg (by simp [he])]
    exact ho.operations
  -- applying the first entry moves its operation from what is pending to what is done
  have happly : ∀ {parser conn l op}, p = .commit parser conn → w.commitQueue.empty = false →
      w.commitQueue.get.operation = [op] →
      [op] ++ Worker.pending { w with lockList := l, commitQueue := w.commitQueue.pop }
        = w.pending := by
    intro parser conn l op hp he hop
    have hst := hw.shrinking hp
    rw [Worker.pending, Worker.pending, if_neg (by simp [hst]), if_neg (by simp [hst]),
      (CommitQueue.contents_pop hw.queue he).2, List.flatMap_cons, hop]
  cases h with
  | stop => rfl
  | move _ hq _ hst _ _ _ ho =>
      rw [ho.operations, List.nil_append, Worker.pending_congr hq (by rw [hst])]
  | phase _ hq _ hst ho =>
      rw [ho.operations, List.nil_append]
      -- a phase change can only add nothing: a growing worker has nothing queued
      by_cases hg : w.status = .growing
      · have hc := hw.growing hg
        rw [Worker.pending_of_nil hc, Worker.pending_of_nil (by rw [hq]; exact hc)]
      · rcases hst with hst | ⟨hst, -⟩
        · rw [if_neg hg] at hst
          exact Worker.pending_congr hq (by rw [hst])
        · exact absurd hst hg
  | queue _ hop hwr => exact absurd hwr (hr _ _ rfl hop)
  | grantShared _ _ _ _ _ ho => rw [hcons rfl ho]; rfl
  | grantExclusive _ _ _ _ _ ho => rw [hcons rfl ho]; rfl
  | refuseShared _ _ _ _ ho => rw [hcons rfl ho]; rfl
  | refuseExclusive _ _ _ _ ho => rw [hcons rfl ho]; rfl
  | yield _ _ _ _ _ hq _ hst ho =>
      rw [hcons rfl ho, List.nil_append, Worker.pending_congr hq (by rw [hst])]
  | promote _ _ _ _ _ _ ho => rw [hcons rfl ho]; rfl
  | remove hp he hop hkey _ _ =>
      refine happly hp he ?_
      rw [Commit.operation, hop, hkey]
      rfl
  | free _ _ _ _ => rw [hcons rfl plain_nil]; rfl
  | finish => exact absurd rfl hp'

/-- The drain loop is answered for when there is nothing left to apply. -/
theorem Effect.drained (h : Effect w p db a w' p' db' out) (hw : w.Wf p) {parser : JobBuf}
    {conn : ClientConn} (hp : p = .commit parser conn) (hs : out.any Event.isSuccess = true) :
    w.commitQueue.contents = [] ∧ operations out = [] := by
  have hst := hw.shrinking hp
  cases h with
  | stop | remove => cases hs
  | move hopen _ _ _ _ _ _ ho => exact ⟨hopen.drained hp, ho.operations⟩
  | phase hopen _ _ _ ho => exact ⟨hopen.drained hp, ho.operations⟩
  | promote hg => rw [hst] at hg; cases hg
  | queue he | grantShared _ he | grantExclusive _ he | refuseShared _ he | refuseExclusive _ he
  | yield he | free he | finish he => rw [hp] at he; cases he

/-- No step sets the phase to `COMMITTED`. -/
theorem Effect.ne_committed (h : Effect w p db a w' p' db' out) (hs : w.status ≠ .committed) :
    w'.status ≠ .committed := by
  have hleaves : w.status.Leaves w'.status → w'.status ≠ .committed := by
    rintro (hst | ⟨-, hst⟩)
    · rw [hst]
      split
      · decide
      · exact hs
    · rw [hst]; decide
  cases h with
  | move _ _ _ hst _ _ _ _ => rw [hst]; exact hs
  | phase _ _ _ hst _ => exact hleaves hst
  | queue _ _ _ _ _ _ _ hst _ => exact hleaves hst
  | yield _ _ _ _ _ _ _ hst _ => rw [hst]; exact hs
  | finish _ _ _ hst _ _ _ => rw [hst]; exact hs
  | stop | grantShared | grantExclusive | refuseShared | refuseExclusive | promote | remove
  | free => exact hs

namespace Solo

/-- The table operations performed in a history. -/
def performed (h : List (Entry Solo SoloAct Event)) : List Event :=
  h.flatMap fun e => operations e.out

/-- The operation asked for by the request that a step handles, if it is answered `SUCCESS`. -/
def acknowledged (e : Entry Solo SoloAct Event) : Option Event :=
  match e.act with
  | .own (.recv job) =>
      match job.buf.getOp with
      | .ok op => if e.out.any Event.isSuccess then Worker.requested op job.buf else none
      | .error _ => none
  | _ => none

/-- The operations of the writes answered `SUCCESS` in a history. -/
def acked (h : List (Entry Solo SoloAct Event)) : List Event := h.filterMap acknowledged

/-- A write request that passes its checks in this step finds a queue that is not full (or is
told so), and comes in a phase that can still be committed. -/
def Kept (e : Entry Solo SoloAct Event) : Prop :=
  match e.act with
  | .own (.recv job) => e.pre.thread.worker.keeps job = true
  | _ => True

instance (e : Entry Solo SoloAct Event) : Decidable (Kept e) := by
  unfold Kept
  split <;> infer_instance

/-- The step answers `COMMIT_TXN` with `SUCCESS`, at once or after the drain loop. -/
def AnswersCommit (e : Entry Solo SoloAct Event) : Prop :=
  e.out.any Event.isSuccess = true ∧
    ((∃ job, e.act = .own (.recv job) ∧ job.buf.getOp = .ok .commitTxn) ∨
      e.act = .own .resume ∧ e.pre.thread.point.isCommit = true)

variable {h : List (Entry Solo SoloAct Event)} {e : Entry Solo SoloAct Event}

theorem performed_snoc : performed (h ++ [e]) = performed h ++ operations e.out := by
  simp [performed]

theorem acked_snoc : acked (h ++ [e]) = acked h ++ (acknowledged e).toList := by
  cases he : acknowledged e <;> simp [acked, he]

theorem kept_snoc : (∀ c ∈ h ++ [e], Kept c) ↔ (∀ c ∈ h, Kept c) ∧ Kept e := by
  rw [List.forall_mem_append, List.forall_mem_singleton]

/-- The operations done or pending are those acknowledged if all requests were `kept`. Otherwise
there are too few of them. -/
def Balanced (kept : Prop) (done acked : List Event) : Prop :=
  kept ∧ done = acked ∨ ¬ kept ∧ done.length < acked.length

section Balanced

variable {k k' : Prop} {done acked : List Event} {ev : Event}

theorem Balanced.eq_iff (h : Balanced k done acked) : done = acked ↔ k := by
  rcases h with ⟨hk, rfl⟩ | ⟨hk, hlt⟩
  · exact ⟨fun _ => hk, fun _ => rfl⟩
  · exact ⟨fun he => absurd (congrArg List.length he) hlt.ne, fun h => absurd h hk⟩

theorem Balanced.congr (h : Balanced k done acked) (hk : k' ↔ k) : Balanced k' done acked := by
  rwa [Balanced, hk]

/-- An acknowledged operation that joins the pending ones. -/
theorem Balanced.push (h : Balanced k done acked) (hk : k' ↔ k) :
    Balanced k' (done ++ [ev]) (acked ++ [ev]) := by
  rcases h with ⟨hk0, rfl⟩ | ⟨hk0, hlt⟩
  · exact Or.inl ⟨hk.mpr hk0, rfl⟩
  · exact Or.inr ⟨fun h => hk0 (hk.mp h), by simpa using hlt⟩

/-- An acknowledged operation that will not be performed. -/
theorem Balanced.lose (h : Balanced k done acked) (hk : ¬ k') :
    Balanced k' done (acked ++ [ev]) := by
  refine Or.inr ⟨hk, ?_⟩
  rw [List.length_append]
  rcases h with ⟨-, rfl⟩ | ⟨-, hlt⟩
  · exact Nat.lt_succ_self _
  · exact Nat.lt_succ_of_lt hlt

end Balanced

/-- What a thread was told would be done and what it did, over its whole life until it ends. -/
structure Ledger (h : List (Entry Solo SoloAct Event)) (s : Solo) : Prop where
  status : s.thread.worker.status ≠ .committed
  balance : Balanced (∀ c ∈ h, Kept c) (performed h ++ s.thread.worker.pending) (acked h)

theorem acknowledged_recv {u v : Solo} {job : Job} {op : OpType} {out : List Event}
    (hop : job.buf.getOp = .ok op) : acknowledged ⟨u, .own (.recv job), out, v⟩
      = if out.any Event.isSuccess then Worker.requested op job.buf else none := by
  simp only [acknowledged, hop]

variable {u v : Solo} {a : Act} {out : List Event}

/-- A step that handles no write request. -/
theorem Ledger.step_other (hw : u.thread.worker.Wf u.thread.point) (ih : Ledger h u)
    (hs : u.step (.own a) = some (v, out)) (hne : v.thread.point ≠ .ended)
    (hr : ∀ job op, a = .recv job → job.buf.getOp = .ok op → ¬ op.Writes) :
    Ledger (h ++ [⟨u, .own a, out, v⟩]) v := by
  have heff := WorkerThread.step_effect hw (step_own hs)
  -- nothing is acknowledged as a write
  have hack : acknowledged ⟨u, .own a, out, v⟩ = none := by
    cases a with
    | recv job =>
        cases hop : job.buf.getOp with
        | error e => simp only [acknowledged, hop]
        | ok op =>
            rw [acknowledged_recv hop, Worker.requested_eq_none (hr _ _ rfl hop), ite_self]
    | recvTimeout | resume | stop => rfl
  -- and nothing is lost
  have hkept : Kept ⟨u, .own a, out, v⟩ := by
    cases a with
    | recv job =>
        show u.thread.worker.keeps job = true
        cases hop : job.buf.getOp with
        | error e => rw [Worker.keeps, hop]
        | ok op =>
            exact Worker.keeps_of_target_none hop (Worker.target_eq_none (hr _ _ rfl hop))
    | recvTimeout | resume | stop => trivial
  refine ⟨heff.ne_committed ih.status, ?_⟩
  rw [performed_snoc, acked_snoc, hack, List.append_assoc, heff.pending hw hne hr]
  simpa using ih.balance.congr (kept_snoc.trans (and_iff_left hkept))

/-- A step that handles a write request. -/
theorem Ledger.step_write (hw : u.thread.worker.Wf u.thread.point) (ih : Ledger h u)
    {job : Job} {op : OpType} (hs : u.step (.own (.recv job)) = some (v, out))
    (hop : job.buf.getOp = .ok op) (hwr : op.Writes) :
    Ledger (h ++ [⟨u, .own (.recv job), out, v⟩]) v := by
  obtain ⟨hwrote, hp, -, -⟩ := WorkerThread.step_wrote (step_own hs) hop hwr
  have heff := WorkerThread.step_effect hw (step_own hs)
  have hlist := hw.list (by simp [hp])
  have hkept : Kept ⟨u, .own (.recv job), out, v⟩ ↔ u.thread.worker.keeps job = true := Iff.rfl
  have hack : acknowledged ⟨u, .own (.recv job), out, v⟩
      = if out.any Event.isSuccess then Worker.requested op job.buf else none :=
    acknowledged_recv hop
  refine ⟨heff.ne_committed ih.status, ?_⟩
  rw [performed_snoc, acked_snoc, hack]
  -- the four ends of a write request: only the last one adds to the queue
  cases hwrote with
  | rejected ack hleft htarget hns _ hq =>
      have hk : u.thread.worker.keeps job = true := Worker.keeps_of_target_none hop htarget
      rw [any_isSuccess_answer, (plain_answer _ _ _ _).operations, List.append_nil,
        Worker.pending_congr hq hleft.aborted_iff]
      simpa [hns] using ih.balance.congr (kept_snoc.trans (and_iff_left (hkept.mpr hk)))
  | full key hleft htarget hfull hdel hq =>
      have hk : u.thread.worker.keeps job = true := by
        rw [Worker.keeps_iff hop htarget, if_pos hfull]
        exact hdel
      rw [any_isSuccess_answer, (plain_answer _ _ _ _).operations, List.append_nil,
        Worker.pending_congr hq hleft.aborted_iff]
      simpa using ih.balance.congr (kept_snoc.trans (and_iff_left (hkept.mpr hk)))
  | lost key size parser hleft htarget hfull hdel _ hq =>
      obtain ⟨ev, hev, -⟩ := Worker.requested_of_target hlist htarget hwr
      have hk : ¬ u.thread.worker.keeps job = true := by
        rw [Worker.keeps_iff hop htarget, if_pos hfull]
        exact hdel
      have hops : operations ((reply .success job.buf size job.conn).2 ::
          answer .commitFull parser 7 job.conn) = [] := rfl
      rw [hev, Worker.pending_congr hq hleft.aborted_iff, hops, List.append_nil]
      exact ih.balance.lose fun hall => hk (hkept.mp (kept_snoc.mp hall).2)
  | queued key size hleft htarget hfull hq =>
      obtain ⟨ev, hev, hdone⟩ := Worker.requested_of_target hlist htarget hwr
      have hki := Worker.keeps_iff hop htarget
      rw [if_neg (by simp [hfull])] at hki
      rw [any_isSuccess_answer, (plain_answer _ _ _ _).operations, List.append_nil, hev]
      -- an aborted worker queues and answers, but what it queues is never applied
      by_cases hab : u.thread.worker.status = .aborted
      · have hp' : v.thread.worker.pending = u.thread.worker.pending := by
          rw [Worker.pending, Worker.pending, if_pos (hleft.aborted_iff.mpr hab), if_pos hab]
        rw [hp']
        exact ih.balance.lose fun hall => hki.mp (hkept.mp (kept_snoc.mp hall).2) hab
      · have hp' : v.thread.worker.pending = u.thread.worker.pending
            ++ (Worker.entryFor op key job.buf).operation := by
          rw [Worker.pending, Worker.pending, if_neg (hleft.aborted_iff.not.mpr hab), if_neg hab,
            hq, (CommitQueue.contents_send hw.queue hfull).2, List.flatMap_append,
            List.flatMap_singleton]
        rw [hp', ← List.append_assoc, hdone]
        exact ih.balance.push (kept_snoc.trans (and_iff_left (hkept.mpr (hki.mpr hab))))

theorem ledger_of_run {txnId : TxnId} {db : StudentTable} {s : Solo}
    (hr : machine.Run (init txnId db) h s) (hne : s.thread.point ≠ .ended) : Ledger h s := by
  have hwf : ∀ {k u}, machine.Run (init txnId db) k u →
      u.thread.worker.Wf u.thread.point := fun hk => wf_of_run hk (Worker.wf_init txnId)
  refine hr.invariant (P := fun k t => t.thread.point ≠ .ended → Ledger k t) ?_ ?_ hne
  · refine fun _ => ⟨by simp [init, WorkerThread.init, Worker.init],
      Or.inl ⟨fun _ hc => ?_, rfl⟩⟩
    cases hc
  intro k u a out v hk ih hs hv
  cases a with
  | env students =>
      cases hs
      have ih := ih hv
      refine ⟨ih.status, ?_⟩
      rw [performed_snoc, acked_snoc]
      have hkept : Kept ⟨u, .env students, [], { u with students := students }⟩ := trivial
      simpa [operations, acknowledged] using ih.balance.congr
        (kept_snoc.trans (and_iff_left hkept))
  | own a =>
      have heff := WorkerThread.step_effect (hwf hk) (step_own hs)
      have ih := ih fun he => hv (heff.ended he)
      by_cases hr : ∀ job op, a = .recv job → job.buf.getOp = .ok op → ¬ op.Writes
      · exact ih.step_other (hwf hk) hs hv hr
      · push Not at hr
        obtain ⟨job, op, rfl, hop, hwr⟩ := hr
        exact ih.step_write (hwf hk) hs hop hwr

theorem step_commitTxn {job : Job} (hs : u.step (.own (.recv job)) = some (v, out))
    (hop : job.buf.getOp = .ok .commitTxn) :
    out = ({ u.thread.worker with timeoutCnt := 0 }.processCommit job.buf job.conn).2 := by
  have hs := step_own hs
  unfold WorkerThread.step at hs
  dsimp only at hs
  split at hs
  · obtain ⟨t, ht, heq⟩ := Option.map_eq_some_iff.mp hs
    obtain ⟨-, -, rfl⟩ := WorkerThread.after_eq heq
    rw [Worker.received_eq, Worker.dispatch, hop] at ht
    cases ht
    rfl
  · cases hs

/-- A commit is answered with nothing left to do. -/
theorem pending_of_answersCommit (hw : e.pre.thread.worker.Wf e.pre.thread.point)
    (hs : e.pre.step e.act = some (e.post, e.out)) (hc : AnswersCommit e)
    (hst : e.pre.thread.worker.status ≠ .committed) :
    e.pre.thread.worker.pending = [] ∧ operations e.out = [] := by
  obtain ⟨hsucc, ⟨job, ha, hop⟩ | ⟨ha, hp⟩⟩ := hc
  · rw [ha] at hs
    rw [step_commitTxn hs hop] at hsucc ⊢
    unfold Worker.processCommit at hsucc ⊢
    split at hsucc
    · rename_i hshrink
      rw [if_pos hshrink]
      refine ⟨?_, (plain_answer _ _ _ _).operations⟩
      by_cases hg : e.pre.thread.worker.status = .growing
      · exact Worker.pending_of_nil (hw.growing hg)
      · have hab : e.pre.thread.worker.status = .aborted := by
          have : e.pre.thread.worker.status ≠ .shrinking := hshrink
          cases hcase : e.pre.thread.worker.status <;> simp_all
        rw [Worker.pending, if_pos hab]
    · cases hsucc
  · rw [ha] at hs
    obtain ⟨parser, conn, hp⟩ := Point.isCommit_iff.mp hp
    obtain ⟨hc, ho⟩ := (WorkerThread.step_effect hw (step_own hs)).drained hw hp hsucc
    exact ⟨Worker.pending_of_nil hc, ho⟩

/-- **When an answered commit is a performed commit.** The operations that were performed when
`COMMIT_TXN` is answered `SUCCESS` are those of the writes that were answered `SUCCESS` before,
if and only if each of these requests was `Kept`. -/
theorem performed_eq_acked_iff {txnId : TxnId} {db : StudentTable} {s : Solo}
    (hr : machine.Run (init txnId db) (h ++ [e]) s) (hc : AnswersCommit e) :
    performed (h ++ [e]) = acked h ↔ ∀ c ∈ h, Kept c := by
  obtain ⟨hr', hs, -⟩ := hr.last
  have hw := wf_of_run hr' (Worker.wf_init txnId)
  have hne : e.pre.thread.point ≠ .ended := by
    intro hp
    obtain ⟨-, ⟨job, ha, -⟩ | ⟨-, hcommit⟩⟩ := hc
    · rw [ha] at hs
      have := step_own hs
      rw [WorkerThread.step, hp] at this
      cases this
    · rw [hp] at hcommit
      cases hcommit
  have hl := ledger_of_run hr' hne
  obtain ⟨hpend, hops⟩ := pending_of_answersCommit hw hs hc hl.status
  have hbal := hl.balance
  rw [hpend, List.append_nil] at hbal
  rw [performed_snoc, hops, List.append_nil]
  exact hbal.eq_iff

/-- The next turn of the thread answers its commit. -/
def AboutToAnswer (s : Solo) : Prop :=
  s.thread.point.isCommit = true ∧
    (s.step (.own .resume)).map (fun r => r.2.any Event.isSuccess) = some true

instance (s : Solo) : Decidable (AboutToAnswer s) := by
  unfold AboutToAnswer
  infer_instance

theorem answersCommit_of_about {s : Solo} (hs : AboutToAnswer s) : ∃ v out,
    s.step (.own .resume) = some (v, out) ∧ AnswersCommit ⟨s, .own .resume, out, v⟩ := by
  obtain ⟨hp, hout⟩ := hs
  obtain ⟨r, hr, hsucc⟩ := Option.map_eq_some_iff.mp hout
  exact ⟨r.1, r.2, hr, hsucc, Or.inr ⟨rfl, hp⟩⟩

/-- The transaction reads the row exclusively, deletes it and takes up its commit. -/
def deleteRow : List SoloAct :=
  handle (.request .exclusiveRead 1 0 []) 1 ++ handle (.request .delete 1 0 []) 0 ++
    handle (.request .commitTxn 1 0 []) 1

theorem performed_eq_acked_iff_delete : ∃ h e s,
    machine.Run (init 0 oneRow) (h ++ [e]) s ∧ AnswersCommit e ∧
      (acked h).length = 1 ∧ performed (h ++ [e]) = acked h := by
  obtain ⟨h, s, hr, hp⟩ := Machine.exists_run_of_exec (M := machine)
    (s := init 0 oneRow)
    (p := fun h s => decide (AboutToAnswer s ∧ (acked h).length = 1 ∧ ∀ c ∈ h, Kept c))
    (show (machine.exec _ deleteRow).map _ = some true by decide +kernel)
  simp only [decide_eq_true_eq] at hp
  obtain ⟨habout, hlen, hkept⟩ := hp
  obtain ⟨v, out, hs, hc⟩ := answersCommit_of_about habout
  have hrun := hr.snoc (a := .own .resume) hs
  exact ⟨h, _, v, hrun, hc, hlen, (performed_eq_acked_iff hrun hc).mpr hkept⟩

/-- A table with one row that another transaction reads. -/
def sharedRow : StudentTable := oneRow.traitWaitShared.2

/-- The transaction reads the row too, asks in vain for the exclusive lock, which aborts it, and
adds a tuple. -/
def addAborted : List SoloAct :=
  handle (.request .sharedRead 1 0 []) 1 ++
    handle (.request .promote 1 0 []) (maxTimeoutRetry + 1) ++
    handle (.request .addTuple 1 0 (List.replicate 37 0)) 0 ++ [.own .resume]

/-- A tuple is acknowledged in the phase `ABORTED`, and the commit that is answered inserts
nothing. -/
theorem not_always_performed_eq_acked : ¬ ∀ (txnId : TxnId) (db : StudentTable)
    (h : List (Entry Solo SoloAct Event)) (e : Entry Solo SoloAct Event) (s : Solo),
    machine.Run (init txnId db) (h ++ [e]) s → AnswersCommit e →
      performed (h ++ [e]) = acked h := by
  intro hall
  obtain ⟨h, u, v, out, hr, hs, hp⟩ := Machine.exists_step_of_exec (M := machine)
    (s := init 0 sharedRow) (a := .own (.recv (.request .commitTxn 1 0 [])))
    (p := fun h _ _ out => decide ((acked h).length = 1 ∧ performed h = [] ∧
      operations out = [] ∧ out.any Event.isSuccess = true))
    (show ((machine.exec _ addAborted).bind _) = some true by decide +kernel)
  simp only [decide_eq_true_eq] at hp
  obtain ⟨hacked, hperformed, hops, hsucc⟩ := hp
  have heq := hall 0 _ h _ v (hr.snoc hs) ⟨hsucc, Or.inl ⟨_, rfl, rfl⟩⟩
  rw [performed_snoc, hperformed, hops] at heq
  rw [← heq] at hacked
  cases hacked

end Solo

end PawnDB
