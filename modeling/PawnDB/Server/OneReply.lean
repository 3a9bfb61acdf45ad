import PawnDB.Server.Stations

set_option autoImplicit false

/-! # One request, one reply, one pop

At every station the books balance (`Balanced`), the socket is open as long as there are jobs in
the channel, and these jobs are served: the handler of the job in hand can make all its turns
(`Settling`), a thread does not take more than a few turns from one wait to the next, and while
there are jobs in the channel there is always a step that the station can make. `oneReply_iff`
says when all this is so.
-/

namespace PawnDB

open Bytes

/-- The request takes the worker into the drain loop of a commit. -/
def Worker.startsDrain (w : Worker) (job : Job) : Bool :=
  match job.buf.getOp with
  | .ok op => decide (op = .commitTxn ∧ w.status = .shrinking)
  | .error _ => false

theorem Worker.startsDrain_iff {w : Worker} {job : Job} : w.startsDrain job = true ↔
    job.buf.getOp = .ok .commitTxn ∧ w.status = .shrinking := by
  unfold startsDrain
  split
  · next op hop => simp [hop]
  · next err hop => simp [hop]

theorem Worker.received_isCommit_iff {w : Worker} {db : StudentTable} {job : Job} {t : Turn}
    (h : w.received db job = some t) :
    t.point.isCommit = true ↔ w.startsDrain job = true := by
  rw [startsDrain_iff]
  constructor
  · exact received_isCommit h
  · rintro ⟨hop, hst⟩
    rw [received_eq, dispatch, hop] at h
    cases h
    have hpoint : ({ w with timeoutCnt := 0 } : Worker).processCommit job.buf job.conn
        = (.commit job.buf job.conn, []) := if_neg (not_not.mpr hst)
    show (({ w with timeoutCnt := 0 } : Worker).processCommit job.buf job.conn).1.isCommit = true
    rw [hpoint]
    rfl

theorem Point.turnsToWait_le {w : Worker} (p : Point) : p.turnsToWait w ≤ p.stepsToEnd w := by
  cases p with
  | recv => exact Nat.zero_le _
  | _ => exact le_rfl

/-- A turn of a thread takes it nearer to its next wait for a job. -/
theorem WorkerThread.resume_turnsToWait {th : WorkerThread} {db : StudentTable} {t : Turn}
    (h : th.resume db = some t) :
    t.point.turnsToWait t.worker < th.point.turnsToWait th.worker := by
  by_cases hrun : th.point = .loop → th.running = false
  · have hlt := WorkerThread.resume_stepsToEnd hrun h
    have hle := t.point.turnsToWait_le (w := t.worker)
    have heq : th.point.turnsToWait th.worker = th.point.stepsToEnd th.worker := by
      cases hp : th.point with
      | recv =>
          rw [WorkerThread.resume, hp] at h
          cases h
      | _ => rfl
    omega
  · rw [Classical.not_imp, Bool.not_eq_false] at hrun
    obtain ⟨hp, hrunning⟩ := hrun
    rw [WorkerThread.resume, hp, hrunning] at h
    cases h
    rw [hp]
    exact Nat.zero_lt_succ _

namespace System

variable {ι : Type} [DecidableEq ι]

/-- If the entries of a commit drain out, then they do so after any step other than the one that
takes up the request. -/
theorem drainsOut_of_step [Fintype ι] {db : StudentTable} (hdb : db.AtRest) {txnIds : ι → TxnId}
    {h : List (Entry (System ι) (ι × Act) Event)} {s s' : System ι}
    (hr : (machine ι).Run (init db txnIds) h s) {i j : ι} {b : Act} {out : List Event}
    (hs : s.step (j, b) = some (s', out)) (hb : j = i → ∀ job, b ≠ .recv job)
    (hd : (s.threads i).point.isCommit = true → (s.threads i).worker.DrainsOut)
    (hp' : (s'.threads i).point.isCommit = true) : (s'.threads i).worker.DrainsOut := by
  obtain ⟨th, hth, hthreads⟩ := step_eq hs
  by_cases hij : j = i
  swap
  · rw [hthreads, Slots.set_of_ne _ _ (Ne.symm hij)] at hp' ⊢
    exact hd hp'
  subst hij
  have hpt : th.point.isCommit = true := by rwa [hthreads, Slots.set_self] at hp'
  -- the thread was in its drain loop before
  have hp : (s.threads j).point.isCommit = true := by
    rw [← Bool.not_eq_false]
    intro hp
    obtain ⟨job, rfl, -⟩ := WorkerThread.step_isCommit hth hpt hp
    exact hb rfl job rfl
  cases b with
  | recv job => exact absurd rfl (hb rfl job)
  | resume =>
      cases he : (s.threads j).worker.commitQueue.empty with
      | false => exact (commit_applied hdb hr hs hp he).1.mpr (hd hp)
      | true =>
          obtain ⟨parser, conn, hpc⟩ := Point.isCommit_iff.mp hp
          obtain ⟨s'', out', hs'', hp''⟩ := step_drained hpc he
          rw [hs] at hs''
          cases hs''
          rw [hp''] at hp'
          cases hp'
  | recvTimeout =>
      obtain ⟨parser, conn, hpc⟩ := Point.isCommit_iff.mp hp
      rw [WorkerThread.step, hpc] at hth
      cases hth
  | stop =>
      obtain ⟨rfl, -⟩ := Prod.mk.inj (Option.some.inj hth)
      rw [hthreads, Slots.set_self]
      exact hd hp

end System

def StationAct.isOwn : StationAct → Bool
  | .recv | .resume | .join => true
  | _ => false

namespace Stations

open StationEvent

variable {ι : Type} [DecidableEq ι] {s s' : Stations ι} {i j : ι} {a : StationAct}
  {act : StationsAct ι} {out l : List StationEvent} {job : Job} {t : Turn}
  {h k : List (Entry (Stations ι) (StationsAct ι) (ι × StationEvent))}
  {e : List (ι × StationEvent)} {db : StudentTable} {txnIds : ι → TxnId}

/-- A step in which thread `i` takes up a job. -/
def receives (i : ι) : StationsAct ι → Bool
  | .station j .recv => decide (j = i)
  | _ => false

/-- The handler of the job in hand is not stuck: until the thread takes up another job, whatever
happens, the next turn of the handler is possible. -/
def Settling (s : Stations ι) (i : ι) : Prop :=
  ∀ k t, (machine ι).Run s k t → (∀ e ∈ k, receives i e.act = false) → t.inHand i ≠ [] →
    ∃ t' out, t.step (.station i .resume) = some (t', out)

/-- Every job that the station has been sent is served: it has been popped and answered once, or
it is still in the channel and will be, as the thread makes its turns. -/
structure OneReply (h : List (Entry (Stations ι) (StationsAct ι) (ι × StationEvent)))
    (s : Stations ι) (i : ι) : Prop where
  balanced : Balanced (outOf i h) s i
  /-- A handler takes at most seventeen turns. -/
  turns : s.inHand i ≠ [] → waited (actsOf i h) + s.turnsLeft i ≤ maxTurns
  /-- The next wait for a job, or the end of the thread, is near. -/
  wait : waited (actsOf i h) + s.turnsToWait i ≤ maxStepsToEnd
  fdOpen : (s.jobCh i).empty = false → s.fdOpen = true
  settling : s.Settling i
  /-- A job in the channel is not forgotten. -/
  next : (s.jobCh i).empty = false →
    ∃ a s' out, a.isOwn = true ∧ s.step (.station i a) = some (s', out)

/-- The socket is open when a job is sent, and it is not closed before all channels are empty. A
job that is received does not overfill the commit queue, and if it starts a drain loop, then the
queued entries are deletes of different rows. A row that a shared read is granted is taken by the
lock list. -/
def sound [Fintype ι] (e : Entry (Stations ι) (StationsAct ι) (ι × StationEvent)) : Bool :=
  match e.act with
  | .close => decide (∀ i, (e.pre.jobCh i).empty = true)
  | .station i a =>
      let th := e.pre.system.threads i
      match a with
      | .send _ => e.pre.fdOpen
      | .recv =>
          match (e.pre.jobCh i).get with
          | .ok (some job) => !th.worker.overfills job &&
              (!th.worker.startsDrain job || decide th.worker.Drainable)
          | _ => true
      | .resume => !th.point.isSharedRead || th.takes e.pre.system.students
      | _ => true

/-! ## The books -/

/-- A turn that settles the job in hand. -/
theorem Ledger.settle {handled dead rest : List Job} {answers : List Reply} {left : Nat}
    (h : Ledger out (s.jobCh i) (s.joined i) [job] handled dead (job :: rest) answers)
    (hopen : s.fdOpen = true) (hs : Settles job left t) :
    Balanced (out ++ t.out.map (.worker s.fdOpen)) (s.after i t) i ∧
      ((s.after i t).inHand i ≠ [] → (s.after i t).turnsLeft i < left) := by
  rw [Balanced, after_jobCh, after_inHand, after_turnsLeft]
  cases hs with
  | waits hhand hleft hreplies hpops =>
      refine ⟨⟨handled, dead, job :: rest, answers, ?_⟩, fun _ => hleft⟩
      rw [hhand]
      exact h.quiet _ hreplies hpops
  | done r hhand hans hreplies hpops =>
      refine ⟨⟨handled ++ [job], dead, rest, answers ++ [r], ?_⟩, fun hne => absurd hhand hne⟩
      rw [hhand, hopen]
      exact h.done hans hreplies hpops

/-- A job that is received is settled or taken into the hand. -/
theorem Balanced.recv (hb : Balanced out s i)
    (hopen : (s.jobCh i).empty = false → s.fdOpen = true)
    (hq : (s.system.threads i).worker.commitQueue.Wf) (hget : (s.jobCh i).get = .ok (some job))
    (hp : (s.system.threads i).point = .recv)
    (ht : (s.system.threads i).worker.received s.system.students job = some t)
    (hroom : (s.system.threads i).worker.overfills job = false) :
    Balanced (out ++ .received job :: t.out.map (.worker s.fdOpen)) (s.after i t) i ∧
      ((s.after i t).inHand i ≠ [] → (s.after i t).turnsLeft i ≤ maxTurns) := by
  obtain ⟨handled, dead, rest, answers, hl⟩ := hb
  obtain ⟨rest, rfl⟩ := hl.held.exists_of_get hget
  have hhand : s.inHand i = [] := by rw [inHand, hp]; rfl
  have hne : (s.jobCh i).empty = false := hl.held.empty_eq_false (List.cons_ne_nil _ _)
  rw [hhand] at hl
  rw [Worker.received_eq] at ht
  obtain ⟨hbal, hleft⟩ := hl.recv.settle (hopen hne) (Worker.dispatch_settles
    (w := { (s.system.threads i).worker with timeoutCnt := 0 }) hq ht hroom)
  rw [List.append_assoc] at hbal
  exact ⟨hbal, fun hne => Nat.le_of_lt_succ (hleft hne)⟩

/-- A turn of the thread. -/
theorem Balanced.resume (hb : Balanced out s i)
    (hopen : (s.jobCh i).empty = false → s.fdOpen = true)
    (hw : (s.system.threads i).worker.Wf (s.system.threads i).point)
    (ht : (s.system.threads i).resume s.system.students = some t)
    (htakes : (s.system.threads i).point.isSharedRead = true →
      (s.system.threads i).takes s.system.students = true) :
    Balanced (out ++ t.out.map (.worker s.fdOpen)) (s.after i t) i ∧
      (((s.after i t).jobCh i).empty = false → (s.jobCh i).empty = false) ∧
      ((s.after i t).inHand i ≠ [] →
        s.inHand i ≠ [] ∧ (s.after i t).turnsLeft i < s.turnsLeft i) := by
  obtain ⟨handled, dead, rest, answers, hl⟩ := hb
  rcases Point.inHand_cases (s.system.threads i).point with hhand | ⟨job, hhand⟩
  · obtain ⟨hnone, hreplies, hpops⟩ := WorkerThread.quiet_resume ht hhand
    rw [Balanced, after_jobCh, after_inHand, hnone]
    refine ⟨⟨handled, dead, rest, answers, ?_⟩, fun hne => ?_, fun hne => absurd rfl hne⟩
    · rw [inHand, hhand] at hl
      exact hl.quiet _ hreplies hpops
    · rwa [hpops] at hne
  · have hs := WorkerThread.resume_settles hw ht hhand htakes
    rw [inHand, hhand] at hl
    obtain ⟨rest, rfl⟩ := hl.next
    have hne : (s.jobCh i).empty = false := hl.held.empty_eq_false (List.cons_ne_nil _ _)
    obtain ⟨hbal, hleft⟩ := hl.settle (hopen hne) hs
    refine ⟨hbal, fun _ => hne, fun hne => ⟨?_, hleft hne⟩⟩
    rw [inHand, hhand]
    exact List.cons_ne_nil _ _

/-- The join of a thread that has ended. -/
theorem Balanced.join {jobCh : JobChannel} {replies : List Reply} (hb : Balanced out s i)
    (hopen : (s.jobCh i).empty = false → s.fdOpen = true)
    (hp : (s.system.threads i).point = .ended) (hj : s.joined i = false)
    (hack : WorkerContext.ackLoop (s.jobCh i).count.toNat (s.jobCh i) = some (jobCh, replies)) :
    Balanced (out ++ replies.map (.dead s.fdOpen))
      { s with
        jobCh := Slots.set s.jobCh i jobCh
        joined := Slots.set s.joined i true } i := by
  obtain ⟨handled, dead, rest, answers, hl⟩ := hb
  have hhand : s.inHand i = [] := by rw [inHand, hp]; rfl
  obtain ⟨jobCh', hq, hempty⟩ := WorkerContext.ackLoop_eq hl.held
  rw [← hl.held.length_eq, hq] at hack
  cases hack
  rw [hhand, hj] at hl
  refine ⟨handled, rest, [], answers, ?_⟩
  show Ledger _ (Slots.set s.jobCh i jobCh i) (Slots.set s.joined i true i) (s.inHand i) _ _ _ _
  rw [Slots.set_self, Slots.set_self, hhand]
  exact hl.join hempty fun hne => hopen (hl.held.empty_eq_false hne)

omit [DecidableEq ι] in
/-- Books that balance before and after have as many new replies as jobs that were received or in
hand. -/
theorem Ledger.replies_eq {handled dead rest inHand : List Job} {answers : List Reply}
    (h : Ledger out (s.jobCh i) (s.joined i) inHand handled dead (job :: rest) answers)
    (hb : Balanced (out ++ l) s' i) (hj : s'.joined i = s.joined i) (hhand : s'.inHand i = []) :
    (repliesIn l).length = (receivedIn l).length + inHand.length := by
  obtain ⟨handled', dead', rest', answers', hl⟩ := hb
  have hunjoined : s.joined i = false := by
    rw [← Bool.not_eq_true]
    intro hjoined
    cases h.emptied hjoined
  have hbefore := h.balance h.dead_eq_nil
  have hafter := hl.balance (hl.unjoined (hj.trans hunjoined))
  rw [hhand, repliesIn_append, receivedIn_append, List.length_append, List.length_append,
    List.length_nil] at hafter
  omega

/-! ## Runs -/

theorem step_system (hs : s.step act = some (s', e)) : s'.system = s.system ∨ ∃ i b l,
    s.system.step (i, b) = some (s'.system, l) ∧ ∀ job, b = .recv job → act = .station i .recv := by
  rcases step_cases hs with ⟨i, a, out, rfl, -, ht⟩ | ⟨-, -, rfl⟩
  · rcases ht.system with heq | ⟨b, l, hb, hrecv⟩
    · exact Or.inl heq
    · exact Or.inr ⟨i, b, l, hb, fun job hjob => by rw [hrecv job hjob]⟩
  · exact Or.inl rfl

/-- The threads of the stations are a system. -/
theorem system_of_run (hr : (machine ι).Run (init db txnIds) h s) :
    ∃ k, (System.machine ι).Run (System.init db txnIds) k s.system := by
  refine hr.invariant (P := fun _ u => ∃ k, (System.machine ι).Run (System.init db txnIds) k
    u.system) ⟨[], Machine.Run.nil _⟩ ?_
  rintro k u act out v - ⟨k', hk'⟩ hs
  rcases step_system hs with heq | ⟨i, b, l, hb, -⟩
  · exact ⟨k', heq ▸ hk'⟩
  · exact ⟨_, hk'.snoc hb⟩

/-- A turn of a thread is a step of its station. -/
theorem step_resume (ht : (s.system.threads i).resume s.system.students = some t) :
    s.step (.station i .resume)
      = some (s.after i t, (t.out.map (.worker s.fdOpen)).map (Prod.mk i)) := by
  rw [step, turn, go, System.step, WorkerThread.step, ht]
  rfl

theorem Settling.step (hset : s.Settling i) (hs : s.step act = some (s', e))
    (hno : receives i act = false) : s'.Settling i := by
  intro k t hk hnone hhand
  refine hset _ t ((Machine.Run.single hs).trans hk) (fun e he => ?_) hhand
  rcases List.mem_cons.mp he with rfl | he
  · exact hno
  · exact hnone e he

/-- If the entries of a commit drain out, then they do so after any step other than the one that
takes up the request. -/
theorem drainsOut_of_step [Fintype ι] (hdb : db.AtRest)
    (hr : (machine ι).Run (init db txnIds) h s) (hs : s.step act = some (s', e))
    (hno : receives i act = false)
    (hd : (s.system.threads i).point.isCommit = true → (s.system.threads i).worker.DrainsOut)
    (hp : (s'.system.threads i).point.isCommit = true) :
    (s'.system.threads i).worker.DrainsOut := by
  rcases step_system hs with heq | ⟨j, b, l, hb, hrecv⟩
  · rw [heq] at hp ⊢
    exact hd hp
  · obtain ⟨k, hk⟩ := system_of_run hr
    refine System.drainsOut_of_step hdb hk hb (fun hij job hjob => ?_) hd hp
    rw [hrecv job hjob, receives, decide_eq_true hij] at hno
    cases hno

theorem exists_turn {l : List (ι × StationEvent)}
    (hs : s.step (.station i .resume) = some (s', l)) :
    ∃ t, (s.system.threads i).resume s.system.students = some t ∧ s' = s.after i t := by
  rcases step_cases hs with ⟨_, _, out, heq, -, ht⟩ | ⟨heq, -, -⟩
  · cases heq
    cases ht with
    | resume ht => exact ⟨_, ht, rfl⟩
  · cases heq

/-- **A handler is stuck only in a commit** whose entries do not drain out. -/
theorem settling_iff [Fintype ι] (hdb : db.AtRest) (hr : (machine ι).Run (init db txnIds) h s) :
    s.Settling i ↔ ((s.system.threads i).point.isCommit = true →
      (s.system.threads i).worker.DrainsOut) := by
  constructor
  · intro hset hp
    -- by induction on the entries that are left
    induction hn : (s.system.threads i).worker.commitQueue.contents.length generalizing h s with
    | zero =>
        rw [List.length_eq_zero_iff] at hn
        rw [Worker.DrainsOut, Worker.Drainable, hn]
        exact ⟨⟨fun _ he => absurd he List.not_mem_nil, List.Pairwise.nil⟩,
          fun _ he => absurd he List.not_mem_nil⟩
    | succ n ih =>
        obtain ⟨k, hk⟩ := system_of_run hr
        obtain ⟨parser, conn, hpc⟩ := Point.isCommit_iff.mp hp
        obtain ⟨s', l, hs⟩ := hset [] s (.nil s) (fun _ he => absurd he List.not_mem_nil)
          (by rw [inHand, hpc]; exact List.cons_ne_nil _ _)
        obtain ⟨t, ht, rfl⟩ := exists_turn hs
        have he : (s.system.threads i).worker.commitQueue.empty = false := by
          rw [← Bool.not_eq_true, CommitQueue.empty_iff, ← List.length_eq_zero_iff, hn]
          exact Nat.succ_ne_zero n
        have hsys : s.system.step (i, .resume) = some ((s.after i t).system, t.out) := by
          rw [System.step, WorkerThread.step, ht]
          rfl
        obtain ⟨hiff, hpoint, hcont⟩ := System.commit_applied hdb hk hsys hp he
        rw [hcont, List.length_cons, Nat.succ.injEq] at hn
        have hrs : (machine ι).Run (init db txnIds)
            (h ++ [⟨s, .station i .resume, l, s.after i t⟩]) (s.after i t) := hr.snoc hs
        exact hiff.mp (ih hrs (hset.step hs rfl) (hpoint ▸ hp) hn)
  · intro hd k t hk hnone hhand
    obtain ⟨hrt, hdt⟩ := hk.invariant_within (P := fun k t =>
      (machine ι).Run (init db txnIds) (h ++ k) t ∧ ((t.system.threads i).point.isCommit = true →
        (t.system.threads i).worker.DrainsOut)) hnone ⟨by simpa using hr, hd⟩
      fun k u a out v _ _ ih hs hno =>
        ⟨by simpa using ih.1.snoc hs, drainsOut_of_step hdb ih.1 hs hno ih.2⟩
    obtain ⟨k', hk'⟩ := system_of_run hrt
    have hresume : ∃ turn, (t.system.threads i).resume t.system.students = some turn := by
      rw [System.resume_iff hdb hk' (fun hp => hhand (by rw [inHand, hp]; rfl))
        (fun hp => hhand (by rw [inHand, hp]; rfl))]
      exact fun hp => (hdt hp).drains_eq (System.threads_of_run hk' i).queue
    obtain ⟨turn, hturn⟩ := hresume
    exact ⟨_, _, step_resume hturn⟩

/-- While there are jobs in the channel, the station can make a step of its own. -/
theorem exists_next [Fintype ι] (hdb : db.AtRest) (hr : (machine ι).Run (init db txnIds) h s)
    (hb : Balanced out s i) (hset : s.Settling i) (hne : (s.jobCh i).empty = false) :
    ∃ a s' out, a.isOwn = true ∧ s.step (.station i a) = some (s', out) := by
  by_cases hhand : s.inHand i = []
  swap
  · obtain ⟨s', l, hs⟩ := hset [] s (.nil s) (fun _ he => absurd he List.not_mem_nil) hhand
    exact ⟨.resume, s', l, rfl, hs⟩
  obtain ⟨handled, dead, rest, answers, hl⟩ := hb
  obtain ⟨k, hk⟩ := system_of_run hr
  have hrest : rest ≠ [] := by
    rw [Ne, ← hl.held.empty_iff, hne]
    exact Bool.false_ne_true
  obtain ⟨job, rest, rfl⟩ := List.exists_cons_of_ne_nil hrest
  by_cases hrecv : (s.system.threads i).point = .recv
  · obtain ⟨t, ht⟩ := System.received_isSome hdb hk hrecv job
    have hs : ∃ s' l, s.step (.station i .recv) = some (s', l) := by
      simp only [step, turn, hl.held.get_cons, go, System.step, WorkerThread.step, hrecv, ht]
      exact ⟨_, _, rfl⟩
    obtain ⟨s', l, hs⟩ := hs
    exact ⟨.recv, s', l, rfl, hs⟩
  by_cases hend : (s.system.threads i).point = .ended
  · have hj : s.joined i = false := by
      rw [← Bool.not_eq_true]
      intro hj
      exact hrest (hl.emptied hj)
    obtain ⟨jobCh, hack, -⟩ := WorkerContext.ackLoop_eq hl.held
    have hs : ∃ s' l, s.step (.station i .join) = some (s', l) := by
      simp only [step, turn, hend, hj, ← hl.held.length_eq, hack]
      exact ⟨_, _, rfl⟩
    obtain ⟨s', l, hs⟩ := hs
    exact ⟨.join, s', l, rfl, hs⟩
  · have hcommit : (s.system.threads i).point.isCommit = true →
        (s.system.threads i).worker.drains = true := fun hp => by
      obtain ⟨parser, conn, hp⟩ := Point.isCommit_iff.mp hp
      rw [inHand, hp] at hhand
      cases hhand
    obtain ⟨t, ht⟩ := (System.resume_iff hdb hk hrecv hend).mpr hcommit
    exact ⟨.resume, _, _, rfl, step_resume ht⟩

/-! ## The condition -/

theorem OneReply.of_books [Fintype ι] (hdb : db.AtRest)
    (hr : (machine ι).Run (init db txnIds) h s) (hb : Balanced (outOf i h) s i)
    (hturns : s.inHand i ≠ [] → waited (actsOf i h) + s.turnsLeft i ≤ maxTurns)
    (hwait : waited (actsOf i h) + s.turnsToWait i ≤ maxStepsToEnd)
    (hopen : (s.jobCh i).empty = false → s.fdOpen = true) (hset : s.Settling i) :
    OneReply h s i :=
  ⟨hb, hturns, hwait, hopen, hset, exists_next hdb hr hb hset⟩

theorem oneReply_init [Fintype ι] (hdb : db.AtRest) : OneReply [] (init db txnIds) i :=
  .of_books hdb (.nil _) ⟨[], [], [], [], Ledger.init⟩ (fun hne => absurd rfl hne)
    (show 0 + (maxLockPerTransaction + 2) ≤ maxStepsToEnd by decide) (fun _ => rfl)
    ((settling_iff hdb (.nil _)).mpr fun hp => by cases hp)

/-- A step at another station. -/
theorem OneReply.other [Fintype ι] (hdb : db.AtRest)
    (hr : (machine ι).Run (init db txnIds) (h ++ [⟨s, .station i a, out.map (Prod.mk i), s'⟩]) s')
    (hb : OneReply h s j) (ht : Turned s i a s' out) (hj : j ≠ i) :
    OneReply (h ++ [⟨s, .station i a, out.map (Prod.mk i), s'⟩]) s' j := by
  obtain ⟨hthread, hjobCh, hjoined⟩ := ht.framed hj
  have hno : receives j (.station i a) = false := by
    cases a with
    | recv => exact decide_eq_false (Ne.symm hj)
    | _ => rfl
  have hhand : s'.inHand j = s.inHand j := by rw [inHand, hthread]; rfl
  refine .of_books hdb hr ?_ ?_ ?_ ?_ (hb.settling.step hr.last.2.1 hno)
  · rw [outOf_of_ne hj, Balanced, hjobCh, hjoined, hhand]
    exact hb.balanced
  · rw [actsOf_of_ne hj, hhand, turnsLeft, hthread]
    exact hb.turns
  · rw [actsOf_of_ne hj, turnsToWait, hthread]
    exact hb.wait
  · rw [hjobCh, ht.fdOpen_eq]
    exact hb.fdOpen

/-- What a commit request finds in the queue decides whether the entries drain out. -/
theorem drainsOut_iff [Fintype ι] (hdb : db.AtRest) (hr : (machine ι).Run (init db txnIds) h s)
    (hp : (s.system.threads i).point = .recv)
    (ht : (s.system.threads i).worker.received s.system.students job = some t)
    (hc : t.point.isCommit = true) :
    t.worker.DrainsOut ↔ (s.system.threads i).worker.Drainable := by
  obtain ⟨k, hk⟩ := system_of_run hr
  have hth : (s.system.threads i).step s.system.students (.recv job)
      = some ((s.system.threads i).after t) := by
    rw [WorkerThread.step, hp]
    dsimp only
    rw [ht]
    rfl
  have hs : s.system.step (i, .recv job) = some ((s.after i t).system, t.out) := by
    rw [System.step, hth]
    rfl
  obtain ⟨hq, -⟩ := (WorkerThread.step_effect (System.threads_of_run hk i) hth).start hc
  change t.worker.commitQueue = _ at hq
  have hthread : ((s.after i t).system.threads i).worker = t.worker := by rw [after_thread]
  have hlocked := fun (e : Commit) => System.locked_of_start (e := e) hdb hk hs
    (by rw [after_thread]; exact hc)
  rw [hthread] at hlocked
  rw [Worker.DrainsOut, Worker.Drainable, Worker.Drainable, hq] at *
  refine ⟨And.left, fun hd => ⟨hd, fun e he => hlocked e he ?_⟩⟩
  rw [hd.1 e he]
  decide

/-- After a turn the next wait for a job is near. -/
theorem wait_after {acts : List StationAct} (hr : (machine ι).Run (init db txnIds) h s)
    (hw : waited acts = 0) :
    waited acts + s.turnsToWait i ≤ maxStepsToEnd := by
  obtain ⟨k, hk⟩ := system_of_run hr
  rw [hw, Nat.zero_add]
  exact (Point.turnsToWait_le _).trans (Point.stepsToEnd_le (System.threads_of_run hk i).queue _)

/-- A step at the station in which the thread makes no turn. -/
theorem OneReply.still [Fintype ι] (hdb : db.AtRest)
    (hr : (machine ι).Run (init db txnIds) (h ++ [⟨s, .station i a, out.map (Prod.mk i), s'⟩]) s')
    (hb : OneReply h s i) (hwaited : waited (actsOf i h ++ [a]) = waited (actsOf i h))
    (hno : receives i (.station i a) = false)
    (hpoint : (s'.system.threads i).point = (s.system.threads i).point)
    (hworker : (s'.system.threads i).worker = (s.system.threads i).worker)
    (hbal : Balanced (outOf i h ++ out) s' i)
    (hopen : (s'.jobCh i).empty = false → s'.fdOpen = true) :
    OneReply (h ++ [⟨s, .station i a, out.map (Prod.mk i), s'⟩]) s' i := by
  refine .of_books hdb hr ?_ ?_ ?_ hopen (hb.settling.step hr.last.2.1 hno)
  · rw [outOf_own]
    exact hbal
  · rw [actsOf_own, hwaited, inHand, turnsLeft, hpoint, hworker]
    exact hb.turns
  · rw [actsOf_own, hwaited, turnsToWait, hpoint, hworker]
    exact hb.wait

/-- A job is received that does not overfill the queue and starts no commit that gets stuck. -/
theorem OneReply.recv [Fintype ι] (hdb : db.AtRest)
    (hk : (machine ι).Run (init db txnIds) h s)
    (hr : (machine ι).Run (init db txnIds)
      (h ++ [⟨s, .station i .recv, out.map (Prod.mk i), s.after i t⟩]) (s.after i t))
    (hb : OneReply h s i) (hget : (s.jobCh i).get = .ok (some job))
    (hp : (s.system.threads i).point = .recv)
    (hrec : (s.system.threads i).worker.received s.system.students job = some t)
    (hout : out = .received job :: t.out.map (.worker s.fdOpen))
    (hroom : (s.system.threads i).worker.overfills job = false)
    (hdrain : (s.system.threads i).worker.startsDrain job = true →
      (s.system.threads i).worker.Drainable) :
    OneReply (h ++ [⟨s, .station i .recv, out.map (Prod.mk i), s.after i t⟩]) (s.after i t) i := by
  subst hout
  obtain ⟨k, hsys⟩ := system_of_run hk
  have hq := (System.threads_of_run hsys i).queue
  obtain ⟨hbal, hleft⟩ := hb.balanced.recv hb.fdOpen hq hget hp hrec hroom
  refine .of_books hdb hr ?_ ?_ (wait_after hr ?_) (fun _ => ?_) ?_
  · rw [outOf_own]
    exact hbal
  · rw [actsOf_own, waited_snoc]
    exact fun hne => (Nat.zero_add _).trans_le (hleft hne)
  · rw [actsOf_own, waited_snoc]
  · obtain ⟨handled, dead, rest, answers, hl⟩ := hb.balanced
    obtain ⟨rest, rfl⟩ := hl.held.exists_of_get hget
    exact hb.fdOpen (hl.held.empty_eq_false (List.cons_ne_nil _ _))
  · rw [settling_iff hdb hr, after_thread]
    intro hc
    rw [drainsOut_iff hdb hk hp hrec hc]
    exact hdrain ((Worker.received_isCommit_iff hrec).mp hc)

/-- The wait for a job has timed out. -/
theorem OneReply.recvTimeout [Fintype ι] (hdb : db.AtRest) (hno : t.point.inHand = [])
    (hquiet : t.out = []) (hr : (machine ι).Run (init db txnIds)
      (h ++ [⟨s, .station i .recvTimeout, out.map (Prod.mk i), s.after i t⟩]) (s.after i t))
    (hb : OneReply h s i) (hp : (s.system.threads i).point = .recv) (hout : out = []) :
    OneReply (h ++ [⟨s, .station i .recvTimeout, out.map (Prod.mk i), s.after i t⟩])
      (s.after i t) i := by
  subst hout
  have hhand : s.inHand i = [] := by rw [inHand, hp]; rfl
  have hstep : s.step (.station i .recvTimeout) = some (s.after i t, [].map (Prod.mk i)) :=
    hr.last.2.1
  refine .of_books hdb hr ?_ ?_ (wait_after hr ?_) ?_ (hb.settling.step hstep rfl)
  · obtain ⟨handled, dead, rest, answers, hl⟩ := hb.balanced
    rw [hhand] at hl
    rw [outOf_own, List.append_nil, Balanced, after_jobCh, after_inHand, hno, hquiet]
    exact ⟨handled, dead, rest, answers, hl⟩
  · rw [after_inHand]
    exact fun hne => absurd hno hne
  · rw [actsOf_own, waited_snoc]
  · rw [after_jobCh, hquiet]
    exact hb.fdOpen

/-- The thread makes a turn, and a row that a shared read is granted is taken. -/
theorem OneReply.resume [Fintype ι] (hdb : db.AtRest)
    (hk : (machine ι).Run (init db txnIds) h s)
    (hr : (machine ι).Run (init db txnIds)
      (h ++ [⟨s, .station i .resume, out.map (Prod.mk i), s.after i t⟩]) (s.after i t))
    (hb : OneReply h s i) (hres : (s.system.threads i).resume s.system.students = some t)
    (hout : out = t.out.map (.worker s.fdOpen))
    (htakes : (s.system.threads i).point.isSharedRead = true →
      (s.system.threads i).takes s.system.students = true) :
    OneReply (h ++ [⟨s, .station i .resume, out.map (Prod.mk i), s.after i t⟩])
      (s.after i t) i := by
  subst hout
  obtain ⟨k, hsys⟩ := system_of_run hk
  obtain ⟨hbal, hne, hleft⟩ :=
    hb.balanced.resume hb.fdOpen (System.threads_of_run hsys i) hres htakes
  refine .of_books hdb hr ?_ ?_ ?_ (fun hne' => hb.fdOpen (hne hne'))
    (hb.settling.step (step_resume hres) rfl)
  · rw [outOf_own]
    exact hbal
  · intro hhand
    obtain ⟨hhand', hlt⟩ := hleft hhand
    have hle := hb.turns hhand'
    rw [actsOf_own, waited_snoc]
    dsimp only
    omega
  · have hlt := WorkerThread.resume_turnsToWait hres
    have hle := hb.wait
    rw [turnsToWait] at hle
    rw [actsOf_own, waited_snoc, after_turnsToWait]
    dsimp only
    omega

/-- **A sound step at the station keeps the promise.** -/
theorem OneReply.own [Fintype ι] (hdb : db.AtRest)
    (hk : (machine ι).Run (init db txnIds) h s)
    (hr : (machine ι).Run (init db txnIds) (h ++ [⟨s, .station i a, out.map (Prod.mk i), s'⟩]) s')
    (hb : OneReply h s i) (ht : Turned s i a s' out)
    (hsound : sound ⟨s, .station i a, out.map (Prod.mk i), s'⟩ = true) :
    OneReply (h ++ [⟨s, .station i a, out.map (Prod.mk i), s'⟩]) s' i := by
  cases ht with
  | @sent job jobCh hj hsend =>
      refine hb.still hdb hr (waited_snoc _ _) rfl rfl rfl ?_ fun _ => hsound
      obtain ⟨handled, dead, rest, answers, hl⟩ := hb.balanced
      refine ⟨handled, dead, rest ++ [job], answers, ?_⟩
      show Ledger _ (Slots.set s.jobCh i jobCh i) (s.joined i) (s.inHand i) _ _ _ _
      rw [hj] at hl ⊢
      rw [Slots.set_self]
      exact hl.send hsend
  | full hf =>
      refine hb.still hdb hr (waited_snoc _ _) rfl rfl rfl ?_ hb.fdOpen
      rw [List.append_nil]
      exact hb.balanced
  | @recv job t hget hp hrec =>
      simp only [sound, hget, Bool.and_eq_true, Bool.not_eq_true', Bool.or_eq_true,
        decide_eq_true_eq] at hsound
      obtain ⟨hroom, hdrain⟩ := hsound
      exact hb.recv hdb hk hr hget hp hrec rfl hroom fun hstarts =>
        hdrain.resolve_left (by rw [hstarts]; decide)
  | recvTimeout hp => exact hb.recvTimeout hdb rfl rfl hr hp rfl
  | @resume t hres =>
      refine hb.resume hdb hk hr hres rfl fun hshared => ?_
      simpa only [sound, hshared, Bool.not_true, Bool.false_or] using hsound
  | stop =>
      refine hb.still hdb hr (waited_snoc _ _) rfl ?_ ?_ ?_ hb.fdOpen
      · show (Slots.set s.system.threads i _ i).point = _
        rw [Slots.set_self]
      · show (Slots.set s.system.threads i _ i).worker = _
        rw [Slots.set_self]
      · simp only [List.append_nil, Balanced, inHand, Slots.set_self]
        exact hb.balanced
  | @join jobCh replies hp hj hack =>
      have hbal := hb.balanced.join hb.fdOpen hp hj hack
      refine hb.still hdb hr (waited_snoc _ _) rfl rfl rfl hbal fun hne => ?_
      -- the join leaves nothing in the channel
      obtain ⟨handled, dead, rest, answers, hl⟩ := hbal
      rw [hl.held.empty_iff.mpr (hl.emptied (Slots.set_self _ _ _))] at hne
      cases hne

/-- If the books balance after a job was received, then it has not overfilled the queue: such a
request is answered twice. -/
theorem OneReply.overfills_recv (hb : OneReply h s i) (hget : (s.jobCh i).get = .ok (some job))
    (hp : (s.system.threads i).point = .recv)
    (hrec : (s.system.threads i).worker.received s.system.students job = some t)
    (hbal : Balanced (outOf i h ++ .received job :: t.out.map (.worker s.fdOpen)) (s.after i t) i) :
    (s.system.threads i).worker.overfills job = false := by
  rw [← Bool.not_eq_true]
  intro hover
  obtain ⟨handled, dead, rest, answers, hl⟩ := hb.balanced
  obtain ⟨rest, rfl⟩ := hl.held.exists_of_get hget
  have hopen : s.fdOpen = true := hb.fdOpen (hl.held.empty_eq_false (List.cons_ne_nil _ _))
  have hhand : s.inHand i = [] := by rw [inHand, hp]; rfl
  rw [Worker.received_eq] at hrec
  obtain ⟨hloop, htwo⟩ := Worker.dispatch_twice
    (w := { (s.system.threads i).worker with timeoutCnt := 0 }) hrec hover
  have hnone : (s.after i t).inHand i = [] := by rw [after_inHand, hloop]; rfl
  have heq := hl.replies_eq hbal rfl hnone
  -- one job has been received and two replies have gone out
  have hreplies : (repliesIn (.received job :: t.out.map (.worker s.fdOpen))).length = 2 := by
    rw [← htwo, hopen, ← repliesIn_worker]
    rfl
  have hreceived : receivedIn (.received job :: t.out.map (.worker s.fdOpen)) = [job] :=
    congrArg (job :: ·) (receivedIn_worker s.fdOpen t.out)
  rw [hhand, hreplies, hreceived] at heq
  cases heq

/-- If the books balance after a turn of a shared read, then the lock list has taken the row that
was granted: otherwise there are two answers. -/
theorem OneReply.takes_resume (hw : (s.system.threads i).worker.Wf (s.system.threads i).point)
    (hb : OneReply h s i) (hres : (s.system.threads i).resume s.system.students = some t)
    (hshared : (s.system.threads i).point.isSharedRead = true)
    (hbal : Balanced (outOf i h ++ t.out.map (.worker s.fdOpen)) (s.after i t) i) :
    (s.system.threads i).takes s.system.students = true := by
  rw [← Bool.not_eq_false]
  intro htakes
  obtain ⟨handled, dead, rest, answers, hl⟩ := hb.balanced
  obtain ⟨hloop, htwo⟩ := WorkerThread.resume_twice hw hres hshared htakes
  obtain ⟨job, hhand⟩ := Point.exists_inHand hshared
  have hone : s.inHand i = [job] := hhand
  rw [hone] at hl
  obtain ⟨rest, rfl⟩ := hl.next
  have hopen : s.fdOpen = true := hb.fdOpen (hl.held.empty_eq_false (List.cons_ne_nil _ _))
  have hnone : (s.after i t).inHand i = [] := by rw [after_inHand, hloop]; rfl
  have heq := hl.replies_eq hbal rfl hnone
  rw [hopen, repliesIn_worker, receivedIn_worker, htwo] at heq
  cases heq

/-- **A step that is not sound breaks it.** -/
theorem OneReply.sound_step [Fintype ι] (hdb : db.AtRest)
    (hk : (machine ι).Run (init db txnIds) h s)
    (hr : (machine ι).Run (init db txnIds) (h ++ [⟨s, .station i a, out.map (Prod.mk i), s'⟩]) s')
    (hb : OneReply h s i) (ht : Turned s i a s' out)
    (hb' : OneReply (h ++ [⟨s, .station i a, out.map (Prod.mk i), s'⟩]) s' i) :
    sound ⟨s, .station i a, out.map (Prod.mk i), s'⟩ = true := by
  obtain ⟨k, hsys⟩ := system_of_run hk
  have hw := System.threads_of_run hsys i
  have hbal := hb'.balanced
  rw [outOf_own] at hbal
  cases ht with
  | @sent job jobCh hj hsend =>
      -- the job is in the channel now
      obtain ⟨handled, dead, rest, answers, hl⟩ := hb.balanced
      apply hb'.fdOpen
      show (Slots.set s.jobCh i jobCh i).empty = false
      rw [Slots.set_self]
      exact (hl.held.of_send hsend).empty_eq_false
        (List.append_ne_nil_of_right_ne_nil _ (List.cons_ne_nil _ _))
  | full hf => exact hb.fdOpen (JobChannel.empty_of_full hf)
  | @recv job t hget hp hrec =>
      simp only [Stations.sound, hget, Bool.and_eq_true, Bool.not_eq_true', Bool.or_eq_true,
        decide_eq_true_eq]
      refine ⟨hb.overfills_recv hget hp hrec hbal, ?_⟩
      cases hstarts : (s.system.threads i).worker.startsDrain job with
      | false => exact Or.inl rfl
      | true =>
          refine Or.inr ?_
          have hc := (Worker.received_isCommit_iff hrec).mpr hstarts
          have hset := (settling_iff hdb hr).mp hb'.settling
          rw [after_thread] at hset
          exact (drainsOut_iff hdb hk hp hrec hc).mp (hset hc)
  | @resume t hres =>
      cases hshared : (s.system.threads i).point.isSharedRead with
      | false => simp only [Stations.sound, hshared, Bool.not_false, Bool.true_or]
      | true =>
          simp only [Stations.sound, hshared, Bool.not_true, Bool.false_or]
          exact hb.takes_resume hw hres hshared hbal
  | recvTimeout | stop | join => rfl

/-- The socket is closed when there are no jobs left. -/
theorem OneReply.close [Fintype ι] (hdb : db.AtRest)
    (hr : (machine ι).Run (init db txnIds) (h ++ [⟨s, .close, [], { s with fdOpen := false }⟩])
      { s with fdOpen := false })
    (hb : OneReply h s i) (hempty : ∀ j, (s.jobCh j).empty = true) :
    OneReply (h ++ [⟨s, .close, [], { s with fdOpen := false }⟩]) { s with fdOpen := false } i := by
  have hstep : s.step .close = some ({ s with fdOpen := false }, []) := rfl
  refine .of_books hdb hr ?_ ?_ ?_ (fun hne => ?_) (hb.settling.step hstep rfl)
  · rw [outOf_close]
    exact hb.balanced
  · rw [actsOf_close]
    exact hb.turns
  · rw [actsOf_close]
    exact hb.wait
  · rw [hempty i] at hne
    cases hne

/-- **One request, one reply, one pop, exactly as long as** every step is sound. -/
theorem oneReply_iff [Fintype ι] (hdb : db.AtRest)
    (hr : (machine ι).Run (init db txnIds) h s) :
    (∀ k l u, h = k ++ l → (machine ι).Run (init db txnIds) k u → ∀ i, OneReply k u i) ↔
      ∀ e ∈ h, sound e = true := by
  refine hr.throughout_iff (fun i => oneReply_init hdb) ?_
  intro k u act e v hk hb hs
  have hv := hk.snoc hs
  rcases step_cases hs with ⟨i, a, out, rfl, rfl, ht⟩ | ⟨rfl, rfl, rfl⟩
  · refine ⟨fun hb' => (hb i).sound_step hdb hk hv ht (hb' i), fun hsound j => ?_⟩
    by_cases hj : j = i
    · subst hj
      exact (hb j).own hdb hk hv ht hsound
    · exact (hb j).other hdb hv ht hj
  · constructor
    · intro hb'
      refine decide_eq_true fun i => ?_
      rw [← Bool.not_eq_false]
      intro hne
      exact absurd ((hb' i).fdOpen hne) Bool.false_ne_true
    · exact fun hsound i => (hb i).close hdb hv (of_decide_eq_true hsound)

/-- A worker reads the only row, deletes it and commits; it is joined with a job in its channel,
and then the socket is closed. -/
def served : List (StationsAct (Fin 2)) :=
  ([.send (.request .exclusiveRead 1 0 []), .send (.request .delete 1 0 []),
    .send (.request .commitTxn 1 0 []), .send (.request .addTuple 1 0 []), .resume, .recv, .resume,
    .resume, .recv, .resume, .recv, .resume, .resume, .resume, .join].map (.station 1)) ++ [.close]

/-- A worker reads the only row twice. -/
def readTwice : List (StationsAct (Fin 2)) :=
  [.send (.request .sharedRead 1 0 []), .send (.request .sharedRead 1 0 []), .resume, .recv,
    .resume, .resume, .recv, .resume].map (.station 1)

/-- A run in which the worker serves three jobs and the join a fourth one. -/
theorem oneReply_iff_served : ∃ h s, (machine (Fin 2)).Run
    (init (.ofTuples [.empty]) fun _ => 0) h s ∧ s.fdOpen = false ∧
    (repliesIn (outOf 1 h)).map Reply.ack = [.success, .success, .success, .deadTxn] ∧
    ∀ k l u, h = k ++ l → (machine (Fin 2)).Run (init (.ofTuples [.empty]) fun _ => 0) k u →
      ∀ i, OneReply k u i := by
  obtain ⟨h, s, hr, hp⟩ := Machine.exists_run_of_exec (M := machine (Fin 2))
    (s := init (.ofTuples [.empty]) fun _ => 0) (p := fun h s => decide (s.fdOpen = false ∧
      (repliesIn (outOf 1 h)).map Reply.ack = [.success, .success, .success, .deadTxn]) &&
      h.all sound)
    (show ((machine (Fin 2)).exec (init (.ofTuples [.empty]) fun _ => 0) served).map _
      = some true by decide +kernel)
  rw [Bool.and_eq_true, decide_eq_true_eq] at hp
  obtain ⟨⟨hclosed, hacks⟩, hsound⟩ := hp
  exact ⟨h, s, hr, hclosed, hacks,
    (oneReply_iff (StudentTable.atRest_ofTuples _) hr).mpr (List.all_eq_true.mp hsound)⟩

/-- Two jobs, three replies and three pops. -/
theorem not_always_oneReply : ¬ ∀ (db : StudentTable) (txnIds : Fin 2 → TxnId)
    (h : List (Entry (Stations (Fin 2)) (StationsAct (Fin 2)) (Fin 2 × StationEvent)))
    (s : Stations (Fin 2)), db.AtRest → (machine (Fin 2)).Run (init db txnIds) h s →
      ∀ i, OneReply h s i := by
  intro hall
  obtain ⟨h, s, hr, hp⟩ := Machine.exists_run_of_exec (M := machine (Fin 2))
    (s := init (.ofTuples [.empty]) fun _ => 0) (p := fun h s => decide (s.joined 1 = false ∧
      (s.inHand 1).length = 0 ∧ (repliesIn (outOf 1 h)).length = 3 ∧
      (receivedIn (outOf 1 h)).length = 2))
    (show ((machine (Fin 2)).exec (init (.ofTuples [.empty]) fun _ => 0) readTwice).map _
      = some true by decide +kernel)
  obtain ⟨hj, hhand, hreplies, hreceived⟩ := of_decide_eq_true hp
  obtain ⟨handled, dead, rest, answers, hl⟩ :=
    (hall _ _ h s (StudentTable.atRest_ofTuples _) hr 1).balanced
  have hbal := hl.balance (hl.unjoined hj)
  rw [hhand, hreplies, hreceived] at hbal
  cases hbal

end Stations

end PawnDB
