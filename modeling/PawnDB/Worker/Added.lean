import PawnDB.Table.FiniteMap
import PawnDB.Worker.Solo

set_option autoImplicit false

/-! # What was added is not there to be read

A transaction of additions alone: the worker receives `START_TXN`, a number of `ADD_TUPLE`
requests and `COMMIT_TXN`, and nobody else works on the table. Until the commit the table stays
and the queue holds the tuples of the requests (`Collected`).

A commit should insert the queued tuples one by one, under consecutive keys and with the bytes
that the requests had (`AddedIsRead`). But the drain loop looks at the entry through a temporary
that is already destroyed, with no buffer, and the turn has no result: the worker stays where it is
and the table as it was (`Stalled`). Only a transaction that added nothing is committed
(`addedIsRead_iff`).
-/

namespace PawnDB

open Bytes StudentTable

/-- A request to start a transaction. -/
def Job.Starts (job : Job) : Prop := job.buf.getOp = .ok .startTxn

/-- A request to add a student, with all of its data. -/
structure Job.Adds (job : Job) : Prop where
  op : job.buf.getOp = .ok .addTuple
  tbl : job.buf.getTbl = .ok studentTableId
  size : FieldOffset.tuple.pos + StudentTuple.serialSize ≤ job.buf.bufferSize

def Job.Commits (job : Job) : Prop := job.buf.getOp = .ok .commitTxn

/-- The entry that is queued for a request to add a student. -/
def Job.addEntry (job : Job) : Commit := Worker.entryFor .addTuple ⟨studentTableId, 0⟩ job.buf

namespace Solo

variable {s s' : Solo} {a : Act} {out : List Event} {job : Job} {t : StudentTable}
  {adds done todo : List Job}

/-! ## One request -/

/-- The worker that has received a job. -/
def reset (s : Solo) : Worker := { s.thread.worker with timeoutCnt := 0 }

theorem step_recv (hp : s.thread.point = .recv) :
    s.step (.own (.recv job)) = (s.reset.dispatch s.students job).map fun turn =>
      (⟨{ s.thread with worker := turn.worker, point := turn.point }, turn.db⟩, turn.out) := by
  rw [step, WorkerThread.step, hp]
  dsimp only
  rw [Worker.received_eq, Option.map_map]
  rfl

theorem step_recv_some (h : s.step (.own (.recv job)) = some (s', out)) :
    s.thread.point = .recv := by
  have hown := step_own h
  unfold WorkerThread.step at hown
  dsimp only at hown
  split at hown
  · assumption
  · cases hown

theorem step_recv_start (hp : s.thread.point = .recv) (hj : job.Starts) :
    ∃ out, s.step (.own (.recv job))
      = some (⟨{ s.thread with worker := s.reset, point := .loop }, s.students⟩, out) := by
  rw [step_recv hp, Worker.dispatch, hj]
  exact ⟨_, rfl⟩

theorem step_recv_add (hp : s.thread.point = .recv) (hj : job.Adds) :
    ∃ out, s.step (.own (.recv job)) = some (⟨{ s.thread with
      worker := (s.reset.processAdd job.buf job.conn).1, point := .loop }, s.students⟩, out) := by
  rw [step_recv hp, Worker.dispatch, hj.op]
  exact ⟨_, rfl⟩

theorem step_recv_commit (hp : s.thread.point = .recv) (hj : job.Commits) :
    ∃ out, s.step (.own (.recv job)) = some (⟨{ s.thread with
      worker := s.reset,
      point := (s.reset.processCommit job.buf job.conn).1 }, s.students⟩, out) := by
  rw [step_recv hp, Worker.dispatch, hj]
  exact ⟨_, rfl⟩

/-! ## Before the commit -/

/-- The requests `adds` are queued, and nothing else has happened. -/
structure Collected (t : StudentTable) (adds : List Job) (s : Solo) : Prop where
  students : s.students = t
  queue : s.thread.worker.commitQueue.Wf
  contents : s.thread.worker.commitQueue.contents = adds.map Job.addEntry
  status : s.thread.worker.status = if adds = [] then .growing else .shrinking
  lockList : s.thread.worker.lockList = LockList.init

theorem collected_init (txnId : TxnId) (t : StudentTable) : Collected t [] (init txnId t) :=
  ⟨rfl, CommitQueue.wf_init, rfl, rfl, rfl⟩

theorem Collected.step_start (hs : Collected t adds s) (hj : job.Starts)
    (h : s.step (.own (.recv job)) = some (s', out)) :
    Collected t adds s' ∧ s'.thread.point = .loop := by
  obtain ⟨out', heq⟩ := step_recv_start (step_recv_some h) hj
  rw [heq] at h
  cases h
  exact ⟨⟨hs.students, hs.queue, hs.contents, hs.status, hs.lockList⟩, rfl⟩

/-- A request to add a tuple is queued while there is room. -/
theorem Collected.step_add (hs : Collected t adds s) (hj : job.Adds)
    (hlen : adds.length < maxCommitPerTransaction)
    (h : s.step (.own (.recv job)) = some (s', out)) :
    Collected t (adds ++ [job]) s' ∧ s'.thread.point = .loop := by
  obtain ⟨out', heq⟩ := step_recv_add (step_recv_some h) hj
  rw [heq] at h
  cases h
  -- an insert asks for no lock, and there is room
  have htarget : s.reset.target .addTuple job.buf = some ⟨studentTableId, 0⟩ := by
    simp only [Worker.target, hj.tbl, if_true]
  have hroom : ¬ s.reset.commitQueue.full = true := by
    rw [CommitQueue.full_iff, ← CommitQueue.contents_length]
    change ¬ _ ≤ s.thread.worker.commitQueue.contents.length
    rw [hs.contents, List.length_map]
    omega
  refine ⟨?_, rfl⟩
  have hwrote := Worker.processAdd_wrote s.reset job
  generalize (s.reset.processAdd job.buf job.conn).2 = sent at hwrote
  -- of the ends of a write request only the last is possible
  cases hwrote with
  | rejected _ _ hnone =>
      rw [htarget] at hnone
      cases hnone
  | lost _ _ _ _ _ hfull => exact absurd hfull hroom
  | full _ _ _ hfull => exact absurd hfull hroom
  | queued key _ hleft hkey hfull hq =>
      rw [htarget] at hkey
      cases hkey
      obtain ⟨hqw, hqc⟩ := CommitQueue.contents_send (q := s.reset.commitQueue) hs.queue hfull
      refine ⟨hs.students, ?_, ?_, ?_, ?_⟩
      · rw [hq]
        exact hqw
      · rw [hq, hqc, List.map_append]
        exact congrArg (· ++ [job.addEntry]) hs.contents
      · rw [if_neg (by simp), hleft.status]
        change (if s.thread.worker.status = .growing then TxnStatus.shrinking
          else s.thread.worker.status) = _
        rw [hs.status]
        by_cases hnil : adds = []
        · rw [if_pos hnil]
          rfl
        · rw [if_neg hnil]
          rfl
      · rw [hleft.lockList]
        exact hs.lockList

/-- The thread is past its last request. -/
def Gone (s : Solo) : Prop := (∃ idx, s.thread.point = .release idx) ∨ s.thread.point = .ended

theorem Gone.step (hs : s.Gone) (h : s.step (.own a) = some (s', out)) : s'.Gone := by
  have hown := step_own h
  cases a with
  | recv job =>
      have hp := step_recv_some h
      rcases hs with ⟨idx, hi⟩ | he
      · rw [hi] at hp
        cases hp
      · rw [he] at hp
        cases hp
  | recvTimeout =>
      unfold WorkerThread.step at hown
      dsimp only at hown
      rcases hs with ⟨idx, hi⟩ | he
      · rw [hi] at hown
        cases hown
      · rw [he] at hown
        cases hown
  | stop =>
      cases h
      exact hs
  | resume =>
      obtain ⟨turn, hturn, heq⟩ := Option.map_eq_some_iff.mp hown
      obtain ⟨hth, -, -⟩ := WorkerThread.after_eq heq
      rw [Gone, hth]
      dsimp only
      rcases hs with ⟨idx, hi⟩ | he
      · rw [WorkerThread.resume, hi] at hturn
        dsimp only at hturn
        -- giving back a lock moves the iterator, and after the last one the thread ends
        cases Worker.releaseTurn_turn hturn with
        | finished => exact Or.inr rfl
        | released | foreign => exact Or.inl ⟨_, rfl⟩
      · rw [WorkerThread.resume, he] at hturn
        cases hturn

/-- The thread is at the head of its loop or waits for a job. -/
def Ready (s : Solo) : Prop := s.thread.point = .loop ∨ s.thread.point = .recv

/-- Between two requests a thread only goes round its loop, or leaves it. -/
theorem Collected.step_other (hs : Collected t adds s) (hp : s.Ready)
    (ha : ∀ job, a ≠ .recv job) (h : s.step (.own a) = some (s', out)) :
    Collected t adds s' ∧ (s'.Ready ∨ s'.Gone) := by
  have hown := step_own h
  -- no other step touches the queue, the phase or the locks
  have hkeep : ∀ {th : WorkerThread}, th.worker.commitQueue = s.thread.worker.commitQueue →
      th.worker.status = s.thread.worker.status →
      th.worker.lockList = s.thread.worker.lockList → Collected t adds ⟨th, s.students⟩ :=
    fun hq hst hl => ⟨hs.students, hq ▸ hs.queue, hq ▸ hs.contents, hst ▸ hs.status,
      hl ▸ hs.lockList⟩
  obtain ⟨th', db'⟩ := s'
  cases a with
  | recv job => exact absurd rfl (ha job)
  | recvTimeout =>
      unfold WorkerThread.step at hown
      dsimp only at hown
      split at hown
      · cases hown
        exact ⟨hkeep rfl rfl rfl, Or.inl (Or.inl rfl)⟩
      · cases hown
  | resume =>
      obtain ⟨turn, hturn, heq⟩ := Option.map_eq_some_iff.mp hown
      unfold WorkerThread.resume at hturn
      rcases hp with hp | hp
      · rw [hp] at hturn
        cases hturn
        cases heq
        refine ⟨hkeep rfl rfl rfl, ?_⟩
        dsimp only
        cases hr : s.thread.running with
        | true => exact Or.inl (Or.inr rfl)
        | false => exact Or.inr (Or.inl ⟨0, rfl⟩)
      · rw [hp] at hturn
        cases hturn
  | stop =>
      cases hown
      exact ⟨hkeep rfl rfl rfl, Or.inl hp⟩

/-! ## The commit -/

/-- The tuples are queued, and the commit does not come past the first of them. -/
structure Stalled (adds : List Job) (s : Solo) : Prop where
  queue : s.thread.worker.commitQueue.Wf
  contents : s.thread.worker.commitQueue.contents = adds.map Job.addEntry
  place : s.thread.point.isCommit = true

/-- The table is as it was, and the worker, which has no locks, is quitting or has quit. -/
structure Drained (t : StudentTable) (s : Solo) : Prop where
  students : s.students = t
  place : (∃ idx, s.thread.point = .release idx) ∧ s.thread.worker.lockList = LockList.init ∨
    s.thread.point = .ended

/-- The commit is under way or done. -/
def Committing (t : StudentTable) (adds : List Job) (s : Solo) : Prop :=
  adds ≠ [] ∧ Stalled adds s ∨ adds = [] ∧ Drained t s

theorem Collected.step_commit (hs : Collected t adds s) (hj : job.Commits)
    (h : s.step (.own (.recv job)) = some (s', out)) : Committing t adds s' := by
  obtain ⟨out', heq⟩ := step_recv_commit (step_recv_some h) hj
  rw [heq] at h
  cases h
  have hst : s.reset.status = if adds = [] then .growing else .shrinking := hs.status
  -- a transaction that added nothing is still growing and has nothing to apply
  by_cases hnil : adds = []
  · refine Or.inr ⟨hnil, hs.students, Or.inl ⟨⟨0, ?_⟩, hs.lockList⟩⟩
    dsimp only
    rw [Worker.processCommit, hst, if_pos hnil, if_pos (by decide)]
  · refine Or.inl ⟨hnil, hs.queue, hs.contents, ?_⟩
    dsimp only
    rw [Worker.processCommit, hst, if_neg hnil, if_neg (by decide)]
    rfl

/-- **A commit does not insert anything**: the turn that comes to an added tuple has no result. -/
theorem Stalled.step_resume (hs : Stalled adds s) (hne : adds ≠ []) :
    s.step (.own .resume) = none := by
  obtain ⟨parser, conn, hp⟩ := Point.isCommit_iff.mp hs.place
  have hempty : s.thread.worker.commitQueue.empty = false := by
    rw [← Bool.not_eq_true, CommitQueue.empty_iff, hs.contents, List.map_eq_nil_iff]
    exact hne
  have hmem := CommitQueue.get_mem hs.queue hempty
  rw [hs.contents] at hmem
  obtain ⟨job, -, hget⟩ := List.mem_map.mp hmem
  have hnone : s.thread.worker.commitTurn s.students parser conn = none :=
    Worker.commitTurn_eq_none hempty (by rw [← hget]; rfl) (Or.inl (by rw [← hget]; rfl))
  rw [step, WorkerThread.step, WorkerThread.resume, hp]
  dsimp only
  rw [hnone]
  rfl

/-- A worker without locks ends at once. -/
theorem step_release {idx : Nat} (hp : s.thread.point = .release idx)
    (hl : s.thread.worker.lockList = LockList.init) :
    ∃ out, s.step (.own .resume) = some (⟨{ s.thread with
      worker := { s.thread.worker with
        lockList := s.thread.worker.lockList.clear }.clearCommitQueue,
      point := .ended }, s.students⟩, out) := by
  have hnone : s.thread.worker.lockList.advanceToValid idx = none := by
    rw [hl, LockList.advanceToValid, List.find?_eq_none]
    intro i _
    simp [LockList.init, LockEntry.active, LockEntry.empty]
  rw [step, WorkerThread.step, WorkerThread.resume, hp]
  dsimp only
  rw [Worker.releaseTurn, hnone]
  exact ⟨_, rfl⟩

theorem Stalled.step (hs : Stalled adds s) (hne : adds ≠ [])
    (h : s.step (.own a) = some (s', out)) : Stalled adds s' := by
  have hown := step_own h
  obtain ⟨parser, conn, hp⟩ := Point.isCommit_iff.mp hs.place
  cases a with
  | recv job =>
      have := step_recv_some h
      rw [hp] at this
      cases this
  | recvTimeout =>
      rw [WorkerThread.step, hp] at hown
      cases hown
  | resume =>
      rw [hs.step_resume hne] at h
      cases h
  | stop =>
      cases h
      exact ⟨hs.queue, hs.contents, hs.place⟩

theorem Drained.step (hs : Drained t s) (h : s.step (.own a) = some (s', out)) :
    Drained t s' := by
  have hown := step_own h
  obtain ⟨hdone, ⟨⟨idx, hi⟩, hl⟩ | he⟩ := hs
  · cases a with
    | recv job =>
        have := step_recv_some h
        rw [hi] at this
        cases this
    | recvTimeout =>
        rw [WorkerThread.step, hi] at hown
        cases hown
    | resume =>
        -- the locks are given back, of which there are none
        obtain ⟨out', heq⟩ := step_release hi hl
        rw [heq] at h
        cases h
        exact ⟨hdone, Or.inr rfl⟩
    | stop =>
        cases h
        exact ⟨hdone, Or.inl ⟨⟨idx, hi⟩, hl⟩⟩
  · cases a with
    | recv job =>
        have := step_recv_some h
        rw [he] at this
        cases this
    | recvTimeout =>
        rw [WorkerThread.step, he] at hown
        cases hown
    | resume =>
        obtain ⟨turn, hturn, -⟩ := Option.map_eq_some_iff.mp hown
        rw [WorkerThread.resume, he] at hturn
        cases hturn
    | stop =>
        cases h
        exact ⟨hdone, Or.inr he⟩

/-- **A step after the commit request** leaves the worker at the first tuple, or quitting. -/
theorem Committing.step (hs : Committing t adds s) (h : s.step (.own a) = some (s', out)) :
    Committing t adds s' :=
  hs.imp (fun ⟨hne, hd⟩ => ⟨hne, hd.step hne h⟩) fun ⟨hnil, hd⟩ => ⟨hnil, hd.step h⟩

/-! ## Whole runs -/

/-- The jobs that the worker received in a history. -/
def jobsOf (h : List (Entry Solo SoloAct Event)) : List Job :=
  h.filterMap fun e =>
    match e.act with
    | .own (.recv job) => some job
    | _ => none

theorem jobsOf_append (h k : List (Entry Solo SoloAct Event)) :
    jobsOf (h ++ k) = jobsOf h ++ jobsOf k := List.filterMap_append

theorem jobsOf_recv (s s' : Solo) (job : Job) (out : List Event) :
    jobsOf [⟨s, .own (.recv job), out, s'⟩] = [job] := rfl

theorem jobsOf_other (s s' : Solo) (out : List Event) (ha : ∀ job, a ≠ .recv job) :
    jobsOf [⟨s, .own a, out, s'⟩] = [] := by
  cases a with
  | recv job => exact absurd rfl (ha job)
  | recvTimeout | resume | stop => rfl

/-- The requests to add a tuple among some jobs. -/
def addsOf (jobs : List Job) : List Job :=
  jobs.filter fun job => decide (job.buf.getOp = .ok .addTuple)

theorem addsOf_append (l l' : List Job) : addsOf (l ++ l') = addsOf l ++ addsOf l' :=
  List.filter_append _ _

theorem addsOf_start (hj : job.Starts) : addsOf [job] = [] := by
  rw [addsOf, List.filter_singleton, hj]
  rfl

theorem addsOf_add (hj : job.Adds) : addsOf [job] = [job] := by
  rw [addsOf, List.filter_singleton, hj.op]
  rfl

/-- Nobody else works on the table. -/
def Alone (h : List (Entry Solo SoloAct Event)) : Prop := ∀ e ∈ h, e.act.isOwn = true

/-- **Up to the commit**: a worker that is only asked to start and to add has queued what it was
asked to add, or it has quit. -/
theorem collected_of_run {txnId : TxnId} {h : List (Entry Solo SoloAct Event)}
    (hr : machine.Run (init txnId t) h s) (hown : Alone h)
    (hjobs : ∀ job ∈ jobsOf h, job.Starts ∨ job.Adds)
    (hlen : (addsOf (jobsOf h)).length ≤ maxCommitPerTransaction) :
    Collected t (addsOf (jobsOf h)) s ∧ s.Ready ∨ s.Gone := by
  suffices hinv : (∀ job ∈ jobsOf h, job.Starts ∨ job.Adds) →
      (addsOf (jobsOf h)).length ≤ maxCommitPerTransaction →
      Collected t (addsOf (jobsOf h)) s ∧ s.Ready ∨ s.Gone from hinv hjobs hlen
  refine hr.invariant_within (P := fun h s => (∀ job ∈ jobsOf h, job.Starts ∨ job.Adds) →
      (addsOf (jobsOf h)).length ≤ maxCommitPerTransaction →
      Collected t (addsOf (jobsOf h)) s ∧ s.Ready ∨ s.Gone) hown
    (fun _ _ => Or.inl ⟨collected_init txnId t, Or.inl rfl⟩) ?_
  intro k u act out v _ _ ih hstep hact hk hlk
  cases act with
  | env students => cases hact
  | own a =>
      rw [jobsOf_append] at hk hlk ⊢
      have hbefore := ih (fun job hj => hk job (List.mem_append_left _ hj)) (by
        rw [addsOf_append, List.length_append] at hlk
        exact Nat.le_of_add_right_le hlk)
      -- only a received job adds to the lists
      by_cases ha : ∃ job, a = .recv job
      · obtain ⟨job, rfl⟩ := ha
        have hp := step_recv_some hstep
        rw [jobsOf_recv] at hk hlk ⊢
        rcases hbefore with ⟨hcol, -⟩ | hgone
        · rcases hk job (by simp) with hj | hj
          · obtain ⟨hcol', hp'⟩ := hcol.step_start hj hstep
            rw [addsOf_append, addsOf_start hj, List.append_nil]
            exact Or.inl ⟨hcol', Or.inl hp'⟩
          · rw [addsOf_append, addsOf_add hj] at hlk ⊢
            rw [List.length_append, List.length_singleton] at hlk
            obtain ⟨hcol', hp'⟩ := hcol.step_add hj hlk hstep
            exact Or.inl ⟨hcol', Or.inl hp'⟩
        · exact Or.inr (hgone.step hstep)
      · have hother : ∀ job, a ≠ .recv job := fun job hj => ha ⟨job, hj⟩
        rw [jobsOf_other _ _ _ hother, List.append_nil]
        rcases hbefore with ⟨hcol, hready⟩ | hgone
        · obtain ⟨hcol', hready' | hgone'⟩ := hcol.step_other hready hother hstep
          · exact Or.inl ⟨hcol', hready'⟩
          · exact Or.inr hgone'
        · exact Or.inr (hgone.step hstep)

/-- **From the commit on** the worker goes on committing. -/
theorem committing_of_run {s₀ : Solo} {h : List (Entry Solo SoloAct Event)}
    (hr : machine.Run s₀ h s) (h0 : Committing t adds s₀) (hown : Alone h) :
    Committing t adds s := by
  refine hr.invariant_within (P := fun _ s => Committing t adds s) hown h0 ?_
  intro k u act out v _ _ ih hstep hact
  cases act with
  | env students => cases hact
  | own a => exact ih.step hstep

/-- The place of the last job in a history. -/
theorem exists_of_jobsOf {h : List (Entry Solo SoloAct Event)} {jobs : List Job}
    (hj : jobsOf h = jobs ++ [job]) : ∃ k e l, h = k ++ e :: l ∧ jobsOf k = jobs ∧
      e.act = .own (.recv job) ∧ jobsOf l = [] := by
  obtain ⟨k₁, h₂, rfl, hk₁, h₂eq⟩ := List.filterMap_eq_append_iff.mp hj
  obtain ⟨k₂, e, l, rfl, hk₂, he, hl⟩ := List.filterMap_eq_cons_iff.mp h₂eq
  refine ⟨k₁ ++ k₂, e, l, by simp, ?_, ?_, hl⟩
  · rw [jobsOf_append, show jobsOf k₁ = jobs from hk₁,
      show jobsOf k₂ = [] from List.filterMap_eq_nil_iff.mpr hk₂, List.append_nil]
  · split at he
    · next hact =>
        rw [hact, Option.some.inj he]
    · cases he

/-- **A transaction of additions** is stalled in its commit, unless it has added nothing. -/
theorem committing_of_jobs {txnId : TxnId} {starts : List Job} {commit : Job}
    {h : List (Entry Solo SoloAct Event)} (hr : machine.Run (init txnId t) h s)
    (hown : Alone h) (hjobs : jobsOf h = starts ++ adds ++ [commit])
    (hstarts : ∀ job ∈ starts, job.Starts) (hadds : ∀ job ∈ adds, job.Adds)
    (hcommit : commit.Commits) (hlen : adds.length ≤ maxCommitPerTransaction) :
    Committing t adds s := by
  obtain ⟨k, e, l, rfl, hk, he, hl⟩ := exists_of_jobsOf hjobs
  have hall : addsOf (starts ++ adds) = adds := by
    rw [addsOf_append]
    have h1 : addsOf starts = [] := List.filter_eq_nil_iff.mpr fun job hj => by
      rw [hstarts job hj]
      decide
    have h2 : addsOf adds = adds := List.filter_eq_self.mpr fun job hj => by
      rw [(hadds job hj).op]
      decide
    rw [h1, h2, List.nil_append]
  -- the history is cut at the commit request
  have hprefix : Alone k := fun e' he' => hown e' (List.mem_append_left _ he')
  have hsuffix : Alone l := fun e' he' =>
    hown e' (List.mem_append_right _ (List.mem_cons_of_mem _ he'))
  obtain ⟨u, hku, hul⟩ := hr.cut
  obtain ⟨v, hev, hvl⟩ := Machine.Run.cut (h := [e]) (k := l) hul
  obtain ⟨hpre, hstep, rfl⟩ := Machine.Run.last (h := []) hev
  rw [he] at hstep
  have hcol := collected_of_run hku hprefix
    (fun job hj => by
      rw [hk] at hj
      exact (List.mem_append.mp hj).imp (hstarts job) (hadds job))
    (by rw [hk, hall]; exact hlen)
  rw [hk, hall] at hcol
  rw [← hpre.eq_of_nil] at hstep
  rcases hcol with ⟨hcol, -⟩ | hgone
  · exact committing_of_run hvl (hcol.step_commit hcommit hstep) hsuffix
  · -- a worker that has quit receives nothing
    have hp := step_recv_some hstep
    rcases hgone with ⟨idx, hi⟩ | hi
    · rw [hi] at hp
      cases hp
    · rw [hi] at hp
      cases hp

/-! ## The runs exist -/

theorem alone_nil : Alone [] := fun _ he => (List.not_mem_nil he).elim

theorem alone_append {h k : List (Entry Solo SoloAct Event)} (hh : Alone h) (hk : Alone k) :
    Alone (h ++ k) := fun e he => (List.mem_append.mp he).elim (hh e) (hk e)

theorem alone_single (s s' : Solo) (a : Act) (out : List Event) :
    Alone [⟨s, .own a, out, s'⟩] := fun e he => by
  rw [List.mem_singleton.mp he]
  rfl

theorem step_loop (hp : s.thread.point = .loop) (hr : s.thread.running = true) :
    s.step (.own .resume) = some (⟨{ s.thread with point := .recv }, s.students⟩, []) := by
  rw [step, WorkerThread.step, WorkerThread.resume, hp]
  dsimp only
  rw [if_pos hr]
  rfl

/-- A worker at the head of its loop takes up the next job, whatever the job is. -/
theorem exists_take_up {txnId : TxnId} {h : List (Entry Solo SoloAct Event)}
    (hr : machine.Run (init txnId t) h s) (hown : Alone h) (hp : s.thread.point = .loop)
    (hrun : s.thread.running = true) :
    ∃ h' s', machine.Run (init txnId t) h' s' ∧ Alone h' ∧ jobsOf h' = jobsOf h ∧
      s'.thread.point = .recv ∧ s'.thread.running = true := by
  refine ⟨_, ⟨{ s.thread with point := .recv }, s.students⟩, hr.snoc (step_loop hp hrun),
    alone_append hown (alone_single _ _ _ _), ?_, rfl, hrun⟩
  rw [jobsOf_append, jobsOf_other _ _ _ fun job hj => by cases hj]
  exact List.append_nil _

theorem exists_collected (txnId : TxnId) (t : StudentTable) (jobs : List Job)
    (hjobs : ∀ job ∈ jobs, job.Starts ∨ job.Adds) :
    ∃ h s, machine.Run (init txnId t) h s ∧ Alone h ∧ jobsOf h = jobs ∧
      s.thread.point = .loop ∧ s.thread.running = true := by
  induction jobs using List.reverseRecOn with
  | nil => exact ⟨[], _, Machine.Run.nil _, alone_nil, rfl, rfl, rfl⟩
  | append_singleton jobs job ih =>
      obtain ⟨h, u, hr, hown, hj, hp, hrun⟩ :=
        ih fun job' hj' => hjobs job' (List.mem_append_left _ hj')
      obtain ⟨h', u', hr', hown', hj', hp', hrun'⟩ := exists_take_up hr hown hp hrun
      have hstep : ∃ v out, u'.step (.own (.recv job)) = some (v, out) ∧
          v.thread.point = .loop ∧ v.thread.running = true := by
        rcases hjobs job (by simp) with hs | ha
        · obtain ⟨out, hout⟩ := step_recv_start hp' hs
          exact ⟨_, out, hout, rfl, hrun'⟩
        · obtain ⟨out, hout⟩ := step_recv_add hp' ha
          exact ⟨_, out, hout, rfl, hrun'⟩
      obtain ⟨v, out, hout, hpv, hrv⟩ := hstep
      refine ⟨_, v, hr'.snoc hout, alone_append hown' (alone_single _ _ _ _), ?_, hpv, hrv⟩
      rw [jobsOf_append, jobsOf_recv, hj', hj]

/-- A transaction of additions can be run up to its commit. -/
theorem exists_committing (txnId : TxnId) (t : StudentTable) {starts : List Job} {commit : Job}
    (hstarts : ∀ job ∈ starts, job.Starts) (hadds : ∀ job ∈ adds, job.Adds)
    (hcommit : commit.Commits) (hlen : adds.length ≤ maxCommitPerTransaction) :
    ∃ h s, machine.Run (init txnId t) h s ∧ Alone h ∧ jobsOf h = starts ++ adds ++ [commit] ∧
      Committing t adds s := by
  obtain ⟨h, u, hr, hown, hj, hp, hrun⟩ := exists_collected txnId t (starts ++ adds)
    fun job hj => (List.mem_append.mp hj).imp (hstarts job) (hadds job)
  obtain ⟨h₁, u₁, hr₁, hown₁, hj₁, hp₁, -⟩ := exists_take_up hr hown hp hrun
  obtain ⟨u₂, out, hout⟩ : ∃ u₂ out, machine.step u₁ (.own (.recv commit)) = some (u₂, out) :=
    ⟨_, step_recv_commit hp₁ hcommit⟩
  have hr₂ := hr₁.snoc hout
  have hown₂ := alone_append hown₁ (alone_single u₁ u₂ (.recv commit) out)
  have hj₂ : jobsOf (h₁ ++ [⟨u₁, .own (.recv commit), out, u₂⟩])
      = starts ++ adds ++ [commit] := by
    rw [jobsOf_append, jobsOf_recv, hj₁, hj]
  exact ⟨_, u₂, hr₂, hown₂, hj₂, committing_of_jobs hr₂ hown₂ hj₂ hstarts hadds hcommit hlen⟩

/-- What was added is what is read: the transaction can be run to its end, and once its commit is
over there is exactly one new row for each request, under consecutive keys in the order of the
requests, the rows that were live are as they were, and a new row is serialized to the bytes that
its request had. -/
def AddedIsRead (txnId : TxnId) (t : StudentTable) (starts adds : List Job) (commit : Job) :
    Prop :=
  (∃ h s, machine.Run (init txnId t) h s ∧ Alone h ∧
    jobsOf h = starts ++ adds ++ [commit] ∧ s.thread.point = .ended) ∧
  ∀ h s, machine.Run (init txnId t) h s → Alone h →
    jobsOf h = starts ++ adds ++ [commit] → s.thread.point.isCommit = false →
    (∀ i, t.live i = true → s.students.table i = t.table i) ∧
    Slots.count s.students.live = Slots.count t.live + adds.length ∧
    ∀ m (hm : m < adds.length), ∃ i, t.live i = false ∧ s.students.live i = true ∧
      (s.students.keyOf i).toNat = t.nextKey.toNat + m ∧
      ∀ (buffer : Buf) (offset : Nat), offset + StudentTuple.serialSize ≤ bufferWidth →
        slice ((s.students.table i).tuple.traitSerialize buffer offset).2 offset
            StudentTuple.serialSize
          = slice adds[m].buf.buffer FieldOffset.tuple.pos StudentTuple.serialSize

/-- **When what was added is what is read**: if nothing was added. -/
theorem addedIsRead_iff (txnId : TxnId) (t : StudentTable) {starts adds : List Job} {commit : Job}
    (hstarts : ∀ job ∈ starts, job.Starts) (hadds : ∀ job ∈ adds, job.Adds)
    (hcommit : commit.Commits) (hlen : adds.length ≤ maxCommitPerTransaction) :
    AddedIsRead txnId t starts adds commit ↔ adds = [] := by
  have hall : ∀ h s, machine.Run (init txnId t) h s → Alone h →
      jobsOf h = starts ++ adds ++ [commit] → Committing t adds s := fun h s hr hown hj =>
    committing_of_jobs hr hown hj hstarts hadds hcommit hlen
  constructor
  · rintro ⟨⟨h, s, hr, hown, hj, hend⟩, -⟩
    by_contra hne
    rcases hall h s hr hown hj with ⟨-, hd⟩ | ⟨hnil, -⟩
    · have := hd.place
      rw [hend] at this
      cases this
    · exact hne hnil
  · rintro rfl
    constructor
    · -- the worker has no locks to give back, so its last turn is the next one
      obtain ⟨h, s, hr, hown, hj, ⟨hne, -⟩ | ⟨-, hd⟩⟩ :=
        exists_committing txnId t hstarts hadds hcommit hlen
      · exact absurd rfl hne
      rcases hd.place with ⟨⟨idx, hi⟩, hl⟩ | he
      · obtain ⟨out, hout⟩ := step_release hi hl
        refine ⟨_, _, hr.snoc hout, alone_append hown (alone_single _ _ _ _), ?_, rfl⟩
        rw [jobsOf_append, hj, jobsOf_other _ _ _ fun job hj => Act.noConfusion hj,
          List.append_nil]
      · exact ⟨h, s, hr, hown, hj, he⟩
    · intro h s hr hown hj _
      rcases hall h s hr hown hj with ⟨hne, -⟩ | ⟨-, hd⟩
      · exact absurd rfl hne
      rw [hd.students]
      refine ⟨fun _ _ => rfl, rfl, fun m hm => ?_⟩
      cases hm

theorem starts_request : (Job.request .startTxn 0 0 []).Starts :=
  (by decide : (Job.request .startTxn 0 0 []).buf.getOp = .ok .startTxn)

theorem commits_request : (Job.request .commitTxn 0 0 []).Commits :=
  (by decide : (Job.request .commitTxn 0 0 []).buf.getOp = .ok .commitTxn)

theorem adds_request : (Job.request .addTuple 1 0 (List.replicate 37 1)).Adds where
  op := by decide
  tbl := by decide
  size := by decide

/-- A transaction that adds nothing to a table with a row. -/
theorem addedIsRead_iff_none : AddedIsRead 7 (ofTuples [.empty])
    [.request .startTxn 0 0 []] [] (.request .commitTxn 0 0 []) :=
  (addedIsRead_iff 7 (ofTuples [.empty]) (by simpa using starts_request) (by simp)
    commits_request (by decide)).mpr rfl

/-- One student is added to an empty table, and the commit does not end. -/
theorem not_always_addedIsRead : ¬ ∀ (k : List (Entry CountedTable StudentOp StudentResult))
    (c : CountedTable) (txnId : TxnId) (starts adds : List Job) (commit : Job),
    CountedTable.machine.Run CountedTable.init k c → (∀ e ∈ k, e.post.inserts < 256) →
    (∀ job ∈ starts, job.Starts) → (∀ job ∈ adds, job.Adds) → commit.Commits →
    adds.length ≤ maxCommitPerTransaction → Slots.count c.table.live + adds.length ≤ rows →
    c.inserts + adds.length < 256 → AddedIsRead txnId c.table starts adds commit := by
  intro hall
  have hadded := hall [] .init 7 [] [.request .addTuple 1 0 (List.replicate 37 1)]
    (.request .commitTxn 0 0 []) (.nil _) (by simp) (by simp) (by simpa using adds_request)
    commits_request (by decide) (by decide) (by decide)
  obtain ⟨⟨h, s, hr, hown, hj, hend⟩, -⟩ := hadded
  have hc : Committing _ [.request .addTuple 1 0 (List.replicate 37 1)] s :=
    committing_of_jobs hr hown hj (by simp) (by simpa using adds_request) commits_request
      (by decide)
  rcases hc with ⟨-, hd⟩ | ⟨hnil, -⟩
  · have := hd.place
    rw [hend] at this
    cases this
  · cases hnil

end Solo

end PawnDB
