import PawnDB.Worker.Solo

set_option autoImplicit false

/-! # What a rejected request leaves behind

A request that a handler turns down should leave no trace. `process_add`, `process_update` and
`process_rm` end the growing phase before they look at the request, and a read that is granted a
row which its lock list refuses answers `BAD_ACCESS` and leaves the row locked. In every other
case nothing has changed when the refusal goes out (`unchanged_iff`).
-/

namespace PawnDB

open StudentTable

/-- The acknowledgements with which a request is turned down. -/
def OpAck.rejects : OpAck → Bool
  | .badTable | .badTp | .badData | .badAccess | .badPhase | .badOp | .commitFull => true
  | _ => false

def Event.rejects : Event → Bool
  | .reply r => r.ack.rejects
  | _ => false

/-- A request is turned down. -/
def Rejects (out : List Event) : Prop := ∃ e ∈ out, e.rejects = true

theorem not_rejects_nil : ¬ Rejects [] := by
  rintro ⟨e, he, -⟩
  cases he

theorem not_rejects_answer {ack : OpAck} (h : ack.rejects = false) (parser : JobBuf) (size : Nat)
    (conn : ClientConn) : ¬ Rejects (answer ack parser size conn) := by
  rintro ⟨e, he, hr⟩
  simp only [answer, reply, List.mem_cons, List.not_mem_nil, or_false] at he
  rcases he with rfl | rfl
  · rw [Event.rejects, h] at hr
    cases hr
  · cases hr

theorem not_rejects_cons {e : Event} {out : List Event} (he : e.rejects = false)
    (h : ¬ Rejects out) : ¬ Rejects (e :: out) := by
  rintro ⟨e', hmem, hr⟩
  rcases List.mem_cons.mp hmem with rfl | hmem
  · rw [he] at hr
    cases hr
  · exact h ⟨e', hmem, hr⟩

namespace StudentTable

/-- Every row has its lock word and its tuple, and the counters are the same. -/
structure SameRows (t t' : StudentTable) : Prop where
  lock : ∀ i, (t'.table i).lock = (t.table i).lock
  tuple : ∀ i, (t'.table i).tuple = (t.table i).tuple
  size : t'.size = t.size
  sAvailCnt : t'.sAvailCnt = t.sAvailCnt
  xAvailCnt : t'.xAvailCnt = t.xAvailCnt

theorem SameRows.refl (t : StudentTable) : SameRows t t :=
  ⟨fun _ => rfl, fun _ => rfl, rfl, rfl, rfl⟩

variable {t t' : StudentTable} {tuple : StudentTuple}

theorem add_one_ne (l : LkT) : l + 1 ≠ l := by
  intro h
  grind

/-- A granted row shows the lock. -/
theorem not_sameRows_of_shared (h : t.traitWaitShared = (.ok tuple, t')) : ¬ t.SameRows t' := by
  obtain ⟨i, -, -, -, hrel⟩ := traitWaitShared_ok h
  intro hs
  have hlock := hs.lock i
  rw [hrel.lock_self] at hlock
  exact absurd hlock (add_one_ne _)

theorem not_sameRows_of_exclusive (h : t.traitWaitExclusive = (.ok tuple, t')) :
    ¬ t.SameRows t' := by
  obtain ⟨i, -, hzero, -, hrel⟩ := traitWaitExclusive_ok h
  intro hs
  have hlock := hs.lock i
  rw [hrel.lock_self, hzero] at hlock
  exact absurd hlock (by decide)

end StudentTable

namespace Worker

variable {w : Worker} {db : StudentTable} {job : Job}

/-- What a request that was turned down at once leaves behind: the growing phase is over if the
request was one that writes. -/
structure TurnedDown (w : Worker) (db : StudentTable) (job : Job) (t : Turn) : Prop where
  point : t.point = .loop
  students : t.db = db
  lockList : t.worker.lockList = w.lockList
  commitQueue : t.worker.commitQueue = w.commitQueue
  status : t.worker.status = w.status ↔
    ∀ op, job.buf.getOp = .ok op → op.Writes → w.status ≠ .growing

theorem turnedDown_of_not_writes {op : Except ParserError OpType} {ack : OpAck} {size : Nat}
    (hop : job.buf.getOp = op) (hw : ∀ o, op = .ok o → ¬ o.Writes) :
    w.TurnedDown db job ⟨w, .loop, db, answer ack job.buf size job.conn⟩ :=
  ⟨rfl, rfl, rfl, rfl, fun _ o ho hwr => absurd hwr (hw o (hop ▸ ho)), fun _ => rfl⟩

/-- A request that writes and is turned down. -/
theorem Wrote.turnedDown {op : OpType} {w' : Worker} {out : List Event}
    (h : w.Wrote op job w' out) (hop : job.buf.getOp = .ok op) (hwr : op.Writes)
    (hrej : Rejects out) : w.TurnedDown db job ⟨w', .loop, db, out⟩ := by
  have hstatus : ∀ {st : TxnStatus}, st = (if w.status = .growing then .shrinking else w.status) →
      (st = w.status ↔ ∀ o, job.buf.getOp = .ok o → o.Writes → w.status ≠ .growing) := by
    intro st hst
    constructor
    · intro heq o _ _ hg
      rw [hst, if_pos hg, hg] at heq
      cases heq
    · intro hall
      rw [hst, if_neg (hall op hop hwr)]
  cases h with
  | rejected ack hleft _ _ _ hq =>
      exact ⟨rfl, rfl, hleft.lockList, hq, hstatus hleft.status⟩
  | lost key size parser hleft _ _ _ _ hq =>
      exact ⟨rfl, rfl, hleft.lockList, hq, hstatus hleft.status⟩
  | full key hleft _ _ _ hq =>
      exact ⟨rfl, rfl, hleft.lockList, hq, hstatus hleft.status⟩
  | queued key size _ _ _ _ => exact absurd hrej (not_rejects_answer rfl _ _ _)

theorem processRead_turnedDown {enter p : Point} {out : List Event} {op : OpType}
    (hop : job.buf.getOp = .ok op) (hwr : ¬ op.Writes)
    (h : w.processRead enter job.buf job.conn = (p, out)) (hrej : Rejects out) :
    w.TurnedDown db job ⟨w, p, db, out⟩ := by
  cases processRead_start h with
  | refused ack => exact turnedDown_of_not_writes hop fun o ho => by cases ho; exact hwr
  | entered => exact absurd hrej not_rejects_nil

theorem processPromote_turnedDown {p : Point} {out : List Event} {op : OpType}
    (hop : job.buf.getOp = .ok op) (hwr : ¬ op.Writes)
    (h : w.processPromote job.buf job.conn = (p, out)) (hrej : Rejects out) :
    w.TurnedDown db job ⟨w, p, db, out⟩ := by
  cases processPromote_start h with
  | refused ack => exact turnedDown_of_not_writes hop fun o ho => by cases ho; exact hwr
  | entered => exact absurd hrej not_rejects_nil

/-- The lock list of a worker has locks of the student table only, so a yield that gets past the
check of its lock succeeds. -/
theorem processYield_turnedDown {w' : Worker} {db' : StudentTable} {out : List Event}
    {op : OpType} (hl : w.lockList.Wf) (hop : job.buf.getOp = .ok op) (hwr : ¬ op.Writes)
    (h : w.processYield db job.buf job.conn = some (w', db', out)) (hrej : Rejects out) :
    w.TurnedDown db job ⟨w', .loop, db', out⟩ := by
  cases processYield_yielded h with
  | refused ack => exact turnedDown_of_not_writes hop fun o ho => by cases ho; exact hwr
  | foreign hid hlock => exact absurd (hl.tableId_of_getLock (LockList.holds_iff.mp hlock)) hid
  | released => exact absurd hrej (not_rejects_cons rfl (not_rejects_answer rfl _ _ _))

/-- **A request that is turned down when it is taken up** has changed nothing but the phase, and
that only if it was a request to write. -/
theorem dispatch_turnedDown {t : Turn} (hl : w.lockList.Wf) (h : w.dispatch db job = some t)
    (hrej : Rejects t.out) : w.TurnedDown db job t := by
  unfold dispatch at h
  dsimp only at h
  -- one case for each operation, in the order of the switch
  split at h
  · next hop =>
      cases h
      exact turnedDown_of_not_writes hop fun o ho => by cases ho
  · cases h
    exact absurd hrej (not_rejects_answer rfl _ _ _)
  · cases h
    refine absurd hrej ?_
    unfold processCommit
    split
    · exact not_rejects_answer rfl _ _ _
    · exact not_rejects_nil
  · cases h
    exact absurd hrej (not_rejects_answer rfl _ _ _)
  · next hop =>
      cases h
      exact (w.processAdd_wrote job).turnedDown hop (by decide) hrej
  · next hop =>
      cases h
      exact processRead_turnedDown hop (by decide) rfl hrej
  · next hop =>
      cases h
      exact processRead_turnedDown hop (by decide) rfl hrej
  · next hop =>
      split at h
      · cases h
      · next hy =>
          cases h
          exact processYield_turnedDown hl hop (by decide) hy hrej
  · next hop =>
      cases h
      exact processPromote_turnedDown hop (by decide) rfl hrej
  · next hop =>
      cases h
      exact (w.processUpdate_wrote job).turnedDown hop (by decide) hrej
  · next hop =>
      cases h
      exact (w.processRm_wrote job).turnedDown hop (by decide) hrej
  · next hop =>
      cases h
      exact turnedDown_of_not_writes hop fun o ho => by cases ho; decide

/-- A turn of a retry loop that turns the request down was granted a row that the lock list
refuses. -/
structure Leaks (w : Worker) (db : StudentTable) (t : Turn) : Prop where
  point : t.point = .loop
  students : ¬ db.SameRows t.db

theorem sharedReadTurn_leaks {running : Bool} {parser : JobBuf} {conn : ClientConn} {cnt : Nat}
    {t : Turn} (hl : w.lockList.Wf)
    (h : w.sharedReadTurn running db parser conn cnt = some t) (hrej : Rejects t.out) :
    Leaks w db t ∧
      (⟨w, running, .sharedRead parser conn cnt⟩ : WorkerThread).takes db = false := by
  cases sharedReadTurn_turn h with
  | timeout | stopped => exact absurd hrej (not_rejects_answer rfl _ _ _)
  | waits => exact absurd hrej not_rejects_nil
  | granted => exact absurd hrej (not_rejects_cons rfl (not_rejects_answer rfl _ _ _))
  | refused hcnt hrun hwait hne hadd =>
      refine ⟨⟨rfl, not_sameRows_of_shared hwait⟩, ?_⟩
      simp only [WorkerThread.takes, WorkerThread.grants, hwait]
      rw [if_pos ⟨hcnt, hrun⟩]
      simp [(LockList.refuses_of_addLock hl hne hadd).1]

theorem exclusiveReadTurn_leaks {running : Bool} {parser : JobBuf} {conn : ClientConn}
    {cnt : Nat} {t : Turn} (hl : w.lockList.Wf)
    (h : w.exclusiveReadTurn running db parser conn cnt = some t) (hrej : Rejects t.out) :
    Leaks w db t ∧
      (⟨w, running, .exclusiveRead parser conn cnt⟩ : WorkerThread).takes db = false := by
  cases exclusiveReadTurn_turn h with
  | timeout | stopped => exact absurd hrej (not_rejects_answer rfl _ _ _)
  | waits => exact absurd hrej not_rejects_nil
  | granted => exact absurd hrej (not_rejects_cons rfl (not_rejects_answer rfl _ _ _))
  | refused hcnt hrun hwait hne hadd =>
      refine ⟨⟨rfl, not_sameRows_of_exclusive hwait⟩, ?_⟩
      simp only [WorkerThread.takes, WorkerThread.grants, hwait]
      rw [if_pos ⟨hcnt, hrun⟩]
      simp [(LockList.refuses_of_addLock hl hne hadd).1]

/-- The other loops turn nothing down. -/
theorem not_rejects_promoteTurn {running : Bool} {parser : JobBuf} {conn : ClientConn}
    {key : TblRow} {cnt : Nat} {t : Turn}
    (h : w.promoteTurn running db parser conn key cnt = some t) : ¬ Rejects t.out := by
  cases promoteTurn_turn h with
  | timeout | stopped => exact not_rejects_answer rfl _ _ _
  | waits => exact not_rejects_nil
  | promoted => exact not_rejects_cons rfl (not_rejects_answer rfl _ _ _)

theorem not_rejects_commitTurn {parser : JobBuf} {conn : ClientConn} {t : Turn}
    (h : w.commitTurn db parser conn = some t) : ¬ Rejects t.out := by
  cases commitTurn_turn h with
  | drained => exact not_rejects_answer rfl _ _ _
  | removed => exact not_rejects_cons rfl not_rejects_nil
  | foreign => exact not_rejects_nil

theorem not_rejects_releaseTurn {idx : Nat} {t : Turn} (h : w.releaseTurn db idx = some t) :
    ¬ Rejects t.out := by
  cases releaseTurn_turn h with
  | finished | released => exact not_rejects_cons rfl not_rejects_nil
  | foreign => exact not_rejects_nil

end Worker

/-- **A thread that turns a request down after having taken it up** was granted a row that its
lock list refuses, and leaves that row locked. -/
theorem WorkerThread.resume_leaks {th : WorkerThread} {db : StudentTable} {t : Turn}
    (hw : th.worker.Wf th.point) (h : th.resume db = some t) (hrej : Rejects t.out) :
    th.worker.Leaks db t ∧ th.takes db = false := by
  obtain ⟨w, running, point⟩ := th
  cases point with
  | loop =>
      cases h
      exact absurd hrej not_rejects_nil
  | recv => cases h
  | sharedRead parser conn cnt =>
      exact Worker.sharedReadTurn_leaks (hw.list Point.noConfusion) h hrej
  | exclusiveRead parser conn cnt =>
      exact Worker.exclusiveReadTurn_leaks (hw.list Point.noConfusion) h hrej
  | promote parser conn key cnt => exact absurd hrej (Worker.not_rejects_promoteTurn h)
  | commit parser conn => exact absurd hrej (Worker.not_rejects_commitTurn h)
  | release idx => exact absurd hrej (Worker.not_rejects_releaseTurn h)
  | ended => cases h

namespace Solo

/-- A worker takes up a job and goes on with it. -/
def Handling (h : List (Entry Solo SoloAct Event)) : Prop :=
  ∃ e l, h = e :: l ∧ (∃ job, e.act = .own (.recv job)) ∧
    ∀ d ∈ l, d.pre.thread.point.isIdle = false

/-- The worker is as it was, and its own steps have left the table alone. -/
structure Unchanged (s : Solo) (h : List (Entry Solo SoloAct Event)) (s' : Solo) : Prop where
  status : s'.thread.worker.status = s.thread.worker.status
  lockList : s'.thread.worker.lockList = s.thread.worker.lockList
  commitQueue : s'.thread.worker.commitQueue = s.thread.worker.commitQueue
  students : ∀ e ∈ h, e.act.isOwn = true → e.pre.students.SameRows e.post.students

/-- The step takes up no request to write in phase `GROWING`, and the row it is granted, if any,
is taken by the lock list. -/
def Traceless (e : Entry Solo SoloAct Event) : Prop :=
  match e.act with
  | .own (.recv job) => ∀ op, job.buf.getOp = .ok op → op.Writes →
      e.pre.thread.worker.status ≠ .growing
  | .own .resume => e.pre.thread.takes e.pre.students = true
  | _ => True

variable {s s' : Solo} {out : List Event} {e : Entry Solo SoloAct Event}
  {h : List (Entry Solo SoloAct Event)}

/-- What can be turned down is a job that is received or one whose handler goes on. -/
theorem step_rejects {a : SoloAct} (hw : s.thread.worker.Wf s.thread.point)
    (h : s.step a = some (s', out)) (hrej : Rejects out) :
    (∃ job, a = .own (.recv job) ∧ s.thread.point = .recv ∧
      s.thread.worker.TurnedDown s.students job
        ⟨s'.thread.worker, s'.thread.point, s'.students, out⟩) ∨
    a = .own .resume ∧ ¬ s.students.SameRows s'.students ∧ s'.thread.point = .loop ∧
      s.thread.takes s.students = false := by
  cases a with
  | env students =>
      cases h
      exact absurd hrej not_rejects_nil
  | own a =>
      have hstep := step_own h
      unfold WorkerThread.step at hstep
      cases a with
      | recv job =>
          dsimp only at hstep
          split at hstep
          · next hp =>
              obtain ⟨t, ht, heq⟩ := Option.map_eq_some_iff.mp hstep
              obtain ⟨hth, hdb, rfl⟩ := WorkerThread.after_eq heq
              rw [Worker.received_eq] at ht
              refine .inl ⟨job, rfl, hp, ?_⟩
              rw [hth, hdb]
              have hl : s.thread.worker.lockList.Wf := hw.list (by rw [hp]; exact Point.noConfusion)
              -- the count of timeouts has been reset, which concerns none of this
              obtain ⟨h1, h2, h3, h4, h5⟩ :=
                Worker.dispatch_turnedDown (w := { s.thread.worker with timeoutCnt := 0 }) hl ht
                  hrej
              exact ⟨h1, h2, h3, h4, h5⟩
          · cases hstep
      | recvTimeout =>
          dsimp only at hstep
          split at hstep
          · obtain rfl := (Prod.mk.inj (Prod.mk.inj (Option.some.inj hstep)).2).2
            exact absurd hrej not_rejects_nil
          · cases hstep
      | resume =>
          obtain ⟨t, ht, heq⟩ := Option.map_eq_some_iff.mp hstep
          obtain ⟨hth, hdb, rfl⟩ := WorkerThread.after_eq heq
          obtain ⟨hleak, htakes⟩ := WorkerThread.resume_leaks hw ht hrej
          refine .inr ⟨rfl, ?_, ?_, htakes⟩
          · rw [hdb]
            exact hleak.students
          · rw [hth]
            exact hleak.point
      | stop =>
          obtain rfl := (Prod.mk.inj (Prod.mk.inj (Option.some.inj hstep)).2).2
          exact absurd hrej not_rejects_nil

/-- **A request that is turned down leaves no trace exactly if** it is no request to write that
comes in phase `GROWING`, and no read is granted a row that its lock list refuses. -/
theorem unchanged_iff {txnId : TxnId} {db : StudentTable} {k : List (Entry Solo SoloAct Event)}
    (hk : machine.Run (init txnId db) k s) (hr : machine.Run s h s') (hh : Handling h)
    (hrej : ∃ e ∈ h, Rejects e.out) : Unchanged s h s' ↔ ∀ e ∈ h, Traceless e := by
  obtain ⟨e, l, rfl, ⟨job, hact⟩, hbusy⟩ := hh
  have hw := wf_of_run hk (Worker.wf_init txnId)
  obtain ⟨rfl, hstep, hl⟩ := hr.head
  obtain ⟨d, hd, hrej⟩ := hrej
  rcases List.mem_cons.mp hd with rfl | hd
  · -- the job is turned down when it is taken up, and that is all
    rcases step_rejects hw hstep hrej with ⟨job', hact', -, hdown⟩ | ⟨hact', -⟩
    · obtain rfl : l = [] := by
        cases l with
        | nil => rfl
        | cons d' l =>
            have hidle := hbusy d' List.mem_cons_self
            have hpoint : d.post.thread.point = .loop := hdown.point
            rw [hl.head.1, hpoint] at hidle
            cases hidle
      obtain rfl := hl.eq_of_nil
      rw [hact] at hact'
      cases hact'
      constructor
      · intro hun e he
        obtain rfl := List.mem_singleton.mp he
        rw [Traceless, hact]
        exact hdown.status.mp hun.status
      · intro hall
        have hpre := hall d List.mem_cons_self
        rw [Traceless, hact] at hpre
        refine ⟨hdown.status.mpr hpre, hdown.lockList, hdown.commitQueue, fun e he _ => ?_⟩
        obtain rfl := List.mem_singleton.mp he
        have hsame : e.post.students = e.pre.students := hdown.students
        rw [hsame]
        exact SameRows.refl _
    · rw [hact] at hact'
      cases hact'
  · -- a later turn has turned it down, and a row stays locked
    obtain ⟨l₁, l₂, rfl, hr₁, hstep', -⟩ := hl.split hd
    have hw' := wf_of_run ((hk.snoc hstep).trans hr₁) (Worker.wf_init txnId)
    rcases step_rejects hw' hstep' hrej with ⟨job', hact', hp, -⟩ | ⟨hact', hlock, -, htakes⟩
    · have hidle := hbusy d hd
      rw [hp] at hidle
      cases hidle
    · constructor
      · intro hun
        exact absurd (hun.students d (List.mem_cons_of_mem _ hd) (by rw [hact']; rfl)) hlock
      · intro hall
        have hpre := hall d (List.mem_cons_of_mem _ hd)
        rw [Traceless, hact'] at hpre
        rw [hpre] at htakes
        cases htakes

theorem handling_of_acts {job : Job} {as : List SoloAct}
    (hact : h.map Entry.act = .own (.recv job) :: as)
    (hbusy : ∀ d ∈ h.tail, d.pre.thread.point.isIdle = false) : Handling h := by
  cases h with
  | nil => cases hact
  | cons e l => exact ⟨e, l, rfl, ⟨job, (List.cons.inj hact).1⟩, hbusy⟩

/-- A read of a table that does not exist. -/
theorem unchanged_iff_badTable : ∃ k s h s', machine.Run (init 0 oneRow) k s ∧
    machine.Run s h s' ∧ (∃ e ∈ h, Rejects e.out) ∧ Unchanged s h s' := by
  obtain ⟨k, s, h, s', hk, hr, hact, hp⟩ := Machine.exists_runs_of_exec (M := machine)
    (s := init 0 oneRow) (p := fun _ h _ => decide ((∀ d ∈ h.tail,
      d.pre.thread.point.isIdle = false) ∧ ∃ e ∈ h, ∃ ev ∈ e.out, ev.rejects = true))
    (show (machine.exec (init 0 oneRow) [.own .resume]).bind (fun r => (machine.exec r.2
      [.own (.recv (.request .sharedRead 7 0 []))]).map _) = some true by decide +kernel)
  obtain ⟨hbusy, hrej⟩ := of_decide_eq_true hp
  refine ⟨k, s, h, s', hk, hr, hrej, ?_⟩
  refine (unchanged_iff hk hr (handling_of_acts hact hbusy) hrej).mpr fun e he => ?_
  obtain ⟨e', rfl⟩ := List.length_eq_one_iff.mp (by simpa using congrArg List.length hact)
  obtain rfl := List.mem_singleton.mp he
  rw [Traceless, (List.singleton_inj.mp hact : e.act = _)]
  intro op hop hwr
  cases hop.symm.trans (by rfl : _ = Except.ok OpType.sharedRead)
  exact absurd hwr (by decide)

/-- The worker reads the only row for the second time. -/
theorem not_always_unchanged : ¬ ∀ txnId db k s h s', machine.Run (init txnId db) k s →
    machine.Run s h s' → Handling h → (∃ e ∈ h, Rejects e.out) → Unchanged s h s' := by
  intro hall
  obtain ⟨k, s, h, s', hk, hr, hact, hp⟩ := Machine.exists_runs_of_exec (M := machine)
    (s := init 0 oneRow) (p := fun _ h _ => decide ((∀ d ∈ h.tail,
      d.pre.thread.point.isIdle = false) ∧ (∃ e ∈ h, ∃ ev ∈ e.out, ev.rejects = true) ∧
      ∃ e ∈ h, e.act.isOwn = true ∧
        (e.post.students.table 0).lock ≠ (e.pre.students.table 0).lock))
    (show (machine.exec (init 0 oneRow) (handle (.request .sharedRead 1 0 []) 1 ++
      [.own .resume])).bind (fun r => (machine.exec r.2
      [.own (.recv (.request .sharedRead 1 0 [])), .own .resume]).map _) = some true by
        decide +kernel)
  obtain ⟨hbusy, hrej, e, he, hown, hlock⟩ := of_decide_eq_true hp
  have hun := hall 0 oneRow k s h s' hk hr (handling_of_acts hact hbusy) hrej
  exact hlock ((hun.students e he hown).lock 0)

end Solo

end PawnDB
