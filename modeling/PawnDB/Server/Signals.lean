import PawnDB.Server.Threads

set_option autoImplicit false

/-! # What the manager sees of a worker

Of what a worker does, the manager and the other side of the channels notice two things: it pops
its job channel, and it reports its id when it quits. `signals` are these among the events of a
turn. A job that is received or in hand is still in hand after a turn, without a signal, or it is
popped once and the thread is on its way back to the head of its loop (`Stands`). This is what the
manager relies on, and a shared read that is granted a row which its lock list refuses breaks it:
it pops twice.
-/

namespace PawnDB

/-- A pop of the job channel or a report. -/
def Event.isSignal : Event → Bool
  | .pop => true
  | .ret _ => true
  | _ => false

def signals (out : List Event) : List Event := out.filter Event.isSignal

theorem signals_cons {e : Event} (he : e.isSignal = false) (out : List Event) :
    signals (e :: out) = signals out := by
  apply List.filter_cons_of_neg
  rw [he]
  exact Bool.false_ne_true

theorem popsOf_signals (out : List Event) : popsOf (signals out) = popsOf out := by
  rw [popsOf, signals, List.countP_filter]
  refine List.countP_congr fun e _ => ?_
  cases e <;> simp [Event.isPop, Event.isSignal]

theorem foldl_after_signals (out : List Event) (q : RetChannel) :
    (signals out).foldl RetChannel.after q = out.foldl RetChannel.after q := by
  induction out generalizing q with
  | nil => rfl
  | cons e out ih =>
      cases e with
      | pop | ret => exact ih _
      | _ => exact (congrArg (List.foldl _ q) (signals_cons rfl out)).trans (ih q)

/-- How a job stands after a turn of its handler. -/
inductive Stands (w : Worker) (job : Job) (t : Turn) : Prop
  | held : t.point.view = .handling job → t.worker.txnId = w.txnId → signals t.out = [] →
      Stands w job t
  | done : t.point.view = .loop → t.worker.txnId = w.txnId → signals t.out = [.pop] →
      Stands w job t

theorem Stands.txnId {w : Worker} {job : Job} {t : Turn} (h : Stands w job t) :
    t.worker.txnId = w.txnId := by
  cases h with
  | held _ hid | done _ hid => exact hid

namespace Worker

variable {w : Worker} {db : StudentTable} {job : Job} {t : Turn}

/-! ## Requests that are taken up -/

theorem processAdd_stands : Stands w job ⟨(w.processAdd job.buf job.conn).1, .loop, db,
    (w.processAdd job.buf job.conn).2⟩ := by
  unfold processAdd
  dsimp only
  split
  · exact .done rfl rfl rfl
  · split
    · split
      · exact .done rfl rfl rfl
      · split <;> exact .done rfl rfl rfl
    · exact .done rfl rfl rfl

theorem processUpdate_stands : Stands w job ⟨(w.processUpdate job.buf job.conn).1, .loop, db,
    (w.processUpdate job.buf job.conn).2⟩ := by
  unfold processUpdate
  dsimp only
  split
  · exact .done rfl rfl rfl
  · split
    · exact .done rfl rfl rfl
    · split
      · split
        · split
          · exact .done rfl rfl rfl
          · split <;> exact .done rfl rfl rfl
        · exact .done rfl rfl rfl
      · exact .done rfl rfl rfl

theorem processRm_stands : Stands w job ⟨(w.processRm job.buf job.conn).1, .loop, db,
    (w.processRm job.buf job.conn).2⟩ := by
  unfold processRm
  dsimp only
  split
  · exact .done rfl rfl rfl
  · split
    · exact .done rfl rfl rfl
    · split
      · split <;> exact .done rfl rfl rfl
      · exact .done rfl rfl rfl

theorem ReadStart.stands {enter p : Point} {out : List Event}
    (h : w.ReadStart job.buf job.conn enter p out) (henter : enter.view = .handling job) :
    Stands w job ⟨w, p, db, out⟩ := by
  cases h with
  | refused => exact .done rfl rfl rfl
  | entered => exact .held henter rfl rfl

theorem PromoteStart.stands {p : Point} {out : List Event}
    (h : w.PromoteStart job.buf job.conn p out) : Stands w job ⟨w, p, db, out⟩ := by
  cases h with
  | refused => exact .done rfl rfl rfl
  | entered => exact .held rfl rfl rfl

theorem Yielded.stands {w' : Worker} {db' : StudentTable} {out : List Event}
    (h : w.Yielded db job.buf job.conn w' db' out) : Stands w job ⟨w', .loop, db', out⟩ := by
  cases h with
  | refused | foreign | released => exact .done rfl rfl rfl

/-- **A job that is received is popped or in hand.** -/
theorem dispatch_stands (h : w.dispatch db job = some t) : Stands w job t := by
  unfold dispatch at h
  dsimp only at h
  split at h
  · cases h
    exact .done rfl rfl rfl
  · cases h
    exact .done rfl rfl rfl
  · cases h
    unfold processCommit
    split
    · exact .done rfl rfl rfl
    · exact .held rfl rfl rfl
  · cases h
    exact .done rfl rfl rfl
  · cases h
    exact processAdd_stands
  · cases h
    exact (processRead_start rfl).stands rfl
  · cases h
    exact (processRead_start rfl).stands rfl
  · split at h
    · cases h
    · next hy =>
        cases h
        exact (processYield_yielded hy).stands
  · cases h
    exact (processPromote_start rfl).stands
  · cases h
    exact processUpdate_stands
  · cases h
    exact processRm_stands
  · cases h
    exact .done rfl rfl rfl

/-! ## Turns of a handler -/

variable {running : Bool} {parser : JobBuf} {conn : ClientConn} {cnt : Nat}

theorem ReadTurn.stands {type : LockType}
    {wait : Except TupleTableError StudentTuple × StudentTable} {retry : Point}
    {refusal : StudentTuple → List Event}
    (h : w.ReadTurn db parser conn running cnt type wait retry refusal t)
    (hretry : retry.view = .handling ⟨parser, conn⟩)
    (hrefusal : ∀ tuple db' err l', cnt < maxTimeoutRetry → running = true →
      wait = (.ok tuple, db') → err ≠ .none →
      w.lockList.addLock (studentKey tuple.key) type = some (err, l') →
      signals (refusal tuple) = [.pop]) : Stands w ⟨parser, conn⟩ t := by
  cases h with
  | timeout | stopped | granted => exact .done rfl rfl rfl
  | waits => exact .held hretry rfl rfl
  | refused hcnt hrun hwait hne hadd =>
      exact .done rfl rfl ((signals_cons rfl _).trans (hrefusal _ _ _ _ hcnt hrun hwait hne hadd))

theorem sharedReadTurn_stands (hl : w.lockList.Wf)
    (h : w.sharedReadTurn running db parser conn cnt = some t)
    (htakes : (⟨w, running, .sharedRead parser conn cnt⟩ : WorkerThread).takes db = true) :
    Stands w ⟨parser, conn⟩ t := by
  refine (sharedReadTurn_turn h).stands rfl fun tuple db' err l' hcnt hrun hwait hne hadd => ?_
  -- a refusal is what `htakes` excludes
  simp only [WorkerThread.takes, WorkerThread.grants, hwait] at htakes
  rw [if_pos ⟨hcnt, hrun⟩] at htakes
  simp [(LockList.refuses_of_addLock hl hne hadd).1] at htakes

theorem PromoteTurn.stands {key : TblRow} (h : w.PromoteTurn db parser conn running key cnt t) :
    Stands w ⟨parser, conn⟩ t := by
  cases h with
  | timeout | stopped | promoted => exact .done rfl rfl rfl
  | waits => exact .held rfl rfl rfl

theorem CommitTurn.stands (h : w.CommitTurn db parser conn t) : Stands w ⟨parser, conn⟩ t := by
  cases h with
  | drained => exact .done rfl rfl rfl
  | removed | foreign => exact .held rfl rfl rfl

end Worker

/-! ## Steps of a thread -/

/-- How a step of a thread looks to the manager. -/
inductive Looks (th th' : WorkerThread) (out : List Event) : Act → Prop
  | same {a : Act} : th'.point.view = th.point.view → signals out = [] → Looks th th' out a
  | enters : th.point.view = .loop → th.running = true → th'.point.view = .recv →
      signals out = [] → Looks th th' out .resume
  | timeout : th.point.view = .recv → th'.point.view = .loop → signals out = [] →
      Looks th th' out .recvTimeout
  | takes {job : Job} : th.point.view = .recv → th'.point.view = .handling job →
      signals out = [] → Looks th th' out (.recv job)
  | serves {job : Job} : th.point.view = .recv → th'.point.view = .loop → signals out = [.pop] →
      Looks th th' out (.recv job)
  | finishes {job : Job} : th.point.view = .handling job → th'.point.view = .loop →
      signals out = [.pop] → Looks th th' out .resume
  | quits : th.point.view = .loop → th'.point.view = .ended →
      signals out = [.ret th.worker.txnId] → Looks th th' out .resume

namespace WorkerThread

variable {th th' : WorkerThread} {db db' : StudentTable} {a : Act} {out : List Event} {t : Turn}

theorem looks_of_stands {job : Job} (h : Stands th.worker job t)
    (hview : th.point.view = .handling job) : Looks th (th.after t).1 t.out .resume := by
  cases h with
  | held hv _ hs => exact .same (hv.trans hview.symm) hs
  | done hv _ hs => exact .finishes hview hv hs

theorem resume_looks (hw : th.worker.Wf th.point) (h : th.resume db = some t)
    (htakes : th.point.isSharedRead = true → th.takes db = true) :
    t.worker.txnId = th.worker.txnId ∧ Looks th (th.after t).1 t.out .resume := by
  have hstands : ∀ {job : Job}, Stands th.worker job t → th.point.view = .handling job →
      t.worker.txnId = th.worker.txnId ∧ Looks th (th.after t).1 t.out .resume :=
    fun hs hv => ⟨hs.txnId, looks_of_stands hs hv⟩
  obtain ⟨w, running, point⟩ := th
  cases point with
  | loop =>
      cases h
      refine ⟨rfl, ?_⟩
      cases running with
      | true => exact .enters rfl rfl rfl rfl
      | false => exact .same rfl rfl
  | recv => cases h
  | sharedRead parser conn cnt =>
      exact hstands (Worker.sharedReadTurn_stands (hw.list Point.noConfusion) h (htakes rfl)) rfl
  | exclusiveRead parser conn cnt =>
      exact hstands ((Worker.exclusiveReadTurn_turn h).stands rfl fun _ _ _ _ _ _ _ _ _ => rfl) rfl
  | promote parser conn key cnt => exact hstands (Worker.promoteTurn_turn h).stands rfl
  | commit parser conn => exact hstands (Worker.commitTurn_turn h).stands rfl
  | release idx =>
      cases Worker.releaseTurn_turn h with
      | finished => exact ⟨rfl, .quits rfl rfl rfl⟩
      | released | foreign => exact ⟨rfl, .same rfl rfl⟩
  | ended => cases h

/-- **A step of a worker is one of these for the manager**, unless a shared read is granted a row
that its lock list refuses. -/
theorem step_looks (hw : th.worker.Wf th.point) (ha : a ≠ .stop)
    (h : th.step db a = some (th', db', out))
    (htakes : a = .resume → th.point.isSharedRead = true → th.takes db = true) :
    th'.worker.txnId = th.worker.txnId ∧ Looks th th' out a := by
  unfold step at h
  cases a with
  | recv job =>
      dsimp only at h
      split at h
      · next hp =>
          obtain ⟨t, ht, heq⟩ := Option.map_eq_some_iff.mp h
          obtain ⟨rfl, -, rfl⟩ := after_eq heq
          rw [Worker.received_eq] at ht
          have hview : th.point.view = .recv := congrArg Point.view hp
          cases Worker.dispatch_stands ht with
          | held hv hid hs => exact ⟨hid, .takes hview hv hs⟩
          | done hv hid hs => exact ⟨hid, .serves hview hv hs⟩
      · cases h
  | recvTimeout =>
      dsimp only at h
      split at h
      · next hp =>
          cases h
          exact ⟨rfl, .timeout (congrArg Point.view hp) rfl rfl⟩
      · cases h
  | resume =>
      obtain ⟨t, ht, heq⟩ := Option.map_eq_some_iff.mp h
      obtain ⟨rfl, -, rfl⟩ := after_eq heq
      exact resume_looks hw ht (htakes rfl)
  | stop => exact absurd rfl ha

end WorkerThread

end PawnDB
