import PawnDB.Server.OwnJobs
import PawnDB.Server.Signals
import PawnDB.Server.Transactions

set_option autoImplicit false

/-! # The server runs its thread manager

`ThreadManager` leaves open what a worker does with a job and when it quits. The workers of the
server do nothing that it does not allow: a turn of a worker is no step of the manager's machine,
one, or two where a job is received and done with in the same turn (`Server.managed_of_run`). The
machine then passes through the very states of the manager in the server, and the replies, starts,
pops and reports are the same in the same order.

A shared read that is granted a row which its lock list refuses pops twice, and must not occur.
-/

namespace PawnDB

/-- A worker takes a job without a notice. -/
def ManagerEvent.isReceived : ManagerEvent → Bool
  | .received _ _ _ => true
  | _ => false

/-- What the manager and the channels notice of an event. -/
def ServerEvent.heard : ServerEvent → Option ManagerEvent
  | .manager e => if e.isReceived then none else some e
  | .worker idx _ .pop => some (.popped idx)
  | .worker _ _ (.ret txnId) => some (.quit txnId)
  | _ => none

def ThreadManager.told (e : Entry ThreadManager ManagerAct ManagerEvent) : List ManagerEvent :=
  e.out.filter fun b => !b.isReceived

/-- A row that a shared read is granted is taken by the lock list. -/
def takesShared (e : OwnStep) : Bool :=
  match e.act.2 with
  | .resume => !(e.pre.threads ()).point.isSharedRead || (e.pre.threads ()).takes e.pre.students
  | _ => true

namespace WorkerContext

variable {c : WorkerContext} {th : Thread} {p : Point} {out : List Event}

theorem goTo_point (hth : c.thread = some th) : c.goTo th th.point = c := by
  obtain ⟨jobCh, txnId, running, thread⟩ := c
  cases hth
  rfl

theorem after_of_silent (hs : signals out = []) : c.after th p out = c.goTo th p.view := by
  rw [after, ← popsOf_signals, hs]
  rfl

theorem after_of_pop (hs : signals out = [.pop]) :
    c.after th p out = { c.goTo th p.view with jobCh := c.jobCh.pop } := by
  rw [after, ← popsOf_signals, hs]
  rfl

theorem after_of_ret {txnId : TxnId} (hs : signals out = [.ret txnId]) :
    c.after th p out = c.goTo th p.view := by
  rw [after, ← popsOf_signals, hs]
  rfl

end WorkerContext

namespace WorkerTable

variable (t : WorkerTable) (idx : Fin maxTransactions)

theorem setContext_context : t.setContext idx (t.context idx) = t := by
  rw [setContext, Slots.set_eq_update]
  exact congrArg (WorkerTable.mk · t.size) (Function.update_eq_self idx t.table)

theorem setContext_setContext (c c' : WorkerContext) :
    (t.setContext idx c).setContext idx c' = t.setContext idx c' := by
  rw [setContext, setContext_self, setContext, setContext, Slots.set_eq_update,
    Slots.set_eq_update, Slots.set_eq_update, Function.update_idem]

theorem context_setContext (c : WorkerContext) : (t.setContext idx c).context idx = c := by
  rw [context, setContext_self]

end WorkerTable

namespace ThreadManager

variable {m : ThreadManager} {idx : Fin maxTransactions} {th : Thread} {job : Job}

/-! ## The turns of a worker for the manager -/

theorem step_enter (hth : (m.workers.context idx).thread = some th) (hp : th.point = .loop)
    (hrun : (m.workers.context idx).running = true) :
    machine.step m (.worker idx .enter) = some ({ m with
      workers := m.workers.setContext idx ((m.workers.context idx).goTo th .recv) }, []) := by
  simp only [machine, step, workerTurn, hth, hp, hrun, if_true]

theorem step_quit (hth : (m.workers.context idx).thread = some th) (hp : th.point = .loop) :
    machine.step m (.worker idx .quit) = some ({ m with
      workers := m.workers.setContext idx ((m.workers.context idx).goTo th .ended)
      retCh := m.retCh.send th.txnId }, [.quit th.txnId]) := by
  simp only [machine, step, workerTurn, hth, hp]

theorem step_recv (hth : (m.workers.context idx).thread = some th) (hp : th.point = .recv)
    (hget : (m.workers.context idx).jobCh.get = .ok (some job)) :
    machine.step m (.worker idx .recv) = some ({ m with
      workers := m.workers.setContext idx ((m.workers.context idx).goTo th (.handling job)) },
      [.received idx th.txnId job]) := by
  simp only [machine, step, workerTurn, hth, hp, hget]

theorem step_recvTimeout (hth : (m.workers.context idx).thread = some th) (hp : th.point = .recv) :
    machine.step m (.worker idx .recvTimeout) = some ({ m with
      workers := m.workers.setContext idx ((m.workers.context idx).goTo th .loop) }, []) := by
  simp only [machine, step, workerTurn, hth, hp]

theorem step_pop (hth : (m.workers.context idx).thread = some th) (hp : th.point = .handling job) :
    machine.step m (.worker idx .pop) = some ({ m with
      workers := m.workers.setContext idx { (m.workers.context idx).goTo th .loop with
        jobCh := (m.workers.context idx).jobCh.pop } }, [.popped idx]) := by
  simp only [machine, step, workerTurn, hth, hp]

end ThreadManager

theorem WorkerAct.get_of_act {jobCh : JobChannel} {a : WorkerAct} {job : Job}
    (h : a.act jobCh = some (.recv job)) : jobCh.get = .ok (some job) := by
  unfold act at h
  split at h
  · split at h
    · next hget =>
        cases h
        exact hget
    · cases h
  · split at h <;> cases h
  · cases h

/-- Only the signals of a worker are heard. -/
theorem filterMap_heard (idx : Fin maxTransactions) (fdOpen : Bool) (out : List Event) :
    (out.map (ServerEvent.worker idx fdOpen)).filterMap ServerEvent.heard
      = ((signals out).map (ServerEvent.worker idx fdOpen)).filterMap ServerEvent.heard := by
  induction out with
  | nil => rfl
  | cons e out ih =>
      cases e with
      | pop | ret => exact congrArg (List.cons _) ih
      | _ => exact ih

namespace Server

variable {s s' : Server} {out : List ServerEvent} {idx : Fin maxTransactions}

/-- A thread has the id of its worker. -/
def SameTxn (s : Server) : Prop := ∀ i th, (s.manager.workers.context i).thread = some th →
  th.txnId = (s.bodies i).worker.txnId

/-- What the manager sees of a turn of a worker. -/
theorem work_looks {a : WorkerAct} (hw : (s.bodies idx).worker.Wf (s.bodies idx).point)
    (h : s.work idx a = some (s', out))
    (hc : ∀ o ∈ ownTurns ⟨s, .worker idx a, out, s'⟩, takesShared o = true) :
    ∃ th act wt students wout, (s.manager.workers.context idx).thread = some th ∧
      a.act (s.manager.workers.context idx).jobCh = some act ∧
      wt.worker.txnId = (s.bodies idx).worker.txnId ∧ Looks (s.thread idx) wt wout act ∧
      s' = s.worked idx th wt students wout ∧
      out = wout.map (.worker idx s.manager.fdOpen) := by
  obtain ⟨th, act, wt, students, wout, hth, hact, hstep, rfl, rfl⟩ := work_some h
  obtain ⟨htxn, hlooks⟩ := WorkerThread.step_looks hw (WorkerAct.act_ne_stop hact) hstep
    fun ha hp => by
      subst ha
      have := hc _ (by rw [ownTurns]; dsimp only; rw [hact]; exact List.mem_singleton_self _)
      simpa only [takesShared, hp, Bool.not_true, Bool.false_or] using this
  exact ⟨th, act, wt, students, wout, hth, hact, htxn, hlooks, rfl, rfl⟩

/-- **A turn of a worker is what the manager's machine allows.** -/
theorem work_managed {a : WorkerAct} (hs : s.Wf) (hid : s.SameTxn)
    (hw : (s.bodies idx).worker.Wf (s.bodies idx).point) (h : s.work idx a = some (s', out))
    (hc : ∀ o ∈ ownTurns ⟨s, .worker idx a, out, s'⟩, takesShared o = true) :
    ∃ l, ThreadManager.machine.Run s.manager l s'.manager ∧
      l.flatMap ThreadManager.told = out.filterMap ServerEvent.heard := by
  obtain ⟨th, act, wt, students, wout, hth, hact, -, hlooks, rfl, rfl⟩ := work_looks hw h hc
  have hview : th.point = (s.thread idx).point.view := hs.view idx th hth
  rw [filterMap_heard]
  -- without a report the return channel is as it was
  have hret : ∀ l : List Event, signals wout = l → (s.worked idx th wt students wout).manager
      = { s.manager with
        workers := s.manager.workers.setContext idx
          ((s.manager.workers.context idx).after th wt.point wout)
        retCh := l.foldl RetChannel.after s.manager.retCh } := fun l hl => by
    rw [← hl, foldl_after_signals]
    rfl
  cases hlooks with
  | same hv hsig =>
      rw [hret [] hsig, WorkerContext.after_of_silent hsig, hv, ← hview,
        WorkerContext.goTo_point hth, WorkerTable.setContext_context, hsig]
      exact ⟨[], .nil _, rfl⟩
  | enters hv hrun hv' hsig =>
      rw [hret [] hsig, WorkerContext.after_of_silent hsig, hv', hsig]
      exact ⟨_, .single (ThreadManager.step_enter hth (hview.trans hv) hrun), rfl⟩
  | timeout hv hv' hsig =>
      rw [hret [] hsig, WorkerContext.after_of_silent hsig, hv', hsig]
      exact ⟨_, .single (ThreadManager.step_recvTimeout hth (hview.trans hv)), rfl⟩
  | takes hv hv' hsig =>
      rw [hret [] hsig, WorkerContext.after_of_silent hsig, hv', hsig]
      exact ⟨_, .single (ThreadManager.step_recv hth (hview.trans hv)
        (WorkerAct.get_of_act hact)), rfl⟩
  | @serves job hv hv' hsig =>
      -- the machine takes the job and pops it in two steps
      have hrecv := ThreadManager.step_recv hth (hview.trans hv) (WorkerAct.get_of_act hact)
      have hhand : ((s.manager.workers.setContext idx
          ((s.manager.workers.context idx).goTo th (.handling job))).context idx).thread
            = some { th with point := .handling job } := by
        rw [WorkerTable.context_setContext]
        rfl
      have hpop := ThreadManager.step_pop (m := { s.manager with
        workers := s.manager.workers.setContext idx
          ((s.manager.workers.context idx).goTo th (.handling job)) }) hhand rfl
      dsimp only at hpop
      rw [WorkerTable.context_setContext, WorkerTable.setContext_setContext] at hpop
      rw [hret [.pop] hsig, WorkerContext.after_of_pop hsig, hv', hsig]
      exact ⟨_, (Machine.Run.single hrecv).snoc hpop, rfl⟩
  | finishes hv hv' hsig =>
      rw [hret [.pop] hsig, WorkerContext.after_of_pop hsig, hv', hsig]
      exact ⟨_, .single (ThreadManager.step_pop hth (hview.trans hv)), rfl⟩
  | quits hv hv' hsig =>
      rw [hret _ hsig, WorkerContext.after_of_ret hsig, hv', hsig]
      have hquit := ThreadManager.step_quit hth (hview.trans hv)
      rw [hid idx th hth] at hquit
      exact ⟨_, .single hquit, rfl⟩

theorem SameTxn.manage {b : ManagerAct} (hid : s.SameTxn) (hb : ∀ idx c, b ≠ .worker idx c)
    (h : s.manage b = some (s', out)) : s'.SameTxn := by
  obtain ⟨mout, hm, -, hbodies, -⟩ := manage_some h
  intro i th hth
  cases ThreadManager.step_changes hb hm with
  | calm hcalm hkeep =>
      rw [hbodies, foldl_launch hcalm]
      rw [WorkerTable.context, (hkeep i).thread] at hth
      exact hid i th hth
  | @joined idx txnId hcalm _ hnone _ hother =>
      rw [hbodies, foldl_launch hcalm]
      by_cases hi : i = idx
      · rw [hi, hnone] at hth
        cases hth
      · rw [WorkerTable.context, hother i hi] at hth
        exact hid i th hth
  | @started idx txnId job hout _ hth' _ _ _ hother =>
      rw [hbodies, hout, List.foldl_cons, List.foldl_nil, launch]
      by_cases hi : i = idx
      · subst hi
        rw [hth'] at hth
        cases hth
        rw [Slots.set_self]
        rfl
      · rw [WorkerTable.context, hother i hi] at hth
        rw [Slots.set_of_ne _ _ hi]
        exact hid i th hth

theorem SameTxn.work {a : WorkerAct} (hid : s.SameTxn)
    (hw : (s.bodies idx).worker.Wf (s.bodies idx).point) (h : s.work idx a = some (s', out))
    (hc : ∀ o ∈ ownTurns ⟨s, .worker idx a, out, s'⟩, takesShared o = true) : s'.SameTxn := by
  obtain ⟨th, act, wt, students, wout, hth, -, htxn, -, rfl, -⟩ := work_looks hw h hc
  intro i th' hth'
  by_cases hi : i = idx
  · subst hi
    rw [worked_context_self] at hth'
    cases hth'
    rw [worked_bodies_self]
    exact (hid i th hth).trans htxn.symm
  · rw [worked_context_of_ne s th wt students wout hi] at hth'
    rw [worked_bodies_of_ne s th wt students wout hi]
    exact hid i th' hth'

theorem manage_managed {b : ManagerAct} (h : s.manage b = some (s', out)) :
    ∃ l, ThreadManager.machine.Run s.manager l s'.manager ∧
      l.flatMap ThreadManager.told = out.filterMap ServerEvent.heard := by
  obtain ⟨mout, hm, -, -, rfl⟩ := manage_some h
  refine ⟨_, .single hm, ?_⟩
  rw [List.flatMap_singleton, ThreadManager.told, List.filterMap_map, ← List.filterMap_eq_filter]
  refine List.filterMap_congr fun e _ => ?_
  cases he : e.isReceived <;> simp [ServerEvent.heard, he, Option.guard]

/-! ## Runs -/

variable {db : StudentTable} {h : List (Entry Server ServerAct ServerEvent)}

/-- The workers in the slots are well-formed. -/
theorem bodies_of_run (hr : machine.Run (init db) h s) {idx : Fin maxTransactions} {th : Thread}
    (hth : (s.manager.workers.context idx).thread = some th) :
    (s.bodies idx).worker.Wf (s.bodies idx).point := by
  obtain ⟨l, t, txn, hl, hlinked, -⟩ := linked_of_run hr
  obtain ⟨j, hj⟩ := hlinked.exists_txn hth
  have hw := System.threads_of_run hl j
  rwa [hlinked.thread idx j hj] at hw

/-- The condition on the turns of the workers holds in every step of the run. -/
def EveryTurn (C : OwnStep → Bool) (h : List (Entry Server ServerAct ServerEvent)) : Prop :=
  ∀ e ∈ h, ∀ o ∈ ownTurns e, C o = true

instance (C : OwnStep → Bool) (h : List (Entry Server ServerAct ServerEvent)) :
    Decidable (EveryTurn C h) := by
  unfold EveryTurn
  infer_instance

/-- The server simulates the manager's machine. -/
theorem exists_managed (hr : machine.Run (init db) h s) (hc : EveryTurn takesShared h) :
    ∃ l, ThreadManager.machine.Run ThreadManager.init l s.manager ∧
      l.flatMap ThreadManager.told = (h.flatMap fun e => e.out.filterMap ServerEvent.heard) ∧
      s.SameTxn := by
  obtain ⟨l, m, hl, ⟨rfl, -, hsame⟩, htold⟩ := hr.simulate
    (fun e => e.out.filterMap ServerEvent.heard) ThreadManager.told
    (fun _ u m => m = u.manager ∧ u.Wf ∧ u.SameTxn) ⟨rfl, wf_init db, fun _ _ hth => by cases hth⟩
    fun k u a out v m hpre hk ⟨hm, hu, hid⟩ hs => by
      subst hm
      have hs' : u.step a = some (v, out) := hs
      rcases step_cases hs' with ⟨b, hb, hman⟩ | ⟨idx, b, rfl, hwork⟩
      · obtain ⟨l, hl, htold⟩ := manage_managed hman
        exact ⟨l, _, hl, ⟨rfl, hu.step hs', hid.manage (ServerAct.toManager_ne hb) hman⟩, htold⟩
      · have hturn : ∀ o ∈ ownTurns ⟨u, .worker idx b, out, v⟩, takesShared o = true :=
          hc _ (hpre.subset (List.mem_append_right _ (List.mem_singleton_self _)))
        obtain ⟨th, _, _, _, _, hth, -⟩ := work_some hwork
        have hw := bodies_of_run hk hth
        obtain ⟨l, hl, htold⟩ := work_managed hu hid hw hwork hturn
        exact ⟨l, _, hl, ⟨rfl, hu.step hs', hid.work hw hwork hturn⟩, htold⟩
  exact ⟨l, hl, htold, hsame⟩

/-- **The manager of the server is one run of its machine**, as long as no shared read is granted
a row that its lock list refuses. The machine shows what is heard of the manager and the workers,
and what it knows of a thread is the id of its worker and where the worker stands. -/
theorem managed_of_run (hr : machine.Run (init db) h s) (hc : EveryTurn takesShared h) :
    (∃ l, ThreadManager.machine.Run ThreadManager.init l s.manager ∧
      l.flatMap ThreadManager.told = h.flatMap fun e => e.out.filterMap ServerEvent.heard) ∧
    ∀ idx th, (s.manager.workers.context idx).thread = some th →
      th = ⟨(s.bodies idx).worker.txnId, (s.bodies idx).point.view⟩ := by
  obtain ⟨l, hl, htold, hsame⟩ := exists_managed hr hc
  refine ⟨⟨l, hl, htold⟩, fun idx th hth => ?_⟩
  rw [← hsame idx th hth, ← (wf_of_run hr).view idx th hth]

/-- The first transaction leaves a request behind, and a second one begins. -/
def leaveBehind : List ServerAct :=
  deleteAndCommit ++ [.datagram (.request .addTuple 1 0 [])] ++
    [.datagram (.request .startTxn 0 0 []), .resume, .resume, .resume, .resume]

theorem managed_of_run_two : ∃ h s, machine.Run (init twoRows) h s ∧ startedIds h = [0, 1] ∧
    (∃ l, ThreadManager.machine.Run ThreadManager.init l s.manager ∧
      l.flatMap ThreadManager.told = h.flatMap fun e => e.out.filterMap ServerEvent.heard) ∧
    ∀ idx th, (s.manager.workers.context idx).thread = some th →
      th = ⟨(s.bodies idx).worker.txnId, (s.bodies idx).point.view⟩ := by
  obtain ⟨h, s, hr, hp⟩ := Machine.exists_run_of_exec
    (p := fun h _ => decide (startedIds h = [0, 1] ∧ EveryTurn takesShared h))
    (show (machine.exec (init twoRows) leaveBehind).map _ = some true by decide +kernel)
  obtain ⟨hids, hc⟩ := of_decide_eq_true hp
  exact ⟨h, s, hr, hids, managed_of_run hr hc⟩

end Server

end PawnDB
