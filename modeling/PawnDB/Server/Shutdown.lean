import PawnDB.Server.Answered
import PawnDB.Server.Locks
import PawnDB.Server.Responds

set_option autoImplicit false

/-! # The shutdown ends

When the manager leaves its main loop it clears the running flags of all workers and then joins
them one after the other. From then on no worker is started and none gets a job, and every worker
is soon at its end. So the server makes at most `stepsToStop` steps before it stops, a bound that
every step of any thread lowers (`Server.stops_of_run`).

It can always make the next one: the worker that the manager waits for has a next turn or has
ended. The exception is a worker that is stuck in a commit.
-/

namespace PawnDB

open WorkerTable

/-- In the end of `trait_start`, or after it. -/
def Phase.isLeaving : Phase → Bool
  | .clearing _ | .stopped => true
  | _ => false

namespace ThreadManager

/-- While the manager joins the workers, all of them have been told to stop. -/
def Halted (m : ThreadManager) : Prop := ∀ slot, m.phase = .clearing slot →
  ∀ i, (m.workers.context i).thread.isSome = true → (m.workers.context i).running = false

variable {m m' : ThreadManager} {out : List ManagerEvent}

theorem Halted.of_phase (h : m.phase.isClearing = false) : m.Halted := by
  intro slot hp
  rw [hp] at h
  cases h

/-- Threads come only where there was one, and the flags stay as they are. -/
theorem Halted.congr (hm : m.Halted) (hphase : m'.phase.isClearing = m.phase.isClearing)
    (hthread : ∀ i, (m'.workers.context i).thread.isSome = true →
      (m.workers.context i).thread.isSome = true)
    (hrun : ∀ i, (m'.workers.context i).running = (m.workers.context i).running ∨
      (m'.workers.context i).running = false) : m'.Halted := by
  intro slot hp i hi
  rcases hrun i with hsame | hfalse
  · rw [hp] at hphase
    cases hq : m.phase with
    | clearing slot' => rw [hsame, hm slot' hq i (hthread i hi)]
    | _ => rw [hq] at hphase; cases hphase
  · exact hfalse

theorem Halted.setContext {idx : Fin maxTransactions} {c : WorkerContext} (hm : m.Halted)
    (hworkers : m'.workers = m.workers.setContext idx c)
    (hphase : m'.phase.isClearing = m.phase.isClearing)
    (hthread : c.thread.isSome = true → (m.workers.context idx).thread.isSome = true)
    (hrun : c.running = (m.workers.context idx).running) : m'.Halted := by
  refine hm.congr hphase (fun i => ?_) fun i => .inl ?_
  all_goals
    rw [hworkers, WorkerTable.context]
    by_cases hi : i = idx
    · subst hi
      rw [setContext_self]
      assumption
    · rw [setContext_of_ne _ _ hi]
      first | exact id | rfl

theorem Halted.joinEntry {idx : Fin maxTransactions} {workers : WorkerTable}
    {replies : List Reply} (hm : m.Halted)
    (hjoin : m.workers.joinEntry idx = some (workers, replies)) (hworkers : m'.workers = workers)
    (hphase : m'.phase.isClearing = m.phase.isClearing) : m'.Halted := by
  obtain ⟨c, hc, rfl⟩ := joinEntry_some hjoin
  obtain ⟨-, hnone, -⟩ := WorkerContext.traitJoin_some _ hc
  have hrun : c.running = (m.workers.context idx).running := WorkerContext.traitJoin_running _ hc
  refine hm.congr hphase (fun i => ?_) fun i => .inl ?_
  all_goals
    rw [hworkers, WorkerTable.context]
    dsimp only
    by_cases hi : i = idx
    · subst hi
      rw [Slots.set_self]
      first | exact hrun | (intro hsome; rw [hnone] at hsome; cases hsome)
    · rw [Slots.set_of_ne _ _ hi]
      first | exact id | rfl

/-- Every step keeps it; the first loop of `trait_clear` makes it so. -/
theorem Halted.step {a : ManagerAct} (hm : m.Halted)
    (hlive : ∀ i, (m.workers.table i).live = (m.workers.context i).thread.isSome)
    (h : machine.step m a = some (m', out)) : m'.Halted := by
  cases step_did h with
  | ignored => exact hm
  | shut => exact hm.congr rfl (fun _ => id) fun _ => .inl rfl
  | began | refused | startTxn | aborted | removing | joined | started | opened | unopened =>
      exact .of_phase rfl
  | routed _ hphase => rcases hphase with rfl | rfl <;> exact .of_phase rfl
  | left =>
      intro slot _ i hi
      change (m.workers.clearStop.table i).context.thread.isSome = true at hi
      change (m.workers.clearStop.table i).context.running = false
      rw [(keeps_clearStop m.workers i).thread] at hi
      have hl : (m.workers.table i).live = true := by
        rw [hlive]
        exact hi
      unfold clearStop
      dsimp only
      rw [if_pos hl]
      rfl
  | cleared hp _ hjoin => exact hm.joinEntry hjoin rfl (by rw [hp]; rfl)
  | passed hp hphase =>
      rcases hphase with rfl | rfl
      · exact hm.congr (by rw [hp]; rfl) (fun _ => id) fun _ => .inl rfl
      · exact .of_phase rfl
  | moved hth | quit hth | received hth | popped hth =>
      exact hm.setContext rfl rfl (fun _ => by rw [hth]; rfl) rfl

theorem halted_init : init.Halted := .of_phase rfl

/-- On the way out the manager starts no worker. -/
theorem clearTurn_calm {slot : Nat} (h : m.clearTurn slot = some (m', out)) :
    Calm out ∧ m'.phase.isLeaving = true := by
  unfold clearTurn at h
  split at h
  · split at h
    · cases h
    · cases h
      refine ⟨?_, rfl⟩
      split
      · exact (calm_replies _ _).cons fun _ _ _ he => by cases he
      · exact calm_replies _ _
  · cases h
    exact ⟨calm_nil, rfl⟩

/-- What is left to the manager on the way out are its own turns. -/
theorem step_of_leaving {b : ManagerAct} (hp : m.phase.isLeaving = true)
    (hb : ∀ idx c, b ≠ .worker idx c) (hstart : b ≠ .start) (hstop : b ≠ .stop)
    (h : m.step b = some (m', out)) :
    m.resume = some (m', out) ∧ Calm out ∧ m'.phase.isLeaving = true := by
  have hresume : m.resume = some (m', out) := by
    cases b with
    | start => exact absurd rfl hstart
    | stop => exact absurd rfl hstop
    | worker idx c => exact absurd rfl (hb idx c)
    | resume => exact h
    | datagram | shutdown =>
        unfold step at h
        dsimp only at h
        split at h
        · next hlisten =>
            rw [hlisten] at hp
            cases hp
        · cases h
  refine ⟨hresume, ?_⟩
  unfold resume at hresume
  cases hq : m.phase with
  | clearing slot =>
      rw [hq] at hresume
      exact clearTurn_calm hresume
  | stopped => rw [hq] at hresume; cases hresume
  | listening | draining | joining | starting | aborting => rw [hq] at hp; cases hp

end ThreadManager

/-- The server is started once more. -/
def ServerAct.isStart : ServerAct → Bool
  | .start => true
  | _ => false

/-- A step that the server makes by itself. -/
def ServerAct.isOwn : ServerAct → Bool
  | .start | .stop => false
  | _ => true

theorem ServerAct.toManager_ne_call {a : ServerAct} {b : ManagerAct} (ha : a.isOwn = true)
    (h : a.toManager = some b) : b ≠ .start ∧ b ≠ .stop := by
  cases a with
  | start | stop => cases ha
  | _ => cases h <;> exact ⟨ManagerAct.noConfusion, ManagerAct.noConfusion⟩

theorem WorkerContext.traitJoin_isSome {c : WorkerContext} {txnId : TxnId} {l : List Job}
    (hth : c.thread = some ⟨txnId, .ended⟩) (hl : c.jobCh.Holds l) : ∃ r, c.traitJoin = some r := by
  obtain ⟨q, hack, -⟩ := ackLoop_eq hl
  rw [traitJoin, hth]
  dsimp only
  rw [← hl.length_eq, hack]
  exact ⟨_, rfl⟩

namespace Server

variable {s s' t : Server} {out : List ServerEvent} {db : StudentTable}
  {h k : List (Entry Server ServerAct ServerEvent)}

theorem halted_of_run (hr : machine.Run (init db) h s) : s.manager.Halted := by
  refine hr.invariant (P := fun _ u => u.manager.Halted) ThreadManager.halted_init
    fun l u a out v hl ih hs => ?_
  rcases step_cases hs with ⟨b, -, hm⟩ | ⟨idx, b, -, hw⟩
  · obtain ⟨mout, hstep, -⟩ := manage_some hm
    exact ih.step (wf_of_run hl).live hstep
  · obtain ⟨th, act, wt, students, wout, hth, -, -, rfl, -⟩ := work_some hw
    exact ih.setContext (c := (u.manager.workers.context idx).after th wt.point wout) rfl rfl
      (fun _ => by rw [hth]; rfl) rfl

/-! ## The number of steps -/

/-- The steps that the worker of a slot can still make when it has been told to stop. -/
def stepsToEnd (s : Server) (idx : Fin maxTransactions) : Nat :=
  if (s.manager.workers.context idx).thread.isSome = true
    then (s.bodies idx).point.stepsToEnd (s.bodies idx).worker else 0

/-- A bound on the steps that a server that leaves can still make. -/
def stepsToStop (s : Server) : Nat := s.manager.turnsLeft + ∑ idx, s.stepsToEnd idx

/-- The most steps of a shutdown. -/
abbrev maxStepsToStop : Nat := maxTransactions + 1 + maxTransactions * maxStepsToEnd

theorem stepsToStop_le (hp : s.manager.phase.isLeaving = true)
    (hw : ∀ idx th, (s.manager.workers.context idx).thread = some th →
      (s.bodies idx).worker.Wf (s.bodies idx).point) : s.stepsToStop ≤ maxStepsToStop := by
  have hturns : s.manager.turnsLeft ≤ maxTransactions + 1 := by
    unfold ThreadManager.turnsLeft
    cases hq : s.manager.phase with
    | clearing slot =>
        rw [Phase.turnsLeft]
        omega
    | stopped => exact Nat.zero_le _
    | listening | draining | joining | starting | aborting => rw [hq] at hp; cases hp
  have hsteps : ∀ idx, s.stepsToEnd idx ≤ maxStepsToEnd := fun idx => by
    unfold stepsToEnd
    split
    · next hsome =>
        obtain ⟨th, hth⟩ := Option.isSome_iff_exists.mp hsome
        exact Point.stepsToEnd_le (hw idx th hth).queue _
    · exact Nat.zero_le _
  calc s.stepsToStop ≤ maxTransactions + 1 + ∑ _idx : Fin maxTransactions, maxStepsToEnd :=
        Nat.add_le_add hturns (Finset.sum_le_sum fun idx _ => hsteps idx)
    _ = maxStepsToStop := by rw [Finset.sum_const, Finset.card_fin, smul_eq_mul]

/-- The server has stopped when there is nothing left. -/
theorem stepsToStop_eq_zero (hs : s.Wf) (hp : s.manager.phase.isLeaving = true) :
    s.stepsToStop = 0 ↔ s.manager.phase = .stopped := by
  constructor
  · intro hzero
    have hturns : s.manager.turnsLeft = 0 := Nat.eq_zero_of_add_eq_zero_right hzero
    rcases ThreadManager.turnsLeft_eq_zero.mp hturns with hlisten | hstop
    · rw [hlisten] at hp
      cases hp
    · exact hstop
  · intro hstop
    have hnone : ∀ idx, (s.manager.workers.context idx).thread.isSome = false := fun idx => by
      rw [← hs.live, hs.cleared.stopped hstop idx]
    rw [stepsToStop, ThreadManager.turnsLeft_eq_zero.mpr (.inr hstop)]
    simp [stepsToEnd, hnone]

/-- A turn of the manager: a worker that has ended is joined, or no thread comes or goes. -/
theorem manage_stepsToStop {b : ManagerAct} (hs : s.Wf) (hp : s.manager.phase.isLeaving = true)
    (hb : ∀ idx c, b ≠ .worker idx c) (hcall : b ≠ .start ∧ b ≠ .stop)
    (h : s.manage b = some (s', out)) :
    s'.stepsToStop < s.stepsToStop ∧ s'.manager.phase.isLeaving = true := by
  obtain ⟨mout, hm, -, hbodies, -⟩ := manage_some h
  obtain ⟨hresume, hcalm, hleaving⟩ := ThreadManager.step_of_leaving hp hb hcall.1 hcall.2 hm
  rw [foldl_launch hcalm] at hbodies
  refine ⟨Nat.add_lt_add_of_lt_of_le (ThreadManager.resume_turnsLeft ?_ hresume) ?_, hleaving⟩
  · intro i
    exact hs.live i
  · refine Finset.sum_le_sum fun i _ => ?_
    rw [stepsToEnd, stepsToEnd, hbodies]
    cases ThreadManager.step_changes hb hm with
    | calm _ hkeep =>
        rw [WorkerTable.context, (hkeep i).thread]
        exact Nat.le_refl _
    | @joined idx _ _ _ hnone _ hother =>
        by_cases hi : i = idx
        · rw [hi, hnone]
          exact Nat.zero_le _
        · rw [WorkerTable.context, hother i hi]
          exact Nat.le_refl _
    | @started idx txnId job hout =>
        refine absurd ?_ (hcalm idx txnId job)
        rw [hout]
        exact List.mem_singleton_self _

/-- A turn of a worker that has been told to stop. -/
theorem work_stepsToStop {idx : Fin maxTransactions} {a : WorkerAct}
    (hw : (s.bodies idx).worker.Wf (s.bodies idx).point)
    (hrun : (s.manager.workers.context idx).running = false)
    (h : s.work idx a = some (s', out)) :
    s'.stepsToStop < s.stepsToStop ∧ s'.manager.phase = s.manager.phase := by
  obtain ⟨th, act, wt, students, wout, hth, hact, hstep, rfl, -⟩ := work_some h
  have hthread : (s.thread idx).worker.Wf (s.thread idx).point := hw
  obtain ⟨-, hlt, -⟩ := WorkerThread.step_stepsToEnd hthread hrun hstep
  refine ⟨Nat.add_lt_add_of_le_of_lt (Nat.le_of_eq ?_) ?_, rfl⟩
  · exact congrArg s.manager.phase.turnsLeft (liveCount_setContext _ idx _)
  · have hsum := Slots.sum_congr_off (f := (s.worked idx th wt students wout).stepsToEnd)
      (g := s.stepsToEnd) idx fun i hi => by
        rw [stepsToEnd, stepsToEnd, worked_context_of_ne s th wt students wout hi,
          worked_bodies_of_ne s th wt students wout hi]
    have hbefore : s.stepsToEnd idx = (s.bodies idx).point.stepsToEnd (s.bodies idx).worker := by
      rw [stepsToEnd, hth]
      rfl
    have hafter : (s.worked idx th wt students wout).stepsToEnd idx
        = wt.point.stepsToEnd wt.worker := by
      rw [stepsToEnd, worked_context_self, worked_bodies_self]
      rfl
    have hlower : wt.point.stepsToEnd wt.worker
        < (s.bodies idx).point.stepsToEnd (s.bodies idx).worker :=
      hlt (WorkerAct.act_ne_stop hact)
    omega

/-- A server that leaves does nothing when it is told to stop. -/
theorem stop_stepsToStop (h : s.step .stop = some (s', out)) :
    s'.stepsToStop = s.stepsToStop ∧ s'.manager.phase = s.manager.phase := by
  obtain ⟨rfl, -⟩ := Prod.mk.inj (Option.some.inj h)
  have hsteps : ∀ idx, stepsToEnd
      ⟨{ s.manager with fdOpen := false }, s.students, s.bodies⟩ idx = s.stepsToEnd idx :=
    fun _ => rfl
  exact ⟨congrArg (s.manager.turnsLeft + ·) (Finset.sum_congr rfl fun idx _ => hsteps idx), rfl⟩

/-- The steps that the server makes by itself in a history. -/
def ownSteps (h : List (Entry Server ServerAct ServerEvent)) : Nat :=
  h.countP fun e => e.act.isOwn

/-- The server makes no more steps than are left. -/
theorem steps_le (hr : machine.Run (init db) h s) (hp : s.manager.phase.isLeaving = true)
    (hk : machine.Run s k t) (hstart : ∀ e ∈ k, e.act.isStart = false) :
    ownSteps k + t.stepsToStop ≤ s.stepsToStop ∧ t.manager.phase.isLeaving = true := by
  obtain ⟨⟨-, hpt⟩, hle⟩ := hk.countP_add_rank_le (c := fun e => e.act.isOwn)
    (fun u => (∃ l, machine.Run (init db) l u) ∧ u.manager.phase.isLeaving = true) stepsToStop
    hstart ⟨⟨h, hr⟩, hp⟩ fun u a out v hu hs ha => by
      obtain ⟨⟨l, hl⟩, hpu⟩ := hu
      have hwf := wf_of_run hl
      have hlv : ∃ l', machine.Run (init db) l' v := ⟨_, hl.snoc hs⟩
      dsimp only at ha ⊢
      cases hown : a.isOwn with
      | false =>
          have hstop : a = .stop := by
            cases a with
            | stop => rfl
            | start => cases ha
            | _ => cases hown
          subst hstop
          obtain ⟨hsame, hpv⟩ := stop_stepsToStop hs
          rw [if_neg Bool.false_ne_true, Nat.add_zero]
          exact ⟨⟨hlv, by rw [hpv]; exact hpu⟩, Nat.le_of_eq hsame⟩
      | true =>
          rcases step_cases hs with ⟨b, hb, hm⟩ | ⟨idx, b, rfl, hw⟩
          · obtain ⟨hlt, hpv⟩ := manage_stepsToStop hwf hpu (ServerAct.toManager_ne hb)
              (ServerAct.toManager_ne_call hown hb) hm
            rw [if_pos rfl]
            exact ⟨⟨hlv, hpv⟩, hlt⟩
          · obtain ⟨th, _, _, _, _, hth, -⟩ := work_some hw
            -- there is a worker, so the server has not stopped yet
            have hrun : (u.manager.workers.context idx).running = false := by
              cases hq : u.manager.phase with
              | clearing slot => exact halted_of_run hl slot hq idx (by rw [hth]; rfl)
              | stopped =>
                  have hlive := hwf.live idx
                  rw [hwf.cleared.stopped hq idx, hth] at hlive
                  cases hlive
              | _ => rw [hq] at hpu; cases hpu
            obtain ⟨hlt, hpv⟩ := work_stepsToStop (bodies_of_run hl hth) hrun hw
            rw [if_pos rfl]
            exact ⟨⟨hlv, by rw [hpv]; exact hpu⟩, hlt⟩
  exact ⟨hle, hpt⟩

/-! ## The next step -/

/-- A worker whose thread can make the turn makes it. -/
theorem exists_work {idx : Fin maxTransactions} {a : WorkerAct} {th : Thread} (act : Act)
    (hth : (s.manager.workers.context idx).thread = some th)
    (hact : a.act (s.manager.workers.context idx).jobCh = some act)
    (h : ∃ r, (s.thread idx).step s.students act = some r) :
    ∃ s' out, s.step (.worker idx a) = some (s', out) := by
  obtain ⟨⟨wt, students, wout⟩, hstep⟩ := h
  refine ⟨s.worked idx th wt students wout, wout.map (.worker idx s.manager.fdOpen), ?_⟩
  change s.work idx a = _
  simp only [work, hth, hact, hstep]

/-- **A worker that has not ended has a next turn**, or it is stuck in its commit. -/
theorem worker_ready (hdb : db.AtRest) (hr : machine.Run (init db) h s)
    (htakes : EveryTurn takesShared h) {idx : Fin maxTransactions} {th : Thread}
    (hth : (s.manager.workers.context idx).thread = some th)
    (hend : (s.bodies idx).point ≠ .ended)
    (hdrains : (s.bodies idx).point.isCommit = true → (s.bodies idx).worker.drains = true) :
    ∃ a s' out, s.step (.worker idx a) = some (s', out) := by
  obtain ⟨l, t, txn, hl, hlinked, -⟩ := linked_of_run hr
  obtain ⟨j, hj⟩ := hlinked.exists_txn hth
  have hthread := hlinked.thread idx j hj
  by_cases hrecv : (s.bodies idx).point = .recv
  · obtain ⟨jobs, hjobs, -⟩ := holds_of_run hr htakes idx
    cases jobs with
    | nil =>
        refine ⟨.recvTimeout, exists_work .recvTimeout hth ?_ ?_⟩
        · rw [WorkerAct.act, if_pos (hjobs.empty_iff.mpr rfl)]
        · simp only [WorkerThread.step, Server.thread, hrecv]
          exact ⟨_, rfl⟩
    | cons job jobs =>
        obtain ⟨r, hreceived⟩ := System.received_isSome hdb hl (i := j)
          (by rw [hthread]; exact hrecv) job
        rw [hthread, hlinked.students] at hreceived
        refine ⟨.recv, exists_work (.recv job) hth ?_ ?_⟩
        · rw [WorkerAct.act, hjobs.get_cons]
        · simp only [WorkerThread.step, show (s.thread idx).point = .recv from hrecv, hreceived]
          exact ⟨_, rfl⟩
  · obtain ⟨r, hresume⟩ := (System.resume_iff hdb hl (i := j) (by rw [hthread]; exact hrecv)
      (by rw [hthread]; exact hend)).mpr (by rw [hthread]; exact hdrains)
    rw [hthread, hlinked.students] at hresume
    refine ⟨.resume, exists_work .resume hth rfl ?_⟩
    simp only [WorkerThread.step, hresume]
    exact ⟨_, rfl⟩

/-- The worker that the manager is to join is stuck in a commit: the next entry is no delete, or
its lock is gone. -/
def Stuck (s : Server) : Prop := ∃ idx, s.manager.phase = .clearing idx.val ∧
  (s.manager.workers.context idx).thread.isSome = true ∧
  (s.bodies idx).point.isCommit = true ∧ (s.bodies idx).worker.drains = false

/-- On the way out the manager has a next turn, or the worker that it waits for has one. -/
theorem exists_step {slot : Nat} (hdb : db.AtRest) (hr : machine.Run (init db) h s)
    (hp : s.manager.phase = .clearing slot) (htakes : EveryTurn takesShared h)
    (hstuck : ¬ s.Stuck) : ∃ a s' out, a.isOwn = true ∧ s.step a = some (s', out) := by
  have hs := wf_of_run hr
  have hmanage : (∃ r, s.manager.clearTurn slot = some r) →
      ∃ a s' out, a.isOwn = true ∧ s.step a = some (s', out) := by
    rintro ⟨⟨m, mout⟩, hm⟩
    refine ⟨.resume, ⟨m, s.students, mout.foldl launch s.bodies⟩, mout.map .manager, rfl, ?_⟩
    have hstep : s.manager.step .resume = some (m, mout) := by
      change s.manager.resume = _
      rw [ThreadManager.resume, hp]
      exact hm
    change s.manage .resume = _
    simp only [manage, hstep]
  unfold ThreadManager.clearTurn at hmanage
  by_cases hslot : slot < maxTransactions
  · rw [dif_pos hslot] at hmanage
    unfold WorkerTable.clearJoin at hmanage
    by_cases hlive : (s.manager.workers.table ⟨slot, hslot⟩).live = true
    · rw [if_pos hlive] at hmanage
      rw [hs.live] at hlive
      obtain ⟨⟨txnId, point⟩, hth⟩ := Option.isSome_iff_exists.mp hlive
      by_cases hend : (s.bodies ⟨slot, hslot⟩).point = .ended
      · -- the worker can be joined
        have hpoint : point = .ended := by
          have hview := hs.view ⟨slot, hslot⟩ _ hth
          rw [hend] at hview
          exact hview
        obtain ⟨l, hl, -⟩ := holds_of_run hr htakes ⟨slot, hslot⟩
        obtain ⟨r, hjoin⟩ := WorkerContext.traitJoin_isSome (by rw [hth, hpoint]) hl
        refine hmanage ?_
        rw [joinEntry, hjoin]
        exact ⟨_, rfl⟩
      · obtain ⟨a, s', out, hstep⟩ := worker_ready hdb hr htakes hth hend fun hcommit => by
          rw [← Bool.not_eq_false]
          exact fun hdrains => hstuck ⟨⟨slot, hslot⟩, hp, hlive, hcommit, hdrains⟩
        exact ⟨_, s', out, rfl, hstep⟩
    · rw [if_neg hlive] at hmanage
      exact hmanage ⟨_, rfl⟩
  · rw [dif_neg hslot] at hmanage
    exact hmanage ⟨_, rfl⟩

/-- **The shutdown ends.** Once the manager has left its loop the server makes at most
`stepsToStop` steps, and when nothing is left of them it has stopped. Until then it can make the
next one, unless the worker that it waits for is stuck in a commit. -/
theorem stops_of_run (hdb : db.AtRest) (hr : machine.Run (init db) h s)
    (hp : s.manager.phase.isLeaving = true) (hk : machine.Run s k t)
    (hstart : ∀ e ∈ k, e.act.isStart = false) :
    ownSteps k + t.stepsToStop ≤ s.stepsToStop ∧ s.stepsToStop ≤ maxStepsToStop ∧
    (t.stepsToStop = 0 ↔ t.manager.phase = .stopped) ∧
    (EveryTurn takesShared (h ++ k) → t.manager.phase ≠ .stopped → ¬ t.Stuck →
      ∃ a t' out, a.isOwn = true ∧ t.step a = some (t', out)) := by
  have hrun := hr.trans hk
  obtain ⟨hle, hleaving⟩ := steps_le hr hp hk hstart
  refine ⟨hle, stepsToStop_le hp fun idx th hth => bodies_of_run hr hth,
    stepsToStop_eq_zero (wf_of_run hrun) hleaving, fun htakes hstop hstuck => ?_⟩
  cases hq : t.manager.phase with
  | clearing slot => exact exists_step hdb hrun hq htakes hstuck
  | stopped => exact absurd hq hstop
  | listening | draining | joining | starting | aborting => rw [hq] at hleaving; cases hleaving

/-- The second transaction waits for a job when the server is stopped. -/
def shutdownWhileWaiting : List ServerAct :=
  deleteAndCommit ++ .datagram (.request .startTxn 0 0 []) :: List.replicate 4 .resume ++
    [.worker 1 .resume, .worker 1 .recv, .worker 1 .resume, .stop, .shutdown]

/-- The manager passes the first slot, and the worker in the second ends. -/
def waitIsOver : List ServerAct :=
  [.resume, .worker 1 .recvTimeout, .stop, .worker 1 .resume, .worker 1 .resume]

theorem stops_of_run_waiting : ∃ h s k t, machine.Run (init twoRows) h s ∧
    machine.Run s k t ∧ s.manager.phase.isLeaving = true ∧ 4 + t.stepsToStop ≤ s.stepsToStop ∧
    ∃ a t' out, a.isOwn = true ∧ t.step a = some (t', out) := by
  obtain ⟨h, s, k, t, hr, hk, hp⟩ := Machine.exists_histories_of_exec (M := machine)
    (s := init twoRows)
    (p := fun h s k t => decide ((∀ e ∈ k, e.act.isStart = false) ∧ ownSteps k = 4 ∧
      EveryTurn takesShared (h ++ k) ∧ (∀ idx, (t.bodies idx).point.isCommit = false)) &&
      s.manager.phase.isLeaving && t.manager.phase.isClearing)
    (show ((machine.exec (init twoRows) shutdownWhileWaiting).bind fun r =>
      (machine.exec r.2 waitIsOver).map _) = some true by decide +kernel)
  rw [Bool.and_eq_true, Bool.and_eq_true] at hp
  obtain ⟨⟨hall, hs⟩, ht⟩ := hp
  obtain ⟨hstart, hlen, htakes, hcommit⟩ := of_decide_eq_true hall
  obtain ⟨hle, -, -, hnext⟩ := stops_of_run (StudentTable.atRest_ofTuples _) hr hs hk hstart
  rw [hlen] at hle
  refine ⟨h, s, k, t, hr, hk, hs, hle, hnext htakes ?_ ?_⟩
  · intro hstop
    rw [hstop] at ht
    cases ht
  · rintro ⟨idx, -, -, hwait, -⟩
    rw [hcommit idx] at hwait
    cases hwait

end Server

end PawnDB
