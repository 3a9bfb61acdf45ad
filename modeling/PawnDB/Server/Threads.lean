import PawnDB.Server.Defs
import PawnDB.Server.Turns

set_option autoImplicit false

/-! # The threads of the server

What a turn of the manager does to the worker threads (`WorkerTable.Changes`): it starts one in a
slot that has none, joins one that has ended, or clears running flags. A turn of a worker is one
of its thread (`Server.work_some`).

`Server.Wf` is what holds of every state of the server, whatever its workers do: a slot is in use
exactly if it has a thread, the manager sees every thread where it stands, and no slot is in use
that `trait_clear` has passed.
-/

namespace PawnDB

/-- A turn of the manager starts no worker. -/
def Calm (out : List ManagerEvent) : Prop := ∀ idx txnId job, .started idx txnId job ∉ out

theorem foldl_launch {out : List ManagerEvent} (h : Calm out)
    (bodies : Fin maxTransactions → Body) :
    out.foldl launch bodies = bodies := by
  induction out generalizing bodies with
  | nil => rfl
  | cons e out ih =>
      have hrest : Calm out := fun idx txnId job hm => h idx txnId job (List.mem_cons_of_mem _ hm)
      rw [List.foldl_cons, ih hrest]
      cases e with
      | started idx txnId job => exact absurd List.mem_cons_self (h idx txnId job)
      | _ => rfl

theorem calm_replies (fdOpen : Bool) (replies : List Reply) :
    Calm (replies.map (.reply fdOpen)) := by
  intro idx txnId job hm
  obtain ⟨r, -, hr⟩ := List.mem_map.mp hm
  cases hr

theorem calm_nil : Calm [] := fun _ _ _ => List.not_mem_nil

theorem Calm.cons {e : ManagerEvent} {out : List ManagerEvent} (h : Calm out)
    (he : ∀ idx txnId job, e ≠ .started idx txnId job) : Calm (e :: out) := by
  intro idx txnId job hm
  rcases List.mem_cons.mp hm with heq | hm
  · exact he idx txnId job heq.symm
  · exact h idx txnId job hm

namespace WorkerTable

/-- The entry has the same thread as before; its running flag may have been cleared. -/
structure Keeps (e e' : WorkerEntry) : Prop where
  live : e'.live = e.live
  thread : e'.context.thread = e.context.thread
  txnId : e'.context.txnId = e.context.txnId
  running : e'.context.running = e.context.running ∨ e'.context.running = false

theorem Keeps.running_and {e e' : WorkerEntry} (h : Keeps e e') :
    e'.context.running = (e.context.running && e'.context.running) := by
  rcases h.running with hr | hr
  · rw [hr, Bool.and_self]
  · rw [hr, Bool.and_false]

theorem Keeps.refl (e : WorkerEntry) : Keeps e e := ⟨rfl, rfl, rfl, .inl rfl⟩

/-- What a turn of the manager does to the threads. -/
inductive Changes (t t' : WorkerTable) (out : List ManagerEvent) : Prop
  | calm : Calm out → (∀ i, Keeps (t.table i) (t'.table i)) → Changes t t' out
  | joined {idx : Fin maxTransactions} {txnId : TxnId} :
      Calm out → (t.context idx).thread = some ⟨txnId, .ended⟩ →
      (t'.context idx).thread = none → (t'.table idx).live = false →
      (∀ i, i ≠ idx → t'.table i = t.table i) → Changes t t' out
  | started {idx : Fin maxTransactions} {txnId : TxnId} {job : Job} :
      out = [.started idx txnId job] → (t.context idx).thread = none →
      (t'.context idx).thread = some ⟨txnId, .loop⟩ → (t'.context idx).txnId = txnId →
      (t'.context idx).running = true → (t'.table idx).live = true →
      (∀ i, i ≠ idx → t'.table i = t.table i) → Changes t t' out

variable {t t' : WorkerTable} {idx : Fin maxTransactions} {out : List ManagerEvent}

theorem Changes.same (hout : Calm out) : Changes t t out := .calm hout fun _ => Keeps.refl _

theorem changes_setContext {c : WorkerContext} (hout : Calm out)
    (hth : c.thread = (t.context idx).thread) (htxn : c.txnId = (t.context idx).txnId)
    (hrun : c.running = (t.context idx).running ∨ c.running = false) :
    Changes t (t.setContext idx c) out := by
  refine .calm hout fun i => ?_
  by_cases hi : i = idx
  · subst hi
    rw [setContext_self]
    exact ⟨rfl, hth, htxn, hrun⟩
  · rw [setContext_of_ne _ _ hi]
    exact Keeps.refl _

theorem changes_joinEntry {replies : List Reply} (h : t.joinEntry idx = some (t', replies))
    (hout : Calm out) : Changes t t' out := by
  obtain ⟨c, hc, rfl⟩ := joinEntry_some h
  obtain ⟨⟨txnId, hth⟩, hnone, -⟩ := WorkerContext.traitJoin_some _ hc
  refine .joined hout hth ?_ ?_ fun i hi => Slots.set_of_ne _ _ hi
  · dsimp only [context]
    rw [Slots.set_self]
    exact hnone
  · dsimp only
    rw [Slots.set_self, WorkerEntry.live, Bool.not_true, Bool.and_false]

theorem changes_traitInsert {txnId : TxnId} {job : Job}
    (h : t.traitInsert (WorkerContext.ofTxn txnId) = some (.ok idx, t')) :
    Changes t t' [.started idx txnId job] := by
  obtain ⟨-, -, started, hs, rfl⟩ := traitInsert_ok h
  unfold WorkerContext.traitStart at hs
  split at hs
  · next hnone =>
      cases hs
      refine .started rfl hnone ?_ ?_ ?_ ?_ fun i hi => Slots.set_of_ne _ _ hi <;>
        (dsimp only [context]; rw [Slots.set_self]) <;> rfl
  · cases hs

theorem keeps_clearStop (t : WorkerTable) (i : Fin maxTransactions) :
    Keeps (t.table i) (t.clearStop.table i) := by
  unfold clearStop
  dsimp only
  split
  · exact ⟨rfl, rfl, rfl, .inr rfl⟩
  · exact Keeps.refl _

end WorkerTable

namespace ThreadManager

open WorkerTable

variable {m m' : ThreadManager} {out : List ManagerEvent} {job : Job}

theorem calm_reply (e : ManagerEvent) (he : ∀ idx txnId job, e ≠ .started idx txnId job) :
    Calm [e] := Calm.cons calm_nil he

theorem leave_changes (m : ThreadManager) (out : List ManagerEvent) (hout : Calm out) :
    Changes m.workers m.leave.workers out :=
  .calm hout (keeps_clearStop m.workers)

theorem route_changes (m : ThreadManager) (op : OpType) (job : Job) :
    Changes m.workers (m.route op job).1.workers (m.route op job).2 := by
  have hreply : ∀ r : Reply, Calm [.reply m.fdOpen r] := fun r => calm_replies _ [r]
  unfold route
  split
  · exact .same (hreply _)
  · split
    · exact .same (hreply _)
    · split
      · exact changes_setContext (calm_reply _ fun _ _ _ he => by cases he) rfl rfl (.inl rfl)
      · exact .same (hreply _)

theorem receive_changes (m : ThreadManager) (job : Job) :
    Changes m.workers (m.receive job).1.workers (m.receive job).2 := by
  unfold receive
  split
  · exact leave_changes m [] calm_nil
  · split
    · split
      · exact .same calm_nil
      · exact .same calm_nil
      · exact route_changes m _ job
    · exact .same (calm_replies _ [_])

theorem startTurn_changes (m : ThreadManager) (job : Job) (idx : Fin maxTransactions) :
    Changes m.workers (m.startTurn job idx).1.workers (m.startTurn job idx).2 := by
  unfold startTurn
  dsimp only
  split
  · exact changes_setContext (calm_reply _ fun _ _ _ he => by cases he) rfl rfl (.inl rfl)
  · exact .same calm_nil

theorem changes_of_some {r : ThreadManager × List ManagerEvent}
    (hc : Changes m.workers r.1.workers r.2) (h : some r = some (m', out)) :
    Changes m.workers m'.workers out := by
  cases h
  exact hc

theorem resume_changes (h : m.resume = some (m', out)) :
    Changes m.workers m'.workers out := by
  unfold resume at h
  split at h
  · cases h
  · cases h
  · unfold drainTurn at h
    split at h
    · split at h
      · cases h
      · next hrem =>
          cases h
          obtain ⟨-, -, -, rfl⟩ := removeStop_some hrem
          exact changes_setContext (calm_reply _ fun _ _ _ he => by cases he) rfl rfl (.inr rfl)
    · split at h
      · cases h
      · next hins =>
          cases h
          exact changes_traitInsert hins
      · cases h
        exact .same (calm_replies _ [_])
  · unfold joinTurn at h
    split at h
    · cases h
    · next hjoin =>
        cases h
        exact changes_joinEntry hjoin ((calm_replies _ _).cons fun _ _ _ he => by cases he)
  · exact changes_of_some (startTurn_changes m _ _) h
  · cases h
    exact changes_setContext calm_nil rfl rfl (.inr rfl)
  · unfold clearTurn at h
    split at h
    · unfold clearJoin at h
      split at h
      · cases h
      · next hjoin =>
          cases h
          split at hjoin
          · next hlive =>
              refine changes_joinEntry hjoin ?_
              rw [if_pos hlive]
              exact (calm_replies _ _).cons fun _ _ _ he => by cases he
          · next hlive =>
              cases hjoin
              rw [if_neg hlive]
              exact .same calm_nil
    · cases h
      exact .same calm_nil

/-- **A turn of the manager** starts one worker, joins one that has ended, or leaves every thread
as it is, but for its running flag. -/
theorem step_changes {a : ManagerAct} (ha : ∀ idx b, a ≠ .worker idx b)
    (h : m.step a = some (m', out)) : Changes m.workers m'.workers out := by
  cases a with
  | start =>
      dsimp only [step] at h
      split at h
      · cases h
        exact .same calm_nil
      · cases h
  | datagram job =>
      dsimp only [step] at h
      split at h
      · exact changes_of_some (receive_changes m job) h
      · cases h
  | stop =>
      cases h
      exact .same calm_nil
  | shutdown =>
      dsimp only [step] at h
      split at h
      · split at h
        · cases h
        · cases h
          exact leave_changes m [] calm_nil
      · cases h
  | resume => exact resume_changes h
  | worker idx b => exact absurd rfl (ha idx b)

end ThreadManager

/-! ## Clearing the table -/

def Phase.isStopped : Phase → Bool
  | .stopped => true
  | _ => false

theorem Phase.eq_stopped {p : Phase} (h : p.isStopped = true) : p = .stopped := by
  cases p with
  | stopped => rfl
  | _ => cases h

namespace ThreadManager

/-- No slot is in use that `trait_clear` has passed, and none outside of `trait_start`. -/
structure Cleared (m : ThreadManager) : Prop where
  passed : ∀ slot, m.phase = .clearing slot → ∀ i, i.val < slot → (m.workers.table i).live = false
  stopped : m.phase = .stopped → ∀ i, (m.workers.table i).live = false

variable {m m' : ThreadManager} {out : List ManagerEvent}

theorem cleared_init : init.Cleared := ⟨fun _ hp => (by cases hp), fun _ _ => rfl⟩

theorem Cleared.of_phase (hclear : ∀ slot, m.phase = .clearing slot → slot = 0)
    (hstop : m.phase ≠ .stopped) : m.Cleared where
  passed slot hp i hi := by
    rw [hclear slot hp] at hi
    exact absurd hi (Nat.not_lt_zero _)
  stopped hp := absurd hp hstop

theorem Cleared.congr (h : m.Cleared) (hp : m'.phase = m.phase)
    (hlive : ∀ i, (m'.workers.table i).live = (m.workers.table i).live) : m'.Cleared where
  passed slot hs i hi := by
    rw [hlive]
    exact h.passed slot (hp ▸ hs) i hi
  stopped hs i := by
    rw [hlive]
    exact h.stopped (hp ▸ hs) i

theorem clearTurn_cleared {slot : Nat} (hc : m.Cleared) (hp : m.phase = .clearing slot)
    (h : m.clearTurn slot = some (m', out)) : m'.Cleared := by
  have hbefore : ∀ i : Fin maxTransactions, i.val < slot → (m.workers.table i).live = false :=
    hc.passed slot hp
  unfold clearTurn at h
  split at h
  · next hslot =>
      -- the entry of this slot is not in use after the turn, and the others are as they were
      have hafter : ∀ workers replies, m.workers.clearJoin ⟨slot, hslot⟩ = some (workers, replies) →
          ∀ i : Fin maxTransactions, i.val < slot + 1 → (workers.table i).live = false := by
        intro workers replies hjoin i hi
        unfold WorkerTable.clearJoin at hjoin
        split at hjoin
        · obtain ⟨c, -, rfl⟩ := WorkerTable.joinEntry_some hjoin
          dsimp only
          by_cases his : i = ⟨slot, hslot⟩
          · rw [his, Slots.set_self, WorkerEntry.live, Bool.not_true, Bool.and_false]
          · rw [Slots.set_of_ne _ _ his]
            exact hbefore i (by have := Fin.val_ne_of_ne his; dsimp only at this; omega)
        · next hlive =>
            cases hjoin
            by_cases his : i = ⟨slot, hslot⟩
            · rw [his]
              exact Bool.not_eq_true _ ▸ hlive
            · exact hbefore i (by have := Fin.val_ne_of_ne his; dsimp only at this; omega)
      split at h
      · cases h
      · next workers replies hjoin =>
          cases h
          refine ⟨fun n hn => ?_, fun hn => by cases hn⟩
          cases hn
          exact hafter _ _ hjoin
  · next hslot =>
      cases h
      exact ⟨fun n hn => (by cases hn), fun _ i => hbefore i (by have := i.isLt; omega)⟩

/-- Every turn of the manager keeps this. -/
theorem step_cleared {a : ManagerAct} (ha : ∀ idx b, a ≠ .worker idx b) (hc : m.Cleared)
    (h : m.step a = some (m', out)) : m'.Cleared := by
  cases step_did h with
  | ignored => exact hc
  | shut => exact hc.congr rfl fun _ => rfl
  | began | refused | startTxn | aborted | removing | joined | started | opened | unopened =>
      exact .of_phase (fun _ hs => by cases hs) fun hs => by cases hs
  | left => exact .of_phase (fun _ hs => by cases hs; rfl) fun hs => by cases hs
  | routed _ hphase =>
      rcases hphase with rfl | rfl <;>
        exact .of_phase (fun _ hs => by cases hs) fun hs => by cases hs
  | cleared hp | passed hp =>
      cases a with
      | start | datagram | shutdown => simp only [step, hp] at h; cases h
      | stop =>
          obtain ⟨heq, -⟩ := Prod.mk.inj (Option.some.inj h)
          exact heq ▸ hc.congr rfl fun _ => rfl
      | resume =>
          simp only [step, resume, hp] at h
          exact clearTurn_cleared hc hp h
      | worker idx b => exact absurd rfl (ha idx b)
  | moved | quit | received | popped =>
      exact hc.congr rfl fun i => WorkerTable.setContext_live _ _ _ i

end ThreadManager

/-! ## Turns of the server -/

theorem WorkerAct.act_ne_stop {jobCh : JobChannel} {a : WorkerAct} {act : Act}
    (h : a.act jobCh = some act) : act ≠ .stop := by
  rintro rfl
  unfold act at h
  split at h
  · split at h <;> cases h
  · split at h <;> cases h
  · cases h

theorem ServerAct.toManager_ne {a : ServerAct} {b : ManagerAct} (h : a.toManager = some b)
    (idx : Fin maxTransactions) (c : ThreadAct) : b ≠ .worker idx c := by
  rintro rfl
  cases a <;> cases h

theorem WorkerThread.step_running {th th' : WorkerThread} {db db' : StudentTable} {a : Act}
    {out : List Event} (ha : a ≠ .stop) (h : th.step db a = some (th', db', out)) :
    th'.running = th.running := by
  unfold step at h
  split at h
  · split at h
    · obtain ⟨t, -, heq⟩ := Option.map_eq_some_iff.mp h
      obtain ⟨rfl, -, -⟩ := after_eq heq
      rfl
    · cases h
  · split at h
    · cases h
      rfl
    · cases h
  · obtain ⟨t, -, heq⟩ := Option.map_eq_some_iff.mp h
    obtain ⟨rfl, -, -⟩ := after_eq heq
    rfl
  · exact absurd rfl ha

namespace Server

variable {s s' : Server} {out : List ServerEvent}

theorem manage_some {a : ManagerAct} (h : s.manage a = some (s', out)) :
    ∃ mout, s.manager.step a = some (s'.manager, mout) ∧ s'.students = s.students ∧
      s'.bodies = mout.foldl launch s.bodies ∧ out = mout.map .manager := by
  unfold manage at h
  split at h
  · cases h
  · next m mout hm =>
      cases h
      exact ⟨mout, hm, rfl, rfl, rfl⟩

theorem work_some {idx : Fin maxTransactions} {a : WorkerAct} (h : s.work idx a = some (s', out)) :
    ∃ th act wt students wout, (s.manager.workers.context idx).thread = some th ∧
      a.act (s.manager.workers.context idx).jobCh = some act ∧
      (s.thread idx).step s.students act = some (wt, students, wout) ∧
      s' = s.worked idx th wt students wout ∧
      out = wout.map (.worker idx s.manager.fdOpen) := by
  unfold work at h
  dsimp only at h
  split at h
  · next th act hth hact =>
      split at h
      · cases h
      · next wt students wout hs =>
          cases h
          exact ⟨th, act, wt, students, wout, hth, hact, hs, rfl, rfl⟩
  · cases h

/-- Every step is a turn of the manager or of a worker. -/
theorem step_cases {a : ServerAct} (h : s.step a = some (s', out)) :
    (∃ b, a.toManager = some b ∧ s.manage b = some (s', out)) ∨
    ∃ idx b, a = .worker idx b ∧ s.work idx b = some (s', out) := by
  cases a with
  | worker idx b => exact .inr ⟨idx, b, rfl, h⟩
  | _ => exact .inl ⟨_, rfl, h⟩

section worked

variable (s) {idx i : Fin maxTransactions} (th : Thread) (wt : WorkerThread)
  (students : StudentTable) (wout : List Event)

theorem worked_table_self : (s.worked idx th wt students wout).manager.workers.table idx
    = { s.manager.workers.table idx with
      context := (s.manager.workers.context idx).after th wt.point wout } :=
  WorkerTable.setContext_self _ _ _

theorem worked_table_of_ne (hi : i ≠ idx) :
    (s.worked idx th wt students wout).manager.workers.table i = s.manager.workers.table i :=
  WorkerTable.setContext_of_ne _ _ hi

theorem worked_live (i : Fin maxTransactions) :
    ((s.worked idx th wt students wout).manager.workers.table i).live
      = (s.manager.workers.table i).live :=
  WorkerTable.setContext_live _ _ _ i

theorem worked_context_self : (s.worked idx th wt students wout).manager.workers.context idx
    = (s.manager.workers.context idx).after th wt.point wout := by
  rw [WorkerTable.context, worked_table_self]

theorem worked_context_of_ne (hi : i ≠ idx) :
    (s.worked idx th wt students wout).manager.workers.context i = s.manager.workers.context i := by
  rw [WorkerTable.context, worked_table_of_ne s th wt students wout hi, WorkerTable.context]

theorem worked_bodies_of_ne (hi : i ≠ idx) :
    (s.worked idx th wt students wout).bodies i = s.bodies i := Slots.set_of_ne _ _ hi

theorem worked_bodies_self :
    (s.worked idx th wt students wout).bodies idx = ⟨wt.worker, wt.point⟩ := Slots.set_self _ _ _

theorem worked_thread_self (hrun : wt.running = (s.manager.workers.context idx).running) :
    (s.worked idx th wt students wout).thread idx = wt := by
  rw [thread, worked_bodies_self, worked_context_self]
  obtain ⟨worker, running, point⟩ := wt
  dsimp only at hrun
  rw [hrun]
  rfl

theorem worked_thread_of_ne (hi : i ≠ idx) :
    (s.worked idx th wt students wout).thread i = s.thread i := by
  rw [thread, worked_bodies_of_ne s th wt students wout hi,
    worked_context_of_ne s th wt students wout hi]
  rfl

end worked

/-! ## What holds of every state -/

structure Wf (s : Server) : Prop where
  live : ∀ i, (s.manager.workers.table i).live = (s.manager.workers.context i).thread.isSome
  view : ∀ i th, (s.manager.workers.context i).thread = some th →
    th.point = (s.bodies i).point.view
  cleared : s.manager.Cleared

theorem wf_init (db : StudentTable) : (init db).Wf where
  live _ := rfl
  view _ _ hth := by cases hth
  cleared := ThreadManager.cleared_init

theorem Wf.manage {b : ManagerAct} (hs : s.Wf) (hb : ∀ idx c, b ≠ .worker idx c)
    (h : s.manage b = some (s', out)) : s'.Wf := by
  obtain ⟨mout, hm, -, hbodies, -⟩ := manage_some h
  have hcleared := ThreadManager.step_cleared hb hs.cleared hm
  cases ThreadManager.step_changes hb hm with
  | calm hcalm hkeep =>
      rw [foldl_launch hcalm] at hbodies
      refine ⟨fun i => ?_, fun i th hth => ?_, hcleared⟩
      · rw [(hkeep i).live, WorkerTable.context, (hkeep i).thread]
        exact hs.live i
      · rw [WorkerTable.context, (hkeep i).thread] at hth
        rw [hbodies]
        exact hs.view i th hth
  | @joined idx txnId hcalm _ hnone hlive hother =>
      rw [foldl_launch hcalm] at hbodies
      refine ⟨fun i => ?_, fun i th hth => ?_, hcleared⟩
      · by_cases hi : i = idx
        · rw [hi, hlive, hnone]
          rfl
        · rw [WorkerTable.context, hother i hi]
          exact hs.live i
      · by_cases hi : i = idx
        · rw [hi, hnone] at hth
          cases hth
        · rw [WorkerTable.context, hother i hi] at hth
          rw [hbodies]
          exact hs.view i th hth
  | @started idx txnId job hout _ hth' _ _ hlive hother =>
      rw [hout, List.foldl_cons, List.foldl_nil, launch] at hbodies
      refine ⟨fun i => ?_, fun i th hth => ?_, hcleared⟩
      · by_cases hi : i = idx
        · rw [hi, hlive, hth']
          rfl
        · rw [WorkerTable.context, hother i hi]
          exact hs.live i
      · rw [hbodies]
        by_cases hi : i = idx
        · subst hi
          rw [hth'] at hth
          cases hth
          rw [Slots.set_self]
          rfl
        · rw [WorkerTable.context, hother i hi] at hth
          rw [Slots.set_of_ne _ _ hi]
          exact hs.view i th hth

theorem Wf.work {idx : Fin maxTransactions} {a : WorkerAct} (hs : s.Wf)
    (h : s.work idx a = some (s', out)) : s'.Wf := by
  obtain ⟨th, act, wt, students, wout, hth, -, -, rfl, -⟩ := work_some h
  refine ⟨fun i => ?_, fun i th' hth' => ?_,
    hs.cleared.congr rfl (worked_live s th wt students wout)⟩
  · rw [worked_live, hs.live]
    by_cases hi : i = idx
    · rw [hi, worked_context_self, hth]
      rfl
    · rw [worked_context_of_ne s th wt students wout hi]
  · by_cases hi : i = idx
    · subst hi
      rw [worked_context_self] at hth'
      cases hth'
      rw [worked_bodies_self]
    · rw [worked_context_of_ne s th wt students wout hi] at hth'
      rw [worked_bodies_of_ne s th wt students wout hi]
      exact hs.view i th' hth'

theorem Wf.step {a : ServerAct} (hs : s.Wf) (h : s.step a = some (s', out)) : s'.Wf := by
  rcases step_cases h with ⟨b, hb, hm⟩ | ⟨idx, b, -, hw⟩
  · exact hs.manage (ServerAct.toManager_ne hb) hm
  · exact hs.work hw

theorem wf_of_run {db : StudentTable} {h : List (Entry Server ServerAct ServerEvent)}
    (hr : machine.Run (init db) h s) : s.Wf :=
  hr.invariant (P := fun _ t => t.Wf) (wf_init db) fun _ _ _ _ _ _ ih hs => ih.step hs

end Server

end PawnDB
