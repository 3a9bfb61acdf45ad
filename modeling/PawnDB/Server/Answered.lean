import PawnDB.Server.Managed
import PawnDB.Server.Underway

set_option autoImplicit false

/-! # Every datagram is answered once

The books of the whole server: the datagrams that have arrived are those that were answered, each
by one reply to its own sender, those whose reply was lost, and those that are under way. Whether a
datagram is refused by the manager, handled by a worker or left behind by one, it leaves the books
with one reply; but a reply that is handed to the socket after it was shut down or closed is lost,
and when the server stops this is what becomes of the requests that were still in the channels.

The two ways in which a worker answers a job twice must not occur: a shared read that is granted a
row which its lock list refuses, and a tuple that finds the commit queue full.
-/

namespace PawnDB

open scoped List

/-- A job that is received does not overfill the commit queue, and a row that a shared read is
granted is taken by the lock list. -/
def soundTurn (e : OwnStep) : Bool :=
  match e.act.2 with
  | .recv job => !(e.pre.threads ()).worker.overfills job
  | _ => takesShared e

theorem takesShared_of_sound {e : OwnStep} (h : soundTurn e = true) : takesShared e = true := by
  unfold soundTurn at h
  split at h
  · next ha => rw [takesShared, ha]
  · exact h

theorem Point.view_inHand (p : Point) : p.view.inHand = p.inHand := by
  cases p <;> rfl

/-- A reply that is handed to the server socket, and whether the socket is open. -/
def ServerEvent.handed? : ServerEvent → Option (Bool × Reply)
  | .manager e => e.handed?
  | .worker _ fdOpen e => e.reply?.map (Prod.mk fdOpen)

namespace Server

variable {s s' : Server} {out : List ServerEvent} {idx : Fin maxTransactions}
  {h : List (Entry Server ServerAct ServerEvent)}

/-- The datagrams that arrive in a step, without those that are empty. -/
def arrivals (e : Entry Server ServerAct ServerEvent) : List Job :=
  (e.act.toManager.map ManagerAct.arrived).getD []

/-- The replies that are handed to the server socket in a step. -/
def handed (e : Entry Server ServerAct ServerEvent) : List (Bool × Reply) :=
  e.out.filterMap ServerEvent.handed?

/-- The replies that are sent in a step. -/
def replies (e : Entry Server ServerAct ServerEvent) : List Reply :=
  ((handed e).filter Prod.fst).map Prod.snd

/-- The replies that are handed to a socket which was shut down or closed. -/
def unsent (e : Entry Server ServerAct ServerEvent) : List Reply :=
  ((handed e).filter fun r => !r.1).map Prod.snd

theorem handed_worker (idx : Fin maxTransactions) (fdOpen : Bool) (out : List Event) :
    (out.map (ServerEvent.worker idx fdOpen)).filterMap ServerEvent.handed?
      = (repliesOf out).map (Prod.mk fdOpen) := by
  rw [List.filterMap_map, repliesOf, List.map_filterMap]
  rfl

theorem handed_manager (out : List ManagerEvent) :
    (out.map ServerEvent.manager).filterMap ServerEvent.handed?
      = out.filterMap ManagerEvent.handed? := by
  rw [List.filterMap_map]
  rfl

/-- What a step hands to an open socket is sent. -/
theorem unsent_eq_nil {e : Entry Server ServerAct ServerEvent} {l : List Reply}
    (h : handed e = l.map (Prod.mk true)) : unsent e = [] := by
  rw [unsent, h, List.filter_map]
  simp

/-- The answers of a history that were sent and those that were lost. -/
theorem exists_answered {done : List Job}
    (hd : List.Forall₂ (fun job r => Job.AnsweredBy job r.2) done (h.flatMap handed)) :
    ∃ answered lost, done ~ answered ++ lost ∧
      List.Forall₂ Job.AnsweredBy answered (h.flatMap replies) ∧
      List.Forall₂ Job.AnsweredBy lost (h.flatMap unsent) := by
  obtain ⟨answered, lost, hperm, hsent, hlost⟩ := forall₂_partition Prod.fst hd
  refine ⟨answered, lost, hperm, ?_, ?_⟩
  · have hreplies : h.flatMap replies = ((h.flatMap handed).filter Prod.fst).map Prod.snd := by
      rw [List.filter_flatMap, List.map_flatMap]
      rfl
    rw [hreplies]
    exact List.forall₂_map_right_iff.mpr hsent
  · have hunsent : h.flatMap unsent
        = ((h.flatMap handed).filter fun r => !r.1).map Prod.snd := by
      rw [List.filter_flatMap, List.map_flatMap]
      rfl
    rw [hunsent]
    exact List.forall₂_map_right_iff.mpr hlost

/-! ## Turns of a worker -/

/-- What a turn of a worker answers it pops from its channel. -/
theorem queued_worked {th : Thread} {wt : WorkerThread} {students : StudentTable}
    {wout : List Event} {l done rest : List Job}
    (hl : (s.manager.workers.context idx).jobCh.Holds l) (hsplit : l = done ++ rest)
    (hpops : popsOf wout = done.length) (hone : done.length ≤ 1) :
    s.manager.underway ~ done ++ (s.worked idx th wt students wout).manager.underway := by
  have hrest : ((s.worked idx th wt students wout).manager.workers.context
      idx).jobCh.Holds rest := by
    rw [worked_context_self, WorkerContext.after, hpops]
    subst hsplit
    cases done with
    | nil => exact hl
    | cons job done =>
        have hnone : done.length = 0 := by
          rw [List.length_cons] at hone
          omega
        obtain rfl := List.length_eq_zero_iff.mp hnone
        exact hl.pop
  have hq : s.manager.workers.queued
      ~ done ++ (s.worked idx th wt students wout).manager.workers.queued :=
    WorkerTable.queued_perm (fun i hi => worked_table_of_ne s th wt students wout hi)
      (by rw [hl.contents_eq, hrest.contents_eq, hsplit])
  exact (hq.append_left _).trans (List.perm_append_comm_assoc _ _ _)

theorem settles_accounts {th : Thread} {wt : WorkerThread} {students : StudentTable}
    {job : Job} {rest : List Job} {left : Nat} {t : Turn}
    (hl : (s.manager.workers.context idx).jobCh.Holds (job :: rest)) (hs : Settles job left t) :
    ∃ done, List.Forall₂ Job.AnsweredBy done (repliesOf t.out) ∧
      s.manager.underway ~ done ++ (s.worked idx th wt students t.out).manager.underway := by
  cases hs with
  | waits _ _ hreplies hpops =>
      exact ⟨[], by rw [hreplies]; exact .nil, queued_worked hl rfl hpops (by decide)⟩
  | done r _ hans hreplies hpops =>
      exact ⟨[job], by rw [hreplies]; exact .cons hans .nil,
        queued_worked hl (List.singleton_append ..).symm hpops (Nat.le_refl 1)⟩

theorem quiet_accounts {th : Thread} {wt : WorkerThread} {students : StudentTable}
    {wout : List Event} {l : List Job} (hl : (s.manager.workers.context idx).jobCh.Holds l)
    (hq : Worker.Quiet wout) :
    ∃ done, List.Forall₂ Job.AnsweredBy done (repliesOf wout) ∧
      s.manager.underway ~ done ++ (s.worked idx th wt students wout).manager.underway :=
  ⟨[], by rw [hq.1]; exact .nil, queued_worked hl rfl hq.2 (by decide)⟩

/-- **A turn of a worker accounts for every job in its channel.** -/
theorem work_accounts {a : WorkerAct} {l : List Job}
    (hw : (s.bodies idx).worker.Wf (s.bodies idx).point)
    (hl : (s.manager.workers.context idx).jobCh.Holds l)
    (hhand : (s.bodies idx).point.inHand <+: l) (h : s.work idx a = some (s', out))
    (hc : ∀ o ∈ ownTurns ⟨s, .worker idx a, out, s'⟩, soundTurn o = true) :
    ∃ done replies, List.Forall₂ Job.AnsweredBy done replies ∧
      out.filterMap ServerEvent.handed? = replies.map (Prod.mk s.manager.fdOpen) ∧
      s.manager.underway ~ done ++ s'.manager.underway := by
  obtain ⟨th, act, wt, students, wout, hth, hact, hstep, rfl, rfl⟩ := work_some h
  suffices hwork : ∃ done, List.Forall₂ Job.AnsweredBy done (repliesOf wout) ∧
      s.manager.underway ~ done ++ (s.worked idx th wt students wout).manager.underway by
    obtain ⟨done, hdone, hperm⟩ := hwork
    exact ⟨done, _, hdone, handed_worker _ _ _, hperm⟩
  have hsound := hc _ (by rw [ownTurns]; dsimp only; rw [hact]; exact List.mem_singleton_self _)
  unfold WorkerThread.step at hstep
  cases act with
  | recv job =>
      dsimp only at hstep
      split at hstep
      · obtain ⟨t, ht, heq⟩ := Option.map_eq_some_iff.mp hstep
        obtain ⟨-, -, rfl⟩ := WorkerThread.after_eq heq
        rw [Worker.received_eq] at ht
        obtain ⟨rest, rfl⟩ := hl.exists_of_get (WorkerAct.get_of_act hact)
        have hroom : (s.thread idx).worker.overfills job = false := by
          simpa only [soundTurn, Bool.not_eq_true'] using hsound
        exact settles_accounts hl (Worker.dispatch_settles
          (w := { (s.bodies idx).worker with timeoutCnt := 0 }) hw.queue ht hroom)
      · cases hstep
  | recvTimeout =>
      dsimp only at hstep
      split at hstep
      · cases hstep
        exact quiet_accounts hl ⟨rfl, rfl⟩
      · cases hstep
  | resume =>
      obtain ⟨t, ht, heq⟩ := Option.map_eq_some_iff.mp hstep
      obtain ⟨-, -, rfl⟩ := WorkerThread.after_eq heq
      rcases Point.inHand_cases (s.bodies idx).point with hnone | ⟨job, hjob⟩
      · exact quiet_accounts hl (WorkerThread.quiet_resume ht hnone).2
      · rw [hjob] at hhand
        obtain ⟨rest, rfl⟩ := hhand
        refine settles_accounts hl (WorkerThread.resume_settles hw ht hjob fun hshared => ?_)
        have hshared' : (s.thread idx).point.isSharedRead = true := hshared
        simpa only [soundTurn, takesShared, hshared', Bool.not_true, Bool.false_or] using hsound
  | stop => exact absurd rfl (WorkerAct.act_ne_stop hact)

/-! ## Runs -/

variable {db : StudentTable}

/-- The channel of every slot holds its jobs, the one in hand first. -/
theorem holds_of_run (hr : machine.Run (init db) h s) (hc : EveryTurn takesShared h)
    (idx : Fin maxTransactions) : ∃ l, (s.manager.workers.context idx).jobCh.Holds l ∧
      ((s.manager.workers.context idx).thread = none → l = []) ∧
      ((s.manager.workers.context idx).thread.isSome = true →
        (s.bodies idx).point.inHand <+: l) := by
  obtain ⟨k, hk, -⟩ := exists_managed hr hc
  obtain ⟨l, hl, hnone, hserves⟩ := ((ThreadManager.inv_of_run hk).slots idx).queue
  refine ⟨l, hl, hnone, fun hsome => ?_⟩
  obtain ⟨th, hth⟩ := Option.isSome_iff_exists.mp hsome
  have hhand := (hserves th hth).inHand
  rwa [(wf_of_run hr).view idx th hth, Point.view_inHand] at hhand

/-- Nothing is under way when the server has stopped. -/
theorem underway_of_stopped (hr : machine.Run (init db) h s) (hc : EveryTurn takesShared h)
    (hp : s.manager.phase = .stopped) : s.manager.underway = [] := by
  have hs := wf_of_run hr
  rw [ThreadManager.underway, hp, WorkerTable.queued]
  refine List.flatMap_eq_nil_iff.mpr fun i _ => ?_
  obtain ⟨l, hl, hnone, -⟩ := holds_of_run hr hc i
  have hlive := hs.live i
  rw [hs.cleared.stopped hp i] at hlive
  rw [hl.contents_eq, hnone (Option.not_isSome_iff_eq_none.mp (by rw [← hlive]; decide))]

/-- **A step of the server accounts for every datagram**, and its replies are handed to the socket
as it is before the step. -/
theorem step_accounts {a : ServerAct} (hr : machine.Run (init db) h s)
    (htakes : EveryTurn takesShared h) (hs : s.step a = some (s', out))
    (hc : ∀ o ∈ ownTurns ⟨s, a, out, s'⟩, soundTurn o = true) :
    ∃ done replies, List.Forall₂ Job.AnsweredBy done replies ∧
      out.filterMap ServerEvent.handed? = replies.map (Prod.mk s.manager.fdOpen) ∧
      arrivals ⟨s, a, out, s'⟩ ++ s.manager.underway ~ done ++ s'.manager.underway := by
  rcases step_cases hs with ⟨b, hb, hman⟩ | ⟨idx, b, rfl, hwork⟩
  · obtain ⟨l, hl, -⟩ := exists_managed hr htakes
    obtain ⟨mout, hm, -, -, rfl⟩ := manage_some hman
    rw [handed_manager, arrivals]
    dsimp only
    rw [hb]
    exact ThreadManager.step_accounts (ServerAct.toManager_ne hb) (ThreadManager.inv_of_run hl)
      (ThreadManager.sent_of_starting hl) hm
  · obtain ⟨th, _, _, _, _, hth, -⟩ := work_some hwork
    obtain ⟨l, hl, -, hhand⟩ := holds_of_run hr htakes idx
    exact work_accounts (bodies_of_run hr hth) hl (hhand (by rw [hth]; rfl)) hwork hc

/-- **Every datagram is answered once.** In a run whose turns are sound, the datagrams that have
arrived are those that were answered, those whose one reply was handed to the socket after it had
been shut down or closed, and those that are under way. Nothing is lost while the socket is open,
and nothing is under way when the server has stopped. -/
theorem answered_of_run (hr : machine.Run (init db) h s) (hc : EveryTurn soundTurn h) :
    ∃ answered lost, List.Forall₂ Job.AnsweredBy answered (h.flatMap replies) ∧
      List.Forall₂ Job.AnsweredBy lost (h.flatMap unsent) ∧
      h.flatMap arrivals ~ answered ++ lost ++ s.manager.underway ∧
      (∀ e ∈ h, e.pre.manager.fdOpen = true → unsent e = []) ∧
      (s.manager.phase = .stopped → s.manager.underway = []) := by
  have htakes : EveryTurn takesShared h := fun e he o ho => takesShared_of_sound (hc e he o ho)
  have hbefore : ∀ k e, k ++ [e] <+: h → EveryTurn takesShared k ∧
      ∀ o ∈ ownTurns e, soundTurn o = true := fun k e hpre =>
    ⟨fun e' he' o ho => htakes e' (hpre.subset (List.mem_append_left _ he')) o ho,
      hc e (hpre.subset (List.mem_append_right _ (List.mem_singleton_self _)))⟩
  obtain ⟨done, hgiven, htaken⟩ := hr.ledger (fun job r => Job.AnsweredBy job r.2) arrivals handed
    (fun u => u.manager.underway) rfl fun k u a out v hpre hk hs => by
      obtain ⟨hk', hstep⟩ := hbefore k _ hpre
      obtain ⟨done, replies, hdone, hout, hperm⟩ := step_accounts hk hk' hs hstep
      refine ⟨done, ?_, hperm⟩
      rw [handed]
      dsimp only
      rw [hout]
      exact List.forall₂_map_right_iff.mpr hdone
  obtain ⟨answered, lost, hsplit, hanswered, hlost⟩ := exists_answered hgiven
  refine ⟨answered, lost, hanswered, hlost, htaken.trans (hsplit.append_right _), ?_,
    underway_of_stopped hr htakes⟩
  intro e he hopen
  obtain ⟨k, l, rfl, hk, hs, -⟩ := hr.split he
  obtain ⟨hk', hstep⟩ := hbefore k e ⟨l, by simp⟩
  obtain ⟨done, replies, -, hout, -⟩ := step_accounts hk hk' hs hstep
  rw [hopen] at hout
  exact unsent_eq_nil hout

/-- The transaction of `deleteAndCommit` leaves a request behind, and the server is stopped. -/
def leaveAndStop : List ServerAct :=
  deleteAndCommit ++ [.datagram (.request .addTuple 1 0 []), .stop, .shutdown] ++
    List.replicate 65 .resume

/-- Four requests are answered, and the reply to the fifth is lost. -/
theorem answered_of_run_stop : ∃ h s, machine.Run (init twoRows) h s ∧
    (h.flatMap arrivals).length = 5 ∧ (h.flatMap replies).length = 4 ∧
    ∃ answered lost, List.Forall₂ Job.AnsweredBy answered (h.flatMap replies) ∧
      List.Forall₂ Job.AnsweredBy lost (h.flatMap unsent) ∧
      h.flatMap arrivals ~ answered ++ lost := by
  obtain ⟨h, s, hr, hp⟩ := Machine.exists_run_of_exec
    (p := fun h s => decide ((h.flatMap arrivals).length = 5 ∧ (h.flatMap replies).length = 4 ∧
      EveryTurn soundTurn h) && s.manager.phase.isStopped)
    (show (machine.exec (init twoRows) leaveAndStop).map _ = some true by decide +kernel)
  rw [Bool.and_eq_true, decide_eq_true_eq] at hp
  obtain ⟨⟨harrived, hreplies, hc⟩, hstopped⟩ := hp
  obtain ⟨answered, lost, hanswered, hlost, hperm, -, hnone⟩ := answered_of_run hr hc
  rw [hnone (Phase.eq_stopped hstopped), List.append_nil] at hperm
  exact ⟨h, s, hr, harrived, hreplies, answered, lost, hanswered, hlost, hperm⟩

end Server

end PawnDB
