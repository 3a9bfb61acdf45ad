import PawnDB.Lib.Ledger
import PawnDB.Server.OwnJobs
import PawnDB.Server.Stations
import PawnDB.Server.Threads

set_option autoImplicit false

/-! # The datagrams under way

A datagram that has arrived is in the hands of the manager, in the channel of a worker, or has
been answered. This module keeps the manager's part of these books: a turn of the manager answers
the datagram itself, sends it to one worker, or answers the jobs that a worker left behind
(`ThreadManager.step_accounts`). An empty datagram shuts the server down and counts for nothing.
A reply is handed to the server socket; one that has been shut down or closed sends nothing.
-/

namespace PawnDB

open Bytes Ring
open scoped List

/-- The jobs in a channel, oldest first. -/
def JobChannel.contents (q : JobChannel) : List Job :=
  (window q.jobs q.head q.count.toNat).reduceOption

theorem JobChannel.Holds.contents_eq {q : JobChannel} {l : List Job} (h : q.Holds l) :
    q.contents = l := by
  calc q.contents = (l.map some).reduceOption := by rw [contents, h.window]
    _ = l.filterMap some := List.filterMap_map
    _ = l := List.filterMap_some

/-- The jobs in the channels of all workers. -/
def WorkerTable.queued (t : WorkerTable) : List Job :=
  (List.finRange maxTransactions).flatMap fun i => (t.context i).jobCh.contents

/-- The datagram that the manager is working on. -/
def Phase.jobs : Phase → List Job
  | .draining job => [job]
  | .joining job _ => [job]
  | .starting job _ => [job]
  | _ => []

/-- The datagrams that have arrived and are not yet answered. -/
def ThreadManager.underway (m : ThreadManager) : List Job := m.phase.jobs ++ m.workers.queued

def ManagerAct.arrived : ManagerAct → List Job
  | .datagram job => if job.buf.bufferSize = 0 then [] else [job]
  | _ => []

/-- A reply that is handed to the server socket, and whether the socket is open. -/
def ManagerEvent.handed? : ManagerEvent → Option (Bool × Reply)
  | .reply fdOpen r => some (fdOpen, r)
  | _ => none

theorem filterMap_handed (fdOpen : Bool) (l : List Reply) :
    (l.map (ManagerEvent.reply fdOpen)).filterMap ManagerEvent.handed?
      = l.map (Prod.mk fdOpen) := by
  rw [List.filterMap_map]
  exact congrFun List.filterMap_eq_map l

/-- The manager answers a datagram with the datagram itself. -/
theorem Job.answeredBy_reply (job : Job) (ack : OpAck) : job.AnsweredBy
    ⟨ack, take (job.buf.setAck ack).buffer job.buf.bufferSize, job.conn⟩ :=
  ⟨rfl, fun hlen => take_take_setAck (by decide) (le_trans (by decide) hlen) ack⟩

namespace WorkerTable

variable {t t' : WorkerTable} {idx : Fin maxTransactions} {l : List Job} {job : Job}

theorem queued_congr (h : ∀ i, (t'.context i).jobCh = (t.context i).jobCh) :
    t'.queued = t.queued :=
  List.flatMap_congr fun i _ => by rw [h]

theorem queued_setContext {c : WorkerContext} (h : c.jobCh = (t.context idx).jobCh) :
    (t.setContext idx c).queued = t.queued := by
  refine queued_congr fun i => ?_
  by_cases hi : i = idx
  · rw [hi, context, setContext_self]
    exact h
  · rw [context, setContext_of_ne _ _ hi, context]

/-- What is taken out of the channel of a slot. -/
theorem queued_perm {taken : List Job} (hoff : ∀ i, i ≠ idx → t'.table i = t.table i)
    (hidx : (t.context idx).jobCh.contents ~ taken ++ (t'.context idx).jobCh.contents) :
    t.queued ~ taken ++ t'.queued := by
  refine perm_flatMap_off (fun i hi => ?_) hidx
  rw [context, context, hoff i hi]

theorem queued_send {jobCh : JobChannel} (hl : (t.context idx).jobCh.Holds l)
    (hs : (t.context idx).jobCh.send job = (.none, jobCh)) :
    (t.setContext idx { t.context idx with jobCh := jobCh }).queued ~ job :: t.queued := by
  change _ ~ [job] ++ t.queued
  refine queued_perm (fun i hi => (setContext_of_ne _ _ hi).symm) ?_
  have hsent : jobCh.Holds (l ++ [job]) := hl.of_send hs
  rw [context, setContext_self, hl.contents_eq]
  dsimp only
  rw [hsent.contents_eq]
  exact List.perm_append_comm

/-- The jobs that a worker left behind are answered when it is joined. -/
theorem queued_join {replies : List Reply} (hl : (t.context idx).jobCh.Holds l)
    (hj : t.joinEntry idx = some (t', replies)) :
    replies = l.map WorkerContext.deadReply ∧ t.queued ~ l ++ t'.queued := by
  obtain ⟨c, hc, rfl⟩ := joinEntry_some hj
  unfold WorkerContext.traitJoin at hc
  split at hc
  · next txnId hth =>
      obtain ⟨q', hq', hempty⟩ := WorkerContext.ackLoop_eq hl
      rw [← hl.length_eq, hq'] at hc
      cases hc
      refine ⟨rfl, queued_perm (fun i hi => Slots.set_of_ne _ _ hi) ?_⟩
      rw [hl.contents_eq]
      dsimp only [context]
      rw [Slots.set_self]
      dsimp only
      rw [hempty.contents_eq, List.append_nil]
  · cases hc

end WorkerTable

namespace ThreadManager

variable {m m' : ThreadManager} {out : List ManagerEvent} {job : Job} {idx : Fin maxTransactions}
  {L : Fin maxTransactions → Log}

/-! ## The channel of a worker that is started -/

/-- A worker that waits for its first job has not been sent one. -/
theorem sent_of_starting {h : List (Entry ThreadManager ManagerAct ManagerEvent)}
    (hr : machine.Run init h m) :
    ∀ job idx, m.phase = .starting job idx → (log idx h).sent = [] := by
  refine hr.invariant (P := fun k u => ∀ job idx, u.phase = .starting job idx →
    (log idx k).sent = []) (fun _ _ hp => by cases hp) fun k u a out v _ ih hs job idx hp => ?_
  rw [log_snoc]
  dsimp only
  cases step_did hs with
  | ignored => exact ih job idx hp
  | shut => exact ih job idx hp
  | began | refused | left | startTxn | aborted | removing | joined | opened | unopened | cleared =>
      cases hp
  | routed _ hphase =>
      dsimp only at hp
      subst hp
      rcases hphase with hphase | hphase <;> cases hphase
  | passed _ hphase =>
      dsimp only at hp
      subst hp
      rcases hphase with hphase | hphase <;> cases hphase
  | started =>
      cases hp
      simp [Log.after]
  | moved | quit | popped => exact ih job idx hp
  | received =>
      have := ih job idx hp
      simp only [List.foldl_cons, List.foldl_nil, Log.after]
      split <;> exact this

theorem Inv.holds_of_starting (hi : m.Inv L) (hsent : (L idx).sent = []) :
    (m.workers.context idx).jobCh.Holds [] := by
  obtain ⟨l, hl, hnone, hserves⟩ := (hi.slots idx).queue
  suffices hempty : l = [] by rwa [hempty] at hl
  cases hth : (m.workers.table idx).context.thread with
  | none => exact hnone hth
  | some th =>
      obtain ⟨popped, hq, -⟩ := (hserves th hth).queue
      rw [hsent] at hq
      exact (List.append_eq_nil_iff.mp hq.symm).2

/-! ## The account of a turn of the manager -/

/-- A turn accounts for the datagram that arrives and for all that are under way. -/
def Accounts (m m' : ThreadManager) (arrived : List Job) (out : List ManagerEvent) : Prop :=
  ∃ done replies, List.Forall₂ Job.AnsweredBy done replies ∧
    out.filterMap ManagerEvent.handed? = replies.map (Prod.mk m.fdOpen) ∧
    arrived ++ m.underway ~ done ++ m'.underway

/-- The datagram is answered at once. -/
theorem accounts_refused (ack : OpAck) : Accounts m m [job] [m.reply ack job.buf job.conn] :=
  ⟨[job], _, .cons (job.answeredBy_reply ack) .nil, rfl, .refl _⟩

/-- Nothing is answered, and no channel is touched. -/
theorem accounts_quiet {arrived : List Job} (hout : out.filterMap ManagerEvent.handed? = [])
    (hq : m'.workers.queued = m.workers.queued) (hp : arrived ++ m.phase.jobs = m'.phase.jobs) :
    Accounts m m' arrived out := by
  refine ⟨[], [], .nil, hout, ?_⟩
  rw [underway, underway, hq, ← List.append_assoc, hp]
  exact .refl _

theorem queued_clearStop (t : WorkerTable) : t.clearStop.queued = t.queued := by
  refine WorkerTable.queued_congr fun i => ?_
  unfold WorkerTable.clearStop WorkerTable.context
  dsimp only
  split <;> rfl

theorem route_accounts {op : OpType} (hi : m.Inv L) (hp : m.phase = .listening) :
    Accounts m (m.route op job).1 [job] (m.route op job).2 := by
  unfold route
  split
  · exact accounts_refused _
  split
  · exact accounts_refused _
  next i hsearch =>
  split
  · next jobCh hsend =>
      obtain ⟨l, hl, -⟩ := (hi.slots i).queue
      refine ⟨[], [], .nil, rfl, ?_⟩
      rw [underway, underway, hp]
      have hjobs : (if op = .abortTxn then Phase.aborting i else .listening).jobs = [] := by
        split <;> rfl
      dsimp only
      rw [hjobs]
      exact (WorkerTable.queued_send hl hsend).symm
  · exact accounts_refused _

theorem receive_accounts (hi : m.Inv L) (hp : m.phase = .listening) :
    Accounts m (m.receive job).1 (ManagerAct.datagram job).arrived (m.receive job).2 := by
  by_cases hsize : job.buf.bufferSize = 0
  · rw [receive, if_pos hsize, show (ManagerAct.datagram job).arrived = [] from if_pos hsize]
    exact accounts_quiet rfl (queued_clearStop _) (by rw [hp]; rfl)
  rw [receive, if_neg hsize, show (ManagerAct.datagram job).arrived = [job] from if_neg hsize]
  split
  · next op opId hop hid =>
      split
      · exact accounts_quiet rfl rfl (by rw [hp]; rfl)
      · -- no code stands for this operation
        exact absurd hop job.buf.getOp_ne_maxOpValue
      · exact route_accounts hi hp
  · exact accounts_refused _

/-- A worker is joined, and the jobs that it left behind are answered. -/
theorem accounts_join {replies : List Reply} {pre : List ManagerEvent} (hi : m.Inv L)
    (hj : m.workers.joinEntry idx = some (m'.workers, replies))
    (hpre : pre.filterMap ManagerEvent.handed? = []) (hp : m'.phase.jobs = m.phase.jobs) :
    Accounts m m' [] (pre ++ replies.map (.reply m.fdOpen)) := by
  obtain ⟨l, hl, -⟩ := (hi.slots idx).queue
  obtain ⟨rfl, hq⟩ := WorkerTable.queued_join hl hj
  refine ⟨l, l.map WorkerContext.deadReply, ?_, ?_, ?_⟩
  · exact List.forall₂_map_right_iff.mpr
      (List.forall₂_same.mpr fun job _ => job.answeredBy_deadReply)
  · rw [List.filterMap_append, hpre, filterMap_handed, List.nil_append]
  · rw [List.nil_append, underway, underway, hp]
    calc m.phase.jobs ++ m.workers.queued
        ~ m.phase.jobs ++ (l ++ m'.workers.queued) := hq.append_left _
      _ ~ l ++ (m.phase.jobs ++ m'.workers.queued) := List.perm_append_comm_assoc _ _ _

/-- A worker is started, and its datagram is still in the hands of the manager. -/
theorem queued_traitInsert {t t' : WorkerTable} {txnId : TxnId}
    (h : t.traitInsert (WorkerContext.ofTxn txnId) = some (.ok idx, t')) :
    t'.queued = t.queued := by
  obtain ⟨-, -, started, hs, rfl⟩ := WorkerTable.traitInsert_ok h
  have hch : started.jobCh = (t.context idx).jobCh := by
    unfold WorkerContext.traitStart at hs
    split at hs
    · cases hs
      rfl
    · cases hs
  refine WorkerTable.queued_congr fun i => ?_
  dsimp only [WorkerTable.context]
  by_cases hi : i = idx
  · rw [hi, Slots.set_self]
    exact hch
  · rw [Slots.set_of_ne _ _ hi]

/-- The first job of a worker finds room in its channel. -/
theorem startTurn_accounts (hp : m.phase = .starting job idx)
    (hopen : (m.workers.context idx).jobCh.Holds []) :
    Accounts m (m.startTurn job idx).1 [] (m.startTurn job idx).2 := by
  have hfull : (m.workers.context idx).jobCh.full = false := by
    rw [← Bool.not_eq_true, JobChannel.full_iff, ← hopen.length_eq]
    decide
  have hsend : (m.workers.context idx).jobCh.send job
      = (.none, ((m.workers.context idx).jobCh.send job).2) :=
    Prod.ext (JobChannel.send_error_of_not_full job hfull) rfl
  refine ⟨[], [], .nil, ?_, ?_⟩ <;> unfold startTurn <;> dsimp only <;> rw [hsend]
  · rfl
  · rw [underway, underway, hp]
    exact (WorkerTable.queued_send hopen hsend).symm

theorem resume_accounts (hi : m.Inv L)
    (hroom : ∀ job idx, m.phase = .starting job idx → (L idx).sent = [])
    (h : m.resume = some (m', out)) : Accounts m m' [] out := by
  unfold resume at h
  split at h
  · cases h
  · cases h
  · next job hp =>
      unfold drainTurn at h
      split at h
      · split at h
        · cases h
        · next hrem =>
            cases h
            obtain ⟨-, -, -, rfl⟩ := WorkerTable.removeStop_some hrem
            exact accounts_quiet rfl (WorkerTable.queued_setContext rfl) (by rw [hp]; rfl)
      · split at h
        · cases h
        · next hins =>
            cases h
            exact accounts_quiet rfl (queued_traitInsert hins) (by rw [hp]; rfl)
        · cases h
          -- the table is full, and the datagram is answered
          refine ⟨[job], _, .cons (job.answeredBy_reply _) .nil, rfl, ?_⟩
          rw [underway, underway, hp]
          exact .refl _
  · next job i hp =>
      unfold joinTurn at h
      split at h
      · cases h
      · next workers replies hj =>
          cases h
          have hjoined : [ManagerEvent.joined i].filterMap ManagerEvent.handed? = [] := rfl
          exact accounts_join hi hj hjoined (by rw [hp]; rfl)
  · next job i hp =>
      obtain ⟨rfl, rfl⟩ := Prod.mk.inj (Option.some.inj h)
      exact startTurn_accounts hp (hi.holds_of_starting (hroom job i hp))
  · next i hp =>
      cases h
      exact accounts_quiet rfl (WorkerTable.queued_setContext rfl) (by rw [hp]; rfl)
  · next slot hp =>
      unfold clearTurn at h
      split at h
      · split at h
        · cases h
        · next workers replies hjoin =>
            cases h
            unfold WorkerTable.clearJoin at hjoin
            split at hjoin
            · next hlive =>
                rw [if_pos hlive]
                exact accounts_join hi hjoin rfl (by rw [hp]; rfl)
            · cases hjoin
              next hlive =>
              rw [if_neg hlive]
              exact accounts_quiet rfl rfl (by rw [hp]; rfl)
      · cases h
        exact accounts_quiet rfl rfl (by rw [hp]; rfl)

/-- **A turn of the manager accounts for every datagram.** -/
theorem step_accounts {a : ManagerAct} (ha : ∀ idx b, a ≠ .worker idx b) (hi : m.Inv L)
    (hroom : ∀ job idx, m.phase = .starting job idx → (L idx).sent = [])
    (h : m.step a = some (m', out)) : Accounts m m' a.arrived out := by
  cases a with
  | start =>
      dsimp only [step] at h
      split at h
      · next hp =>
          cases h
          exact accounts_quiet rfl rfl (by rw [hp]; rfl)
      · cases h
  | datagram job =>
      dsimp only [step] at h
      split at h
      · next hp =>
          obtain ⟨rfl, rfl⟩ := Prod.mk.inj (Option.some.inj h)
          exact receive_accounts hi hp
      · cases h
  | stop =>
      cases h
      exact accounts_quiet rfl rfl rfl
  | shutdown =>
      dsimp only [step] at h
      split at h
      · next hp =>
          split at h
          · cases h
          · cases h
            exact accounts_quiet rfl (queued_clearStop _) (by rw [hp]; rfl)
      · cases h
  | resume => exact resume_accounts hi hroom h
  | worker idx b => exact absurd rfl (ha idx b)

end ThreadManager

end PawnDB
