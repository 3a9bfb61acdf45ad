import PawnDB.Server.OwnJobs

set_option autoImplicit false

/-! # Every finished worker is removed once

A worker that quits sends its id over `ret_ch_`, and `START_TXN` removes the workers whose ids it
finds there. `send` does not check whether there is room for the id. As long as there is
(`Room`), the ids are removed in the order in which they were sent, each of them once, and the
worker is there when its turn comes (`reaped_of_run`). With seventeen workers that quit before the
next `START_TXN` the last id overwrites the first (`not_always_reaped`).

The invariant ties the channel to the table: each id occurs in the channel as often as there are
slots whose worker has that id and has ended (`Reports`).
-/

namespace PawnDB

open Probing

/-- The worker of the slot has this id and its thread has ended. -/
def WorkerEntry.endedAs (e : WorkerEntry) (txnId : TxnId) : Bool :=
  match e.context.thread with
  | some ⟨_, .ended⟩ => e.context.txnId == txnId
  | _ => false

def ThreadPoint.isEnded : ThreadPoint → Bool
  | .ended => true
  | _ => false

namespace WorkerEntry

variable {e : WorkerEntry} {th : Thread} {point : ThreadPoint}

theorem endedAs_eq_false (hth : e.context.thread = some th) (hp : th.point.isEnded = false)
    (txnId : TxnId) : e.endedAs txnId = false := by
  rw [endedAs, hth]
  obtain ⟨_, point⟩ := th
  cases point with
  | ended => cases hp
  | _ => rfl

end WorkerEntry

namespace WorkerTable

/-- Every worker can be found from the home of its id. -/
def AllLinked (t : WorkerTable) : Prop :=
  ∀ i, (t.table i).live = true →
    Linked (home (t.context i).txnId) (fun j => (t.table j).isUsed) i

/-- The ids in the list are those of the workers that have ended. -/
def Reports (t : WorkerTable) (l : List TxnId) : Prop :=
  ∀ txnId, l.count txnId = Slots.count fun i => (t.table i).endedAs txnId

variable {t : WorkerTable} {l : List TxnId} {idx : Fin maxTransactions} {e : WorkerEntry}

theorem allLinked_init : init.AllLinked := fun _ hi => by cases hi

theorem reports_init : init.Reports [] := fun txnId => by
  symm
  rw [List.count_nil, Slots.count_eq_zero]
  intro i
  rfl

/-- A slot changes and keeps its place in the table. -/
theorem AllLinked.set {size : SizeT} (h : t.AllLinked) (hused : e.isUsed = (t.table idx).isUsed)
    (hlive : e.live = true → (t.table idx).live = true)
    (hsame : e.context.txnId = (t.context idx).txnId) :
    AllLinked ⟨Slots.set t.table idx e, size⟩ := by
  intro i hi
  have hu : (fun j => (Slots.set t.table idx e j).isUsed) = fun j => (t.table j).isUsed :=
    funext fun j => Slots.map_set WorkerEntry.isUsed t.table idx e hused j
  have hid : (Slots.set t.table idx e i).context.txnId = (t.context i).txnId :=
    Slots.map_set (fun e => e.context.txnId) t.table idx e hsame i
  show Linked (home (Slots.set t.table idx e i).context.txnId)
    (fun j => (Slots.set t.table idx e j).isUsed) i
  rw [hid, hu]
  refine h i ?_
  change (Slots.set t.table idx e i).live = true at hi
  by_cases hne : i = idx
  · subst hne
    rw [Slots.set_self] at hi
    exact hlive hi
  · rwa [Slots.set_of_ne _ _ hne] at hi

/-- A slot changes and reports nothing new. -/
theorem Reports.set {size : SizeT} (h : t.Reports l)
    (he : ∀ txnId, e.endedAs txnId = (t.table idx).endedAs txnId) :
    Reports ⟨Slots.set t.table idx e, size⟩ l := by
  intro txnId
  rw [h txnId]
  exact Slots.count_congr fun i =>
    (Slots.map_set (fun e => e.endedAs txnId) t.table idx e (he txnId) i).symm

theorem AllLinked.setContext {c : WorkerContext} (h : t.AllLinked)
    (hsame : c.txnId = (t.context idx).txnId) : (t.setContext idx c).AllLinked :=
  h.set rfl id hsame

/-- A worker is inserted. It is linked because the insertion passed only slots in use. -/
theorem AllLinked.insert {c : WorkerContext} {size : SizeT} (h : t.AllLinked)
    (hi : seek (fun i => !(t.table i).isUsed || (t.table i).isDeleted) maxTransactions
      (home c.txnId) = some idx)
    (hused : e.isUsed = true) (hsame : e.context.txnId = c.txnId) :
    AllLinked ⟨Slots.set t.table idx e, size⟩ := by
  have hmono : ∀ j, (t.table j).isUsed = true → (Slots.set t.table idx e j).isUsed = true := by
    intro j hj
    by_cases hne : j = idx
    · subst hne
      rwa [Slots.set_self]
    · rwa [Slots.set_of_ne _ _ hne]
  intro i hlive
  change (Slots.set t.table idx e i).live = true at hlive
  show Linked (home (Slots.set t.table idx e i).context.txnId)
    (fun j => (Slots.set t.table idx e j).isUsed) i
  by_cases hne : i = idx
  · subst hne
    rw [Slots.set_self, hsame]
    refine linked_of_seek hi fun j hj => hmono j ?_
    rw [Bool.or_eq_false_iff, Bool.not_eq_false'] at hj
    exact hj.1
  · rw [Slots.set_of_ne _ _ hne] at hlive ⊢
    exact (h i hlive).mono hmono

/-- The worker of a slot ends. -/
theorem Reports.push {size : SizeT} {x : TxnId} (h : t.Reports l)
    (hold : ∀ txnId, (t.table idx).endedAs txnId = false)
    (hnew : ∀ txnId, e.endedAs txnId = (x == txnId)) :
    Reports ⟨Slots.set t.table idx e, size⟩ (l ++ [x]) := by
  intro txnId
  have hcount := Slots.count_congr_off
    (p := fun i => (Slots.set t.table idx e i).endedAs txnId)
    (q := fun i => (t.table i).endedAs txnId) idx fun i hi => by rw [Slots.set_of_ne _ _ hi]
  rw [Slots.set_self, hold, hnew, if_neg Bool.false_ne_true, Nat.add_zero] at hcount
  rw [List.count_append, List.count_singleton, h txnId]
  exact hcount.symm

/-- An ended worker is removed. -/
theorem Reports.pop {size : SizeT} {x : TxnId} (h : t.Reports (x :: l))
    (hold : ∀ txnId, (t.table idx).endedAs txnId = (x == txnId))
    (hnew : ∀ txnId, e.endedAs txnId = false) :
    Reports ⟨Slots.set t.table idx e, size⟩ l := by
  intro txnId
  have hcount := Slots.count_congr_off
    (p := fun i => (Slots.set t.table idx e i).endedAs txnId)
    (q := fun i => (t.table i).endedAs txnId) idx fun i hi => by rw [Slots.set_of_ne _ _ hi]
  rw [Slots.set_self, hold, hnew, if_neg Bool.false_ne_true, Nat.add_zero, ← h txnId,
    List.count_cons] at hcount
  exact (Nat.add_right_cancel hcount).symm

/-- **The loop of `trait_remove` finds a worker with a reported id.** -/
theorem Reports.removeStop {x : TxnId} (h : t.Reports l) (hl : t.AllLinked) (hx : x ∈ l)
    (hlive : ∀ i, (t.table i).live = (t.context i).thread.isSome) :
    ∃ idx workers, t.removeStop x = some (idx, workers) ∧ (t.table idx).live = true := by
  have hpos : 0 < Slots.count fun i => (t.table i).endedAs x := by
    rw [← h x]
    exact List.count_pos_iff.mpr hx
  -- the report was sent by a worker that is still in its slot
  obtain ⟨q, hq⟩ := Slots.exists_of_count_pos hpos
  rw [WorkerEntry.endedAs] at hq
  split at hq
  · next hth =>
      have hqlive : (t.table q).live = true := by
        rw [hlive, context, hth]
        rfl
      obtain ⟨hqused, hqdel⟩ := Bool.and_eq_true_iff.mp hqlive
      have hid : (t.context q).txnId = x := beq_iff_eq.mp hq
      have hlink := hl q hqlive
      rw [hid] at hlink
      have hkey : t.keyAt x q = true := by
        rw [keyAt, hqdel, Bool.and_true, beq_iff_eq]
        exact hid
      -- the probe from the id's home slot may stop earlier, at another slot with the id
      obtain ⟨r, hr, hkr, hur⟩ := exists_seek_of_linked hlink hqused hkey
      refine ⟨r, t.setContext r (t.context r).traitStop, ?_, ?_⟩
      · rw [WorkerTable.removeStop, hr]
      · rw [WorkerEntry.live, hur, Bool.true_and]
        exact (Bool.and_eq_true_iff.mp hkr).2
  · cases hq

end WorkerTable

/-- The id that a worker reports. -/
def ManagerEvent.quitId : ManagerEvent → Option TxnId
  | .quit txnId => some txnId
  | _ => none

/-- The id that is passed to `WorkerTable.remove`. -/
def ManagerEvent.removedId : ManagerEvent → Option TxnId
  | .removing txnId _ => some txnId
  | _ => none

def Phase.isClearing : Phase → Bool
  | .clearing _ => true
  | _ => false

def Phase.isJoining : Phase → Bool
  | .joining _ _ => true
  | _ => false

namespace ThreadManager

/-- The ids reported in a history, in their order. -/
def quitIds (h : List (Entry ThreadManager ManagerAct ManagerEvent)) : List TxnId :=
  (h.flatMap Entry.out).filterMap ManagerEvent.quitId

/-- The ids passed to `WorkerTable.remove` in a history, in their order. -/
def removedIds (h : List (Entry ThreadManager ManagerAct ManagerEvent)) : List TxnId :=
  (h.flatMap Entry.out).filterMap ManagerEvent.removedId

variable (m : ThreadManager)

/-- The manager has not left its main loop. -/
def serving : Bool := !m.phase.isClearing

/-- Of the ids in the channel, those that are still to be passed to `WorkerTable.remove`: during
the join the first one has been passed and is not yet popped. -/
def waiting (ids : List TxnId) : List TxnId :=
  match m.phase with
  | .joining _ _ => ids.tail
  | _ => ids

/-- Every reported id is passed to `WorkerTable.remove` once, in the order of the reports, or
waits in the channel, and the next one is that of a worker in the table. -/
structure Reaped (h : List (Entry ThreadManager ManagerAct ManagerEvent)) : Prop where
  order : quitIds h = removedIds h ++ m.waiting m.retCh.contents
  found : ∀ job txnId, m.phase = .draining job → m.retCh.get = .ok txnId →
    ∃ idx workers, m.workers.removeStop txnId = some (idx, workers) ∧
      (m.workers.table idx).live = true

/-- A worker that reports its id finds room in the channel. -/
def Room (e : Entry ThreadManager ManagerAct ManagerEvent) : Prop :=
  e.out.filterMap ManagerEvent.quitId ≠ [] → e.pre.retCh.full = false

instance (e : Entry ThreadManager ManagerAct ManagerEvent) : Decidable (Room e) :=
  inferInstanceAs (Decidable (_ → _))

@[simp] theorem filterMap_quitId_reply (fdOpen : Bool) (l : List Reply) :
    (l.map (ManagerEvent.reply fdOpen)).filterMap ManagerEvent.quitId = [] := by
  induction l with
  | nil => rfl
  | cons r l ih => exact ih

@[simp] theorem filterMap_removedId_reply (fdOpen : Bool) (l : List Reply) :
    (l.map (ManagerEvent.reply fdOpen)).filterMap ManagerEvent.removedId = [] := by
  induction l with
  | nil => rfl
  | cons r l ih => exact ih

/-! ## The invariant -/

/-- The channel has the ids of the ended workers, and the first one during the join is that of the
worker that is joined. -/
structure Reaping (sent removed : List TxnId) : Prop where
  serving : m.serving = true
  linked : m.workers.AllLinked
  queue : ∃ l, m.retCh.Holds l ∧ m.workers.Reports l ∧ sent = removed ++ m.waiting l ∧
    ∀ job idx, m.phase = .joining job idx → ∃ rest, l = (m.workers.context idx).txnId :: rest

theorem reaping_init : init.Reaping [] [] where
  serving := rfl
  linked := WorkerTable.allLinked_init
  queue := ⟨[], RetChannel.holds_init, WorkerTable.reports_init, rfl, fun _ _ hph => by cases hph⟩

variable {m} {m' : ThreadManager} {out : List ManagerEvent} {L : Fin maxTransactions → Log}
  {sent removed : List TxnId}

theorem waiting_eq {l : List TxnId} (hp : m.phase.isJoining = false) : m.waiting l = l := by
  unfold waiting
  split
  · next hph =>
      rw [hph] at hp
      cases hp
  · rfl

/-- A turn for a slot that keeps its id and reports nothing. -/
theorem Reaping.setContext (idx : Fin maxTransactions) (c : WorkerContext)
    (h : m.Reaping sent removed) (hsame : c.txnId = (m.workers.context idx).txnId)
    (he : ∀ txnId, { m.workers.table idx with context := c }.endedAs txnId
      = (m.workers.table idx).endedAs txnId) :
    Reaping { m with workers := m.workers.setContext idx c } sent removed := by
  obtain ⟨l, hq, hrep, hsent, hjoin⟩ := h.queue
  refine ⟨h.serving, h.linked.setContext hsame, l, hq, hrep.set he, hsent, fun job i hp => ?_⟩
  obtain ⟨rest, hrest⟩ := hjoin job i hp
  refine ⟨rest, hrest.trans (congrArg (· :: rest) ?_)⟩
  exact (Slots.map_set (fun e => e.context.txnId) m.workers.table idx
    { m.workers.table idx with context := c } hsame i).symm

/-- A turn of a worker that goes on. -/
theorem Reaping.goTo {idx : Fin maxTransactions} {th : Thread} {point : ThreadPoint}
    (jobCh : JobChannel) (h : m.Reaping sent removed)
    (hth : (m.workers.context idx).thread = some th) (hp : th.point.isEnded = false)
    (hp' : point.isEnded = false) :
    Reaping { m with
        workers := m.workers.setContext idx
          { (m.workers.context idx).goTo th point with jobCh := jobCh } } sent removed := by
  refine h.setContext idx _ rfl fun txnId => ?_
  have hnew : ({ th with point := point } : Thread).point.isEnded = false := hp'
  exact (WorkerEntry.endedAs_eq_false rfl hnew txnId).trans
    (WorkerEntry.endedAs_eq_false hth hp txnId).symm

/-- A turn of the manager before or after a removal. -/
theorem Reaping.goPhase {phase : Phase} {fdOpen : Bool} (next : TxnId) (h : m.Reaping sent removed)
    (hp : m.phase.isJoining = false) (hserv : phase.isClearing = false)
    (hjoin : phase.isJoining = false) :
    Reaping { m with phase := phase, nextTxnId := next, fdOpen := fdOpen } sent removed := by
  obtain ⟨l, hq, hrep, hsent, -⟩ := h.queue
  refine ⟨?_, h.linked, l, hq, hrep, ?_, fun job idx hph => ?_⟩
  · rw [ThreadManager.serving, hserv, Bool.not_false]
  · rw [hsent, waiting_eq hp, waiting_eq]
    exact hjoin
  · change phase = _ at hph
    rw [hph] at hjoin
    cases hjoin

/-- The manager looks up the oldest id and stops its worker, which it is now to join. -/
theorem Reaping.removing {job : Job} {deadTxn : TxnId} {idx : Fin maxTransactions}
    {workers : WorkerTable} (h : m.Reaping sent removed) (hp : m.phase = .draining job)
    (hget : m.retCh.get = .ok deadTxn)
    (hrem : m.workers.removeStop deadTxn = some (idx, workers)) :
    Reaping { m with workers := workers, phase := .joining job idx } sent
      (removed ++ [deadTxn]) := by
  obtain ⟨hsame, -, -, rfl⟩ := WorkerTable.removeStop_some hrem
  have hset := h.setContext idx (m.workers.context idx).traitStop rfl fun _ => rfl
  obtain ⟨l, hq, hrep, hsent, -⟩ := hset.queue
  obtain ⟨rest, rfl⟩ := hq.exists_of_get hget
  refine ⟨rfl, hset.linked, deadTxn :: rest, hq, hrep, ?_, fun job' idx' hph => ?_⟩
  · -- the id stays in the channel until the join, but it does not wait any more
    rw [hsent]
    unfold waiting
    simp only [hp, List.append_assoc]
    rfl
  · cases hph
    refine ⟨rest, congrArg (· :: rest) ?_⟩
    rw [← hsame]
    show _ = (Slots.set m.workers.table idx _ idx).context.txnId
    rw [Slots.set_self]
    rfl

/-- The join: the worker is not in the table any more, and its id is popped. -/
theorem Reaping.joined {job : Job} {idx : Fin maxTransactions} {workers : WorkerTable}
    {replies : List Reply} (h : m.Reaping sent removed) (hp : m.phase = .joining job idx)
    (hjoin : m.workers.joinEntry idx = some (workers, replies)) :
    Reaping { m with workers := workers, retCh := m.retCh.pop, phase := .draining job } sent
      removed := by
  obtain ⟨c, hc, rfl⟩ := WorkerTable.joinEntry_some hjoin
  obtain ⟨⟨txnId, hth⟩, hnone, hsame⟩ := WorkerContext.traitJoin_some _ hc
  obtain ⟨l, hq, hrep, hsent, hhead⟩ := h.queue
  obtain ⟨rest, rfl⟩ := hhead job idx hp
  refine ⟨rfl, h.linked.set rfl (fun hl => ?_) hsame, rest, hq.pop, ?_, ?_,
    fun _ _ hph => by cases hph⟩
  · rw [WorkerEntry.live, Bool.not_true, Bool.and_false] at hl
    cases hl
  · refine hrep.pop (fun id => ?_) fun id => ?_
    · change (m.workers.table idx).context.thread = _ at hth
      rw [WorkerEntry.endedAs, hth]
      rfl
    · rw [WorkerEntry.endedAs, hnone]
  · rw [hsent]
    unfold waiting
    rw [hp]
    rfl

/-- A new worker has not ended, and neither had one in the slot that it gets. -/
theorem Reaping.started {job : Job} {idx : Fin maxTransactions} {workers : WorkerTable}
    {c : WorkerContext} (hi : m.Inv L) (h : m.Reaping sent removed)
    (hp : m.phase = .draining job) (hins : m.workers.traitInsert c = some (.ok idx, workers)) :
    Reaping { m with workers := workers, phase := .starting job idx } sent removed := by
  obtain ⟨hfree, hseek, started, hs, rfl⟩ := WorkerTable.traitInsert_ok hins
  obtain ⟨l, hq, hrep, hsent, -⟩ := h.queue
  have hnone := (hi.slots idx).thread_eq_none hfree
  rw [WorkerContext.traitStart, WorkerContext.assign] at hs
  simp only [WorkerTable.context, hnone, Option.some.injEq] at hs
  subst hs
  refine ⟨rfl, h.linked.insert hseek rfl rfl, l, hq, hrep.set fun id => ?_, ?_,
    fun _ _ hph => by cases hph⟩
  · rw [WorkerEntry.endedAs, WorkerEntry.endedAs, hnone]
  · rw [hsent]
    unfold waiting
    rw [hp]

/-- A worker ends and reports its id, which is that of its slot. -/
theorem Reaping.quit {idx : Fin maxTransactions} {th : Thread} (hi : m.Inv L)
    (h : m.Reaping sent removed) (hth : (m.workers.context idx).thread = some th)
    (hp : th.point = .loop) (hroom : m.retCh.full = false) :
    Reaping { m with
        workers := m.workers.setContext idx ((m.workers.context idx).goTo th .ended)
        retCh := m.retCh.send th.txnId } (sent ++ [th.txnId]) removed := by
  obtain ⟨_, _, -, hserve⟩ := (hi.slots idx).queue
  have hsame := (hserve th hth).sameTxn
  obtain ⟨l, hq, hrep, hsent, hhead⟩ := h.queue
  refine ⟨h.serving, h.linked.setContext rfl, l ++ [th.txnId], hq.send hroom _, ?_, ?_, ?_⟩
  · refine hrep.push (fun id => ?_) fun id => ?_
    · exact WorkerEntry.endedAs_eq_false hth (by rw [hp]; rfl) id
    · rw [hsame]
      rfl
  · rw [hsent, List.append_assoc]
    refine congrArg (removed ++ ·) ?_
    -- during a join the channel is not empty, so that the new id does not come first
    unfold waiting
    dsimp only
    split
    · next job i hph =>
        obtain ⟨rest, rfl⟩ := hhead job i hph
        rfl
    · rfl
  · intro job i hph
    obtain ⟨rest, rfl⟩ := hhead job i hph
    refine ⟨rest ++ [th.txnId], congrArg (· :: (rest ++ [th.txnId])) ?_⟩
    exact (Slots.map_set (fun e => e.context.txnId) m.workers.table idx
      { m.workers.table idx with context := (m.workers.context idx).goTo th .ended } rfl i).symm

/-- A step that reports no id and removes none. -/
theorem Reaping.silent (h : m'.Reaping sent removed)
    (hquit : out.filterMap ManagerEvent.quitId = [])
    (hremoved : out.filterMap ManagerEvent.removedId = []) :
    m'.Reaping (sent ++ out.filterMap ManagerEvent.quitId)
      (removed ++ out.filterMap ManagerEvent.removedId) := by
  rw [hquit, hremoved, List.append_nil, List.append_nil]
  exact h

/-- **A step keeps the channel and the table in agreement.** -/
theorem reaping_step (hi : m.Inv L) (h : m.Reaping sent removed) (hd : m.Did m' out)
    (hserv : m'.serving = true)
    (hroom : out.filterMap ManagerEvent.quitId ≠ [] → m.retCh.full = false) :
    m'.Reaping (sent ++ out.filterMap ManagerEvent.quitId)
      (removed ++ out.filterMap ManagerEvent.removedId) := by
  -- only an insertion, a removal, a join and a quit change who is known
  cases hd with
  | ignored => exact h.silent rfl rfl
  | began hp => exact (h.goPhase 0 (by rw [hp]; rfl) rfl rfl).silent rfl rfl
  | shut => exact Reaping.silent ⟨h.serving, h.linked, h.queue⟩ rfl rfl
  | refused r hp =>
      refine (h.goPhase m.nextTxnId ?_ rfl rfl).silent rfl rfl
      rcases hp with hp | ⟨job, hp, -⟩ <;> rw [hp] <;> rfl
  | left _ => cases hserv
  | startTxn hp _ => exact (h.goPhase m.nextTxnId (by rw [hp]; rfl) rfl rfl).silent rfl rfl
  | @routed txnId job idx jobCh phase hp hphase _ _ _ _ =>
      have hset := h.setContext idx { m.workers.context idx with jobCh := jobCh } rfl
        fun _ => rfl
      refine (hset.goPhase m.nextTxnId (by rw [hp]; rfl) ?_ ?_).silent rfl rfl
      · rcases hphase with rfl | rfl <;> rfl
      · rcases hphase with rfl | rfl <;> rfl
  | @aborted idx hp =>
      have hset := h.setContext idx (m.workers.context idx).traitStop rfl fun _ => rfl
      exact (hset.goPhase m.nextTxnId (by rw [hp]; rfl) rfl rfl).silent rfl rfl
  | @removing job deadTxn idx workers hp hget hrem =>
      have hrun := h.removing hp hget hrem
      rwa [← List.append_nil sent] at hrun
  | @joined job idx workers replies hp hjoin =>
      refine (h.joined hp hjoin).silent ?_ ?_
      · exact filterMap_quitId_reply _ replies
      · exact filterMap_removedId_reply _ replies
  | started hp _ hins => exact (h.started hi hp hins).silent rfl rfl
  | @opened job idx jobCh hp hsend =>
      have hset := h.setContext idx { m.workers.context idx with jobCh := jobCh } rfl
        fun _ => rfl
      exact (hset.goPhase (m.nextTxnId + 1) (by rw [hp]; rfl) rfl rfl).silent rfl rfl
  | unopened hp _ =>
      exact (h.goPhase (m.nextTxnId + 1) (by rw [hp]; rfl) rfl rfl).silent rfl rfl
  | cleared => cases hserv
  | passed hp _ =>
      have := h.serving
      rw [serving, hp] at this
      cases this
  | @moved idx th point hth hpoint =>
      rcases hpoint with ⟨hp, rfl⟩ | ⟨hp, rfl⟩ <;>
        exact (h.goTo (m.workers.context idx).jobCh hth (by rw [hp]; rfl) rfl).silent rfl rfl
  | quit hth hp =>
      have hrun := h.quit hi hth hp (hroom (List.cons_ne_nil _ _))
      rwa [← List.append_nil removed] at hrun
  | @received idx th job hth hp hget =>
      exact (h.goTo (m.workers.context idx).jobCh hth (by rw [hp]; rfl) rfl).silent rfl rfl
  | @popped idx th job hth hp =>
      exact (h.goTo (m.workers.context idx).jobCh.pop hth (by rw [hp]; rfl) rfl).silent rfl rfl

/-! ## Runs -/

variable {h : List (Entry ThreadManager ManagerAct ManagerEvent)}

theorem reaping_of_run (hr : machine.Run init h m) (hserv : ∀ e ∈ h, e.post.serving = true)
    (hroom : ∀ e ∈ h, Room e) : m.Reaping (quitIds h) (removedIds h) := by
  refine hr.invariant_within (C := fun e => e.post.serving = true ∧ Room e)
    (P := fun k s => s.Reaping (quitIds k) (removedIds k))
    (fun e he => ⟨hserv e he, hroom e he⟩) reaping_init ?_
  intro k u a out v hk _ ih hs hc
  have hstep := reaping_step (inv_of_run hk) ih (step_did hs) hc.1 hc.2
  simpa [quitIds, removedIds, List.flatMap_append, List.filterMap_append] using hstep

/-- **As long as every report finds room, every finished worker is removed once**, in the order of
the reports, and the loop that looks for it finds it. -/
theorem reaped_of_run (hr : machine.Run init h m) (hserv : ∀ e ∈ h, e.post.serving = true)
    (hroom : ∀ e ∈ h, Room e) : m.Reaped h := by
  have hinv := reaping_of_run hr hserv hroom
  obtain ⟨l, hq, hrep, hsent, -⟩ := hinv.queue
  refine ⟨?_, fun job txnId _ hget => ?_⟩
  · rw [RetChannel.contents, hq.window]
    exact hsent
  · obtain ⟨rest, rfl⟩ := hq.exists_of_get hget
    exact hrep.removeStop hinv.linked List.mem_cons_self fun i => ((inv_of_run hr).slots i).live

/-- As many transactions as there are slots, and one more. -/
theorem reaped_of_run_sample : ∃ h m, machine.Run init h m ∧ (quitIds h).length = 65 ∧
    (removedIds h).length = 64 ∧ m.Reaped h := by
  obtain ⟨h, m, hr, hp⟩ := Machine.exists_run_of_exec (M := machine) (s := init)
    (p := fun h _ => decide ((quitIds h).length = 65 ∧ (removedIds h).length = 64 ∧
      (∀ e ∈ h, e.post.serving = true) ∧ ∀ e ∈ h, Room e))
    (show (machine.exec init (.start :: (transaction 0 0 ++
      (List.range 64).flatMap fun i => transaction (i + 1) 1))).map _ = some true by
        decide +kernel)
  obtain ⟨hquit, hremoved, hserv, hroom⟩ := of_decide_eq_true hp
  exact ⟨h, m, hr, hquit, hremoved, reaped_of_run hr hserv hroom⟩

/-- Seventeen workers quit, and then a transaction begins. -/
def seventeenQuit : List ManagerAct :=
  .start :: ((List.range 17).flatMap fun _ =>
      [.datagram (.request .startTxn 0 0 []), .resume, .resume]) ++
    ((List.range 17).map fun i => .worker (Fin.ofNat maxTransactions i) .quit) ++
    [.datagram (.request .startTxn 0 0 []), .resume]

/-- **The seventeenth report overwrites the first**, and the worker of the first is never
removed: the first id passed to `WorkerTable.remove` is the last one reported. -/
theorem not_always_reaped : ¬ ∀ h m, machine.Run init h m →
    (∀ e ∈ h, e.post.serving = true) → m.Reaped h := by
  intro hall
  obtain ⟨h, m, hr, hp⟩ := Machine.exists_run_of_exec (M := machine) (s := init)
    (p := fun h m => decide ((∀ e ∈ h, e.post.serving = true) ∧
      quitIds h ≠ removedIds h ++ m.waiting m.retCh.contents))
    (show (machine.exec init seventeenQuit).map _ = some true by decide +kernel)
  obtain ⟨hserv, hne⟩ := of_decide_eq_true hp
  exact hne (hall h m hr hserv).order

end ThreadManager

end PawnDB
