import PawnDB.Server.Turns

set_option autoImplicit false

/-! # A worker handles the jobs of its own transaction

Slots of the worker table, their channels and their contexts outlive transactions, and an
insertion does not reset the channel of the slot it takes. What keeps the jobs of one transaction
from the worker of another is that a slot without a worker has an empty channel: the join answers
and pops what is left, a slot is free only before its first use or after a join, and the manager
sends only to slots that it finds by their id.

`log idx h` is what a history says about the present worker of a slot: the id and the datagram it
was started with, the jobs sent to it and the jobs it has received. The invariant says that the
channel holds the sent jobs that are not yet popped (`Serves`), or nothing (`SlotOk`).
-/

namespace PawnDB

/-- The job is the `START_TXN` that created the worker or a request to its transaction. -/
def Job.Own (job : Job) (txnId : TxnId) (start : Job) : Prop :=
  job = start ∧ job.IsStart ∨ job.IsRequest txnId

/-- The job that a thread has in hand. -/
def ThreadPoint.inHand : ThreadPoint → List Job
  | .handling job => [job]
  | _ => []

namespace ThreadManager

/-! ## What a history says about a slot -/

/-- The worker last started in a slot: its id and the datagram that started it, the jobs sent to
it and the jobs it received. -/
structure Log where
  worker : Option (TxnId × Job)
  sent : List Job
  received : List Job

def Log.after (idx : Fin maxTransactions) (L : Log) : ManagerEvent → Log
  | .started i txnId job => if i = idx then ⟨some (txnId, job), [], []⟩ else L
  | .sent i job => if i = idx then { L with sent := L.sent ++ [job] } else L
  | .received i _ job => if i = idx then { L with received := L.received ++ [job] } else L
  | _ => L

/-- The slot after a history. -/
def log (idx : Fin maxTransactions)
    (h : List (Entry ThreadManager ManagerAct ManagerEvent)) : Log :=
  (h.flatMap Entry.out).foldl (Log.after idx) ⟨none, [], []⟩

theorem log_snoc (idx : Fin maxTransactions)
    (h : List (Entry ThreadManager ManagerAct ManagerEvent))
    (e : Entry ThreadManager ManagerAct ManagerEvent) :
    log idx (h ++ [e]) = e.out.foldl (Log.after idx) (log idx h) := by
  simp [log, List.flatMap_append, List.foldl_append]

@[simp] theorem foldl_reply (idx : Fin maxTransactions) (L : Log) (fdOpen : Bool) (l : List Reply) :
    (l.map (ManagerEvent.reply fdOpen)).foldl (Log.after idx) L = L := by
  induction l with
  | nil => rfl
  | cons r l ih => exact ih

/-! ## Slots -/

/-- The thread works off the channel of its context: the jobs in it are the last ones sent, and
all the jobs sent are its own. -/
structure Serves (txnId : TxnId) (th : Thread) (L : Log) (l : List Job) : Prop where
  sameTxn : th.txnId = txnId
  own : ∃ start : Job, L.worker = some (txnId, start) ∧ ∀ job ∈ L.sent, job.Own txnId start
  queue : ∃ popped, L.sent = popped ++ l ∧ L.received = popped ++ th.point.inHand
  inHand : th.point.inHand <+: l

/-- A slot with a worker has a thread that serves its channel. A slot without one has no thread
and an empty channel. -/
structure SlotOk (e : WorkerEntry) (L : Log) : Prop where
  live : e.live = e.context.thread.isSome
  queue : ∃ l, e.context.jobCh.Holds l ∧ (e.context.thread = none → l = []) ∧
    ∀ th, e.context.thread = some th → Serves e.context.txnId th L l

namespace SlotOk

variable {e : WorkerEntry} {L : Log} {th : Thread} {job : Job}

/-- An unused slot. -/
theorem unused : SlotOk ⟨WorkerContext.empty, false, false⟩ ⟨none, [], []⟩ where
  live := rfl
  queue := ⟨[], JobChannel.holds_init, fun _ => rfl, fun _ hth => by cases hth⟩

theorem thread_eq_none (h : SlotOk e L) (hl : e.live = false) : e.context.thread = none := by
  rw [← Option.isNone_iff_eq_none, ← Option.not_isSome, ← h.live, hl]
  rfl

theorem exists_thread (h : SlotOk e L) (hl : e.live = true) :
    ∃ th, e.context.thread = some th := by
  rw [← Option.isSome_iff_exists, ← h.live]
  exact hl

/-- **A slot without a worker has an empty channel.** -/
theorem holds_nil (h : SlotOk e L) (hl : e.live = false) : e.context.jobCh.Holds [] := by
  obtain ⟨l, hq, hnone, -⟩ := h.queue
  rwa [hnone (h.thread_eq_none hl)] at hq

/-- Nothing about a slot depends on the running flag. -/
theorem stop (h : SlotOk e L) : SlotOk { e with context := e.context.traitStop } L where
  live := h.live
  queue := h.queue

/-- A worker is started in a free slot, whose channel is empty. -/
theorem start {c started : WorkerContext} (h : SlotOk e L) (hl : e.live = false)
    (hs : (e.context.assign c).traitStart = some started) :
    SlotOk ⟨started, true, false⟩ ⟨some (c.txnId, job), [], []⟩ := by
  have hnone := h.thread_eq_none hl
  have hq := h.holds_nil hl
  rw [WorkerContext.traitStart, WorkerContext.assign] at hs
  simp only [hnone, Option.some.injEq] at hs
  subst hs
  refine ⟨rfl, [], hq, fun _ => rfl, fun th hth => ?_⟩
  obtain rfl := Option.some.inj hth
  refine ⟨rfl, ⟨job, rfl, ?_⟩, ⟨[], rfl, rfl⟩, List.nil_prefix⟩
  intro j hj
  cases hj

/-- The manager sends a job to a worker whose own it is. -/
theorem send {jobCh : JobChannel} (h : SlotOk e L) (hl : e.live = true)
    (hs : e.context.jobCh.send job = (.none, jobCh))
    (hown : ∀ start, L.worker = some (e.context.txnId, start) →
      job.Own e.context.txnId start) :
    SlotOk { e with context := { e.context with jobCh := jobCh } }
      { L with sent := L.sent ++ [job] } := by
  obtain ⟨th, hth⟩ := h.exists_thread hl
  obtain ⟨l, hq, -, hserve⟩ := h.queue
  refine ⟨h.live, l ++ [job], hq.of_send hs, fun hn => ?_, fun th' hth' => ?_⟩
  · rw [hth] at hn
    cases hn
  · obtain ⟨hsame, ⟨start, hw, hall⟩, ⟨popped, hsent, hrec⟩, hhand⟩ := hserve th' hth'
    refine ⟨hsame, ⟨start, hw, ?_⟩, ⟨popped, ?_, hrec⟩, hhand.trans (List.prefix_append _ _)⟩
    · intro j hj
      rcases List.mem_append.mp hj with hj | hj
      · exact hall j hj
      · rw [List.mem_singleton.mp hj]
        exact hown start hw
    · rw [hsent, List.append_assoc]

/-- The thread moves between points at which it has no job in hand. -/
theorem goTo {point : ThreadPoint} (h : SlotOk e L) (hth : e.context.thread = some th)
    (hp : th.point.inHand = []) (hp' : point.inHand = []) :
    SlotOk { e with context := e.context.goTo th point } L := by
  obtain ⟨l, hq, -, hserve⟩ := h.queue
  obtain ⟨hsame, hown, ⟨popped, hsent, hrec⟩, -⟩ := hserve th hth
  refine ⟨?_, l, hq, nofun, fun th' hth' => ?_⟩
  · show e.live = true
    rw [h.live, hth]
    rfl
  · obtain rfl := Option.some.inj hth'
    refine ⟨hsame, hown, ⟨popped, hsent, ?_⟩, ?_⟩
    · show L.received = popped ++ point.inHand
      rw [hrec, hp, hp']
    · show point.inHand <+: l
      rw [hp']
      exact List.nil_prefix

/-- The thread takes the oldest job into its hand. -/
theorem recv (h : SlotOk e L) (hth : e.context.thread = some th) (hp : th.point.inHand = [])
    (hget : e.context.jobCh.get = .ok (some job)) :
    SlotOk { e with context := e.context.goTo th (.handling job) }
      { L with received := L.received ++ [job] } := by
  obtain ⟨l, hq, -, hserve⟩ := h.queue
  obtain ⟨hsame, hown, ⟨popped, hsent, hrec⟩, -⟩ := hserve th hth
  obtain ⟨rest, rfl⟩ := hq.exists_of_get hget
  refine ⟨?_, job :: rest, hq, nofun, fun th' hth' => ?_⟩
  · show e.live = true
    rw [h.live, hth]
    rfl
  · obtain rfl := Option.some.inj hth'
    refine ⟨hsame, hown, ⟨popped, hsent, ?_⟩, ⟨rest, rfl⟩⟩
    show L.received ++ [job] = popped ++ [job]
    rw [hrec, hp, List.append_nil]

/-- The thread pops the job it has in hand, which is the oldest. -/
theorem pop (h : SlotOk e L) (hth : e.context.thread = some th)
    (hp : th.point = .handling job) :
    SlotOk { e with context := { e.context.goTo th .loop with jobCh := e.context.jobCh.pop } }
      L := by
  obtain ⟨l, hq, -, hserve⟩ := h.queue
  obtain ⟨hsame, hown, ⟨popped, hsent, hrec⟩, hhand⟩ := hserve th hth
  rw [hp] at hrec hhand
  obtain ⟨rest, rfl⟩ := hhand
  refine ⟨?_, rest, hq.pop, nofun, fun th' hth' => ?_⟩
  · show e.live = true
    rw [h.live, hth]
    rfl
  · obtain rfl := Option.some.inj hth'
    refine ⟨hsame, hown, ⟨popped ++ [job], ?_, ?_⟩, List.nil_prefix⟩
    · rw [hsent, List.append_assoc]
      rfl
    · rw [hrec]
      exact (List.append_nil _).symm

/-- **The join empties the channel before the slot is marked deleted.** -/
theorem join {c : WorkerContext} {replies : List Reply} (h : SlotOk e L)
    (hj : e.context.traitJoin = some (c, replies)) :
    SlotOk { e with context := c, isDeleted := true } L := by
  obtain ⟨l, hq, -, -⟩ := h.queue
  obtain ⟨q', hq', hempty⟩ := WorkerContext.ackLoop_eq hq
  rw [WorkerContext.traitJoin] at hj
  split at hj
  · rw [← hq.length_eq, hq', Option.map_some, Option.some.injEq] at hj
    cases hj
    refine ⟨?_, [], hempty, fun _ => rfl, fun th hth => by cases hth⟩
    show (e.isUsed && !true) = false
    rw [Bool.not_true, Bool.and_false]
  · cases hj

end SlotOk

/-! ## The invariant -/

/-- What the manager knows about the datagram it is working on. -/
def PhaseOk (m : ThreadManager) (L : Fin maxTransactions → Log) : Prop :=
  match m.phase with
  | .draining job => job.IsStart
  | .joining job _ => job.IsStart
  | .starting job idx =>
      job.IsStart ∧ (m.workers.table idx).live = true ∧
        ∃ txnId, (L idx).worker = some (txnId, job)
  | _ => True

structure Inv (m : ThreadManager) (L : Fin maxTransactions → Log) : Prop where
  slots : ∀ idx, SlotOk (m.workers.table idx) (L idx)
  phase : m.PhaseOk L

theorem inv_init : init.Inv fun _ => ⟨none, [], []⟩ := ⟨fun _ => SlotOk.unused, trivial⟩

variable {m m' : ThreadManager} {out : List ManagerEvent} {L : Fin maxTransactions → Log}

/-- One slot changes, in the table and in the log. -/
theorem slots_set {t : Fin maxTransactions → WorkerEntry} {L' : Fin maxTransactions → Log}
    {idx : Fin maxTransactions} {e : WorkerEntry} (hs : ∀ i, SlotOk (t i) (L i))
    (he : SlotOk e (L' idx)) (hL : ∀ i, i ≠ idx → L' i = L i) :
    ∀ i, SlotOk (Slots.set t idx e i) (L' i) := by
  intro i
  by_cases hi : i = idx
  · subst hi
    rwa [Slots.set_self]
  · rw [Slots.set_of_ne _ _ hi, hL i hi]
    exact hs i

/-- What the manager knows is not changed by a worker. -/
theorem PhaseOk.congr {L' : Fin maxTransactions → Log} (h : m.PhaseOk L)
    (hp : m'.phase = m.phase) (hlive : ∀ i, (m'.workers.table i).live = (m.workers.table i).live)
    (hL : ∀ i, (L' i).worker = (L i).worker) : m'.PhaseOk L' := by
  unfold PhaseOk at h ⊢
  rw [hp]
  split at h
  · exact h
  · exact h
  · next job idx _ =>
      obtain ⟨hstart, hl, txnId, hw⟩ := h
      exact ⟨hstart, (hlive idx).trans hl, txnId, (hL idx).trans hw⟩
  · exact trivial

/-- The thread of a slot moves on and its channel loses what it popped. -/
theorem Inv.worker {c : WorkerContext} {idx : Fin maxTransactions} (retCh : RetChannel)
    (hi : m.Inv L)
    (hslot : SlotOk { m.workers.table idx with context := c }
      (out.foldl (Log.after idx) (L idx)))
    (hL : ∀ i, i ≠ idx → out.foldl (Log.after i) (L i) = L i)
    (hw : ∀ i, (out.foldl (Log.after i) (L i)).worker = (L i).worker) :
    Inv { m with workers := m.workers.setContext idx c, retCh := retCh }
      fun i => out.foldl (Log.after i) (L i) where
  slots := slots_set hi.slots hslot hL
  phase := hi.phase.congr rfl (fun _ => WorkerTable.setContext_live _ _ _ _) hw

/-- **A step keeps the invariant.** -/
theorem inv_step {a : ManagerAct} (hi : m.Inv L) (h : machine.step m a = some (m', out)) :
    m'.Inv fun idx => out.foldl (Log.after idx) (L idx) := by
  cases step_did h with
  | ignored => exact hi
  | began _ => exact ⟨hi.slots, trivial⟩
  | shut => exact ⟨hi.slots, hi.phase⟩
  | refused r _ => exact ⟨hi.slots, trivial⟩
  | left _ =>
      refine ⟨fun idx => ?_, trivial⟩
      show SlotOk (m.workers.clearStop.table idx) (L idx)
      rw [WorkerTable.clearStop]
      dsimp only
      split
      · exact (hi.slots idx).stop
      · exact hi.slots idx
  | startTxn _ hstart => exact ⟨hi.slots, hstart⟩
  | @routed txnId job idx jobCh phase _ hphase hreq hlive hsame hsend =>
      -- the header of a routed job has the id of the worker it is sent to
      refine ⟨slots_set hi.slots ?_ fun i hne => if_neg fun he => hne he.symm, ?_⟩
      · refine (congrArg (SlotOk _) (if_pos rfl)).mpr ((hi.slots idx).send hlive hsend ?_)
        intro start _
        exact .inr (hsame ▸ hreq)
      · rcases hphase with rfl | rfl <;> exact trivial
  | @aborted idx _ => exact ⟨slots_set hi.slots (hi.slots idx).stop fun _ _ => rfl, trivial⟩
  | @removing job deadTxn idx workers hp _ hrem =>
      obtain ⟨-, -, -, rfl⟩ := WorkerTable.removeStop_some hrem
      refine ⟨slots_set hi.slots (hi.slots idx).stop fun _ _ => rfl, ?_⟩
      have := hi.phase
      rw [PhaseOk, hp] at this
      exact this
  | @joined job idx workers replies hp hjoin =>
      obtain ⟨c, hc, rfl⟩ := WorkerTable.joinEntry_some hjoin
      simp only [List.foldl_cons, Log.after, foldl_reply]
      refine ⟨slots_set hi.slots ((hi.slots idx).join hc) fun _ _ => rfl, ?_⟩
      have := hi.phase
      rw [PhaseOk, hp] at this
      exact this
  | @started job idx workers hp _ hins =>
      -- the slot was dead, so its log starts afresh
      obtain ⟨hlive, -, started, hs, rfl⟩ := WorkerTable.traitInsert_ok hins
      have hstart := hi.phase
      rw [PhaseOk, hp] at hstart
      refine ⟨slots_set hi.slots ?_ fun i hne => if_neg fun he => hne he.symm, hstart, ?_, ?_⟩
      · refine (congrArg (SlotOk _) (if_pos rfl)).mpr ((hi.slots idx).start hlive hs)
      · show (Slots.set m.workers.table idx _ idx).live = true
        rw [Slots.set_self]
        rfl
      · refine ⟨m.nextTxnId, ?_⟩
        show (if idx = idx then _ else _ : Log).worker = _
        rw [if_pos rfl]
  | @opened job idx jobCh hp hsend =>
      -- the first job of a worker is the `START_TXN` it was started with
      have hphase := hi.phase
      rw [PhaseOk, hp] at hphase
      obtain ⟨hstart, hlive, txnId, hw⟩ := hphase
      refine ⟨slots_set hi.slots ?_ fun i hne => if_neg fun he => hne he.symm, trivial⟩
      refine (congrArg (SlotOk _) (if_pos rfl)).mpr ((hi.slots idx).send hlive hsend ?_)
      intro start hst
      rw [hw, Option.some.injEq, Prod.mk.injEq] at hst
      exact .inl ⟨hst.2, hstart⟩
  | unopened _ _ => exact ⟨hi.slots, trivial⟩
  | @cleared slot idx workers replies _ _ hjoin =>
      obtain ⟨c, hc, rfl⟩ := WorkerTable.joinEntry_some hjoin
      simp only [List.foldl_cons, Log.after, foldl_reply]
      exact ⟨slots_set hi.slots ((hi.slots idx).join hc) fun _ _ => rfl, trivial⟩
  | passed _ hphase =>
      refine ⟨hi.slots, ?_⟩
      rcases hphase with rfl | rfl <;> exact trivial
  | @moved idx th point hth hpoint =>
      refine hi.worker m.retCh ?_ (fun _ _ => rfl) fun _ => rfl
      rcases hpoint with ⟨hp, rfl⟩ | ⟨hp, rfl⟩ <;>
        exact (hi.slots idx).goTo hth (by rw [hp]; rfl) rfl
  | @quit idx th hth hp =>
      refine hi.worker _ ?_ (fun _ _ => rfl) fun _ => rfl
      exact (hi.slots idx).goTo hth (by rw [hp]; rfl) rfl
  | @received idx th job hth hp hget =>
      refine hi.worker m.retCh ?_ (fun i hne => if_neg fun he => hne he.symm) ?_
      · refine (congrArg (SlotOk _) (if_pos rfl)).mpr ((hi.slots idx).recv hth ?_ hget)
        rw [hp]
        rfl
      · intro i
        show (if idx = i then _ else _ : Log).worker = _
        split <;> rfl
  | @popped idx th job hth hp =>
      refine hi.worker m.retCh ?_ (fun _ _ => rfl) fun _ => rfl
      exact (hi.slots idx).pop hth hp

/-! ## Runs -/

variable {h : List (Entry ThreadManager ManagerAct ManagerEvent)}

theorem inv_of_run (hr : machine.Run init h m) : m.Inv fun idx => log idx h := by
  refine hr.invariant (P := fun k s => s.Inv fun idx => log idx k) inv_init ?_
  intro k u a out v _ ih hs
  have hlog : (fun idx => log idx (k ++ [⟨u, a, out, v⟩]))
      = fun idx => out.foldl (Log.after idx) (log idx k) := by
    funext idx
    exact log_snoc idx k _
  rw [hlog]
  exact inv_step ih hs

theorem Did.of_received {txnId : TxnId} {job : Job} {idx : Fin maxTransactions}
    (hd : m.Did m' out) (he : .received idx txnId job ∈ out) :
    ∃ th, (m.workers.context idx).thread = some th ∧ th.txnId = txnId ∧ th.point = .recv ∧
      (m.workers.context idx).jobCh.get = .ok (some job) := by
  cases hd with
  | received hth hp hget =>
      simp only [List.mem_singleton, ManagerEvent.received.injEq] at he
      obtain ⟨rfl, rfl, rfl⟩ := he
      exact ⟨_, hth, rfl, hp, hget⟩
  | _ => simp at he

theorem Did.of_started {txnId : TxnId} {job : Job} {idx : Fin maxTransactions}
    (hd : m.Did m' out) (he : .started idx txnId job ∈ out) :
    (m.workers.table idx).live = false := by
  cases hd with
  | started _ _ hins =>
      simp only [List.mem_singleton, ManagerEvent.started.injEq] at he
      obtain ⟨rfl, rfl, rfl⟩ := he
      exact (WorkerTable.traitInsert_ok hins).1
  | _ => simp at he

/-- What a worker receives was sent to it, is the first it has not received, and is its own. -/
theorem Inv.received {txnId : TxnId} {job : Job} {idx : Fin maxTransactions} (hi : m.Inv L)
    (hd : m.Did m' out) (he : .received idx txnId job ∈ out) :
    ∃ start, (L idx).worker = some (txnId, start) ∧ job.Own txnId start ∧
      (L idx).sent[(L idx).received.length]? = some job := by
  obtain ⟨th, hth, rfl, hp, hget⟩ := hd.of_received he
  obtain ⟨l, hq, -, hserve⟩ := (hi.slots idx).queue
  obtain ⟨hsame, ⟨start, hw, hall⟩, ⟨popped, hsent, hrec⟩, -⟩ := hserve th hth
  obtain ⟨rest, rfl⟩ := hq.exists_of_get hget
  rw [hp] at hrec
  have hlen : (L idx).received.length = popped.length := by
    rw [hrec]
    exact congrArg List.length (List.append_nil popped)
  refine ⟨start, hsame ▸ hw, hsame ▸ hall job ?_, ?_⟩
  · rw [hsent]
    exact List.mem_append_right _ List.mem_cons_self
  · rw [hsent, hlen, List.getElem?_append_right (Nat.le_refl _), Nat.sub_self]
    rfl

/-- **Workers handle the jobs of their own transactions.** Whatever the interleaving, a job that a
worker receives is the next of those the manager sent to it since it was started, and it is the
`START_TXN` that it was started with or a request with its id in the header. An insertion finds
the channel of its slot empty. -/
theorem ownJobs_of_run (hr : machine.Run init h m) :
    (∀ k e l, h = k ++ e :: l → ∀ idx txnId job, .received idx txnId job ∈ e.out →
      ∃ start, (log idx k).worker = some (txnId, start) ∧ job.Own txnId start ∧
        (log idx k).sent[(log idx k).received.length]? = some job) ∧
    ∀ e ∈ h, ∀ idx txnId job, .started idx txnId job ∈ e.out →
      (e.pre.workers.context idx).jobCh.empty = true := by
  refine ⟨fun k e l hh idx txnId job he => ?_, fun e hmem idx txnId job he => ?_⟩
  · subst hh
    rw [← List.singleton_append, ← List.append_assoc] at hr
    obtain ⟨_, hr', -⟩ := hr.cut
    obtain ⟨hpre, hstep, -⟩ := hr'.last
    exact (inv_of_run hpre).received (step_did hstep) he
  · obtain ⟨k, l, -, hpre, hstep, -⟩ := hr.split hmem
    have hlive := (step_did hstep).of_started he
    have hempty := ((inv_of_run hpre).slots idx).holds_nil hlive
    exact hempty.empty_iff.mpr rfl

/-- A transaction begins while `dead` workers wait to be removed. Its worker, in the slot of its
id, receives the first job, and there is an `ADD_TUPLE` which it leaves behind. -/
def transaction (txnId dead : Nat) : List ManagerAct :=
  let idx := Fin.ofNat maxTransactions txnId
  [.datagram (.request .startTxn 0 0 [])] ++ List.replicate (2 * dead + 2) .resume ++
    [.worker idx .enter, .worker idx .recv, .worker idx .pop,
      .datagram ⟨(Job.request .addTuple 1 0 []).buf.setTxn (UInt32.ofNat txnId), []⟩,
      .worker idx .quit]

/-- As many transactions as there are slots, and one more, which gets the first slot again. -/
theorem ownJobs_of_run_sample : ∃ h m, machine.Run init h m ∧
    (log 0 h).worker.map Prod.fst = some 64 ∧ (log 0 h).received.length = 1 ∧
    (log 0 h).sent.length = 2 ∧
    (∀ k e l, h = k ++ e :: l → ∀ idx txnId job, .received idx txnId job ∈ e.out →
      ∃ start, (log idx k).worker = some (txnId, start) ∧ job.Own txnId start ∧
        (log idx k).sent[(log idx k).received.length]? = some job) ∧
    ∀ e ∈ h, ∀ idx txnId job, .started idx txnId job ∈ e.out →
      (e.pre.workers.context idx).jobCh.empty = true := by
  obtain ⟨h, m, hr, hp⟩ := Machine.exists_run_of_exec (M := machine) (s := init)
    (p := fun h _ => decide ((log 0 h).worker.map Prod.fst = some 64 ∧
      (log 0 h).received.length = 1 ∧ (log 0 h).sent.length = 2))
    (show (machine.exec init (.start :: (transaction 0 0 ++
      (List.range 64).flatMap fun i => transaction (i + 1) 1))).map _ = some true by
        decide +kernel)
  obtain ⟨hworker, hreceived, hsent⟩ := of_decide_eq_true hp
  exact ⟨h, m, hr, hworker, hreceived, hsent, ownJobs_of_run hr⟩

end ThreadManager

end PawnDB
