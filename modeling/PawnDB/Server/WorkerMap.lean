import PawnDB.Server.Reaped

set_option autoImplicit false

/-! # The worker table as a bounded map

What the worker table is for: at most sixty-four running workers, each under its id (`WorkerMap`).
A worker is started when its id is inserted and stopped and joined when it is removed.

A call that joins has to wait for the threads, so `remove` and `clear` are cut into turns, with
turns of the threads in between. `Workers` is the table with the place in the call that waits.
-/

namespace PawnDB

open Probing

/-! ## Threads of the table -/

namespace WorkerTable

variable (t : WorkerTable)

/-- The id that the thread of a slot was started with. -/
def worker (idx : Fin maxTransactions) : List TxnId :=
  (t.context idx).thread.toList.map Thread.txnId

/-- A turn of the thread of a slot, as the table sees it. -/
def threadTurn (idx : Fin maxTransactions) (a : ThreadAct) : Option WorkerTable :=
  let c := t.context idx
  match c.thread with
  | none => none
  | some th =>
      match a, th.point with
      | .enter, .loop => if c.running then some (t.setContext idx (c.goTo th .recv)) else none
      | .quit, .loop => some (t.setContext idx (c.goTo th .ended))
      | .recv, .recv =>
          match c.jobCh.get with
          | .ok (some job) => some (t.setContext idx (c.goTo th (.handling job)))
          | _ => none
      | .recvTimeout, .recv => some (t.setContext idx (c.goTo th .loop))
      | .pop, .handling _ =>
          some (t.setContext idx { c.goTo th .loop with jobCh := c.jobCh.pop })
      | _, _ => none

end WorkerTable

/-- These are the turns of the thread manager's workers. -/
theorem ThreadManager.workerTurn_workers (m : ThreadManager) (idx : Fin maxTransactions)
    (a : ThreadAct) :
    (m.workerTurn idx a).map (fun r => r.1.workers) = m.workers.threadTurn idx a := by
  simp only [workerTurn, WorkerTable.threadTurn]
  cases (m.workers.context idx).thread with
  | none => rfl
  | some th =>
      obtain ⟨txnId, point⟩ := th
      dsimp only
      cases point with
      | loop =>
          cases a with
          | enter =>
              dsimp only
              cases (m.workers.context idx).running with
              | true => rfl
              | false => rfl
          | _ => rfl
      | recv =>
          cases a with
          | recv =>
              dsimp only
              cases (m.workers.context idx).jobCh.get with
              | error e => rfl
              | ok job =>
                  cases job with
                  | none => rfl
                  | some job => rfl
          | _ => rfl
      | handling job =>
          cases a with
          | pop => rfl
          | _ => rfl
      | ended =>
          cases a with
          | _ => rfl

/-! ## Calls -/

/-- The call that is under way. -/
inductive TableCall
  | idle
  /-- `trait_remove`, waiting in `join`. -/
  | removing (idx : Fin maxTransactions)
  /-- The second loop of `trait_clear`, at a slot. -/
  | clearing (slot : Nat)

structure Workers where
  call : TableCall
  table : WorkerTable

inductive TableAct
  | insert (txnId : TxnId)
  | search (key : TxnId)
  | remove (key : TxnId)
  | clear
  /-- The next turn of the call that is under way. -/
  | resume
  /-- A job is sent to the worker of a slot. -/
  | send (idx : Fin maxTransactions) (job : Job)
  | thread (idx : Fin maxTransactions) (a : ThreadAct)

inductive TableEvent
  | full
  /-- A thread was started for this id. -/
  | started (txnId : TxnId)
  | found (txnId : TxnId)
  | notFound
  /-- The thread with this id was told to stop. -/
  | stopped (txnId : TxnId)
  /-- The thread with this id was joined. -/
  | joined (txnId : TxnId)
  deriving DecidableEq

namespace WorkerTable

/-- The ids of the workers in the table. -/
def present (t : WorkerTable) : Finset TxnId :=
  (Finset.univ.filter fun i => (t.table i).live = true).image fun i => (t.context i).txnId

end WorkerTable

namespace Workers

/-- The constructor. -/
def init : Workers := ⟨.idle, WorkerTable.init⟩

variable (s : Workers)

/-- Insert a worker, with the constructor of its context. -/
def insert (txnId : TxnId) : Option (Workers × List TableEvent) :=
  match s.table.traitInsert (WorkerContext.ofTxn txnId) with
  | none => none
  | some (.error _, table) => some ({ s with table := table }, [.full])
  | some (.ok idx, table) =>
      some ({ s with table := table }, (table.worker idx).map .started)

def search (key : TxnId) : Workers × List TableEvent :=
  match s.table.traitSearch key with
  | .error _ => (s, [.notFound])
  | .ok idx => (s, [.found (s.table.context idx).txnId])

def remove (key : TxnId) : Option (Workers × List TableEvent) :=
  match s.table.removeStop key with
  | none => none
  | some (idx, table) =>
      some ({ s with call := .removing idx, table := table }, (s.table.worker idx).map .stopped)

def clear : Workers × List TableEvent :=
  (⟨.clearing 0, s.table.clearStop⟩,
    (((List.finRange maxTransactions).filter fun i => (s.table.table i).live).flatMap
      s.table.worker).map .stopped)

def resume : Option (Workers × List TableEvent) :=
  match s.call with
  | .idle => none
  | .removing idx =>
      match s.table.joinEntry idx with
      | none => none
      | some (table, _) => some (⟨.idle, table⟩, (s.table.worker idx).map .joined)
  | .clearing slot =>
      if hslot : slot < maxTransactions then
        match s.table.clearJoin ⟨slot, hslot⟩ with
        | none => none
        | some (table, _) =>
            some (⟨.clearing (slot + 1), table⟩,
              if (s.table.table ⟨slot, hslot⟩).live then
                (s.table.worker ⟨slot, hslot⟩).map .joined
              else [])
      else some ({ s with call := .idle }, [])

/-- A job is sent to a worker in the table. -/
def send (idx : Fin maxTransactions) (job : Job) : Workers :=
  { s with
    table := s.table.setContext idx
      { s.table.context idx with jobCh := ((s.table.context idx).jobCh.send job).2 } }

/-- No call is under way. -/
def isIdle : Bool :=
  match s.call with
  | .idle => true
  | _ => false

/-- One step. Ids are inserted that are not in the table, and removed that are. -/
def step (s : Workers) : TableAct → Option (Workers × List TableEvent)
  | .insert txnId => if s.isIdle = true ∧ txnId ∉ s.table.present then s.insert txnId else none
  | .search key => if s.isIdle = true then some (s.search key) else none
  | .remove key => if s.isIdle = true ∧ key ∈ s.table.present then s.remove key else none
  | .clear => if s.isIdle = true then some s.clear else none
  | .resume => s.resume
  | .send idx job => if (s.table.table idx).live then some (s.send idx job, []) else none
  | .thread idx a => (s.table.threadTurn idx a).map fun table => ({ s with table := table }, [])

def machine : Machine Workers TableAct TableEvent := ⟨step⟩

end Workers

/-! ## Bounded maps of workers -/

/-- The ids of the workers that run, and of those among them that have been told to stop and are to
be joined before the next call. -/
structure WorkerMap where
  present : Finset TxnId
  pending : Finset TxnId

/-- What an operation does to a map of at most sixty-four workers. -/
inductive WorkerMap.Step (m : WorkerMap) : TableAct → List TableEvent → WorkerMap → Prop
  | full {txnId : TxnId} : m.pending = ∅ → txnId ∉ m.present →
      m.present.card = maxTransactions → Step m (.insert txnId) [.full] m
  | insert {txnId : TxnId} : m.pending = ∅ → txnId ∉ m.present →
      m.present.card < maxTransactions →
      Step m (.insert txnId) [.started txnId] { m with present := Insert.insert txnId m.present }
  | found {key : TxnId} : m.pending = ∅ → key ∈ m.present → Step m (.search key) [.found key] m
  | notFound {key : TxnId} : m.pending = ∅ → key ∉ m.present →
      Step m (.search key) [.notFound] m
  | remove {key : TxnId} : m.pending = ∅ → key ∈ m.present →
      Step m (.remove key) [.stopped key] { m with pending := {key} }
  | clear {ids : List TxnId} : m.pending = ∅ → ids.Nodup → ids.toFinset = m.present →
      Step m .clear (ids.map .stopped) { m with pending := m.present }
  | joined {txnId : TxnId} : txnId ∈ m.pending →
      Step m .resume [.joined txnId] ⟨m.present.erase txnId, m.pending.erase txnId⟩
  | passed : Step m .resume [] m
  | send {idx : Fin maxTransactions} {job : Job} : Step m (.send idx job) [] m
  | thread {idx : Fin maxTransactions} {a : ThreadAct} : Step m (.thread idx a) [] m

/-- The map that a table stands for. -/
def Workers.map (s : Workers) : WorkerMap where
  present := s.table.present
  pending :=
    match s.call with
    | .idle => ∅
    | .removing idx => {(s.table.context idx).txnId}
    | .clearing _ => s.table.present

/-! ## Slots -/

/-- A slot with a worker has a thread with the worker's id, and one without has none. The thread
has in hand the oldest job of its channel, or none. -/
structure WorkerEntry.Fit (e : WorkerEntry) : Prop where
  live : e.live = e.context.thread.isSome
  sameTxn : ∀ th, e.context.thread = some th → th.txnId = e.context.txnId
  queue : ∃ l, e.context.jobCh.Holds l ∧
    ∀ th, e.context.thread = some th → th.point.inHand <+: l

namespace WorkerEntry.Fit

variable {e : WorkerEntry} {th : Thread} {point : ThreadPoint} {job : Job}

theorem unused : Fit ⟨WorkerContext.empty, false, false⟩ where
  live := rfl
  sameTxn th hth := by cases hth
  queue := ⟨[], JobChannel.holds_init, fun th hth => by cases hth⟩

theorem thread_eq_none (h : e.Fit) (hl : e.live = false) : e.context.thread = none := by
  rw [← Option.isNone_iff_eq_none, ← Option.not_isSome, ← h.live, hl]
  rfl

theorem exists_thread (h : e.Fit) (hl : e.live = true) : ∃ th, e.context.thread = some th := by
  rw [← Option.isSome_iff_exists, ← h.live]
  exact hl

theorem stop (h : e.Fit) : Fit { e with context := e.context.traitStop } :=
  ⟨h.live, h.sameTxn, h.queue⟩

/-- A worker is started in a slot without one. -/
theorem start {c : WorkerContext} (h : e.Fit) (hl : e.live = false) :
    ∃ started, (e.context.assign c).traitStart = some started ∧ started.txnId = c.txnId ∧
      started.thread = some ⟨c.txnId, .loop⟩ ∧ Fit ⟨started, true, false⟩ := by
  have hnone := h.thread_eq_none hl
  obtain ⟨l, hq, -⟩ := h.queue
  refine ⟨{ e.context.assign c with running := true, thread := some ⟨c.txnId, .loop⟩ }, ?_, rfl,
    rfl, rfl, ?_, l, hq, ?_⟩
  · rw [WorkerContext.traitStart, WorkerContext.assign, hnone]
  · intro th hth
    obtain rfl := Option.some.inj hth
    rfl
  · intro th hth
    obtain rfl := Option.some.inj hth
    exact List.nil_prefix

/-- A job more in the channel, if there is room. -/
theorem send (h : e.Fit) (job : Job) :
    Fit { e with context := { e.context with jobCh := (e.context.jobCh.send job).2 } } := by
  obtain ⟨l, hq, hhand⟩ := h.queue
  refine ⟨h.live, h.sameTxn, ?_⟩
  by_cases hf : e.context.jobCh.full = true
  · rw [JobChannel.send_of_full hf]
    exact ⟨l, hq, hhand⟩
  · refine ⟨l ++ [job], hq.send (by simpa using hf), ?_⟩
    intro th hth
    exact (hhand th hth).trans (List.prefix_append l [job])

/-- The thread moves on to a point at which the channel is `q`. -/
theorem move {q : JobChannel} {l : List Job} (h : e.Fit) (hth : e.context.thread = some th)
    (hq : q.Holds l) (hhand : point.inHand <+: l) :
    Fit { e with context := { e.context.goTo th point with jobCh := q } } := by
  refine ⟨?_, ?_, l, hq, ?_⟩
  · change e.live = true
    rw [h.live, hth]
    rfl
  · intro th' hth'
    obtain rfl := Option.some.inj hth'
    exact h.sameTxn th hth
  · intro th' hth'
    obtain rfl := Option.some.inj hth'
    exact hhand

/-- **A join of a thread that has ended comes back**, and the slot has no worker then. -/
theorem join (h : e.Fit) (hth : e.context.thread = some th) (hend : th.point = .ended) :
    ∃ c replies, e.context.traitJoin = some (c, replies) ∧ c.txnId = e.context.txnId ∧
      Fit { e with context := c, isDeleted := true } := by
  obtain ⟨l, hq, -⟩ := h.queue
  obtain ⟨q, hack, hempty⟩ := WorkerContext.ackLoop_eq hq
  obtain ⟨txnId, point⟩ := th
  cases hend
  refine ⟨{ e.context with jobCh := q, thread := none }, l.map WorkerContext.deadReply, ?_, rfl,
    ?_, ?_, [], hempty, ?_⟩
  · rw [WorkerContext.traitJoin, hth]
    dsimp only
    rw [← hq.length_eq, hack]
    rfl
  · simp [WorkerEntry.live]
  · intro th hth
    cases hth
  · intro th hth
    cases hth

end WorkerEntry.Fit

namespace WorkerTable

variable {t : WorkerTable} {idx : Fin maxTransactions} {key : TxnId} {c : WorkerContext}
  {e : WorkerEntry}

theorem mem_present :
    key ∈ t.present ↔ ∃ i, (t.table i).live = true ∧ (t.context i).txnId = key := by
  simp [present]

theorem mem_present_of_live (h : (t.table idx).live = true) :
    (t.context idx).txnId ∈ t.present := mem_present.mpr ⟨idx, h, rfl⟩

/-- The table is in order: workers can be found, no two have the same id, and the count is right. -/
structure Wf (t : WorkerTable) : Prop where
  linked : t.AllLinked
  unique : ∀ i j, (t.table i).live = true → (t.table j).live = true →
    (t.context i).txnId = (t.context j).txnId → i = j
  fit : ∀ i, (t.table i).Fit
  size : t.size.toNat = Slots.count fun i => (t.table i).live

theorem wf_init : init.Wf where
  linked := allLinked_init
  unique i j hi _ _ := by cases hi
  fit _ := WorkerEntry.Fit.unused
  size := (Slots.count_eq_zero.mpr fun _ => rfl).symm

/-- The number of ids is the number of workers. -/
theorem Wf.card_present (h : t.Wf) :
    t.present.card = Slots.count fun i => (t.table i).live := by
  apply Finset.card_image_of_injOn
  intro i hi j hj hij
  exact h.unique i j (by simpa using hi) (by simpa using hj) hij

theorem Wf.size_eq (h : t.Wf) : t.size.toNat = t.present.card := by
  rw [h.card_present, h.size]

theorem Wf.worker_eq (h : t.Wf) (hl : (t.table idx).live = true) :
    t.worker idx = [(t.context idx).txnId] := by
  obtain ⟨th, hth⟩ := (h.fit idx).exists_thread hl
  have hsame : th.txnId = (t.context idx).txnId := (h.fit idx).sameTxn th hth
  have hth' : (t.context idx).thread = some th := hth
  rw [worker, hth', ← hsame]
  rfl

/-- Of the slots in use, only the worker's own stops a search for its id. -/
theorem Wf.keyAt_unique (h : t.Wf) (hl : (t.table idx).live = true)
    (hid : (t.context idx).txnId = key) (i : Fin maxTransactions)
    (hused : (t.table i).isUsed = true) (hkey : t.keyAt key i = true) : i = idx := by
  rw [keyAt, Bool.and_eq_true, beq_iff_eq] at hkey
  have hi : (t.table i).live = true := by rw [WorkerEntry.live, hused, hkey.2, Bool.and_self]
  exact h.unique i idx hi hl (hkey.1.trans hid.symm)

/-- **A search finds the worker with the id**, and no other. -/
theorem Wf.traitSearch_iff (h : t.Wf) :
    t.traitSearch key = .ok idx ↔
      (t.table idx).live = true ∧ (t.context idx).txnId = key := by
  constructor
  · exact traitSearch_ok
  · rintro ⟨hl, hid⟩
    obtain ⟨hused, hdel⟩ := Bool.and_eq_true_iff.mp hl
    have hlink := h.linked idx hl
    rw [hid] at hlink
    have hkey : t.keyAt key idx = true := by
      rw [keyAt, hdel, Bool.and_true, beq_iff_eq]
      exact hid
    have hscan := scan_of_linked hlink hused hkey (h.keyAt_unique hl hid)
    rw [traitSearch, hscan]

theorem Wf.traitSearch_error_iff (h : t.Wf) :
    t.traitSearch key = .error .notFound ↔ key ∉ t.present := by
  constructor
  · intro herr hmem
    obtain ⟨i, hl, hid⟩ := mem_present.mp hmem
    rw [h.traitSearch_iff.mpr ⟨hl, hid⟩] at herr
    cases herr
  · intro hmem
    cases hs : t.traitSearch key with
    | ok idx =>
        obtain ⟨hl, hid⟩ := traitSearch_ok hs
        exact absurd (mem_present.mpr ⟨idx, hl, hid⟩) hmem
    | error err =>
        rw [traitSearch] at hs
        split at hs
        · exact hs.symm
        · cases hs

/-- **The removal of an id stops the worker with it.** -/
theorem Wf.removeStop_eq (h : t.Wf) (hl : (t.table idx).live = true)
    (hid : (t.context idx).txnId = key) :
    t.removeStop key = some (idx, t.setContext idx (t.context idx).traitStop) := by
  obtain ⟨hused, hdel⟩ := Bool.and_eq_true_iff.mp hl
  have hlink := h.linked idx hl
  rw [hid] at hlink
  have hkey : t.keyAt key idx = true := by
    rw [keyAt, hdel, Bool.and_true, beq_iff_eq]
    exact hid
  rw [removeStop, seek_of_linked hlink hkey (h.keyAt_unique hl hid)]

/-! ### Workers that come and go -/

variable {t' : WorkerTable}

theorem present_congr (hlive : ∀ i, (t'.table i).live = (t.table i).live)
    (hid : ∀ i, (t'.context i).txnId = (t.context i).txnId) : t'.present = t.present := by
  ext key
  simp only [mem_present, hlive, hid]

/-- No worker comes or goes, and none changes its id. -/
theorem Wf.congr (h : t.Wf) (hlinked : t'.AllLinked)
    (hlive : ∀ i, (t'.table i).live = (t.table i).live)
    (hid : ∀ i, (t'.context i).txnId = (t.context i).txnId)
    (hfit : ∀ i, (t'.table i).Fit) (hsize : t'.size = t.size) : t'.Wf where
  linked := hlinked
  unique i j hi hj hij := by
    rw [hlive] at hi hj
    rw [hid, hid] at hij
    exact h.unique i j hi hj hij
  fit := hfit
  size := by
    rw [hsize, h.size]
    exact Slots.count_congr fun i => (hlive i).symm

theorem setContext_txnId (hid : c.txnId = (t.context idx).txnId) (i : Fin maxTransactions) :
    ((t.setContext idx c).context i).txnId = (t.context i).txnId :=
  Slots.map_set (fun e => e.context.txnId) t.table idx { t.table idx with context := c } hid i

theorem Wf.setContext (h : t.Wf) (hid : c.txnId = (t.context idx).txnId)
    (hfit : WorkerEntry.Fit { t.table idx with context := c }) : (t.setContext idx c).Wf := by
  refine h.congr (h.linked.setContext hid) (setContext_live t idx c) (setContext_txnId hid) ?_ rfl
  intro i
  change (Slots.set t.table idx { t.table idx with context := c } i).Fit
  by_cases hi : i = idx
  · rw [hi, Slots.set_self]
    exact hfit
  · rw [Slots.set_of_ne _ _ hi]
    exact h.fit i

theorem present_setContext (hid : c.txnId = (t.context idx).txnId) :
    (t.setContext idx c).present = t.present :=
  present_congr (setContext_live t idx c) (setContext_txnId hid)

/-- Stopping changes the running flags of the workers and nothing else. -/
theorem clearStop_table (i : Fin maxTransactions) :
    (t.clearStop.table i).live = (t.table i).live ∧
      (t.clearStop.table i).isUsed = (t.table i).isUsed ∧
      (t.clearStop.context i).txnId = (t.context i).txnId ∧
      ((t.table i).Fit → (t.clearStop.table i).Fit) := by
  have htable : t.clearStop.table i = if (t.table i).live then
      { t.table i with context := (t.context i).traitStop } else t.table i := rfl
  rw [context, htable]
  by_cases hl : (t.table i).live = true
  · rw [if_pos hl]
    exact ⟨rfl, rfl, rfl, fun hfit => hfit.stop⟩
  · rw [if_neg hl]
    exact ⟨rfl, rfl, rfl, fun hfit => hfit⟩

theorem Wf.clearStop (h : t.Wf) : t.clearStop.Wf := by
  refine h.congr ?_ (fun i => (clearStop_table i).1) (fun i => (clearStop_table i).2.2.1)
    (fun i => (clearStop_table i).2.2.2 (h.fit i)) rfl
  intro i hi
  rw [(clearStop_table i).1] at hi
  have hused : (fun j => (t.clearStop.table j).isUsed) = fun j => (t.table j).isUsed :=
    funext fun j => (clearStop_table j).2.1
  rw [(clearStop_table i).2.2.1, hused]
  exact h.linked i hi

theorem present_clearStop : t.clearStop.present = t.present :=
  present_congr (fun i => (clearStop_table i).1) fun i => (clearStop_table i).2.2.1

theorem card_present_le : t.present.card ≤ maxTransactions := by
  calc t.present.card
      ≤ (Finset.univ.filter fun i => (t.table i).live = true).card := Finset.card_image_le
    _ ≤ (Finset.univ : Finset (Fin maxTransactions)).card := Finset.card_filter_le _ _
    _ = maxTransactions := Finset.card_fin maxTransactions

theorem Wf.traitFull_iff (h : t.Wf) :
    t.traitFull = true ↔ t.present.card = maxTransactions := by
  have hle := card_present_le (t := t)
  have hmax : (UInt64.ofNat maxTransactions).toNat = maxTransactions := rfl
  rw [traitFull, decide_eq_true_iff, UInt64.le_iff_toNat_le, hmax, h.size_eq]
  omega

/-- A table with room has a slot without a worker. -/
theorem Wf.exists_free (h : t.Wf) (hroom : t.present.card < maxTransactions) :
    ∃ i, (t.table i).live = false := by
  by_contra hn
  have hall : ∀ i, (t.table i).live = true := by
    intro i
    by_contra hi
    exact hn ⟨i, by simpa using hi⟩
  have hcard : t.present.card = maxTransactions := by
    rw [h.card_present, Slots.count, Finset.filter_true_of_mem fun i _ => hall i,
      Finset.card_univ, Fintype.card_fin]
  omega

theorem free_eq_not_live (e : WorkerEntry) : (!e.isUsed || e.isDeleted) = !e.live := by
  rw [WorkerEntry.live, Bool.not_and, Bool.not_not]

section

variable {size : SizeT}

/-- The other slots are as before. -/
theorem table_set_of_ne {i : Fin maxTransactions} (hi : i ≠ idx) :
    (WorkerTable.mk (Slots.set t.table idx e) size).table i = t.table i :=
  Slots.set_of_ne t.table e hi

theorem table_set_self : (WorkerTable.mk (Slots.set t.table idx e) size).table idx = e :=
  Slots.set_self t.table idx e

end

/-- A slot gets a worker with a new id. -/
theorem Wf.started (h : t.Wf) (hfree : (t.table idx).live = false) (hlive : e.live = true)
    (hnew : e.context.txnId ∉ t.present) (hfit : e.Fit)
    (hlinked : AllLinked ⟨Slots.set t.table idx e, t.size + 1⟩)
    (hroom : t.present.card < maxTransactions) :
    Wf ⟨Slots.set t.table idx e, t.size + 1⟩ := by
  -- an id that is in the table is not the new one
  have hother : ∀ i, i ≠ idx → (t.table i).live = true →
      (t.context i).txnId ≠ e.context.txnId := by
    intro i _ hl heq
    exact hnew (heq ▸ mem_present_of_live hl)
  refine ⟨hlinked, ?_, ?_, ?_⟩
  · intro i j hi hj hij
    rw [context, context] at hij
    by_cases hie : i = idx
    · by_cases hje : j = idx
      · rw [hie, hje]
      · rw [hie, table_set_self, table_set_of_ne hje] at hij
        rw [table_set_of_ne hje] at hj
        exact absurd hij.symm (hother j hje hj)
    · rw [table_set_of_ne hie] at hi hij
      by_cases hje : j = idx
      · rw [hje, table_set_self] at hij
        exact absurd hij (hother i hie hi)
      · rw [table_set_of_ne hje] at hj hij
        exact h.unique i j hi hj hij
  · intro i
    by_cases hi : i = idx
    · rw [hi, table_set_self]
      exact hfit
    · rw [table_set_of_ne hi]
      exact h.fit i
  · have hmax : maxTransactions = 64 := rfl
    have hsize : (t.size + 1).toNat = t.size.toNat + 1 :=
      SizeT.toNat_succ (by rw [h.size_eq]; omega)
    have hcount := Slots.count_congr_off (p := fun i => (Slots.set t.table idx e i).live)
      (q := fun i => (t.table i).live) idx fun i hi => by rw [Slots.set_of_ne _ _ hi]
    rw [Slots.set_self, hlive, hfree, ← h.size] at hcount
    change (t.size + 1).toNat = _
    rw [hsize]
    simpa using hcount.symm

theorem present_started {size : SizeT} (hfree : (t.table idx).live = false)
    (hlive : e.live = true) :
    present ⟨Slots.set t.table idx e, size⟩ = Insert.insert e.context.txnId t.present := by
  ext key
  rw [Finset.mem_insert, mem_present, mem_present]
  constructor
  · rintro ⟨i, hi, hid⟩
    rw [context] at hid
    by_cases hie : i = idx
    · rw [hie, table_set_self] at hid
      exact Or.inl hid.symm
    · rw [table_set_of_ne hie] at hi hid
      exact Or.inr ⟨i, hi, hid⟩
  · intro hkey
    rcases hkey with rfl | ⟨i, hi, hid⟩
    · refine ⟨idx, ?_, ?_⟩
      · rw [table_set_self, hlive]
      · rw [context, table_set_self]
    · have hie : i ≠ idx := by
        intro he
        rw [he, hfree] at hi
        cases hi
      refine ⟨i, ?_, ?_⟩
      · rw [table_set_of_ne hie, hi]
      · rw [context, table_set_of_ne hie]
        exact hid

/-- **An insertion where there is room** comes back and starts one worker, under the new id, in a
slot that had none. -/
theorem Wf.traitInsert_room (h : t.Wf) (hroom : t.present.card < maxTransactions)
    (hnew : c.txnId ∉ t.present) :
    ∃ idx t', t.traitInsert c = some (.ok idx, t') ∧ (t.table idx).live = false ∧ t'.Wf ∧
      t'.present = Insert.insert c.txnId t.present ∧ t'.worker idx = [c.txnId] ∧
      ∀ i, i ≠ idx → t'.table i = t.table i := by
  have hfull : ¬ t.traitFull = true := by
    rw [h.traitFull_iff]
    omega
  obtain ⟨q, hq⟩ := h.exists_free hroom
  have hsome : (seek (fun i => !(t.table i).isUsed || (t.table i).isDeleted) maxTransactions
      (home c.txnId)).isSome = true := by
    refine seek_isSome_iff.mpr ⟨q, ?_⟩
    rw [free_eq_not_live, hq]
    rfl
  obtain ⟨idx, hidx⟩ := Option.isSome_iff_exists.mp hsome
  have hfree : (t.table idx).live = false := by
    have := seek_holds hidx
    rwa [free_eq_not_live, Bool.not_eq_true'] at this
  -- a dead slot has no thread left, so its context can be started
  obtain ⟨started, hstart, hid, hth, hfit⟩ := (h.fit idx).start (c := c) hfree
  have hstart' : ((t.context idx).assign c).traitStart = some started := hstart
  have hnew' : started.txnId ∉ t.present := by rwa [hid]
  refine ⟨idx, ⟨Slots.set t.table idx ⟨started, true, false⟩, t.size + 1⟩, ?_, hfree, ?_, ?_, ?_,
    fun i hi => table_set_of_ne hi⟩
  · rw [traitInsert, if_neg hfull, hidx]
    dsimp only
    rw [hstart']
  · exact h.started hfree rfl hnew' hfit (h.linked.insert hidx rfl hid) hroom
  · rw [present_started hfree rfl, hid]
  · rw [worker, context, table_set_self, hth]
    rfl

theorem Wf.traitInsert_full_iff (h : t.Wf) :
    t.traitInsert c = some (.error .full, t) ↔ t.present.card = maxTransactions := by
  rw [← h.traitFull_iff]
  constructor
  · intro hins
    by_contra hfull
    rw [traitInsert, if_neg hfull] at hins
    split at hins
    · cases hins
    · split at hins
      · cases hins
      · cases hins
  · intro hfull
    rw [traitInsert, if_pos hfull]

/-- A slot loses its worker. -/
theorem Wf.ended (h : t.Wf) (hl : (t.table idx).live = true) (hlive : e.live = false)
    (hfit : e.Fit) (hlinked : AllLinked ⟨Slots.set t.table idx e, t.size - 1⟩) :
    Wf ⟨Slots.set t.table idx e, t.size - 1⟩ := by
  -- the ended slot is not live any more, so what is live is as before
  have hne : ∀ {i}, (Slots.set t.table idx e i).live = true → i ≠ idx := by
    intro i hi he
    rw [he, Slots.set_self, hlive] at hi
    cases hi
  refine ⟨hlinked, ?_, ?_, ?_⟩
  · intro i j hi hj hij
    have hie := hne hi
    have hje := hne hj
    rw [context, context, table_set_of_ne hie, table_set_of_ne hje] at hij
    rw [table_set_of_ne hie] at hi
    rw [table_set_of_ne hje] at hj
    exact h.unique i j hi hj hij
  · intro i
    by_cases hi : i = idx
    · rw [hi, table_set_self]
      exact hfit
    · rw [table_set_of_ne hi]
      exact h.fit i
  · -- the size goes down by the one slot
    have hcount := Slots.count_congr_off (p := fun i => (Slots.set t.table idx e i).live)
      (q := fun i => (t.table i).live) idx fun i hi => by rw [Slots.set_of_ne _ _ hi]
    rw [Slots.set_self, hlive, hl, ← h.size] at hcount
    have hcount' : Slots.count (fun i => (Slots.set t.table idx e i).live) + 1
        = t.size.toNat := by simpa using hcount
    have hsize : (t.size - 1).toNat = t.size.toNat - 1 := SizeT.toNat_pred (by omega)
    change (t.size - 1).toNat = Slots.count fun i => (Slots.set t.table idx e i).live
    omega

theorem Wf.present_ended {size : SizeT} (h : t.Wf) (hl : (t.table idx).live = true)
    (hlive : e.live = false) :
    present ⟨Slots.set t.table idx e, size⟩ = t.present.erase (t.context idx).txnId := by
  ext key
  rw [Finset.mem_erase, mem_present, mem_present]
  constructor
  · rintro ⟨i, hi, hid⟩
    have hie : i ≠ idx := by
      intro he
      rw [he, table_set_self, hlive] at hi
      cases hi
    rw [context, table_set_of_ne hie] at hid
    rw [table_set_of_ne hie] at hi
    refine ⟨?_, i, hi, hid⟩
    intro he
    exact hie (h.unique i idx hi hl (Eq.trans hid he))
  · rintro ⟨hkey, i, hi, hid⟩
    have hie : i ≠ idx := by
      intro he
      rw [he] at hid
      exact hkey hid.symm
    refine ⟨i, ?_, ?_⟩
    · rw [table_set_of_ne hie, hi]
    · rw [context, table_set_of_ne hie]
      exact hid

/-- **A join of a worker that has ended** comes back, and the worker is gone then. -/
theorem Wf.joinEntry_eq (h : t.Wf) (hl : (t.table idx).live = true) {th : Thread}
    (hth : (t.context idx).thread = some th) (hend : th.point = .ended) :
    ∃ t' replies, t.joinEntry idx = some (t', replies) ∧ t'.Wf ∧
      t'.present = t.present.erase (t.context idx).txnId ∧
      (t'.table idx).live = false ∧ ∀ i, i ≠ idx → t'.table i = t.table i := by
  obtain ⟨c, replies, hjoin, hid, hfit⟩ := (h.fit idx).join hth hend
  have hdead : WorkerEntry.live { t.table idx with context := c, isDeleted := true } = false := by
    rw [WorkerEntry.live, Bool.not_true, Bool.and_false]
  have hlinked : AllLinked
      ⟨Slots.set t.table idx { t.table idx with context := c, isDeleted := true }, t.size - 1⟩ :=
    h.linked.set rfl (fun hlive => by rw [hdead] at hlive; cases hlive) hid
  have hjoin' : (t.context idx).traitJoin = some (c, replies) := hjoin
  refine ⟨_, replies, ?_, h.ended hl hdead hfit hlinked, h.present_ended hl hdead, ?_,
    fun i hi => table_set_of_ne hi⟩
  · rw [joinEntry, hjoin']
  · rw [table_set_self, hdead]

/-- **A turn of a thread** changes its own context, which stays in order. -/
theorem Wf.threadTurn {a : ThreadAct} (h : t.Wf) (ht : t.threadTurn idx a = some t') :
    ∃ c, t' = t.setContext idx c ∧ c.txnId = (t.context idx).txnId ∧
      c.running = (t.context idx).running ∧ t'.Wf := by
  have hfit := h.fit idx
  obtain ⟨l, hq, hhand⟩ := hfit.queue
  -- the thread goes on to `point`, with `q` in its channel
  have move : ∀ (th : Thread) (point : ThreadPoint) (q : JobChannel) (l : List Job),
      (t.context idx).thread = some th → q.Holds l → point.inHand <+: l →
      (t.setContext idx { (t.context idx).goTo th point with jobCh := q }).Wf := by
    intro th point q l hth hq hpoint
    exact h.setContext rfl (hfit.move hth hq hpoint)
  simp only [WorkerTable.threadTurn] at ht
  split at ht
  · cases ht
  · next th hth =>
      split at ht
      · split at ht
        · cases ht
          exact ⟨_, rfl, rfl, rfl, move th .recv _ l hth hq List.nil_prefix⟩
        · cases ht
      · cases ht
        exact ⟨_, rfl, rfl, rfl, move th .ended _ l hth hq List.nil_prefix⟩
      · split at ht
        · next job hget =>
            obtain ⟨rest, rfl⟩ := hq.exists_of_get hget
            cases ht
            exact ⟨_, rfl, rfl, rfl, move th (.handling job) _ _ hth hq ⟨rest, rfl⟩⟩
        · cases ht
      · cases ht
        exact ⟨_, rfl, rfl, rfl, move th .loop _ l hth hq List.nil_prefix⟩
      · next job hp =>
          have hprefix := hhand th hth
          rw [hp] at hprefix
          obtain ⟨rest, rfl⟩ := hprefix
          cases ht
          exact ⟨_, rfl, rfl, rfl, move th .loop _ rest hth hq.pop List.nil_prefix⟩
      · cases ht

end WorkerTable

/-! ## Steps -/

namespace Workers

variable {s s' : Workers} {out : List TableEvent}

/-- The table is in order, and a call that waits does so for a worker that is there; the loop of
`trait_clear` has no worker behind it. -/
structure Inv (s : Workers) : Prop where
  wf : s.table.Wf
  removing : ∀ idx, s.call = .removing idx → (s.table.table idx).live = true
  clearing : ∀ slot, s.call = .clearing slot →
    ∀ i, (s.table.table i).live = true → slot ≤ i.val

theorem inv_init : init.Inv where
  wf := WorkerTable.wf_init
  removing idx h := by cases h
  clearing slot h := by cases h

/-- The operation may change the slot of a worker. -/
def concerns (s : Workers) : TableAct → Fin maxTransactions → Prop
  | .remove key, i => (s.table.context i).txnId = key
  | .clear, _ => True
  | .resume, i => s.call = .removing i ∨ s.call = .clearing i.val
  | .send idx _, i => i = idx
  | .thread idx _, i => i = idx
  | _, _ => False

/-- The step is one of the bounded map, and leaves the entries alone that it does not concern. -/
structure Maps (s : Workers) (a : TableAct) (out : List TableEvent) (s' : Workers) : Prop where
  step : s.map.Step a out s'.map
  frame : ∀ i, (s.table.table i).live = true → ¬ s.concerns a i →
    s'.table.table i = s.table.table i

/-- Of the workers in the table, those that the step stops lose their running flags and no others,
and a worker that it starts has the flag. -/
structure Flags (s : Workers) (out : List TableEvent) (s' : Workers) : Prop where
  stopped : ∀ i, (s.table.table i).live = true → (s'.table.context i).running =
    ((s.table.context i).running && !decide (.stopped (s.table.context i).txnId ∈ out))
  started : ∀ i, (s.table.table i).live = false → (s'.table.table i).live = true →
    (s'.table.context i).running = true

/-- The step is one of the bounded map, also for the threads. -/
structure Refines (s : Workers) (a : TableAct) (out : List TableEvent) (s' : Workers) : Prop where
  maps : s.Maps a out s'
  flags : s.Flags out s'

theorem isIdle_iff : s.isIdle = true ↔ s.call = .idle := by
  unfold isIdle
  split
  · next h => exact iff_of_true rfl h
  · next h => exact iff_of_false Bool.false_ne_true h

theorem pending_of_idle (h : s.isIdle = true) : s.map.pending = ∅ := by
  rw [map, isIdle_iff.mp h]

/-- Two states with the same ids and at the same point of a call stand for the same map. -/
theorem map_congr (hcall : s'.call = s.call) (hpresent : s'.table.present = s.table.present)
    (hid : ∀ i, (s'.table.context i).txnId = (s.table.context i).txnId) : s'.map = s.map := by
  simp only [map, hcall, hpresent, hid]

/-- Outside a call the map is a set of ids. -/
theorem map_of_idle (h : s.isIdle = true) : s.map = ⟨s.table.present, ∅⟩ := by
  rw [map, isIdle_iff.mp h]

theorem Inv.of_idle (hwf : s.table.Wf) (h : s.call = .idle) : s.Inv where
  wf := hwf
  removing idx hr := by rw [h] at hr; cases hr
  clearing slot hc := by rw [h] at hc; cases hc

theorem maps_insert {txnId : TxnId} (hi : s.Inv) (hidle : s.isIdle = true)
    (hnew : txnId ∉ s.table.present) :
    ∃ s' out, s.insert txnId = some (s', out) ∧ s'.Inv ∧ s.Maps (.insert txnId) out s' := by
  have hcall := isIdle_iff.mp hidle
  have hpending := pending_of_idle hidle
  -- the ids present are as many as the live slots, so a free slot is room in the map
  by_cases hroom : s.table.present.card < maxTransactions
  · obtain ⟨idx, t, hins, hfree, hwf, hpresent, hworker, hframe⟩ :=
      hi.wf.traitInsert_room (c := WorkerContext.ofTxn txnId) hroom hnew
    refine ⟨⟨s.call, t⟩, [.started txnId], ?_, Inv.of_idle hwf hcall, ?_, ?_⟩
    · rw [insert, hins]
      dsimp only
      rw [hworker]
      rfl
    · have hmap : (Workers.mk s.call t).map
          = { s.map with present := Insert.insert txnId s.map.present } := by
        rw [map_of_idle hidle, hcall]
        exact congrArg (fun p => WorkerMap.mk p ∅) hpresent
      rw [hmap]
      exact .insert hpending hnew hroom
    · intro i hlive _
      apply hframe
      intro he
      rw [he, hfree] at hlive
      cases hlive
  · have hle := WorkerTable.card_present_le (t := s.table)
    have hcard : s.table.present.card = maxTransactions := by omega
    refine ⟨s, [.full], ?_, hi, .full hpending hnew hcard, fun _ _ _ => rfl⟩
    rw [insert, WorkerTable.traitInsert, if_pos (hi.wf.traitFull_iff.mpr hcard)]

theorem maps_search (key : TxnId) (hi : s.Inv) (hidle : s.isIdle = true) :
    (s.search key).1.Inv ∧ s.Maps (.search key) (s.search key).2 (s.search key).1 := by
  have hpending := pending_of_idle hidle
  rw [search]
  cases hs : s.table.traitSearch key with
  | ok idx =>
      obtain ⟨hlive, rfl⟩ := WorkerTable.traitSearch_ok hs
      exact ⟨hi, .found hpending (WorkerTable.mem_present_of_live hlive), fun _ _ _ => rfl⟩
  | error err =>
      have hkey : key ∉ s.table.present := by
        cases err with
        | notFound => exact hi.wf.traitSearch_error_iff.mp hs
        | full =>
            rw [WorkerTable.traitSearch] at hs
            split at hs
            · cases hs
            · cases hs
      exact ⟨hi, .notFound hpending hkey, fun _ _ _ => rfl⟩

theorem maps_remove {key : TxnId} (hi : s.Inv) (hidle : s.isIdle = true)
    (hkey : key ∈ s.table.present) :
    ∃ s' out, s.remove key = some (s', out) ∧ s'.Inv ∧ s.Maps (.remove key) out s' := by
  have hpending := pending_of_idle hidle
  obtain ⟨idx, hlive, hid⟩ := WorkerTable.mem_present.mp hkey
  have hsame : (s.table.context idx).traitStop.txnId = (s.table.context idx).txnId := rfl
  have hwf := hi.wf.setContext hsame (hi.wf.fit idx).stop
  refine ⟨⟨.removing idx, s.table.setContext idx (s.table.context idx).traitStop⟩,
    [.stopped key], ?_, ⟨hwf, ?_, ?_⟩, ?_, ?_⟩
  · rw [remove, hi.wf.removeStop_eq hlive hid]
    dsimp only
    rw [hi.wf.worker_eq hlive, hid]
    rfl
  · intro i hcall
    cases hcall
    rw [WorkerTable.setContext_live, hlive]
  · intro slot hcall
    cases hcall
  · have hmap : (Workers.mk (.removing idx)
        (s.table.setContext idx (s.table.context idx).traitStop)).map
          = { s.map with pending := {key} } := by
      simp only [map, WorkerTable.present_setContext hsame, WorkerTable.setContext_txnId hsame, hid]
    rw [hmap]
    exact .remove hpending hkey
  · intro i _ hother
    apply Slots.set_of_ne
    intro he
    rw [he] at hother
    exact hother hid

/-- The threads that a clear stops: those of the workers in the table, each once. -/
theorem stopped_workers (hwf : s.table.Wf) :
    ∃ ids : List TxnId, ids.Nodup ∧ ids.toFinset = s.table.present ∧
      ((List.finRange maxTransactions).filter fun i => (s.table.table i).live).flatMap
        s.table.worker = ids := by
  refine ⟨_, ?_, ?_, rfl⟩
  all_goals
    rw [List.flatMap_congr (g := fun i => [(s.table.context i).txnId])
      fun i hi => hwf.worker_eq (List.mem_filter.mp hi).2, ← List.map_eq_flatMap]
  · refine List.Nodup.map_on ?_ ((List.nodup_finRange _).filter _)
    intro i hi j hj hij
    exact hwf.unique i j (List.mem_filter.mp hi).2 (List.mem_filter.mp hj).2 hij
  · ext key
    simp [WorkerTable.mem_present]

theorem maps_clear (hi : s.Inv) (hidle : s.isIdle = true) :
    s.clear.1.Inv ∧ s.Maps .clear s.clear.2 s.clear.1 := by
  obtain ⟨ids, hnodup, hids, hstopped⟩ := stopped_workers hi.wf
  refine ⟨⟨hi.wf.clearStop, ?_, ?_⟩, ?_, ?_⟩
  · intro idx hcall
    cases hcall
  · intro slot hcall i _
    cases hcall
    exact Nat.zero_le _
  · have hmap : s.clear.1.map = { s.map with pending := s.map.present } := by
      simp only [clear, map, WorkerTable.present_clearStop]
    rw [hmap, clear, hstopped]
    exact .clear (pending_of_idle hidle) hnodup hids
  · intro i _ hother
    exact absurd trivial hother

/-- The join at the end of `trait_remove`. -/
theorem maps_joined {idx : Fin maxTransactions} {th : Thread} (hi : s.Inv)
    (hcall : s.call = .removing idx) (hth : (s.table.context idx).thread = some th)
    (hend : th.point = .ended) :
    ∃ s' out, s.resume = some (s', out) ∧ s'.Inv ∧ s.Maps .resume out s' := by
  have hlive := hi.removing idx hcall
  obtain ⟨t, replies, hjoin, hwf, hpresent, -, hframe⟩ := hi.wf.joinEntry_eq hlive hth hend
  refine ⟨⟨.idle, t⟩, [.joined (s.table.context idx).txnId], ?_, Inv.of_idle hwf rfl, ?_, ?_⟩
  · rw [resume, hcall]
    dsimp only
    rw [hjoin]
    dsimp only
    rw [hi.wf.worker_eq hlive]
    rfl
  · have hpending : s.map.pending = {(s.table.context idx).txnId} := by rw [map, hcall]
    have hmap : (Workers.mk .idle t).map = ⟨s.map.present.erase (s.table.context idx).txnId,
        s.map.pending.erase (s.table.context idx).txnId⟩ := by
      rw [hpending, Finset.erase_singleton]
      exact congrArg (fun p => WorkerMap.mk p ∅) hpresent
    rw [hmap]
    exact .joined (by rw [hpending]; exact Finset.mem_singleton_self _)
  · intro i _ hother
    apply hframe
    intro he
    rw [he] at hother
    exact hother (Or.inl hcall)

/-- A turn of the second loop of `trait_clear`, or its end. -/
theorem maps_cleared {slot : Nat} (hi : s.Inv) (hcall : s.call = .clearing slot)
    (hend : ∀ i, i.val = slot → (s.table.table i).live = true →
      ∃ th, (s.table.context i).thread = some th ∧ th.point = .ended) :
    ∃ s' out, s.resume = some (s', out) ∧ s'.Inv ∧ s.Maps .resume out s' := by
  have hpending : s.map.pending = s.map.present := by rw [map, hcall]
  by_cases hslot : slot < maxTransactions
  · by_cases hlive : (s.table.table ⟨slot, hslot⟩).live = true
    · -- the worker of this slot is joined
      obtain ⟨th, hth, hpoint⟩ := hend ⟨slot, hslot⟩ rfl hlive
      obtain ⟨t, replies, hjoin, hwf, hpresent, hdead, hframe⟩ :=
        hi.wf.joinEntry_eq hlive hth hpoint
      refine ⟨⟨.clearing (slot + 1), t⟩, [.joined (s.table.context ⟨slot, hslot⟩).txnId], ?_,
        ⟨hwf, ?_, ?_⟩, ?_, ?_⟩
      · rw [resume, hcall]
        dsimp only
        rw [dif_pos hslot, WorkerTable.clearJoin, if_pos hlive, hjoin]
        dsimp only
        rw [if_pos hlive, hi.wf.worker_eq hlive]
        rfl
      · intro idx hc
        cases hc
      · intro k hc i hilive
        cases hc
        have hne : i ≠ ⟨slot, hslot⟩ := by
          intro he
          rw [he, hdead] at hilive
          cases hilive
        rw [hframe i hne] at hilive
        have hle := hi.clearing slot hcall i hilive
        have hval : i.val ≠ slot := fun he => hne (Fin.ext he)
        omega
      · have hmap : (Workers.mk (.clearing (slot + 1)) t).map
            = ⟨s.map.present.erase (s.table.context ⟨slot, hslot⟩).txnId,
              s.map.pending.erase (s.table.context ⟨slot, hslot⟩).txnId⟩ := by
          rw [hpending]
          exact congrArg (fun p => WorkerMap.mk p p) hpresent
        rw [hmap]
        exact .joined (by rw [hpending]; exact WorkerTable.mem_present_of_live hlive)
      · intro i _ hother
        apply hframe
        intro he
        rw [he] at hother
        exact hother (Or.inr hcall)
    · -- the slot has no worker
      refine ⟨⟨.clearing (slot + 1), s.table⟩, [], ?_, ⟨hi.wf, ?_, ?_⟩, ?_, fun _ _ _ => rfl⟩
      · rw [resume, hcall]
        dsimp only
        rw [dif_pos hslot, WorkerTable.clearJoin, if_neg hlive]
        dsimp only
        rw [if_neg hlive]
      · intro idx hc
        cases hc
      · intro k hc i hilive
        cases hc
        have hle := hi.clearing slot hcall i hilive
        have hval : i.val ≠ slot := by
          intro he
          have hi' : i = ⟨slot, hslot⟩ := Fin.ext he
          rw [hi'] at hilive
          exact hlive hilive
        omega
      · have hmap : (Workers.mk (.clearing (slot + 1)) s.table).map = s.map := by
          simp only [map, hcall]
        rw [hmap]
        exact .passed
  · -- the loop is over, and there is no worker left
    refine ⟨⟨.idle, s.table⟩, [], ?_, Inv.of_idle hi.wf rfl, ?_, fun _ _ _ => rfl⟩
    · rw [resume, hcall]
      dsimp only
      rw [dif_neg hslot]
    · have hnone : s.table.present = ∅ := by
        rw [Finset.eq_empty_iff_forall_notMem]
        intro key hkey
        obtain ⟨i, hilive, -⟩ := WorkerTable.mem_present.mp hkey
        have hle := hi.clearing slot hcall i hilive
        have hlt := i.isLt
        omega
      have hmap : (Workers.mk .idle s.table).map = s.map := by
        simp only [map, hcall, hnone]
      rw [hmap]
      exact .passed

/-- A turn in which one context changes and its thread stays. -/
theorem maps_setContext {a : TableAct} {idx : Fin maxTransactions} {c : WorkerContext}
    (hi : s.Inv) (hid : c.txnId = (s.table.context idx).txnId)
    (hwf : (s.table.setContext idx c).Wf) (hconcerns : s.concerns a idx)
    (hstep : ∀ m : WorkerMap, m.Step a [] m) :
    (Workers.mk s.call (s.table.setContext idx c)).Inv ∧
      s.Maps a [] ⟨s.call, s.table.setContext idx c⟩ := by
  refine ⟨⟨hwf, ?_, ?_⟩, ?_, ?_⟩
  · intro i hcall
    rw [WorkerTable.setContext_live]
    exact hi.removing i hcall
  · intro slot hcall i hlive
    rw [WorkerTable.setContext_live] at hlive
    exact hi.clearing slot hcall i hlive
  · have hmap : (Workers.mk s.call (s.table.setContext idx c)).map = s.map :=
      map_congr rfl (WorkerTable.present_setContext hid) (WorkerTable.setContext_txnId hid)
    rw [hmap]
    exact hstep s.map
  · intro i _ hother
    apply Slots.set_of_ne
    intro he
    rw [he] at hother
    exact hother hconcerns

/-- A turn that joins does so with a thread that has ended. -/
theorem ended_of_resume (h : s.resume = some (s', out)) :
    (∀ idx, s.call = .removing idx →
      ∃ th, (s.table.context idx).thread = some th ∧ th.point = .ended) ∧
    ∀ slot, s.call = .clearing slot → ∀ i, i.val = slot → (s.table.table i).live = true →
      ∃ th, (s.table.context i).thread = some th ∧ th.point = .ended := by
  have ended : ∀ {idx t replies}, s.table.joinEntry idx = some (t, replies) →
      ∃ th, (s.table.context idx).thread = some th ∧ th.point = .ended := by
    intro idx t replies hjoin
    obtain ⟨c, hc, -⟩ := WorkerTable.joinEntry_some hjoin
    obtain ⟨⟨txnId, hth⟩, -, -⟩ := WorkerContext.traitJoin_some _ hc
    exact ⟨_, hth, rfl⟩
  constructor
  · intro idx hcall
    rw [resume, hcall] at h
    dsimp only at h
    split at h
    · cases h
    · next hjoin => exact ended hjoin
  · intro slot hcall i hi hlive
    subst hi
    rw [resume, hcall] at h
    dsimp only at h
    rw [dif_pos i.isLt, WorkerTable.clearJoin, if_pos hlive] at h
    split at h
    · cases h
    · next hjoin => exact ended hjoin

/-- A step keeps the invariant and is a step of the bounded map. -/
theorem maps_step {a : TableAct} (hi : s.Inv) (h : machine.step s a = some (s', out)) :
    s'.Inv ∧ s.Maps a out s' := by
  -- a step is the one that the lemmas above speak of
  have same : ∀ {r : Option (Workers × List TableEvent)}, r = some (s', out) →
      (∃ s'' out'', r = some (s'', out'') ∧ s''.Inv ∧ s.Maps a out'' s'') →
      s'.Inv ∧ s.Maps a out s' := by
    intro r hr hex
    obtain ⟨s'', out'', hr', hinv, href⟩ := hex
    rw [hr] at hr'
    cases hr'
    exact ⟨hinv, href⟩
  change step s a = some (s', out) at h
  cases a with
  | insert txnId =>
      rw [step] at h
      split at h
      · next hc => exact same h (maps_insert hi hc.1 hc.2)
      · cases h
  | search key =>
      rw [step] at h
      split at h
      · next hidle => exact same h ⟨_, _, rfl, maps_search key hi hidle⟩
      · cases h
  | remove key =>
      rw [step] at h
      split at h
      · next hc => exact same h (maps_remove hi hc.1 hc.2)
      · cases h
  | clear =>
      rw [step] at h
      split at h
      · next hidle =>
          cases h
          exact maps_clear hi hidle
      · cases h
  | resume =>
      have h : s.resume = some (s', out) := h
      obtain ⟨hremoving, hclearing⟩ := ended_of_resume h
      cases hcall : s.call with
      | idle =>
          rw [resume, hcall] at h
          cases h
      | removing idx =>
          obtain ⟨th, hth, hend⟩ := hremoving idx hcall
          exact same h (maps_joined hi hcall hth hend)
      | clearing slot => exact same h (maps_cleared hi hcall (hclearing slot hcall))
  | send idx job =>
      rw [step] at h
      split at h
      · cases h
        have hfit := (hi.wf.fit idx).send job
        have hwf : (s.send idx job).table.Wf := hi.wf.setContext rfl hfit
        exact maps_setContext hi rfl hwf rfl fun _ => .send
      · cases h
  | thread idx act =>
      obtain ⟨t, ht, heq⟩ := Option.map_eq_some_iff.mp h
      cases heq
      obtain ⟨c, rfl, hid, -, hwf⟩ := hi.wf.threadTurn ht
      exact maps_setContext hi hid hwf rfl fun _ => .thread

/-! ## Running flags -/

/-- A table in which every entry is as before, or has another context with the same flag. -/
theorem Flags.of_same {t : WorkerTable} {call : TableCall}
    (hrun : ∀ i, (t.context i).running = (s.table.context i).running)
    (hlive : ∀ i, (t.table i).live = true → (s.table.table i).live = true)
    (hout : ∀ txnId, .stopped txnId ∉ out) : s.Flags out ⟨call, t⟩ where
  stopped i _ := by rw [hrun, decide_eq_false (hout _), Bool.not_false, Bool.and_true]
  started i hi hi' := by
    rw [hlive i hi'] at hi
    cases hi

/-- A context is changed and not its flag. -/
theorem Flags.setContext {idx : Fin maxTransactions} {c : WorkerContext} {call : TableCall}
    (hrun : c.running = (s.table.context idx).running) :
    s.Flags [] ⟨call, s.table.setContext idx c⟩ := by
  refine .of_same (fun i => ?_) (fun i hi => ?_) fun _ => List.not_mem_nil
  · by_cases hi : i = idx
    · rw [hi, ← hrun, WorkerTable.context, WorkerTable.setContext_self]
    · rw [WorkerTable.context, WorkerTable.setContext_of_ne _ _ hi, WorkerTable.context]
  · rwa [WorkerTable.setContext_live] at hi

/-- A join leaves the flag as it is. -/
theorem Flags.joinEntry {idx : Fin maxTransactions} {t : WorkerTable} {replies : List Reply}
    {call : TableCall} (hjoin : s.table.joinEntry idx = some (t, replies))
    (hout : ∀ txnId, .stopped txnId ∉ out) : s.Flags out ⟨call, t⟩ := by
  obtain ⟨c, hc, rfl⟩ := WorkerTable.joinEntry_some hjoin
  refine .of_same (fun i => ?_) (fun i hi => ?_) hout
  all_goals by_cases hidx : i = idx
  · subst hidx
    rw [WorkerTable.context, WorkerTable.table_set_self]
    exact WorkerContext.traitJoin_running _ hc
  · rw [WorkerTable.context, WorkerTable.table_set_of_ne hidx, WorkerTable.context]
  · subst hidx
    rw [WorkerTable.table_set_self, WorkerEntry.live, Bool.not_true, Bool.and_false] at hi
    cases hi
  · rwa [WorkerTable.table_set_of_ne hidx] at hi

theorem flags_insert {txnId : TxnId} (h : s.insert txnId = some (s', out)) : s.Flags out s' := by
  unfold insert at h
  split at h
  · cases h
  · next e t hins =>
      cases h
      -- only a full table refuses, and it is as before
      have ht : t = s.table := WorkerTable.traitInsert_error hins
      subst ht
      exact .of_same (fun _ => rfl) (fun _ => id) fun _ hm => by simp at hm
  · next idx t hins =>
      cases h
      obtain ⟨hfree, -, started, hstart, rfl⟩ := WorkerTable.traitInsert_ok hins
      have hrun := WorkerContext.traitStart_running _ hstart
      refine ⟨fun i hi => ?_, fun i hi hi' => ?_⟩
      · have hne : i ≠ idx := by
          rintro rfl
          rw [hfree] at hi
          cases hi
        rw [decide_eq_false (by simp), WorkerTable.context, WorkerTable.table_set_of_ne hne,
          WorkerTable.context, Bool.not_false, Bool.and_true]
      · by_cases hidx : i = idx
        · subst hidx
          rw [WorkerTable.context, WorkerTable.table_set_self]
          exact hrun
        · rw [WorkerTable.table_set_of_ne hidx, hi] at hi'
          cases hi'

theorem flags_remove {key : TxnId} (hi : s.Inv) (hkey : key ∈ s.table.present)
    (h : s.remove key = some (s', out)) : s.Flags out s' := by
  obtain ⟨idx, hlive, hid⟩ := WorkerTable.mem_present.mp hkey
  rw [remove, hi.wf.removeStop_eq hlive hid] at h
  dsimp only at h
  rw [hi.wf.worker_eq hlive, hid] at h
  cases h
  refine ⟨fun i hi' => ?_, fun i hi' hlive' => ?_⟩
  · by_cases hidx : i = idx
    · subst hidx
      rw [WorkerTable.context, WorkerTable.setContext_self, hid, decide_eq_true (by simp),
        Bool.not_true, Bool.and_false]
      rfl
    · have hne : (s.table.context i).txnId ≠ key := fun heq =>
        hidx (hi.wf.unique i idx hi' hlive (heq.trans hid.symm))
      rw [WorkerTable.context, WorkerTable.setContext_of_ne _ _ hidx, ← WorkerTable.context,
        decide_eq_false (by simpa using hne), Bool.not_false, Bool.and_true]
  · rw [WorkerTable.setContext_live, hi'] at hlive'
    cases hlive'

theorem flags_clear (hi : s.Inv) : s.Flags s.clear.2 s.clear.1 := by
  obtain ⟨ids, -, hids, hstopped⟩ := stopped_workers hi.wf
  refine ⟨fun i hlive => ?_, fun i hfree hlive => ?_⟩
  · have hmem : (s.table.context i).txnId ∈ ids := by
      rw [← List.mem_toFinset, hids]
      exact WorkerTable.mem_present_of_live hlive
    rw [clear, hstopped, decide_eq_true (List.mem_map_of_mem hmem), Bool.not_true, Bool.and_false,
      WorkerTable.context, WorkerTable.clearStop]
    dsimp only
    rw [if_pos hlive]
    rfl
  · rw [clear, (WorkerTable.clearStop_table i).1, hfree] at hlive
    cases hlive

theorem flags_resume (h : s.resume = some (s', out)) : s.Flags out s' := by
  have hquiet : ∀ (l : List TxnId) (txnId : TxnId), .stopped txnId ∉ l.map TableEvent.joined :=
    fun l txnId hm => by simp at hm
  unfold resume at h
  split at h
  · cases h
  · split at h
    · cases h
    · next hjoin =>
        cases h
        exact .joinEntry hjoin (hquiet _)
  · split at h
    · split at h
      · cases h
      · next hslot t replies hjoin =>
          cases h
          unfold WorkerTable.clearJoin at hjoin
          split at hjoin
          · next hlive =>
              rw [if_pos hlive]
              exact .joinEntry hjoin (hquiet _)
          · next hlive =>
              cases hjoin
              rw [if_neg hlive]
              exact .of_same (fun _ => rfl) (fun _ => id) (hquiet [])
    · cases h
      exact .of_same (fun _ => rfl) (fun _ => id) (hquiet [])

/-- **A step clears the flags of the workers that it stops.** -/
theorem flags_step {a : TableAct} (hi : s.Inv) (h : machine.step s a = some (s', out)) :
    s.Flags out s' := by
  change step s a = some (s', out) at h
  unfold step at h
  split at h
  · split at h
    · exact flags_insert h
    · cases h
  · split at h
    · unfold search at h
      split at h <;> cases h <;>
        exact .of_same (fun _ => rfl) (fun _ => id) fun _ hm => by simp at hm
    · cases h
  · split at h
    · next hc => exact flags_remove hi hc.2 h
    · cases h
  · split at h
    · cases h
      exact flags_clear hi
    · cases h
  · exact flags_resume h
  · split at h
    · cases h
      exact .setContext rfl
    · cases h
  · obtain ⟨t, ht, heq⟩ := Option.map_eq_some_iff.mp h
    cases heq
    obtain ⟨c, rfl, -, hrun, -⟩ := hi.wf.threadTurn ht
    exact .setContext hrun

/-- **A step keeps the invariant and refines the bounded map.** -/
theorem refines_step {a : TableAct} (hi : s.Inv) (h : machine.step s a = some (s', out)) :
    s'.Inv ∧ s.Refines a out s' :=
  ⟨(maps_step hi h).1, (maps_step hi h).2, flags_step hi h⟩

/-! ## Runs -/

/-- What the table answers, and that its calls come back. An insertion, a search and a removal up
to its join come back at once; a join comes back when its thread has ended. -/
structure Answers (s : Workers) : Prop where
  size : s.table.size.toNat = s.map.present.card
  full : ∀ c, s.table.traitInsert c = some (.error .full, s.table) ↔
    s.map.present.card = maxTransactions
  search : ∀ key idx, s.table.traitSearch key = .ok idx ↔
    (s.table.table idx).live = true ∧ (s.table.context idx).txnId = key
  absent : ∀ key, s.table.traitSearch key = .error .notFound ↔ key ∉ s.map.present
  insert : s.isIdle = true → ∀ txnId, txnId ∉ s.map.present →
    (machine.step s (.insert txnId)).isSome = true
  remove : s.isIdle = true → ∀ key, key ∈ s.map.present →
    (machine.step s (.remove key)).isSome = true
  join : ∀ idx th, s.call = .removing idx → (s.table.context idx).thread = some th →
    th.point = .ended → (machine.step s .resume).isSome = true
  joins : ∀ slot, s.call = .clearing slot →
    (∀ i, i.val = slot → (s.table.table i).live = true →
      ∃ th, (s.table.context i).thread = some th ∧ th.point = .ended) →
    (machine.step s .resume).isSome = true

theorem Inv.answers (hi : s.Inv) : s.Answers where
  size := hi.wf.size_eq
  full _ := hi.wf.traitInsert_full_iff
  search _ _ := hi.wf.traitSearch_iff
  absent _ := hi.wf.traitSearch_error_iff
  insert hidle txnId hnew := by
    obtain ⟨s', out, hs, -⟩ := maps_insert hi hidle hnew
    have hstep : machine.step s (.insert txnId) = s.insert txnId := if_pos ⟨hidle, hnew⟩
    rw [hstep, hs]
    rfl
  remove hidle key hkey := by
    obtain ⟨s', out, hs, -⟩ := maps_remove hi hidle hkey
    have hstep : machine.step s (.remove key) = s.remove key := if_pos ⟨hidle, hkey⟩
    rw [hstep, hs]
    rfl
  join idx th hcall hth hend := by
    obtain ⟨s', out, hs, -⟩ := maps_joined hi hcall hth hend
    have hstep : machine.step s .resume = some (s', out) := hs
    rw [hstep]
    rfl
  joins slot hcall hend := by
    obtain ⟨s', out, hs, -⟩ := maps_cleared hi hcall hend
    have hstep : machine.step s .resume = some (s', out) := hs
    rw [hstep]
    rfl

variable {h : List (Entry Workers TableAct TableEvent)}

theorem inv_of_run (hr : machine.Run init h s) : s.Inv :=
  hr.invariant (P := fun _ s => s.Inv) inv_init fun _ _ _ _ _ _ hi hs => (refines_step hi hs).1

/-- **The worker table is a bounded map of running workers**: in every run each step is one of the
map, with the same threads started, stopped and joined, and leaves the other entries alone; and in
every state reached the table answers as the map does. -/
theorem refinesMap_of_run (hr : machine.Run init h s) :
    s.Answers ∧ ∀ e ∈ h, e.pre.Refines e.act e.out e.post := by
  refine ⟨(inv_of_run hr).answers, ?_⟩
  intro e he
  obtain ⟨k, l, -, hpre, hstep, -⟩ := hr.split he
  exact (refines_step (inv_of_run hpre) hstep).2

/-- Two ids with the same home; the first is removed, the second is still found, and then the table
is cleared. -/
def sampleActs : List TableAct :=
  [.insert 0, .insert 64, .remove 0, .thread 0 .quit, .resume, .search 64, .search 0, .clear,
    .thread 1 .quit] ++ List.replicate 65 .resume

theorem refinesMap_of_run_sample : ∃ h s, machine.Run init h s ∧
    h.flatMap Entry.out = [.started 0, .started 64, .stopped 0, .joined 0, .found 64, .notFound,
      .stopped 64, .joined 64] ∧
    s.isIdle = true ∧ s.Answers ∧ ∀ e ∈ h, e.pre.Refines e.act e.out e.post := by
  have hrun : ∃ h s, machine.Run init h s ∧ decide (h.flatMap Entry.out = [.started 0, .started 64,
      .stopped 0, .joined 0, .found 64, .notFound, .stopped 64, .joined 64] ∧
      s.isIdle = true) = true :=
    Machine.exists_run_of_exec (show (machine.exec init sampleActs).map _ = some true by
      decide +kernel)
  obtain ⟨h, s, hr, hp⟩ := hrun
  obtain ⟨hout, hidle⟩ := of_decide_eq_true hp
  exact ⟨h, s, hr, hout, hidle, refinesMap_of_run hr⟩

end Workers

end PawnDB
