import PawnDB.Server.Channels

set_option autoImplicit false

/-! # The table of running workers

Sixty-four slots, addressed by `txn_id % MAX_TRANSACTIONS` with linear probing. A slot keeps
its `WorkerContext` for ever: removing a worker joins its thread and marks the slot deleted, and
an insertion assigns to the context that is there. The assignment copies the transaction id and
leaves the job channel as it is.

Of the thread this module shows what its channel and its context see. It is at the head of its
receive loop, waits for a job, has one in hand that it has not popped, or has ended.

Two calls need not return. `join` waits for the thread to end, so an operation that joins is cut
in two before the join. The probe loop of `trait_remove` has no bound and stops at a slot with
the id that is not marked deleted, whether it is in use or not (`keyAt`). A result `none` is also
a call that ends the program: a start over a thread that was never joined, or a join without one.
-/

namespace PawnDB

open Bytes Probing

/-- Worker table operation error codes. -/
inductive WorkerTableError
  | full | notFound
  deriving DecidableEq, Repr

/-! ## Contexts -/

/-- Where a worker thread stands. -/
inductive ThreadPoint
  /-- The head of the receive loop. -/
  | loop
  /-- Waiting for a job. -/
  | recv
  /-- A job has been received and not yet popped. -/
  | handling (job : Job)
  | ended

/-- A worker thread. It copies the transaction id of its context when it starts. -/
structure Thread where
  txnId : TxnId
  point : ThreadPoint

structure WorkerContext where
  jobCh : JobChannel
  txnId : TxnId
  running : Bool
  /-- No thread is one that was never started or has been joined. -/
  thread : Option Thread

namespace WorkerContext

/-- The default constructor. -/
def empty : WorkerContext := ⟨JobChannel.init, 0, false, none⟩

/-- The context of a transaction, not started. -/
def ofTxn (txnId : TxnId) : WorkerContext := ⟨JobChannel.init, txnId, false, none⟩

variable (c : WorkerContext)

/-- `operator=` -/
def assign (other : WorkerContext) : WorkerContext := { c with txnId := other.txnId }

def traitStart : Option WorkerContext :=
  match c.thread with
  | none => some { c with running := true, thread := some ⟨c.txnId, .loop⟩ }
  | some _ => none

def traitStop : WorkerContext := { c with running := false }

/-- The thread of the context goes on to a point. -/
def goTo (th : Thread) (point : ThreadPoint) : WorkerContext :=
  { c with thread := some { th with point := point } }

/-- The reply to a job its worker has not handled. -/
def deadReply (job : Job) : Reply :=
  ⟨.deadTxn, take (job.buf.setAck .deadTxn).buffer 7, job.conn⟩

/-- The loop of `trait_join`, for at most `fuel` turns. -/
def ackLoop : Nat → JobChannel → Option (JobChannel × List Reply)
  | 0, q => if q.empty then some (q, []) else none
  | fuel + 1, q =>
      if q.empty then some (q, [])
      else
        match q.get with
        | .ok (some job) => (ackLoop fuel q.pop).map fun r => (r.1, deadReply job :: r.2)
        | _ => none

/-- Join the thread, which has ended, and answer the jobs that are left. -/
def traitJoin : Option (WorkerContext × List Reply) :=
  match c.thread with
  | some ⟨_, .ended⟩ =>
      (ackLoop c.jobCh.count.toNat c.jobCh).map fun r =>
        ({ c with jobCh := r.1, thread := none }, r.2)
  | _ => none

/-- **The jobs that are left are answered in their order, and the channel is then empty.** -/
theorem ackLoop_eq {q : JobChannel} {l : List Job} (h : q.Holds l) :
    ∃ q', ackLoop l.length q = some (q', l.map deadReply) ∧ q'.Holds [] := by
  induction l generalizing q with
  | nil =>
      refine ⟨q, ?_, h⟩
      rw [List.length_nil, ackLoop, if_pos (h.empty_iff.mpr rfl)]
      rfl
  | cons job l ih =>
      have hne : ¬ q.empty = true := by
        rw [h.empty_iff]
        exact List.cons_ne_nil _ _
      obtain ⟨q', hq', hempty⟩ := ih h.pop
      refine ⟨q', ?_, hempty⟩
      rw [List.length_cons, ackLoop, if_neg hne, h.get_cons]
      dsimp only
      rw [hq']
      rfl

theorem traitJoin_some {c' : WorkerContext} {replies : List Reply}
    (h : c.traitJoin = some (c', replies)) :
    (∃ txnId, c.thread = some ⟨txnId, .ended⟩) ∧ c'.thread = none ∧ c'.txnId = c.txnId := by
  unfold traitJoin at h
  split at h
  · next txnId hth =>
      obtain ⟨r, -, heq⟩ := Option.map_eq_some_iff.mp h
      cases heq
      exact ⟨⟨txnId, hth⟩, rfl, rfl⟩
  · cases h

theorem traitJoin_running {c' : WorkerContext} {replies : List Reply}
    (h : c.traitJoin = some (c', replies)) : c'.running = c.running := by
  unfold traitJoin at h
  split at h
  · obtain ⟨r, -, heq⟩ := Option.map_eq_some_iff.mp h
    cases heq
    rfl
  · cases h

theorem traitStart_running {c' : WorkerContext} (h : c.traitStart = some c') :
    c'.running = true := by
  unfold traitStart at h
  split at h
  · cases h
    rfl
  · cases h

end WorkerContext

/-! ## The table -/

structure WorkerEntry where
  context : WorkerContext
  isUsed : Bool
  isDeleted : Bool

/-- The slot has a worker. -/
def WorkerEntry.live (e : WorkerEntry) : Bool := e.isUsed && !e.isDeleted

structure WorkerTable where
  table : Fin maxTransactions → WorkerEntry
  size : SizeT

namespace WorkerTable

/-- The constructor. -/
def init : WorkerTable := ⟨fun _ => ⟨WorkerContext.empty, false, false⟩, 0⟩

variable (t : WorkerTable)

/-- `txn_id % MAX_TRANSACTIONS` -/
def home (key : TxnId) : Fin maxTransactions := Fin.ofNat maxTransactions key.toNat

def context (idx : Fin maxTransactions) : WorkerContext := (t.table idx).context

def setContext (idx : Fin maxTransactions) (c : WorkerContext) : WorkerTable :=
  { t with table := Slots.set t.table idx { t.table idx with context := c } }

theorem setContext_self (idx : Fin maxTransactions) (c : WorkerContext) :
    (t.setContext idx c).table idx = { t.table idx with context := c } := Slots.set_self _ _ _

theorem setContext_of_ne (c : WorkerContext) {idx i : Fin maxTransactions} (hi : i ≠ idx) :
    (t.setContext idx c).table i = t.table i := Slots.set_of_ne _ _ hi

@[simp] theorem setContext_live (idx : Fin maxTransactions) (c : WorkerContext)
    (i : Fin maxTransactions) : ((t.setContext idx c).table i).live = (t.table i).live :=
  Slots.map_set WorkerEntry.live t.table idx { t.table idx with context := c } rfl i

def traitFull : Bool := decide (UInt64.ofNat maxTransactions ≤ t.size)

/-- Assign the context to the first slot, from the home of its id on, that is unused or deleted,
and start its thread. Returns that slot. -/
def traitInsert (c : WorkerContext) :
    Option (Except WorkerTableError (Fin maxTransactions) × WorkerTable) :=
  if t.traitFull then some (.error .full, t)
  else
    match seek (fun i => !(t.table i).isUsed || (t.table i).isDeleted) maxTransactions
        (home c.txnId) with
    | none => none
    | some idx =>
        match ((t.context idx).assign c).traitStart with
        | none => none
        | some started =>
            some (.ok idx, ⟨Slots.set t.table idx ⟨started, true, false⟩, t.size + 1⟩)

/-- The condition on which the loops of `traitSearch` and `trait_remove` stop at slot `i`. -/
def keyAt (key : TxnId) (i : Fin maxTransactions) : Bool :=
  (t.context i).txnId == key && !(t.table i).isDeleted

/-- Look up an id, giving up at a slot that was never used and after one round. -/
def traitSearch (key : TxnId) : Except WorkerTableError (Fin maxTransactions) :=
  match scan (fun i => !(t.table i).isUsed) (t.keyAt key) maxTransactions (home key) with
  | none => .error .notFound
  | some idx => .ok idx

/-- `trait_remove` up to the join: find the slot and stop its worker. -/
def removeStop (key : TxnId) : Option (Fin maxTransactions × WorkerTable) :=
  match seek (t.keyAt key) maxTransactions (home key) with
  | none => none
  | some idx => some (idx, t.setContext idx (t.context idx).traitStop)

/-- Join the worker of a slot and mark the slot deleted. -/
def joinEntry (idx : Fin maxTransactions) : Option (WorkerTable × List Reply) :=
  match (t.context idx).traitJoin with
  | none => none
  | some (c, replies) =>
      some (⟨Slots.set t.table idx { t.table idx with context := c, isDeleted := true },
        t.size - 1⟩, replies)

/-- The first loop of `trait_clear`: stop every worker. -/
def clearStop : WorkerTable :=
  { t with
    table := fun i =>
      if (t.table i).live then
        { t.table i with context := (t.context i).traitStop }
      else t.table i }

/-- A turn of the second loop of `trait_clear`. -/
def clearJoin (idx : Fin maxTransactions) : Option (WorkerTable × List Reply) :=
  if (t.table idx).live then t.joinEntry idx else some (t, [])

end WorkerTable

end PawnDB
