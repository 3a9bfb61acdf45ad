import PawnDB.Lib.Machine
import PawnDB.Server.WorkerTable

set_option autoImplicit false

/-! # The thread manager

One thread receives the datagrams of all clients. `START_TXN` removes the workers that have
reported their end, inserts a worker under a new id and sends it the datagram as its first job;
every other request goes to the worker whose id is in its header. When the manager is stopped it
joins all workers.

The machine interleaves the manager's turns with those of the worker threads. A turn of the
manager ends where it must wait, at a join, and wherever a worker may act between two of its
statements with an effect: `Phase` is the place in the source where the next turn begins. The
turns of a worker are those of its receive loop. What it does with a job, and when it decides to
quit, is left open: between receiving a job and popping it the worker may take any time, and it
may quit whenever it is at the head of its loop.

The message that `worker_quit` sends and the drain loop reads is taken to be the transaction id.
-/

namespace PawnDB

open Bytes

/-- Where the manager's next turn begins. -/
inductive Phase
  /-- Outside of `trait_start`. -/
  | stopped
  /-- At the head of the loop, or in `recvfrom`. -/
  | listening
  /-- `START_TXN`: at the head of the loop that removes dead workers. -/
  | draining (job : Job)
  /-- In `trait_remove`, waiting in `join`. -/
  | joining (job : Job) (idx : Fin maxTransactions)
  /-- The worker has been inserted and its first job is not yet sent. -/
  | starting (job : Job) (idx : Fin maxTransactions)
  /-- `ABORT_TXN` has been sent and the worker is not yet stopped. -/
  | aborting (idx : Fin maxTransactions)
  /-- In the second loop of `trait_clear`, at a slot. -/
  | clearing (slot : Nat)

structure ThreadManager where
  phase : Phase
  nextTxnId : TxnId
  /-- The server socket can be sent to: it was neither shut down nor closed. -/
  fdOpen : Bool
  retCh : RetChannel
  workers : WorkerTable

/-- What happens in a worker thread. -/
inductive ThreadAct
  /-- `is_running()` holds, and the thread goes on to wait for a job. -/
  | enter
  /-- `worker_quit` -/
  | quit
  | recv
  | recvTimeout
  /-- The job in hand has been handled. -/
  | pop
  deriving DecidableEq

inductive ManagerAct
  /-- `trait_start` is called. -/
  | start
  /-- `trait_stop` is called: the running flag is cleared and the socket shut down. -/
  | stop
  /-- A datagram arrives. -/
  | datagram (job : Job)
  /-- The main loop finds the flag cleared, or the socket shut down. -/
  | shutdown
  /-- The manager's next turn. -/
  | resume
  | worker (idx : Fin maxTransactions) (a : ThreadAct)

inductive ManagerEvent
  /-- A reply is handed to the server socket, which may have been shut down or closed. -/
  | reply (fdOpen : Bool) (r : Reply)
  /-- A `START_TXN` datagram had a worker inserted under a new id. -/
  | started (idx : Fin maxTransactions) (txnId : TxnId) (job : Job)
  /-- The manager sent a job to the worker of a slot. -/
  | sent (idx : Fin maxTransactions) (job : Job)
  /-- A worker received a job. -/
  | received (idx : Fin maxTransactions) (txnId : TxnId) (job : Job)
  | popped (idx : Fin maxTransactions)
  /-- A worker reported its id. -/
  | quit (txnId : TxnId)
  /-- `WorkerTable.remove` was called with an id and found a slot. -/
  | removing (txnId : TxnId) (idx : Fin maxTransactions)
  | joined (idx : Fin maxTransactions)

namespace ThreadManager

/-- The constructor. -/
def init : ThreadManager := ⟨.stopped, 0, false, RetChannel.init, WorkerTable.init⟩

variable (m : ThreadManager)

/-- `reply` -/
def reply (ack : OpAck) (parser : JobBuf) (conn : ClientConn) : ManagerEvent :=
  .reply m.fdOpen ⟨ack, take (parser.setAck ack).buffer parser.bufferSize, conn⟩

/-- The end of `trait_start`: the socket is closed, and then `trait_clear` stops all workers and
joins them. What is replied from here on, by the joins or by workers that are not done yet, goes to
a closed socket. -/
def leave : ThreadManager :=
  { m with phase := .clearing 0, fdOpen := false, workers := m.workers.clearStop }

/-- A request other than `START_TXN`. -/
def route (op : OpType) (job : Job) : ThreadManager × List ManagerEvent :=
  match job.buf.getTxn with
  | .error _ => (m, [m.reply .badTxn job.buf job.conn])
  | .ok txnId =>
      match m.workers.traitSearch txnId with
      | .error _ => (m, [m.reply .badTxn job.buf job.conn])
      | .ok idx =>
          match (m.workers.context idx).jobCh.send job with
          | (.none, jobCh) =>
              ({ m with
                workers := m.workers.setContext idx { m.workers.context idx with jobCh := jobCh }
                phase := if op = .abortTxn then .aborting idx else .listening },
              [.sent idx job])
          | _ => (m, [m.reply .busy job.buf job.conn])

/-- What the main loop does with a datagram. An empty one looks like a socket shut down. -/
def receive (job : Job) : ThreadManager × List ManagerEvent :=
  if job.buf.bufferSize = 0 then (m.leave, [])
  else
    match job.buf.getOp, job.buf.getOpId with
    | .ok op, .ok _ =>
        match op with
        | .startTxn => ({ m with phase := .draining job }, [])
        | .maxOpValue => (m, [])
        | _ => m.route op job
    | _, _ => (m, [m.reply .badOp job.buf job.conn])

/-- A turn of the loop that removes dead workers, or what comes after the loop. -/
def drainTurn (job : Job) : Option (ThreadManager × List ManagerEvent) :=
  match m.retCh.get with
  | .ok deadTxn =>
      match m.workers.removeStop deadTxn with
      | none => none
      | some (idx, workers) =>
          some ({ m with workers := workers, phase := .joining job idx }, [.removing deadTxn idx])
  | .error _ =>
      match m.workers.traitInsert (WorkerContext.ofTxn m.nextTxnId) with
      | none => none
      | some (.ok idx, workers) =>
          some ({ m with workers := workers, phase := .starting job idx },
            [.started idx m.nextTxnId job])
      | some (.error _, _) =>
          some ({ m with phase := .listening }, [m.reply .busy job.buf job.conn])

/-- The join of a dead worker, and the end of the turn of the drain loop. -/
def joinTurn (job : Job) (idx : Fin maxTransactions) :
    Option (ThreadManager × List ManagerEvent) :=
  match m.workers.joinEntry idx with
  | none => none
  | some (workers, replies) =>
      some ({ m with workers := workers, retCh := m.retCh.pop, phase := .draining job },
        .joined idx :: replies.map (.reply m.fdOpen))

/-- Send the first job. Whether the channel took it is not checked. -/
def startTurn (job : Job) (idx : Fin maxTransactions) : ThreadManager × List ManagerEvent :=
  let m := { m with nextTxnId := m.nextTxnId + 1, phase := .listening }
  match (m.workers.context idx).jobCh.send job with
  | (.none, jobCh) =>
      ({ m with
        workers := m.workers.setContext idx { m.workers.context idx with jobCh := jobCh } },
      [.sent idx job])
  | _ => (m, [])

/-- A turn of the second loop of `trait_clear`. The jobs that a worker left behind are answered, but
`leave` has closed the socket. -/
def clearTurn (slot : Nat) : Option (ThreadManager × List ManagerEvent) :=
  if hslot : slot < maxTransactions then
    match m.workers.clearJoin ⟨slot, hslot⟩ with
    | none => none
    | some (workers, replies) =>
        some ({ m with workers := workers, phase := .clearing (slot + 1) },
          (if (m.workers.table ⟨slot, hslot⟩).live then [.joined ⟨slot, hslot⟩] else []) ++
            replies.map (.reply m.fdOpen))
  else some ({ m with phase := .stopped }, [])

/-- The manager's next turn. -/
def resume : Option (ThreadManager × List ManagerEvent) :=
  match m.phase with
  | .stopped => none
  | .listening => none
  | .draining job => m.drainTurn job
  | .joining job idx => m.joinTurn job idx
  | .starting job idx => some (m.startTurn job idx)
  | .aborting idx =>
      some ({ m with
        workers := m.workers.setContext idx (m.workers.context idx).traitStop
        phase := .listening }, [])
  | .clearing slot => m.clearTurn slot

/-- A turn of a worker thread; the channel is its own and `ret_ch_` is shared. -/
def workerTurn (idx : Fin maxTransactions) (a : ThreadAct) :
    Option (ThreadManager × List ManagerEvent) :=
  let c := m.workers.context idx
  match c.thread with
  | none => none
  | some th =>
      match a, th.point with
      | .enter, .loop =>
          if c.running then
            some ({ m with workers := m.workers.setContext idx (c.goTo th .recv) }, [])
          else none
      | .quit, .loop =>
          some ({ m with
            workers := m.workers.setContext idx (c.goTo th .ended)
            retCh := m.retCh.send th.txnId }, [.quit th.txnId])
      | .recv, .recv =>
          match c.jobCh.get with
          | .ok (some job) =>
              some ({ m with workers := m.workers.setContext idx (c.goTo th (.handling job)) },
                [.received idx th.txnId job])
          | _ => none
      | .recvTimeout, .recv =>
          some ({ m with workers := m.workers.setContext idx (c.goTo th .loop) }, [])
      | .pop, .handling _ =>
          some ({ m with
            workers := m.workers.setContext idx { c.goTo th .loop with jobCh := c.jobCh.pop } },
            [.popped idx])
      | _, _ => none

/-- One step of the manager or of a worker. -/
def step (m : ThreadManager) : ManagerAct → Option (ThreadManager × List ManagerEvent)
  | .start =>
      match m.phase with
      | .stopped => some ({ m with phase := .listening, nextTxnId := 0, fdOpen := true }, [])
      | _ => none
  | .stop => some ({ m with fdOpen := false }, [])
  | .datagram job =>
      match m.phase with
      | .listening => some (m.receive job)
      | _ => none
  | .shutdown =>
      match m.phase with
      | .listening => if m.fdOpen then none else some (m.leave, [])
      | _ => none
  | .resume => m.resume
  | .worker idx a => m.workerTurn idx a

def machine : Machine ThreadManager ManagerAct ManagerEvent := ⟨step⟩

end ThreadManager

end PawnDB
