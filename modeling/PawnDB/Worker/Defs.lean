import PawnDB.Lib.Machine
import PawnDB.Table.StudentTable
import PawnDB.Txn.CommitQueue

set_option autoImplicit false

/-! # The worker of a transaction

A worker thread runs `traitStart`: it receives one job after the other and hands each to the
handler of its operation. Everything it shares with other threads is the student table (and
its own job channel), and every table operation is atomic, so a thread is modelled as a state
machine that makes at most one table operation per turn. `Point` is the place in the source
where a turn begins: the head of the receive loop, the head of the retry loop of a handler,
the head of the drain loop of `process_commit`, or the iteration of `release_all_locks`. What
a thread does between two table operations touches only its own data and belongs to the turn.

A turn has no result (`none`) when it does not end: the probe loop of a lock list or of the
table goes round for ever, an insert waits for a free row, or a null buffer is used. The last is
what the drain loop of `process_commit` does with every `ADD_TUPLE` and `UPDATE`: the entry that
it looks at has been destroyed (`Commit.destroyed`), so only a `DELETE` can be carried out.

The events of a turn are what others can observe of it: datagrams, jobs popped from the
channel, rows obtained or given back, and the operations a commit performs.
-/

namespace PawnDB

open Bytes

/-- The status of a transaction. -/
inductive TxnStatus
  | growing | shrinking | committed | aborted
  deriving DecidableEq, Repr

/-- The data members of a worker. -/
structure Worker where
  txnId : TxnId
  timeoutCnt : UInt8
  commitQueue : CommitQueue
  status : TxnStatus
  lockList : LockList

/-- The constructor. -/
def Worker.init (txnId : TxnId) : Worker :=
  ⟨txnId, 0, CommitQueue.init, .growing, LockList.init⟩

/-- What a turn does that others can observe. -/
inductive Event
  /-- A datagram to a client. -/
  | reply (r : Reply)
  /-- `job_ch_.pop()` -/
  | pop
  /-- A row obtained from `wait_shared` or `wait_exclusive`. -/
  | granted (type : LockType) (tuple : StudentTuple)
  | promoted (key : TblRow)
  | released (key : TblRow)
  | insert (tuple : StudentTuple)
  | write (tuple : StudentTuple)
  | remove (key : TblRow)
  /-- `ret_ch_.send` -/
  | ret (txnId : TxnId)
  deriving DecidableEq

/-- Where the next turn of a worker thread begins. -/
inductive Point
  /-- The head of the loop of `trait_start`. -/
  | loop
  /-- Waiting for a job. -/
  | recv
  /-- The head of the retry loop of `process_shared_read`, after `timeoutCnt` timeouts. -/
  | sharedRead (parser : JobBuf) (conn : ClientConn) (timeoutCnt : Nat)
  | exclusiveRead (parser : JobBuf) (conn : ClientConn) (timeoutCnt : Nat)
  | promote (parser : JobBuf) (conn : ClientConn) (tupleKey : TblRow) (timeoutCnt : Nat)
  /-- The head of the drain loop of `process_commit`. -/
  | commit (parser : JobBuf) (conn : ClientConn)
  /-- `worker_quit`, with the lock iterator at slot `idx`. -/
  | release (idx : Nat)
  /-- `trait_start` has returned. -/
  | ended

/-- The outcome of a turn. -/
structure Turn where
  worker : Worker
  point : Point
  db : StudentTable
  out : List Event

/-- `reply`: set the acknowledgement in the message buffer and send its first `size` bytes. -/
def reply (ack : OpAck) (parser : JobBuf) (size : Nat) (conn : ClientConn) : JobBuf × Event :=
  let parser := parser.setAck ack
  (parser, .reply ⟨ack, take parser.buffer size, conn⟩)

/-- A reply followed by `job_ch_.pop()`. -/
def answer (ack : OpAck) (parser : JobBuf) (size : Nat) (conn : ClientConn) : List Event :=
  [(reply ack parser size conn).2, .pop]

namespace Worker

variable (w : Worker)

/-! ## Handlers that only touch the worker's own data -/

/-- The first statement of `process_add`, `process_update` and `process_rm`. -/
def leaveGrowing : Worker :=
  { w with status := if w.status = .growing then .shrinking else w.status }

def processAdd (parser : JobBuf) (conn : ClientConn) : Worker × List Event :=
  let w := w.leaveGrowing
  match parser.getTbl with
  | .error _ => (w, answer .badTable parser 7 conn)
  | .ok tableId =>
      if tableId = studentTableId then
        match StudentTuple.empty.traitDeserialize parser.buffer parser.getTupleOffset with
        | (.error _, _) => (w, answer .badData (parser.setBufferSize 7) 7 conn)
        | (.ok _, newEntry) =>
            -- the buffer is reused for the tuple, so the reply goes out before the entry is queued
            let (parser, sent) := reply .success parser parser.bufferSize conn
            let parser := { parser with buffer := newEntry.copyTo parser.buffer }
            match w.commitQueue.send ⟨⟨tableId, 0⟩, .addTuple, some parser.buffer⟩ with
            | (.full, _) => (w, sent :: answer .commitFull parser 7 conn)
            | (_, queue) => ({ w with commitQueue := queue }, [sent, .pop])
      else (w, answer .badTable (parser.setBufferSize 7) 7 conn)

def processUpdate (parser : JobBuf) (conn : ClientConn) : Worker × List Event :=
  let w := w.leaveGrowing
  match parser.getTbl with
  | .error _ => (w, answer .badTable parser 7 conn)
  | .ok tableId =>
  match parser.getKey with
  | .error _ => (w, answer .badTp parser 7 conn)
  | .ok tupleKey =>
      if w.lockList.holds ⟨tableId, tupleKey⟩ .exclusive then
        if tableId = studentTableId then
          match StudentTuple.empty.traitDeserialize parser.buffer parser.getTupleOffset with
          | (.error _, _) => (w, answer .badData parser 7 conn)
          | (.ok _, newEntry) =>
              let (parser, sent) := reply .success parser 7 conn
              let parser := { parser with buffer := newEntry.copyTo parser.buffer }
              match w.commitQueue.send ⟨⟨tableId, tupleKey⟩, .update, some parser.buffer⟩ with
              | (.full, _) => (w, sent :: answer .commitFull parser 7 conn)
              | (_, queue) => ({ w with commitQueue := queue }, [sent, .pop])
        else (w, answer .badTable parser 7 conn)
      else (w, answer .badAccess parser 7 conn)

def processRm (parser : JobBuf) (conn : ClientConn) : Worker × List Event :=
  let w := w.leaveGrowing
  match parser.getTbl with
  | .error _ => (w, answer .badTable parser 7 conn)
  | .ok tableId =>
  match parser.getKey with
  | .error _ => (w, answer .badTp parser 7 conn)
  | .ok tupleKey =>
      if w.lockList.holds ⟨tableId, tupleKey⟩ .exclusive then
        match w.commitQueue.send ⟨⟨tableId, tupleKey⟩, .delete, none⟩ with
        | (.full, _) => (w, answer .commitFull parser 7 conn)
        | (_, queue) =>
            ({ w with commitQueue := queue }, answer .success parser parser.bufferSize conn)
      else (w, answer .badAccess parser 7 conn)

/-! ## Reads

`process_shared_read` and `process_exclusive_read` check the request alike and then retry
until a row is granted. When the lock list refuses the granted row, the exclusive read
returns after its reply and the shared read goes on to answer a second time. -/

/-- The checks before the retry loop; `enter` is the point where that loop begins. -/
def processRead (enter : Point) (parser : JobBuf) (conn : ClientConn) : Point × List Event :=
  if w.status ≠ .growing then (.loop, answer .badPhase parser 7 conn)
  else
    match parser.getTbl with
    | .error _ => (.loop, answer .badTable parser 7 conn)
    | .ok tableId =>
        if tableId = studentTableId then (enter, [])
        else (.loop, answer .badTable parser 7 conn)

def processSharedRead (parser : JobBuf) (conn : ClientConn) : Point × List Event :=
  w.processRead (.sharedRead parser conn 0) parser conn

def processExclusiveRead (parser : JobBuf) (conn : ClientConn) : Point × List Event :=
  w.processRead (.exclusiveRead parser conn 0) parser conn

/-- The reply to a read that was granted `tuple`. -/
def answerRow (tuple : StudentTuple) (parser : JobBuf) (conn : ClientConn) : List Event :=
  let parser := parser.setKey tuple.key
  let buffer := (tuple.traitSerialize parser.buffer parser.getTupleOffset).2
  let parser : JobBuf := ⟨buffer, parser.getTupleOffset + StudentTuple.serialSize⟩
  answer .success parser parser.bufferSize conn

/-- One turn of the retry loop of `process_shared_read`. -/
def sharedReadTurn (running : Bool) (db : StudentTable) (parser : JobBuf) (conn : ClientConn)
    (timeoutCnt : Nat) : Option Turn :=
  if maxTimeoutRetry ≤ timeoutCnt then some ⟨w, .loop, db, answer .timeout parser 7 conn⟩
  else if !running then
    some ⟨{ w with status := .aborted }, .loop, db, answer .aborted parser 7 conn⟩
  else
    match db.traitWaitShared with
    | (.error _, db) => some ⟨w, .sharedRead parser conn (timeoutCnt + 1), db, []⟩
    | (.ok tuple, db) =>
        match w.lockList.addLock ⟨studentTableId, tuple.key⟩ .shared with
        | none => none
        | some (.none, lockList) =>
            some ⟨{ w with lockList := lockList }, .loop, db,
              .granted .shared tuple :: answerRow tuple parser conn⟩
        | some (_, lockList) =>
            -- no return here: the refused request is answered and popped once more
            some ⟨{ w with lockList := lockList }, .loop, db,
              .granted .shared tuple :: (answer .badAccess parser 7 conn ++
                answerRow tuple (parser.setAck .badAccess) conn)⟩

/-- One turn of the retry loop of `process_exclusive_read`. -/
def exclusiveReadTurn (running : Bool) (db : StudentTable) (parser : JobBuf) (conn : ClientConn)
    (timeoutCnt : Nat) : Option Turn :=
  if maxTimeoutRetry ≤ timeoutCnt then some ⟨w, .loop, db, answer .timeout parser 7 conn⟩
  else if !running then
    some ⟨{ w with status := .aborted }, .loop, db, answer .aborted parser 7 conn⟩
  else
    match db.traitWaitExclusive with
    | (.error _, db) => some ⟨w, .exclusiveRead parser conn (timeoutCnt + 1), db, []⟩
    | (.ok tuple, db) =>
        match w.lockList.addLock ⟨studentTableId, tuple.key⟩ .exclusive with
        | none => none
        | some (.none, lockList) =>
            some ⟨{ w with lockList := lockList }, .loop, db,
              .granted .exclusive tuple :: answerRow tuple parser conn⟩
        | some (_, lockList) =>
            some ⟨{ w with lockList := lockList }, .loop, db,
              .granted .exclusive tuple :: answer .badAccess parser 7 conn⟩

/-! ## Yield and promote -/

def processYield (db : StudentTable) (parser : JobBuf) (conn : ClientConn) :
    Option (Worker × StudentTable × List Event) :=
  if w.status ≠ .growing then some (w, db, answer .badPhase parser 7 conn)
  else
    match parser.getTbl with
    | .error _ => some (w, db, answer .badTable parser 7 conn)
    | .ok tableId =>
    match parser.getKey with
    | .error _ => some (w, db, answer .badTp parser 7 conn)
    | .ok tupleKey =>
        if w.lockList.holds ⟨tableId, tupleKey⟩ .shared then
          match w.lockList.rmLock ⟨tableId, tupleKey⟩ with
          | none => none
          | some lockList =>
              let w := { w with lockList := lockList }
              if tableId = studentTableId then
                match db.traitRelease tupleKey with
                | none => none
                | some db =>
                    some (w, db,
                      .released tupleKey :: answer .success parser parser.bufferSize conn)
              else some (w, db, answer .badTable parser 7 conn)
        else some (w, db, answer .badAccess parser 7 conn)

/-- The checks of `process_promote` before its retry loop. -/
def processPromote (parser : JobBuf) (conn : ClientConn) : Point × List Event :=
  if w.status ≠ .growing then (.loop, answer .badPhase parser 7 conn)
  else
    match parser.getTbl with
    | .error _ => (.loop, answer .badTable parser 7 conn)
    | .ok tableId =>
    match parser.getKey with
    | .error _ => (.loop, answer .badTp parser 7 conn)
    | .ok tupleKey =>
        if w.lockList.holds ⟨tableId, tupleKey⟩ .shared then
          if tableId = studentTableId then (.promote parser conn tupleKey 0, [])
          else (.loop, answer .badTable parser 7 conn)
        else (.loop, answer .badAccess parser 7 conn)

/-- One turn of the retry loop of `process_promote`. -/
def promoteTurn (running : Bool) (db : StudentTable) (parser : JobBuf) (conn : ClientConn)
    (tupleKey : TblRow) (timeoutCnt : Nat) : Option Turn :=
  if maxTimeoutRetry ≤ timeoutCnt then
    some ⟨{ w with status := .aborted }, .loop, db, answer .timeout parser 7 conn⟩
  else if !running then some ⟨w, .loop, db, answer .aborted parser 7 conn⟩
  else
    match db.traitPromote tupleKey with
    | none => none
    | some (.error _, db) => some ⟨w, .promote parser conn tupleKey (timeoutCnt + 1), db, []⟩
    | some (.ok (), db) =>
        match w.lockList.promoteLock ⟨studentTableId, tupleKey⟩ with
        | none => none
        | some lockList =>
            some ⟨{ w with lockList := lockList }, .loop, db,
              .promoted tupleKey :: answer .success parser parser.bufferSize conn⟩

/-! ## Commit and quit -/

/-- The phase check of `process_commit`. -/
def processCommit (parser : JobBuf) (conn : ClientConn) : Point × List Event :=
  if w.status ≠ .shrinking then (.release 0, answer .success parser 7 conn)
  else (.commit parser conn, [])

/-- The body of the drain loop of `process_commit`, with the entry that it sees. -/
def applyEntry (lockList : LockList) (db : StudentTable) (commit : Commit) :
    Option (LockList × StudentTable × List Event) :=
  match commit.op with
  | .addTuple =>
      if commit.key.tableId = studentTableId then
        match commit.buffer with
        | none => none
        | some buffer =>
            let newTuple := StudentTuple.copyFrom buffer
            match db.traitInsert newTuple with
            | none => none
            | some (_, db) => some (lockList, db, [.insert newTuple])
      else some (lockList, db, [])
  | .delete =>
      match lockList.rmLock commit.key with
      | none => none
      | some lockList =>
          if commit.key.tableId = studentTableId then
            match db.traitRemove commit.key.tupleKey with
            | none => none
            | some db => some (lockList, db, [.remove commit.key.tupleKey])
          else some (lockList, db, [])
  | .update =>
      if commit.key.tableId = studentTableId then
        match commit.buffer with
        | none => none
        | some buffer =>
            let newTuple := StudentTuple.copyFrom buffer
            match db.traitWrite newTuple with
            | none => none
            | some db => some (lockList, db, [.write newTuple])
      else some (lockList, db, [])
  | _ => some (lockList, db, [])

/-- One turn of the drain loop of `process_commit`, or its end. `commit` refers to the entry in a
temporary result of `commit_queue_.get()`, and the end of that statement destroys the temporary. -/
def commitTurn (db : StudentTable) (parser : JobBuf) (conn : ClientConn) : Option Turn :=
  if w.commitQueue.empty then
    some ⟨w, .release 0, db, answer .success parser parser.bufferSize conn⟩
  else
    match applyEntry w.lockList db w.commitQueue.get.destroyed with
    | none => none
    | some (lockList, db, out) =>
        some ⟨{ w with lockList := lockList, commitQueue := w.commitQueue.pop },
          .commit parser conn, db, out⟩

/-- Pop until the commit queue is empty. -/
def clearCommitQueue : Worker :=
  { w with commitQueue := CommitQueue.pop^[w.commitQueue.size.toNat] w.commitQueue }

/-- One turn of `worker_quit`: release the next lock of the list, or finish. -/
def releaseTurn (db : StudentTable) (idx : Nat) : Option Turn :=
  match w.lockList.advanceToValid idx with
  | none =>
      some ⟨{ w with lockList := w.lockList.clear }.clearCommitQueue, .ended, db,
        [.ret w.txnId]⟩
  | some i =>
      let key := (w.lockList.locks i).key
      if key.tableId = studentTableId then
        match db.traitRelease key.tupleKey with
        | none => none
        | some db => some ⟨w, .release (i.val + 1), db, [.released key.tupleKey]⟩
      else some ⟨w, .release (i.val + 1), db, []⟩

/-! ## The receive loop -/

/-- What `trait_start` does with a received job, up to the first retry or drain loop. -/
def dispatch (db : StudentTable) (job : Job) : Option Turn :=
  let parser := job.buf
  let conn := job.conn
  match parser.getOp with
  | .error _ => some ⟨w, .loop, db, answer .badOp parser 7 conn⟩
  | .ok .startTxn =>
      some ⟨w, .loop, db, answer .success (parser.setTxn w.txnId) 7 conn⟩
  | .ok .commitTxn =>
      let (point, out) := w.processCommit parser conn
      some ⟨w, point, db, out⟩
  | .ok .abortTxn => some ⟨w, .release 0, db, answer .success parser 7 conn⟩
  | .ok .addTuple =>
      let (w, out) := w.processAdd parser conn
      some ⟨w, .loop, db, out⟩
  | .ok .sharedRead =>
      let (point, out) := w.processSharedRead parser conn
      some ⟨w, point, db, out⟩
  | .ok .exclusiveRead =>
      let (point, out) := w.processExclusiveRead parser conn
      some ⟨w, point, db, out⟩
  | .ok .yieldRead =>
      match w.processYield db parser conn with
      | none => none
      | some (w, db, out) => some ⟨w, .loop, db, out⟩
  | .ok .promote =>
      let (point, out) := w.processPromote parser conn
      some ⟨w, point, db, out⟩
  | .ok .update =>
      let (w, out) := w.processUpdate parser conn
      some ⟨w, .loop, db, out⟩
  | .ok .delete =>
      let (w, out) := w.processRm parser conn
      some ⟨w, .loop, db, out⟩
  | .ok .maxOpValue => some ⟨w, .loop, db, answer .badOp parser 7 conn⟩

/-- `job_ch_.recv()` has returned a job. The timeout counter is reset before it is tested. -/
def received (db : StudentTable) (job : Job) : Option Turn :=
  let w := { w with timeoutCnt := 0 }
  if UInt8.ofNat maxTimeoutRetry ≤ w.timeoutCnt then some ⟨w, .release 0, db, []⟩
  else w.dispatch db job

end Worker

/-! ## Threads -/

/-- A worker thread: the worker, its running flag and where it stands. -/
structure WorkerThread where
  worker : Worker
  running : Bool
  point : Point

/-- A started thread. -/
def WorkerThread.init (txnId : TxnId) : WorkerThread := ⟨Worker.init txnId, true, .loop⟩

/-- What can happen to a thread. -/
inductive Act
  /-- The wait for a job ends with a job. -/
  | recv (job : Job)
  /-- The wait for a job times out. -/
  | recvTimeout
  /-- The next turn of the thread. -/
  | resume
  /-- Its running flag is cleared. -/
  | stop

namespace WorkerThread

/-- Take over the outcome of a turn. -/
def after (th : WorkerThread) (t : Turn) : WorkerThread × StudentTable × List Event :=
  ({ th with worker := t.worker, point := t.point }, t.db, t.out)

/-- The next turn of a thread that is not waiting for a job. -/
def resume (th : WorkerThread) (db : StudentTable) : Option Turn :=
  match th.point with
  | .loop => some ⟨th.worker, if th.running then .recv else .release 0, db, []⟩
  | .recv => none
  | .sharedRead parser conn cnt => th.worker.sharedReadTurn th.running db parser conn cnt
  | .exclusiveRead parser conn cnt => th.worker.exclusiveReadTurn th.running db parser conn cnt
  | .promote parser conn key cnt => th.worker.promoteTurn th.running db parser conn key cnt
  | .commit parser conn => th.worker.commitTurn db parser conn
  | .release idx => th.worker.releaseTurn db idx
  | .ended => none

/-- One step of a thread on the table. -/
def step (th : WorkerThread) (db : StudentTable) :
    Act → Option (WorkerThread × StudentTable × List Event)
  | .recv job =>
      match th.point with
      | .recv => (th.worker.received db job).map th.after
      | _ => none
  | .recvTimeout =>
      match th.point with
      | .recv =>
          some ({ th with
            worker := { th.worker with timeoutCnt := th.worker.timeoutCnt + 1 }
            point := .loop }, db, [])
      | _ => none
  | .resume => (th.resume db).map th.after
  | .stop => some ({ th with running := false }, db, [])

end WorkerThread

end PawnDB
