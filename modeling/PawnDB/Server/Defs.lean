import PawnDB.Server.ThreadManager
import PawnDB.System.Defs
import PawnDB.Worker.Settled

set_option autoImplicit false

/-! # The server

The thread manager, the worker threads that it starts and the student table that they share. The
manager sees of a worker thread only what `ThreadPoint` tells; here every thread has its `Worker`
and the `Point` where it stands, it takes its jobs from the channel of its context, and its turns
are those of `WorkerThread.step`.

A step of the server is a turn of the manager or of one worker, so runs are the interleavings of
all threads from the first datagram to the end. A wait for a job ends without one only when the
channel is empty.
-/

namespace PawnDB

/-- What the manager sees of a thread that stands at this point. -/
def Point.view : Point → ThreadPoint
  | .loop => .loop
  | .recv => .recv
  | .sharedRead parser conn _ => .handling ⟨parser, conn⟩
  | .exclusiveRead parser conn _ => .handling ⟨parser, conn⟩
  | .promote parser conn _ _ => .handling ⟨parser, conn⟩
  | .commit parser conn => .handling ⟨parser, conn⟩
  | .release _ => .loop
  | .ended => .ended

/-- A worker object and where its thread stands. -/
structure Body where
  worker : Worker
  point : Point

/-- The lambda of `WorkerContext::trait_start`. -/
def Body.init (txnId : TxnId) : Body := ⟨Worker.init txnId, .loop⟩

structure Server where
  manager : ThreadManager
  students : StudentTable
  /-- The last worker of every slot. -/
  bodies : Fin maxTransactions → Body

/-- What can happen to a worker. -/
inductive WorkerAct
  | recv | recvTimeout | resume
  deriving DecidableEq

inductive ServerAct
  /-- `trait_start` is called. -/
  | start
  /-- `trait_stop` is called. -/
  | stop
  | datagram (job : Job)
  /-- The main loop finds the flag cleared, or the socket shut down. -/
  | shutdown
  /-- The manager's next turn. -/
  | resume
  | worker (idx : Fin maxTransactions) (a : WorkerAct)

/-- The turn of the manager that a step is. -/
def ServerAct.toManager : ServerAct → Option ManagerAct
  | .start => some .start
  | .stop => some .stop
  | .datagram job => some (.datagram job)
  | .shutdown => some .shutdown
  | .resume => some .resume
  | .worker _ _ => none

inductive ServerEvent
  | manager (e : ManagerEvent)
  /-- An event of a worker; a reply goes to the server socket. -/
  | worker (idx : Fin maxTransactions) (fdOpen : Bool) (e : Event)

/-- What `job_ch_.recv()` returns is the oldest job of the channel. -/
def WorkerAct.act (jobCh : JobChannel) : WorkerAct → Option Act
  | .recv =>
      match jobCh.get with
      | .ok (some job) => some (.recv job)
      | _ => none
  | .recvTimeout => if jobCh.empty then some .recvTimeout else none
  | .resume => some .resume

/-- The context after a turn of its thread. -/
def WorkerContext.after (c : WorkerContext) (th : Thread) (point : Point) (out : List Event) :
    WorkerContext :=
  { c.goTo th point.view with jobCh := JobChannel.pop^[popsOf out] c.jobCh }

/-- The reports among the events of a worker. -/
def RetChannel.after (q : RetChannel) : Event → RetChannel
  | .ret txnId => q.send txnId
  | _ => q

/-- A worker that is started is a new one. -/
def launch (bodies : Fin maxTransactions → Body) : ManagerEvent → Fin maxTransactions → Body
  | .started idx txnId _ => Slots.set bodies idx (Body.init txnId)
  | _ => bodies

namespace Server

/-- A server that is not started, with the table that it is to serve. -/
def init (students : StudentTable) : Server :=
  ⟨ThreadManager.init, students, fun _ => Body.init 0⟩

variable (s : Server)

/-- The worker thread of a slot, with the running flag of its context. -/
def thread (idx : Fin maxTransactions) : WorkerThread :=
  ⟨(s.bodies idx).worker, (s.manager.workers.context idx).running, (s.bodies idx).point⟩

/-- A turn of the manager. -/
def manage (a : ManagerAct) : Option (Server × List ServerEvent) :=
  match s.manager.step a with
  | none => none
  | some (m, out) => some (⟨m, s.students, out.foldl launch s.bodies⟩, out.map .manager)

/-- The server after a turn of the worker of a slot. -/
def worked (idx : Fin maxTransactions) (th : Thread) (wt : WorkerThread) (students : StudentTable)
    (out : List Event) : Server where
  manager := { s.manager with
    workers := s.manager.workers.setContext idx
      ((s.manager.workers.context idx).after th wt.point out)
    retCh := out.foldl RetChannel.after s.manager.retCh }
  students := students
  bodies := Slots.set s.bodies idx ⟨wt.worker, wt.point⟩

/-- A turn of a worker. -/
def work (idx : Fin maxTransactions) (a : WorkerAct) : Option (Server × List ServerEvent) :=
  let c := s.manager.workers.context idx
  match c.thread, a.act c.jobCh with
  | some th, some act =>
      match (s.thread idx).step s.students act with
      | none => none
      | some (wt, students, out) =>
          some (s.worked idx th wt students out, out.map (.worker idx s.manager.fdOpen))
  | _, _ => none

def step (s : Server) (a : ServerAct) : Option (Server × List ServerEvent) :=
  match a with
  | .worker idx b => s.work idx b
  | _ => a.toManager.bind s.manage

def machine : Machine Server ServerAct ServerEvent := ⟨step⟩

end Server

end PawnDB
