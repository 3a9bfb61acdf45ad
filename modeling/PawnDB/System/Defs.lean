import PawnDB.Worker.Defs

set_option autoImplicit false

/-! # Workers on one table

Any number of worker threads share one student table. A step of the system is a step of one
thread, so runs are the interleavings of the threads' turns. A turn that does not end is no
step: the thread stays where it is. The table that the threads find may have rows already.
-/

namespace PawnDB

/-- The student table and the worker threads. -/
structure System (ι : Type) where
  students : StudentTable
  threads : ι → WorkerThread

namespace System

variable {ι : Type}

/-- A table and started threads. -/
def init (students : StudentTable) (txnIds : ι → TxnId) : System ι :=
  ⟨students, fun i => WorkerThread.init (txnIds i)⟩

variable [DecidableEq ι]

/-- A step of thread `a.1`. -/
def step (s : System ι) (a : ι × Act) : Option (System ι × List Event) :=
  match (s.threads a.1).step s.students a.2 with
  | none => none
  | some (th, db, out) => some (⟨db, Slots.set s.threads a.1 th⟩, out)

/-- Two or three threads are enough for the examples. -/
instance neZero_two : NeZero 2 := ⟨by decide⟩

instance neZero_three : NeZero 3 := ⟨by decide⟩

/-- The system as a machine. -/
abbrev machine (ι : Type) [DecidableEq ι] : Machine (System ι) (ι × Act) Event := ⟨step⟩

/-- Thread `i` takes up a job and then makes `turns` turns. -/
def handle (i : ι) (job : Job) (turns : Nat) : List (ι × Act) :=
  (i, .resume) :: (i, .recv job) :: List.replicate turns (i, .resume)

end System

end PawnDB
