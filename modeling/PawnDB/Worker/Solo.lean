import PawnDB.Lib.Machine
import PawnDB.System.Locks
import PawnDB.Worker.Queued

set_option autoImplicit false

/-! # One worker in any environment

What one thread does, whatever becomes of the table between its turns: a step is one of the
thread's own or the table changes arbitrarily. Every thread of a system is such a thread
(`System.solo_of_run`), so what holds in all these runs holds of every worker in every
interleaving.
-/

namespace PawnDB

/-- A worker thread and the table it finds. -/
structure Solo where
  thread : WorkerThread
  students : StudentTable

inductive SoloAct
  | own (a : Act)
  | env (students : StudentTable)

def SoloAct.isOwn : SoloAct → Bool
  | .own _ => true
  | .env _ => false

namespace Solo

def init (txnId : TxnId) (students : StudentTable) : Solo := ⟨WorkerThread.init txnId, students⟩

def step (s : Solo) : SoloAct → Option (Solo × List Event)
  | .own a => (s.thread.step s.students a).map fun r => (⟨r.1, r.2.1⟩, r.2.2)
  | .env students => some ({ s with students := students }, [])

abbrev machine : Machine Solo SoloAct Event := ⟨step⟩

variable {s s' : Solo} {a : Act} {out : List Event}

theorem step_own (h : s.step (.own a) = some (s', out)) :
    s.thread.step s.students a = some (s'.thread, s'.students, out) := by
  obtain ⟨r, hr, heq⟩ := Option.map_eq_some_iff.mp h
  cases heq
  exact hr

/-- The acts of a thread that receives a job and then makes some turns. -/
def handle (job : Job) (turns : Nat) : List SoloAct :=
  .own .resume :: .own (.recv job) :: List.replicate turns (.own .resume)

/-- A table with one row, which has key `0`. -/
def oneRow : StudentTable := .ofTuples [.empty]

/-- The thread of a run is well-formed throughout. -/
theorem wf_of_run {s₀ : Solo} {h : List (Entry Solo SoloAct Event)}
    (hr : machine.Run s₀ h s) (h0 : s₀.thread.worker.Wf s₀.thread.point) :
    s.thread.worker.Wf s.thread.point := by
  refine hr.invariant (P := fun _ t => t.thread.worker.Wf t.thread.point) h0 ?_
  intro k u a out v _ ih hs
  cases a with
  | own a => exact (WorkerThread.step_effect ih (step_own hs)).wf ih
  | env students =>
      cases hs
      exact ih

end Solo

namespace System

variable {ι : Type} [DecidableEq ι]

/-- The steps of one thread in a history: what it did and what came of it. -/
def stepsOf (i : ι) (h : List (Entry (System ι) (ι × Act) Event)) : List (Act × List Event) :=
  h.filterMap fun e => if e.act.1 = i then some (e.act.2, e.out) else none

end System

/-- The thread's own steps in a history. -/
def Solo.ownSteps (h : List (Entry Solo SoloAct Event)) : List (Act × List Event) :=
  h.filterMap fun e =>
    match e.act with
    | .own a => some (a, e.out)
    | .env _ => none

/-- **Every thread of a system is a thread in some environment.** -/
theorem System.solo_of_run {ι : Type} [DecidableEq ι] {db : StudentTable} {txnIds : ι → TxnId}
    {h : List (Entry (System ι) (ι × Act) Event)} {s : System ι}
    (hr : (System.machine ι).Run (System.init db txnIds) h s) (i : ι) :
    ∃ k, Solo.machine.Run (Solo.init (txnIds i) db) k
        ⟨s.threads i, s.students⟩ ∧ Solo.ownSteps k = System.stepsOf i h := by
  refine hr.invariant (P := fun l t => ∃ k, Solo.machine.Run (Solo.init _ _) k
    ⟨t.threads i, t.students⟩ ∧ Solo.ownSteps k = System.stepsOf i l)
    ⟨[], Machine.Run.nil _, rfl⟩ ?_
  rintro l u a out v - ⟨k, hk, hsteps⟩ hs
  obtain ⟨th, hth, hv⟩ := System.step_eq hs
  by_cases hi : i = a.1
  · subst hi
    refine ⟨_, hk.snoc (a := .own a.2) (?_ : Solo.step _ _ = some (_, out)), ?_⟩
    · rw [Solo.step, hth, hv, Slots.set_self]
      rfl
    · simp only [Solo.ownSteps, System.stepsOf, List.filterMap_append] at hsteps ⊢
      rw [hsteps]
      simp
  · refine ⟨_, hk.snoc (a := .env v.students) (?_ : Solo.step _ _ = some (_, [])), ?_⟩
    · rw [Solo.step, hv, Slots.set_of_ne _ _ hi]
    · simp only [Solo.ownSteps, System.stepsOf, List.filterMap_append] at hsteps ⊢
      rw [hsteps]
      simp [Ne.symm hi]

end PawnDB
