import PawnDB.System.Locks
import PawnDB.Worker.Queued

set_option autoImplicit false

/-! # Checksums of stored rows

A tuple carries a checksum of its name and age. It comes from the client with the rest of the
tuple and is put into the commit queue; `trait_deserialize` reports no error and nothing else
looks at it, so a request is queued with whatever checksum it has.

A request with a wrong checksum is therefore refused only if it fails another check of its
handler (`validRows_iff`), and otherwise it is acknowledged and queued (`not_always_validRows`).
The rows that are in the table stay as they are.
-/

namespace PawnDB

open StudentTable

/-- Every live row has a valid checksum. -/
def StudentTable.ValidRows (t : StudentTable) : Prop :=
  ∀ i, t.live i = true → (t.table i).tuple.traitValChecksum = true

/-- The request does not pass the other checks of its handler with a checksum that does not
match its name and age. -/
def Worker.Checked (w : Worker) (job : Job) : Prop :=
  ∀ op, job.buf.getOp = .ok op → op = .addTuple ∨ op = .update →
    (w.target op job.buf).isSome = true →
      (Worker.tupleOf job.buf).traitValChecksum = true

instance (t : StudentTable) : Decidable t.ValidRows := by
  unfold StudentTable.ValidRows
  infer_instance

instance (w : Worker) (job : Job) : Decidable (w.Checked job) :=
  decidable_of_iff (∀ op ∈ [OpType.addTuple, .update], job.buf.getOp = .ok op →
      (w.target op job.buf).isSome = true → (Worker.tupleOf job.buf).traitValChecksum = true)
    ⟨fun h op hop hwr => h op (by rcases hwr with rfl | rfl <;> decide) hop,
      fun h op hmem hop => h op hop (by simpa using hmem)⟩

/-! ## What a step keeps -/

namespace StudentTable.ValidRows

variable {t t' : StudentTable} {i : Fin rows}

theorem relocked {l : LkT} (h : t.ValidRows) (hr : Relocked t i l t') : t'.ValidRows := by
  intro j hj
  rw [hr.tuple]
  exact h j (by rwa [hr.live] at hj)

theorem removed (h : t.ValidRows) (hr : Removed t i t') : t'.ValidRows := by
  intro j hj
  rw [hr.tuple]
  exact h j (by rwa [hr.live_of_ne (hr.ne_of_live hj)] at hj)

end StudentTable.ValidRows

variable {w w' : Worker} {p p' : Point} {db db' : StudentTable} {a : Act} {out : List Event}

/-- No step stores a tuple. -/
theorem Effect.validRows (h : Effect w p db a w' p' db' out) (hr : db.ValidRows) :
    db'.ValidRows := by
  cases h.tableStep with
  | none => exact hr
  | relocked hrel => exact hr.relocked hrel
  | removed _ _ hrm => exact hr.removed hrm

namespace System

variable {ι : Type} [DecidableEq ι]

/-- The step handles no request with a wrong checksum that passes the other checks. -/
def Checked (e : Entry (System ι) (ι × Act) Event) : Prop :=
  match e.act.2 with
  | .recv job => (e.pre.threads e.act.1).worker.Checked job
  | _ => True

/-- A request to add or update a tuple that has a wrong checksum is refused: it is not queued,
and no reply says that it succeeded. -/
def RefusesBad (e : Entry (System ι) (ι × Act) Event) : Prop :=
  match e.act.2 with
  | .recv job => ∀ op, job.buf.getOp = .ok op → op = .addTuple ∨ op = .update →
      (Worker.tupleOf job.buf).traitValChecksum = false →
      (e.post.threads e.act.1).worker.commitQueue = (e.pre.threads e.act.1).worker.commitQueue ∧
        ∀ r, .reply r ∈ e.out → r.ack ≠ .success
  | _ => True

instance (e : Entry (System ι) (ι × Act) Event) : Decidable (Checked e) :=
  match e with
  | ⟨pre, (i, .recv job), _, _⟩ =>
      inferInstanceAs (Decidable ((pre.threads i).worker.Checked job))
  | ⟨_, (_, .recvTimeout), _, _⟩ => inferInstanceAs (Decidable True)
  | ⟨_, (_, .resume), _, _⟩ => inferInstanceAs (Decidable True)
  | ⟨_, (_, .stop), _, _⟩ => inferInstanceAs (Decidable True)

variable {s s' : System ι} {act : ι × Act}

/-- **A bad request is refused exactly if another check refuses it.** -/
theorem refusesBad_iff (h : s.step act = some (s', out)) :
    RefusesBad ⟨s, act, out, s'⟩ ↔ Checked ⟨s, act, out, s'⟩ := by
  obtain ⟨i, a⟩ := act
  cases a with
  | recvTimeout | resume | stop => exact Iff.rfl
  | recv job =>
      obtain ⟨th, hth, hs'⟩ := step_eq h
      have hpost : s'.threads i = th := by rw [hs', Slots.set_self]
      have hwrote : ∀ op, job.buf.getOp = .ok op → op = .addTuple ∨ op = .update →
          (s.threads i).worker.Wrote op job th.worker out := fun op hop hwr =>
        (WorkerThread.step_wrote hth hop (hwr.imp_right Or.inl)).1
      -- a reply with `SUCCESS` goes out whenever the request has a target
      have hsuccess : ∀ {ack : OpAck} {parser : JobBuf} {size : Nat} {conn : ClientConn} {r},
          .reply r ∈ answer ack parser size conn → r.ack = ack := fun hr => by
        simp only [answer, reply, List.mem_cons, List.not_mem_nil, or_false, reduceCtorEq] at hr
        rw [Event.reply.inj hr]
      constructor
      · intro href op hop hwr htarget
        by_contra hbad
        obtain ⟨-, hno⟩ := href op hop hwr (by simpa using hbad)
        cases hwrote op hop hwr with
        | rejected ack _ hnone =>
            rw [hnone] at htarget
            cases htarget
        | lost key size parser => exact hno _ List.mem_cons_self rfl
        | full key _ _ _ hdel =>
            rw [hdel] at hwr
            rcases hwr with hwr | hwr <;> cases hwr
        | queued key size => exact hno _ List.mem_cons_self rfl
      · intro hchk op hop hwr hbad
        have hnone : (s.threads i).worker.target op job.buf = none := by
          rw [← Option.not_isSome_iff_eq_none]
          intro hsome
          rw [hchk op hop hwr hsome] at hbad
          cases hbad
        dsimp only
        rw [hpost]
        cases hwrote op hop hwr with
        | rejected ack _ _ hack _ hq =>
            refine ⟨hq, fun r hr => ?_⟩
            rw [hsuccess hr]
            exact hack
        | lost key _ _ _ ht => rw [hnone] at ht; cases ht
        | full key _ ht => rw [hnone] at ht; cases ht
        | queued key _ _ ht => rw [hnone] at ht; cases ht

theorem validRows_of_run {db : StudentTable} {txnIds : ι → TxnId}
    {h : List (Entry (System ι) (ι × Act) Event)} {s : System ι} (hdb : db.ValidRows)
    (hr : (machine ι).Run (init db txnIds) h s) : s.students.ValidRows := by
  refine hr.invariant (P := fun _ t => t.students.ValidRows) hdb ?_
  intro k u a out v hk ih hs
  obtain ⟨th, hth, -⟩ := step_eq hs
  exact (WorkerThread.step_effect (threads_of_run hk a.1) hth).validRows ih

/-- **Rows stay valid, and bad requests are refused, exactly in those runs in which no request
with a wrong checksum passes the other checks of its handler.** -/
theorem validRows_iff {db : StudentTable} (hdb : db.ValidRows) {txnIds : ι → TxnId}
    {h : List (Entry (System ι) (ι × Act) Event)} {s : System ι}
    (hr : (machine ι).Run (init db txnIds) h s) :
    (∀ e ∈ h, e.post.students.ValidRows ∧ RefusesBad e) ↔ ∀ e ∈ h, Checked e := by
  have hall : ∀ e ∈ h, e.post.students.ValidRows ∧ (RefusesBad e ↔ Checked e) := fun e he => by
    obtain ⟨k, l, -, hk, hstep, -⟩ := hr.split he
    exact ⟨validRows_of_run hdb (hk.snoc hstep), refusesBad_iff hstep⟩
  constructor
  · intro hrefuses e he
    exact (hall e he).2.mp (hrefuses e he).2
  · intro hc e he
    exact ⟨(hall e he).1, (hall e he).2.mpr (hc e he)⟩

/-- A name of thirty-two `x` with an age and the low byte of a checksum. -/
def student (age checksum : UInt8) : List UInt8 :=
  List.replicate 32 120 ++ [age, checksum, 15, 0, 0]

/-- The row of thirty-two `x` of age `5`. -/
def xTuple : StudentTuple := Worker.tupleOf (Job.request .addTuple 1 0 (student 5 5)).buf

/-- A worker reads the only row and changes its age. -/
def readAndUpdate : List (Fin 2 × Act) :=
  handle 1 (.request .exclusiveRead 1 0 []) 1 ++ handle 1 (.request .update 1 0 (student 0 0)) 0

theorem validRows_iff_update : ∃ h s,
    (machine (Fin 2)).Run (init (ofTuples [xTuple]) fun _ => 0) h s ∧
    s.students.traitEmpty = false ∧
    ((∀ e ∈ h, e.post.students.ValidRows ∧ RefusesBad e) ↔ ∀ e ∈ h, Checked e) ∧
    ∀ e ∈ h, e.post.students.ValidRows := by
  obtain ⟨h, s, hr, hp⟩ := Machine.exists_run_of_exec (M := machine (Fin 2))
    (s := init (ofTuples [xTuple]) fun _ => 0)
    (p := fun h s => decide (s.students.traitEmpty = false ∧ (ofTuples [xTuple]).ValidRows ∧
      (s.threads 1).worker.commitQueue.empty = false ∧ ∀ e ∈ h, Checked e))
    (show ((machine (Fin 2)).exec _ readAndUpdate).map _ = some true by decide +kernel)
  obtain ⟨hne, hdb, -, hc⟩ := of_decide_eq_true hp
  have hiff := validRows_iff hdb hr
  exact ⟨h, s, hr, hne, hiff, fun e he => (hiff.mpr hc e he).1⟩

/-- On the empty database a tuple with a wrong checksum is acknowledged and queued. -/
theorem not_always_validRows : ¬ ∀ (txnIds : Fin 2 → TxnId)
    (h : List (Entry (System (Fin 2)) (Fin 2 × Act) Event)) (s : System (Fin 2)),
    (machine (Fin 2)).Run (init StudentTable.init txnIds) h s →
      ∀ e ∈ h, e.post.students.ValidRows ∧ RefusesBad e := by
  intro hall
  obtain ⟨h, s, hr, hp⟩ := Machine.exists_run_of_exec (M := machine (Fin 2))
    (s := init StudentTable.init fun _ => 0) (p := fun h _ => decide (¬ ∀ e ∈ h, Checked e))
    (show ((machine (Fin 2)).exec _ (handle 0 (.request .addTuple 1 0 (student 5 6)) 0)).map _
      = some true by decide +kernel)
  refine of_decide_eq_true hp fun e he => ?_
  obtain ⟨k, l, -, -, hstep, -⟩ := hr.split he
  exact (refusesBad_iff hstep).mp (hall _ h s hr e he).2

end System

end PawnDB
