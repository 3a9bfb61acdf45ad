import PawnDB.Lib.TwoPhaseLocking
import PawnDB.System.Growing
import PawnDB.System.Visibility
import PawnDB.Table.FiniteMap
import Mathlib.Data.List.Enum

set_option autoImplicit false

/-! # The log of a run

What a transaction learns of the table and does to it are accesses to its tuples: a read that is
granted a row reads the tuple that is stored under its key, and a commit removes tuples; it never
comes to create or to write one. `System.log` is the list of all accesses of a run, each with its
time and its thread.

The table is the outcome of its log: carried out on the tuples that the run began with, every
access of the log is possible, so every read finds the tuple that it returned, and it leads to
the tuples that the table has at the end (`System.play_log`).
-/

namespace PawnDB

open StudentTable Serial TwoPhaseLocking

/-- The access that an event stands for, on a table whose next key is `nextKey`. -/
def Event.access (nextKey : TblRow) : Event → Option (Access TblRow StudentTuple)
  | .granted _ tuple => some (.read tuple.key tuple)
  | .insert tuple => some (.create nextKey { tuple with key := nextKey })
  | .write tuple => some (.write tuple.key tuple)
  | .remove key => some (.remove key)
  | _ => none

/-- The accesses that a step made of the table `db`. -/
def accesses (db : StudentTable) (out : List Event) : List (Access TblRow StudentTuple) :=
  out.filterMap (Event.access db.nextKey)

theorem Plain.accesses {out : List Event} (h : Plain out) (db : StudentTable) :
    accesses db out = [] := by
  refine List.filterMap_eq_nil_iff.mpr fun e he => ?_
  have := h e he
  cases e <;> first | rfl | cases this

theorem Plain.accesses_cons {out : List Event} (h : Plain out) (db : StudentTable) (e : Event) :
    PawnDB.accesses db (e :: out) = (e.access db.nextKey).toList := by
  have hrest := h.accesses db
  unfold PawnDB.accesses at hrest ⊢
  cases he : e.access db.nextKey with
  | none => rw [List.filterMap_cons_none he, hrest]; rfl
  | some a => rw [List.filterMap_cons_some he, hrest]; rfl

/-- The access of a step and what the step does to the table: at most one access, to a live
row. -/
inductive Accessed (db : StudentTable) :
    StudentTable → List (Access TblRow StudentTuple) → Prop
  | none {db' : StudentTable} : LockOnly db db' → Accessed db db' []
  | read {i : Fin rows} {tuple : StudentTuple} {db' : StudentTable} :
      db.IsRow tuple.key i → (db.table i).tuple = tuple → LockOnly db db' →
      Accessed db db' [.read tuple.key tuple]
  | remove {i : Fin rows} {key : TblRow} {db' : StudentTable} :
      db.IsRow key i → Removed db i db' → Accessed db db' [.remove key]

section

variable {w w' : Worker} {p p' : Point} {db db' : StudentTable} {a : Act} {out : List Event}

/-- **A step makes at most one access**, if the row that it removes is live. -/
theorem Effect.accessed (h : Effect w p db a w' p' db' out) (ht : db.Wf)
    (hrow : ∀ key, .remove key ∈ out → ∃ i, db.IsRow key i) :
    Accessed db db' (accesses db out) := by
  have hquiet : ∀ {o : List Event}, Plain o → Accessed db db (accesses db o) := fun ho => by
    rw [ho.accesses]
    exact .none (Or.inl rfl)
  have hgranted : ∀ {type : LockType} {tuple : StudentTuple} {i : Fin rows} {l : LkT}
      {o : List Event}, db.live i = true → (db.table i).tuple = tuple → Relocked db i l db' →
      Plain o → Accessed db db' (accesses db (.granted type tuple :: o)) :=
    fun hlive htuple hrel ho => by
      rw [ho.accesses_cons]
      exact .read ⟨hlive, by rw [← htuple]; rfl⟩ htuple (Or.inr ⟨_, _, hrel⟩)
  have hlock : ∀ {e : Event} {o : List Event}, e.access db.nextKey = none → Plain o →
      LockOnly db db' → Accessed db db' (accesses db (e :: o)) := fun he ho hl => by
    rw [ho.accesses_cons, he]
    exact .none hl
  cases h with
  | stop => exact hquiet plain_nil
  | move _ _ _ _ _ _ _ ho => exact hquiet ho
  | phase _ _ _ _ ho => exact hquiet ho
  | queue _ _ _ _ _ _ _ _ ho => exact hquiet ho
  | finish _ _ _ _ _ _ ho => exact hquiet ho
  | grantShared _ _ hwait _ _ ho =>
      obtain ⟨i, hlive, -, htuple, hrel⟩ := traitWaitShared_ok hwait
      exact hgranted hlive htuple hrel ho
  | grantExclusive _ _ hwait _ _ ho =>
      obtain ⟨i, hlive, -, htuple, hrel⟩ := traitWaitExclusive_ok hwait
      exact hgranted hlive htuple hrel ho
  | refuseShared _ _ hwait _ ho =>
      obtain ⟨i, hlive, -, htuple, hrel⟩ := traitWaitShared_ok hwait
      exact hgranted hlive htuple hrel ho
  | refuseExclusive _ _ hwait _ ho =>
      obtain ⟨i, hlive, -, htuple, hrel⟩ := traitWaitExclusive_ok hwait
      exact hgranted hlive htuple hrel ho
  | yield _ _ _ _ hrelease _ _ _ ho => exact hlock rfl ho (LockOnly.release hrelease)
  | promote _ _ _ _ hprom _ ho => exact hlock rfl ho (LockOnly.promote hprom)
  | free _ _ _ hrelease => exact hlock rfl plain_nil (LockOnly.release hrelease)
  | remove _ _ _ _ _ hremove =>
      rw [plain_nil.accesses_cons]
      obtain ⟨q, hq⟩ := hrow _ (List.mem_singleton_self _)
      obtain ⟨i, hi, hrm⟩ := traitRemove_some hremove
      rw [isRow_of_seekKey ht hq hi] at hrm
      exact .remove hq hrm

variable {L : List (Access TblRow StudentTuple)}

theorem Accessed.length_le (h : Accessed db db' L) : L.length ≤ 1 := by
  cases h <;> simp

theorem LockOnly.tuples (h : LockOnly db db') (ht : db.Wf) : db'.tuples = db.tuples :=
  ((Represents.of_wf ht).lockOnly h).tuples_eq (h.wf ht)

/-- **What a step does to the table its access does to the tuples.** -/
theorem Accessed.play (h : Accessed db db' L) (ht : db.Wf) :
    play Access.act db.tuples L = some db'.tuples := by
  cases h with
  | none hl => rw [hl.tuples ht]; rfl
  | @read i tuple _ hrow htuple hl =>
      have hfound := (tuples_eq_some_iff ht).mpr ⟨i, hrow, htuple⟩
      rw [hl.tuples ht, play_cons, Access.act, Access.onItem, Access.item, if_pos hfound]
      simp only [Option.map_some, Option.bind_some, play_nil]
      rw [Slots.set_eq_update, Function.update_eq_self]
  | @remove i key _ hrow hrm =>
      have hm := Represents.of_wf ht
      rw [(hm.removed ht hrow hrm).tuples_eq (hrm.wf ht hrow.1), play_cons, Access.act,
        Access.onItem, Access.item, if_pos (hm.isSome_iff.mpr ⟨i, hrow⟩)]
      rfl

end

namespace System

variable {ι : Type} [DecidableEq ι]

/-- A row that a step removes is live, and the thread, which is in its commit, has the exclusive
lock on it. -/
theorem removes_of_run [Fintype ι] {db : StudentTable} (hdb : db.AtRest) {txnIds : ι → TxnId}
    {h : List (Entry (System ι) (ι × Act) Event)} {s s' : System ι} {a : ι × Act}
    {out : List Event} (hr : (machine ι).Run (init db txnIds) h s)
    (hs : s.step a = some (s', out)) {key : TblRow} (he : .remove key ∈ out) :
    (s.threads a.1).point.isCommit = true ∧
      0 < (s.threads a.1).worker.heldAt (s.threads a.1).point .exclusive key ∧
      ∃ i, s.students.IsRow key i := by
  have hinv := inv_of_run hdb hr
  obtain ⟨th, hth, -⟩ := step_eq hs
  obtain ⟨hp, hpos⟩ := (WorkerThread.step_effect (hinv.thread a.1) hth).removes_locked
    (hinv.thread a.1) (hinv.owned a.1) he
  exact ⟨hp, hpos, hinv.coupled.isRow_of_held (hpos.trans_le (s.heldAt_le_held a.1 _ key))⟩

/-! ## The log -/

/-- The accesses of the step that a run made at time `t`. -/
def stamp (t : Nat) (e : Entry (System ι) (ι × Act) Event) :
    List (Stamped ι TblRow StudentTuple) :=
  (accesses e.pre.students e.out).map fun a => ⟨t, e.act.1, a⟩

/-- The accesses of a run. -/
def log (h : List (Entry (System ι) (ι × Act) Event)) : List (Stamped ι TblRow StudentTuple) :=
  h.zipIdx.flatMap fun p => stamp p.2 p.1

omit [DecidableEq ι] in
theorem log_snoc (h : List (Entry (System ι) (ι × Act) Event))
    (e : Entry (System ι) (ι × Act) Event) : log (h ++ [e]) = log h ++ stamp h.length e := by
  simp [log, List.zipIdx_append]

omit [DecidableEq ι] in
theorem mem_log {h : List (Entry (System ι) (ι × Act) Event)}
    {a : Stamped ι TblRow StudentTuple} (ha : a ∈ log h) :
    ∃ ht : a.time < h.length, a.owner = h[a.time].act.1 ∧
      a.access ∈ accesses h[a.time].pre.students h[a.time].out := by
  obtain ⟨⟨e, t⟩, hmem, ha⟩ := List.mem_flatMap.mp ha
  obtain ⟨ht, he⟩ := List.getElem?_eq_some_iff.mp (List.mem_zipIdx_iff_getElem?.mp hmem)
  dsimp only at ha he
  rw [← he] at ha
  obtain ⟨b, hb, rfl⟩ := List.mem_map.mp ha
  exact ⟨ht, rfl, hb⟩

/-- The access of a step of a run. -/
theorem accessed_of_run [Fintype ι] {db : StudentTable} (hdb : db.AtRest) {txnIds : ι → TxnId}
    {h : List (Entry (System ι) (ι × Act) Event)} {s s' : System ι} {a : ι × Act}
    {out : List Event} (hr : (machine ι).Run (init db txnIds) h s)
    (hs : s.step a = some (s', out)) :
    Accessed s.students s'.students (accesses s.students out) := by
  have hinv := inv_of_run hdb hr
  obtain ⟨th, hth, -⟩ := step_eq hs
  exact (WorkerThread.step_effect (hinv.thread a.1) hth).accessed hinv.coupled.table
    fun key he => (removes_of_run hdb hr hs he).2.2

/-- **The table is the outcome of the log of the run.** Every access of the log finds what it
needs: a read finds the tuple it returned, and a tuple that is removed is there. -/
theorem play_log [Fintype ι] {db : StudentTable} (hdb : db.AtRest) {txnIds : ι → TxnId}
    {h : List (Entry (System ι) (ι × Act) Event)} {s : System ι}
    (hr : (machine ι).Run (init db txnIds) h s) :
    play act db.tuples (log h) = some s.students.tuples := by
  refine hr.invariant (P := fun k t => play act db.tuples (log k) = some t.students.tuples) rfl ?_
  intro k u a out v hk ih hs
  have hstep := (accessed_of_run hdb hk hs).play (inv_of_run hdb hk).coupled.table
  rw [log_snoc, play_append, ih, Option.bind_some, stamp, ← hstep, play, play, List.foldlM_map]
  rfl

end System

end PawnDB
