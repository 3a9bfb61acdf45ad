import PawnDB.System.Locks
import PawnDB.Worker.Queued

set_option autoImplicit false

/-! # A commit writes the rows it has locked

The drain loop applies a delete and no other entry: for the others it reads the buffer of a
temporary that is already destroyed, and the turn has no result.

An update or a delete is accepted only under the exclusive lock of its row, and the lock stays in
the list until the commit deletes the row (`Worker.Kept`). A delete whose lock is gone has no
result either. So the row that a commit removes is the live row that the request named, under the
exclusive lock of the worker, and no other row changes (`commitsOwnRow_of_run`).
-/

namespace PawnDB

open StudentTable

namespace Worker

variable {w : Worker} {db db' : StudentTable} {parser : JobBuf} {conn : ClientConn}

/-! ## The turn that applies an entry -/

theorem commitTurn_remove {l' : LockList} (he : w.commitQueue.empty = false)
    (hop : w.commitQueue.get.op = .delete)
    (hid : w.commitQueue.get.key.tableId = studentTableId)
    (hl : w.lockList.rmLock w.commitQueue.get.key = some l')
    (h : db.traitRemove w.commitQueue.get.key.tupleKey = some db') :
    w.commitTurn db parser conn = some ⟨{ w with lockList := l', commitQueue := w.commitQueue.pop },
      .commit parser conn, db', [.remove w.commitQueue.get.key.tupleKey]⟩ := by
  simp [commitTurn, applyEntry, Commit.destroyed, he, hop, hid, hl, h]

/-- The worker has the exclusive lock for every queued update and delete; in the drain loop it
may be gone with the row. -/
def Kept (w : Worker) (p : Point) : Prop :=
  ∀ e ∈ w.commitQueue.contents, e.op ≠ .addTuple →
    w.lockList.getLock e.key = .ok .exclusive ∨
      p.isCommit = true ∧ ∀ type, w.lockList.heldFrom 0 type e.key.tupleKey = 0

theorem Kept.of_nil {p : Point} (h : w.commitQueue.contents = []) : w.Kept p := fun e he => by
  rw [h] at he
  cases he

/-- Outside the drain loop no lock of a queued entry is gone. -/
theorem Kept.lock {p : Point} (h : w.Kept p) (hp : p.isCommit = false) {e : Commit}
    (he : e ∈ w.commitQueue.contents) (hop : e.op ≠ .addTuple) :
    w.lockList.getLock e.key = .ok .exclusive := by
  rcases h e he hop with hget | ⟨hc, -⟩
  · exact hget
  · rw [hp] at hc
    cases hc

/-- A lock that is erased from the list was the one that the queued entry relies on. -/
theorem Kept.lock_of_rmLock {p : Point} (h : w.Kept p) (hl : w.lockList.Wf) {e : Commit}
    (he : e ∈ w.commitQueue.contents) (hop : e.op ≠ .addTuple) {key : TblRow}
    (hkey : e.key = studentKey key) {l' : LockList}
    (hrm : w.lockList.rmLock (studentKey key) = some l') :
    w.lockList.getLock (studentKey key) = .ok .exclusive := by
  rw [← hkey]
  refine (h e he hop).resolve_right fun ⟨_, hnone⟩ => ?_
  obtain ⟨type, hpos, -⟩ := hl.rmLock_some hrm
  have hzero : w.lockList.heldFrom 0 type key = 0 := by
    have := hnone type
    rwa [hkey] at this
  omega

end Worker

variable {exact : Prop} {w w' : Worker} {p p' : Point} {db db' : StudentTable} {a : Act}
  {out : List Event} {rest : LockType → TblRow → Nat}

/-- With the exclusive lock of a row the list has given up every lock it had on the row. -/
theorem Coupled.gone_of_erased
    (hc : Coupled exact db fun type key => w.heldAt p type key + rest type key)
    (hi : p.iter = 0) {key : TblRow} {l' : LockList}
    (hget : w.lockList.getLock (studentKey key) = .ok .exclusive)
    (her : w.lockList.Erased .exclusive key l') (type : LockType) : l'.heldFrom 0 type key = 0 := by
  have hpos := LockList.heldFrom_pos_of_getLock hget
  have hheld : 0 < w.heldAt p .exclusive key + rest .exclusive key := by
    rw [Worker.heldAt, hi]
    omega
  have hx := (hc.exclusion hheld).1
  rw [Worker.heldAt, hi, her.held, if_pos ⟨rfl, rfl⟩] at hx
  cases type with
  | exclusive => omega
  | shared =>
      have hs := hc.shared_of_getLock hi hget
      rw [her.held] at hs
      omega

/-- **The drain loop applies deletes only.** -/
theorem Effect.applied (h : Effect w p db .resume w' p' db' out) (hw : w.Wf p)
    (hp : p.isCommit = true) (he : w.commitQueue.empty = false) :
    w.commitQueue.get.op = .delete ∧ ∃ key l', w.commitQueue.get.key = studentKey key ∧
      w.lockList.rmLock (studentKey key) = some l' ∧ db.traitRemove key = some db' ∧
      w' = { w with lockList := l', commitQueue := w.commitQueue.pop } ∧ p' = p := by
  obtain ⟨parser, conn, hp⟩ := Point.isCommit_iff.mp hp
  have hclosed : ¬ p.Open w := fun hopen => by
    rw [hp] at hopen
    exact absurd (he.symm.trans hopen) (by decide)
  cases h with
  | move hopen => exact absurd hopen hclosed
  | phase hopen => exact absurd hopen hclosed
  | promote hs =>
      rw [hw.shrinking hp] at hs
      cases hs
  | remove _ _ hop hkey hrm hremove => exact ⟨hop, _, _, hkey, hrm, hremove, rfl, rfl⟩
  | grantShared _ hp' | grantExclusive _ hp' | refuseShared _ hp' | refuseExclusive _ hp'
  | free hp' | finish hp' => rw [hp] at hp'; cases hp'

/-- **A step keeps the locks of the queued entries**, and gives up one only with its row. -/
theorem Effect.kept (h : Effect w p db a w' p' db' out) (hw : w.Wf p) (hk : w.Kept p)
    (hc : Coupled exact db fun type key => w.heldAt p type key + rest type key) : w'.Kept p' := by
  -- while the worker grows its queue is empty, so its locks can change freely
  have hgrow : ∀ l : LockList, w.status = .growing →
      Worker.Kept { w with lockList := l } .loop := fun l hs => .of_nil (hw.growing hs)
  -- a thread that leaves the drain loop has nothing left to apply
  have hopen : p.Open w → w'.commitQueue = w.commitQueue → w'.lockList = w.lockList →
      w'.Kept p' := fun hopen hq hl e he hne => by
    rw [hq] at he
    rw [hl]
    cases hpc : p.isCommit with
    | false => exact Or.inl (hk.lock hpc he hne)
    | true =>
        obtain ⟨parser, conn, hpc⟩ := Point.isCommit_iff.mp hpc
        rw [hopen.drained hpc] at he
        cases he
  cases h with
  | stop => exact hk
  | move ho hq hl _ _ _ _ _ => exact hopen ho hq hl
  | phase ho hq hl _ _ => exact hopen ho hq hl
  | queue hp _ _ htarget hfull hq hl _ _ =>
      intro e he hne
      rw [hq, (CommitQueue.contents_send hw.queue hfull).2] at he
      rw [hl]
      rcases List.mem_append.mp he with he | he
      · exact Or.inl (hk.lock (by rw [hp]; rfl) he hne)
      · rw [List.mem_singleton.mp he] at hne ⊢
        exact Or.inl ((Worker.target_some (hw.list (by simp [hp])) htarget).2 hne).1
  | grantShared hs _ _ _ _ _ => exact hgrow _ hs
  | grantExclusive hs _ _ _ _ _ => exact hgrow _ hs
  | refuseShared hs _ _ _ _ => exact hgrow _ hs
  | refuseExclusive hs _ _ _ _ => exact hgrow _ hs
  | yield _ hs _ _ _ hq _ _ _ => exact .of_nil (by rw [hq]; exact hw.growing hs)
  | promote hs _ _ _ _ _ _ => exact hgrow _ hs
  | @remove _ _ key l' _ hp he hop hkey hrm _ =>
      have hlist := hw.list (by simp [hp])
      have hget := hk.lock_of_rmLock hlist (CommitQueue.get_mem hw.queue he)
        (by rw [hop]; decide) hkey hrm
      obtain ⟨l'', hrm', her⟩ := LockList.rmLock_of_getLock hget
      obtain rfl : l' = l'' := Option.some.inj (hrm.symm.trans hrm')
      intro e hmem hne
      rw [show ({ w with lockList := l', commitQueue := w.commitQueue.pop } : Worker).commitQueue
        = w.commitQueue.pop from rfl] at hmem
      have hmem' : e ∈ w.commitQueue.contents := by
        rw [(CommitQueue.contents_pop hw.queue he).2]
        exact List.mem_cons_of_mem _ hmem
      have hpc : p.isCommit = true := by rw [hp]; rfl
      by_cases hsame : e.key.tupleKey = key
      · -- an entry for the removed row has lost its lock
        refine Or.inr ⟨hpc, fun type => ?_⟩
        rw [hsame]
        exact hc.gone_of_erased (by rw [hp]; rfl) hget her type
      · rcases hk e hmem' hne with hlock | ⟨-, hnone⟩
        · refine Or.inl ?_
          rw [her.others _ fun h => hsame (by rw [h]; rfl)]
          exact hlock
        · refine Or.inr ⟨hpc, fun type => ?_⟩
          have hz := hnone type
          rw [her.held] at hz
          exact (Nat.add_eq_zero_iff.mp hz).1
  | free hp =>
      intro e he hne
      exact Or.inl (hk.lock (by rw [hp]; rfl) he hne)
  | finish _ _ _ _ hcont _ _ => exact .of_nil hcont

namespace System

variable {ι : Type} [DecidableEq ι]

theorem step_resume {s : System ι} {i : ι} {t : Turn}
    (h : (s.threads i).resume s.students = some t) :
    ∃ s', s.step (i, .resume) = some (s', t.out) ∧ s'.students = t.db := by
  refine ⟨⟨t.db, Slots.set s.threads i
    { s.threads i with worker := t.worker, point := t.point }⟩, ?_, rfl⟩
  rw [step, WorkerThread.step, h]
  rfl

/-- Every thread has the locks of what it has queued. -/
theorem kept_of_run [Fintype ι] {db : StudentTable} (hdb : db.AtRest) {txnIds : ι → TxnId}
    {h : List (Entry (System ι) (ι × Act) Event)} {s : System ι}
    (hr : (machine ι).Run (init db txnIds) h s) (i : ι) :
    (s.threads i).worker.Kept (s.threads i).point := by
  refine hr.invariant (P := fun _ t => (t.threads i).worker.Kept (t.threads i).point)
    (.of_nil rfl) fun k u a out v hk ih hs => ?_
  obtain ⟨th, hth, hv⟩ := step_eq hs
  rw [hv]
  by_cases hi : i = a.1
  · subst hi
    rw [Slots.set_self]
    have hinv := inv_of_run hdb hk
    obtain ⟨rest, -, hc⟩ := hinv.coupled_thread a.1
    exact (WorkerThread.step_effect (hinv.thread a.1) hth).kept (hinv.thread a.1) ih hc
  · rw [Slots.set_of_ne _ _ hi]
    exact ih

/-! ## Own rows -/

/-- The entry was queued when thread `i` handled this request, which named its operation and its
key. -/
def QueuedBy (h : List (Entry (System ι) (ι × Act) Event)) (i : ι) (e : Commit) (job : Job) :
    Prop :=
  ∃ c ∈ h, c.act = (i, .recv job) ∧ job.buf.getOp = .ok e.op ∧
    (e.op ≠ .addTuple → job.buf.getKey = .ok e.key.tupleKey) ∧
    (c.post.threads i).worker.commitQueue.contents
      = (c.pre.threads i).worker.commitQueue.contents ++ [e]

/-- If thread `i` applies an entry, then it is a delete; the row it removes is the live row with
the key that the request named, the lock list has the exclusive lock on it, and no other row
changes. -/
def CommitsOwnRow (h : List (Entry (System ι) (ι × Act) Event)) (s : System ι) (i : ι) : Prop :=
  ∀ parser conn, (s.threads i).point = .commit parser conn →
    (s.threads i).worker.commitQueue.empty = false →
    ∀ e, (s.threads i).worker.commitQueue.get = e →
      ∀ s' out, s.step (i, .resume) = some (s', out) →
        e.op = .delete ∧ ∃ job p, QueuedBy h i e job ∧
          (s.threads i).worker.lockList.getLock e.key = .ok .exclusive ∧
          s.students.IsRow e.key.tupleKey p ∧ s'.students.live p = false ∧
          ∀ j, j ≠ p → s'.students.table j = s.students.table j

omit [DecidableEq ι] in
theorem QueuedBy.mono {h k : List (Entry (System ι) (ι × Act) Event)} {i : ι} {e : Commit}
    {job : Job} (hq : QueuedBy h i e job) : QueuedBy (h ++ k) i e job := by
  obtain ⟨c, hc, hrest⟩ := hq
  exact ⟨c, List.mem_append_left _ hc, hrest⟩

/-- Every queued entry is there by a request. -/
theorem queuedBy_of_run {db : StudentTable} {txnIds : ι → TxnId}
    {h : List (Entry (System ι) (ι × Act) Event)} {s : System ι}
    (hr : (machine ι).Run (init db txnIds) h s) (i : ι) :
    ∀ e ∈ (s.threads i).worker.commitQueue.contents, ∃ job, QueuedBy h i e job := by
  refine hr.invariant (P := fun k t =>
    ∀ e ∈ (t.threads i).worker.commitQueue.contents, ∃ job, QueuedBy k i e job)
    (fun e he => by cases he) fun k u a out v hk ih hs e he => ?_
  obtain ⟨th, hth, hv⟩ := step_eq hs
  by_cases hi : i = a.1
  · subst hi
    have hth' : v.threads a.1 = th := by rw [hv, Slots.set_self]
    rw [hth'] at he
    have hw := threads_of_run hk a.1
    rcases (WorkerThread.step_effect hw hth).mem_contents hw he with he |
      ⟨job, op, key, ha, hp, hget, -, ht, -, rfl, hcont⟩
    · obtain ⟨job, hq⟩ := ih e he
      exact ⟨job, hq.mono⟩
    · -- the entry is new: this step is the request that queued it
      refine ⟨job, ⟨u, a, out, v⟩, List.mem_append_right _ (List.mem_singleton.mpr rfl),
        by rw [← ha], hget,
        fun hne => ((Worker.target_some (hw.list (by simp [hp])) ht).2 hne).2, ?_⟩
      rw [hth']
      exact hcont
  · rw [hv, Slots.set_of_ne _ _ hi] at he
    obtain ⟨job, hq⟩ := ih e he
    exact ⟨job, hq.mono⟩

/-- **A commit writes the rows its transaction has locked.** -/
theorem commitsOwnRow_of_run [Fintype ι] {db : StudentTable} (hdb : db.AtRest)
    {txnIds : ι → TxnId} {h : List (Entry (System ι) (ι × Act) Event)} {s : System ι}
    (hr : (machine ι).Run (init db txnIds) h s) (i : ι) : CommitsOwnRow h s i := by
  have hinv := inv_of_run hdb hr
  rintro parser conn hp he e rfl s' out hs
  have hw := hinv.thread i
  have hmem := CommitQueue.get_mem hw.queue he
  obtain ⟨job, hjob⟩ := queuedBy_of_run hr i _ hmem
  obtain ⟨th, hth, -⟩ := step_eq hs
  obtain ⟨hop, key, l', hkey, hrm, hremove, -, -⟩ :=
    (WorkerThread.step_effect hw hth).applied hw (by rw [hp]; rfl) he
  -- the lock that is erased is the one the request was accepted under
  have hget := (kept_of_run hdb hr i).lock_of_rmLock (hw.list (by simp [hp])) hmem
    (by rw [hop]; decide) hkey hrm
  obtain ⟨q, hrow⟩ := hinv.isRow_of_getLock (by rw [hp]; rfl) hget
  obtain ⟨p, hseek, hdel⟩ := traitRemove_some hremove
  obtain rfl := isRow_of_seekKey hinv.coupled.table hrow hseek
  rw [← hkey] at hget
  have hrow' : s.students.IsRow (s.threads i).worker.commitQueue.get.key.tupleKey p := by
    rw [hkey]
    exact hrow
  exact ⟨hop, job, p, hjob, hget, hrow', hdel.live_self, fun j hj => hdel.row_of_ne hj⟩

/-- The only row is read exclusively, deleted `deletes` times and committed, with `turns` turns
of the commit. -/
def deleteAgain (deletes turns : Nat) : List (Fin 2 × Act) :=
  handle 1 (.request .exclusiveRead 1 0 []) 1 ++
    (List.replicate deletes (handle 1 (.request .delete 1 0 []) 0)).flatten ++
    handle 1 (.request .commitTxn 1 0 []) turns

/-- The next turn of thread `i` applies an entry. -/
def Applies (s : System ι) (i : ι) : Prop :=
  (s.threads i).point.isCommit = true ∧ (s.threads i).worker.commitQueue.empty = false ∧
    (s.step (i, .resume)).isSome = true

instance (s : System ι) (i : ι) : Decidable (s.Applies i) := by
  unfold Applies
  infer_instance

theorem commitsOwnRow_of_run_delete : ∃ h s,
    (machine (Fin 2)).Run (init (ofTuples [.empty]) fun _ => 0) h s ∧ s.Applies 1 ∧
      CommitsOwnRow h s 1 := by
  obtain ⟨h, s, hr, hp⟩ := Machine.exists_run_of_exec (M := machine (Fin 2))
    (s := init (ofTuples [.empty]) fun _ => 0) (p := fun _ s => decide (s.Applies 1))
    (show ((machine (Fin 2)).exec _ (deleteAgain 1 0)).map _ = some true by decide +kernel)
  exact ⟨h, s, hr, of_decide_eq_true hp, commitsOwnRow_of_run (atRest_ofTuples _) hr 1⟩

end System

end PawnDB
