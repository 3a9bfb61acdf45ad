import PawnDB.Worker.Solo

set_option autoImplicit false

/-! # Two-phase discipline

A transaction takes locks while it is growing and gives none back afterwards, until its commit
is handled or it quits. `TwoPhase` says this of one step, and `QueuedLate` says of every entry
that waits for the commit in which phase and under which lock it was queued. Both hold in every
run of a thread (`twoPhase_of_run`).
-/

namespace PawnDB

namespace LockList

/-- Removing a lock leaves the remaining entries as they are. -/
theorem rmLock_active {l l' : LockList} {key : UniqueKey} (h : l.rmLock key = some l')
    {i : Fin maxLockPerTransaction} (hi : (l'.locks i).active = true) :
    l'.locks i = l.locks i := by
  unfold rmLock remove at h
  split at h
  · cases h
  · rename_i idx hidx
    obtain rfl := Option.some.inj h
    have hlocks : ∀ j, Slots.set l.locks idx { l.locks idx with isDeleted := true } j
        = (if j = idx then { l.locks idx with isDeleted := true } else l.locks j) := fun _ => rfl
    change (Slots.set l.locks idx _ i).active = true at hi
    change Slots.set l.locks idx _ i = l.locks i
    by_cases hidx : i = idx
    · -- the entry that was removed is not active any more
      rw [hlocks, if_pos hidx] at hi
      simp [LockEntry.active] at hi
    · rw [hlocks, if_neg hidx]

theorem clear_active {l : LockList} {i : Fin maxLockPerTransaction} :
    (l.clear.locks i).active = false := by
  simp [clear, LockEntry.active]

end LockList

/-- The places of a thread from the start of its loop to its commit or its quit. -/
def Point.BeforeEnd : Point → Prop
  | .commit _ _ | .release _ | .ended => False
  | _ => True

/-- What two-phase locking asks of a step. -/
structure TwoPhase (w : Worker) (p : Point) (w' : Worker) (out : List Event) : Prop where
  /-- The phase stays, or the growing phase ends. -/
  phase : w'.status = w.status ∨
    w.status = .growing ∧ (w'.status = .shrinking ∨ w'.status = .aborted)
  /-- Rows are locked and locks promoted in the growing phase. -/
  acquire : ∀ e ∈ out, (∃ type tuple, e = .granted type tuple) ∨ (∃ key, e = .promoted key) →
    w.status = .growing
  /-- Entries of the lock list are made and upgraded in the growing phase. -/
  record : ∀ i, (w'.lockList.locks i).active = true → w'.lockList.locks i ≠ w.lockList.locks i →
    w.status = .growing
  /-- From the end of the growing phase on, up to the commit or the quit, the locks stay. -/
  keep : w'.status ≠ .growing → p.BeforeEnd →
    w'.lockList = w.lockList ∧ ∀ key, .released key ∉ out

variable {w w' : Worker} {p p' : Point} {db db' : StudentTable} {a : Act} {out : List Event}

/-- The phases a request that writes can lead to from a phase other than `COMMITTED`. -/
theorem TxnStatus.Leaves.cases {st st' : TxnStatus} (h : st.Leaves st') :
    st' = st ∨ st = .growing ∧ (st' = .shrinking ∨ st' = .aborted) := by
  rcases h with rfl | ⟨hg, rfl⟩
  · split
    · rename_i hg
      exact Or.inr ⟨hg, Or.inl rfl⟩
    · exact Or.inl rfl
  · exact Or.inr ⟨hg, Or.inr rfl⟩

theorem Plain.not_acquired {out : List Event} (h : Plain out) : ∀ e ∈ out,
    (∃ type tuple, e = .granted type tuple) ∨ (∃ key, e = .promoted key) → False := by
  rintro e he (⟨type, tuple, rfl⟩ | ⟨key, rfl⟩)
  · cases h _ he
  · cases h _ he

theorem Plain.not_released {out : List Event} (h : Plain out) (key : TblRow) :
    .released key ∉ out := fun hm => by cases h _ hm

/-- **Every step of a thread is two-phase.** -/
theorem Effect.twoPhase (h : Effect w p db a w' p' db' out) : TwoPhase w p w' out := by
  -- a step that keeps the lock list and tells nothing of the table
  have hquiet : ∀ {v : Worker} {o : List Event}, v.lockList = w.lockList → Plain o →
      (v.status = w.status ∨
        w.status = .growing ∧ (v.status = .shrinking ∨ v.status = .aborted)) →
      TwoPhase w p v o := fun hl ho hst =>
    ⟨hst, fun e he hacq => (ho.not_acquired e he hacq).elim,
      fun i _ hne => absurd (by rw [hl]) hne, fun _ _ => ⟨hl, ho.not_released⟩⟩
  -- a step in the growing phase, which does not end it
  have hgrow : ∀ {v : Worker} {o : List Event}, w.status = .growing → v.status = w.status →
      TwoPhase w p v o := fun hg hst =>
    ⟨Or.inl hst, fun _ _ _ => hg, fun _ _ _ => hg, fun hne => absurd (hst.trans hg) hne⟩
  -- a step of the commit or of the quit
  have hlate : ∀ {v : Worker} {e : Event}, ¬ p.BeforeEnd → v.status = w.status →
      (∀ i, (v.lockList.locks i).active = true → v.lockList.locks i = w.lockList.locks i) →
      (¬ ∃ type tuple, e = .granted type tuple) → (¬ ∃ key, e = .promoted key) →
      TwoPhase w p v [e] := fun hp hst hl hg hpr =>
    ⟨Or.inl hst, fun e' he hacq => by
      rw [List.mem_singleton.mp he] at hacq
      exact absurd hacq (not_or.mpr ⟨hg, hpr⟩), fun i hi hne => absurd (hl i hi) hne,
      fun _ hb => absurd hb hp⟩
  cases h with
  | stop => exact hquiet rfl plain_nil (Or.inl rfl)
  | move _ _ hl hst _ _ _ ho => exact hquiet hl ho (Or.inl hst)
  | phase _ _ hl hst ho => exact hquiet hl ho hst.cases
  | queue _ _ _ _ _ _ hl hst ho => exact hquiet hl ho hst.cases
  | grantShared hg => exact hgrow hg rfl
  | grantExclusive hg => exact hgrow hg rfl
  | refuseShared hg => exact hgrow hg rfl
  | refuseExclusive hg => exact hgrow hg rfl
  | yield _ hg _ _ _ _ _ hst _ => exact hgrow hg hst
  | promote hg => exact hgrow hg rfl
  | remove hp _ _ _ hrm _ =>
      exact hlate (by rw [hp]; exact id) rfl (fun _ hi => LockList.rmLock_active hrm hi)
        (by simp) (by simp)
  | free hp => exact hlate (by rw [hp]; exact id) rfl (fun _ _ => rfl) (by simp) (by simp)
  | finish hp _ hl hst _ _ ho =>
      refine ⟨Or.inl hst, fun e he hacq => (ho.not_acquired e he hacq).elim, fun i hi => ?_,
        fun _ hb => ?_⟩
      · rw [hl, LockList.clear_active] at hi
        cases hi
      · rw [hp] at hb
        exact hb.elim

namespace Solo

/-- Every entry that waits for the commit was queued by a step of the history, in a phase other
than `GROWING` and, if it changes or removes a row, under the exclusive lock on it. -/
def QueuedLate (h : List (Entry Solo SoloAct Event)) (s : Solo) : Prop :=
  ∀ c ∈ s.thread.worker.commitQueue.contents, ∃ e ∈ h,
    e.post.thread.worker.commitQueue.contents
      = e.pre.thread.worker.commitQueue.contents ++ [c] ∧
    e.post.thread.worker.status ≠ .growing ∧
    (c.op ≠ .addTuple → e.pre.thread.worker.lockList.getLock c.key = .ok .exclusive ∧
      e.post.thread.worker.lockList.getLock c.key = .ok .exclusive)

variable {h : List (Entry Solo SoloAct Event)} {s u v : Solo} {a : Act} {out : List Event}

/-- A step queues in time, and what was queued before stays so. -/
theorem QueuedLate.step (hw : u.thread.worker.Wf u.thread.point) (ih : QueuedLate h u)
    (hs : u.step (.own a) = some (v, out)) : QueuedLate (h ++ [⟨u, .own a, out, v⟩]) v := by
  have heff := WorkerThread.step_effect hw (step_own hs)
  intro c hc
  rcases heff.mem_contents hw hc with hold | ⟨job, op, key, rfl, hp, hop, hwr, ht, hf, rfl, hcs⟩
  · obtain ⟨e, he, hrest⟩ := ih c hold
    exact ⟨e, List.mem_append_left _ he, hrest⟩
  · have hne : v.thread.worker.status ≠ .growing := fun hg => by
      have := (heff.wf hw).growing hg
      rw [this] at hc
      cases hc
    have hkeep : v.thread.worker.lockList = u.thread.worker.lockList :=
      (heff.twoPhase.keep hne (by rw [hp]; trivial)).1
    refine ⟨_, List.mem_append_right _ (List.mem_singleton.mpr rfl), hcs, hne, fun hadd => ?_⟩
    have hget := ((Worker.target_some (hw.list (by simp [hp])) ht).2 hadd).1
    exact ⟨hget, by rw [hkeep]; exact hget⟩

/-- **A worker keeps the two-phase discipline**, for any requests and timeouts and whatever
other threads do to the table. -/
theorem twoPhase_of_run {txnId : TxnId} {db : StudentTable}
    (hr : machine.Run (init txnId db) h s) :
    (∀ e ∈ h, TwoPhase e.pre.thread.worker e.pre.thread.point e.post.thread.worker e.out) ∧
      QueuedLate h s := by
  have hwf : ∀ {k u}, machine.Run (init txnId db) k u →
      u.thread.worker.Wf u.thread.point := fun hk => wf_of_run hk (Worker.wf_init txnId)
  constructor
  · intro e he
    obtain ⟨k, l, -, hk, hs, -⟩ := hr.split he
    cases ha : e.act with
    | own a =>
        rw [ha] at hs
        exact (WorkerThread.step_effect (hwf hk) (step_own hs)).twoPhase
    | env students =>
        -- the thread does not move
        rw [ha] at hs
        obtain ⟨hpost, hout⟩ := Prod.mk.inj (Option.some.inj hs)
        rw [← hpost, ← hout]
        exact (Effect.stop : Effect _ _ db _ _ _ _ _).twoPhase
  · refine hr.invariant (P := fun k t => QueuedLate k t) (fun c hc => by cases hc) ?_
    intro k u a out v hk ih hs
    cases a with
    | own a => exact ih.step (hwf hk) hs
    | env students =>
        cases hs
        intro c hc
        obtain ⟨e, he, hrest⟩ := ih c hc
        exact ⟨e, List.mem_append_left _ he, hrest⟩

/-- The transaction reads the row exclusively and updates it. -/
def updateRow : List SoloAct :=
  handle (.request .exclusiveRead 1 0 []) 1 ++
    handle (.request .update 1 0 (List.replicate 37 7)) 0

theorem twoPhase_of_run_update : ∃ h s, machine.Run (init 0 oneRow) h s ∧
    s.thread.worker.commitQueue.contents ≠ [] ∧
    (∀ e ∈ h, TwoPhase e.pre.thread.worker e.pre.thread.point e.post.thread.worker e.out) ∧
      QueuedLate h s := by
  obtain ⟨h, s, hr, hp⟩ := Machine.exists_run_of_exec (M := machine) (s := init 0 oneRow)
    (p := fun _ s => decide (s.thread.worker.commitQueue.empty = false))
    (show (machine.exec _ updateRow).map _ = some true by decide +kernel)
  simp only [decide_eq_true_eq] at hp
  refine ⟨h, s, hr, fun hc => ?_, twoPhase_of_run hr⟩
  rw [CommitQueue.empty_iff.mpr hc] at hp
  cases hp

end Solo

end PawnDB
