import PawnDB.System.Coupling
import PawnDB.Worker.TwoPhase

set_option autoImplicit false

/-! # The locks of a worker over time

A transaction takes locks as long as it is growing and its worker has not begun to quit
(`Worker.Growing`). This phase does not come back (`Effect.growing`). While it lasts, a row that
is locked stays locked unless it is given back (`Effect.keeps_locks`), and after it no lock is
taken (`Effect.takes_no_lock`).
-/

namespace PawnDB

/-- The transaction may still take locks. -/
def Worker.Growing (w : Worker) (p : Point) : Prop := w.status = .growing ∧ p.Active

instance (p : Point) : Decidable p.Active :=
  match p with
  | .release _ | .ended => isFalse id
  | .loop | .recv | .sharedRead _ _ _ | .exclusiveRead _ _ _ | .promote _ _ _ _ | .commit _ _ =>
      isTrue trivial

instance (w : Worker) (p : Point) : Decidable (w.Growing p) :=
  inferInstanceAs (Decidable (_ ∧ _))

/-- The worker has a lock of some kind on the student and has not given it back yet. -/
def Worker.HasLock (w : Worker) (p : Point) (key : TblRow) : Prop :=
  ∃ type, 0 < w.heldAt p type key

instance (w : Worker) (p : Point) (key : TblRow) : Decidable (w.HasLock p key) :=
  decidable_of_iff (0 < w.heldAt p .shared key ∨ 0 < w.heldAt p .exclusive key)
    ⟨fun h => h.elim (fun h => ⟨_, h⟩) fun h => ⟨_, h⟩, fun ⟨type, h⟩ => by
      cases type with
      | shared => exact Or.inl h
      | exclusive => exact Or.inr h⟩

variable {w w' : Worker} {p p' : Point} {db db' : StudentTable} {a : Act} {out : List Event}

theorem Worker.heldAt_active {w : Worker} {p : Point} (h : p.Active) (type : LockType)
    (key : TblRow) : w.heldAt p type key = w.lockList.heldFrom 0 type key := by
  rw [heldAt, h.iter]

/-- A thread that drains its queue takes no more locks. -/
theorem Worker.Wf.not_growing (hw : w.Wf p) (hp : p.isCommit = true) : ¬ w.Growing p := by
  obtain ⟨parser, conn, hp⟩ := Point.isCommit_iff.mp hp
  rintro ⟨hg, -⟩
  rw [hw.shrinking hp] at hg
  cases hg

/-- **The growing phase does not come back.** -/
theorem Effect.growing (h : Effect w p db a w' p' db' out) (hg : w'.Growing p') :
    w.Growing p := by
  obtain ⟨hs, hact⟩ := hg
  constructor
  · rcases h.twoPhase.phase with heq | ⟨hgrow, -⟩
    · rw [← heq, hs]
    · exact hgrow
  · cases h with
    | stop => exact hact
    | move hopen => exact hopen.active
    | phase hopen => exact hopen.active
    | promote _ hactive => exact hactive
    | queue hp | grantShared _ hp | grantExclusive _ hp | refuseShared _ hp
    | refuseExclusive _ hp | yield hp | remove hp => rw [hp]; trivial
    | free | finish => exact hact.elim

/-- **A growing transaction keeps its locks**, in one kind or another, if it gives none back. -/
theorem Effect.keeps_locks (h : Effect w p db a w' p' db' out) (hw : w.Wf p)
    (hg : w.Growing p) (hout : ∀ key, .released key ∉ out) {key : TblRow}
    (hl : w.HasLock p key) : w'.HasLock p' key := by
  obtain ⟨hs, hact⟩ := hg
  obtain ⟨type, hpos⟩ := hl
  rw [Worker.heldAt_active hact] at hpos
  -- the list keeps the entry and the iterator is where it was
  have hkept : ∀ {v : Worker} {q : Point}, q.iter = 0 →
      w.lockList.heldFrom 0 type key ≤ v.lockList.heldFrom 0 type key → v.HasLock q key :=
    fun hq hle => ⟨type, by rw [Worker.heldAt, hq]; omega⟩
  cases h with
  | stop => exact ⟨type, by rw [Worker.heldAt_active hact]; exact hpos⟩
  | move _ _ hl _ hi => exact hkept hi (by rw [hl])
  | phase _ _ hl => exact hkept rfl (by rw [hl])
  | queue _ _ _ _ _ _ hl => exact hkept rfl (by rw [hl])
  | grantShared _ _ _ _ hrec => exact hkept rfl (by rw [hrec.held]; omega)
  | grantExclusive _ _ _ _ hrec => exact hkept rfl (by rw [hrec.held]; omega)
  | refuseShared | refuseExclusive => exact hkept rfl (Nat.le_refl _)
  | yield => exact absurd List.mem_cons_self (hout _)
  | @promote key' _ _ _ _ _ _ _ _ hpr =>
      -- the lock that is promoted counts as an exclusive one now
      by_cases hk : key = key'
      · refine ⟨.exclusive, ?_⟩
        rw [Worker.heldAt_active (show Point.loop.Active from trivial), hpr.exclusive, if_pos hk]
        omega
      · refine hkept rfl ?_
        cases type with
        | shared => rw [hpr.shared, if_neg hk]; rfl
        | exclusive => rw [hpr.exclusive, if_neg hk]; rfl
  | remove hp =>
      rw [hw.shrinking hp] at hs
      cases hs
  | free hp | finish hp =>
      rw [hp] at hact
      exact hact.elim

/-- **After the growing phase no lock is taken.** -/
theorem Effect.takes_no_lock (h : Effect w p db a w' p' db' out) (hw : w.Wf p)
    (hg : ¬ w.Growing p) (type : LockType) (key : TblRow) :
    w'.heldAt p' type key ≤ w.heldAt p type key := by
  have hsame : ∀ {v : Worker} {q : Point}, p.Active → q.iter = 0 → v.lockList = w.lockList →
      v.heldAt q type key ≤ w.heldAt p type key := fun hact hq hl => by
    rw [Worker.heldAt_active hact, Worker.heldAt, hq, hl]
  cases h with
  | stop => exact Nat.le_refl _
  | move hopen _ hl _ hi => exact hsame hopen.active hi hl
  | phase hopen _ hl => exact hsame hopen.active rfl hl
  | queue hp _ _ _ _ _ hl => exact hsame (by rw [hp]; trivial) rfl hl
  | grantShared hs hp | grantExclusive hs hp | refuseShared hs hp | refuseExclusive hs hp =>
      exact absurd ⟨hs, by rw [hp]; trivial⟩ hg
  | yield hp hs => exact absurd ⟨hs, by rw [hp]; trivial⟩ hg
  | promote hs hact => exact absurd ⟨hs, hact⟩ hg
  | remove hp _ _ _ hrm =>
      have hact : p.Active := by rw [hp]; trivial
      obtain ⟨type', -, her⟩ := (hw.list hact.ne_ended).rmLock_some hrm
      rw [Worker.heldAt_active hact, Worker.heldAt_active hact, her.held]
      exact Nat.le_add_right _ _
  | free hp hi hkey =>
      rw [hp, Worker.heldAt, Worker.heldAt, Point.iter, Point.iter,
        LockList.heldFrom_of_advance hi hkey]
      exact Nat.le_add_right _ _
  | finish _ _ hl =>
      rw [Worker.heldAt, hl, LockList.heldFrom_clear]
      exact Nat.zero_le _

/-- Rows are obtained in the growing phase. -/
theorem Effect.growing_of_granted (h : Effect w p db a w' p' db' out) (hw : w.Wf p)
    {type : LockType} {tuple : StudentTuple} (hm : .granted type tuple ∈ out) : w.Growing p := by
  have hpl := hw.placed
  rcases (h.granted hm).2 with ⟨parser, conn, cnt, hp, -⟩ | ⟨parser, conn, cnt, hp, -⟩
  · rw [hp] at hpl ⊢
    exact ⟨hpl, trivial⟩
  · rw [hp] at hpl ⊢
    exact ⟨hpl, trivial⟩

/-- A row is removed by a commit, under the exclusive lock. -/
theorem Effect.removes_locked (h : Effect w p db a w' p' db' out) (hw : w.Wf p)
    (hown : w.Owned) {key : TblRow} (he : .remove key ∈ out) :
    p.isCommit = true ∧ 0 < w.heldAt p .exclusive key := by
  have hplain : ∀ {o : List Event}, Plain o → .remove key ∉ o := fun ho hm => by
    cases ho _ hm
  have hcons : ∀ {x : Event} {o : List Event}, Plain o → x ≠ .remove key → .remove key ∉ x :: o :=
    fun ho hx hm => by
      rcases List.mem_cons.mp hm with heq | hm
      · exact hx heq.symm
      · exact hplain ho hm
  cases h with
  | stop => exact absurd he (hplain plain_nil)
  | move _ _ _ _ _ _ _ ho => exact absurd he (hplain ho)
  | phase _ _ _ _ ho => exact absurd he (hplain ho)
  | queue _ _ _ _ _ _ _ _ ho => exact absurd he (hplain ho)
  | grantShared _ _ _ _ _ ho => exact absurd he (hcons ho (by simp))
  | grantExclusive _ _ _ _ _ ho => exact absurd he (hcons ho (by simp))
  | refuseShared _ _ _ _ ho => exact absurd he (hcons ho (by simp))
  | refuseExclusive _ _ _ _ ho => exact absurd he (hcons ho (by simp))
  | yield _ _ _ _ _ _ _ _ ho => exact absurd he (hcons ho (by simp))
  | promote _ _ _ _ _ _ ho => exact absurd he (hcons ho (by simp))
  | free => exact absurd he (hcons plain_nil (by simp))
  | finish _ _ _ _ _ _ ho => exact absurd he (hplain ho)
  | remove hp hne hop hkey hrm =>
      cases List.mem_singleton.mp he
      have hact : p.Active := by rw [hp]; trivial
      obtain ⟨type, hpos, -⟩ := (hw.list hact.ne_ended).rmLock_some hrm
      refine ⟨by rw [hp]; rfl, ?_⟩
      rw [Worker.heldAt_active hact]
      -- the erased lock is not a shared one
      cases type with
      | exclusive => exact hpos
      | shared =>
          have := hown _ (CommitQueue.get_mem hw.queue hne) (by rw [hop]; decide)
          rw [hkey] at this
          exact absurd this (Nat.ne_of_gt hpos)

end PawnDB
