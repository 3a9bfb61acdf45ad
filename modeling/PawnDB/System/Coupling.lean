import PawnDB.Table.Coupled
import PawnDB.Worker.Effects

set_option autoImplicit false

/-! # Lock words and lock lists

The lock word of a row and the entries of the lock lists are two records of the same locks, and
`Coupled` relates them. A lock that a lock list has refused is granted and not recorded.

`Effect.coupled` is the step lemma: whatever one thread does keeps the coupling, where `rest`
stands for the locks that the other threads record.
-/

namespace PawnDB

open LockWord StudentTable

/-- The locks a worker still has to give back: those its list records, from the iterator of
`release_all_locks` on. -/
def Worker.heldAt (w : Worker) (p : Point) (type : LockType) (key : TblRow) : Nat :=
  w.lockList.heldFrom p.iter type key

/-! ## The step lemma -/

/-- A queued update or delete is for a student that the worker has no shared lock on. -/
def Worker.Owned (w : Worker) : Prop :=
  ∀ e ∈ w.commitQueue.contents, e.op ≠ .addTuple →
    w.lockList.heldFrom 0 .shared e.key.tupleKey = 0

theorem Point.Active.iter {p : Point} (h : p.Active) : p.iter = 0 := by
  cases p <;> first | rfl | exact h.elim

variable {exact exact' : Prop} {w w' : Worker} {p p' : Point} {db db' : StudentTable} {a : Act}
  {out : List Event} {rest : LockType → TblRow → Nat}

/-- **What one thread does keeps the coupling**, which stays exact as long as the lock list takes
every row that is granted. -/
theorem Effect.coupled (h : Effect w p db a w' p' db' out) (hw : w.Wf p) (hown : w.Owned)
    (hc : Coupled exact db fun type key => w.heldAt p type key + rest type key)
    (hex : exact' → exact ∧ ∀ type tuple, .granted type tuple ∈ out →
      w.lockList.refuses (studentKey tuple.key) = false) :
    Coupled exact' db' fun type key => w'.heldAt p' type key + rest type key := by
  have hex' : exact' → exact := fun hx => (hex hx).1
  have hact0 : p.Active → ∀ type key, w.heldAt p type key = w.lockList.heldFrom 0 type key :=
    fun hact type key => by rw [Worker.heldAt, hact.iter]
  have hcommit : ∀ {parser conn}, p = .commit parser conn → p.Active := fun hp => by
    rw [hp]; trivial
  cases h with
  | stop => exact hc.congr hex' fun _ _ => rfl
  | move hopen _ hl _ hi _ _ _ =>
      exact hc.congr hex' fun type key => by
        rw [hact0 hopen.active, Worker.heldAt, hl, hi]
  | phase hopen _ hl _ _ =>
      exact hc.congr hex' fun type key => by
        rw [hact0 hopen.active, Worker.heldAt, hl]; rfl
  | queue hp _ _ _ _ _ hl _ _ =>
      exact hc.congr hex' fun type key => by
        rw [hact0 (by rw [hp]; trivial), Worker.heldAt, hl]; rfl
  | grantShared _ hp hwait _ hrec _ =>
      refine (hc.congr hex' fun _ _ => rfl).grant_shared hwait fun type key => ?_
      have := hrec.held type key
      rw [hact0 (by rw [hp]; trivial), Nat.add_right_comm, ← this]
      rfl
  | grantExclusive _ hp hwait _ hrec _ =>
      refine (hc.congr hex' fun _ _ => rfl).grant_exclusive hwait fun type key => ?_
      have := hrec.held type key
      rw [hact0 (by rw [hp]; trivial), Nat.add_right_comm, ← this]
      rfl
  | refuseShared _ hp hwait href _ =>
      -- the lock is granted in the table and recorded nowhere: an exact coupling excludes it
      refine (hc.leak_shared hwait).congr (fun hx => ?_) fun type key => by
        rw [hact0 (by rw [hp]; trivial)]; rfl
      have := (hex hx).2 _ _ List.mem_cons_self
      rw [href] at this
      cases this
  | refuseExclusive _ hp hwait href _ =>
      refine (hc.leak_exclusive hwait).congr (fun hx => ?_) fun type key => by
        rw [hact0 (by rw [hp]; trivial)]; rfl
      have := (hex hx).2 _ _ List.mem_cons_self
      rw [href] at this
      cases this
  | yield hp _ _ her hrel _ hl _ _ =>
      refine (hc.congr hex' fun _ _ => rfl).release .shared hrel fun type' key' => ?_
      have := her.held type' key'
      rw [hact0 (by rw [hp]; trivial), Worker.heldAt, hl, this, Nat.add_right_comm]
      rfl
  | promote _ hact _ _ hprom hpr _ =>
      refine (hc.congr hex' fun _ _ => rfl).promote hprom (fun key' => ?_) fun key' => ?_
      · have := hpr.shared key'
        rw [hact0 hact, this, Nat.add_right_comm]
        rfl
      · have := hpr.exclusive key'
        rw [hact0 hact, Nat.add_right_comm, ← this]
        rfl
  | remove hp he hop hkey hrm hremove =>
      obtain ⟨type, hpos, her⟩ := (hw.list (hcommit hp).ne_ended).rmLock_some hrm
      have hshared := hown _ (CommitQueue.get_mem hw.queue he) (by rw [hop]; decide)
      rw [hkey] at hshared
      -- the entry that is erased is the exclusive one: there is no shared one for the key
      have htype : type = .exclusive := by
        cases type with
        | shared => exact absurd hshared (by rw [studentKey] at *; dsimp only; omega)
        | exclusive => rfl
      subst htype
      refine (hc.congr hex' fun _ _ => rfl).remove hremove fun type' key' => ?_
      have := her.held type' key'
      rw [hact0 (hcommit hp), Worker.heldAt, (hcommit hp).iter, this, Nat.add_right_comm]
  | @free _ i _ _ hp hadv hkey hrel =>
      refine (hc.congr hex' fun _ _ => rfl).release (w.lockList.locks i).type hrel
        fun type' key' => ?_
      have := LockList.heldFrom_of_advance hadv hkey type' key'
      rw [Worker.heldAt, hp, Point.iter, this, Nat.add_right_comm]
      rfl
  | finish hp hend hl _ _ _ _ =>
      -- nothing is left from the iterator on, so clearing the list gives nothing up
      refine hc.congr hex' fun type key => ?_
      rw [Worker.heldAt, Worker.heldAt, hl, LockList.heldFrom_clear, hp, Point.iter,
        LockList.heldFrom_of_end hend]

/-- A lock list that finds an exclusive lock has no shared one for the same key. -/
theorem Coupled.shared_of_getLock
    (hc : Coupled exact db fun type key => w.heldAt p type key + rest type key)
    (hi : p.iter = 0) {key : TblRow}
    (hget : w.lockList.getLock (studentKey key) = .ok .exclusive) :
    w.lockList.heldFrom 0 .shared key = 0 := by
  have hpos := LockList.heldFrom_pos_of_getLock hget
  have hown : 0 < w.heldAt p .exclusive key + rest .exclusive key := by
    rw [Worker.heldAt, hi]
    omega
  have hx := hc.exclusion hown
  rw [Worker.heldAt, Worker.heldAt, hi] at hx
  omega

/-- What one thread does keeps its queued updates and deletes for rows it has no shared lock
on: nothing is read or promoted while something is queued. -/
theorem Effect.owned (h : Effect w p db a w' p' db' out) (hw : w.Wf p) (hown : w.Owned)
    (hc : Coupled exact db fun type key => w.heldAt p type key + rest type key) : w'.Owned := by
  -- while the worker grows its queue is empty, so its locks can change freely
  have hgrow : ∀ l : LockList, w.status = .growing →
      Worker.Owned { w with lockList := l } := fun l hs e he => by
    rw [show ({ w with lockList := l } : Worker).commitQueue = w.commitQueue from rfl,
      hw.growing hs] at he
    cases he
  have hpop : w.commitQueue.empty = false → ∀ e ∈ w.commitQueue.pop.contents,
      e ∈ w.commitQueue.contents := fun he e hmem => by
    rw [(CommitQueue.contents_pop hw.queue he).2]
    exact List.mem_cons_of_mem _ hmem
  cases h with
  | stop => exact hown
  | move _ hq hl _ _ _ _ _ => rw [Worker.Owned, hq, hl]; exact hown
  | phase _ hq hl _ _ => rw [Worker.Owned, hq, hl]; exact hown
  | queue hp _ _ htarget hfull hq hl _ _ =>
      intro e he hne
      rw [hq, (CommitQueue.contents_send hw.queue hfull).2] at he
      rw [hl]
      rcases List.mem_append.mp he with he | he
      · exact hown e he hne
      · rw [List.mem_singleton.mp he] at hne ⊢
        obtain ⟨hid, hget⟩ := Worker.target_some (hw.list (by simp [hp])) htarget
        -- the new entry passed the check for the exclusive lock on its key
        refine hc.shared_of_getLock (by rw [hp]; rfl) ?_
        rw [studentKey, Worker.entryFor, ← hid]
        exact (hget hne).1
  | grantShared hs _ _ _ _ _ => exact hgrow _ hs
  | grantExclusive hs _ _ _ _ _ => exact hgrow _ hs
  | refuseShared => exact hown
  | refuseExclusive => exact hown
  | yield _ hs _ _ _ hq _ _ _ =>
      intro e he
      rw [hq, hw.growing hs] at he
      cases he
  | promote hs _ _ _ _ _ _ => exact hgrow _ hs
  | remove hp he _ _ hrm _ =>
      intro e hmem hne
      have hlist := hw.list (by simp [hp])
      obtain ⟨type, -, her⟩ := hlist.rmLock_some hrm
      have := hown e (hpop he e hmem) hne
      rw [her.held] at this
      exact (Nat.add_eq_zero_iff.mp this).1
  | free => exact hown
  | finish _ _ _ _ hcont _ _ =>
      intro e he
      rw [hcont] at he
      cases he

end PawnDB
