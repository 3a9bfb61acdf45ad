import PawnDB.System.OwnRows

set_option autoImplicit false

/-! # The drain loop of a commit ends

The loops that `process_commit` runs for a delete have no bound: they end only if the lock and
the row they look for are there. Both are, unless an earlier entry of the queue has deleted the
same row. For an insert or an update the turn has no result at all. So the queue of a commit is
drained to its end exactly if it holds deletes of different rows (`commitFinishes_iff`).
-/

namespace PawnDB

open StudentTable

namespace Worker

/-- Every queued entry is a delete, and no two are for the same row. -/
def Drainable (w : Worker) : Prop :=
  (∀ e ∈ w.commitQueue.contents, e.op = .delete) ∧
    w.commitQueue.contents.Pairwise fun e e' => e.key ≠ e'.key

instance (w : Worker) : Decidable w.Drainable := by
  unfold Drainable
  infer_instance

/-- The next turn of the drain loop has a result: the queue is empty, or its head is a delete
under the exclusive lock. -/
def drains (w : Worker) : Bool :=
  w.commitQueue.empty || (decide (w.commitQueue.get.op = .delete) &&
    w.lockList.holds w.commitQueue.get.key .exclusive)

/-- What the drain loop has made of the worker `w₀` when it has applied the entries `done`. -/
structure Drained (w₀ w : Worker) (done : List Commit) : Prop where
  queue : w₀.commitQueue.contents = done ++ w.commitQueue.contents
  removed : ∀ e ∈ done, e.op = .delete ∧ ∀ type, w.lockList.heldFrom 0 type e.key.tupleKey = 0
  once : done.Pairwise fun e e' => e.key ≠ e'.key
  others : ∀ key, (∀ e ∈ done, e.key ≠ key) → w.lockList.getLock key = w₀.lockList.getLock key

theorem Drained.refl (w : Worker) : w.Drained w [] where
  queue := rfl
  removed := fun _ h => by cases h
  once := List.Pairwise.nil
  others := fun _ _ => rfl

end Worker

variable {exact : Prop} {w₀ w w' : Worker} {p p' : Point} {db db' : StudentTable}
  {out : List Event} {rest : LockType → TblRow → Nat} {done : List Commit}

/-- A turn of the drain loop takes one more entry. -/
theorem Worker.Drained.step (hd : w₀.Drained w done)
    (h : Effect w p db .resume w' p' db' out) (hw : w.Wf p) (hk : w.Kept p)
    (hc : Coupled exact db fun type key => w.heldAt p type key + rest type key)
    (hp : p.isCommit = true) (he : w.commitQueue.empty = false) :
    w₀.Drained w' (done ++ [w.commitQueue.get]) := by
  obtain ⟨hop, key, l', hkey, hrm, -, rfl, -⟩ := h.applied hw hp he
  obtain ⟨parser, conn, hp⟩ := Point.isCommit_iff.mp hp
  have hget := hk.lock_of_rmLock (hw.list (by simp [hp])) (CommitQueue.get_mem hw.queue he)
    (by rw [hop]; decide) hkey hrm
  obtain ⟨l'', hrm', her⟩ := LockList.rmLock_of_getLock hget
  obtain rfl : l' = l'' := Option.some.inj (hrm.symm.trans hrm')
  have hgone := hc.gone_of_erased (by rw [hp]; rfl) hget her
  -- the row is not one that was removed before: its lock was still there
  have hfresh : ∀ e ∈ done, e.key ≠ w.commitQueue.get.key := fun e hmem heq => by
    have hpos := LockList.heldFrom_pos_of_getLock hget
    have hzero := (hd.removed e hmem).2 .exclusive
    rw [heq, hkey, studentKey] at hzero
    dsimp only at hzero
    omega
  constructor
  · rw [hd.queue, (CommitQueue.contents_pop hw.queue he).2, List.append_assoc]
    rfl
  · intro e hmem
    rcases List.mem_append.mp hmem with hmem | hmem
    · refine ⟨(hd.removed e hmem).1, fun type => ?_⟩
      have hzero := (hd.removed e hmem).2 type
      rw [her.held] at hzero
      exact (Nat.add_eq_zero_iff.mp hzero).1
    · rw [List.mem_singleton.mp hmem, hkey]
      exact ⟨hop, hgone⟩
  · rw [List.pairwise_append]
    refine ⟨hd.once, List.pairwise_singleton _ _, fun e hmem e' hmem' => ?_⟩
    rw [List.mem_singleton.mp hmem']
    exact hfresh e hmem
  · intro key' hne
    have hne' : key' ≠ studentKey key := fun heq =>
      hne _ (List.mem_append_right _ (List.mem_singleton.mpr rfl)) (by rw [hkey, heq])
    rw [her.others key' hne']
    exact hd.others key' fun e hmem => hne e (List.mem_append_left _ hmem)

/-- Every entry that is left is a delete under the exclusive lock, and no two are for the same
row. -/
def Worker.DrainsOut (w : Worker) : Prop :=
  w.Drainable ∧ ∀ e ∈ w.commitQueue.contents, w.lockList.getLock e.key = .ok .exclusive

theorem Worker.DrainsOut.drains_eq (h : w.DrainsOut) (hq : w.commitQueue.Wf) : w.drains = true := by
  cases he : w.commitQueue.empty with
  | true => rw [Worker.drains, he, Bool.true_or]
  | false =>
      have hmem := CommitQueue.get_mem hq he
      rw [Worker.drains, he, Bool.false_or, decide_eq_true (h.1.1 _ hmem),
        LockList.holds_iff.mpr (h.2 _ hmem), Bool.and_self]

/-- An entry that is left is for another row than those that were applied, so its lock is still
there. -/
theorem Worker.Drained.drainsOut {done : List Commit} (hd : w.Drained w' done)
    (h : w.DrainsOut) : w'.DrainsOut := by
  obtain ⟨⟨hdel, honce⟩, hlock⟩ := h
  rw [hd.queue] at hdel honce hlock
  rw [List.pairwise_append] at honce
  refine ⟨⟨fun e he => hdel e (List.mem_append_right _ he), honce.2.1⟩, fun e he => ?_⟩
  rw [hd.others e.key fun e' he' => honce.2.2 e' he' e he]
  exact hlock e (List.mem_append_right _ he)

/-- A turn of the drain loop leaves entries that drain out if those before it did. -/
theorem Effect.drainsOut_iff (h : Effect w p db .resume w' p' db' out) (hw : w.Wf p)
    (hk : w.Kept p)
    (hc : Coupled exact db fun type key => w.heldAt p type key + rest type key)
    (hp : p.isCommit = true) (he : w.commitQueue.empty = false) :
    w'.DrainsOut ↔ w.DrainsOut := by
  have hd : w.Drained w' [w.commitQueue.get] := (Worker.Drained.refl w).step h hw hk hc hp he
  have hcont : w.commitQueue.contents = w.commitQueue.get :: w'.commitQueue.contents := hd.queue
  obtain ⟨hop, hgone⟩ := hd.removed _ (List.mem_singleton_self _)
  have hsame : ∀ e ∈ w'.commitQueue.contents, w.commitQueue.get.key ≠ e.key →
      w'.lockList.getLock e.key = w.lockList.getLock e.key := fun e _ hne =>
    hd.others e.key fun e' he' => by rwa [List.mem_singleton.mp he']
  refine ⟨?_, hd.drainsOut⟩
  unfold Worker.DrainsOut Worker.Drainable
  rw [hcont, List.pairwise_cons]
  simp only [List.forall_mem_cons]
  rintro ⟨⟨hdel, hpair⟩, hlock⟩
  -- the lock of the entry that was applied is gone, so no other entry is for its row
  have hne : ∀ e ∈ w'.commitQueue.contents, w.commitQueue.get.key ≠ e.key := fun e hmem heq => by
    obtain ⟨-, key, l', hkey, -, -, rfl, -⟩ := h.applied hw hp he
    have hget := hlock e hmem
    rw [← heq, hkey] at hget
    have hpos := LockList.heldFrom_pos_of_getLock hget
    have hzero := hgone .exclusive
    rw [hkey, studentKey] at hzero
    dsimp only at hzero hpos
    omega
  refine ⟨⟨⟨hop, hdel⟩, hne, hpair⟩, ?_, fun e hmem => ?_⟩
  · obtain ⟨-, key, l', hkey, hrm, -⟩ := h.applied hw hp he
    obtain ⟨parser, conn, hpt⟩ := Point.isCommit_iff.mp hp
    rw [hkey]
    exact hk.lock_of_rmLock (hw.list (by simp [hpt])) (CommitQueue.get_mem hw.queue he)
      (by rw [hop]; decide) hkey hrm
  · rw [← hsame e hmem (hne e hmem)]
    exact hlock e hmem

/-- A request that starts a drain loop leaves the queue and the locks as they are. -/
theorem Effect.start {job : Job} (h : Effect w p db (.recv job) w' p' db' out)
    (hp : p'.isCommit = true) :
    w'.commitQueue = w.commitQueue ∧ w'.lockList = w.lockList := by
  cases h with
  | move _ hq hl => exact ⟨hq, hl⟩
  | phase | queue | yield => cases hp

def Act.isResume : Act → Bool
  | .resume => true
  | _ => false

namespace System

variable {ι : Type} [DecidableEq ι]

/-- The number of turns that thread `i` makes in a history. -/
def turns (i : ι) (h : List (Entry (System ι) (ι × Act) Event)) : Nat :=
  h.countP fun e => decide (e.act.1 = i) && e.act.2.isResume

/-- If thread `i` is at the start of its drain loop, then whatever the other threads do, each of
its turns is possible and applies one entry: the lock and the row that a delete needs are there,
and so is the row that an update is written to. With nothing left the thread leaves the loop. -/
def CommitFinishes (s : System ι) (i : ι) : Prop :=
  ∀ parser conn, (s.threads i).point = .commit parser conn → ∀ k t, (machine ι).Run s k t →
    turns i k ≤ (s.threads i).worker.commitQueue.contents.length →
      (t.threads i).point = .commit parser conn ∧
      (t.threads i).worker.commitQueue.contents
        = (s.threads i).worker.commitQueue.contents.drop (turns i k) ∧
      (∀ e, (t.threads i).worker.commitQueue.contents.head? = some e →
        (e.op = .delete → (t.threads i).worker.lockList.getLock e.key = .ok .exclusive ∧
          ∃ p, t.students.IsRow e.key.tupleKey p) ∧
        (e.op = .update → ∃ b p, e.buffer = some b ∧
          t.students.IsRow (StudentTuple.copyFrom b).key p)) ∧
      ∃ t' out, t.step (i, .resume) = some (t', out) ∧
        ((t.threads i).worker.commitQueue.contents = [] → (t'.threads i).point = .release 0)

/-! ## The turns of the drain loop -/

/-- When a commit request is taken up, the worker has the lock for every queued update and
delete. -/
theorem locked_of_start [Fintype ι] {db : StudentTable} (hdb : db.AtRest) {txnIds : ι → TxnId}
    {h : List (Entry (System ι) (ι × Act) Event)} {r s : System ι}
    (hr : (machine ι).Run (init db txnIds) h r) {i : ι} {job : Job} {out : List Event}
    (hs : r.step (i, .recv job) = some (s, out)) (hp : (s.threads i).point.isCommit = true)
    {e : Commit} (he : e ∈ (s.threads i).worker.commitQueue.contents) (hop : e.op ≠ .addTuple) :
    (s.threads i).worker.lockList.getLock e.key = .ok .exclusive := by
  obtain ⟨th, hth, hs'⟩ := step_eq hs
  rw [hs', Slots.set_self] at hp he ⊢
  have hrecv : (r.threads i).point = .recv := by
    unfold WorkerThread.step at hth
    dsimp only at hth
    split at hth
    · assumption
    · cases hth
  obtain ⟨hq, hl⟩ := (WorkerThread.step_effect (threads_of_run hr i) hth).start hp
  rw [hq] at he
  rw [hl]
  exact (kept_of_run hdb hr i).lock (by rw [hrecv]; rfl) he hop

theorem turns_snoc (i : ι) (h : List (Entry (System ι) (ι × Act) Event))
    (e : Entry (System ι) (ι × Act) Event) : turns i (h ++ [e])
      = turns i h + if e.act.1 = i ∧ e.act.2.isResume = true then 1 else 0 := by
  simp [turns, List.countP_append, List.countP_singleton]

/-- The turn of the drain loop that finds nothing left. -/
theorem step_drained {s : System ι} {i : ι} {parser : JobBuf} {conn : ClientConn}
    (hp : (s.threads i).point = .commit parser conn)
    (he : (s.threads i).worker.commitQueue.empty = true) :
    ∃ s' out, s.step (i, .resume) = some (s', out) ∧ (s'.threads i).point = .release 0 := by
  refine ⟨_, _, by rw [step, WorkerThread.step, WorkerThread.resume, hp]; dsimp only
                   rw [Worker.commitTurn, if_pos he]; rfl, ?_⟩
  simp only [Slots.set_self]

/-- **When a turn of the drain loop has a result.** -/
theorem commit_resume_iff [Fintype ι] {db : StudentTable} (hdb : db.AtRest) {txnIds : ι → TxnId}
    {h : List (Entry (System ι) (ι × Act) Event)} {s : System ι}
    (hr : (machine ι).Run (init db txnIds) h s) {i : ι}
    (hp : (s.threads i).point.isCommit = true) :
    (∃ t, (s.threads i).resume s.students = some t) ↔ (s.threads i).worker.drains = true := by
  have hinv := inv_of_run hdb hr
  have hw := hinv.thread i
  obtain ⟨parser, conn, hpt⟩ := Point.isCommit_iff.mp hp
  cases he : (s.threads i).worker.commitQueue.empty with
  | true =>
      rw [WorkerThread.resume, hpt]
      simp [Worker.commitTurn, Worker.drains, he]
  | false =>
      have hmem := CommitQueue.get_mem hw.queue he
      rw [Worker.drains, he, Bool.false_or, Bool.and_eq_true, decide_eq_true_iff,
        LockList.holds_iff]
      constructor
      · rintro ⟨t, ht⟩
        have hth : (s.threads i).step s.students .resume = some ((s.threads i).after t) := by
          rw [WorkerThread.step, ht]
          rfl
        obtain ⟨hop, key, l', hkey, hrm, -, -, -⟩ :=
          (WorkerThread.step_effect hw hth).applied hw hp he
        refine ⟨hop, ?_⟩
        rw [hkey]
        exact (kept_of_run hdb hr i).lock_of_rmLock (hw.list (by simp [hpt])) hmem
          (by rw [hop]; decide) hkey hrm
      · rintro ⟨hop, hget⟩
        -- the row that the lock is on is live, so both loops end
        have hkey := (hw.entries _ hmem).key_eq
        rw [hkey] at hget
        obtain ⟨p, hrow⟩ := hinv.isRow_of_getLock (by rw [hpt]; rfl) hget
        obtain ⟨l', hl', -⟩ := LockList.rmLock_of_getLock hget
        obtain ⟨db', hdb'⟩ := traitRemove_isSome (seekKey_of_isRow hinv.coupled.table hrow)
        rw [WorkerThread.resume, hpt]
        exact ⟨_, Worker.commitTurn_remove he hop (hw.entries _ hmem).tableId
          (by rw [hkey]; exact hl') hdb'⟩

/-- A turn of the drain loop that applies an entry. -/
theorem commit_applied [Fintype ι] {db : StudentTable} (hdb : db.AtRest) {txnIds : ι → TxnId}
    {h : List (Entry (System ι) (ι × Act) Event)} {s s' : System ι}
    (hr : (machine ι).Run (init db txnIds) h s) {i : ι} {out : List Event}
    (hs : s.step (i, .resume) = some (s', out)) (hp : (s.threads i).point.isCommit = true)
    (he : (s.threads i).worker.commitQueue.empty = false) :
    ((s'.threads i).worker.DrainsOut ↔ (s.threads i).worker.DrainsOut) ∧
      (s'.threads i).point = (s.threads i).point ∧
      (s.threads i).worker.commitQueue.contents
        = (s.threads i).worker.commitQueue.get :: (s'.threads i).worker.commitQueue.contents := by
  obtain ⟨th, hth, hs'⟩ := step_eq hs
  rw [hs', Slots.set_self]
  have hinv := inv_of_run hdb hr
  have hw := hinv.thread i
  have heff := WorkerThread.step_effect hw hth
  have hk := kept_of_run hdb hr i
  obtain ⟨rest, -, hc⟩ := hinv.coupled_thread i
  obtain ⟨-, _, _, -, -, -, -, hp'⟩ := heff.applied hw hp he
  exact ⟨heff.drainsOut_iff hw hk hc hp he, hp',
    ((Worker.Drained.refl _).step heff hw hk hc hp he).queue⟩

/-- While thread `i` has entries to apply, only its own turns take it on, and each of them
applies one entry. -/
theorem drained_of_run [Fintype ι] {db : StudentTable} (hdb : db.AtRest) {txnIds : ι → TxnId}
    {h : List (Entry (System ι) (ι × Act) Event)} {s : System ι}
    (hr : (machine ι).Run (init db txnIds) h s) {i : ι} {parser : JobBuf} {conn : ClientConn}
    (hp : (s.threads i).point = .commit parser conn)
    {k : List (Entry (System ι) (ι × Act) Event)} {t : System ι} (hk : (machine ι).Run s k t)
    (hn : turns i k ≤ (s.threads i).worker.commitQueue.contents.length) :
    (t.threads i).point = .commit parser conn ∧ ∃ done, done.length = turns i k ∧
      (s.threads i).worker.Drained (t.threads i).worker done := by
  revert hn
  refine hk.invariant (P := fun k t =>
    turns i k ≤ (s.threads i).worker.commitQueue.contents.length →
      (t.threads i).point = .commit parser conn ∧ ∃ done, done.length = turns i k ∧
        (s.threads i).worker.Drained (t.threads i).worker done)
    (fun _ => ⟨hp, [], rfl, .refl _⟩) ?_
  intro l u a out v hl ih hs hn
  rw [turns_snoc] at hn ⊢
  obtain ⟨hpu, done, hlen, hd⟩ := ih (by omega)
  obtain ⟨th, hth, hv⟩ := step_eq hs
  by_cases hi : i = a.1
  · subst hi
    rw [hv, Slots.set_self]
    have hinv := inv_of_run hdb (hr.trans hl)
    have hw := hinv.thread a.1
    have heff := WorkerThread.step_effect hw hth
    obtain ⟨i, act⟩ := a
    dsimp only at hth hn heff hw hpu hd hlen ⊢
    -- a step that is not a turn leaves the drain loop where it is
    cases act with
    | recv job => rw [WorkerThread.step, hpu] at hth; cases hth
    | recvTimeout => rw [WorkerThread.step, hpu] at hth; cases hth
    | stop =>
        obtain ⟨rfl, -⟩ := Prod.mk.inj (Option.some.inj hth)
        rw [if_neg fun hc => Bool.false_ne_true hc.2, Nat.add_zero]
        exact ⟨hpu, done, hlen, hd⟩
    | resume =>
        rw [if_pos ⟨rfl, rfl⟩] at hn ⊢
        -- there is still an entry, so the turn applies it
        have he : (u.threads i).worker.commitQueue.empty = false := by
          rw [← Bool.not_eq_true, CommitQueue.empty_iff]
          intro hnil
          have := congrArg List.length hd.queue
          rw [hnil, List.append_nil, hlen] at this
          omega
        have hpc : (u.threads i).point.isCommit = true := by rw [hpu]; rfl
        obtain ⟨rest, -, hc⟩ := hinv.coupled_thread _
        obtain ⟨-, _, _, -, -, -, -, hp'⟩ := heff.applied hw hpc he
        exact ⟨hp'.trans hpu, done ++ [(u.threads i).worker.commitQueue.get],
          by rw [List.length_append, hlen]; rfl,
          hd.step heff hw (kept_of_run hdb (hr.trans hl) _) hc hpc he⟩
  · rw [hv, Slots.set_of_ne _ _ hi, if_neg fun hc => hi hc.1.symm, Nat.add_zero]
    exact ⟨hpu, done, hlen, hd⟩

/-- If every turn of the drain loop is possible, then the queue can be drained to its end. -/
theorem CommitFinishes.exists_run {s : System ι} {i : ι} (hf : CommitFinishes s i)
    {parser : JobBuf} {conn : ClientConn} (hp : (s.threads i).point = .commit parser conn) :
    ∀ n ≤ (s.threads i).worker.commitQueue.contents.length,
      ∃ k t, (machine ι).Run s k t ∧ turns i k = n := by
  intro n
  induction n with
  | zero => exact fun _ => ⟨[], s, .nil s, rfl⟩
  | succ n ih =>
      intro hn
      obtain ⟨k, t, hk, hturns⟩ := ih (by omega)
      obtain ⟨-, -, -, t', out, hstep, -⟩ := hf parser conn hp k t hk (by omega)
      refine ⟨k ++ [⟨t, (i, .resume), out, t'⟩], t', hk.snoc hstep, ?_⟩
      rw [turns_snoc, if_pos ⟨rfl, rfl⟩, hturns]

/-- **When a commit finishes.** -/
theorem commitFinishes_iff [Fintype ι] {db : StudentTable} (hdb : db.AtRest) {txnIds : ι → TxnId}
    {h : List (Entry (System ι) (ι × Act) Event)} {r s : System ι}
    (hr : (machine ι).Run (init db txnIds) h r) {i : ι} {job : Job} {out : List Event}
    (hs : r.step (i, .recv job) = some (s, out)) (hp : (s.threads i).point.isCommit = true) :
    CommitFinishes s i ↔ (s.threads i).worker.Drainable := by
  have hrs : (machine ι).Run (init db txnIds) _ s := hr.snoc hs
  obtain ⟨parser, conn, hpt⟩ := Point.isCommit_iff.mp hp
  constructor
  · intro hf
    obtain ⟨k, t, hk, hturns⟩ := hf.exists_run hpt _ le_rfl
    obtain ⟨-, done, hlen, hd⟩ := drained_of_run hdb hrs hpt hk (by omega)
    -- all entries have been applied
    have hall : (s.threads i).worker.commitQueue.contents = done := by
      have hlast : (t.threads i).worker.commitQueue.contents = [] := by
        have := congrArg List.length hd.queue
        rw [List.length_append] at this
        exact List.length_eq_zero_iff.mp (by omega)
      rw [hd.queue, hlast, List.append_nil]
    rw [Worker.Drainable, hall]
    exact ⟨fun e he => (hd.removed e he).1, hd.once⟩
  · intro hdrain parser' conn' hpt' k t hk hn
    obtain ⟨hpt2, done, hlen, hd⟩ := drained_of_run hdb hrs hpt' hk hn
    have hrt := hrs.trans hk
    have hinv := inv_of_run hdb hrt
    have hw := hinv.thread i
    have hpc : (t.threads i).point.isCommit = true := by rw [hpt2]; rfl
    have hdrop : (t.threads i).worker.commitQueue.contents
        = (s.threads i).worker.commitQueue.contents.drop (turns i k) := by
      rw [hd.queue, ← hlen, List.drop_left]
    have hstart : (s.threads i).worker.DrainsOut := ⟨hdrain, fun e he =>
      locked_of_start hdb hr hs hp he (by rw [hdrain.1 e he]; decide)⟩
    have hleft : (t.threads i).worker.DrainsOut := hd.drainsOut hstart
    refine ⟨hpt2, hdrop, fun e he => ?_, ?_⟩
    · have hmem := List.mem_of_mem_head? he
      have hget := hleft.2 e hmem
      obtain ⟨p, hrow⟩ := hinv.isRow_of_getLock (by rw [hpt2]; rfl)
        ((hw.entries e hmem).key_eq ▸ hget)
      exact ⟨fun _ => ⟨hget, p, hrow⟩,
        fun hup => absurd ((hleft.1.1 e hmem).symm.trans hup) (by decide)⟩
    · cases he : (t.threads i).worker.commitQueue.empty with
      | true =>
          obtain ⟨t', out, hs, hpt'⟩ := step_drained hpt2 he
          exact ⟨t', out, hs, fun _ => hpt'⟩
      | false =>
          obtain ⟨turn, hturn⟩ :=
            (commit_resume_iff hdb hrt hpc).mpr (hleft.drains_eq hw.queue)
          obtain ⟨t', hs, -⟩ := step_resume hturn
          refine ⟨t', _, hs, fun hnil => ?_⟩
          rw [CommitQueue.empty_iff.mpr hnil] at he
          cases he

/-- The commit of the only row's delete. -/
theorem commitFinishes_iff_delete : ∃ s : System (Fin 2),
    (s.threads 1).point.isCommit = true ∧ (s.threads 1).worker.commitQueue.empty = false ∧
      CommitFinishes s 1 := by
  obtain ⟨h, r, s, out, hr, hs, hp⟩ := Machine.exists_step_of_exec (M := machine (Fin 2))
    (s := init (ofTuples [.empty]) fun _ => 0)
    (p := fun _ _ s _ => decide ((s.threads 1).point.isCommit = true ∧
      (s.threads 1).worker.commitQueue.empty = false ∧ (s.threads 1).worker.Drainable))
    (a := (1, .recv (.request .commitTxn 1 0 [])))
    (show (((machine (Fin 2)).exec _ (deleteAgain 1 0).dropLast).bind _) = some true by
      decide +kernel)
  simp only [decide_eq_true_eq] at hp
  exact ⟨s, hp.1, hp.2.1, (commitFinishes_iff (atRest_ofTuples _) hr hs hp.1).mpr hp.2.2⟩

/-- The second delete of one row is accepted, and at the commit its lock is gone. -/
theorem not_always_commitFinishes : ¬ ∀ (db : StudentTable) (txnIds : Fin 2 → TxnId)
    (h : List (Entry (System (Fin 2)) (Fin 2 × Act) Event)) (r s : System (Fin 2)) (job : Job)
    (out : List Event), db.AtRest → (machine (Fin 2)).Run (init db txnIds) h r →
      r.step (1, .recv job) = some (s, out) → CommitFinishes s 1 := by
  intro hall
  obtain ⟨h, r, s, out, hr, hs, hp⟩ := Machine.exists_step_of_exec (M := machine (Fin 2))
    (s := init (ofTuples [.empty]) fun _ => 0)
    (p := fun _ _ s _ => decide ((s.threads 1).point.isCommit = true ∧
      (s.threads 1).worker.commitQueue.contents.length = 2 ∧
      ((s.step (1, .resume)).bind fun r => r.1.step (1, .resume)).isNone = true))
    (a := (1, .recv (.request .commitTxn 1 0 [])))
    (show (((machine (Fin 2)).exec _ (deleteAgain 2 0).dropLast).bind _) = some true by
      decide +kernel)
  simp only [decide_eq_true_eq] at hp
  obtain ⟨hpt, hlen, hnone⟩ := hp
  obtain ⟨parser, conn, hpt⟩ := Point.isCommit_iff.mp hpt
  have hf := hall _ _ h r s _ out (atRest_ofTuples _) hr hs parser conn hpt
  -- the first delete is applied, and then the commit never comes back from the second
  obtain ⟨-, -, -, s1, out1, hs1, -⟩ := hf [] s (.nil s) (by simp [turns])
  obtain ⟨-, -, -, s2, out2, hs2, -⟩ := hf _ s1 (Machine.Run.single hs1)
    (by rw [hlen]; simp [turns, Act.isResume])
  rw [hs1, Option.bind_some, hs2] at hnone
  cases hnone

end System

end PawnDB
