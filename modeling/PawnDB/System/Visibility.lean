import PawnDB.System.Drain

set_option autoImplicit false

/-! # What other transactions see of a commit

The table's mutex covers one operation, not the drain loop, so a commit changes the table entry by
entry. What it changes no other transaction can read. It never inserts or writes a row, since a
turn that comes to such an entry has no result; and each row that it removes was locked
exclusively, so the rows that can be read are the same after each of its turns. The rows that its
updates and deletes are for stay hidden until the queue is drained (`seenWhole_of_run`).
-/

namespace PawnDB

open LockWord StudentTable

/-- **A row that is recorded as locked exclusively is granted to nobody.** -/
theorem Coupled.not_granted {exact : Prop} {t t' : StudentTable}
    {held : LockType → TblRow → Nat} (h : Coupled exact t held) {tuple : StudentTuple}
    (hwait : t.traitWaitShared = (.ok tuple, t') ∨ t.traitWaitExclusive = (.ok tuple, t')) :
    held .exclusive tuple.key = 0 := by
  by_contra hne
  obtain ⟨i, hlive, hlock, rfl⟩ : ∃ i, t.live i = true ∧ 0 ≤ (t.table i).lock ∧
      (t.table i).tuple = tuple := by
    rcases hwait with hwait | hwait
    · obtain ⟨i, hlive, hlock, htuple, -⟩ := traitWaitShared_ok hwait
      exact ⟨i, hlive, hlock, htuple⟩
    · obtain ⟨i, hlive, hlock, htuple, -⟩ := traitWaitExclusive_ok hwait
      exact ⟨i, hlive, by rw [hlock]; decide, htuple⟩
  obtain ⟨a, b, hs, -⟩ := h.words i hlive
  obtain ⟨-, -, hneg⟩ := hs.exclusion (Nat.lt_of_lt_of_le (Nat.pos_of_ne_zero hne)
    (Nat.le_add_right _ _))
  rw [hneg] at hlock
  exact absurd hlock (by decide)

variable {w w' : Worker} {p p' : Point} {db db' : StudentTable} {a : Act} {out : List Event}
  {exact : Prop} {rest : LockType → TblRow → Nat}

/-- A remove leaves no row with its key. -/
theorem StudentTable.traitRemove_none_left {t t' : StudentTable} (hw : t.Wf) {key : TblRow}
    (h : t.traitRemove key = some t') {q : Fin rows} (hq : t.IsRow key q) :
    ∀ j, ¬ t'.IsRow key j := by
  obtain ⟨i, hseek, hrm⟩ := traitRemove_some h
  obtain rfl := isRow_of_seekKey hw hq hseek
  intro j hj
  have hne := hrm.ne_of_live hj.1
  refine hne (IsRow.unique hw ⟨?_, ?_⟩ hq)
  · rw [← hrm.live_of_ne hne]; exact hj.1
  · rw [← hrm.keyOf]; exact hj.2

/-- In the drain loop an exclusive lock is given up only with the row. -/
theorem Effect.held_or_removed (h : Effect w p db a w' p' db' out) (hw : w.Wf p) (ht : db.Wf)
    (hp : p.isCommit = true) {key : TblRow} {q : Fin rows} (hq : db.IsRow key q)
    (hheld : 0 < w.lockList.heldFrom 0 .exclusive key) :
    0 < w'.lockList.heldFrom 0 .exclusive key ∨ ∀ j, ¬ db'.IsRow key j := by
  obtain ⟨parser, conn, hp⟩ := Point.isCommit_iff.mp hp
  subst hp
  cases h with
  | stop => exact Or.inl hheld
  | move _ _ hl _ _ _ _ _ => exact Or.inl (hl ▸ hheld)
  | phase _ _ hl _ _ => exact Or.inl (hl ▸ hheld)
  | queue hp => cases hp
  | grantShared _ hp => cases hp
  | grantExclusive _ hp => cases hp
  | refuseShared _ hp => cases hp
  | refuseExclusive _ hp => cases hp
  | yield hp => cases hp
  | promote hs =>
      rw [hw.shrinking rfl] at hs
      cases hs
  | @remove _ _ key' _ _ _ _ _ _ hrm hremove =>
      -- only a delete of this very row takes its lock off the list
      by_cases hk : key = key'
      · subst hk
        exact Or.inr (traitRemove_none_left ht hremove hq)
      · obtain ⟨type, -, her⟩ := (hw.list (by simp)).rmLock_some hrm
        rw [her.held, if_neg fun hc => hk hc.2, Nat.add_zero] at hheld
        exact Or.inl hheld
  | free hp => cases hp
  | finish hp => cases hp

/-- No step inserts or writes a row. -/
theorem Effect.not_written (h : Effect w p db a w' p' db' out) {e : Event} (he : e ∈ out)
    (tuple : StudentTuple) : e ≠ .insert tuple ∧ e ≠ .write tuple := by
  have hplain : ∀ {e : Event}, e.plain = true → e ≠ .insert tuple ∧ e ≠ .write tuple :=
    fun hp => by
      constructor
      · rintro rfl
        cases hp
      · rintro rfl
        cases hp
  have hcons : ∀ {x : Event} {out : List Event}, Plain out → e ∈ x :: out →
      (x ≠ .insert tuple ∧ x ≠ .write tuple) → e ≠ .insert tuple ∧ e ≠ .write tuple :=
    fun ho hmem hx => by
      rcases List.mem_cons.mp hmem with rfl | hmem
      · exact hx
      · exact hplain (ho _ hmem)
  cases h with
  | stop => cases he
  | move _ _ _ _ _ _ _ ho => exact hplain (ho _ he)
  | phase _ _ _ _ ho => exact hplain (ho _ he)
  | queue _ _ _ _ _ _ _ _ ho => exact hplain (ho _ he)
  | grantShared _ _ _ _ _ ho => exact hcons ho he ⟨by simp, by simp⟩
  | grantExclusive _ _ _ _ _ ho => exact hcons ho he ⟨by simp, by simp⟩
  | refuseShared _ _ _ _ ho => exact hcons ho he ⟨by simp, by simp⟩
  | refuseExclusive _ _ _ _ ho => exact hcons ho he ⟨by simp, by simp⟩
  | yield _ _ _ _ _ _ _ _ ho => exact hcons ho he ⟨by simp, by simp⟩
  | promote _ _ _ _ _ _ ho => exact hcons ho he ⟨by simp, by simp⟩
  | remove => exact hcons plain_nil he ⟨by simp, by simp⟩
  | free => exact hcons plain_nil he ⟨by simp, by simp⟩
  | finish _ _ _ _ _ _ ho => exact hplain (ho _ he)

/-- A read can be granted the row in this slot. -/
def StudentTable.Readable (t : StudentTable) (i : Fin rows) : Prop :=
  t.live i = true ∧ 0 ≤ (t.table i).lock

/-- The rows that can be read are the same. -/
def SameReads (t t' : StudentTable) : Prop :=
  ∀ i, (t'.Readable i ↔ t.Readable i) ∧ (t.Readable i → t'.table i = t.table i)

theorem SameReads.refl (t : StudentTable) : SameReads t t := fun _ => ⟨Iff.rfl, fun _ => rfl⟩

theorem sameReads_of_removed {i : Fin rows} (h : Removed db i db')
    (hlock : (db.table i).lock = -1) : SameReads db db' := by
  intro j
  by_cases hj : j = i
  · subst hj
    have hno : ¬ db.Readable j := fun hr => absurd (hlock ▸ hr.2) (by decide)
    have hno' : ¬ db'.Readable j := fun hr => absurd (h.live_self.symm.trans hr.1) (by decide)
    exact ⟨iff_of_false hno' hno, fun hr => absurd hr hno⟩
  · have hrow := h.row_of_ne hj
    exact ⟨by rw [Readable, Readable, h.live_of_ne hj, hrow], fun _ => hrow⟩

/-- **A turn of the drain loop changes nothing that can be read.** -/
theorem Effect.sameReads (h : Effect w p db a w' p' db' out) (hw : w.Wf p) (hk : w.Kept p)
    (hc : Coupled exact db fun type key => w.heldAt p type key + rest type key)
    (hp : p.isCommit = true) : SameReads db db' := by
  obtain ⟨parser, conn, hp⟩ := Point.isCommit_iff.mp hp
  cases h with
  | stop => exact .refl _
  | move => exact .refl _
  | phase => exact .refl _
  | promote hs =>
      rw [hw.shrinking hp] at hs
      cases hs
  | @remove _ _ key _ _ _ he hop hkey hrm hremove =>
      have hget := hk.lock_of_rmLock (hw.list (by simp [hp])) (CommitQueue.get_mem hw.queue he)
        (by rw [hop]; decide) hkey hrm
      have hpos := LockList.heldFrom_pos_of_getLock hget
      have hheld : 0 < w.heldAt p .exclusive key + rest .exclusive key := by
        rw [Worker.heldAt, show p.iter = 0 by rw [hp]; rfl]
        omega
      obtain ⟨q, hrow⟩ := hc.isRow_of_held hheld
      obtain ⟨i, hseek, hdel⟩ := traitRemove_some hremove
      obtain rfl := isRow_of_seekKey hc.table hrow hseek
      -- the removed row was locked exclusively
      obtain ⟨x, y, hshows, -⟩ := hc.words i hrow.1
      rw [hrow.2] at hshows
      exact sameReads_of_removed hdel (hshows.exclusion (by omega)).2.2
  | queue hp' | grantShared _ hp' | grantExclusive _ hp' | refuseShared _ hp'
  | refuseExclusive _ hp' | yield hp' | free hp' | finish hp' => rw [hp] at hp'; cases hp'

namespace System

variable {ι : Type} [DecidableEq ι]

/-- Thread `i` has the exclusive lock on the student with this key, or has deleted it. -/
def Hidden (s : System ι) (i : ι) (key : TblRow) : Prop :=
  0 < (s.threads i).worker.lockList.heldFrom 0 .exclusive key ∨ ∀ p, ¬ s.students.IsRow key p

/-- While thread `i` drains its queue its locked rows stay hidden. -/
theorem Hidden.step [Fintype ι] {s s' : System ι} {i : ι} {key : TblRow} {a : ι × Act}
    {out : List Event} (hh : s.Hidden i key) (hinv : s.Inv exact)
    (hp : (s.threads i).point.isCommit = true) (h : s.step a = some (s', out)) :
    s'.Hidden i key := by
  obtain ⟨th, hth, hs'⟩ := step_eq h
  have heff := WorkerThread.step_effect (hinv.thread a.1) hth
  by_cases hrow : ∃ q, s.students.IsRow key q
  · obtain ⟨q, hq⟩ := hrow
    have hheld := hh.resolve_right fun hno => hno q hq
    by_cases hi : i = a.1
    · subst hi
      rw [Hidden, hs', Slots.set_self]
      exact heff.held_or_removed (hinv.thread a.1) hinv.coupled.table hp hq hheld
    · rw [Hidden, hs', Slots.set_of_ne _ _ hi]
      exact Or.inl hheld
  · -- the row is gone, and no step brings it back
    refine Or.inr fun q hq => hrow ⟨q, heff.fewer.live q hq.1, ?_⟩
    rw [← heff.fewer.keyOf]
    exact hq.2

/-- A granted row is not hidden. -/
theorem Hidden.not_granted [Fintype ι] {s s' : System ι} {i : ι} {key : TblRow} {a : ι × Act}
    {out : List Event} (hh : s.Hidden i key) (hinv : s.Inv exact)
    (hp : (s.threads i).point.iter = 0) (h : s.step a = some (s', out))
    {type : LockType} {tuple : StudentTuple} (hm : .granted type tuple ∈ out) :
    key ≠ tuple.key := by
  rintro rfl
  obtain ⟨th, hth, -⟩ := step_eq h
  obtain ⟨-, hcase⟩ := (WorkerThread.step_effect (hinv.thread a.1) hth).granted hm
  have hwait : s.students.traitWaitShared = (.ok tuple, s'.students) ∨
      s.students.traitWaitExclusive = (.ok tuple, s'.students) :=
    hcase.imp (fun ⟨_, _, _, _, hw⟩ => hw) (fun ⟨_, _, _, _, hw⟩ => hw)
  rcases hh with hheld | hno
  · have hle := s.heldAt_le_held i .exclusive tuple.key
    rw [Worker.heldAt, hp, hinv.coupled.not_granted hwait] at hle
    omega
  · rcases hwait with hw | hw
    · obtain ⟨j, hlive, -, htuple, -⟩ := traitWaitShared_ok hw
      exact hno j ⟨hlive, by rw [← htuple]; rfl⟩
    · obtain ⟨j, hlive, -, htuple, -⟩ := traitWaitExclusive_ok hw
      exact hno j ⟨hlive, by rw [← htuple]; rfl⟩

theorem hidden_along [Fintype ι] {db : StudentTable} (hdb : db.AtRest) {txnIds : ι → TxnId}
    {i : ι} {s t : System ι} {h k : List (Entry (System ι) (ι × Act) Event)}
    (hr : (machine ι).Run (init db txnIds) h s) (hk : (machine ι).Run s k t)
    (hdrain : ∀ e ∈ k, (e.pre.threads i).point.isCommit = true) {key : TblRow}
    (h0 : s.Hidden i key) : t.Hidden i key :=
  hk.invariant_within (P := fun _ u => u.Hidden i key) hdrain h0
    fun _ _ _ _ _ hl _ ih hs hcommit => ih.step (inv_of_run hdb (hr.trans hl)) hcommit hs

/-! ## A commit as a whole -/

/-- A row is returned that another worker's commit has inserted or written, and then all entries
of that commit are applied. -/
def Atomic (h : List (Entry (System ι) (ι × Act) Event)) (e : Entry (System ι) (ι × Act) Event) :
    Prop :=
  ∀ type tuple, .granted type tuple ∈ e.out → ∀ c ∈ h, c.act.1 ≠ e.act.1 →
    (∃ t, .insert t ∈ c.out ∧ c.pre.students.nextKey = tuple.key ∨
      .write t ∈ c.out ∧ t.key = tuple.key) →
    (e.pre.threads c.act.1).worker.commitQueue.contents = []

/-- No read is granted a row that an update or a delete of thread `i` is for. -/
def HidesRows (i : ι) (s : System ι) (k : List (Entry (System ι) (ι × Act) Event)) : Prop :=
  ∀ e ∈ k, ∀ type tuple, .granted type tuple ∈ e.out →
    ∀ q ∈ (s.threads i).worker.commitQueue.contents, q.op ≠ .addTuple →
      q.key.tupleKey ≠ tuple.key

/-- Every commit of the history is seen as a whole: no read returns a row of an unfinished
commit, and from the step `c` in which a thread takes up its commit, for as long as it drains its
queue, the rows it has queued are hidden and its turns change nothing that can be read. -/
structure SeenWhole (h : List (Entry (System ι) (ι × Act) Event)) : Prop where
  atomic : ∀ k e l, h = k ++ e :: l → Atomic k e
  drain : ∀ i k c d l job, h = k ++ c :: (d ++ l) → c.act = (i, .recv job) →
    (c.post.threads i).point.isCommit = true →
    (∀ e ∈ d, (e.pre.threads i).point.isCommit = true) →
      HidesRows i c.post d ∧ ∀ e ∈ d, e.act.1 = i → SameReads e.pre.students e.post.students

/-- **A commit becomes visible as a whole.** -/
theorem seenWhole_of_run [Fintype ι] {db : StudentTable} (hdb : db.AtRest) {txnIds : ι → TxnId}
    {h : List (Entry (System ι) (ι × Act) Event)} {s : System ι}
    (hr : (machine ι).Run (init db txnIds) h s) : SeenWhole h := by
  constructor
  · rintro k e l rfl type tuple - c hc - ⟨t, hout⟩
    -- no step inserts or writes a row
    obtain ⟨u, hk, -⟩ := hr.cut
    obtain ⟨k1, -, -, hk1, hstep, -⟩ := hk.split hc
    obtain ⟨th, hth, -⟩ := step_eq hstep
    have heff := WorkerThread.step_effect (threads_of_run hk1 _) hth
    rcases hout with ⟨hins, -⟩ | ⟨hwr, -⟩
    · exact absurd rfl (heff.not_written hins t).1
    · exact absurd rfl (heff.not_written hwr t).2
  · rintro i k c d l job rfl hact hp hdrain
    obtain ⟨u, hk, hrest⟩ := hr.cut
    obtain ⟨rfl, hstep, hrest⟩ := hrest.head
    obtain ⟨v, hd, -⟩ := hrest.cut
    have hrc := hk.snoc hstep
    rw [hact] at hstep
    refine ⟨fun e he type tuple hm q hq hne => ?_, fun e he hi => ?_⟩
    · obtain ⟨d1, d2, rfl, hd1, hstep', -⟩ := hd.split he
      have hlock := locked_of_start hdb hk hstep hp hq hne
      rw [((threads_of_run hrc i).entries q hq).key_eq] at hlock
      have hh := hidden_along hdb hrc hd1 (fun e' he' => hdrain e' (List.mem_append_left _ he'))
        (Or.inl (LockList.heldFrom_pos_of_getLock hlock))
      obtain ⟨parser, conn, hpe⟩ := Point.isCommit_iff.mp (hdrain e he)
      exact hh.not_granted (inv_of_run hdb (hrc.trans hd1)) (by rw [hpe]; rfl) hstep' hm
    · obtain ⟨d1, d2, rfl, hd1, hstep', -⟩ := hd.split he
      have hre := hrc.trans hd1
      have hinv := inv_of_run hdb hre
      obtain ⟨th, hth, -⟩ := step_eq hstep'
      obtain ⟨rest, -, hc⟩ := hinv.coupled_thread e.act.1
      exact (WorkerThread.step_effect (hinv.thread _) hth).sameReads (hinv.thread _)
        (kept_of_run hdb hre _) hc (by rw [hi]; exact hdrain e he)

/-- Of three rows two are locked exclusively and deleted, and between the two turns of the commit
the third is read. -/
def readBetween : List (Fin 2 × Act) :=
  handle 1 (.request .exclusiveRead 1 0 []) 1 ++ handle 1 (.request .exclusiveRead 1 0 []) 1 ++
    handle 1 (.request .delete 1 0 []) 0 ++ handle 1 (.request .delete 1 1 []) 0 ++
    handle 1 (.request .commitTxn 1 0 []) 1 ++ handle 0 (.request .sharedRead 1 0 []) 1

def grantsKey (key : TblRow) : Event → Bool
  | .granted _ tuple => decide (tuple.key = key)
  | _ => false

theorem seenWhole_of_run_read_between : ∃ h s,
    (machine (Fin 2)).Run (init (ofTuples [.empty, .empty, .empty]) fun _ => 0) h s ∧
      (s.threads 1).worker.commitQueue.contents.length = 1 ∧
      (∃ e ∈ h, e.act.1 = 0 ∧ e.out.any (grantsKey 2) = true) ∧ SeenWhole h := by
  obtain ⟨h, s, hr, hp⟩ := Machine.exists_run_of_exec (M := machine (Fin 2))
    (s := init (ofTuples [.empty, .empty, .empty]) fun _ => 0)
    (p := fun h s => decide ((s.threads 1).worker.commitQueue.contents.length = 1 ∧
      ∃ e ∈ h, e.act.1 = 0 ∧ e.out.any (grantsKey 2) = true))
    (show ((machine (Fin 2)).exec _ readBetween).map _ = some true by decide +kernel)
  obtain ⟨hlen, hread⟩ := of_decide_eq_true hp
  exact ⟨h, s, hr, hlen, hread, seenWhole_of_run (atRest_ofTuples _) hr⟩

end System

end PawnDB
