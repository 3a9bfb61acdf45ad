import PawnDB.System.Accesses

set_option autoImplicit false

/-! # Transactions are serializable

The threads of the system are transactions that lock rows while they grow and commit at the end,
so the theory of two-phase locking applies to them: `held` and `xheld` are the locks of a thread
over the time of a run, and `lockPoint` is the time at which it stops taking locks.

The code does not keep the discipline by itself. A step is `Disciplined` if the row it obtains
is in the lock list afterwards (a full list refuses it), and if it gives no row back before the
lock point (`YIELD_READ` does). Then every order of the threads by lock point is a serial order of
the run (`serializable_of_run`): their reads and removals, one thread after the other, return and
leave what they returned and left in the run.
-/

namespace PawnDB

open StudentTable Serial TwoPhaseLocking

namespace System

variable {ι : Type} [DecidableEq ι]

/-! ## The discipline -/

/-- The lock list has a lock on a row that is obtained, and a row is given back only when the
transaction does not take locks any more. -/
def keepsLock (e : Entry (System ι) (ι × Act) Event) : Event → Bool
  | .granted _ tuple =>
      decide ((e.post.threads e.act.1).worker.HasLock (e.post.threads e.act.1).point tuple.key)
  | .released _ =>
      !decide ((e.pre.threads e.act.1).worker.Growing (e.pre.threads e.act.1).point)
  | _ => true

/-- What two-phase locking asks of a step. -/
def Disciplined (e : Entry (System ι) (ι × Act) Event) : Prop := e.out.all (keepsLock e) = true

instance (e : Entry (System ι) (ι × Act) Event) : Decidable (Disciplined e) := by
  unfold Disciplined
  infer_instance

/-- Thread `i` may still take locks. -/
def Growing (s : System ι) (i : ι) : Prop := (s.threads i).worker.Growing (s.threads i).point

instance (s : System ι) (i : ι) : Decidable (s.Growing i) := by
  unfold Growing
  infer_instance

/-- The time of the first step from a state in which thread `i` takes no more locks. -/
def lockPoint (h : List (Entry (System ι) (ι × Act) Event)) (i : ι) : Nat :=
  h.findIdx fun e => !decide (e.pre.Growing i)

/-- Thread `i` has a lock on the row at time `t` of the run. -/
def heldAt (s : System ι) (h : List (Entry (System ι) (ι × Act) Event)) (t : Nat) (i : ι)
    (key : TblRow) : Prop :=
  ((Machine.stateAt s h t).threads i).worker.HasLock ((Machine.stateAt s h t).threads i).point key

/-- Thread `i` has the exclusive lock on the row at time `t` of the run. -/
def xheldAt (s : System ι) (h : List (Entry (System ι) (ι × Act) Event)) (t : Nat) (i : ι)
    (key : TblRow) : Prop :=
  0 < ((Machine.stateAt s h t).threads i).worker.heldAt
    ((Machine.stateAt s h t).threads i).point .exclusive key

variable {db : StudentTable} {txnIds : ι → TxnId}
  {h : List (Entry (System ι) (ι × Act) Event)} {s : System ι}

/-! ## Lock points -/

/-- The growing phase of a thread does not come back. -/
theorem growing_step {u v : System ι} {k : List (Entry (System ι) (ι × Act) Event)}
    {a : ι × Act} {out : List Event} (hk : (machine ι).Run (init db txnIds) k u)
    (hs : u.step a = some (v, out)) {i : ι} (hv : v.Growing i) : u.Growing i := by
  obtain ⟨th, hth, hthreads⟩ := step_eq hs
  rw [Growing, hthreads] at hv
  by_cases hi : i = a.1
  · subst hi
    rw [Slots.set_self] at hv
    exact (WorkerThread.step_effect (threads_of_run hk a.1) hth).growing hv
  · rw [Slots.set_of_ne _ _ hi] at hv
    exact hv

omit [DecidableEq ι] in
theorem growing_of_lt {i : ι} {t : Nat} (ht : t < h.length) (hlt : t < lockPoint h i) :
    h[t].pre.Growing i := by
  have := List.not_of_lt_findIdx hlt
  simpa using this

theorem not_growing_of_le (hr : (machine ι).Run (init db txnIds) h s) {i : ι} {t : Nat}
    (ht : t < h.length) (hle : lockPoint h i ≤ t) : ¬ h[t].pre.Growing i := by
  induction t, hle using Nat.le_induction with
  | base =>
      have hfirst : (!decide (h[lockPoint h i].pre.Growing i)) = true :=
        List.findIdx_getElem (w := ht)
      simpa using hfirst
  | succ t _ ih =>
      obtain ⟨hpre, hpost, hstep⟩ := hr.entry_at (Nat.lt_of_succ_lt ht)
      intro hg
      rw [(hr.entry_at ht).1, ← hpost] at hg
      exact ih (Nat.lt_of_succ_lt ht) (growing_step (hpre ▸ hr.stateAt t) hstep hg)

theorem lt_lockPoint_iff (hr : (machine ι).Run (init db txnIds) h s) {i : ι} {t : Nat}
    (ht : t < h.length) : t < lockPoint h i ↔ h[t].pre.Growing i := by
  constructor
  · exact growing_of_lt ht
  · intro hg
    by_contra hlt
    exact not_growing_of_le hr ht (Nat.le_of_not_lt hlt) hg

/-! ## Locks over time -/

omit [DecidableEq ι] in
/-- Two threads cannot both have a lock on a row if one of them is exclusive. -/
theorem Inv.exclusion [Fintype ι] {exact : Prop} (hinv : s.Inv exact) {i j : ι} {key : TblRow}
    (hi : 0 < (s.threads i).worker.heldAt (s.threads i).point .exclusive key)
    (hj : (s.threads j).worker.HasLock (s.threads j).point key) : i = j := by
  classical
  by_contra hij
  obtain ⟨hX, hS⟩ := hinv.coupled.exclusion (hi.trans_le (s.heldAt_le_held i .exclusive key))
  obtain ⟨type, hj⟩ := hj
  cases type with
  | shared =>
      have := s.heldAt_le_held j .shared key
      omega
  | exclusive =>
      have hpair := Finset.add_le_sum (s := Finset.univ)
        (f := fun l => (s.threads l).worker.heldAt (s.threads l).point .exclusive key)
        (fun _ _ => Nat.zero_le _) (Finset.mem_univ i) (Finset.mem_univ j) hij
      have hsum : s.held .exclusive key
          = ∑ l, (s.threads l).worker.heldAt (s.threads l).point .exclusive key := rfl
      omega

/-- **The threads lock in two phases.** -/
theorem twoPhase [Fintype ι] (hdb : db.AtRest) (hr : (machine ι).Run (init db txnIds) h s)
    (hc : ∀ e ∈ h, Disciplined e) :
    TwoPhaseLocking.TwoPhase (heldAt (init db txnIds) h) (xheldAt (init db txnIds) h)
      (lockPoint h) where
  weaken := fun hx => ⟨.exclusive, hx⟩
  exclusion := fun hi hj => (inv_of_run hdb (hr.stateAt _)).exclusion hi hj
  keep := fun {t i key} hl ht => by
    have hlen : t < h.length := Nat.lt_of_lt_of_le ht List.findIdx_le_length
    obtain ⟨hpre, hpost, hstep⟩ := hr.entry_at hlen
    have hg := growing_of_lt hlen ht
    obtain ⟨th, hth, hthreads⟩ := step_eq hstep
    rw [heldAt, ← hpost, hthreads]
    rw [heldAt, ← hpre] at hl
    by_cases hi : i = h[t].act.1
    · subst hi
      rw [Slots.set_self]
      have hw := threads_of_run (hpre ▸ hr.stateAt t) h[t].act.1
      refine (WorkerThread.step_effect hw hth).keeps_locks hw hg (fun key hm => ?_) hl
      -- the discipline: a growing transaction gives nothing back
      have := List.all_eq_true.mp (hc _ (List.getElem_mem hlen)) _ hm
      simp only [keepsLock, Bool.not_eq_true', decide_eq_false_iff_not] at this
      exact this hg
    · rw [Slots.set_of_ne _ _ hi]
      exact hl
  fixed := fun {t i key} hx ht => by
    rcases Nat.lt_or_ge t h.length with hlen | hlen
    · obtain ⟨hpre, hpost, hstep⟩ := hr.entry_at hlen
      have hg := not_growing_of_le hr hlen ht
      obtain ⟨th, hth, hthreads⟩ := step_eq hstep
      rw [xheldAt, ← hpost, hthreads] at hx
      rw [xheldAt, ← hpre]
      by_cases hi : i = h[t].act.1
      · subst hi
        rw [Slots.set_self] at hx
        have hw := threads_of_run (hpre ▸ hr.stateAt t) h[t].act.1
        exact hx.trans_le ((WorkerThread.step_effect hw hth).takes_no_lock hw hg _ _)
      · rw [Slots.set_of_ne _ _ hi] at hx
        exact hx
    · -- the run is over
      rw [xheldAt, hr.stateAt_of_le (Nat.le_succ_of_le hlen)] at hx
      rw [xheldAt, hr.stateAt_of_le hlen]
      exact hx

/-- **Every access of the log is made as two-phase locking asks.** -/
theorem covered [Fintype ι] (hdb : db.AtRest) (hr : (machine ι).Run (init db txnIds) h s)
    (hc : ∀ e ∈ h, Disciplined e) : ∀ a ∈ log h,
      Covered (heldAt (init db txnIds) h) (xheldAt (init db txnIds) h) (lockPoint h) a := by
  rintro ⟨t, i, b⟩ ha
  obtain ⟨hlen, hown, hb⟩ := mem_log ha
  obtain ⟨ev, hev, hacc⟩ := List.mem_filterMap.mp hb
  dsimp only at hlen hown hev hacc
  subst hown
  obtain ⟨hpre, hpost, hstep⟩ := hr.entry_at hlen
  have hrt := hpre ▸ hr.stateAt t
  have hw := threads_of_run hrt h[t].act.1
  obtain ⟨th, hth, -⟩ := step_eq hstep
  have heff := WorkerThread.step_effect hw hth
  cases ev with
  | granted type tuple =>
      cases hacc
      refine ⟨?_, (lt_lockPoint_iff hr hlen).mpr (heff.growing_of_granted hw hev)⟩
      have hkeep := List.all_eq_true.mp (hc _ (List.getElem_mem hlen)) _ hev
      rw [heldAt, ← hpost]
      exact of_decide_eq_true hkeep
  | remove key =>
      cases hacc
      obtain ⟨hp, hpos, -⟩ := removes_of_run hdb hrt hstep hev
      refine ⟨?_, ?_⟩
      · rw [xheldAt, ← hpre]
        exact hpos
      · -- a commit comes after the lock point
        by_contra hlt
        exact hw.not_growing hp (growing_of_lt hlen (Nat.lt_of_not_le hlt))
  | insert tuple => exact absurd rfl (heff.not_written hev tuple).1
  | write tuple => exact absurd rfl (heff.not_written hev tuple).2
  | reply | pop | promoted | released | ret => cases hacc

/-- The accesses of a run are made one after the other. -/
theorem log_times [Fintype ι] (hdb : db.AtRest) (hr : (machine ι).Run (init db txnIds) h s) :
    (log h).Pairwise fun a b => a.time < b.time := by
  refine hr.invariant (P := fun k _ => (log k).Pairwise fun a b => a.time < b.time)
    List.Pairwise.nil ?_
  intro k u a out v hk ih hs
  rw [log_snoc, List.pairwise_append]
  refine ⟨ih, ?_, fun b hb b' hb' => ?_⟩
  · have hacc := accessed_of_run hdb hk hs
    rw [stamp]
    generalize accesses u.students out = L at hacc ⊢
    cases hacc <;> simp
  · obtain ⟨hlt, -⟩ := mem_log hb
    obtain ⟨c, -, rfl⟩ := List.mem_map.mp hb'
    exact hlt

/-- No access creates a tuple. -/
theorem not_isCreate_of_mem_log [Fintype ι] (hdb : db.AtRest)
    (hr : (machine ι).Run (init db txnIds) h s) {a : Stamped ι TblRow StudentTuple}
    (ha : a ∈ log h) : a.access.isCreate = false := by
  obtain ⟨hlen, -, hb⟩ := mem_log ha
  obtain ⟨hpre, -, hstep⟩ := hr.entry_at hlen
  have hacc := accessed_of_run hdb (hpre ▸ hr.stateAt a.time) hstep
  generalize accesses h[a.time].pre.students h[a.time].out = L at hacc hb
  cases hacc with
  | none => cases hb
  | read | remove => rw [List.mem_singleton.mp hb]; rfl

/-! ## Serial orders -/

/-- An order of the threads by lock point. -/
structure SerialOrder (h : List (Entry (System ι) (ι × Act) Event)) (order : List ι) : Prop where
  nodup : order.Nodup
  mem : ∀ i, i ∈ order
  sorted : order.Pairwise fun i j => lockPoint h i ≤ lockPoint h j

omit [DecidableEq ι] in
theorem exists_serialOrder [Fintype ι]
    (h : List (Entry (System ι) (ι × Act) Event)) : ∃ order, SerialOrder h order := by
  let le : ι → ι → Bool := fun i j => decide (lockPoint h i ≤ lockPoint h j)
  have hperm := List.mergeSort_perm (Finset.univ : Finset ι).toList le
  refine ⟨(Finset.univ : Finset ι).toList.mergeSort le, ?_, fun i => ?_, ?_⟩
  · exact hperm.nodup_iff.mpr (Finset.nodup_toList _)
  · exact hperm.mem_iff.mpr (Finset.mem_toList.mpr (Finset.mem_univ i))
  · have hsorted : ((Finset.univ : Finset ι).toList.mergeSort le).Pairwise fun i j =>
        le i j = true :=
      List.pairwise_mergeSort
        (fun i j l hij hjl => by simp only [le, decide_eq_true_eq] at *; omega)
        (fun i j => by simp only [le, Bool.or_eq_true, decide_eq_true_eq]; omega) _
    exact hsorted.imp of_decide_eq_true

/-- **Transactions are serializable.** In a run of disciplined steps, the accesses of the threads
one after the other, in any order by lock point, are possible on the tuples that the run began
with, so every read returns there what it returned in the run, and they lead to the tuples that
the table has at the end. -/
theorem serializable_of_run [Fintype ι] (hdb : db.AtRest)
    (hr : (machine ι).Run (init db txnIds) h s) (hc : ∀ e ∈ h, Disciplined e) :
    (∃ order, SerialOrder h order) ∧ ∀ order, SerialOrder h order →
      play act db.tuples (serial Stamped.owner order (log h)) = some s.students.tuples := by
  refine ⟨exists_serialOrder h, fun order horder => ?_⟩
  have hcreate : (log h).Pairwise fun a b => a.access.isCreate = true →
      b.access.isCreate = true → a.access.item ≠ b.access.item :=
    (log_times hdb hr).imp_of_mem fun {a b} ha _ _ hca => by
      rw [not_isCreate_of_mem_log hdb hr ha] at hca
      cases hca
  rw [← play_log hdb hr]
  exact ((twoPhase hdb hr hc).play_serial (covered hdb hr hc) (log_times hdb hr) hcreate
    horder.nodup horder.mem horder.sorted _).symm

/-- Thread `1` reads a row exclusively and deletes it; thread `2`, which began before thread `1`
did its commit, reads the other row in the end. -/
def deleteThenRead : List (Fin 3 × Act) :=
  handle 1 (.request .exclusiveRead 1 0 []) 1 ++ handle 1 (.request .delete 1 0 []) 0 ++
    [(2, .resume), (2, .recv (.request .sharedRead 1 0 []))] ++
    handle 1 (.request .commitTxn 1 0 []) 3 ++ [(2, .resume)]

theorem serializable_of_run_delete : ∃ h s,
    (machine (Fin 3)).Run (init (ofTuples [.empty, .empty]) fun _ => 0) h s ∧
      (log h).map Stamped.owner = [1, 1, 2] ∧ (∃ order, SerialOrder h order) ∧
      ∀ order, SerialOrder h order →
        play act (ofTuples [.empty, .empty]).tuples (serial Stamped.owner order (log h))
          = some s.students.tuples := by
  obtain ⟨h, s, hr, hp⟩ := Machine.exists_run_of_exec (M := machine (Fin 3))
    (s := init (ofTuples [.empty, .empty]) fun _ => 0) (p := fun h _ => decide (
      (∀ e ∈ h, Disciplined e) ∧ (log h).map Stamped.owner = [1, 1, 2]))
    (show ((machine (Fin 3)).exec _ deleteThenRead).map _ = some true by decide +kernel)
  simp only [decide_eq_true_eq] at hp
  exact ⟨h, s, hr, hp.2, serializable_of_run (atRest_ofTuples _) hr hp.1⟩

end System

end PawnDB
