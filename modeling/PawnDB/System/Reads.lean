import PawnDB.System.Serializable

set_option autoImplicit false

/-! # What a read returns

A read that is granted a row returns the tuple that the commits before it have left under the
row's key: nothing that is only queued, and nothing that has been removed. This needs no two-phase
discipline (`readsCommitted_of_run`).

And while a transaction has a lock on a row, of whatever kind, the row keeps its place and its
tuple, unless the transaction itself commits its removal (`stable_of_run`).
-/

namespace PawnDB

open StudentTable Serial TwoPhaseLocking

namespace System

variable {ι : Type} [DecidableEq ι]

/-- The tuple that the commits of a run from the table `db` have left under a key. -/
def committed (db : StudentTable) (key : TblRow)
    (h : List (Entry (System ι) (ι × Act) Event)) : Option StudentTuple :=
  Access.left key (db.tuples key) ((log h).map Stamped.access)

/-- Every granted row is the one that has been left under its key. -/
def ReadsCommitted (db : StudentTable) (h : List (Entry (System ι) (ι × Act) Event)) : Prop :=
  ∀ k e l, h = k ++ e :: l → ∀ type tuple, .granted type tuple ∈ e.out →
    committed db tuple.key k = some tuple

/-- The live rows are the tuples that have been left. -/
def HoldsCommitted (db : StudentTable) (h : List (Entry (System ι) (ι × Act) Event))
    (s : System ι) : Prop := ∀ key, s.students.tuples key = committed db key h

variable {db : StudentTable} {txnIds : ι → TxnId}
  {h : List (Entry (System ι) (ι × Act) Event)} {s : System ι}

omit [DecidableEq ι] in
theorem play_map_access (m : TblRow → Option StudentTuple)
    (L : List (Stamped ι TblRow StudentTuple)) :
    play act m L = play Access.act m (L.map Stamped.access) := by
  rw [play, play, List.foldlM_map]
  rfl

/-- A step that is granted a row does nothing else to the table. -/
theorem accesses_of_granted [Fintype ι] (hdb : db.AtRest)
    (hr : (machine ι).Run (init db txnIds) h s) {a : ι × Act} {s' : System ι} {out : List Event}
    (hs : s.step a = some (s', out)) {type : LockType} {tuple : StudentTuple}
    (hm : .granted type tuple ∈ out) :
    accesses s.students out = [.read tuple.key tuple] := by
  have hmem : .read tuple.key tuple ∈ accesses s.students out :=
    List.mem_filterMap.mpr ⟨_, hm, rfl⟩
  have hlen := (accessed_of_run hdb hr hs).length_le
  obtain ⟨b, hb⟩ := List.length_eq_one_iff.mp
    (Nat.le_antisymm hlen (List.length_pos_of_mem hmem))
  rw [hb] at hmem ⊢
  rw [List.mem_singleton.mp hmem]

/-- **Reads return committed tuples**, and the live rows of the table are what the commits have
left. -/
theorem readsCommitted_of_run [Fintype ι] (hdb : db.AtRest)
    (hr : (machine ι).Run (init db txnIds) h s) : ReadsCommitted db h ∧ HoldsCommitted db h s := by
  constructor
  · rintro k e l rfl type tuple hm
    obtain ⟨u, hk, hrest⟩ := hr.cut
    obtain ⟨rfl, hs, -⟩ := hrest.head
    have hacc := accesses_of_granted hdb hk hs hm
    -- the log up to this step ends with the read
    have hplay := play_log hdb (hk.snoc hs)
    rw [play_map_access, log_snoc, List.map_append, stamp, hacc] at hplay
    exact Access.play_read hplay
  · intro key
    have hplay := play_log hdb hr
    rw [play_map_access] at hplay
    exact Access.play_item hplay key

/-- Thread `1` deletes one of two rows, and thread `2` reads the other one. -/
theorem readsCommitted_of_run_delete : ∃ h s,
    (machine (Fin 3)).Run (init (ofTuples [.empty, .empty]) fun _ => 0) h s ∧
      (log h).map Stamped.owner = [1, 1, 2] ∧ ReadsCommitted (ofTuples [.empty, .empty]) h ∧
      HoldsCommitted (ofTuples [.empty, .empty]) h s := by
  obtain ⟨h, s, hr, hp⟩ := Machine.exists_run_of_exec (M := machine (Fin 3))
    (s := init (ofTuples [.empty, .empty]) fun _ => 0)
    (p := fun h _ => decide ((log h).map Stamped.owner = [1, 1, 2]))
    (show ((machine (Fin 3)).exec _ deleteThenRead).map _ = some true by decide +kernel)
  exact ⟨h, s, hr, of_decide_eq_true hp, readsCommitted_of_run (atRest_ofTuples _) hr⟩

/-! ## Rows under a lock -/

/-- Thread `i` has a lock on the row before the step, and if the step is its own, then it does
not remove the row. -/
def Holds (i : ι) (key : TblRow) (e : Entry (System ι) (ι × Act) Event) : Prop :=
  (e.pre.threads i).worker.HasLock (e.pre.threads i).point key ∧
    (e.act.1 = i → .remove key ∉ e.out)

instance (i : ι) (key : TblRow) (e : Entry (System ι) (ι × Act) Event) :
    Decidable (Holds i key e) := by
  unfold Holds
  infer_instance

/-- Another thread's lock on the row keeps a step from removing it. -/
theorem stable_step [Fintype ι] (hdb : db.AtRest) (hr : (machine ι).Run (init db txnIds) h s)
    {a : ι × Act} {s' : System ι} {out : List Event} (hs : s.step a = some (s', out)) {i : ι}
    {key : TblRow} {p : Fin rows} (hh : Holds i key ⟨s, a, out, s'⟩)
    (hp : s.students.IsRow key p) :
    s'.students.IsRow key p ∧ (s'.students.table p).tuple = (s.students.table p).tuple := by
  have hinv := inv_of_run hdb hr
  obtain ⟨db', threads'⟩ := s'
  obtain ⟨th, hth, -⟩ := step_eq hs
  cases (WorkerThread.step_effect (hinv.thread a.1) hth).tableStep with
  | none => exact ⟨hp, rfl⟩
  | relocked hrel => exact ⟨hrel.isRow.mpr hp, hrel.tuple p⟩
  | @removed key' j _ _ hkey hrm =>
      -- what the step removes is locked by its own thread, so it is another row
      have hpj : p ≠ j := by
        rintro rfl
        obtain rfl : key' = key := hkey.symm.trans hp.2
        obtain ⟨-, hpos, -⟩ := removes_of_run hdb hr hs (List.mem_singleton_self _)
        exact hh.2 (hinv.exclusion hpos hh.1) (List.mem_singleton_self _)
      rw [IsRow, live, keyOf, hrm.row_of_ne hpj]
      exact ⟨hp, rfl⟩

/-- **A row is stable under a lock.** As long as thread `i` has a lock on it and does not commit
its removal, the row keeps its place and its tuple, whatever the other threads do. -/
theorem stable_of_run [Fintype ι] {i : ι} {key : TblRow} {t : System ι}
    {k : List (Entry (System ι) (ι × Act) Event)} (hdb : db.AtRest)
    (hr : (machine ι).Run (init db txnIds) h s) (hk : (machine ι).Run s k t)
    (hh : ∀ e ∈ k, Holds i key e) {p : Fin rows} (hp : s.students.IsRow key p) :
    t.students.IsRow key p ∧ (t.students.table p).tuple = (s.students.table p).tuple := by
  refine hk.invariant_within (P := fun _ u => u.students.IsRow key p ∧
    (u.students.table p).tuple = (s.students.table p).tuple) hh ⟨hp, rfl⟩ ?_
  intro l u a out v hl _ ih hs hcond
  obtain ⟨hrow, htuple⟩ := stable_step hdb (hr.trans hl) hs hcond ih.1
  exact ⟨hrow, htuple.trans ih.2⟩

/-- Thread `1` takes a shared lock on the only row. -/
def lockRow : List (Fin 3 × Act) := handle 1 (.request .sharedRead 1 0 []) 1

/-- Then thread `2` asks for the row exclusively, in vain, and thread `1` promotes its lock. -/
def waitThenPromote : List (Fin 3 × Act) :=
  handle 2 (.request .exclusiveRead 1 0 []) 3 ++ handle 1 (.request .promote 1 0 []) 1

theorem stable_of_run_promote : ∃ h s k t,
    (machine (Fin 3)).Run (init (ofTuples [.empty]) fun _ => 0) h s ∧
      (machine (Fin 3)).Run s k t ∧ (t.students.table 0).lock = -1 ∧ s.students.IsRow 0 0 ∧
      t.students.IsRow 0 0 ∧ (t.students.table 0).tuple = (s.students.table 0).tuple := by
  obtain ⟨h, s, k, t, hr, hk, hp⟩ := Machine.exists_histories_of_exec (M := machine (Fin 3))
    (s := init (ofTuples [.empty]) fun _ => 0)
    (p := fun _ s k t => decide ((∀ e ∈ k, Holds 1 0 e) ∧ s.students.IsRow 0 0 ∧
      (t.students.table 0).lock = -1))
    (show ((machine (Fin 3)).exec _ lockRow).bind (fun r =>
      ((machine (Fin 3)).exec r.2 waitThenPromote).map _) = some true by decide +kernel)
  obtain ⟨hh, hrow, hlock⟩ := of_decide_eq_true hp
  exact ⟨h, s, k, t, hr, hk, hlock, hrow, stable_of_run (atRest_ofTuples _) hr hk hh hrow⟩

end System

end PawnDB
