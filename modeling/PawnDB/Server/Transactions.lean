import PawnDB.Server.Threads
import PawnDB.System.Progress

set_option autoImplicit false

/-! # A run of the server is a run of its transactions

The threads of the server come and go, and a slot of the worker table has many workers in turn.
`System` has a fixed family of threads that are all there from the start. A run of the server in
which `n` transactions are started is, for the table and for every transaction, a run of `n` such
threads: those that are started later have not made a step yet, those that are joined have ended,
and where the manager clears a running flag there is a `stop` (`Server.linked_of_run`). The other
steps of that run are the turns of the workers, in their order.

So what is proved of every run of `System` is true of every run of the server.
-/

namespace PawnDB

/-- A step of one thread, as the thread itself sees it. -/
abbrev OwnStep : Type := Entry (System Unit) (Unit × Act) Event

namespace System

variable {ι : Type}

/-- The step of a run as its thread sees it. -/
def own (e : Entry (System ι) (ι × Act) Event) : OwnStep :=
  ⟨⟨e.pre.students, fun _ => e.pre.threads e.act.1⟩, ((), e.act.2), e.out,
    ⟨e.post.students, fun _ => e.post.threads e.act.1⟩⟩

/-- The turns of the threads in a history. -/
def ownTurns (e : Entry (System ι) (ι × Act) Event) : List OwnStep :=
  if e.act.2.isStop then [] else [own e]

variable [DecidableEq ι]

/-- The threads of a list are stopped one after the other. -/
theorem exists_stops (l : List ι) (t : System ι) :
    ∃ k t', (machine ι).Run t k t' ∧ k.flatMap ownTurns = [] ∧ t'.students = t.students ∧
      ∀ j, t'.threads j
        = { t.threads j with running := (t.threads j).running && !decide (j ∈ l) } := by
  induction l generalizing t with
  | nil => exact ⟨[], t, .nil t, rfl, rfl, fun j => by simp⟩
  | cons i l ih =>
      -- the first thread is stopped, and then the others
      have hstep : (machine ι).step t (i, .stop) = some (⟨t.students,
        Slots.set t.threads i { t.threads i with running := false }⟩, []) := rfl
      obtain ⟨k, t', hk, hturns, hstudents, hthreads⟩ := ih ⟨t.students,
        Slots.set t.threads i { t.threads i with running := false }⟩
      refine ⟨_, t', (Machine.Run.single hstep).trans hk, ?_, hstudents, fun j => ?_⟩
      · rw [List.flatMap_append, hturns]
        rfl
      · rw [hthreads j]
        by_cases hj : j = i
        · subst hj
          simp
        · simp only [Slots.set_of_ne _ _ hj, List.mem_cons, hj, false_or]

end System

def ServerEvent.worker? : ServerEvent → Option Event
  | .worker _ _ e => some e
  | .manager _ => none

def ServerEvent.startedId? : ServerEvent → Option TxnId
  | .manager (.started _ txnId _) => some txnId
  | _ => none

namespace Server

variable {s s' : Server} {out : List ServerEvent}

/-- The turns of the workers in a history of the server. -/
def ownTurns (e : Entry Server ServerAct ServerEvent) : List OwnStep :=
  match e.act with
  | .worker idx a =>
      match a.act (e.pre.manager.workers.context idx).jobCh with
      | some act =>
          [⟨⟨e.pre.students, fun _ => e.pre.thread idx⟩, ((), act),
            e.out.filterMap ServerEvent.worker?, ⟨e.post.students, fun _ => e.post.thread idx⟩⟩]
      | none => []
  | _ => []

/-- The ids of the transactions in the order in which they were started. -/
def startedIds (h : List (Entry Server ServerAct ServerEvent)) : List TxnId :=
  (h.flatMap Entry.out).filterMap ServerEvent.startedId?

theorem startedIds_snoc (h : List (Entry Server ServerAct ServerEvent))
    (e : Entry Server ServerAct ServerEvent) :
    startedIds (h ++ [e]) = startedIds h ++ e.out.filterMap ServerEvent.startedId? := by
  simp [startedIds]

/-! ## The transactions in the slots -/

/-- The server and the system of its transactions after `k` of them have been started. `txn` is
the transaction of the worker in a slot. -/
structure Linked {n : Nat} (txnIds : Fin n → TxnId) (k : Nat) (s : Server) (t : System (Fin n))
    (txn : Fin maxTransactions → Option (Fin n)) : Prop where
  students : t.students = s.students
  present : ∀ idx, (txn idx).isSome = (s.manager.workers.context idx).thread.isSome
  thread : ∀ idx j, txn idx = some j → t.threads j = s.thread idx
  begun : ∀ idx j, txn idx = some j → j.val < k
  single : ∀ idx i j, txn idx = some j → txn i = some j → i = idx
  gone : ∀ j, j.val < k → (∀ idx, txn idx ≠ some j) → (t.threads j).point = .ended
  coming : ∀ j, k ≤ j.val → t.threads j = WorkerThread.init (txnIds j)

variable {n k : Nat} {txnIds : Fin n → TxnId} {t : System (Fin n)}
  {txn : Fin maxTransactions → Option (Fin n)}

theorem linked_init (db : StudentTable) (txnIds : Fin n → TxnId) :
    Linked txnIds 0 (init db) (System.init db txnIds) fun _ => none where
  students := rfl
  present _ := rfl
  thread _ _ hj := by cases hj
  begun _ _ hj := by cases hj
  single _ _ _ hj := by cases hj
  gone j hj := absurd hj (Nat.not_lt_zero _)
  coming _ _ := rfl

theorem Linked.exists_txn (hl : Linked txnIds k s t txn) {idx : Fin maxTransactions} {th : Thread}
    (hth : (s.manager.workers.context idx).thread = some th) : ∃ j, txn idx = some j := by
  rw [← Option.isSome_iff_exists, hl.present, hth]
  rfl

/-- A turn of a worker is one of its transaction. -/
theorem Linked.work {idx : Fin maxTransactions} {a : WorkerAct} (hl : Linked txnIds k s t txn)
    (h : s.work idx a = some (s', out)) :
    ∃ l t', (System.machine (Fin n)).Run t l t' ∧ Linked txnIds k s' t' txn ∧
      l.flatMap System.ownTurns = ownTurns ⟨s, .worker idx a, out, s'⟩ := by
  obtain ⟨th, act, wt, students, wout, hth, hact, hstep, rfl, rfl⟩ := work_some h
  obtain ⟨j, hj⟩ := hl.exists_txn hth
  have hrun : wt.running = (s.manager.workers.context idx).running :=
    WorkerThread.step_running (WorkerAct.act_ne_stop hact) hstep
  have hself := worked_thread_self s th wt students wout hrun
  have hstep' : (System.machine (Fin n)).step t (j, act)
      = some (⟨students, Slots.set t.threads j wt⟩, wout) := by
    simp only [System.step, hl.thread idx j hj, hl.students, hstep]
  have hset : ∀ j', j' ≠ j → Slots.set t.threads j wt j' = t.threads j' :=
    fun _ hne => Slots.set_of_ne _ _ hne
  refine ⟨_, _, .single hstep', ⟨rfl, fun i => ?_, fun i j' hj' => ?_, hl.begun, hl.single,
    fun j' hk hno => ?_, fun j' hk => ?_⟩, ?_⟩
  · rw [hl.present i]
    by_cases hi : i = idx
    · rw [hi, worked_context_self, hth]
      rfl
    · rw [worked_context_of_ne s th wt students wout hi]
  · by_cases hi : i = idx
    · subst hi
      rw [hj, Option.some.injEq] at hj'
      rw [hself, ← hj']
      exact Slots.set_self _ _ _
    · have hne : j' ≠ j := by
        rintro rfl
        exact hi (hl.single idx i j' hj hj')
      rw [worked_thread_of_ne s th wt students wout hi]
      exact (hset j' hne).trans (hl.thread i j' hj')
  · have hne : j' ≠ j := by
      rintro rfl
      exact hno idx hj
    exact (congrArg WorkerThread.point (hset j' hne)).trans (hl.gone j' hk hno)
  · have hne : j' ≠ j := by
      rintro rfl
      exact absurd (hl.begun idx j' hj) (Nat.not_lt.mpr hk)
    exact (hset j' hne).trans (hl.coming j' hk)
  · -- both show the turn of the worker
    have hevents : (wout.map (ServerEvent.worker idx s.manager.fdOpen)).filterMap
        ServerEvent.worker? = wout := by
      rw [List.filterMap_map]
      exact List.filterMap_some
    have hact' : act.isStop = false := by
      cases act with
      | stop => exact absurd rfl (WorkerAct.act_ne_stop hact)
      | _ => rfl
    simp only [List.flatMap_singleton, System.ownTurns, ownTurns, hact, hact', hevents, hself,
      System.own, Slots.set_self, hl.thread idx j hj, hl.students]
    rfl

theorem startedIds_of_calm {mout : List ManagerEvent} (h : Calm mout) :
    (mout.map ServerEvent.manager).filterMap ServerEvent.startedId? = [] := by
  rw [List.filterMap_map, List.filterMap_eq_nil_iff]
  intro e he
  cases e with
  | started idx txnId job => exact absurd he (h idx txnId job)
  | _ => rfl

theorem ownTurns_manager {a : ServerAct} {b : ManagerAct} (h : a.toManager = some b) :
    ownTurns ⟨s, a, out, s'⟩ = [] := by
  cases a with
  | worker idx c => cases h
  | _ => rfl

/-- Where the manager clears running flags, the transactions are stopped. -/
theorem Linked.calm (hl : Linked txnIds k s t txn) (hstudents : s'.students = s.students)
    (hbodies : s'.bodies = s.bodies)
    (hkeep : ∀ i, WorkerTable.Keeps (s.manager.workers.table i) (s'.manager.workers.table i)) :
    ∃ l t', (System.machine (Fin n)).Run t l t' ∧ Linked txnIds k s' t' txn ∧
      l.flatMap System.ownTurns = [] := by
  let stopped := (List.finRange maxTransactions).filterMap fun idx =>
    if (s'.manager.workers.context idx).running then none else txn idx
  have hmem : ∀ j, j ∈ stopped ↔
      ∃ idx, (s'.manager.workers.context idx).running = false ∧ txn idx = some j := fun j => by
    simp only [stopped, List.mem_filterMap, List.mem_finRange, true_and]
    refine exists_congr fun idx => ?_
    cases (s'.manager.workers.context idx).running <;> simp
  obtain ⟨l, t', hr, hturns, hdb, hthreads⟩ := System.exists_stops stopped t
  -- a transaction that has no slot is not among those that are stopped
  have hout : ∀ j, (∀ idx, txn idx ≠ some j) → t'.threads j = t.threads j := fun j hno => by
    have hj : j ∉ stopped := fun hm => by
      obtain ⟨idx, -, hidx⟩ := (hmem j).mp hm
      exact hno idx hidx
    rw [hthreads j, decide_eq_false hj, Bool.not_false, Bool.and_true]
  refine ⟨l, t', hr, ⟨by rw [hdb, hstudents, hl.students], fun idx => ?_, fun idx j hj => ?_,
    hl.begun, hl.single, fun j hk hno => ?_, fun j hk => ?_⟩, hturns⟩
  · rw [WorkerTable.context, (hkeep idx).thread]
    exact hl.present idx
  · have hj' : j ∈ stopped ↔ (s'.manager.workers.context idx).running = false := by
      rw [hmem]
      constructor
      · rintro ⟨i, hi, hij⟩
        rwa [hl.single idx i j hj hij] at hi
      · intro h
        exact ⟨idx, h, hj⟩
    have hdec : decide (j ∈ stopped) = !(s'.manager.workers.context idx).running := by
      rw [Bool.eq_iff_iff, decide_eq_true_iff, hj', Bool.not_eq_true']
    have hrun : (s'.manager.workers.context idx).running
        = ((s.manager.workers.context idx).running &&
          (s'.manager.workers.context idx).running) := (hkeep idx).running_and
    rw [hthreads j, hl.thread idx j hj, hdec, Bool.not_not]
    simp only [Server.thread, hbodies]
    rw [← hrun]
  · rw [hout j hno]
    exact hl.gone j hk hno
  · rw [hout j fun idx hidx => absurd (hl.begun idx j hidx) (Nat.not_lt.mpr hk)]
    exact hl.coming j hk

/-- The transaction of a worker that is joined has ended. -/
theorem Linked.joined {idx : Fin maxTransactions} {txnId : TxnId} (hl : Linked txnIds k s t txn)
    (hs : s.Wf) (hstudents : s'.students = s.students) (hbodies : s'.bodies = s.bodies)
    (hended : (s.manager.workers.context idx).thread = some ⟨txnId, .ended⟩)
    (hnone : (s'.manager.workers.context idx).thread = none)
    (hother : ∀ i, i ≠ idx → s'.manager.workers.table i = s.manager.workers.table i) :
    Linked txnIds k s' t (Slots.set txn idx none) := by
  have hset : ∀ i j, Slots.set txn idx none i = some j → i ≠ idx ∧ txn i = some j := by
    intro i j hj
    by_cases hi : i = idx
    · rw [hi, Slots.set_self] at hj
      cases hj
    · rw [Slots.set_of_ne _ _ hi] at hj
      exact ⟨hi, hj⟩
  refine ⟨by rw [hl.students, hstudents], fun i => ?_, fun i j hj => ?_, fun i j hj => ?_,
    fun i i' j hj hj' => ?_, fun j hk hno => ?_, hl.coming⟩
  · by_cases hi : i = idx
    · rw [hi, Slots.set_self, hnone]
      rfl
    · rw [Slots.set_of_ne _ _ hi, WorkerTable.context, hother i hi]
      exact hl.present i
  · obtain ⟨hi, hj⟩ := hset i j hj
    rw [hl.thread i j hj, Server.thread, Server.thread, hbodies, WorkerTable.context,
      WorkerTable.context, hother i hi]
  · exact hl.begun i j (hset i j hj).2
  · exact hl.single i i' j (hset i j hj).2 (hset i' j hj').2
  · obtain ⟨j₀, hj₀⟩ := hl.exists_txn hended
    by_cases hjj : j = j₀
    · -- the manager sees this thread at its end, and that is where it is
      rw [hjj, hl.thread idx j₀ hj₀]
      have hview : ThreadPoint.ended = (s.bodies idx).point.view := hs.view idx _ hended
      change (s.bodies idx).point = .ended
      cases hp : (s.bodies idx).point <;> rw [hp] at hview <;> first | rfl | cases hview
    · refine hl.gone j hk fun i hi => ?_
      by_cases hidx : i = idx
      · rw [hidx, hj₀, Option.some.injEq] at hi
        exact hjj hi.symm
      · exact hno i (by rw [Slots.set_of_ne _ _ hidx, hi])

/-- A worker that is started has the next transaction. -/
theorem Linked.started {idx : Fin maxTransactions} (hl : Linked txnIds k s t txn) (hk : k < n)
    (hstudents : s'.students = s.students)
    (hbodies : s'.bodies = Slots.set s.bodies idx (Body.init (txnIds ⟨k, hk⟩)))
    (hnone : (s.manager.workers.context idx).thread = none)
    (hthread : (s'.manager.workers.context idx).thread.isSome = true)
    (hrun : (s'.manager.workers.context idx).running = true)
    (hother : ∀ i, i ≠ idx → s'.manager.workers.table i = s.manager.workers.table i) :
    Linked txnIds (k + 1) s' t (Slots.set txn idx (some ⟨k, hk⟩)) := by
  have hset : ∀ i j, Slots.set txn idx (some ⟨k, hk⟩) i = some j →
      i = idx ∧ j = ⟨k, hk⟩ ∨ i ≠ idx ∧ txn i = some j := by
    intro i j hj
    by_cases hi : i = idx
    · rw [hi, Slots.set_self, Option.some.injEq] at hj
      exact .inl ⟨hi, hj.symm⟩
    · rw [Slots.set_of_ne _ _ hi] at hj
      exact .inr ⟨hi, hj⟩
  -- nobody has had this number before
  have hnew : ∀ i, txn i ≠ some ⟨k, hk⟩ := fun i hi => absurd (hl.begun i _ hi) (Nat.lt_irrefl k)
  refine ⟨by rw [hl.students, hstudents], fun i => ?_, fun i j hj => ?_, fun i j hj => ?_,
    fun i i' j hj hj' => ?_, fun j hlt hno => ?_, fun j hlt => hl.coming j (Nat.le_of_succ_le hlt)⟩
  · by_cases hi : i = idx
    · rw [hi, Slots.set_self, hthread]
      rfl
    · rw [Slots.set_of_ne _ _ hi, WorkerTable.context, hother i hi]
      exact hl.present i
  · rcases hset i j hj with ⟨rfl, rfl⟩ | ⟨hi, hj⟩
    · rw [hl.coming ⟨k, hk⟩ (Nat.le_refl k), Server.thread, hbodies, Slots.set_self, hrun]
      rfl
    · rw [hl.thread i j hj, Server.thread, Server.thread, hbodies, Slots.set_of_ne _ _ hi,
        WorkerTable.context, WorkerTable.context, hother i hi]
  · rcases hset i j hj with ⟨-, rfl⟩ | ⟨-, hj⟩
    · exact Nat.lt_succ_self k
    · exact (hl.begun i j hj).trans (Nat.lt_succ_self k)
  · rcases hset i j hj with ⟨hi, hjk⟩ | ⟨-, hi⟩ <;>
      rcases hset i' j hj' with ⟨hi', hjk'⟩ | ⟨-, hi'⟩
    · rw [hi, hi']
    · exact absurd (hjk ▸ hi') (hnew i')
    · exact absurd (hjk' ▸ hi) (hnew i)
    · exact hl.single i i' j hi hi'
  · have hne : j ≠ ⟨k, hk⟩ := by
      rintro rfl
      exact hno idx (Slots.set_self _ _ _)
    have hjk : j.val ≠ k := fun h => hne (Fin.ext h)
    refine hl.gone j (by omega) fun i hi => ?_
    by_cases hidx : i = idx
    · have hp := hl.present idx
      rw [← hidx, hi, hidx, hnone] at hp
      cases hp
    · exact hno i (by rw [Slots.set_of_ne _ _ hidx, hi])

/-- A turn of the manager. -/
theorem Linked.manage {a : ServerAct} {b : ManagerAct} (hl : Linked txnIds k s t txn) (hs : s.Wf)
    (ha : a.toManager = some b) (h : s.manage b = some (s', out))
    (hids : ∀ txnId, out.filterMap ServerEvent.startedId? = [txnId] →
      ∃ hk : k < n, txnIds ⟨k, hk⟩ = txnId) :
    ∃ l t' txn', (System.machine (Fin n)).Run t l t' ∧
      Linked txnIds (k + (out.filterMap ServerEvent.startedId?).length) s' t' txn' ∧
      l.flatMap System.ownTurns = ownTurns ⟨s, a, out, s'⟩ := by
  obtain ⟨mout, hm, hstudents, hbodies, rfl⟩ := manage_some h
  rw [ownTurns_manager ha]
  cases ThreadManager.step_changes (ServerAct.toManager_ne ha) hm with
  | calm hcalm hkeep =>
      rw [foldl_launch hcalm] at hbodies
      obtain ⟨l, t', hr, hl', hturns⟩ := hl.calm hstudents hbodies hkeep
      rw [startedIds_of_calm hcalm]
      exact ⟨l, t', txn, hr, hl', hturns⟩
  | @joined idx txnId hcalm hended hnone _ hother =>
      rw [foldl_launch hcalm] at hbodies
      rw [startedIds_of_calm hcalm]
      exact ⟨[], t, _, .nil t, hl.joined hs hstudents hbodies hended hnone hother, rfl⟩
  | @started idx txnId job hmout hnone hthread _ hrun _ hother =>
      subst hmout
      obtain ⟨hk, rfl⟩ := hids txnId rfl
      refine ⟨[], t, _, .nil t, hl.started hk hstudents hbodies hnone ?_ hrun hother, rfl⟩
      rw [hthread]
      rfl

/-- A step of a run is matched by a run of its transactions. -/
theorem linked_step {h k : List (Entry Server ServerAct ServerEvent)} {u v : Server}
    {a : ServerAct} {y : System (Fin (startedIds h).length)}
    {txn : Fin maxTransactions → Option (Fin (startedIds h).length)}
    (hpre : k ++ [⟨u, a, out, v⟩] <+: h) (hu : u.Wf)
    (hlinked : Linked (startedIds h).get (startedIds k).length u y txn)
    (hs : u.step a = some (v, out)) :
    ∃ l z, (System.machine (Fin (startedIds h).length)).Run y l z ∧
      (v.Wf ∧ ∃ txn', Linked (startedIds h).get (startedIds (k ++ [⟨u, a, out, v⟩])).length v z
        txn') ∧
      l.flatMap System.ownTurns = ownTurns ⟨u, a, out, v⟩ := by
  have hv := hu.step hs
  rcases step_cases hs with ⟨b, hb, hm⟩ | ⟨idx, b, rfl, hw⟩
  · obtain ⟨l, z, txn', hl, hlinked', hturns⟩ := hlinked.manage hu hb hm fun txnId hid => by
      -- the id that is started is the next one of the whole run
      have hids : startedIds k ++ [txnId] <+: startedIds h := by
        rw [← hid, ← startedIds_snoc k ⟨u, a, out, v⟩]
        obtain ⟨rest, hrest⟩ := hpre
        exact ⟨startedIds rest, by rw [← hrest]; simp [startedIds]⟩
      have hlt : (startedIds k).length < (startedIds h).length := by
        have := hids.length_le
        rw [List.length_append, List.length_singleton] at this
        omega
      refine ⟨hlt, ?_⟩
      rw [List.get_eq_getElem, ← hids.getElem (by simp)]
      simp
    refine ⟨l, z, hl, ⟨hv, txn', ?_⟩, hturns⟩
    rw [startedIds_snoc, List.length_append]
    exact hlinked'
  · obtain ⟨l, z, hl, hlinked', hturns⟩ := hlinked.work hw
    refine ⟨l, z, hl, ⟨hv, txn, ?_⟩, hturns⟩
    obtain ⟨_, _, _, _, wout, -, -, -, -, rfl⟩ := work_some hw
    have hnone : (wout.map (ServerEvent.worker idx u.manager.fdOpen)).filterMap
        ServerEvent.startedId? = [] := by
      rw [List.filterMap_map]
      exact List.filterMap_eq_nil_iff.mpr fun _ _ => rfl
    rw [startedIds_snoc, hnone, List.append_nil]
    exact hlinked'

/-- **A run of the server is a run of its transactions.** -/
theorem linked_of_run {db : StudentTable} {h : List (Entry Server ServerAct ServerEvent)}
    (hr : machine.Run (init db) h s) :
    ∃ l t txn, (System.machine (Fin (startedIds h).length)).Run
        (System.init db (startedIds h).get) l t ∧
      Linked (startedIds h).get (startedIds h).length s t txn ∧
      l.flatMap System.ownTurns = h.flatMap ownTurns := by
  obtain ⟨l, t, hl, ⟨-, txn, hlinked⟩, hturns⟩ := hr.simulate ownTurns System.ownTurns
    (fun k u y => u.Wf ∧ ∃ txn, Linked (startedIds h).get (startedIds k).length u y txn)
    ⟨wf_init db, _, linked_init db _⟩
    fun _ _ _ _ _ _ hpre _ ⟨hu, _, hlinked⟩ hs => linked_step hpre hu hlinked hs
  exact ⟨l, t, txn, hl, hlinked, hturns⟩

/-! ## Refinement -/

/-- Some run of `System` starts from the table `db` with a thread for every transaction that was
started, makes the turns of the workers in their order, and ends with the table of the server.
Every worker in a slot is then where its transaction is, different slots have different
transactions, and those that are in no slot have ended. -/
def Refines (db : StudentTable) (h : List (Entry Server ServerAct ServerEvent)) (s : Server) :
    Prop :=
  ∃ (l : _) (t : System (Fin (startedIds h).length))
    (txn : Fin maxTransactions → Option (Fin (startedIds h).length)),
    (System.machine _).Run (System.init db (startedIds h).get) l t ∧
    l.flatMap System.ownTurns = h.flatMap ownTurns ∧
    t.students = s.students ∧
    (∀ idx, (txn idx).isSome = (s.manager.workers.context idx).thread.isSome) ∧
    (∀ idx j, txn idx = some j → t.threads j = s.thread idx) ∧
    (∀ idx i j, txn idx = some j → txn i = some j → i = idx) ∧
    ∀ j, (∀ idx, txn idx ≠ some j) → (t.threads j).point = .ended

/-- **The server refines the system of its transactions.** -/
theorem refines_of_run {db : StudentTable} {h : List (Entry Server ServerAct ServerEvent)}
    (hr : machine.Run (init db) h s) : Refines db h s := by
  obtain ⟨l, t, txn, hl, hlinked, hturns⟩ := linked_of_run hr
  exact ⟨l, t, txn, hl, hturns, hlinked.students, hlinked.present, hlinked.thread, hlinked.single,
    fun j => hlinked.gone j j.isLt⟩

/-- A `START_TXN` arrives, and the worker of the new transaction takes it up. -/
def begins (idx : Fin maxTransactions) : List ServerAct :=
  [.datagram (.request .startTxn 0 0 []), .resume, .resume, .worker idx .resume, .worker idx .recv]

/-- A datagram arrives and its worker makes some turns with it. -/
def serve (idx : Fin maxTransactions) (job : Job) (turns : Nat) : List ServerAct :=
  [.datagram job, .worker idx .resume, .worker idx .recv] ++
    List.replicate turns (.worker idx .resume)

/-- A table with two rows. -/
def twoRows : StudentTable := .ofTuples [.empty, .empty]

/-- The first transaction deletes the first row. -/
def deleteAndCommit : List ServerAct :=
  .start :: (begins 0 ++ serve 0 (.request .exclusiveRead 1 0 []) 1 ++
    serve 0 (.request .delete 1 0 []) 0 ++ serve 0 (.request .commitTxn 1 0 []) 3)

theorem refines_of_run_commit : ∃ h s, machine.Run (init twoRows) h s ∧ startedIds h = [0] ∧
    twoRows.live 0 = true ∧ s.students.live 0 = false ∧ Refines twoRows h s := by
  obtain ⟨h, s, hr, hp⟩ := Machine.exists_run_of_exec
    (p := fun h s => decide (startedIds h = [0] ∧ twoRows.live 0 = true ∧
      s.students.live 0 = false))
    (show (machine.exec (init twoRows) deleteAndCommit).map _ = some true by decide +kernel)
  obtain ⟨hids, hbefore, hafter⟩ := of_decide_eq_true hp
  exact ⟨h, s, hr, hids, hbefore, hafter, refines_of_run hr⟩

end Server

end PawnDB
