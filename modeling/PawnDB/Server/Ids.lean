import PawnDB.Server.Threads
import PawnDB.Server.WorkerMap

set_option autoImplicit false

/-! # The ids of the workers

The manager numbers its workers from `0` on. As long as it has given out fewer than `2 ^ 32` ids
every worker in the table has an id of its own, which is below the next one, and the table is in
order (`ThreadManager.numbered_of_run`): workers can be found, started and joined as in the bounded
map that the table stands for. A restart counts from `0` again, in an empty table.
-/

namespace PawnDB

/-- The id under which a worker is started. -/
def ManagerEvent.startedId : ManagerEvent → Option TxnId
  | .started _ txnId _ => some txnId
  | _ => none

namespace WorkerTable

variable {t workers : WorkerTable} {idx : Fin maxTransactions} {th : Thread}
  {replies : List Reply} {c : WorkerContext}

theorem present_eq_empty (h : ∀ i, (t.table i).live = false) : t.present = ∅ := by
  rw [Finset.eq_empty_iff_forall_notMem]
  intro txnId hmem
  obtain ⟨i, hi, -⟩ := mem_present.mp hmem
  rw [h i] at hi
  cases hi

theorem Wf.live_of_thread (h : t.Wf) (hth : (t.context idx).thread = some th) :
    (t.table idx).live = true := by
  rw [(h.fit idx).live, show (t.table idx).context.thread = _ from hth]
  rfl

/-- A join takes a worker out of the table. -/
theorem Wf.of_joinEntry (h : t.Wf) (hjoin : t.joinEntry idx = some (workers, replies)) :
    workers.Wf ∧ workers.present = t.present.erase (t.context idx).txnId := by
  obtain ⟨c, hc, -⟩ := joinEntry_some hjoin
  obtain ⟨⟨txnId, hth⟩, -⟩ := WorkerContext.traitJoin_some _ hc
  obtain ⟨t', replies', hjoin', hw, hpresent, -⟩ :=
    h.joinEntry_eq (h.live_of_thread hth) hth rfl
  rw [hjoin] at hjoin'
  simp only [Option.some.injEq, Prod.mk.injEq] at hjoin'
  rw [hjoin'.1]
  exact ⟨hw, hpresent⟩

/-- An insertion under a new id puts a worker into the table. -/
theorem Wf.of_traitInsert (h : t.Wf) (hnew : c.txnId ∉ t.present)
    (hins : t.traitInsert c = some (.ok idx, workers)) :
    workers.Wf ∧ workers.present = Insert.insert c.txnId t.present := by
  have hroom : t.present.card < maxTransactions := by
    refine lt_of_le_of_ne card_present_le fun hcard => ?_
    rw [h.traitInsert_full_iff.mpr hcard] at hins
    simp at hins
  obtain ⟨i, t', hins', -, hw, hpresent, -⟩ := h.traitInsert_room hroom hnew
  rw [hins] at hins'
  simp only [Option.some.injEq, Prod.mk.injEq, Except.ok.injEq] at hins'
  rw [hins'.2]
  exact ⟨hw, hpresent⟩

end WorkerTable

namespace ThreadManager

open WorkerTable

/-- The ids that are given out in a history, in their order. -/
def startedIds (h : List (Entry ThreadManager ManagerAct ManagerEvent)) : List TxnId :=
  (h.flatMap Entry.out).filterMap ManagerEvent.startedId

theorem startedIds_snoc (h : List (Entry ThreadManager ManagerAct ManagerEvent))
    (e : Entry ThreadManager ManagerAct ManagerEvent) :
    startedIds (h ++ [e]) = startedIds h ++ e.out.filterMap ManagerEvent.startedId := by
  simp [startedIds]

variable (m : ThreadManager)

/-- The ids that are given out and not yet counted. -/
def pending : Nat :=
  match m.phase with
  | .starting _ _ => 1
  | _ => 0

/-- The table is in order and its ids have been given out, which is `n` at most. -/
structure Numbered (n : Nat) : Prop where
  table : m.workers.Wf
  below : ∀ txnId ∈ m.workers.present, txnId.toNat < m.nextTxnId.toNat + m.pending
  count : m.nextTxnId.toNat + m.pending ≤ n

theorem numbered_init : init.Numbered 0 where
  table := wf_init
  below txnId hmem := by
    rw [present_eq_empty fun _ => rfl] at hmem
    exact absurd hmem (Finset.notMem_empty _)
  count := Nat.le_refl 0

variable {m} {m' : ThreadManager} {out : List ManagerEvent} {n : Nat}

/-- No worker comes or goes, and no id is given out. -/
theorem Numbered.congr (hn : m.Numbered n) (hw : m'.workers.Wf)
    (hpresent : m'.workers.present = m.workers.present)
    (hnext : m'.nextTxnId.toNat + m'.pending = m.nextTxnId.toNat + m.pending) :
    m'.Numbered n where
  table := hw
  below txnId hmem := by
    rw [hpresent] at hmem
    rw [hnext]
    exact hn.below txnId hmem
  count := by
    rw [hnext]
    exact hn.count

/-- A turn for one slot, which keeps its id. -/
theorem Numbered.setContext {idx : Fin maxTransactions} {c : WorkerContext} (hn : m.Numbered n)
    (hworkers : m'.workers = m.workers.setContext idx c)
    (hid : c.txnId = (m.workers.context idx).txnId)
    (hfit : WorkerEntry.Fit { m.workers.table idx with context := c })
    (hnext : m'.nextTxnId.toNat + m'.pending = m.nextTxnId.toNat + m.pending) :
    m'.Numbered n := by
  refine hn.congr ?_ ?_ hnext
  · rw [hworkers]
    exact hn.table.setContext hid hfit
  · rw [hworkers]
    exact present_setContext hid

/-- A thread moves on. -/
theorem Numbered.goTo {idx : Fin maxTransactions} {th : Thread} {point : ThreadPoint}
    {q : JobChannel} {l : List Job} (hn : m.Numbered n)
    (hworkers : m'.workers = m.workers.setContext idx
      { (m.workers.context idx).goTo th point with jobCh := q })
    (hth : (m.workers.context idx).thread = some th) (hq : q.Holds l) (hhand : point.inHand <+: l)
    (hnext : m'.nextTxnId.toNat + m'.pending = m.nextTxnId.toNat + m.pending) :
    m'.Numbered n :=
  hn.setContext hworkers rfl ((hn.table.fit idx).move hth hq hhand) hnext

/-- A worker that has ended is joined. -/
theorem Numbered.joinEntry {idx : Fin maxTransactions} {workers : WorkerTable}
    {replies : List Reply} (hn : m.Numbered n)
    (hjoin : m.workers.joinEntry idx = some (workers, replies)) (hworkers : m'.workers = workers)
    (hnext : m'.nextTxnId.toNat + m'.pending = m.nextTxnId.toNat + m.pending) :
    m'.Numbered n := by
  obtain ⟨hw, hpresent⟩ := hn.table.of_joinEntry hjoin
  rw [← hworkers] at hw hpresent
  refine ⟨hw, fun txnId hmem => ?_, ?_⟩
  · rw [hpresent] at hmem
    rw [hnext]
    exact hn.below txnId (Finset.mem_of_mem_erase hmem)
  · rw [hnext]
    exact hn.count

/-- No worker has the next id. -/
theorem Numbered.next_notMem (hn : m.Numbered n) (hp : m.pending = 0) :
    m.nextTxnId ∉ m.workers.present := by
  intro hmem
  have := hn.below _ hmem
  omega

/-- A worker is started under the next id. -/
theorem Numbered.insert {idx : Fin maxTransactions} {workers : WorkerTable} (hn : m.Numbered n)
    (hp : m.pending = 0)
    (hins : m.workers.traitInsert (WorkerContext.ofTxn m.nextTxnId) = some (.ok idx, workers))
    (hworkers : m'.workers = workers) (hnext : m'.nextTxnId = m.nextTxnId)
    (hp' : m'.pending = 1) : m'.Numbered (n + 1) := by
  obtain ⟨hw, hpresent⟩ := hn.table.of_traitInsert (hn.next_notMem hp) hins
  rw [← hworkers] at hw hpresent
  refine ⟨hw, fun txnId hmem => ?_, ?_⟩
  · rw [hpresent, Finset.mem_insert] at hmem
    rw [hnext, hp']
    rcases hmem with rfl | hmem
    · exact Nat.lt_succ_self _
    · exact (hn.below txnId hmem).trans_le (by omega)
  · have := hn.count
    rw [hnext, hp']
    omega

/-- The id that was given out is counted. -/
theorem Numbered.counted (hn : m.Numbered n) (hlt : n < 2 ^ 32) (hp : m.pending = 1) :
    Numbered { m with nextTxnId := m.nextTxnId + 1, phase := .listening } n := by
  refine hn.congr hn.table rfl ?_
  have hcount := hn.count
  have hnext : (m.nextTxnId + 1).toNat = m.nextTxnId.toNat + 1 := by
    rw [UInt32.toNat_add, UInt32.toNat_one]
    exact Nat.mod_eq_of_lt (by omega)
  change (m.nextTxnId + 1).toNat + 0 = _
  rw [hnext, hp]

/-- A turn that is no turn for a slot. -/
theorem Numbered.goPhase {phase : Phase} (hn : m.Numbered n) (hp : m.pending = 0)
    (hphase : pending { m with phase := phase } = 0) : Numbered { m with phase := phase } n :=
  hn.congr hn.table rfl (by rw [hp, hphase])

/-- **A step keeps the numbering.** -/
theorem Numbered.step {a : ManagerAct} (hn : m.Numbered n) (hc : m.Cleared)
    (h : machine.step m a = some (m', out))
    (hlt : n + (out.filterMap ManagerEvent.startedId).length < 2 ^ 32) :
    m'.Numbered (n + (out.filterMap ManagerEvent.startedId).length) := by
  have hreplies : ∀ l : List Reply, (l.map (ManagerEvent.reply m.fdOpen)).filterMap
      ManagerEvent.startedId = [] := fun l => by
    rw [List.filterMap_map, List.filterMap_eq_nil_iff]
    exact fun _ _ => rfl
  have hpending : ∀ {phase}, m.phase = phase → m.pending = pending { m with phase := phase } :=
    fun hp => by rw [← hp]
  have hsent : ∀ {idx : Fin maxTransactions} {job : Job} {jobCh : JobChannel},
      (m.workers.context idx).jobCh.send job = (.none, jobCh) →
      WorkerEntry.Fit { m.workers.table idx with
        context := { m.workers.context idx with jobCh := jobCh } } := by
    intro idx job jobCh hsend
    have hfit := (hn.table.fit idx).send job
    rwa [show (m.workers.table idx).context.jobCh.send job = _ from hsend] at hfit
  cases step_did h with
  | ignored => exact hn
  | began hp =>
      refine ⟨hn.table, fun txnId hmem => ?_, Nat.zero_le _⟩
      change txnId ∈ m.workers.present at hmem
      rw [present_eq_empty (hc.stopped hp)] at hmem
      exact absurd hmem (Finset.notMem_empty _)
  | shut => exact hn.congr hn.table rfl rfl
  | refused r hp =>
      rcases hp with hp | ⟨job, hp, -⟩ <;> exact hn.goPhase (hpending hp) rfl
  | left hp =>
      exact hn.congr hn.table.clearStop present_clearStop (by rw [hpending hp]; rfl)
  | startTxn hp => exact hn.goPhase (hpending hp) rfl
  | routed hp hphase _ _ _ hsend =>
      refine hn.setContext rfl rfl (hsent hsend) ?_
      rw [hpending hp]
      rcases hphase with rfl | rfl <;> rfl
  | aborted hp =>
      exact hn.setContext rfl rfl (hn.table.fit _).stop (by rw [hpending hp]; rfl)
  | removing hp _ hrem =>
      obtain ⟨-, -, -, rfl⟩ := removeStop_some hrem
      exact hn.setContext rfl rfl (hn.table.fit _).stop (by rw [hpending hp]; rfl)
  | joined hp hjoin =>
      rw [List.filterMap_cons_none rfl, hreplies]
      exact hn.joinEntry hjoin rfl (by rw [hpending hp]; rfl)
  | started hp _ hins => exact hn.insert (hpending hp) hins rfl rfl rfl
  | opened hp hsend => exact (hn.counted hlt (hpending hp)).setContext rfl rfl (hsent hsend) rfl
  | unopened hp _ => exact hn.counted hlt (hpending hp)
  | cleared hp _ hjoin =>
      rw [List.filterMap_cons_none rfl, hreplies]
      exact hn.joinEntry hjoin rfl (by rw [hpending hp]; rfl)
  | passed hp hphase =>
      rcases hphase with rfl | rfl <;> exact hn.goPhase (hpending hp) rfl
  | @moved idx th point hth hpoint =>
      obtain ⟨l, hq, -⟩ := (hn.table.fit idx).queue
      rcases hpoint with ⟨-, rfl⟩ | ⟨-, rfl⟩ <;>
        exact hn.goTo rfl hth hq List.nil_prefix rfl
  | @quit idx th hth _ =>
      obtain ⟨l, hq, -⟩ := (hn.table.fit idx).queue
      exact hn.goTo rfl hth hq List.nil_prefix rfl
  | @received idx th job hth _ hget =>
      obtain ⟨l, hq, -⟩ := (hn.table.fit idx).queue
      obtain ⟨rest, rfl⟩ := hq.exists_of_get hget
      exact hn.goTo rfl hth hq ⟨rest, rfl⟩ rfl
  | @popped idx th job hth hp =>
      obtain ⟨l, hq, hhand⟩ := (hn.table.fit idx).queue
      have hjob := hhand th hth
      rw [hp] at hjob
      obtain ⟨rest, rfl⟩ := hjob
      exact hn.goTo rfl hth hq.pop List.nil_prefix rfl

/-! ## Runs -/

/-- A turn of a worker changes the context of its slot, and no more than a report is left
elsewhere. -/
theorem workerTurn_setContext {idx : Fin maxTransactions} {a : ThreadAct}
    (h : m.workerTurn idx a = some (m', out)) : ∃ c retCh,
      m' = { m with workers := m.workers.setContext idx c, retCh := retCh } := by
  unfold workerTurn at h
  dsimp only at h
  split at h
  · cases h
  · split at h
    · split at h <;> cases h
      exact ⟨_, _, rfl⟩
    · cases h
      exact ⟨_, _, rfl⟩
    · split at h <;> cases h
      exact ⟨_, _, rfl⟩
    · cases h
      exact ⟨_, _, rfl⟩
    · cases h
      exact ⟨_, _, rfl⟩
    · cases h

variable {h : List (Entry ThreadManager ManagerAct ManagerEvent)}

theorem cleared_of_run (hr : machine.Run init h m) : m.Cleared := by
  refine hr.invariant (P := fun _ t => t.Cleared) cleared_init fun _ u a out v _ ih hs => ?_
  change u.step a = some (v, out) at hs
  cases a with
  | worker idx b =>
      obtain ⟨c, retCh, rfl⟩ := workerTurn_setContext hs
      exact ih.congr rfl (setContext_live _ idx c)
  | start | stop | datagram | shutdown | resume =>
      refine step_cleared ?_ ih hs
      intro idx b hb
      cases hb

/-- **The ids are numbers from `0` on** in every run that gives out fewer than `2 ^ 32` of them. -/
theorem numbered_of_run (hr : machine.Run init h m) (hlt : (startedIds h).length < 2 ^ 32) :
    m.Numbered (startedIds h).length := by
  refine hr.invariant (P := fun k t => (startedIds k).length < 2 ^ 32 →
    t.Numbered (startedIds k).length) (fun _ => numbered_init) ?_ hlt
  intro k u a out v hk ih hs hlt
  rw [startedIds_snoc, List.length_append] at hlt ⊢
  exact (ih (by omega)).step (cleared_of_run hk) hs hlt

end ThreadManager

end PawnDB
