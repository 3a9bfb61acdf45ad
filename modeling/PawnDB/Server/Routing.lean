import PawnDB.Server.Ids

set_option autoImplicit false

/-! # Where a request goes

A request other than `START_TXN` goes to the worker that has its id, if there is one
(`ThreadManager.routes_of_run`). The search in the worker table starts at the home slot of the id
and may give up at the first slot that was never used, so this rests on the order of the table, and
on the ids being different as long as fewer than `2 ^ 32` of them have been given out.
-/

namespace PawnDB

namespace ThreadManager

open WorkerTable

variable {m : ThreadManager} {n : Nat} {job : Job} {txnId : TxnId} {op : OpType}

/-- What becomes of a request for a transaction. -/
inductive Route (m : ThreadManager) (job : Job) (txnId : TxnId) : List ManagerEvent → Prop
  | sent {idx : Fin maxTransactions} : (m.workers.table idx).live = true →
      (m.workers.context idx).txnId = txnId → (m.workers.context idx).jobCh.full = false →
      Route m job txnId [.sent idx job]
  | busy {idx : Fin maxTransactions} : (m.workers.table idx).live = true →
      (m.workers.context idx).txnId = txnId → (m.workers.context idx).jobCh.full = true →
      Route m job txnId [m.reply .busy job.buf job.conn]
  | badTxn : (∀ idx, (m.workers.table idx).live = true → (m.workers.context idx).txnId ≠ txnId) →
      Route m job txnId [m.reply .badTxn job.buf job.conn]

theorem route_out (hw : m.workers.Wf) (htxn : job.buf.getTxn = .ok txnId) (op : OpType) :
    m.Route job txnId (m.route op job).2 := by
  unfold route
  rw [htxn]
  dsimp only
  split
  · next err hs =>
      refine .badTxn fun idx hlive hid => ?_
      rw [hw.traitSearch_iff.mpr ⟨hlive, hid⟩] at hs
      cases hs
  · next idx hs =>
      obtain ⟨hlive, hid⟩ := traitSearch_ok hs
      cases hf : (m.workers.context idx).jobCh.full with
      | true =>
          rw [JobChannel.send_of_full hf]
          exact .busy hlive hid hf
      | false =>
          have hnone := JobChannel.send_error_of_not_full job hf
          rcases hsend : (m.workers.context idx).jobCh.send job with ⟨err, jobCh⟩
          rw [hsend] at hnone
          obtain rfl : err = .none := hnone
          exact .sent hlive hid hf

/-- A request that can be parsed is routed. -/
theorem receive_request (hsize : job.buf.bufferSize ≠ 0) (hreq : job.IsRequest txnId)
    {opId : OpId} (hid : job.buf.getOpId = .ok opId) :
    ∃ op, m.receive job = m.route op job := by
  obtain ⟨-, op, hop, hne⟩ := hreq
  refine ⟨op, ?_⟩
  rw [receive, if_neg hsize, hop, hid]
  cases op with
  | startTxn => exact absurd rfl hne
  | maxOpValue => exact absurd hop job.buf.getOp_ne_maxOpValue
  | _ => rfl

/-! ## The ids of a history -/

/-- The ids after an event: a worker is started under a new one, and a join takes away that of its
slot. -/
def alive (m : ThreadManager) (ids : Finset TxnId) : ManagerEvent → Finset TxnId
  | .started _ txnId _ => insert txnId ids
  | .joined idx => ids.erase (m.workers.context idx).txnId
  | _ => ids

/-- The ids that a history has given out and whose workers it has not joined. -/
def aliveIds (h : List (Entry ThreadManager ManagerAct ManagerEvent)) : Finset TxnId :=
  h.foldl (fun ids e => e.out.foldl e.pre.alive ids) ∅

theorem aliveIds_snoc (h : List (Entry ThreadManager ManagerAct ManagerEvent))
    (e : Entry ThreadManager ManagerAct ManagerEvent) :
    aliveIds (h ++ [e]) = e.out.foldl e.pre.alive (aliveIds h) := by
  simp [aliveIds]

theorem foldl_alive_reply (m : ThreadManager) (fdOpen : Bool) (replies : List Reply)
    (ids : Finset TxnId) : (replies.map (ManagerEvent.reply fdOpen)).foldl m.alive ids = ids := by
  induction replies with
  | nil => rfl
  | cons r replies ih => exact ih

/-- **The workers in the table** change with the events. -/
theorem present_step {a : ManagerAct} {m' : ThreadManager} {out : List ManagerEvent}
    (hn : m.Numbered n) (h : machine.step m a = some (m', out)) :
    m'.workers.present = out.foldl m.alive m.workers.present := by
  cases step_did h with
  | ignored | began | shut | refused | startTxn | unopened | passed => rfl
  | left => exact present_clearStop
  | removing _ _ hrem =>
      obtain ⟨-, -, -, rfl⟩ := removeStop_some hrem
      exact present_setContext rfl
  | joined _ hjoin =>
      rw [List.foldl_cons, foldl_alive_reply]
      exact (hn.table.of_joinEntry hjoin).2
  | cleared _ _ hjoin =>
      rw [List.foldl_cons, foldl_alive_reply]
      exact (hn.table.of_joinEntry hjoin).2
  | started hp _ hins =>
      exact (hn.table.of_traitInsert (hn.next_notMem (by rw [pending, hp])) hins).2
  | routed | aborted | opened | moved | quit | received | popped => exact present_setContext rfl

variable {h : List (Entry ThreadManager ManagerAct ManagerEvent)}

theorem present_of_run (hr : machine.Run init h m) (hlt : (startedIds h).length < 2 ^ 32) :
    m.workers.present = aliveIds h := by
  refine hr.invariant (P := fun k t => (startedIds k).length < 2 ^ 32 →
    t.workers.present = aliveIds k)
    (fun _ => present_eq_empty fun _ => rfl) ?_ hlt
  intro k u a out v hk ih hs hlt
  rw [startedIds_snoc, List.length_append] at hlt
  rw [aliveIds_snoc, ← ih (by omega)]
  exact present_step (numbered_of_run hk (by omega)) hs

/-- **Every request goes where it belongs**: to the worker of its transaction, the only one with
that id, which is there from its `START_TXN` until it is joined. If there is none the sender gets
`BAD_TXN`, and if its channel is full `BUSY`. -/
theorem routes_of_run (hr : machine.Run init h m) (hlt : (startedIds h).length < 2 ^ 32) :
    ∀ k e l, h = k ++ e :: l → ∀ job txnId opId, e.act = .datagram job →
      job.buf.bufferSize ≠ 0 → job.IsRequest txnId → job.buf.getOpId = .ok opId →
      e.pre.Route job txnId e.out ∧
      (txnId ∈ aliveIds k ↔ ∃ idx, (e.pre.workers.table idx).live = true ∧
        (e.pre.workers.context idx).txnId = txnId) ∧
      ∀ i j, (e.pre.workers.table i).live = true → (e.pre.workers.table j).live = true →
        (e.pre.workers.context i).txnId = (e.pre.workers.context j).txnId → i = j := by
  rintro k ⟨u, a, out, v⟩ l rfl job txnId opId rfl hsize hreq hid
  obtain ⟨w, hkw, -⟩ := Machine.Run.cut (h := k ++ [⟨u, .datagram job, out, v⟩]) (by simpa using hr)
  obtain ⟨hk, hs, -⟩ := hkw.last
  dsimp only at hk hs ⊢
  have hltk : (startedIds k).length < 2 ^ 32 := by
    refine lt_of_le_of_lt ?_ hlt
    simp [startedIds]
  have hn := numbered_of_run hk hltk
  refine ⟨?_, ?_, hn.table.unique⟩
  · change u.step (.datagram job) = _ at hs
    unfold step at hs
    dsimp only at hs
    split at hs
    · obtain ⟨op, hroute⟩ := receive_request (m := u) hsize hreq hid
      rw [hroute, Option.some.injEq] at hs
      have hout := route_out hn.table hreq.1 op
      rwa [hs] at hout
    · cases hs
  · rw [← present_of_run hk hltk]
    exact mem_present

/-- The first transaction is over and the second one begins. -/
def secondBegins : List ManagerAct :=
  .start :: (transaction 0 0 ++ [.datagram (.request .startTxn 0 0 [])] ++
    List.replicate 4 .resume)

/-- A request for the second transaction. -/
def addToSecond : Job := ⟨(Job.request .addTuple 1 0 []).buf.setTxn 1, []⟩

theorem routes_of_run_second : ∃ k u v out, machine.Run init k u ∧
    machine.step u (.datagram addToSecond) = some (v, out) ∧ aliveIds k = {1} ∧
    u.Route addToSecond 1 out ∧
    ∃ idx, (u.workers.table idx).live = true ∧ (u.workers.context idx).txnId = 1 := by
  obtain ⟨k, u, v, out, hr, hs, hp⟩ := Machine.exists_step_of_exec (M := machine) (s := init)
    (a := .datagram addToSecond)
    (p := fun k _ _ out => decide (startedIds k = [0, 1] ∧ aliveIds k = {1} ∧
      out.filterMap ManagerEvent.startedId = []))
    (show ((machine.exec init secondBegins).bind _) = some true by decide +kernel)
  obtain ⟨hids, halive, hout⟩ := of_decide_eq_true hp
  have hlt : (startedIds (k ++ [⟨u, .datagram addToSecond, out, v⟩])).length < 2 ^ 32 := by
    rw [startedIds_snoc, hids, hout]
    decide
  obtain ⟨hroute, hmem, -⟩ := routes_of_run (hr.snoc hs) hlt k _ [] rfl addToSecond 1 0 rfl
    (by decide) ⟨rfl, .addTuple, rfl, by decide⟩ rfl
  exact ⟨k, u, v, out, hr, hs, halive, hroute, hmem.mp (by rw [halive]; decide)⟩

end ThreadManager

end PawnDB
