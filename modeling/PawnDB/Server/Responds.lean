import PawnDB.Server.Ids

set_option autoImplicit false

/-! # The manager comes back

A datagram gives the manager at most `maxManagerTurns` turns to make before it listens again,
whatever the workers do meanwhile: no worker is started while the drain loop runs, so it joins no
more workers than there are slots.

As long as every report finds room in the channel, none of these turns has to wait. A worker is
joined only after it has reported, and it reports with its last breath; the worker that the loop of
`trait_remove` looks for is there, and so is the slot that `trait_insert` looks for
(`ThreadManager.responds_of_run`).
-/

namespace PawnDB

/-- The manager is called, or gets something to do. -/
def ManagerAct.isInput : ManagerAct → Bool
  | .start | .datagram _ | .shutdown => true
  | .stop | .resume | .worker _ _ => false

def ManagerAct.isResume : ManagerAct → Bool
  | .resume => true
  | _ => false

/-- The turns that the manager can still make before it listens or stops, when there are `live`
workers in the table. -/
def Phase.turnsLeft (live : Nat) : Phase → Nat
  | .stopped | .listening => 0
  | .draining _ => 2 * live + 2
  | .joining _ _ => 2 * live + 1
  | .starting _ _ | .aborting _ => 1
  | .clearing slot => maxTransactions - slot + 1

abbrev maxManagerTurns : Nat := 2 * maxTransactions + 2

namespace WorkerTable

/-- The number of workers in the table. -/
def liveCount (t : WorkerTable) : Nat := Slots.count fun i => (t.table i).live

theorem liveCount_le (t : WorkerTable) : t.liveCount ≤ maxTransactions := by
  unfold liveCount Slots.count
  exact (Finset.card_filter_le _ _).trans (Finset.card_fin maxTransactions).le

theorem liveCount_setContext (t : WorkerTable) (idx : Fin maxTransactions) (c : WorkerContext) :
    (t.setContext idx c).liveCount = t.liveCount :=
  Slots.count_congr fun i => setContext_live t idx c i

variable {t t' : WorkerTable} {idx : Fin maxTransactions} {l : List TxnId} {x : TxnId}

/-- A join takes a worker out of the table. -/
theorem liveCount_joinEntry {replies : List Reply} (hlive : (t.table idx).live = true)
    (h : t.joinEntry idx = some (t', replies)) : t'.liveCount + 1 = t.liveCount := by
  obtain ⟨c, -, rfl⟩ := joinEntry_some h
  have hcount := Slots.count_congr_off (p := fun i => (Slots.set t.table idx
      { t.table idx with context := c, isDeleted := true } i).live)
    (q := fun i => (t.table i).live) idx fun i hi => by rw [Slots.set_of_ne _ _ hi]
  rw [Slots.set_self, hlive] at hcount
  simpa [WorkerEntry.live, liveCount] using hcount

/-- A reported worker is in its slot, and its thread has ended. -/
theorem Reports.exists_ended (h : t.Reports l) (hx : x ∈ l) :
    ∃ q txnId, (t.context q).thread = some ⟨txnId, .ended⟩ ∧ (t.context q).txnId = x := by
  have hpos : 0 < Slots.count fun i => (t.table i).endedAs x := by
    rw [← h x]
    exact List.count_pos_iff.mpr hx
  obtain ⟨q, hq⟩ := Slots.exists_of_count_pos hpos
  rw [WorkerEntry.endedAs] at hq
  split at hq
  · next txnId hth => exact ⟨q, txnId, hth, beq_iff_eq.mp hq⟩
  · cases hq

end WorkerTable

namespace ThreadManager

open WorkerTable

variable {m m' t : ThreadManager} {out : List ManagerEvent} {n : Nat} {sent removed : List TxnId}
  {h k : List (Entry ThreadManager ManagerAct ManagerEvent)}

def turnsLeft (m : ThreadManager) : Nat := m.phase.turnsLeft m.workers.liveCount

theorem turnsLeft_le (m : ThreadManager) : m.turnsLeft ≤ maxManagerTurns := by
  have hlive := m.workers.liveCount_le
  unfold turnsLeft Phase.turnsLeft
  split <;> simp only [maxManagerTurns] <;> omega

theorem turnsLeft_eq_zero : m.turnsLeft = 0 ↔ m.phase = .listening ∨ m.phase = .stopped := by
  unfold turnsLeft
  cases m.phase <;> simp [Phase.turnsLeft]

/-! ## The number of turns -/

/-- **A turn of the manager** is one less to make. -/
theorem resume_turnsLeft
    (hfit : ∀ i, (m.workers.table i).live = (m.workers.context i).thread.isSome)
    (hr : m.resume = some (m', out)) : m'.turnsLeft < m.turnsLeft := by
  unfold turnsLeft
  unfold resume at hr
  split at hr
  · cases hr
  · cases hr
  · next job hp =>
      rw [hp]
      unfold drainTurn at hr
      split at hr
      · split at hr
        · cases hr
        · next hrem =>
            cases hr
            obtain ⟨-, -, -, rfl⟩ := removeStop_some hrem
            simp only [Phase.turnsLeft, liveCount_setContext]
            omega
      · split at hr <;> cases hr <;> simp only [Phase.turnsLeft] <;> omega
  · next job idx hp =>
      rw [hp]
      unfold joinTurn at hr
      split at hr
      · cases hr
      · next workers replies hjoin =>
          cases hr
          obtain ⟨c, hc, -⟩ := joinEntry_some hjoin
          obtain ⟨⟨txnId, hth⟩, -⟩ := WorkerContext.traitJoin_some _ hc
          have hcount := liveCount_joinEntry (by rw [hfit, hth]; rfl) hjoin
          simp only [Phase.turnsLeft]
          omega
  · next job idx hp =>
      have hlisten : (m.startTurn job idx).1.phase = .listening := by
        unfold startTurn
        dsimp only
        split <;> rfl
      have hm' : (m.startTurn job idx).1 = m' := congrArg Prod.fst (Option.some.inj hr)
      rw [← hm', hp, hlisten]
      exact Nat.zero_lt_one
  · next hp =>
      cases hr
      rw [hp]
      exact Nat.zero_lt_one
  · next slot hp =>
      rw [hp]
      unfold clearTurn at hr
      split at hr
      · next hslot =>
          split at hr
          · cases hr
          · cases hr
            simp only [Phase.turnsLeft]
            omega
      · cases hr
        simp only [Phase.turnsLeft]
        omega

theorem workerTurn_turnsLeft {idx : Fin maxTransactions} {a : ThreadAct}
    (h : m.workerTurn idx a = some (m', out)) : m'.turnsLeft = m.turnsLeft := by
  obtain ⟨c, retCh, rfl⟩ := workerTurn_setContext h
  exact congrArg m.phase.turnsLeft (liveCount_setContext _ idx c)

/-- The manager makes no more turns than are left. -/
theorem turns_le (hr : machine.Run init h m) (hk : machine.Run m k t)
    (hin : ∀ e ∈ k, e.act.isInput = false) :
    (k.countP fun e => e.act.isResume) + t.turnsLeft ≤ m.turnsLeft := by
  refine (hk.countP_add_rank_le (fun u => ∃ l, machine.Run init l u) turnsLeft hin ⟨h, hr⟩
    fun u a out v hu hs ha => ?_).2
  obtain ⟨l, hl⟩ := hu
  refine ⟨⟨_, hl.snoc hs⟩, ?_⟩
  cases a with
  | start | datagram | shutdown => cases ha
  | stop =>
      cases hs
      exact Nat.le_refl _
  | resume => exact resume_turnsLeft (fun i => ((inv_of_run hl).slots i).live) hs
  | worker idx b =>
      rw [workerTurn_turnsLeft hs]
      exact Nat.le_refl _

/-! ## No turn waits -/

/-- The worker that the drain loop joins has ended. -/
def JoinsEnded (m : ThreadManager) : Prop := ∀ job idx, m.phase = .joining job idx →
  ∃ txnId, (m.workers.context idx).thread = some ⟨txnId, .ended⟩

theorem JoinsEnded.of_phase (hp : m.phase.isJoining = false) : m.JoinsEnded := by
  intro job idx hj
  rw [hj] at hp
  cases hp

/-- A worker that makes a turn is not one that has ended. -/
theorem JoinsEnded.setContext {idx : Fin maxTransactions} {th : Thread} {c : WorkerContext}
    (hj : m.JoinsEnded) (hth : (m.workers.context idx).thread = some th)
    (hp : th.point.isEnded = false) (hphase : m'.phase = m.phase)
    (hworkers : m'.workers = m.workers.setContext idx c) : m'.JoinsEnded := by
  intro job i hi
  obtain ⟨txnId, hended⟩ := hj job i (by rw [← hphase, hi])
  have hne : i ≠ idx := by
    rintro rfl
    rw [hth, Option.some.injEq] at hended
    rw [hended] at hp
    cases hp
  refine ⟨txnId, ?_⟩
  rw [hworkers, WorkerTable.context, setContext_of_ne _ _ hne]
  exact hended

/-- The loop of `trait_remove` stops at the worker that has reported. -/
theorem JoinsEnded.removing {job : Job} {deadTxn : TxnId} {idx : Fin maxTransactions}
    {workers : WorkerTable} (hw : m.workers.Wf) (hreap : m.Reaping sent removed)
    (hget : m.retCh.get = .ok deadTxn)
    (hrem : m.workers.removeStop deadTxn = some (idx, workers)) :
    JoinsEnded { m with workers := workers, phase := .joining job idx } := by
  obtain ⟨l, hq, hrep, -⟩ := hreap.queue
  obtain ⟨rest, rfl⟩ := hq.exists_of_get hget
  obtain ⟨q, txnId, hth, hid⟩ := hrep.exists_ended List.mem_cons_self
  have hstop := hw.removeStop_eq (hw.live_of_thread hth) hid
  rw [hrem] at hstop
  simp only [Option.some.injEq, Prod.mk.injEq] at hstop
  obtain ⟨rfl, rfl⟩ := hstop
  intro job' i hi
  cases hi
  refine ⟨txnId, ?_⟩
  rw [WorkerTable.context, setContext_self]
  exact hth

theorem JoinsEnded.step {a : ManagerAct} (hj : m.JoinsEnded) (hw : m.workers.Wf)
    (hreap : m.Reaping sent removed) (h : machine.step m a = some (m', out)) : m'.JoinsEnded := by
  cases step_did h with
  | ignored | shut => exact hj
  | began | refused | left | startTxn | aborted | joined | started | opened | unopened | cleared =>
      exact .of_phase rfl
  | routed _ hphase => rcases hphase with rfl | rfl <;> exact .of_phase rfl
  | passed _ hphase => rcases hphase with rfl | rfl <;> exact .of_phase rfl
  | removing _ hget hrem => exact .removing hw hreap hget hrem
  | moved hth hpoint =>
      rcases hpoint with ⟨hp, -⟩ | ⟨hp, -⟩ <;>
        exact hj.setContext hth (by rw [hp]; rfl) rfl rfl
  | quit hth hp => exact hj.setContext hth (by rw [hp]; rfl) rfl rfl
  | received hth hp => exact hj.setContext hth (by rw [hp]; rfl) rfl rfl
  | popped hth hp => exact hj.setContext hth (by rw [hp]; rfl) rfl rfl

theorem joinsEnded_of_run (hr : machine.Run init h m) (hserv : ∀ e ∈ h, e.post.serving = true)
    (hroom : ∀ e ∈ h, Room e) (hlt : (startedIds h).length < 2 ^ 32) : m.JoinsEnded := by
  refine hr.invariant_within (C := fun e => e.post.serving = true ∧ Room e)
    (P := fun l u => (startedIds l).length < 2 ^ 32 → u.JoinsEnded)
    (fun e he => ⟨hserv e he, hroom e he⟩) (fun _ => .of_phase rfl) ?_ hlt
  intro l u a out v hl hc ih hs _ hlt
  rw [startedIds_snoc, List.length_append] at hlt
  have hreap := reaping_of_run hl (fun e he => (hc e he).1) fun e he => (hc e he).2
  exact (ih (by omega)).step (numbered_of_run hl (by omega)).table hreap hs

/-- **A turn that the manager has to make it can make.** -/
theorem exists_resume (hn : m.Numbered n) (hreap : m.Reaping sent removed) (hj : m.JoinsEnded)
    (hleft : m.turnsLeft ≠ 0) : ∃ m' out, m.step .resume = some (m', out) := by
  rw [Ne, turnsLeft_eq_zero, not_or] at hleft
  change ∃ m' out, m.resume = some (m', out)
  unfold resume
  split
  · next hp => exact absurd hp hleft.2
  · next hp => exact absurd hp hleft.1
  · next job hp =>
      unfold drainTurn
      split
      · next deadTxn hget =>
          obtain ⟨l, hq, hrep, -⟩ := hreap.queue
          obtain ⟨rest, rfl⟩ := hq.exists_of_get hget
          obtain ⟨q, txnId, hth, hid⟩ := hrep.exists_ended List.mem_cons_self
          rw [hn.table.removeStop_eq (hn.table.live_of_thread hth) hid]
          exact ⟨_, _, rfl⟩
      · -- there is a free slot for the new worker, or the table is full
        by_cases hroom : m.workers.present.card < maxTransactions
        · have hnew := hn.next_notMem (by rw [pending, hp])
          obtain ⟨idx, t, hins, -⟩ :=
            hn.table.traitInsert_room (c := WorkerContext.ofTxn m.nextTxnId) hroom hnew
          rw [hins]
          exact ⟨_, _, rfl⟩
        · have hcard : m.workers.present.card = maxTransactions :=
            le_antisymm card_present_le (Nat.not_lt.mp hroom)
          rw [hn.table.traitInsert_full_iff.mpr hcard]
          exact ⟨_, _, rfl⟩
  · next job idx hp =>
      obtain ⟨txnId, hth⟩ := hj job idx hp
      obtain ⟨t, replies, hjoin, -⟩ :=
        hn.table.joinEntry_eq (hn.table.live_of_thread hth) hth rfl
      unfold joinTurn
      rw [hjoin]
      exact ⟨_, _, rfl⟩
  · exact ⟨_, _, rfl⟩
  · exact ⟨_, _, rfl⟩
  · next slot hp =>
      have hserv := hreap.serving
      rw [serving, hp] at hserv
      cases hserv

/-- **The manager comes back.** Without something new to do it makes at most `turnsLeft` turns,
whatever the workers do, and then it listens or has stopped. As long as every report finds room in
the channel and the ids do not wrap around, it can make every one of these turns at once. -/
theorem responds_of_run (hr : machine.Run init h m) (hk : machine.Run m k t)
    (hin : ∀ e ∈ k, e.act.isInput = false) :
    (k.countP fun e => e.act.isResume) + t.turnsLeft ≤ m.turnsLeft ∧
    m.turnsLeft ≤ maxManagerTurns ∧
    (t.turnsLeft = 0 ↔ t.phase = .listening ∨ t.phase = .stopped) ∧
    ((∀ e ∈ h ++ k, e.post.serving = true) → (∀ e ∈ h ++ k, Room e) →
      (startedIds (h ++ k)).length < 2 ^ 32 → t.turnsLeft ≠ 0 →
      ∃ t' out, t.step .resume = some (t', out)) := by
  refine ⟨turns_le hr hk hin, m.turnsLeft_le, turnsLeft_eq_zero, fun hserv hroom hlt hleft => ?_⟩
  have hrun := hr.trans hk
  exact exists_resume (numbered_of_run hrun hlt) (reaping_of_run hrun hserv hroom)
    (joinsEnded_of_run hrun hserv hroom hlt) hleft

/-- Four transactions begin, three of them end, and a fifth is to begin. -/
def threeQuit : List ManagerAct :=
  .start :: ((List.range 4).flatMap fun _ =>
      [.datagram (.request .startTxn 0 0 []), .resume, .resume]) ++
    [.worker 0 .quit, .worker 1 .quit, .worker 2 .quit, .datagram (.request .startTxn 0 0 [])]

/-- The manager joins the first two of them while the fourth works on. -/
def joinTwo : List ManagerAct := [.resume, .worker 3 .enter, .resume, .resume]

theorem responds_of_run_three : ∃ h m k t, machine.Run init h m ∧ machine.Run m k t ∧
    (k.countP fun e => e.act.isResume) = 3 ∧ 3 + t.turnsLeft ≤ m.turnsLeft ∧
    ∃ t' out, t.step .resume = some (t', out) := by
  obtain ⟨h, m, k, t, hr, hk, hp⟩ := Machine.exists_histories_of_exec (M := machine) (s := init)
    (p := fun h _ k t => decide ((∀ e ∈ k, e.act.isInput = false) ∧
      (k.countP fun e => e.act.isResume) = 3 ∧ (∀ e ∈ h ++ k, e.post.serving = true) ∧
      (∀ e ∈ h ++ k, Room e) ∧ (startedIds (h ++ k)).length < 2 ^ 32 ∧ t.turnsLeft ≠ 0))
    (show ((machine.exec init threeQuit).bind fun r => (machine.exec r.2 joinTwo).map _) = some true
      by decide +kernel)
  obtain ⟨hin, hcount, hserv, hroom, hlt, hleft⟩ := of_decide_eq_true hp
  obtain ⟨hle, -, -, hready⟩ := responds_of_run hr hk hin
  rw [hcount] at hle
  exact ⟨h, m, k, t, hr, hk, hcount, hle, hready hserv hroom hlt hleft⟩

end ThreadManager

end PawnDB
