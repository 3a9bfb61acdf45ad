import PawnDB.Worker.Solo

set_option autoImplicit false

/-! # Workers that wait for nothing

A worker that waits for a job in vain `MAX_TIMEOUT_RETRY` times in a row should quit. `trait_start`
counts the timeouts and then goes straight back to the head of its loop; it compares the count with
the limit only when a job has come, and the job has reset it. So nothing but the running flag ends
an idle worker (`givesUp_iff`).
-/

namespace PawnDB

namespace Worker

variable {w : Worker} {db : StudentTable} {parser : JobBuf} {conn : ClientConn}

theorem processAdd_timeoutCnt : (w.processAdd parser conn).1.timeoutCnt = w.timeoutCnt := by
  unfold processAdd
  dsimp only
  split
  · rfl
  · split
    · split
      · rfl
      · split <;> rfl
    · rfl

theorem processUpdate_timeoutCnt :
    (w.processUpdate parser conn).1.timeoutCnt = w.timeoutCnt := by
  unfold processUpdate
  dsimp only
  split
  · rfl
  · split
    · rfl
    · split
      · split
        · split
          · rfl
          · split <;> rfl
        · rfl
      · rfl

theorem processRm_timeoutCnt : (w.processRm parser conn).1.timeoutCnt = w.timeoutCnt := by
  unfold processRm
  dsimp only
  split
  · rfl
  · split
    · rfl
    · split
      · split <;> rfl
      · rfl

theorem processYield_timeoutCnt {w' : Worker} {db' : StudentTable} {out : List Event}
    (h : w.processYield db parser conn = some (w', db', out)) :
    w'.timeoutCnt = w.timeoutCnt := by
  cases processYield_yielded h with
  | refused | foreign | released => rfl

/-- No handler touches the count of timeouts. -/
theorem dispatch_timeoutCnt {job : Job} {t : Turn} (h : w.dispatch db job = some t) :
    t.worker.timeoutCnt = w.timeoutCnt := by
  unfold dispatch at h
  dsimp only at h
  -- the handlers that queue an entry change the worker, but not this counter
  split at h
  · cases h
    rfl
  · cases h
    rfl
  · cases h
    rfl
  · cases h
    rfl
  · cases h
    exact processAdd_timeoutCnt
  · cases h
    rfl
  · cases h
    rfl
  · split at h
    · cases h
    · next hy =>
        cases h
        exact processYield_timeoutCnt hy
  · cases h
    rfl
  · cases h
    exact processUpdate_timeoutCnt
  · cases h
    exact processRm_timeoutCnt
  · cases h
    rfl

theorem received_timeoutCnt {job : Job} {t : Turn} (h : w.received db job = some t) :
    t.worker.timeoutCnt = 0 := by
  rw [received_eq] at h
  exact dispatch_timeoutCnt h

end Worker

namespace Solo

/-- The number of receives that have timed out since the last one that did not. -/
def idle (h : List (Entry Solo SoloAct Event)) : Nat :=
  h.foldl (fun n e =>
    match e.act with
    | .own .recvTimeout => n + 1
    | .own (.recv _) => 0
    | _ => n) 0

/-- The worker is at the head of its receive loop and goes on. -/
def IsTurn (e : Entry Solo SoloAct Event) : Prop :=
  e.act = .own .resume ∧ e.pre.thread.point = .loop

/-- What the worker is to do about timeouts: it never goes through more than `MAX_TIMEOUT_RETRY` in
a row, after that many it quits, and a job that it receives resets the count. -/
structure GivesUp (h : List (Entry Solo SoloAct Event)) : Prop where
  bound : ∀ k l, h = k ++ l → idle k ≤ maxTimeoutRetry
  quits : ∀ k e l, h = k ++ e :: l → maxTimeoutRetry ≤ idle k → IsTurn e →
    e.post.thread.point = .release 0
  reset : ∀ e ∈ h, ∀ job, e.act = .own (.recv job) → e.post.thread.worker.timeoutCnt = 0

/-- The running flag is cleared before a worker that has waited in vain `MAX_TIMEOUT_RETRY` times in
a row gets round to its loop. -/
def StoppedInTime (h : List (Entry Solo SoloAct Event)) : Prop :=
  ∀ k e l, h = k ++ e :: l → maxTimeoutRetry ≤ idle k → IsTurn e → e.pre.thread.running = false

variable {s s' : Solo} {a : SoloAct} {out : List Event} {h : List (Entry Solo SoloAct Event)}
  {txnId : TxnId} {db : StudentTable}

theorem idle_snoc (h : List (Entry Solo SoloAct Event)) (e : Entry Solo SoloAct Event) :
    idle (h ++ [e]) =
      match e.act with
      | .own .recvTimeout => idle h + 1
      | .own (.recv _) => 0
      | _ => idle h := by
  rw [idle, List.foldl_append]
  rfl

/-- The head of the loop looks at the running flag and at nothing else. -/
theorem step_isTurn (ha : a = .own .resume) (hp : s.thread.point = .loop)
    (h : s.step a = some (s', out)) :
    s'.thread.point = if s.thread.running then .recv else .release 0 := by
  rw [ha] at h
  obtain ⟨t, ht, heq⟩ := Option.map_eq_some_iff.mp (step_own h)
  obtain ⟨hth, -, -⟩ := WorkerThread.after_eq heq
  rw [WorkerThread.resume, hp] at ht
  obtain rfl := Option.some.inj ht
  rw [hth]

theorem step_recv_timeoutCnt {job : Job} (ha : a = .own (.recv job))
    (h : s.step a = some (s', out)) :
    s'.thread.worker.timeoutCnt = 0 := by
  rw [ha] at h
  have hstep := step_own h
  simp only [WorkerThread.step] at hstep
  split at hstep
  · obtain ⟨t, ht, heq⟩ := Option.map_eq_some_iff.mp hstep
    obtain ⟨hth, -, -⟩ := WorkerThread.after_eq heq
    rw [hth]
    exact Worker.received_timeoutCnt ht
  · cases hstep

/-- A worker that quits goes on quitting. -/
theorem step_quitting (hp : ¬ s.thread.point.Active) (h : s.step (.own .resume) = some (s', out)) :
    ¬ s'.thread.point.Active := by
  obtain ⟨t, ht, heq⟩ := Option.map_eq_some_iff.mp (step_own h)
  obtain ⟨hth, -, -⟩ := WorkerThread.after_eq heq
  rw [hth]
  unfold WorkerThread.resume at ht
  cases hpt : s.thread.point with
  | release idx =>
      rw [hpt] at ht
      dsimp only [Worker.releaseTurn] at ht
      split at ht
      · cases ht
        exact not_false
      · split at ht
        · split at ht
          · cases ht
          · cases ht
            exact not_false
        · cases ht
          exact not_false
  | ended =>
      rw [hpt] at ht
      cases ht
  | loop | recv | sharedRead | exclusiveRead | promote | commit =>
      rw [hpt] at hp
      exact absurd trivial hp

/-- The worker is not waiting for a job, nor has it one in hand. -/
def Spent (p : Point) : Prop := p = .loop ∨ ¬ p.Active

theorem Spent.ne_recv {p : Point} (h : Spent p) : p ≠ .recv := by
  rintro rfl
  rcases h with h | h
  · cases h
  · exact h trivial

theorem StoppedInTime.of_append {k l : List (Entry Solo SoloAct Event)}
    (h : StoppedInTime (k ++ l)) : StoppedInTime k := by
  intro k' e l' hk
  rw [hk, List.append_assoc] at h
  exact h k' e (l' ++ l) rfl

/-- **What one step keeps.** A worker that has waited in vain too often is not waiting any more,
and its running flag keeps it from waiting again. -/
theorem step_bound (hidle : idle h ≤ maxTimeoutRetry)
    (hspent : maxTimeoutRetry ≤ idle h → Spent s.thread.point)
    (hstop : IsTurn ⟨s, a, out, s'⟩ → maxTimeoutRetry ≤ idle h → s.thread.running = false)
    (hs : s.step a = some (s', out)) :
    idle (h ++ [⟨s, a, out, s'⟩]) ≤ maxTimeoutRetry ∧
      (maxTimeoutRetry ≤ idle (h ++ [⟨s, a, out, s'⟩]) → Spent s'.thread.point) := by
  rw [idle_snoc]
  cases a with
  | env students =>
      cases hs
      exact ⟨hidle, hspent⟩
  | own a =>
      have hstep := step_own hs
      cases a with
      | recv job =>
          exact ⟨Nat.zero_le _, fun hle => absurd hle (show ¬ maxTimeoutRetry ≤ 0 by decide)⟩
      | recvTimeout =>
          simp only [WorkerThread.step] at hstep
          split at hstep
          · next hp =>
              -- it was waiting, so it had not waited in vain so often before
              have hlt : ¬ maxTimeoutRetry ≤ idle h := fun hle => (hspent hle).ne_recv hp
              obtain ⟨hth, -⟩ := Prod.mk.inj (Option.some.inj hstep)
              refine ⟨Nat.lt_of_not_le hlt, fun _ => Or.inl ?_⟩
              rw [← hth]
          · cases hstep
      | resume =>
          refine ⟨hidle, fun hle => ?_⟩
          rcases hspent hle with hp | hp
          · have hpoint := step_isTurn rfl hp hs
            rw [hstop ⟨rfl, hp⟩ hle] at hpoint
            refine Or.inr ?_
            rw [hpoint]
            exact not_false
          · exact Or.inr (step_quitting hp hs)
      | stop =>
          obtain ⟨hth, -⟩ := Prod.mk.inj (Option.some.inj hstep)
          rw [← hth]
          exact ⟨hidle, hspent⟩

theorem bound_of_run (hr : machine.Run (init txnId db) h s) (hstop : StoppedInTime h) :
    idle h ≤ maxTimeoutRetry ∧ (maxTimeoutRetry ≤ idle h → Spent s.thread.point) := by
  refine hr.invariant (P := fun k u => StoppedInTime k → idle k ≤ maxTimeoutRetry ∧
    (maxTimeoutRetry ≤ idle k → Spent u.thread.point)) ?_ ?_ hstop
  · intro _
    exact ⟨Nat.zero_le _, fun hle => absurd hle (by decide)⟩
  · intro k u a out v _ ih hs hstop
    obtain ⟨hidle, hspent⟩ := ih hstop.of_append
    exact step_bound hidle hspent (fun hturn hle => hstop k _ [] rfl hle hturn) hs

/-- **An idle worker gives up exactly if** its running flag is cleared in time. -/
theorem givesUp_iff (hr : machine.Run (init txnId db) h s) : GivesUp h ↔ StoppedInTime h := by
  have hturn : ∀ k e l, h = k ++ e :: l → IsTurn e →
      e.post.thread.point = if e.pre.thread.running then .recv else .release 0 := by
    rintro k e l rfl ⟨ha, hp⟩
    exact step_isTurn ha hp (hr.step_of_mem e (List.mem_append_right _ List.mem_cons_self))
  constructor
  · intro hgives k e l hsplit hidle hpre
    have hquit := hgives.quits k e l hsplit hidle hpre
    rw [hturn k e l hsplit hpre] at hquit
    cases hrun : e.pre.thread.running with
    | false => rfl
    | true =>
        rw [hrun] at hquit
        cases hquit
  · intro hstop
    refine ⟨fun k l hsplit => ?_, fun k e l hsplit hidle hpre => ?_, fun e he job ha => ?_⟩
    · rw [hsplit] at hr hstop
      obtain ⟨t, hk, -⟩ := hr.cut
      exact (bound_of_run hk hstop.of_append).1
    · rw [hturn k e l hsplit hpre, hstop k e l hsplit hidle hpre]
      rfl
    · exact step_recv_timeoutCnt ha (hr.step_of_mem e he)

/-- The worker waits in vain a number of times. -/
def waits (n : Nat) : List SoloAct :=
  (List.replicate n [.own .resume, .own .recvTimeout]).flatten

/-- Eight times, and then the running flag is cleared. -/
theorem givesUp_iff_stopped : ∃ h s, machine.Run (init 0 oneRow) h s ∧ idle h = 8 ∧
    s.thread.point.isEnded = true ∧ (GivesUp h ↔ StoppedInTime h) := by
  obtain ⟨h, s, hr, hp⟩ := Machine.exists_run_of_exec (M := machine) (s := init 0 oneRow)
    (p := fun h s => decide (idle h = 8 ∧ s.thread.point.isEnded = true))
    (show (machine.exec (init 0 oneRow)
      (waits 8 ++ [.own .stop, .own .resume, .own .resume])).map _ = some true by decide +kernel)
  obtain ⟨hidle, hend⟩ := of_decide_eq_true hp
  exact ⟨h, s, hr, hidle, hend, givesUp_iff hr⟩

/-- Nine times. -/
theorem not_always_givesUp :
    ¬ ∀ txnId db h s, machine.Run (init txnId db) h s → GivesUp h := by
  intro hall
  obtain ⟨h, s, hr, hp⟩ := Machine.exists_run_of_exec (M := machine) (s := init 0 oneRow)
    (p := fun h _ => decide (idle h = 9))
    (show (machine.exec (init 0 oneRow) (waits 9)).map _ = some true by decide +kernel)
  have hbound := (hall 0 oneRow h s hr).bound h [] (by simp)
  rw [of_decide_eq_true hp] at hbound
  exact absurd hbound (by decide)

end Solo

end PawnDB
