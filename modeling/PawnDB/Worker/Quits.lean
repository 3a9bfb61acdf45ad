import PawnDB.Worker.Settled

set_option autoImplicit false

/-! # A stopped worker ends

Once the running flag of a worker is cleared, it handles at most the one job it waits for or has
in hand, leaves its loop, releases its locks and ends. `Point.stepsToEnd` is a bound on the steps
that are left, and every step of a stopped thread lowers it (`WorkerThread.step_stepsToEnd`): what
the other threads do to the table makes no difference.
-/

namespace PawnDB

/-- The steps that a stopped thread at this point can still make. -/
def Point.stepsToEnd (w : Worker) : Point → Nat
  | .ended => 0
  | .release idx => maxLockPerTransaction - idx + 1
  | .loop => maxLockPerTransaction + 2
  | .recv => maxLockPerTransaction + maxTurns + 4
  | p => maxLockPerTransaction + 3 + p.turnsLeft w

/-- The most steps that a stopped thread makes. -/
abbrev maxStepsToEnd : Nat := maxLockPerTransaction + maxTurns + 4

namespace Point

theorem stepsToEnd_eq_zero {w : Worker} {p : Point} : p.stepsToEnd w = 0 ↔ p = .ended := by
  cases p <;> simp [stepsToEnd]

theorem turnsLeft_le {w : Worker} (hq : w.commitQueue.Wf) (p : Point) :
    p.turnsLeft w ≤ maxTurns := by
  have hsize : w.commitQueue.size.toNat ≤ maxCommitPerTransaction := hq.size
  have hretry : maxTimeoutRetry + 1 ≤ maxTurns := by decide
  cases p with
  | commit => exact Nat.succ_le_succ hsize
  | sharedRead _ _ cnt => exact (Nat.sub_le _ cnt).trans hretry
  | exclusiveRead _ _ cnt => exact (Nat.sub_le _ cnt).trans hretry
  | promote _ _ _ cnt => exact (Nat.sub_le _ cnt).trans hretry
  | loop | recv | release | ended => exact Nat.zero_le _

theorem stepsToEnd_le {w : Worker} (hq : w.commitQueue.Wf) (p : Point) :
    p.stepsToEnd w ≤ maxStepsToEnd := by
  have hleft := p.turnsLeft_le hq
  have hmax : maxStepsToEnd = maxLockPerTransaction + maxTurns + 4 := rfl
  cases p <;> simp only [stepsToEnd] <;> omega

end Point

namespace Worker

variable {w : Worker} {db : StudentTable} {t : Turn}

/-- A job that is received leads to a point nearer to the end. -/
theorem dispatch_stepsToEnd {job : Job} (hq : w.commitQueue.Wf)
    (h : w.dispatch db job = some t) :
    t.point.stepsToEnd t.worker < Point.recv.stepsToEnd w := by
  -- the bound of a point that is not in a handler, and of one that is
  have hloop : ∀ v : Worker, Point.loop.stepsToEnd v < Point.recv.stepsToEnd w := fun v => by
    simp only [Point.stepsToEnd]
    omega
  have hrelease : ∀ v : Worker, (Point.release 0).stepsToEnd v < Point.recv.stepsToEnd w :=
    fun v => by
      simp only [Point.stepsToEnd]
      omega
  have henter : ∀ {p : Point} {v : Worker}, v.commitQueue.Wf →
      p.stepsToEnd v = maxLockPerTransaction + 3 + p.turnsLeft v →
      p.stepsToEnd v < Point.recv.stepsToEnd w := fun {p v} hv hp => by
    have := p.turnsLeft_le hv
    rw [hp]
    simp only [Point.stepsToEnd]
    omega
  unfold dispatch at h
  dsimp only at h
  split at h
  · cases h
    exact hloop _
  · cases h
    exact hloop _
  · cases h
    dsimp only
    unfold processCommit
    split
    · exact hrelease _
    · exact henter hq rfl
  · cases h
    exact hrelease _
  · cases h
    exact hloop _
  · cases h
    rcases hread : w.processSharedRead job.buf job.conn with ⟨p, out⟩
    cases processRead_start hread with
    | refused => exact hloop _
    | entered => exact henter hq rfl
  · cases h
    rcases hread : w.processExclusiveRead job.buf job.conn with ⟨p, out⟩
    cases processRead_start hread with
    | refused => exact hloop _
    | entered => exact henter hq rfl
  · split at h
    · cases h
    · cases h
      exact hloop _
  · cases h
    rcases hprom : w.processPromote job.buf job.conn with ⟨p, out⟩
    cases processPromote_start hprom with
    | refused => exact hloop _
    | entered => exact henter hq rfl
  · cases h
    exact hloop _
  · cases h
    exact hloop _
  · cases h
    exact hloop _

/-- A turn of the loop of a read leads nearer to the end. -/
theorem ReadTurn.stepsToEnd {parser : JobBuf} {conn : ClientConn} {running : Bool} {cnt : Nat}
    {type : LockType} {wait : Except TupleTableError StudentTuple × StudentTable}
    {retry : Point} {refusal : StudentTuple → List Event}
    (h : w.ReadTurn db parser conn running cnt type wait retry refusal t)
    (hretry : retry.stepsToEnd w = maxLockPerTransaction + 3 + (maxTimeoutRetry + 1 - (cnt + 1))) :
    t.point.stepsToEnd t.worker < maxLockPerTransaction + 3 + (maxTimeoutRetry + 1 - cnt) := by
  cases h with
  | waits hcnt =>
      rw [hretry]
      omega
  | timeout | stopped | granted | refused =>
      simp only [Point.stepsToEnd]
      omega

theorem PromoteTurn.stepsToEnd {parser : JobBuf} {conn : ClientConn} {running : Bool} {cnt : Nat}
    {key : TblRow} (h : w.PromoteTurn db parser conn running key cnt t) :
    t.point.stepsToEnd t.worker < maxLockPerTransaction + 3 + (maxTimeoutRetry + 1 - cnt) := by
  cases h with
  | waits hcnt =>
      simp only [Point.stepsToEnd, Point.turnsLeft]
      omega
  | timeout | stopped | promoted =>
      simp only [Point.stepsToEnd]
      omega

theorem CommitTurn.stepsToEnd {parser : JobBuf} {conn : ClientConn}
    (h : w.CommitTurn db parser conn t) : t.point.stepsToEnd t.worker
      < maxLockPerTransaction + 3 + (w.commitQueue.size.toNat + 1) := by
  cases h with
  | drained =>
      simp only [Point.stepsToEnd]
      omega
  | removed hempty | foreign hempty =>
      have hsize := CommitQueue.size_pop hempty
      simp only [Point.stepsToEnd, Point.turnsLeft]
      omega

theorem ReleaseTurn.stepsToEnd {idx : Nat} (h : w.ReleaseTurn db idx t) :
    t.point.stepsToEnd t.worker < maxLockPerTransaction - idx + 1 := by
  have hnext : ∀ {i : Fin maxLockPerTransaction}, w.lockList.advanceToValid idx = some i →
      maxLockPerTransaction - (i.val + 1) + 1 < maxLockPerTransaction - idx + 1 := fun {i} hi => by
    have hle := List.find?_some hi
    simp only [Bool.and_eq_true, decide_eq_true_eq] at hle
    have := i.isLt
    omega
  cases h with
  | finished =>
      simp only [Point.stepsToEnd]
      omega
  | released hi => exact hnext hi
  | foreign hi => exact hnext hi

end Worker

namespace WorkerThread

variable {th th' : WorkerThread} {db db' : StudentTable} {a : Act} {out : List Event}

/-- A turn leads nearer to the end, unless it is the one in which the thread goes to wait for
a job. -/
theorem resume_stepsToEnd {t : Turn} (hrun : th.point = .loop → th.running = false)
    (h : th.resume db = some t) :
    t.point.stepsToEnd t.worker < th.point.stepsToEnd th.worker := by
  obtain ⟨w, running, point⟩ := th
  cases point with
  | loop =>
      cases h
      dsimp only at hrun
      rw [hrun rfl]
      simp [Point.stepsToEnd]
  | recv => cases h
  | sharedRead parser conn cnt => exact (Worker.sharedReadTurn_turn h).stepsToEnd rfl
  | exclusiveRead parser conn cnt => exact (Worker.exclusiveReadTurn_turn h).stepsToEnd rfl
  | promote parser conn key cnt => exact (Worker.promoteTurn_turn h).stepsToEnd
  | commit parser conn => exact (Worker.commitTurn_turn h).stepsToEnd
  | release idx => exact (Worker.releaseTurn_turn h).stepsToEnd
  | ended => cases h

/-- **Every step of a stopped thread leads nearer to its end**, apart from another `stop`. -/
theorem step_stepsToEnd (hw : th.worker.Wf th.point) (hrun : th.running = false)
    (h : th.step db a = some (th', db', out)) : th'.running = false ∧
      (a ≠ .stop → th'.point.stepsToEnd th'.worker < th.point.stepsToEnd th.worker) ∧
      (a = .stop → th' = th) := by
  unfold step at h
  cases a with
  | recv job =>
      dsimp only at h
      split at h
      · rename_i hp
        obtain ⟨t, ht, heq⟩ := Option.map_eq_some_iff.mp h
        obtain ⟨rfl, -, -⟩ := after_eq heq
        refine ⟨hrun, fun _ => ?_, fun hstop => by cases hstop⟩
        rw [Worker.received_eq] at ht
        rw [hp]
        exact Worker.dispatch_stepsToEnd (w := { th.worker with timeoutCnt := 0 }) hw.queue ht
      · cases h
  | recvTimeout =>
      dsimp only at h
      split at h
      · rename_i hp
        cases h
        refine ⟨hrun, fun _ => ?_, fun hstop => by cases hstop⟩
        rw [hp]
        simp only [Point.stepsToEnd]
        omega
      · cases h
  | resume =>
      obtain ⟨t, ht, heq⟩ := Option.map_eq_some_iff.mp h
      obtain ⟨rfl, -, -⟩ := after_eq heq
      exact ⟨hrun, fun _ => resume_stepsToEnd (fun _ => hrun) ht, fun hstop => by cases hstop⟩
  | stop =>
      cases h
      exact ⟨rfl, fun hne => absurd rfl hne, fun _ => by rw [← hrun]⟩

end WorkerThread

end PawnDB
