import PawnDB.Worker.Effects

set_option autoImplicit false

/-! # What becomes of the job in hand

A turn of a handler keeps its job and sends nothing, or it answers the job and pops it, once
(`Settles`), and no handler takes more than seventeen turns. There are two exceptions. A shared
read that is granted a row which its lock list refuses answers and pops twice. An `ADD_TUPLE` or
`UPDATE` whose tuple finds the commit queue full is answered `SUCCESS` before it is answered
`COMMIT_FULL` (`Worker.overfills`).
-/

namespace PawnDB

open Bytes

/-- The reply goes to the sender of the job and has the `op` and `op_id` of its request. -/
structure Job.AnsweredBy (job : Job) (r : Reply) : Prop where
  conn : r.conn = job.conn
  header : 7 ≤ job.buf.bufferSize → r.data.take 2 = take job.buf.buffer 2

def Event.reply? : Event → Option Reply
  | .reply r => some r
  | _ => none

def Event.isPop : Event → Bool
  | .pop => true
  | _ => false

/-- The replies among some events. -/
def repliesOf (out : List Event) : List Reply := out.filterMap Event.reply?

/-- The number of pops among some events. -/
def popsOf (out : List Event) : Nat := out.countP Event.isPop

theorem repliesOf_cons {e : Event} (he : e.reply? = none) (out : List Event) :
    repliesOf (e :: out) = repliesOf out := List.filterMap_cons_none he

theorem popsOf_cons {e : Event} (he : e.isPop = false) (out : List Event) :
    popsOf (e :: out) = popsOf out := by
  apply List.countP_cons_of_neg
  rw [he]
  exact Bool.false_ne_true

/-- The job that a thread at this point has in hand. -/
def Point.inHand : Point → List Job
  | .sharedRead parser conn _ => [⟨parser, conn⟩]
  | .exclusiveRead parser conn _ => [⟨parser, conn⟩]
  | .promote parser conn _ _ => [⟨parser, conn⟩]
  | .commit parser conn => [⟨parser, conn⟩]
  | _ => []

def Point.isSharedRead : Point → Bool
  | .sharedRead _ _ _ => true
  | _ => false

theorem Point.exists_inHand {p : Point} (h : p.isSharedRead = true) :
    ∃ job, p.inHand = [job] := by
  cases p with
  | sharedRead parser conn cnt => exact ⟨_, rfl⟩
  | _ => cases h

theorem Point.inHand_cases (p : Point) : p.inHand = [] ∨ ∃ job, p.inHand = [job] := by
  cases p with
  | sharedRead | exclusiveRead | promote | commit => exact Or.inr ⟨_, rfl⟩
  | _ => exact Or.inl rfl

/-- The turns that the handler of the job in hand can still take. -/
def Point.turnsLeft (w : Worker) : Point → Nat
  | .sharedRead _ _ cnt => maxTimeoutRetry + 1 - cnt
  | .exclusiveRead _ _ cnt => maxTimeoutRetry + 1 - cnt
  | .promote _ _ _ cnt => maxTimeoutRetry + 1 - cnt
  | .commit _ _ => w.commitQueue.size.toNat + 1
  | _ => 0

/-- The most turns that a handler takes. -/
abbrev maxTurns : Nat := maxCommitPerTransaction + 1

/-- What a turn makes of the job: it keeps it, with fewer turns to come, or it answers and pops
it. -/
inductive Settles (job : Job) (left : Nat) (t : Turn) : Prop
  | waits : t.point.inHand = [job] → t.point.turnsLeft t.worker < left →
      repliesOf t.out = [] → popsOf t.out = 0 → Settles job left t
  | done (r : Reply) : t.point.inHand = [] → job.AnsweredBy r → repliesOf t.out = [r] →
      popsOf t.out = 1 → Settles job left t

theorem take_take_setAck {parser : JobBuf} {k size : Nat} (hk : k ≤ 6) (hs : k ≤ size)
    (ack : OpAck) : (take (parser.setAck ack).buffer size).take k = take parser.buffer k := by
  rw [take, ← List.map_take, List.take_range, min_eq_left hs]
  exact (agree_poke parser.buffer (byte ack.code) hk).take

section Settles

variable {job : Job} {left size : Nat} {w : Worker} {p : Point} {db : StudentTable}
  {parser : JobBuf}

/-- An answer whose header is that of the job settles it. -/
theorem settles_answer (ack : OpAck) (hp : p.inHand = [])
    (hb : Agree 2 parser.buffer job.buf.buffer) (hs : 7 ≤ job.buf.bufferSize → 2 ≤ size) :
    Settles job left ⟨w, p, db, answer ack parser size job.conn⟩ := by
  refine .done _ hp ⟨rfl, fun hlen => ?_⟩ rfl rfl
  rw [← hb.take]
  exact take_take_setAck (by decide) (hs hlen) ack

theorem settles_header (ack : OpAck) (hp : p.inHand = []) :
    Settles job left ⟨w, p, db, answer ack job.buf 7 job.conn⟩ :=
  settles_answer ack hp (Agree.refl _ _) fun _ => by decide

theorem settles_message (ack : OpAck) (hp : p.inHand = []) :
    Settles job left ⟨w, p, db, answer ack job.buf job.buf.bufferSize job.conn⟩ :=
  settles_answer ack hp (Agree.refl _ _) fun hlen => le_trans (by decide) hlen

theorem agree_traitSerialize {k offset : Nat} (tuple : StudentTuple) (buffer : Buf)
    (h : k ≤ offset) : Agree k (tuple.traitSerialize buffer offset).2 buffer := by
  have hname := agree_poke buffer tuple.name h
  have hage := agree_poke (poke buffer offset tuple.name) (byte tuple.age)
    (Nat.le_add_right_of_le h : k ≤ offset + nameLength)
  exact (agree_poke _ (le32 tuple.checksum)
    (Nat.le_add_right_of_le (Nat.le_add_right_of_le h))).trans (hage.trans hname)

/-- A reply with a row is written behind the table id. -/
theorem settles_answerRow (tuple : StudentTuple) (hp : p.inHand = []) :
    Settles job left ⟨w, p, db, Worker.answerRow tuple job.buf job.conn⟩ := by
  have hrow := agree_traitSerialize tuple (job.buf.setKey tuple.key).buffer
    (show 2 ≤ FieldOffset.tuple.pos by decide)
  have hkey := agree_poke job.buf.buffer (byte tuple.key)
    (show 2 ≤ FieldOffset.tpKey.pos by decide)
  exact settles_answer _ hp (hrow.trans hkey) fun _ => show 2 ≤ 46 by decide

theorem Settles.cons {e : Event} {out : List Event} (h : Settles job left ⟨w, p, db, out⟩)
    (hr : e.reply? = none) (hp : e.isPop = false) : Settles job left ⟨w, p, db, e :: out⟩ := by
  cases h with
  | waits hhand hleft hout hpops =>
      exact .waits hhand hleft ((repliesOf_cons hr _).trans hout) ((popsOf_cons hp _).trans hpops)
  | done r hhand hans hout hpops =>
      exact .done r hhand hans ((repliesOf_cons hr _).trans hout) ((popsOf_cons hp _).trans hpops)

end Settles

namespace Worker

variable {w : Worker} {job : Job} {left : Nat} {db : StudentTable} {t : Turn}

/-- The request has passed all checks and its tuple finds no room in the commit queue. -/
def overfills (w : Worker) (job : Job) : Bool :=
  match job.buf.getOp with
  | .ok op => decide (op ≠ .delete) && (w.target op job.buf).isSome && w.commitQueue.full
  | .error _ => false

/-! ## Requests that write -/

theorem processAdd_settles
    (hroom : (w.target .addTuple job.buf).isSome = true → w.commitQueue.full = false) :
    Settles job left ⟨(w.processAdd job.buf job.conn).1, .loop, db,
      (w.processAdd job.buf job.conn).2⟩ := by
  unfold processAdd
  dsimp only
  cases htbl : job.buf.getTbl with
  | error e => exact settles_header _ rfl
  | ok tableId =>
      dsimp only
      by_cases hid : tableId = studentTableId
      · rw [if_pos hid]
        have hfull : w.commitQueue.full = false := hroom (by simp [target, htbl, hid])
        have hs : ∀ e, w.leaveGrowing.commitQueue.send e = (.none, (w.commitQueue.send e).2) :=
          fun e => send_eq hfull
        simp only [hs]
        exact settles_message _ rfl
      · rw [if_neg hid]
        exact settles_header _ rfl

theorem processUpdate_settles
    (hroom : (w.target .update job.buf).isSome = true → w.commitQueue.full = false) :
    Settles job left ⟨(w.processUpdate job.buf job.conn).1, .loop, db,
      (w.processUpdate job.buf job.conn).2⟩ := by
  unfold processUpdate
  dsimp only
  cases htbl : job.buf.getTbl with
  | error e => exact settles_header _ rfl
  | ok tableId =>
      cases hkey : job.buf.getKey with
      | error e => exact settles_header _ rfl
      | ok tupleKey =>
          dsimp only
          have hlist : w.leaveGrowing.lockList = w.lockList := rfl
          rw [hlist]
          by_cases hlock : w.lockList.holds ⟨tableId, tupleKey⟩ .exclusive = true
          · rw [if_pos hlock]
            by_cases hid : tableId = studentTableId
            · rw [if_pos hid]
              have hfull : w.commitQueue.full = false := by
                apply hroom
                simp only [target, htbl, hkey]
                rw [if_pos ⟨hlock, hid⟩]
                rfl
              have hs : ∀ e, w.leaveGrowing.commitQueue.send e
                  = (.none, (w.commitQueue.send e).2) := fun e => send_eq hfull
              simp only [hs]
              exact settles_header _ rfl
            · rw [if_neg hid]
              exact settles_header _ rfl
          · rw [if_neg hlock]
            exact settles_header _ rfl

/-- A `DELETE` that finds no room is answered only once. -/
theorem processRm_settles : Settles job left ⟨(w.processRm job.buf job.conn).1, .loop, db,
    (w.processRm job.buf job.conn).2⟩ := by
  unfold processRm
  dsimp only
  split
  · exact settles_header _ rfl
  · split
    · exact settles_header _ rfl
    · split
      · split
        · exact settles_header _ rfl
        · exact settles_message _ rfl
      · exact settles_header _ rfl

/-- The tuple is lost, and the request answered twice. -/
theorem Wrote.twice {op : OpType} {w' : Worker} {out : List Event} (h : w.Wrote op job w' out)
    (hop : op ≠ .delete) (htarget : (w.target op job.buf).isSome = true)
    (hfull : w.commitQueue.full = true) : (repliesOf out).length = 2 := by
  cases h with
  | rejected ack _ hnone =>
      rw [hnone] at htarget
      cases htarget
  | lost => rfl
  | full _ _ _ _ hdel => exact absurd hdel hop
  | queued _ _ _ _ hroom =>
      rw [hfull] at hroom
      cases hroom

/-! ## Requests that are taken up -/

theorem processRead_settles {enter p : Point} {out : List Event}
    (h : w.processRead enter job.buf job.conn = (p, out)) (henter : enter.inHand = [job])
    (hleft : enter.turnsLeft w < left) : Settles job left ⟨w, p, db, out⟩ := by
  cases processRead_start h with
  | refused ack => exact settles_header ack rfl
  | entered => exact .waits henter hleft rfl rfl

theorem processPromote_settles {p : Point} {out : List Event}
    (h : w.processPromote job.buf job.conn = (p, out)) (hleft : maxTimeoutRetry + 1 < left) :
    Settles job left ⟨w, p, db, out⟩ := by
  cases processPromote_start h with
  | refused ack => exact settles_header ack rfl
  | entered => exact .waits rfl hleft rfl rfl

theorem processYield_settles {w' : Worker} {db' : StudentTable} {out : List Event}
    (h : w.processYield db job.buf job.conn = some (w', db', out)) :
    Settles job left ⟨w', .loop, db', out⟩ := by
  cases processYield_yielded h with
  | refused ack => exact settles_header ack rfl
  | foreign => exact settles_header _ rfl
  | released => exact (settles_message _ rfl).cons rfl rfl

theorem processCommit_settles (hleft : w.commitQueue.size.toNat + 1 < left) :
    Settles job left ⟨w, (w.processCommit job.buf job.conn).1, db,
      (w.processCommit job.buf job.conn).2⟩ := by
  unfold processCommit
  split
  · exact settles_header _ rfl
  · exact .waits rfl hleft rfl rfl

/-- **A job that is received is settled**, unless it overfills the commit queue. -/
theorem dispatch_settles (hq : w.commitQueue.Wf) (h : w.dispatch db job = some t)
    (hroom : w.overfills job = false) : Settles job (maxTurns + 1) t := by
  have hsize : w.commitQueue.size.toNat ≤ maxCommitPerTransaction := hq.size
  have hretry : maxTimeoutRetry + 1 < maxTurns + 1 := by decide
  -- the room for the entry is what `hroom` gives
  have hfull : ∀ {op : OpType}, job.buf.getOp = .ok op → op ≠ .delete →
      (w.target op job.buf).isSome = true → w.commitQueue.full = false := by
    intro op hop hne htarget
    rw [overfills, hop] at hroom
    simpa [hne, htarget] using hroom
  unfold dispatch at h
  dsimp only at h
  split at h
  · cases h
    exact settles_header _ rfl
  · cases h
    exact settles_answer _ rfl (agree_poke _ _ (by decide)) fun _ => by decide
  · cases h
    exact processCommit_settles (Nat.lt_succ_of_le (Nat.succ_le_succ hsize))
  · cases h
    exact settles_header _ rfl
  · next hop =>
      cases h
      exact processAdd_settles (hfull hop (by decide))
  · cases h
    exact processRead_settles rfl rfl hretry
  · cases h
    exact processRead_settles rfl rfl hretry
  · split at h
    · cases h
    · next hy =>
        cases h
        exact processYield_settles hy
  · cases h
    exact processPromote_settles rfl hretry
  · next hop =>
      cases h
      exact processUpdate_settles (hfull hop (by decide))
  · cases h
    exact processRm_settles
  · cases h
    exact settles_header _ rfl

/-- A job that overfills the commit queue is answered twice and then forgotten. -/
theorem dispatch_twice (h : w.dispatch db job = some t) (hover : w.overfills job = true) :
    t.point = .loop ∧ (repliesOf t.out).length = 2 := by
  unfold overfills at hover
  split at hover
  · next op hop =>
      simp only [Bool.and_eq_true, decide_eq_true_eq] at hover
      obtain ⟨⟨hne, htarget⟩, hfull⟩ := hover
      rw [dispatch, hop] at h
      cases op with
      | addTuple =>
          cases h
          exact ⟨rfl, (w.processAdd_wrote job).twice hne htarget hfull⟩
      | update =>
          cases h
          exact ⟨rfl, (w.processUpdate_wrote job).twice hne htarget hfull⟩
      | delete => exact absurd rfl hne
      | _ => cases htarget
  · cases hover

/-! ## Turns of a handler -/

variable {running : Bool} {parser : JobBuf} {conn : ClientConn} {cnt : Nat}

/-- A turn that goes round the loop once more has one turn less to go. -/
theorem settles_again {p : Point} (hhand : p.inHand = [job])
    (hleft : p.turnsLeft w = maxTimeoutRetry + 1 - (cnt + 1)) (hcnt : cnt < maxTimeoutRetry) :
    Settles job (maxTimeoutRetry + 1 - cnt) ⟨w, p, db, []⟩ := by
  refine .waits hhand ?_ rfl rfl
  show p.turnsLeft w < maxTimeoutRetry + 1 - cnt
  omega

theorem sharedReadTurn_settles (hl : w.lockList.Wf)
    (h : w.sharedReadTurn running db parser conn cnt = some t)
    (htakes : (⟨w, running, .sharedRead parser conn cnt⟩ : WorkerThread).takes db = true) :
    Settles ⟨parser, conn⟩ (maxTimeoutRetry + 1 - cnt) t := by
  cases sharedReadTurn_turn h with
  | timeout | stopped => exact settles_header _ rfl
  | waits hcnt => exact settles_again rfl rfl hcnt
  | granted => exact (settles_answerRow _ rfl).cons rfl rfl
  | refused hcnt hrun hwait hne hadd =>
      simp only [WorkerThread.takes, WorkerThread.grants, hwait] at htakes
      rw [if_pos ⟨hcnt, hrun⟩] at htakes
      simp [(LockList.refuses_of_addLock hl hne hadd).1] at htakes

/-- A row that the lock list refuses is answered twice. -/
theorem sharedReadTurn_twice (hl : w.lockList.Wf)
    (h : w.sharedReadTurn running db parser conn cnt = some t)
    (htakes : (⟨w, running, .sharedRead parser conn cnt⟩ : WorkerThread).takes db = false) :
    t.point = .loop ∧ (repliesOf t.out).length = 2 := by
  have hnone : (⟨w, running, .sharedRead parser conn cnt⟩ : WorkerThread).grants db ≠ none := by
    intro hgrants
    rw [WorkerThread.takes, hgrants] at htakes
    cases htakes
  cases sharedReadTurn_turn h with
  | timeout hcnt =>
      refine absurd ?_ hnone
      exact if_neg fun hcond => Nat.not_lt_of_le hcnt hcond.1
  | stopped hrun =>
      refine absurd ?_ hnone
      exact if_neg fun hcond => by simp [hrun] at hcond
  | waits _ hwait =>
      refine absurd ?_ hnone
      simp only [WorkerThread.grants, hwait, ite_self]
  | granted hcnt hrun hwait hadd =>
      simp only [WorkerThread.takes, WorkerThread.grants, hwait] at htakes
      rw [if_pos ⟨hcnt, hrun⟩] at htakes
      simp [(LockList.recorded_of_addLock hl hadd).1] at htakes
  | refused => exact ⟨rfl, rfl⟩

theorem exclusiveReadTurn_settles
    (h : w.exclusiveReadTurn running db parser conn cnt = some t) :
    Settles ⟨parser, conn⟩ (maxTimeoutRetry + 1 - cnt) t := by
  cases exclusiveReadTurn_turn h with
  | timeout | stopped => exact settles_header _ rfl
  | waits hcnt => exact settles_again rfl rfl hcnt
  | granted => exact (settles_answerRow _ rfl).cons rfl rfl
  | refused => exact (settles_header _ rfl).cons rfl rfl

theorem promoteTurn_settles {key : TblRow}
    (h : w.promoteTurn running db parser conn key cnt = some t) :
    Settles ⟨parser, conn⟩ (maxTimeoutRetry + 1 - cnt) t := by
  cases promoteTurn_turn h with
  | timeout | stopped => exact settles_header _ rfl
  | waits hcnt => exact settles_again rfl rfl hcnt
  | promoted => exact (settles_message _ rfl).cons rfl rfl

/-- Neither a reply nor a pop. -/
def Quiet (out : List Event) : Prop := repliesOf out = [] ∧ popsOf out = 0

theorem commitTurn_settles (h : w.commitTurn db parser conn = some t) :
    Settles ⟨parser, conn⟩ (w.commitQueue.size.toNat + 1) t := by
  have hsize : w.commitQueue.empty = false →
      w.commitQueue.pop.size.toNat + 1 < w.commitQueue.size.toNat + 1 := fun hempty => by
    have := CommitQueue.size_pop hempty
    omega
  cases commitTurn_turn h with
  | drained => exact settles_message _ rfl
  | removed hempty | foreign hempty => exact .waits rfl (hsize hempty) rfl rfl

/-- A thread that releases its locks has nothing in hand. -/
theorem quiet_releaseTurn {idx : Nat} (h : w.releaseTurn db idx = some t) :
    t.point.inHand = [] ∧ Quiet t.out := by
  cases releaseTurn_turn h with
  | finished | released | foreign => exact ⟨rfl, rfl, rfl⟩

end Worker

/-- **A turn of a handler settles the job in hand**, unless it is a shared read that is granted a
row which the lock list refuses. -/
theorem WorkerThread.resume_settles {th : WorkerThread} {db : StudentTable} {t : Turn} {job : Job}
    (hw : th.worker.Wf th.point) (h : th.resume db = some t) (hhand : th.point.inHand = [job])
    (htakes : th.point.isSharedRead = true → th.takes db = true) :
    Settles job (th.point.turnsLeft th.worker) t := by
  obtain ⟨w, running, point⟩ := th
  cases point with
  | sharedRead parser conn cnt =>
      cases hhand
      exact Worker.sharedReadTurn_settles (hw.list Point.noConfusion) h (htakes rfl)
  | exclusiveRead parser conn cnt =>
      cases hhand
      exact Worker.exclusiveReadTurn_settles h
  | promote parser conn key cnt =>
      cases hhand
      exact Worker.promoteTurn_settles h
  | commit parser conn =>
      cases hhand
      exact Worker.commitTurn_settles h
  | loop | recv | release | ended => cases hhand

/-- Between two jobs a thread neither answers nor pops. -/
theorem WorkerThread.quiet_resume {th : WorkerThread} {db : StudentTable} {t : Turn}
    (h : th.resume db = some t) (hhand : th.point.inHand = []) :
    t.point.inHand = [] ∧ Worker.Quiet t.out := by
  obtain ⟨w, running, point⟩ := th
  cases point with
  | loop =>
      cases h
      cases running <;> exact ⟨rfl, rfl, rfl⟩
  | recv => cases h
  | release idx => exact Worker.quiet_releaseTurn h
  | ended => cases h
  | sharedRead | exclusiveRead | promote | commit => cases hhand

theorem WorkerThread.resume_twice {th : WorkerThread} {db : StudentTable} {t : Turn}
    (hw : th.worker.Wf th.point) (h : th.resume db = some t)
    (hshared : th.point.isSharedRead = true) (htakes : th.takes db = false) :
    t.point = .loop ∧ (repliesOf t.out).length = 2 := by
  obtain ⟨w, running, point⟩ := th
  cases point with
  | sharedRead parser conn cnt =>
      exact Worker.sharedReadTurn_twice (hw.list Point.noConfusion) h htakes
  | _ => cases hshared

end PawnDB
