import PawnDB.Txn.HeldLocks
import PawnDB.Worker.Defs

set_option autoImplicit false

/-! # How the handlers and their turns end

Each list below has the ways in which a handler that can be told apart by its own outcome, or a
turn of a loop, comes to an end, with what is known there. The handlers of requests that write
have theirs in `Worker.Wrote`. A proof about what a worker does is a case analysis over these
lists, and a change to a handler is a change to its list.
-/

namespace PawnDB

namespace Worker

variable (w : Worker) (db : StudentTable) (parser : JobBuf) (conn : ClientConn)

/-! ## Requests that are taken up -/

/-- `process_shared_read` and `process_exclusive_read` up to the loop, which begins at `enter`. -/
inductive ReadStart (enter : Point) : Point → List Event → Prop
  | refused (ack : OpAck) : ReadStart enter .loop (answer ack parser 7 conn)
  | entered : w.status = .growing → ReadStart enter enter []

/-- `process_promote` up to its loop. -/
inductive PromoteStart : Point → List Event → Prop
  | refused (ack : OpAck) : PromoteStart .loop (answer ack parser 7 conn)
  | entered (key : TblRow) : w.status = .growing →
      w.lockList.holds ⟨studentTableId, key⟩ .shared = true →
      PromoteStart (.promote parser conn key 0) []

/-- `process_yield` -/
inductive Yielded : Worker → StudentTable → List Event → Prop
  | refused (ack : OpAck) : Yielded w db (answer ack parser 7 conn)
  /-- The lock was one of another table. -/
  | foreign {tableId : TpId} {key : TblRow} {lockList : LockList} : tableId ≠ studentTableId →
      w.lockList.holds ⟨tableId, key⟩ .shared = true →
      Yielded { w with lockList := lockList } db (answer .badTable parser 7 conn)
  | released {key : TblRow} {lockList : LockList} {db' : StudentTable} : w.status = .growing →
      w.lockList.holds ⟨studentTableId, key⟩ .shared = true →
      w.lockList.rmLock ⟨studentTableId, key⟩ = some lockList → db.traitRelease key = some db' →
      Yielded { w with lockList := lockList } db'
        (.released key :: answer .success parser parser.bufferSize conn)

variable {w db parser conn}

theorem processRead_start {enter p : Point} {out : List Event}
    (h : w.processRead enter parser conn = (p, out)) : w.ReadStart parser conn enter p out := by
  unfold processRead at h
  split at h
  · cases h
    exact .refused _
  next hstatus =>
  split at h
  · cases h
    exact .refused _
  split at h
  · cases h
    exact .entered (not_not.mp hstatus)
  · cases h
    exact .refused _

theorem processPromote_start {p : Point} {out : List Event}
    (h : w.processPromote parser conn = (p, out)) : w.PromoteStart parser conn p out := by
  unfold processPromote at h
  split at h
  · cases h
    exact .refused _
  next hstatus =>
  split at h
  · cases h
    exact .refused _
  split at h
  · cases h
    exact .refused _
  split at h
  · next hlock =>
      split at h
      · next hid =>
          subst hid
          cases h
          exact .entered _ (not_not.mp hstatus) hlock
      · cases h
        exact .refused _
  · cases h
    exact .refused _

theorem processYield_yielded {w' : Worker} {db' : StudentTable} {out : List Event}
    (h : w.processYield db parser conn = some (w', db', out)) :
    w.Yielded db parser conn w' db' out := by
  unfold processYield at h
  split at h
  · cases h
    exact .refused _
  next hstatus =>
  split at h
  · cases h
    exact .refused _
  split at h
  · cases h
    exact .refused _
  split at h
  · next hlock =>
      split at h
      · cases h
      next hrm =>
      dsimp only at h
      split at h
      · next hid =>
          subst hid
          split at h
          · cases h
          · next hrel =>
              cases h
              exact .released (not_not.mp hstatus) hlock hrm hrel
      · next hid =>
          cases h
          exact .foreign hid hlock
  · cases h
    exact .refused _

/-! ## Turns of the loops -/

section Turns

variable (w db parser conn)

/-- A turn of the loop of a read that waits for a lock of some type. It goes round again at
`retry`, and sends `refusal` when the lock list refuses the row. -/
inductive ReadTurn (running : Bool) (cnt : Nat) (type : LockType)
    (wait : Except TupleTableError StudentTuple × StudentTable) (retry : Point)
    (refusal : StudentTuple → List Event) : Turn → Prop
  | timeout : maxTimeoutRetry ≤ cnt →
      ReadTurn running cnt type wait retry refusal
        ⟨w, .loop, db, answer .timeout parser 7 conn⟩
  | stopped : running = false →
      ReadTurn running cnt type wait retry refusal
        ⟨{ w with status := .aborted }, .loop, db, answer .aborted parser 7 conn⟩
  | waits {err : TupleTableError} {db' : StudentTable} : cnt < maxTimeoutRetry →
      wait = (.error err, db') →
      ReadTurn running cnt type wait retry refusal ⟨w, retry, db', []⟩
  | granted {tuple : StudentTuple} {db' : StudentTable} {lockList : LockList} :
      cnt < maxTimeoutRetry → running = true → wait = (.ok tuple, db') →
      w.lockList.addLock (studentKey tuple.key) type = some (.none, lockList) →
      ReadTurn running cnt type wait retry refusal
        ⟨{ w with lockList := lockList }, .loop, db',
          .granted type tuple :: answerRow tuple parser conn⟩
  | refused {tuple : StudentTuple} {db' : StudentTable} {err : LockError} {lockList : LockList} :
      cnt < maxTimeoutRetry → running = true → wait = (.ok tuple, db') → err ≠ .none →
      w.lockList.addLock (studentKey tuple.key) type = some (err, lockList) →
      ReadTurn running cnt type wait retry refusal
        ⟨{ w with lockList := lockList }, .loop, db', .granted type tuple :: refusal tuple⟩

/-- What a shared read sends that was refused its row: it does not return after the first
answer. -/
def sharedRefusal (tuple : StudentTuple) : List Event :=
  answer .badAccess parser 7 conn ++ answerRow tuple (parser.setAck .badAccess) conn

/-- A turn of the loop of `process_promote`. -/
inductive PromoteTurn (running : Bool) (key : TblRow) (cnt : Nat) : Turn → Prop
  | timeout : maxTimeoutRetry ≤ cnt →
      PromoteTurn running key cnt
        ⟨{ w with status := .aborted }, .loop, db, answer .timeout parser 7 conn⟩
  | stopped : running = false →
      PromoteTurn running key cnt ⟨w, .loop, db, answer .aborted parser 7 conn⟩
  | waits {err : TupleTableError} {db' : StudentTable} : cnt < maxTimeoutRetry →
      db.traitPromote key = some (.error err, db') →
      PromoteTurn running key cnt ⟨w, .promote parser conn key (cnt + 1), db', []⟩
  | promoted {db' : StudentTable} {lockList : LockList} :
      db.traitPromote key = some (.ok (), db') →
      w.lockList.promoteLock (studentKey key) = some lockList →
      PromoteTurn running key cnt
        ⟨{ w with lockList := lockList }, .loop, db',
          .promoted key :: answer .success parser parser.bufferSize conn⟩

/-- A turn of the drain loop of `process_commit`, or its end. The entry has lost its buffer, so
what is carried out is a `DELETE`. -/
inductive CommitTurn : Turn → Prop
  | drained : w.commitQueue.empty = true →
      CommitTurn ⟨w, .release 0, db, answer .success parser parser.bufferSize conn⟩
  | removed {lockList : LockList} {db' : StudentTable} : w.commitQueue.empty = false →
      w.commitQueue.get.op = .delete → w.lockList.rmLock w.commitQueue.get.key = some lockList →
      db.traitRemove w.commitQueue.get.key.tupleKey = some db' →
      CommitTurn ⟨{ w with lockList := lockList, commitQueue := w.commitQueue.pop },
        .commit parser conn, db', [.remove w.commitQueue.get.key.tupleKey]⟩
  /-- An entry for another table, or one that is none of these. -/
  | foreign {lockList : LockList} : w.commitQueue.empty = false →
      w.commitQueue.get.key.tableId ≠ studentTableId ∨ w.commitQueue.get.op ≠ .addTuple ∧
        w.commitQueue.get.op ≠ .delete ∧ w.commitQueue.get.op ≠ .update →
      CommitTurn ⟨{ w with lockList := lockList, commitQueue := w.commitQueue.pop },
        .commit parser conn, db, []⟩

/-- A turn of `worker_quit`. -/
inductive ReleaseTurn (idx : Nat) : Turn → Prop
  | finished : w.lockList.advanceToValid idx = none →
      ReleaseTurn idx
        ⟨{ w with lockList := w.lockList.clear }.clearCommitQueue, .ended, db, [.ret w.txnId]⟩
  | released {i : Fin maxLockPerTransaction} {db' : StudentTable} :
      w.lockList.advanceToValid idx = some i →
      db.traitRelease (w.lockList.locks i).key.tupleKey = some db' →
      ReleaseTurn idx
        ⟨w, .release (i.val + 1), db', [.released (w.lockList.locks i).key.tupleKey]⟩
  /-- The lock is one of another table. -/
  | foreign {i : Fin maxLockPerTransaction} : w.lockList.advanceToValid idx = some i →
      (w.lockList.locks i).key.tableId ≠ studentTableId →
      ReleaseTurn idx ⟨w, .release (i.val + 1), db, []⟩

end Turns

variable {running : Bool} {cnt : Nat} {t : Turn}

theorem sharedReadTurn_turn (h : w.sharedReadTurn running db parser conn cnt = some t) :
    w.ReadTurn db parser conn running cnt .shared db.traitWaitShared
      (.sharedRead parser conn (cnt + 1)) (sharedRefusal parser conn) t := by
  unfold sharedReadTurn at h
  split at h
  · next hcnt =>
      cases h
      exact .timeout hcnt
  next hcnt =>
  have hlt := Nat.lt_of_not_le hcnt
  split at h
  · next hrun =>
      cases h
      exact .stopped (by simpa using hrun)
  next hrun =>
  have hrun : running = true := by simpa using hrun
  split at h
  · next hwait =>
      cases h
      exact .waits hlt hwait
  next hwait =>
  split at h
  · cases h
  · next hadd =>
      cases h
      exact .granted hlt hrun hwait hadd
  · next hne hadd =>
      cases h
      exact .refused hlt hrun hwait hne hadd

theorem exclusiveReadTurn_turn (h : w.exclusiveReadTurn running db parser conn cnt = some t) :
    w.ReadTurn db parser conn running cnt .exclusive db.traitWaitExclusive
      (.exclusiveRead parser conn (cnt + 1)) (fun _ => answer .badAccess parser 7 conn) t := by
  unfold exclusiveReadTurn at h
  split at h
  · next hcnt =>
      cases h
      exact .timeout hcnt
  next hcnt =>
  have hlt := Nat.lt_of_not_le hcnt
  split at h
  · next hrun =>
      cases h
      exact .stopped (by simpa using hrun)
  next hrun =>
  have hrun : running = true := by simpa using hrun
  split at h
  · next hwait =>
      cases h
      exact .waits hlt hwait
  next hwait =>
  split at h
  · cases h
  · next hadd =>
      cases h
      exact .granted hlt hrun hwait hadd
  · next hne hadd =>
      cases h
      exact .refused hlt hrun hwait hne hadd

theorem promoteTurn_turn {key : TblRow}
    (h : w.promoteTurn running db parser conn key cnt = some t) :
    w.PromoteTurn db parser conn running key cnt t := by
  unfold promoteTurn at h
  split at h
  · next hcnt =>
      cases h
      exact .timeout hcnt
  next hcnt =>
  split at h
  · next hrun =>
      cases h
      exact .stopped (by simpa using hrun)
  split at h
  · cases h
  · next hprom =>
      cases h
      exact .waits (Nat.lt_of_not_le hcnt) hprom
  next hprom =>
  split at h
  · cases h
  · next hlock =>
      cases h
      exact .promoted hprom hlock

/-- What becomes of an entry that has been destroyed. -/
theorem applyEntry_destroyed {l l' : LockList} {db' : StudentTable} {c : Commit}
    {out : List Event} (h : applyEntry l db c.destroyed = some (l', db', out)) :
    c.op = .delete ∧ l.rmLock c.key = some l' ∧ db.traitRemove c.key.tupleKey = some db' ∧
        out = [.remove c.key.tupleKey] ∨
      (c.key.tableId ≠ studentTableId ∨
        c.op ≠ .addTuple ∧ c.op ≠ .delete ∧ c.op ≠ .update) ∧ db' = db ∧ out = [] := by
  unfold applyEntry Commit.destroyed at h
  dsimp only at h
  -- the switch over the operation; an insert or a write would need the buffer
  split at h
  · split at h
    · cases h
    · next hid =>
        cases h
        exact Or.inr ⟨Or.inl hid, rfl, rfl⟩
  · next hop =>
      split at h
      · cases h
      next hrm =>
      split at h
      · split at h
        · cases h
        · next hremove =>
            cases h
            exact Or.inl ⟨hop, hrm, hremove, rfl⟩
      · next hid =>
          cases h
          exact Or.inr ⟨Or.inl hid, rfl, rfl⟩
  · split at h
    · cases h
    · next hid =>
        cases h
        exact Or.inr ⟨Or.inl hid, rfl, rfl⟩
  · next hadd hdelete hupdate =>
      cases h
      exact Or.inr ⟨Or.inr ⟨hadd, hdelete, hupdate⟩, rfl, rfl⟩

theorem commitTurn_turn (h : w.commitTurn db parser conn = some t) :
    w.CommitTurn db parser conn t := by
  unfold commitTurn at h
  split at h
  · next hempty =>
      cases h
      exact .drained hempty
  · next hempty =>
      rw [Bool.not_eq_true] at hempty
      split at h
      · cases h
      · next happly =>
          cases h
          rcases applyEntry_destroyed happly with ⟨hop, hrm, hremove, rfl⟩ | ⟨hno, rfl, rfl⟩
          · exact .removed hempty hop hrm hremove
          · exact .foreign hempty hno

/-- An entry that is no `DELETE` cannot be carried out. -/
theorem commitTurn_eq_none (hempty : w.commitQueue.empty = false)
    (hid : w.commitQueue.get.key.tableId = studentTableId)
    (hop : w.commitQueue.get.op = .addTuple ∨ w.commitQueue.get.op = .update) :
    w.commitTurn db parser conn = none := by
  rw [commitTurn, if_neg (by rw [hempty]; decide), applyEntry, Commit.destroyed]
  rcases hop with hop | hop
  · rw [hop, if_pos hid]
  · rw [hop, if_pos hid]

theorem releaseTurn_turn {idx : Nat} (h : w.releaseTurn db idx = some t) :
    w.ReleaseTurn db idx t := by
  unfold releaseTurn at h
  dsimp only at h
  split at h
  · next hend =>
      cases h
      exact .finished hend
  next hi =>
  split at h
  · split at h
    · cases h
    · next hrel =>
        cases h
        exact .released hi hrel
  · next hid =>
      cases h
      exact .foreign hi hid

end Worker

end PawnDB
