import PawnDB.Basic.JobBuf
import PawnDB.Lib.Ring
import PawnDB.Txn.LockList

set_option autoImplicit false

/-! # The commit queue of a transaction

A ring of sixteen entries. `head` is where the next entry is written and `tail` where the
oldest one is read.
-/

namespace PawnDB

open Ring Probing

/-- `commit`: what a request asks the commit to do. `buffer` is the message buffer with the
new tuple at its start, or no buffer at all. -/
structure Commit where
  key : UniqueKey
  op : OpType
  buffer : Option Buf

/-- The default-constructed entry. -/
def Commit.empty : Commit := ⟨UniqueKey.empty, .maxOpValue, none⟩

/-- An entry whose destructor has run: `~buf_ref` has nulled the handle of its buffer, and the
other members are as they were. -/
def Commit.destroyed (e : Commit) : Commit := { e with buffer := none }

structure CommitQueue where
  commits : Fin maxCommitPerTransaction → Commit
  head : Fin maxCommitPerTransaction
  tail : Fin maxCommitPerTransaction
  size : SizeT

namespace CommitQueue

/-- The constructor. -/
def init : CommitQueue := ⟨fun _ => Commit.empty, 0, 0, 0⟩

variable (q : CommitQueue)

def empty : Bool := q.size == 0
def full : Bool := decide (UInt64.ofNat maxCommitPerTransaction ≤ q.size)

/-- The oldest entry; not checked for emptiness. -/
def get : Commit := q.commits q.tail

def send (entry : Commit) : QueueError × CommitQueue :=
  if q.full then (.full, q)
  else
    (.none,
      { q with
        commits := Slots.set q.commits q.head entry
        head := q.head + 1
        size := q.size + 1 })

def pop : CommitQueue := { q with tail := q.tail + 1, size := q.size - 1 }

/-! ## The contents -/

/-- The queued entries, oldest first. -/
def contents : List Commit := window q.commits q.tail q.size.toNat

/-- The write position is where the contents end, and there are at most sixteen of them. -/
structure Wf : Prop where
  head : q.head = walk q.tail q.size.toNat
  size : q.size.toNat ≤ maxCommitPerTransaction

variable {q}

theorem wf_init : init.Wf := ⟨rfl, by decide⟩

@[simp] theorem contents_init : init.contents = [] := rfl

@[simp] theorem contents_length : q.contents.length = q.size.toNat := window_length _ _ _

theorem empty_iff : q.empty = true ↔ q.contents = [] := by
  rw [← List.length_eq_zero_iff, contents_length, empty, beq_iff_eq, ← UInt64.toNat_inj]
  rfl

theorem full_iff : q.full = true ↔ maxCommitPerTransaction ≤ q.size.toNat := by
  rw [full, decide_eq_true_iff, UInt64.le_iff_toNat_le]
  rfl

theorem send_of_full {e : Commit} (h : q.full = true) : q.send e = (.full, q) := by
  rw [send, if_pos h]

theorem send_error {e : Commit} (h : q.full = false) : (q.send e).1 = .none := by
  rw [send, h]; rfl

theorem Wf.stored (hw : q.Wf) : Stored q.commits q.tail q.head q.size.toNat q.contents :=
  ⟨rfl, hw.head, hw.size⟩

/-- A send to a queue that is not full appends. -/
theorem contents_send (hw : q.Wf) {e : Commit} (h : q.full = false) :
    (q.send e).2.Wf ∧ (q.send e).2.contents = q.contents ++ [e] := by
  have hlt : q.size.toNat < maxCommitPerTransaction := by
    rw [← Bool.not_eq_true, full_iff] at h
    omega
  have hs : (q.size + 1).toNat = q.size.toNat + 1 :=
    SizeT.toNat_succ (Nat.lt_trans hlt (by decide))
  have hpush := hw.stored.push hlt e
  rw [← hs] at hpush
  rw [send, h]
  exact ⟨⟨hpush.stop, hpush.room⟩, hpush.window⟩

/-- A pop of a queue that is not empty drops the oldest entry. -/
theorem contents_pop (hw : q.Wf) (h : q.empty = false) :
    q.pop.Wf ∧ q.contents = q.get :: q.pop.contents := by
  obtain ⟨e, l, hl⟩ : ∃ e l, q.contents = e :: l := by
    refine List.exists_cons_of_ne_nil fun hc => ?_
    rw [empty_iff.mpr hc] at h
    cases h
  have hst := hw.stored
  have hlen : q.size.toNat = l.length + 1 := by rw [← contents_length, hl]; rfl
  have hs : (q.size - 1).toNat = l.length := by
    rw [SizeT.toNat_pred (by omega)]
    omega
  rw [hl, hlen] at hst
  have hpop := hst.pop
  rw [← hs] at hpop
  refine ⟨⟨hpop.stop, hpop.room⟩, ?_⟩
  rw [hl, get, hst.head_eq]
  exact congrArg (e :: ·) hpop.window.symm

theorem size_pop (h : q.empty = false) : q.pop.size.toNat + 1 = q.size.toNat := by
  have hpos : 0 < q.size.toNat := by
    rw [Nat.pos_iff_ne_zero, ← contents_length, Ne, List.length_eq_zero_iff, ← empty_iff, h]
    exact Bool.false_ne_true
  rw [pop, SizeT.toNat_pred hpos]
  exact Nat.succ_pred_eq_of_pos hpos

theorem get_mem (hw : q.Wf) (h : q.empty = false) : q.get ∈ q.contents := by
  rw [(contents_pop hw h).2]
  exact List.mem_cons_self

end CommitQueue

end PawnDB
