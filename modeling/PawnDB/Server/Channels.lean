import PawnDB.Basic.JobBuf
import PawnDB.Lib.Ring

set_option autoImplicit false

/-! # The channels between the thread manager and its workers

Both are rings of sixteen slots. A `job_channel` hands jobs to one worker and refuses a job
when it is full. The `ret_channel` takes the transaction ids of the workers that have quit and
refuses nothing.

A slot of a `job_channel` holds no job before its first use and after `pop`, which destroys the
job in place.
-/

namespace PawnDB

open Ring Probing

/-! ## Job channels -/

structure JobChannel where
  jobs : Fin maxItemPerChannel → Option Job
  head : Fin maxItemPerChannel
  tail : Fin maxItemPerChannel
  count : SizeT

namespace JobChannel

/-- The constructor. -/
def init : JobChannel := ⟨fun _ => none, 0, 0, 0⟩

variable (q : JobChannel)

def empty : Bool := q.count == 0
def full : Bool := decide (UInt64.ofNat maxItemPerChannel ≤ q.count)

/-- The oldest job, without waiting for one. -/
def get : Except QueueError (Option Job) := if !q.empty then .ok (q.jobs q.head) else .error .empty

def send (job : Job) : QueueError × JobChannel :=
  if q.full then (.full, q)
  else
    (.none,
      { q with
        jobs := Slots.set q.jobs q.tail (some job)
        tail := q.tail + 1
        count := q.count + 1 })

/-- Not checked for emptiness. -/
def pop : JobChannel :=
  { q with jobs := Slots.set q.jobs q.head none, head := q.head + 1, count := q.count - 1 }

/-- The channel holds these jobs, oldest first. -/
def Holds (l : List Job) : Prop :=
  Stored q.jobs q.head q.tail q.count.toNat (l.map some)

variable {q} {l : List Job} {job : Job}

theorem holds_init : init.Holds [] := Stored.nil _ _

theorem Holds.length_eq (h : q.Holds l) : l.length = q.count.toNat := by
  rw [← Stored.length_eq h, List.length_map]

theorem Holds.empty_iff (h : q.Holds l) : q.empty = true ↔ l = [] := by
  rw [← List.length_eq_zero_iff, h.length_eq, empty, beq_iff_eq, ← UInt64.toNat_inj]
  rfl

theorem Holds.empty_eq_false (h : q.Holds l) (hl : l ≠ []) : q.empty = false := by
  rw [← Bool.not_eq_true, h.empty_iff]
  exact hl

theorem full_iff : q.full = true ↔ maxItemPerChannel ≤ q.count.toNat := by
  rw [full, decide_eq_true_iff, UInt64.le_iff_toNat_le]
  rfl

theorem empty_of_full (hf : q.full = true) : q.empty = false := by
  rw [← Bool.not_eq_true, empty, beq_iff_eq]
  intro h0
  rw [full_iff, h0] at hf
  exact absurd hf (by decide)

theorem send_of_full (hf : q.full = true) : q.send job = (.full, q) := by
  rw [send, if_pos hf]

theorem send_error_of_not_full (job : Job) (hf : q.full = false) : (q.send job).1 = .none := by
  rw [send, hf]
  rfl

/-- A job that is sent to a channel with room comes last. -/
theorem Holds.send (h : q.Holds l) (hf : q.full = false) : (q.send job).2.Holds (l ++ [job]) := by
  have hlt : q.count.toNat < maxItemPerChannel := by
    rw [← Bool.not_eq_true, full_iff] at hf
    omega
  have hs : (q.count + 1).toNat = q.count.toNat + 1 :=
    SizeT.toNat_succ (Nat.lt_trans hlt (by decide))
  rw [JobChannel.send, hf, Holds, List.map_append]
  have hpush := Stored.push h hlt (some job)
  rwa [← hs] at hpush

/-- A channel that has taken a job had room for it. -/
theorem Holds.of_send {q' : JobChannel} (h : q.Holds l) (hs : q.send job = (.none, q')) :
    q'.Holds (l ++ [job]) := by
  have hroom : q.full = false := by
    rw [← Bool.not_eq_true]
    intro hf
    rw [send_of_full hf] at hs
    cases hs
  have hsent : (q.send job).2.Holds (l ++ [job]) := h.send hroom
  rwa [hs] at hsent

/-- What is read is the oldest job. -/
theorem Holds.get_cons (h : q.Holds (job :: l)) : q.get = .ok (some job) := by
  rw [get, h.empty_eq_false (List.cons_ne_nil _ _), Stored.head_eq h]
  rfl

theorem Holds.exists_of_get (h : q.Holds l) (hget : q.get = .ok (some job)) :
    ∃ rest, l = job :: rest := by
  cases l with
  | nil =>
      rw [JobChannel.get, h.empty_iff.mpr rfl] at hget
      cases hget
  | cons j rest =>
      rw [h.get_cons, Except.ok.injEq, Option.some.injEq] at hget
      exact ⟨rest, by rw [hget]⟩

/-- A pop drops the oldest job. -/
theorem Holds.pop (h : q.Holds (job :: l)) : q.pop.Holds l := by
  have hlen : q.count.toNat = l.length + 1 := h.length_eq.symm
  have hs : (q.count - 1).toNat = l.length := by
    rw [SizeT.toNat_pred (by omega)]
    omega
  rw [Holds, hlen] at h
  rw [Holds, JobChannel.pop, hs]
  exact Stored.pop_clear h none

end JobChannel

/-! ## The return channel -/

structure RetChannel where
  rets : Fin maxItemPerChannel → TxnId
  head : Fin maxItemPerChannel
  tail : Fin maxItemPerChannel
  count : SizeT

namespace RetChannel

/-- The constructor. -/
def init : RetChannel := ⟨fun _ => 0, 0, 0, 0⟩

variable (q : RetChannel)

def empty : Bool := q.count == 0
def full : Bool := q.count == UInt64.ofNat maxItemPerChannel

/-- The oldest id, without waiting for one. -/
def get : Except QueueError TxnId := if !q.empty then .ok (q.rets q.head) else .error .empty

/-- Not checked for room. -/
def send (ret : TxnId) : RetChannel :=
  { q with
    rets := Slots.set q.rets q.tail ret
    tail := q.tail + 1
    count := q.count + 1 }

/-- Not checked for emptiness. -/
def pop : RetChannel := { q with head := q.head + 1, count := q.count - 1 }

/-- The ids in the channel, oldest first. -/
def contents : List TxnId := window q.rets q.head q.count.toNat

/-- The channel holds these ids, oldest first. -/
def Holds (l : List TxnId) : Prop := Stored q.rets q.head q.tail q.count.toNat l

variable {q} {l : List TxnId} {ret : TxnId}

theorem holds_init : init.Holds [] := Stored.nil _ _

theorem Holds.empty_iff (h : q.Holds l) : q.empty = true ↔ l = [] := by
  rw [← List.length_eq_zero_iff, Stored.length_eq h, empty, beq_iff_eq, ← UInt64.toNat_inj]
  rfl

/-- An id that is sent to a channel with room comes last. -/
theorem Holds.send (h : q.Holds l) (hf : q.full = false) (ret : TxnId) :
    (q.send ret).Holds (l ++ [ret]) := by
  have hne : q.count.toNat ≠ maxItemPerChannel := by
    intro hc
    rw [full, beq_eq_false_iff_ne, Ne, ← UInt64.toNat_inj] at hf
    exact hf hc
  have hlt : q.count.toNat < maxItemPerChannel := Nat.lt_of_le_of_ne h.room hne
  have hs : (q.count + 1).toNat = q.count.toNat + 1 :=
    SizeT.toNat_succ (Nat.lt_trans hlt (by decide))
  have hpush := Stored.push h hlt ret
  rwa [← hs] at hpush

/-- What is read is the oldest id. -/
theorem Holds.get_cons (h : q.Holds (ret :: l)) : q.get = .ok ret := by
  have hne : q.empty = false := by
    rw [← Bool.not_eq_true, h.empty_iff]
    exact List.cons_ne_nil _ _
  rw [get, hne, Stored.head_eq h]
  rfl

theorem Holds.exists_of_get (h : q.Holds l) (hget : q.get = .ok ret) :
    ∃ rest, l = ret :: rest := by
  cases l with
  | nil =>
      rw [RetChannel.get, h.empty_iff.mpr rfl] at hget
      cases hget
  | cons r rest =>
      rw [h.get_cons, Except.ok.injEq] at hget
      exact ⟨rest, by rw [hget]⟩

/-- A pop drops the oldest id. -/
theorem Holds.pop (h : q.Holds (ret :: l)) : q.pop.Holds l := by
  have hlen : q.count.toNat = l.length + 1 := (Stored.length_eq h).symm
  have hs : (q.count - 1).toNat = l.length := by
    rw [SizeT.toNat_pred (by omega)]
    omega
  rw [Holds, hlen] at h
  rw [Holds, RetChannel.pop, hs]
  exact Stored.pop h

end RetChannel

end PawnDB
