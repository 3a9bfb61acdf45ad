import PawnDB.Basic.JobBuf
import PawnDB.Lib.Machine
import PawnDB.Lib.Ring
import PawnDB.Pool.BufTable
import PawnDB.Txn.CommitQueue

set_option autoImplicit false

/-! # The containers of buffer handles

A `commit_queue`, a `job_channel`, a `ret_channel` and a `rollback_stack` are arrays of sixteen
entries, and every entry owns a `buf_ref`. Here the entries have the handle itself, not the bytes
it leads to: what a container keeps of the pool is what the entries of its array refer to, inside
its contents or not.

The three queues are rings (`EntryRing`), the stack is an array with a count. `Container` is what
they have in common for a run of operations.
-/

namespace PawnDB.Pooled

open Ring Probing

/-! ## Entries -/

/-- `commit` -/
structure Commit where
  key : UniqueKey
  op : OpType
  buffer : BufRef
  deriving DecidableEq

/-- `rollback` -/
structure Rollback where
  key : UniqueKey
  op : OpType
  buffer : BufRef
  deriving DecidableEq

/-- `job`: the buffer of a message, its size and the client. -/
structure Job where
  buffer : BufRef
  bufferSize : SizeT
  conn : ClientConn
  deriving DecidableEq

/-- `ret`: the buffer of a reply, its size and the client. -/
structure Ret where
  buffer : BufRef
  bufferSize : SizeT
  conn : ClientConn
  deriving DecidableEq

/-- The default-constructed entries. -/
def Commit.empty : Commit := ⟨UniqueKey.empty, .maxOpValue, none⟩
def Rollback.empty : Rollback := ⟨UniqueKey.empty, .maxOpValue, none⟩
def Job.empty : Job := ⟨none, 0, []⟩
def Ret.empty : Ret := ⟨none, 0, []⟩

/-- The destructor releases the handle and leaves the rest of the storage as it is. -/
def Job.destroy (job : Job) : Job := { job with buffer := none }

/-! ## Rings of entries -/

/-- An array used as a ring: the oldest entry is at `read`, and the next one goes to `write`. -/
structure EntryRing (α : Type) (n : Nat) where
  slots : Fin n → α
  read : Fin n
  write : Fin n
  size : SizeT

namespace EntryRing

variable {α : Type} {n : Nat} [NeZero n]

/-- A new ring has `e` everywhere. -/
def init (e : α) : EntryRing α n := ⟨fun _ => e, 0, 0, 0⟩

variable (r : EntryRing α n)

def empty : Bool := r.size == 0
def full : Bool := decide (UInt64.ofNat n ≤ r.size)

/-- The entry at the read position. -/
def front : α := r.slots r.read

/-- Write an entry, whether there is room or not. -/
def put (e : α) : EntryRing α n :=
  { r with slots := Slots.set r.slots r.write e, write := r.write + 1, size := r.size + 1 }

/-- Move the read position, whether there is an entry or not. -/
def drop : EntryRing α n := { r with read := r.read + 1, size := r.size - 1 }

/-- Change the entry at the read position. -/
def modifyFront (f : α → α) : EntryRing α n :=
  { r with slots := Slots.set r.slots r.read (f (r.slots r.read)) }

/-- Set the positions and the count back. -/
def reset : EntryRing α n := { r with read := 0, write := 0, size := 0 }

/-- The entries in the ring, oldest first. -/
def contents : List α := window r.slots r.read r.size.toNat

/-- The ring has these entries, oldest first. -/
def Holds (l : List α) : Prop := Stored r.slots r.read r.write r.size.toNat l

variable {r} {l : List α} {e : α}

theorem holds_init : (init e : EntryRing α n).Holds [] := Stored.nil _ _

theorem Holds.contents_eq (h : r.Holds l) : r.contents = l := h.window

theorem Holds.length_eq (h : r.Holds l) : l.length = r.size.toNat := Stored.length_eq h

theorem Holds.empty_iff (h : r.Holds l) : r.empty = true ↔ l = [] := by
  rw [← List.length_eq_zero_iff, h.length_eq, empty, beq_iff_eq, ← UInt64.toNat_inj]
  rfl

theorem Holds.front_eq (h : r.Holds (e :: l)) : r.front = e := Stored.head_eq h

theorem Holds.length_le (h : r.Holds l) : l.length ≤ n := by
  rw [h.length_eq]
  exact Stored.room h

theorem Holds.full_iff (h : r.Holds l) (hn : n ≤ 1000) : r.full = true ↔ l.length = n := by
  have hle := h.length_le
  rw [full, decide_eq_true_iff, UInt64.le_iff_toNat_le, ← h.length_eq,
    UInt64.toNat_ofNat_of_lt' (Nat.lt_of_le_of_lt hn (by decide))]
  omega

/-- An entry that is written where there is room comes last. -/
theorem Holds.put (h : r.Holds l) (hlt : l.length < n) (hn : n ≤ 1000) (e : α) :
    (r.put e).Holds (l ++ [e]) := by
  rw [h.length_eq] at hlt
  have hpush := Stored.push h hlt e
  rw [← SizeT.toNat_succ (by omega)] at hpush
  exact hpush

/-- The count of a ring with an oldest entry, and what is left of it by one less. -/
theorem Holds.pred_size (h : r.Holds (e :: l)) : (r.size - 1).toNat = l.length := by
  have hlen : l.length + 1 = r.size.toNat := h.length_eq
  rw [SizeT.toNat_pred (by omega)]
  omega

theorem Holds.stored_cons (h : r.Holds (e :: l)) :
    Stored r.slots r.read r.write (l.length + 1) (e :: l) := by
  have hlen : l.length + 1 = r.size.toNat := h.length_eq
  rw [hlen]
  exact h

/-- Moving the read position drops the oldest entry. -/
theorem Holds.drop (h : r.Holds (e :: l)) : r.drop.Holds l := by
  have hpop := h.stored_cons.pop
  rw [← h.pred_size] at hpop
  exact hpop

/-- The slot of the entry to be dropped may be changed. -/
theorem Holds.modifyFront_drop (h : r.Holds (e :: l)) (f : α → α) :
    (r.modifyFront f).drop.Holds l := by
  have hpop := h.stored_cons.pop_clear (f (r.slots r.read))
  rw [← h.pred_size] at hpop
  exact hpop

theorem holds_reset : r.reset.Holds [] := Stored.nil _ _

end EntryRing

/-! ## The code of the four containers -/

/-- `commit_queue`: `write` is its `head_` and `read` its `tail_`. -/
abbrev CommitQueue : Type := EntryRing Commit maxCommitPerTransaction

namespace CommitQueue

def init : CommitQueue := EntryRing.init Commit.empty

variable (q : CommitQueue)

/-- Not checked for emptiness. -/
def get : Commit := q.front

def send (entry : Commit) : QueueError × CommitQueue :=
  if q.full then (.full, q) else (.none, q.put entry)

def pop : CommitQueue := q.drop
def clear : CommitQueue := q.reset

end CommitQueue

/-- `job_channel`: `read` is its `head_` and `write` its `tail_`. -/
abbrev JobChannel : Type := EntryRing Job maxItemPerChannel

namespace JobChannel

def init : JobChannel := EntryRing.init Job.empty

variable (q : JobChannel)

def get : Except QueueError Job := if !q.empty then .ok q.front else .error .empty

def send (job : Job) : QueueError × JobChannel :=
  if q.full then (.full, q) else (.none, q.put job)

/-- Destroys the job in place; not checked for emptiness. -/
def pop : JobChannel := (q.modifyFront Job.destroy).drop
def clear : JobChannel := q.reset

end JobChannel

/-- `ret_channel`: `read` is its `head_` and `write` its `tail_`. -/
abbrev RetChannel : Type := EntryRing Ret maxItemPerChannel

namespace RetChannel

def init : RetChannel := EntryRing.init Ret.empty

variable (q : RetChannel)

/-- The count is compared for equality here. -/
def full : Bool := q.size == UInt64.ofNat maxItemPerChannel

def get : Except QueueError Ret := if !q.empty then .ok q.front else .error .empty

/-- Not checked for room. -/
def send (ret : Ret) : QueueError × RetChannel := (.none, q.put ret)

def pop : RetChannel := q.drop
def clear : RetChannel := q.reset

end RetChannel

/-- `rollback_stack` -/
structure RollbackStack where
  rollbacks : Fin maxCommitPerTransaction → Rollback
  size : SizeT

namespace RollbackStack

def init : RollbackStack := ⟨fun _ => Rollback.empty, 0⟩

/-- The slot with an index; the code has none that is out of range. -/
def index (i : SizeT) : Fin maxCommitPerTransaction := Fin.ofNat maxCommitPerTransaction i.toNat

variable (s : RollbackStack)

def empty : Bool := s.size == 0
def full : Bool := decide (UInt64.ofNat maxCommitPerTransaction ≤ s.size)

def push (entry : Rollback) : QueueError × RollbackStack :=
  if s.full then (.full, s)
  else
    (.none,
      { s with rollbacks := Slots.set s.rollbacks (index s.size) entry, size := s.size + 1 })

def top : Except QueueError Rollback :=
  if s.empty then .error .empty else .ok (s.rollbacks (index (s.size - 1)))

def pop : RollbackStack := if s.empty then s else { s with size := s.size - 1 }
def clear : RollbackStack := { s with size := 0 }

/-- The array with the positions of a ring that begins at the first slot. -/
def ring : EntryRing Rollback maxCommitPerTransaction := ⟨s.rollbacks, 0, index s.size, s.size⟩

end RollbackStack

/-! ## What the handles lead to

With the bytes of the pool at hand, the queue of handles is the queue of a worker. -/

section Deref

variable (bytes : Fin bufferRows → Buf)

def Commit.deref (e : Commit) : PawnDB.Commit := ⟨e.key, e.op, e.buffer.map bytes⟩

namespace CommitQueue

def deref (q : CommitQueue) : PawnDB.CommitQueue :=
  ⟨fun i => (q.slots i).deref bytes, q.write, q.read, q.size⟩

theorem deref_init : init.deref bytes = .init := rfl

theorem deref_get (q : CommitQueue) : (q.deref bytes).get = q.get.deref bytes := rfl

theorem deref_pop (q : CommitQueue) : q.pop.deref bytes = (q.deref bytes).pop := rfl

theorem deref_send (q : CommitQueue) (e : Commit) :
    (q.deref bytes).send (e.deref bytes) = ((q.send e).1, (q.send e).2.deref bytes) := by
  have hslots : (fun i => (Slots.set q.slots q.write e i).deref bytes)
      = Slots.set (fun i => (q.slots i).deref bytes) q.write (e.deref bytes) := by
    funext i
    by_cases hi : i = q.write
    · rw [hi, Slots.set_self, Slots.set_self]
    · rw [Slots.set_of_ne _ _ hi, Slots.set_of_ne _ _ hi]
  have hfull : (q.deref bytes).full = q.full := rfl
  rw [PawnDB.CommitQueue.send, send, hfull]
  by_cases hf : q.full = true
  · rw [if_pos hf, if_pos hf]
  · rw [if_neg hf, if_neg hf]
    exact congrArg (fun slots => (QueueError.none, PawnDB.CommitQueue.mk slots _ _ _)) hslots.symm

end CommitQueue

end Deref

/-! ## Runs of operations -/

/-- What is done to a container; a stack calls `send` `push` and `get` `top`. -/
inductive ContainerOp (α : Type)
  | send (e : α)
  | get
  | pop
  | clear
  deriving DecidableEq

/-- What the container answered. -/
inductive ContainerEvent (α : Type)
  | sent (err : QueueError)
  | got (r : Except QueueError α)

/-- The operations of a container with its states in `σ`, and which of them its callers may do. -/
structure Container (α σ : Type) where
  init : σ
  send : σ → α → QueueError × σ
  get : σ → Except QueueError α
  pop : σ → σ
  clear : σ → σ
  size : σ → SizeT
  empty : σ → Bool
  full : σ → Bool
  admits : σ → ContainerOp α → Bool

namespace Container

variable {α σ : Type} (C : Container α σ)

def apply (s : σ) : ContainerOp α → σ × List (ContainerEvent α)
  | .send e => ((C.send s e).2, [.sent (C.send s e).1])
  | .get => (s, [.got (C.get s)])
  | .pop => (C.pop s, [])
  | .clear => (C.clear s, [])

/-- A container as a machine. -/
def machine : Machine σ (ContainerOp α) (ContainerEvent α) :=
  ⟨fun s op => if C.admits s op then some (C.apply s op) else none⟩

theorem machine_step {s t : σ} {op : ContainerOp α} {out : List (ContainerEvent α)}
    (h : C.machine.step s op = some (t, out)) :
    C.admits s op = true ∧ C.apply s op = (t, out) := by
  simp only [machine] at h
  split at h
  next ha => exact ⟨ha, Option.some.inj h⟩
  next => cases h

end Container

/-- A pop needs an entry. -/
def popsEntries {α : Type} (empty : Bool) : ContainerOp α → Bool
  | .pop => !empty
  | _ => true

/-- A pop needs an entry, and a send needs room. -/
def popsAndSends {α : Type} (empty full : Bool) : ContainerOp α → Bool
  | .pop => !empty
  | .send _ => !full
  | _ => true

def CommitQueue.code : Container Commit CommitQueue where
  init := CommitQueue.init
  send := CommitQueue.send
  get q := .ok q.get
  pop := CommitQueue.pop
  clear := CommitQueue.clear
  size := EntryRing.size
  empty := EntryRing.empty
  full := EntryRing.full
  admits q := popsEntries q.empty

def JobChannel.code : Container Job JobChannel where
  init := JobChannel.init
  send := JobChannel.send
  get := JobChannel.get
  pop := JobChannel.pop
  clear := JobChannel.clear
  size := EntryRing.size
  empty := EntryRing.empty
  full := EntryRing.full
  admits q := popsEntries q.empty

def RetChannel.code : Container Ret RetChannel where
  init := RetChannel.init
  send := RetChannel.send
  get := RetChannel.get
  pop := RetChannel.pop
  clear := RetChannel.clear
  size := EntryRing.size
  empty := EntryRing.empty
  full := RetChannel.full
  admits q := popsAndSends q.empty q.full

def RollbackStack.code : Container Rollback RollbackStack where
  init := RollbackStack.init
  send := RollbackStack.push
  get := RollbackStack.top
  pop := RollbackStack.pop
  clear := RollbackStack.clear
  size := RollbackStack.size
  empty := RollbackStack.empty
  full := RollbackStack.full
  admits _ _ := true

/-! ## Bounded lists

What the containers are for: a list of at most `n` entries. The first of the list is the one to be
read and popped next; a queue adds at the other end, a stack at the same one. -/

/-- One operation on a list of at most `n` entries. -/
def listStep {α : Type} (n : Nat) (add : List α → α → List α) (l : List α) :
    ContainerOp α → List α
  | .send e => if l.length < n then add l e else l
  | .get => l
  | .pop => l.tail
  | .clear => []

/-- The list after some operations, in a queue of at most `n` entries. -/
def fifo {α : Type} (n : Nat) (ops : List (ContainerOp α)) : List α :=
  ops.foldl (listStep n fun l e => l ++ [e]) []

/-- The list after some operations, in a stack of at most `n` entries. -/
def lifo {α : Type} (n : Nat) (ops : List (ContainerOp α)) : List α :=
  ops.foldl (listStep n fun l e => e :: l) []

/-- The container answers as the list `l` of at most `n` entries would. -/
structure Container.Shows {α σ : Type} (C : Container α σ) (n : Nat) (s : σ) (l : List α) :
    Prop where
  length_le : l.length ≤ n
  send_full : l.length = n → ∀ e, C.send s e = (.full, s)
  send_room : l.length < n → ∀ e, (C.send s e).1 = .none
  get : ∀ e rest, l = e :: rest → C.get s = .ok e
  size : (C.size s).toNat = l.length
  empty : C.empty s = true ↔ l = []
  full : C.full s = true ↔ l.length = n

/-- `Holds s l` says that the state `s` has the list `l`; the operations that are admitted do to the
state what they do to the list. -/
structure Container.Refines {α σ : Type} (C : Container α σ) (n : Nat)
    (add : List α → α → List α) (Holds : σ → List α → Prop) : Prop where
  init : Holds C.init []
  step : ∀ s l op, Holds s l → C.admits s op = true →
    Holds (C.apply s op).1 (listStep n add l op)

/-- **Runs.** The state has the list that the operations of the run lead to. -/
theorem Container.Refines.run {α σ : Type} {C : Container α σ} {n : Nat}
    {add : List α → α → List α} {Holds : σ → List α → Prop} (hC : C.Refines n add Holds)
    {t : σ} {h : List (Entry σ (ContainerOp α) (ContainerEvent α))}
    (hr : C.machine.Run C.init h t) :
    Holds t ((h.map Entry.act).foldl (listStep n add) []) := by
  refine hr.invariant (P := fun h t => Holds t ((h.map Entry.act).foldl (listStep n add) []))
    hC.init ?_
  intro k u op out v _ hu hs
  obtain ⟨ha, he⟩ := C.machine_step hs
  have hv := hC.step u _ op hu ha
  rw [he] at hv
  rw [List.map_append, List.foldl_append]
  exact hv

/-! ## Queues -/

theorem listStep_send_of_room {α : Type} {n : Nat} {add : List α → α → List α} {l : List α} {e : α}
    (h : l.length < n) : listStep n add l (.send e) = add l e := if_pos h

theorem listStep_send_of_full {α : Type} {n : Nat} {add : List α → α → List α} {l : List α} {e : α}
    (h : l.length = n) : listStep n add l (.send e) = l := if_neg (by omega)

/-- A ring that is not empty has an oldest entry. -/
theorem EntryRing.Holds.exists_cons {α : Type} {n : Nat} [NeZero n] {r : EntryRing α n}
    {l : List α} (h : r.Holds l) (hne : (!r.empty) = true) : ∃ e rest, l = e :: rest := by
  apply List.exists_cons_of_ne_nil
  intro hnil
  rw [h.empty_iff.mpr hnil] at hne
  cases hne

/-- A send that checks for room. -/
theorem EntryRing.Holds.checked_send {α : Type} {n : Nat} [NeZero n] {r : EntryRing α n}
    {l : List α} (h : r.Holds l) (hn : n ≤ 1000) (e : α) :
    (if r.full then (QueueError.full, r) else (.none, r.put e)).2.Holds
      (listStep n (fun l e => l ++ [e]) l (.send e)) := by
  by_cases hlt : l.length < n
  · have hfull : ¬ r.full = true := by
      rw [h.full_iff hn]
      omega
    rw [if_neg hfull, listStep_send_of_room hlt]
    exact h.put hlt hn e
  · have hle := h.length_le
    have hlen : l.length = n := by omega
    rw [if_pos ((h.full_iff hn).mpr hlen), listStep_send_of_full hlen]
    exact h

theorem CommitQueue.refines :
    code.Refines maxCommitPerTransaction (fun l e => l ++ [e]) EntryRing.Holds where
  init := EntryRing.holds_init
  step q l op h ha := by
    cases op with
    | send e => exact h.checked_send (by decide) e
    | get => exact h
    | pop =>
        obtain ⟨e, rest, rfl⟩ := h.exists_cons ha
        exact h.drop
    | clear => exact EntryRing.holds_reset

theorem JobChannel.refines :
    code.Refines maxItemPerChannel (fun l e => l ++ [e]) EntryRing.Holds where
  init := EntryRing.holds_init
  step q l op h ha := by
    cases op with
    | send e => exact h.checked_send (by decide) e
    | get => exact h
    | pop =>
        obtain ⟨e, rest, rfl⟩ := h.exists_cons ha
        exact h.modifyFront_drop Job.destroy
    | clear => exact EntryRing.holds_reset

theorem RetChannel.full_iff {q : RetChannel} {l : List Ret} (h : EntryRing.Holds q l) :
    RetChannel.full q = true ↔ l.length = maxItemPerChannel := by
  rw [RetChannel.full, beq_iff_eq, ← UInt64.toNat_inj, h.length_eq]
  rfl

/-- The callers have made sure that there is room. -/
theorem RetChannel.room_of_admits {q : RetChannel} {l : List Ret} {e : Ret}
    (h : EntryRing.Holds q l) (ha : code.admits q (.send e) = true) :
    l.length < maxItemPerChannel := by
  have hne : ¬ l.length = maxItemPerChannel := by
    intro hlen
    change (!RetChannel.full q) = true at ha
    rw [(RetChannel.full_iff h).mpr hlen] at ha
    cases ha
  have hle := h.length_le
  omega

theorem RetChannel.refines :
    code.Refines maxItemPerChannel (fun l e => l ++ [e]) EntryRing.Holds where
  init := EntryRing.holds_init
  step q l op h ha := by
    cases op with
    | send e =>
        have hlt := RetChannel.room_of_admits h ha
        rw [listStep_send_of_room hlt]
        exact h.put hlt (by decide) e
    | get => exact h
    | pop =>
        obtain ⟨e, rest, rfl⟩ := h.exists_cons ha
        exact h.drop
    | clear => exact EntryRing.holds_reset

/-- A queue that checks for room and reads the entry at the read position shows its list. -/
theorem CommitQueue.shows {q : CommitQueue} {l : List Commit} (h : EntryRing.Holds q l) :
    code.Shows maxCommitPerTransaction q l where
  length_le := h.length_le
  send_full hlen e := if_pos ((h.full_iff (by decide)).mpr hlen)
  send_room hlt e := by
    have hfull : ¬ q.full = true := by
      rw [h.full_iff (by decide)]
      omega
    change (CommitQueue.send q e).1 = .none
    rw [CommitQueue.send, if_neg hfull]
  get e rest he := by
    subst he
    exact congrArg Except.ok h.front_eq
  size := h.length_eq.symm
  empty := h.empty_iff
  full := h.full_iff (by decide)

theorem JobChannel.shows {q : JobChannel} {l : List Job} (h : EntryRing.Holds q l) :
    code.Shows maxItemPerChannel q l where
  length_le := h.length_le
  send_full hlen e := if_pos ((h.full_iff (by decide)).mpr hlen)
  send_room hlt e := by
    have hfull : ¬ q.full = true := by
      rw [h.full_iff (by decide)]
      omega
    change (JobChannel.send q e).1 = .none
    rw [JobChannel.send, if_neg hfull]
  get e rest he := by
    subst he
    have hne : (!q.empty) = true := by
      rw [Bool.not_eq_true', ← Bool.not_eq_true, h.empty_iff]
      exact List.cons_ne_nil e rest
    change (if !q.empty then Except.ok q.front else .error QueueError.empty) = .ok e
    rw [if_pos hne, h.front_eq]
  size := h.length_eq.symm
  empty := h.empty_iff
  full := h.full_iff (by decide)

/-! ## The stack

Its array is a ring that never begins anywhere but at the first slot, with the newest entry
last. -/

namespace RollbackStack

/-- The stack has these entries, newest first. -/
def Holds (s : RollbackStack) (l : List Rollback) : Prop := s.ring.Holds l.reverse

variable {s : RollbackStack} {l : List Rollback} {e : Rollback}

theorem index_eq_walk (i : SizeT) : index i = walk 0 i.toNat := by
  apply Fin.ext
  rw [walk_val]
  simp [index]

theorem Holds.length_eq (h : s.Holds l) : l.length = s.size.toNat := by
  rw [← List.length_reverse]
  exact EntryRing.Holds.length_eq h

theorem Holds.length_le (h : s.Holds l) : l.length ≤ maxCommitPerTransaction := by
  rw [← List.length_reverse]
  exact EntryRing.Holds.length_le h

theorem Holds.empty_iff (h : s.Holds l) : s.empty = true ↔ l = [] := by
  rw [← List.reverse_eq_nil_iff]
  exact EntryRing.Holds.empty_iff h

theorem Holds.full_iff (h : s.Holds l) :
    s.full = true ↔ l.length = maxCommitPerTransaction := by
  rw [← List.length_reverse]
  exact EntryRing.Holds.full_iff h (by decide)

theorem Holds.not_empty (h : s.Holds (e :: l)) : ¬ s.empty = true := by
  rw [h.empty_iff]
  exact List.cons_ne_nil e l

/-- A push where there is room. -/
theorem Holds.push (h : s.Holds l) (hlt : l.length < maxCommitPerTransaction) (e : Rollback) :
    (s.push e).2.Holds (e :: l) := by
  have hfull : ¬ s.full = true := by
    rw [h.full_iff]
    omega
  have hsize : (s.size + 1).toNat = s.size.toNat + 1 :=
    SizeT.toNat_succ (by rw [← h.length_eq]; exact Nat.lt_trans hlt (by decide))
  -- the slot after the new entry is the write position of the ring
  have hindex : index (s.size + 1) = index s.size + 1 := by
    rw [index_eq_walk, index_eq_walk, hsize, walk_add_one]
  have hput := EntryRing.Holds.put h (by rwa [List.length_reverse]) (by decide) e
  rw [RollbackStack.push, if_neg hfull, Holds, List.reverse_cons, ring, hindex]
  exact hput

/-- The array of a stack with a newest entry, which is the last one of the window. -/
theorem Holds.window_cons (h : s.Holds (e :: l)) :
    window s.rollbacks 0 l.length = l.reverse ∧ s.rollbacks (walk 0 l.length) = e := by
  have hlen : l.length + 1 = s.size.toNat := h.length_eq
  have hw : window s.rollbacks 0 s.size.toNat = (e :: l).reverse := h.window
  rw [← hlen, window_succ_last, List.reverse_cons] at hw
  have hlast := List.append_inj hw (by simp)
  exact ⟨hlast.1, List.singleton_inj.mp hlast.2⟩

theorem Holds.pred_size (h : s.Holds (e :: l)) : (s.size - 1).toNat = l.length := by
  have hlen : l.length + 1 = s.size.toNat := h.length_eq
  rw [SizeT.toNat_pred (by omega)]
  omega

theorem Holds.top (h : s.Holds (e :: l)) : s.top = .ok e := by
  rw [RollbackStack.top, if_neg h.not_empty, index_eq_walk, h.pred_size, h.window_cons.2]

theorem Holds.top_nil (h : s.Holds []) : s.top = .error .empty := by
  rw [RollbackStack.top, if_pos (h.empty_iff.mpr rfl)]

theorem Holds.pop (h : s.Holds (e :: l)) : s.pop.Holds l := by
  have hle : l.length + 1 ≤ maxCommitPerTransaction := h.length_le
  rw [RollbackStack.pop, if_neg h.not_empty]
  refine ⟨?_, index_eq_walk _, ?_⟩
  · change window s.rollbacks 0 (s.size - 1).toNat = l.reverse
    rw [h.pred_size]
    exact h.window_cons.1
  · change (s.size - 1).toNat ≤ maxCommitPerTransaction
    rw [h.pred_size]
    omega

theorem Holds.pop_nil (h : s.Holds []) : s.pop = s := by
  rw [RollbackStack.pop, if_pos (h.empty_iff.mpr rfl)]

theorem holds_clear : s.clear.Holds [] := EntryRing.holds_reset (r := s.ring)

theorem refines : code.Refines maxCommitPerTransaction (fun l e => e :: l) Holds where
  init := EntryRing.holds_init
  step s l op h ha := by
    cases op with
    | send e =>
        by_cases hlt : l.length < maxCommitPerTransaction
        · rw [listStep_send_of_room hlt]
          exact h.push hlt e
        · have hle := h.length_le
          have hlen : l.length = maxCommitPerTransaction := by omega
          have hfull : s.push e = (.full, s) := if_pos (h.full_iff.mpr hlen)
          rw [listStep_send_of_full hlen]
          change (s.push e).2.Holds l
          rw [hfull]
          exact h
    | get => exact h
    | pop =>
        cases l with
        | nil =>
            change s.pop.Holds []
            rw [h.pop_nil]
            exact h
        | cons e rest => exact h.pop
    | clear => exact holds_clear

theorem shows (h : s.Holds l) : code.Shows maxCommitPerTransaction s l where
  length_le := h.length_le
  send_full hlen e := if_pos (h.full_iff.mpr hlen)
  send_room hlt e := by
    have hfull : ¬ s.full = true := by
      rw [h.full_iff]
      omega
    change (s.push e).1 = .none
    rw [RollbackStack.push, if_neg hfull]
  get e rest he := by
    subst he
    exact h.top
  size := h.length_eq.symm
  empty := h.empty_iff
  full := h.full_iff

end RollbackStack

/-! ## Every run shows a list -/

/-- **The queues are bounded first-in first-out lists and the stack a bounded last-in first-out
one**, after any sequence of operations. The stack says that it is empty, and a pop of it then
changes nothing. -/
theorem shows_of_run :
    (∀ h q, CommitQueue.code.machine.Run CommitQueue.init h q →
      CommitQueue.code.Shows maxCommitPerTransaction q
        (fifo maxCommitPerTransaction (h.map Entry.act))) ∧
    (∀ h q, JobChannel.code.machine.Run JobChannel.init h q →
      JobChannel.code.Shows maxItemPerChannel q (fifo maxItemPerChannel (h.map Entry.act))) ∧
    ∀ h s, RollbackStack.code.machine.Run RollbackStack.init h s →
      RollbackStack.code.Shows maxCommitPerTransaction s
        (lifo maxCommitPerTransaction (h.map Entry.act)) ∧
      (lifo maxCommitPerTransaction (h.map Entry.act) = [] →
        s.top = .error .empty ∧ s.pop = s) := by
  refine ⟨?_, ?_, ?_⟩
  · intro h q hr
    exact CommitQueue.shows (CommitQueue.refines.run hr)
  · intro h q hr
    exact JobChannel.shows (JobChannel.refines.run hr)
  · intro h s hr
    have hs : s.Holds (lifo maxCommitPerTransaction (h.map Entry.act)) :=
      RollbackStack.refines.run hr
    refine ⟨RollbackStack.shows hs, ?_⟩
    intro hnil
    rw [hnil] at hs
    exact ⟨hs.top_nil, hs.pop_nil⟩

/-- Two entries are queued and one is popped; two are pushed and one is popped. -/
theorem shows_of_run_sample :
    (∃ q, CommitQueue.code.Shows maxCommitPerTransaction q [⟨⟨0, 2⟩, .delete, none⟩]) ∧
    (∃ q, JobChannel.code.Shows maxItemPerChannel q [⟨some 2, 9, []⟩]) ∧
    ∃ s, RollbackStack.code.Shows maxCommitPerTransaction s [⟨⟨0, 1⟩, .addTuple, some 1⟩] := by
  have hc : (CommitQueue.code.machine.exec CommitQueue.init
      [.send ⟨⟨0, 1⟩, .addTuple, some 1⟩, .send ⟨⟨0, 2⟩, .delete, none⟩, .pop]).isSome = true := by
    decide
  have hj : (JobChannel.code.machine.exec JobChannel.init
      [.send ⟨some 1, 8, []⟩, .send ⟨some 2, 9, []⟩, .pop]).isSome = true := by decide
  have hs : (RollbackStack.code.machine.exec RollbackStack.init
      [.send ⟨⟨0, 1⟩, .addTuple, some 1⟩, .send ⟨⟨0, 2⟩, .delete, none⟩, .pop]).isSome = true := by
    decide
  obtain ⟨rc, hrc⟩ := Option.isSome_iff_exists.mp hc
  obtain ⟨rj, hrj⟩ := Option.isSome_iff_exists.mp hj
  obtain ⟨rs, hrs⟩ := Option.isSome_iff_exists.mp hs
  refine ⟨⟨rc.2, ?_⟩, ⟨rj.2, ?_⟩, ⟨rs.2, ?_⟩⟩
  · have := shows_of_run.1 rc.1 rc.2 (Machine.run_of_exec hrc)
    rwa [Machine.acts_of_exec hrc] at this
  · have := shows_of_run.2.1 rj.1 rj.2 (Machine.run_of_exec hrj)
    rwa [Machine.acts_of_exec hrj] at this
  · have := (shows_of_run.2.2 rs.1 rs.2 (Machine.run_of_exec hrs)).1
    rwa [Machine.acts_of_exec hrs] at this

end PawnDB.Pooled
