import PawnDB.Pool.Containers

set_option autoImplicit false

/-! # What the containers pin

The array of a container keeps in use every buffer that one of its sixteen entries refers to. It
should be the buffers of its contents and no more, but `pop` and `clear` move positions and leave
the entries where they are. Only `job_channel::pop` destroys what it drops.

Each operation says when it leaves no handle behind (`clean_put`, `clean_drop` and so on), and
`pins_iff` says it of whole runs.
-/

namespace PawnDB.Pooled

open Ring Probing

namespace EntryRing

variable {α : Type} {n : Nat} [NeZero n] (buffer : α → BufRef)

/-- Every slot outside the contents has a null handle. -/
def Clean (r : EntryRing α n) : Prop :=
  ∀ i, ¬ Inside r.read r.size.toNat i → buffer (r.slots i) = none

/-- What the array adds to the reference count of a buffer. -/
def pinned (r : EntryRing α n) (b : Fin bufferRows) : Nat :=
  Slots.count fun i => decide (buffer (r.slots i) = some b)

/-- The array refers to the buffers of the contents and to no others. -/
structure Pins (r : EntryRing α n) : Prop where
  clean : r.Clean buffer
  count : ∀ b, r.pinned buffer b = r.contents.countP fun e => decide (buffer e = some b)

variable {buffer} {r : EntryRing α n} {l : List α} {e : α}

/-- The counts follow from the handles outside. -/
theorem Holds.pins_iff_clean (h : r.Holds l) : r.Pins buffer ↔ r.Clean buffer := by
  refine ⟨Pins.clean, fun hc => ⟨hc, fun b => ?_⟩⟩
  rw [contents, ← count_window _ (Stored.room h)]
  apply Slots.count_congr
  intro i
  by_cases hi : Inside r.read r.size.toNat i
  · rw [decide_eq_true hi, Bool.true_and]
  · rw [decide_eq_false hi, Bool.false_and, hc i hi]
    rfl

/-- An empty container that pins its contents keeps no buffer in use. -/
theorem Pins.pinned_eq_zero (h : r.Pins buffer) (hnil : r.contents = []) (b : Fin bufferRows) :
    r.pinned buffer b = 0 := by
  rw [h.count, hnil, List.countP_nil]

theorem clean_init (he : buffer e = none) : (init e : EntryRing α n).Clean buffer :=
  fun _ _ => he

/-- A slot that is written becomes one of the contents. -/
theorem clean_put (h : r.Holds l) (hc : r.Clean buffer) (hlt : l.length < n) (hn : n ≤ 1000)
    (e : α) : (r.put e).Clean buffer := by
  intro i hi
  have hsize : (r.size + 1).toNat = r.size.toNat + 1 :=
    SizeT.toNat_succ (by rw [← h.length_eq]; omega)
  change ¬ Inside r.read (r.size + 1).toNat i at hi
  rw [hsize, inside_succ_last, not_or] at hi
  have hne : i ≠ r.write := by
    rw [Stored.stop h]
    exact hi.2
  change buffer (Slots.set r.slots r.write e i) = none
  rw [Slots.set_of_ne _ _ hne]
  exact hc i hi.1

/-- The slots outside, once the oldest entry is dropped: those outside before and its own. -/
theorem outside_drop (h : r.Holds (e :: l)) (i : Fin n) :
    ¬ Inside r.drop.read r.drop.size.toNat i ↔
      i = r.read ∨ ¬ Inside r.read r.size.toNat i := by
  have hle : l.length + 1 ≤ n := h.length_le
  have hlen : l.length + 1 = r.size.toNat := h.length_eq
  change ¬ Inside (r.read + 1) (r.size - 1).toNat i ↔ _
  rw [h.pred_size, ← hlen, inside_succ, not_or]
  by_cases hi : i = r.read
  · subst hi
    simp [not_inside_dropped hle]
  · simp [hi]

/-- An entry that is dropped leaves its handle behind. -/
theorem clean_drop (h : r.Holds (e :: l)) (hc : r.Clean buffer) :
    r.drop.Clean buffer ↔ buffer e = none := by
  constructor
  · intro hd
    rw [← h.front_eq]
    exact hd r.read ((outside_drop h r.read).mpr (Or.inl rfl))
  · intro he i hi
    rcases (outside_drop h i).mp hi with rfl | hi
    · change buffer r.front = none
      rw [h.front_eq, he]
    · exact hc i hi

/-- An entry that is destroyed before it is dropped leaves none. -/
theorem clean_modifyFront_drop (h : r.Holds (e :: l)) (hc : r.Clean buffer) {f : α → α}
    (hf : ∀ x, buffer (f x) = none) : (r.modifyFront f).drop.Clean buffer := by
  intro i hi
  change buffer (Slots.set r.slots r.read (f (r.slots r.read)) i) = none
  by_cases hread : i = r.read
  · rw [hread, Slots.set_self, hf]
  · rw [Slots.set_of_ne _ _ hread]
    rcases (outside_drop h i).mp hi with hi | hi
    · exact absurd hi hread
    · exact hc i hi

/-- A reset leaves the handles of all the contents behind. -/
theorem clean_reset (h : r.Holds l) (hc : r.Clean buffer) :
    r.reset.Clean buffer ↔ ∀ e ∈ l, buffer e = none := by
  rw [← h.contents_eq]
  constructor
  · intro hr e he
    obtain ⟨i, _, rfl⟩ := mem_window.mp he
    exact hr i not_inside_zero
  · intro hall i _
    by_cases hi : Inside r.read r.size.toNat i
    · exact hall _ (mem_window.mpr ⟨i, hi, rfl⟩)
    · exact hc i hi

end EntryRing

namespace RollbackStack

variable {s : RollbackStack} {l : List Rollback} {e : Rollback}

/-- The entries on the stack, newest first. -/
def contents (s : RollbackStack) : List Rollback := s.ring.contents.reverse

theorem Holds.contents_eq (h : s.Holds l) : s.contents = l := by
  rw [contents, EntryRing.Holds.contents_eq h, List.reverse_reverse]

theorem clean_push (h : s.Holds l) (hc : s.ring.Clean Rollback.buffer)
    (hlt : l.length < maxCommitPerTransaction) (e : Rollback) :
    (s.push e).2.ring.Clean Rollback.buffer := by
  have hfull : ¬ s.full = true := by
    rw [h.full_iff]
    omega
  rw [push, if_neg hfull]
  exact EntryRing.clean_put h hc (by rwa [List.length_reverse]) (by decide) e

/-- The newest entry leaves its handle behind when it is popped. -/
theorem clean_pop (h : s.Holds (e :: l)) (hc : s.ring.Clean Rollback.buffer) :
    s.pop.ring.Clean Rollback.buffer ↔ e.buffer = none := by
  have hle : l.length + 1 ≤ maxCommitPerTransaction := h.length_le
  have hlen : l.length + 1 = s.size.toNat := h.length_eq
  -- the slots outside are those outside before and the one of the newest entry
  have hout : ∀ i, ¬ Inside s.pop.ring.read s.pop.ring.size.toNat i ↔
      i = walk 0 l.length ∨ ¬ Inside s.ring.read s.ring.size.toNat i := by
    intro i
    rw [pop, if_neg h.not_empty]
    change ¬ Inside 0 (s.size - 1).toNat i ↔ _ ∨ ¬ Inside 0 s.size.toNat i
    rw [h.pred_size, ← hlen, inside_succ_last, not_or]
    by_cases hi : i = walk 0 l.length
    · have hlast : ¬ Inside 0 l.length i := by
        rintro ⟨j, hj, hji⟩
        have := walk_injective_of_lt (by omega) (by omega) (hji.trans hi)
        omega
      simp [hi, hi ▸ hlast]
    · simp [hi]
  have hslots : s.pop.ring.slots = s.rollbacks := by
    rw [pop, if_neg h.not_empty]
    rfl
  have htop := h.window_cons.2
  constructor
  · intro hp
    have := hp _ ((hout _).mpr (Or.inl rfl))
    rwa [hslots, htop] at this
  · intro he i hi
    rw [hslots]
    rcases (hout i).mp hi with rfl | hi
    · rw [htop, he]
    · exact hc i hi

end RollbackStack

/-! ## Runs -/

section

variable {α : Type}

/-- The entries that an operation takes out of the contents without destroying them. -/
def dropped : ContainerOp α → List α → List α
  | .pop, l => l.take 1
  | .clear, l => l
  | _, _ => []

/-- The same where a pop destroys the entry. -/
def cleared : ContainerOp α → List α → List α
  | .clear, l => l
  | _, _ => []

end

/-! ### Steps -/

theorem EntryRing.clean_checked_send {α : Type} {n : Nat} [NeZero n] {buffer : α → BufRef}
    {r : EntryRing α n} {l : List α} (h : r.Holds l) (hc : r.Clean buffer) (hn : n ≤ 1000) (e : α) :
    (if r.full then (QueueError.full, r) else (.none, r.put e)).2.Clean buffer := by
  by_cases hf : r.full = true
  · rw [if_pos hf]
    exact hc
  · have hle := h.length_le
    have hne : ¬ l.length = n := by rwa [← h.full_iff hn]
    rw [if_neg hf]
    exact clean_put h hc (by omega) hn e

theorem CommitQueue.clean_step {q : CommitQueue} {l : List Commit} {op : ContainerOp Commit}
    (h : EntryRing.Holds q l) (hc : EntryRing.Clean Commit.buffer q)
    (ha : code.admits q op = true) :
    EntryRing.Clean Commit.buffer (code.apply q op).1 ↔ ∀ e ∈ dropped op l, e.buffer = none := by
  cases op with
  | send e =>
      have hsent := EntryRing.clean_checked_send h hc (by decide) e
      exact iff_of_true hsent (by simp [dropped])
  | get => exact iff_of_true hc (by simp [dropped])
  | pop =>
      obtain ⟨e, rest, rfl⟩ := h.exists_cons ha
      refine (EntryRing.clean_drop h hc).trans ?_
      simp [dropped]
  | clear => exact EntryRing.clean_reset h hc

/-- The pop of a `job_channel` releases what it drops. -/
theorem JobChannel.clean_step {q : JobChannel} {l : List Job} {op : ContainerOp Job}
    (h : EntryRing.Holds q l) (hc : EntryRing.Clean Job.buffer q)
    (ha : code.admits q op = true) :
    EntryRing.Clean Job.buffer (code.apply q op).1 ↔ ∀ e ∈ cleared op l, e.buffer = none := by
  cases op with
  | send e =>
      have hsent := EntryRing.clean_checked_send h hc (by decide) e
      exact iff_of_true hsent (by simp [cleared])
  | get => exact iff_of_true hc (by simp [cleared])
  | pop =>
      obtain ⟨e, rest, rfl⟩ := h.exists_cons ha
      have hpopped := EntryRing.clean_modifyFront_drop (f := Job.destroy) h hc fun _ => rfl
      exact iff_of_true hpopped (by simp [cleared])
  | clear => exact EntryRing.clean_reset h hc

theorem RetChannel.clean_step {q : RetChannel} {l : List Ret} {op : ContainerOp Ret}
    (h : EntryRing.Holds q l) (hc : EntryRing.Clean Ret.buffer q)
    (ha : code.admits q op = true) :
    EntryRing.Clean Ret.buffer (code.apply q op).1 ↔ ∀ e ∈ dropped op l, e.buffer = none := by
  cases op with
  | send e =>
      have hsent := EntryRing.clean_put h hc (RetChannel.room_of_admits h ha) (by decide) e
      exact iff_of_true hsent (by simp [dropped])
  | get => exact iff_of_true hc (by simp [dropped])
  | pop =>
      obtain ⟨e, rest, rfl⟩ := h.exists_cons ha
      refine (EntryRing.clean_drop h hc).trans ?_
      simp [dropped]
  | clear => exact EntryRing.clean_reset h hc

theorem RollbackStack.clean_step {s : RollbackStack} {l : List Rollback}
    {op : ContainerOp Rollback} (h : s.Holds l) (hc : s.ring.Clean Rollback.buffer) :
    (code.apply s op).1.ring.Clean Rollback.buffer ↔ ∀ e ∈ dropped op l, e.buffer = none := by
  cases op with
  | send e =>
      refine iff_of_true ?_ (by simp [dropped])
      -- a push on a full stack does nothing, and otherwise fills a slot that was clean
      change (s.push e).2.ring.Clean Rollback.buffer
      by_cases hf : s.full = true
      · rw [push, if_pos hf]
        exact hc
      · have hle := h.length_le
        have hne : ¬ l.length = maxCommitPerTransaction := by rwa [← h.full_iff]
        exact clean_push h hc (by omega) e
  | get => exact iff_of_true hc (by simp [dropped])
  | pop =>
      cases l with
      | nil =>
          change s.pop.ring.Clean Rollback.buffer ↔ _
          rw [h.pop_nil]
          exact iff_of_true hc (by simp [dropped])
      | cons e rest =>
          refine (clean_pop h hc).trans ?_
          simp [dropped]
  | clear =>
      refine (EntryRing.clean_reset h hc).trans ?_
      simp [dropped]

/-! ### Whole runs -/

/-- From steps to runs: a step leaves the slots outside clean exactly when the entries that it
leaves behind (`left`) have no handle. -/
theorem Container.Refines.pins_of_steps {α σ : Type} {n : Nat} [NeZero n] {C : Container α σ}
    {add : List α → α → List α} {Holds : σ → List α → Prop} {ring : σ → EntryRing α n}
    {contents : σ → List α} {buffer : α → BufRef} {left : ContainerOp α → List α → List α}
    (hC : C.Refines n add Holds) (hring : ∀ s l, Holds s l → ∃ l', (ring s).Holds l')
    (hcontents : ∀ s l, Holds s l → contents s = l) (hinit : (ring C.init).Clean buffer)
    (hstep : ∀ s l op, Holds s l → (ring s).Clean buffer → C.admits s op = true →
      ((ring (C.apply s op).1).Clean buffer ↔ ∀ e ∈ left op l, buffer e = none))
    {t : σ} {h : List (Entry σ (ContainerOp α) (ContainerEvent α))}
    (hr : C.machine.Run C.init h t) :
    (∀ e ∈ h, (ring e.post).Pins buffer) ↔
      ∀ e ∈ h, ∀ c ∈ left e.act (contents e.pre), buffer c = none := by
  have hpins : ∀ {s l}, Holds s l → ((ring s).Pins buffer ↔ (ring s).Clean buffer) := by
    intro s l hs
    obtain ⟨l', hl'⟩ := hring s l hs
    exact hl'.pins_iff_clean
  refine hr.always_iff (P := fun s => (ring s).Pins buffer) ((hpins hC.init).mpr hinit) ?_
  intro k u op out v hu hP hs
  have hl := hC.run hu
  have hl' := hC.run (hu.snoc hs)
  obtain ⟨ha, he⟩ := C.machine_step hs
  have hv := hstep u _ op hl ((hpins hl).mp hP) ha
  rw [he] at hv
  rw [hpins hl', hcontents u _ hl]
  exact hv

/-- **When the containers pin only the buffers they contain.** In every state of a run of a
`commit_queue`, a `ret_channel` or a `rollback_stack` this holds exactly when no entry with a
buffer is popped or cleared, and of a `job_channel` exactly when none is cleared. -/
theorem pins_iff (hc : List (Entry CommitQueue (ContainerOp Commit) (ContainerEvent Commit)))
    (c : CommitQueue) (hj : List (Entry JobChannel (ContainerOp Job) (ContainerEvent Job)))
    (j : JobChannel) (hr : List (Entry RetChannel (ContainerOp Ret) (ContainerEvent Ret)))
    (r : RetChannel)
    (hs : List (Entry RollbackStack (ContainerOp Rollback) (ContainerEvent Rollback)))
    (s : RollbackStack) :
    (CommitQueue.code.machine.Run CommitQueue.init hc c →
      ((∀ e ∈ hc, e.post.Pins Commit.buffer) ↔
        ∀ e ∈ hc, ∀ c ∈ dropped e.act e.pre.contents, c.buffer = none)) ∧
    (JobChannel.code.machine.Run JobChannel.init hj j →
      ((∀ e ∈ hj, e.post.Pins Job.buffer) ↔
        ∀ e ∈ hj, ∀ c ∈ cleared e.act e.pre.contents, c.buffer = none)) ∧
    (RetChannel.code.machine.Run RetChannel.init hr r →
      ((∀ e ∈ hr, e.post.Pins Ret.buffer) ↔
        ∀ e ∈ hr, ∀ c ∈ dropped e.act e.pre.contents, c.buffer = none)) ∧
    (RollbackStack.code.machine.Run RollbackStack.init hs s →
      ((∀ e ∈ hs, e.post.ring.Pins Rollback.buffer) ↔
        ∀ e ∈ hs, ∀ c ∈ dropped e.act e.pre.contents, c.buffer = none)) := by
  refine ⟨?_, ?_, ?_, ?_⟩
  · exact CommitQueue.refines.pins_of_steps (fun _ l hq => ⟨l, hq⟩)
      (fun _ _ hq => hq.contents_eq) (EntryRing.clean_init rfl)
      (fun _ _ _ => CommitQueue.clean_step)
  · exact JobChannel.refines.pins_of_steps (fun _ l hq => ⟨l, hq⟩)
      (fun _ _ hq => hq.contents_eq) (EntryRing.clean_init rfl)
      (fun _ _ _ => JobChannel.clean_step)
  · exact RetChannel.refines.pins_of_steps (fun _ l hq => ⟨l, hq⟩)
      (fun _ _ hq => hq.contents_eq) (EntryRing.clean_init rfl)
      (fun _ _ _ => RetChannel.clean_step)
  · exact RollbackStack.refines.pins_of_steps (fun _ l hs => ⟨l.reverse, hs⟩)
      (fun _ _ hs => hs.contents_eq) (EntryRing.clean_init rfl)
      (fun _ _ _ hs hc _ => RollbackStack.clean_step hs hc)

/-- A deletion is queued without a buffer, and pushed without one, and popped; a message is popped
from a job channel, and no reply from a channel for them. -/
theorem pins_iff_sample :
    (∃ h q, CommitQueue.code.machine.Run CommitQueue.init h q ∧
      h.map Entry.act = [.send ⟨⟨0, 1⟩, .delete, none⟩, .pop] ∧
      ∀ e ∈ h, EntryRing.Pins Commit.buffer e.post) ∧
    (∃ h q, JobChannel.code.machine.Run JobChannel.init h q ∧
      h.map Entry.act = [.send ⟨some 1, 9, []⟩, .pop] ∧
      ∀ e ∈ h, EntryRing.Pins Job.buffer e.post) ∧
    (∃ h q, RetChannel.code.machine.Run RetChannel.init h q ∧
      h.map Entry.act = [.send ⟨some 1, 8, []⟩] ∧ ∀ e ∈ h, EntryRing.Pins Ret.buffer e.post) ∧
    ∃ h s, RollbackStack.code.machine.Run RollbackStack.init h s ∧
      h.map Entry.act = [.send ⟨⟨0, 1⟩, .delete, none⟩, .pop] ∧
      ∀ e ∈ h, e.post.ring.Pins Rollback.buffer := by
  have crun : ∃ h c, CommitQueue.code.machine.Run CommitQueue.init h c ∧
      decide (h.map Entry.act = [.send ⟨⟨0, 1⟩, .delete, none⟩, .pop] ∧
        ∀ e ∈ h, ∀ c ∈ dropped e.act e.pre.contents, c.buffer = none) = true :=
    Machine.exists_run_of_exec (show (CommitQueue.code.machine.exec CommitQueue.init
      [.send ⟨⟨0, 1⟩, .delete, none⟩, .pop]).map _ = some true by decide +kernel)
  obtain ⟨hc, c, cr, cp⟩ := crun
  have cp := of_decide_eq_true cp
  have jrun : ∃ h j, JobChannel.code.machine.Run JobChannel.init h j ∧
      decide (h.map Entry.act = [.send ⟨some 1, 9, []⟩, .pop] ∧
        ∀ e ∈ h, ∀ c ∈ cleared e.act e.pre.contents, c.buffer = none) = true :=
    Machine.exists_run_of_exec (show (JobChannel.code.machine.exec JobChannel.init
      [.send ⟨some 1, 9, []⟩, .pop]).map _ = some true by decide +kernel)
  obtain ⟨hj, j, jr, jp⟩ := jrun
  have jp := of_decide_eq_true jp
  have rrun : ∃ h r, RetChannel.code.machine.Run RetChannel.init h r ∧
      decide (h.map Entry.act = [.send ⟨some 1, 8, []⟩] ∧
        ∀ e ∈ h, ∀ c ∈ dropped e.act e.pre.contents, c.buffer = none) = true :=
    Machine.exists_run_of_exec (show (RetChannel.code.machine.exec RetChannel.init
      [.send ⟨some 1, 8, []⟩]).map _ = some true by decide +kernel)
  obtain ⟨hr, r, rr, rp⟩ := rrun
  have rp := of_decide_eq_true rp
  have srun : ∃ h s, RollbackStack.code.machine.Run RollbackStack.init h s ∧
      decide (h.map Entry.act = [.send ⟨⟨0, 1⟩, .delete, none⟩, .pop] ∧
        ∀ e ∈ h, ∀ c ∈ dropped e.act e.pre.contents, c.buffer = none) = true :=
    Machine.exists_run_of_exec (show (RollbackStack.code.machine.exec RollbackStack.init
      [.send ⟨⟨0, 1⟩, .delete, none⟩, .pop]).map _ = some true by decide +kernel)
  obtain ⟨hs, s, sr, sp⟩ := srun
  have sp := of_decide_eq_true sp
  obtain ⟨hc', hj', hr', hs'⟩ := pins_iff hc c hj j hr r hs s
  exact ⟨⟨hc, c, cr, cp.1, (hc' cr).mpr cp.2⟩, ⟨hj, j, jr, jp.1, (hj' jr).mpr jp.2⟩,
    ⟨hr, r, rr, rp.1, (hr' rr).mpr rp.2⟩, ⟨hs, s, sr, sp.1, (hs' sr).mpr sp.2⟩⟩

/-- The queue is empty again and still has a handle on the first buffer. -/
theorem not_always_pins :
    ¬ ∀ h q, CommitQueue.code.machine.Run CommitQueue.init h q →
      ∀ e ∈ h, EntryRing.Pins Commit.buffer e.post := by
  intro hall
  have hrun : ∃ h q, CommitQueue.code.machine.Run CommitQueue.init h q ∧
      (h.any fun e => decide (EntryRing.contents e.post = [] ∧
        EntryRing.pinned Commit.buffer e.post 0 = 1)) = true :=
    Machine.exists_run_of_exec (show (CommitQueue.code.machine.exec CommitQueue.init
      [.send ⟨⟨0, 1⟩, .addTuple, some 0⟩, .pop]).map _ = some true by decide +kernel)
  obtain ⟨h, q, hr, hp⟩ := hrun
  obtain ⟨e, he, hp⟩ := List.any_eq_true.mp hp
  have hp := of_decide_eq_true hp
  have hzero := (hall h q hr e he).pinned_eq_zero hp.1 0
  rw [hp.2] at hzero
  cases hzero

end PawnDB.Pooled
