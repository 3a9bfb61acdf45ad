import PawnDB.Pool.BufTable
import PawnDB.Lib.Machine

set_option autoImplicit false

/-! # The handles of the buffer pool

`buf_ref` objects come and go: they are returned by `request`, copied, moved, assigned and
destroyed, each operation retaining and releasing slots of the pool. A state is the pool with
the objects that exist, under arbitrary names.

The count that must stay right is `handles`, the number of live objects on a slot. Each
operation is a composition of four moves (retain, release, `put`, `erase`), and each move says
what it does to the table or to `handles`; the invariant of a run is assembled from these.
-/

namespace PawnDB

/-- The pool and the `buf_ref` objects that exist. -/
structure Pool (H : Type) where
  table : BufTable
  live : Finset H
  ref : H → BufRef

/-- The operations on handles. -/
inductive RefOp (H : Type)
  | request (h : H)
  | construct (h : H)
  | copyConstruct (h src : H)
  | moveConstruct (h src : H)
  | copyAssign (h src : H)
  | moveAssign (h src : H)
  | destroy (h : H)
  deriving DecidableEq, Repr

/-- What a `request` answered. -/
inductive PoolEvent
  | requested (r : Except BufferError (Fin bufferRows))
  deriving DecidableEq

namespace BufTable

/-- `retain_ref` of the slot that `r` refers to, if any. -/
def retain (t : BufTable) : BufRef → BufTable
  | none => t
  | some i => t.retainRef i

/-- `release_ref` of the slot that `r` refers to, if any. -/
def release (t : BufTable) : BufRef → BufTable
  | none => t
  | some i => t.releaseRef i

end BufTable

namespace Pool

variable {H : Type} [DecidableEq H]

/-- An empty pool and no handles. -/
def init : Pool H := ⟨.init, ∅, fun _ => none⟩

variable (s : Pool H)

/-- The object `h` exists and refers to `r`. -/
def put (h : H) (r : BufRef) : Pool H :=
  { s with live := insert h s.live, ref := Slots.set s.ref h r }

/-- The object `h` is gone. -/
def erase (h : H) : Pool H := { s with live := s.live.erase h }

def retain (r : BufRef) : Pool H := { s with table := s.table.retain r }

def release (r : BufRef) : Pool H := { s with table := s.table.release r }

/-- One operation; `none` when its objects are not there, a new one is there already, or the
search of `request` does not end. -/
def step : RefOp H → Option (Pool H × List PoolEvent)
  | .request h =>
      if h ∈ s.live then none
      else
        match s.table.request with
        | none => none
        | some (.error e, t) => some ({ s with table := t }, [.requested (.error e)])
        | some (.ok i, t) => some (put { s with table := t } h (some i), [.requested (.ok i)])
  | .construct h => if h ∈ s.live then none else some (s.put h none, [])
  | .copyConstruct h src =>
      if h ∉ s.live ∧ src ∈ s.live then
        some ((s.put h (s.ref src)).retain (s.ref src), [])
      else none
  | .moveConstruct h src =>
      if h ∉ s.live ∧ src ∈ s.live then some ((s.put h (s.ref src)).put src none, [])
      else none
  | .copyAssign h src =>
      if h ∈ s.live ∧ src ∈ s.live then
        if h = src then some (s, [])
        else some (((s.retain (s.ref src)).release (s.ref h)).put h (s.ref src), [])
      else none
  | .moveAssign h src =>
      if h ∈ s.live ∧ src ∈ s.live then
        if h = src then some (s, [])
        else some (((s.release (s.ref h)).put h (s.ref src)).put src none, [])
      else none
  | .destroy h => if h ∈ s.live then some ((s.release (s.ref h)).erase h, []) else none

/-- The pool as a machine. -/
def machine : Machine (Pool H) (RefOp H) PoolEvent := ⟨step⟩

/-! ## Handles -/

/-- The number of objects that refer to slot `i`. -/
def handles (i : Fin bufferRows) : Nat := (s.live.filter fun h => s.ref h = some i).card

/-- What one reference adds to the count of slot `i`. -/
def adds (r : BufRef) (i : Fin bufferRows) : Nat := if r = some i then 1 else 0

variable {s} {c c' : Fin bufferRows → Nat}

theorem adds_none (i : Fin bufferRows) : adds none i = 0 := rfl

theorem adds_self (i : Fin bufferRows) : adds (some i) i = 1 := if_pos rfl

theorem adds_of_ne {i j : Fin bufferRows} (h : j ≠ i) : adds (some i) j = 0 :=
  if_neg fun he => h (Option.some.inj he).symm

/-- Leaving out one live object takes away what it adds. -/
theorem handles_erase {h : H} (hl : h ∈ s.live) (i : Fin bufferRows) :
    (s.erase h).handles i + adds (s.ref h) i = s.handles i := by
  change ((s.live.erase h).filter fun g => s.ref g = some i).card + _ = _
  rw [Finset.filter_erase, adds]
  by_cases he : s.ref h = some i
  · rw [if_pos he]
    exact Finset.card_erase_add_one (Finset.mem_filter.mpr ⟨hl, he⟩)
  · have hn : h ∉ s.live.filter fun g => s.ref g = some i :=
      fun hm => he (Finset.mem_filter.mp hm).2
    rw [if_neg he, Finset.erase_eq_of_notMem hn]
    rfl

/-- A new object adds what it refers to. -/
theorem handles_put_new {h : H} (hn : h ∉ s.live) (r : BufRef) (i : Fin bufferRows) :
    (s.put h r).handles i = s.handles i + adds r i := by
  have hl : h ∈ (s.put h r).live := Finset.mem_insert_self _ _
  have hr : (s.put h r).ref h = r := Slots.set_self _ _ _
  have he := handles_erase hl i
  rw [hr] at he
  -- without the new object, the objects and what they refer to are the old ones
  have hsame : ((s.put h r).erase h).handles i = s.handles i := by
    change (((insert h s.live).erase h).filter fun g => Slots.set s.ref h r g = some i).card = _
    rw [Finset.erase_insert hn]
    refine congrArg Finset.card (Finset.filter_congr fun g hg => ?_)
    have hgh : g ≠ h := fun he => hn (he ▸ hg)
    rw [Slots.set_of_ne _ _ hgh]
  omega

/-- A live object that now refers to `r` adds that in place of what it referred to. -/
theorem handles_put {h : H} (hl : h ∈ s.live) (r : BufRef) (i : Fin bufferRows) :
    (s.put h r).handles i + adds (s.ref h) i = s.handles i + adds r i := by
  have hn : h ∉ (s.erase h).live := Finset.notMem_erase _ _
  have hput : (s.erase h).put h r = s.put h r := by
    change Pool.mk s.table (insert h (s.live.erase h)) _ = _
    rw [Finset.insert_erase hl, put, Finset.insert_eq_self.mpr hl]
    rfl
  have h1 := handles_put_new hn r i
  have h2 := handles_erase hl i
  rw [hput] at h1
  omega

/-! ## The table follows -/

theorem retain_counts {t : BufTable} {r : BufRef} (h : t.Counts c)
    (hc : ∀ i, c' i = c i + adds r i) (hbound : ∀ i, r = some i → c' i < 65536) :
    (t.retain r).Counts c' := by
  cases r with
  | none =>
      have hcc : c' = c := funext hc
      rw [hcc]
      exact h
  | some i =>
      refine h.retain ?_ (fun j hj => ?_) (hbound i rfl)
      · rw [hc, adds_self]
      · rw [hc, adds_of_ne hj, Nat.add_zero]

theorem release_counts {t : BufTable} {r : BufRef} (h : t.Counts c)
    (hc : ∀ i, c' i + adds r i = c i) : (t.release r).Counts c' := by
  cases r with
  | none =>
      have hcc : c' = c := funext hc
      rw [hcc]
      exact h
  | some i =>
      refine h.release ?_ fun j hj => ?_
      · rw [← hc, adds_self]
      · rw [← hc, adds_of_ne hj, Nat.add_zero]

/-- The counts of the table are the live handles. -/
def Exact (s : Pool H) : Prop := s.table.Counts s.handles

omit [DecidableEq H] in
theorem exact_init : (init : Pool H).Exact := BufTable.counts_init

/-- The slot on which a copy assignment takes a second reference before it gives up its first. -/
def doubled (s : Pool H) : RefOp H → BufRef
  | .copyAssign h src => if h ≠ src ∧ s.ref h = s.ref src then s.ref src else none
  | _ => none

/-- Fewer than 65536 handles on every slot after the step, the second reference of a copy
assignment counted. -/
def InRange (e : Entry (Pool H) (RefOp H) PoolEvent) : Prop :=
  ∀ i, e.post.handles i + adds (e.pre.doubled e.act) i < 65536

instance (e : Entry (Pool H) (RefOp H) PoolEvent) : Decidable (InRange e) :=
  inferInstanceAs (Decidable (∀ i, e.post.handles i + adds (e.pre.doubled e.act) i < 65536))

/-- **One operation keeps the counts exact.** -/
theorem Exact.step (hs : s.Exact) {a : RefOp H} {out : List PoolEvent} {s' : Pool H}
    (hstep : machine.step s a = some (s', out)) (hC : InRange ⟨s, a, out, s'⟩) : s'.Exact := by
  have hrange : ∀ i, s'.handles i < 65536 := fun i => Nat.lt_of_add_right_lt (hC i)
  change s.step a = _ at hstep
  cases a with
  | request h =>
      simp only [Pool.step] at hstep
      split at hstep
      · cases hstep
      · next hn =>
          rcases hs.request_cases with ⟨-, hreq⟩ | ⟨-, i, t', hi, hreq, -, hnew⟩ <;>
            rw [hreq] at hstep <;> cases hstep
          · exact hs
          · have hput := handles_put_new hn (some i)
            refine hnew _ ((hput i).trans ?_) fun j hj => (hput j).trans ?_
            · rw [hi, adds_self]
            · rw [adds_of_ne hj, Nat.add_zero]
  | construct h =>
      simp only [Pool.step] at hstep
      split at hstep
      · cases hstep
      · next hn =>
          cases hstep
          have hsame : (s.put h none).handles = s.handles := funext fun i => by
            rw [handles_put_new hn, adds_none, Nat.add_zero]
          rw [Exact, hsame]
          exact hs
  | copyConstruct h src =>
      simp only [Pool.step] at hstep
      split at hstep
      · next hg =>
          cases hstep
          exact retain_counts hs (fun i => handles_put_new hg.1 _ i) fun i _ => hrange i
      · cases hstep
  | moveConstruct h src =>
      simp only [Pool.step] at hstep
      split at hstep
      · next hg =>
          cases hstep
          -- the new object refers to what the source referred to, and the source to nothing
          have hne : src ≠ h := fun he => hg.1 (he ▸ hg.2)
          have hsame : ((s.put h (s.ref src)).put src none).handles = s.handles :=
            funext fun i => by
              have h1 := handles_put_new hg.1 (s.ref src) i
              have h2 := handles_put (s := s.put h (s.ref src)) (h := src)
                (Finset.mem_insert_of_mem hg.2) none i
              rw [show (s.put h (s.ref src)).ref src = s.ref src from Slots.set_of_ne _ _ hne,
                adds_none] at h2
              omega
          rw [Exact, hsame]
          exact hs
      · cases hstep
  | copyAssign h src =>
      simp only [Pool.step] at hstep
      split at hstep
      · next hg =>
          split at hstep
          · cases hstep
            exact hs
          · next hne =>
              cases hstep
              have hput := handles_put hg.1 (s.ref src)
              -- in between, the table counts the new reference and still the old one
              refine release_counts (c := fun i => s.handles i + adds (s.ref src) i)
                (retain_counts hs (fun i => rfl) fun i hi => ?_) fun i => hput i
              rw [← hput i]
              by_cases hold : s.ref h = s.ref src
              · have hd := hC i
                rw [doubled, if_pos ⟨hne, hold⟩] at hd
                rw [hold]
                exact hd
              · have hz : adds (s.ref h) i = 0 := if_neg fun he => hold (he.trans hi.symm)
                rw [hz]
                exact hrange i
      · cases hstep
  | moveAssign h src =>
      simp only [Pool.step] at hstep
      split at hstep
      · next hg =>
          split at hstep
          · cases hstep
            exact hs
          · next hne =>
              cases hstep
              refine release_counts hs fun i => ?_
              have h1 := handles_put hg.1 (s.ref src) i
              have h2 := handles_put (s := s.put h (s.ref src)) (h := src)
                (Finset.mem_insert_of_mem hg.2) none i
              rw [show (s.put h (s.ref src)).ref src = s.ref src from
                Slots.set_of_ne _ _ (Ne.symm hne), adds_none] at h2
              change ((s.put h (s.ref src)).put src none).handles i + _ = _
              omega
      · cases hstep
  | destroy h =>
      simp only [Pool.step] at hstep
      split at hstep
      · next hl =>
          cases hstep
          exact release_counts hs (handles_erase hl)
      · cases hstep

/-- The counts are exact after every run. -/
theorem counts_exact {h : List (Entry (Pool H) (RefOp H) PoolEvent)} {t : Pool H}
    (hr : machine.Run init h t) (hC : ∀ e ∈ h, InRange e) : t.Exact :=
  hr.invariant_within (P := fun _ t => t.Exact) hC exact_init
    fun _ _ _ _ _ _ _ hu hstep hCe => hu.step hstep hCe

/-- **The counts of the pool are the live handles.** After any run of operations on handles, a
slot is referenced as often as objects refer to it, `size` is the number of referenced slots,
and `request` says `full` when all are and otherwise ends with a slot nobody refers to. -/
theorem counts_of_run {h : List (Entry (Pool H) (RefOp H) PoolEvent)} {t : Pool H}
    (hr : machine.Run init h t) (hC : ∀ e ∈ h, InRange e) :
    (∀ i, (t.table.refCount i).toNat = t.handles i) ∧
    t.table.size.toNat = Slots.count (fun i => decide (0 < t.table.refCount i)) ∧
    (t.table.request = some (.error .full, t.table) ↔ ∀ i, 0 < t.table.refCount i) ∧
    ((¬ ∀ i, 0 < t.table.refCount i) → ∃ i u, t.table.request = some (.ok i, u) ∧
      t.handles i = 0 ∧ u.refCount i = 1 ∧ ∀ j, j ≠ i → u.refCount j = t.table.refCount j) := by
  have hex := counts_exact hr hC
  have hused : (∀ i, 0 < t.handles i) ↔ ∀ i, 0 < t.table.refCount i :=
    forall_congr' fun i => by
      rw [← hex.used_iff, BufTable.used, decide_eq_true_iff]
  refine ⟨hex.count, hex.size, ?_, fun hnot => ?_⟩
  · rw [← hused]
    rcases hex.request_cases with ⟨hall, hreq⟩ | ⟨hnot, i, u, -, hreq, -⟩
    · exact ⟨fun _ => hall, fun _ => hreq⟩
    · rw [hreq]
      exact ⟨fun he => (by cases he), fun hall => absurd hall hnot⟩
  · rcases hex.request_cases with ⟨hall, -⟩ | ⟨-, i, u, hi, hreq, hoff, hnew⟩
    · exact absurd (hused.mp hall) hnot
    · refine ⟨i, u, hreq, hi, ?_, hoff⟩
      have hone := (hnew (Slots.set t.handles i 1) (Slots.set_self _ _ _)
        fun j hj => Slots.set_of_ne _ _ hj).count i
      rw [Slots.set_self] at hone
      exact UInt16.toNat_inj.mp hone

/-- The schedule requests twice, copies, assigns in both ways, also an object to itself and to
another of the same slot, and destroys. -/
def sampleOps : List (RefOp Nat) :=
  [.request 0, .request 1, .copyConstruct 2 0, .construct 3, .moveConstruct 4 1,
    .copyAssign 3 2, .copyAssign 3 0, .copyAssign 3 3, .moveAssign 2 4, .moveAssign 2 2,
    .destroy 3]

theorem counts_of_run_sample :
    ∃ h t, (machine (H := Nat)).Run init h t ∧ t.handles 0 = 1 ∧ t.handles 1 = 1 ∧
      (∀ i, (t.table.refCount i).toNat = t.handles i) := by
  have hrun : ∃ h t, (machine (H := Nat)).Run init h t ∧ (decide (∀ e ∈ h, InRange e) &&
      decide (t.handles 0 = 1 ∧ t.handles 1 = 1)) = true :=
    Machine.exists_run_of_exec (p := fun h t => decide (∀ e ∈ h, InRange e) &&
      decide (t.handles 0 = 1 ∧ t.handles 1 = 1))
      (show (machine.exec init sampleOps).map _ = some true by decide +kernel)
  obtain ⟨h, t, hr, hp⟩ := hrun
  rw [Bool.and_eq_true, decide_eq_true_iff, decide_eq_true_iff] at hp
  exact ⟨h, t, hr, hp.2.1, hp.2.2, (counts_of_run hr hp.1).1⟩

/-! ## The edge of the counts

A copy assignment retains before it releases. With 65535 objects on one slot, the count wraps
around when one of them is assigned to another. -/

omit [DecidableEq H] in
theorem handles_le_card (i : Fin bufferRows) : s.handles i ≤ s.live.card :=
  Finset.card_filter_le _ _

/-- A request and `n` copies: `n + 1` objects on slot 0. -/
theorem run_copies {n : Nat} (hn : n < 65535) :
    ∃ h t, (machine (H := Nat)).Run init h t ∧ (∀ e ∈ h, InRange e) ∧
      t.live = Finset.range (n + 1) ∧ ∀ m ≤ n, t.ref m = some 0 := by
  induction n with
  | zero =>
      refine ⟨_, _, Machine.Run.single (M := machine) (a := .request 0) rfl, ?_, rfl, ?_⟩
      · intro e he
        rw [List.mem_singleton.mp he]
        decide +kernel
      · intro m hm
        rw [Nat.le_zero.mp hm]
        rfl
  | succ n ih =>
      obtain ⟨h, t, hr, hC, hlive, href⟩ := ih (by omega)
      -- the handle `n + 1` is a copy of handle 0
      have hnew : n + 1 ∉ t.live := by rw [hlive, Finset.mem_range]; omega
      have hold : 0 ∈ t.live := by rw [hlive, Finset.mem_range]; omega
      have hstep : machine.step t (.copyConstruct (n + 1) 0)
          = some ((t.put (n + 1) (t.ref 0)).retain (t.ref 0), []) := if_pos ⟨hnew, hold⟩
      have hlive' : insert (n + 1) t.live = Finset.range (n + 1 + 1) := by
        rw [hlive]
        exact Finset.range_add_one.symm
      refine ⟨_, _, hr.snoc hstep, ?_, hlive', fun m hm => ?_⟩
      · intro e he
        rcases List.mem_append.mp he with he | he
        · exact hC e he
        · rw [List.mem_singleton.mp he]
          intro i
          have hle : _ ≤ (insert (n + 1) t.live).card :=
            handles_le_card (s := t.put (n + 1) (t.ref 0)) i
          rw [hlive', Finset.card_range] at hle
          change (t.put (n + 1) (t.ref 0)).handles i + 0 < 65536
          omega
      · change Slots.set t.ref (n + 1) (t.ref 0) m = some 0
        by_cases hmn : m = n + 1
        · rw [hmn, Slots.set_self]
          exact href 0 (Nat.zero_le n)
        · rw [Slots.set_of_ne _ _ hmn]
          exact href m (by omega)

/-- Fewer than 65536 handles after every step do not keep the counts exact. -/
theorem not_counts_of_handles_lt :
    ¬ ∀ (h : List (Entry (Pool Nat) (RefOp Nat) PoolEvent)) (t : Pool Nat),
      machine.Run init h t → (∀ e ∈ h, ∀ i, e.post.handles i < 65536) →
      ∀ i, (t.table.refCount i).toNat = t.handles i := by
  intro hall
  obtain ⟨h, t, hr, hC, hlive, href⟩ := run_copies (n := 65534) (by decide)
  have h0 : 0 ∈ t.live := by rw [hlive, Finset.mem_range]; decide
  have h1 : 1 ∈ t.live := by rw [hlive, Finset.mem_range]; decide
  have hr0 := href 0 (by decide)
  have hr1 := href 1 (by decide)
  -- all 65535 objects are on slot 0, and the table says so
  have hcard : t.handles 0 = 65535 := by
    rw [handles, Finset.filter_true_of_mem fun m hm => ?_, hlive, Finset.card_range]
    rw [hlive, Finset.mem_range] at hm
    exact href m (by omega)
  have hmax : t.table.refCount 0 = 65535 :=
    UInt16.toNat_inj.mp (((counts_exact hr hC).count 0).trans hcard)
  have hstep : machine.step t (.copyAssign 1 0)
      = some (((t.retain (some 0)).release (some 0)).put 1 (some 0), []) := by
    change t.step (.copyAssign 1 0) = _
    rw [Pool.step, if_pos ⟨h1, h0⟩, if_neg (by decide), hr0, hr1]
  have hput : ∀ i, (((t.retain (some 0)).release (some 0)).put 1 (some 0)).handles i
      = t.handles i := fun i => by
    have := handles_put h1 (some 0) i
    rw [hr1] at this
    exact Nat.add_right_cancel this
  have hwrap : (((t.retain (some 0)).release (some 0)).put 1 (some 0)).table.refCount 0 = 0 := by
    have hz : (t.table.retainRef 0).refCount 0 = 0 := by
      change Slots.set t.table.refCount 0 (t.table.refCount 0 + 1) 0 = 0
      rw [Slots.set_self, hmax]
      rfl
    change ((t.table.retainRef 0).releaseRef 0).refCount 0 = 0
    rw [BufTable.releaseRef, if_pos hz, hz]
  have hend := hall _ _ (hr.snoc hstep) (fun e he => ?_) 0
  · rw [hwrap, hput, hcard] at hend
    cases hend
  · rcases List.mem_append.mp he with he | he
    · exact fun i => Nat.lt_of_add_right_lt (hC e he i)
    · rw [List.mem_singleton.mp he]
      intro i
      change (((t.retain (some 0)).release (some 0)).put 1 (some 0)).handles i < 65536
      have hle := handles_le_card (s := t) i
      rw [hlive, Finset.card_range] at hle
      rw [hput]
      omega

end Pool

end PawnDB
