import PawnDB.Basic.Params
import PawnDB.Lib.Probing
import PawnDB.Lib.Slots

set_option autoImplicit false

/-! # The buffer pool

A pool of slots with reference counts of 16 bits. A slot is taken by the next-fit loop of
`request` and becomes free again when its last reference is released. The contents of the
buffers are no concern of the pool and are left out here.
-/

namespace PawnDB

open Probing

/-- Buffer operation error codes. -/
inductive BufferError
  | full
  deriving DecidableEq, Repr

/-- `buf_table` without the buffers. -/
structure BufTable where
  refCount : Fin bufferRows → UInt16
  size : SizeT
  next : Fin bufferRows

/-- `buf_ref`: the slot it refers to, or nothing when its table is null. -/
abbrev BufRef : Type := Option (Fin bufferRows)

namespace BufTable

/-- The constructor. -/
def init : BufTable := ⟨fun _ => 0, 0, 0⟩

variable (t : BufTable)

def full : Bool := decide (UInt64.ofNat bufferRows ≤ t.size)

/-- Slot `i` is referenced. -/
def used (i : Fin bufferRows) : Bool := decide (0 < t.refCount i)

/-- Take the first free slot from the hint on; `none` when the search does not end. -/
def request : Option (Except BufferError (Fin bufferRows) × BufTable) :=
  if t.full then some (.error .full, t)
  else
    match seek (fun i => !t.used i) bufferRows t.next with
    | none => none
    | some idx =>
        some (.ok idx,
          { refCount := Slots.set t.refCount idx 1, next := idx + 1, size := t.size + 1 })

def retainRef (i : Fin bufferRows) : BufTable :=
  { t with
    size := if t.refCount i = 0 then t.size + 1 else t.size
    refCount := Slots.set t.refCount i (t.refCount i + 1) }

def releaseRef (i : Fin bufferRows) : BufTable :=
  if t.refCount i = 0 then t
  else
    { t with
      refCount := Slots.set t.refCount i (t.refCount i - 1)
      size := if t.refCount i - 1 = 0 ∧ 0 < t.size then t.size - 1 else t.size }

/-! ## What the counts say

`Counts t c` says that slot `i` is referenced `c i` times. -/

/-- The reference counts are `c`, and `size` is the number of referenced slots. -/
structure Counts (t : BufTable) (c : Fin bufferRows → Nat) : Prop where
  count : ∀ i, (t.refCount i).toNat = c i
  size : t.size.toNat = Slots.count t.used

variable {t} {c c' : Fin bufferRows → Nat}

theorem counts_init : init.Counts fun _ => 0 where
  count := fun _ => rfl
  size := (Slots.count_eq_zero.mpr fun _ => rfl).symm

theorem used_iff {i : Fin bufferRows} : t.used i = true ↔ 0 < (t.refCount i).toNat := by
  rw [used, decide_eq_true_iff, UInt16.lt_iff_toNat_lt]
  rfl

theorem Counts.used_iff (h : t.Counts c) {i : Fin bufferRows} :
    t.used i = true ↔ 0 < c i := by
  rw [BufTable.used_iff, h.count]

theorem count_used_le : Slots.count t.used ≤ bufferRows := by
  refine (Finset.card_le_univ _).trans ?_
  rw [Fintype.card_fin]

/-- The pool is full when every slot is referenced. -/
theorem Counts.full_iff (h : t.Counts c) : t.full = true ↔ ∀ i, 0 < c i := by
  rw [full, decide_eq_true_iff, UInt64.le_iff_toNat_le, h.size]
  change bufferRows ≤ Slots.count t.used ↔ _
  constructor
  · intro hle i
    by_contra hi
    have hlt : Slots.count t.used < bufferRows := by
      have hi' : t.used i = false := by
        rw [← Bool.not_eq_true, h.used_iff]
        exact hi
      refine (Finset.card_lt_card (t := Finset.univ) ?_).trans_eq (Fintype.card_fin _)
      exact Finset.filter_ssubset.mpr ⟨i, Finset.mem_univ _, by simp [hi']⟩
    omega
  · intro hall
    rw [Slots.count, Finset.filter_true_of_mem fun i _ => h.used_iff.mpr (hall i),
      Finset.card_univ, Fintype.card_fin]

/-- One slot changes its count, and with it whether it is in use. -/
theorem counts_of_set {t' : BufTable} {i : Fin bufferRows} {n : UInt16} (h : t.Counts c)
    (hset : t'.refCount = Slots.set t.refCount i n) (hn : n.toNat = c' i)
    (hoff : ∀ j, j ≠ i → c' j = c j)
    (hsize : t'.size.toNat + (if 0 < c i then 1 else 0)
      = t.size.toNat + if 0 < c' i then 1 else 0) : t'.Counts c' := by
  have hcount : ∀ j, (t'.refCount j).toNat = c' j := fun j => by
    rw [hset]
    by_cases hj : j = i
    · rw [hj, Slots.set_self, hn]
    · rw [Slots.set_of_ne _ _ hj, h.count, hoff j hj]
  refine ⟨hcount, ?_⟩
  have hused : ∀ j, j ≠ i → t'.used j = t.used j := fun j hj => by
    rw [used, used, hset, Slots.set_of_ne _ _ hj]
  have hc : _ = Slots.count t.used + _ := Slots.count_congr_off (p := t'.used) i hused
  have hti : (t.used i = true) = (0 < c i) := propext h.used_iff
  have hti' : (t'.used i = true) = (0 < c' i) := by
    rw [← hcount i]
    exact propext used_iff
  simp only [hti, hti'] at hc
  rw [h.size] at hsize
  omega

/-- A reference more. -/
theorem Counts.retain (h : t.Counts c) {i : Fin bufferRows} (hi : c' i = c i + 1)
    (hoff : ∀ j, j ≠ i → c' j = c j) (hbound : c' i < 65536) : (t.retainRef i).Counts c' := by
  have hci := h.count i
  have h1 : (1 : UInt16).toNat = 1 := rfl
  refine counts_of_set h rfl ?_ hoff ?_
  · rw [UInt16.toNat_add, hci, h1, hi]
    omega
  · have hle := count_used_le (t := t)
    have hrows : bufferRows = 64 := rfl
    change (if t.refCount i = 0 then t.size + 1 else t.size).toNat + _ = _
    by_cases hz : t.refCount i = 0
    · have hcz : c i = 0 := by rw [← hci, hz]; rfl
      rw [if_pos hz, SizeT.toNat_succ (by rw [h.size]; omega), if_neg (by omega),
        if_pos (by omega)]
    · have hcz : c i ≠ 0 := by
        rw [← hci]
        exact fun he => hz (UInt16.toNat_inj.mp he)
      rw [if_neg hz, if_pos (by omega), if_pos (by omega)]

/-- A reference less. -/
theorem Counts.release (h : t.Counts c) {i : Fin bufferRows} (hi : c i = c' i + 1)
    (hoff : ∀ j, j ≠ i → c' j = c j) : (t.releaseRef i).Counts c' := by
  have hci := h.count i
  -- the handle that goes was counted, so the guard against an underflow does not fire
  have hnz : t.refCount i ≠ 0 := fun hz => by
    rw [hz] at hci
    change 0 = c i at hci
    omega
  have hpred : (t.refCount i - 1).toNat = c' i := by
    have hle : 1 ≤ t.refCount i := by
      rw [UInt16.le_iff_toNat_le, hci, hi]
      exact Nat.le_add_left 1 _
    rw [UInt16.toNat_sub_of_le _ _ hle, hci, hi]
    exact Nat.add_sub_cancel _ 1
  rw [releaseRef, if_neg hnz]
  refine counts_of_set h rfl hpred hoff ?_
  have hused : t.used i = true := h.used_iff.mpr (hi ▸ Nat.succ_pos _)
  have hpos : 0 < Slots.count t.used := Slots.count_pos hused
  have hsz : 0 < t.size := UInt64.lt_iff_toNat_lt.mpr (by rw [h.size]; exact hpos)
  change (if t.refCount i - 1 = 0 ∧ 0 < t.size then t.size - 1 else t.size).toNat + _ = _
  -- the last handle frees the row
  by_cases hz : t.refCount i - 1 = 0
  · have hcz : c' i = 0 := by rw [← hpred, hz]; rfl
    rw [if_pos ⟨hz, hsz⟩, SizeT.toNat_pred (by rw [h.size]; exact hpos), if_pos (by omega),
      if_neg (by omega)]
    have := h.size
    omega
  · have hcz : c' i ≠ 0 := by
      rw [← hpred]
      exact fun he => hz (UInt16.toNat_inj.mp he)
    rw [if_neg (fun hc => hz hc.1), if_pos (by omega), if_pos (by omega)]

/-- **What `request` does.** Either every slot is referenced and it says so, or it finds a slot
that is not. -/
theorem Counts.request_cases (h : t.Counts c) :
    ((∀ i, 0 < c i) ∧ t.request = some (.error .full, t)) ∨
    ((¬ ∀ i, 0 < c i) ∧ ∃ i t', c i = 0 ∧ t.request = some (.ok i, t') ∧
      (∀ j, j ≠ i → t'.refCount j = t.refCount j) ∧
      ∀ c', c' i = 1 → (∀ j, j ≠ i → c' j = c j) → t'.Counts c') := by
  by_cases hall : ∀ i, 0 < c i
  · refine Or.inl ⟨hall, ?_⟩
    rw [request, if_pos (h.full_iff.mpr hall)]
  · refine Or.inr ⟨hall, ?_⟩
    have hfull : ¬ t.full = true := fun hf => hall (h.full_iff.mp hf)
    -- the next-fit loop ends, because some slot is not referenced
    obtain ⟨q, hq⟩ := not_forall.mp hall
    have hsome : (seek (fun i => !t.used i) bufferRows t.next).isSome = true := by
      refine seek_isSome_iff.mpr ⟨q, ?_⟩
      rw [Bool.not_eq_true', ← Bool.not_eq_true, h.used_iff]
      exact hq
    obtain ⟨i, hi⟩ := Option.isSome_iff_exists.mp hsome
    have hci : c i = 0 := by
      have := seek_holds hi
      rw [Bool.not_eq_true', ← Bool.not_eq_true, h.used_iff] at this
      omega
    refine ⟨i, _, hci, by rw [request, if_neg hfull, hi], fun j hj => Slots.set_of_ne _ _ hj,
      fun c' h1 hoff => ?_⟩
    refine counts_of_set h rfl (by rw [h1]; rfl) hoff ?_
    have hle := count_used_le (t := t)
    have hrows : bufferRows = 64 := rfl
    change (t.size + 1).toNat + _ = _
    rw [SizeT.toNat_succ (by rw [h.size]; omega), if_neg (by omega), if_pos (by omega)]

end BufTable

end PawnDB
