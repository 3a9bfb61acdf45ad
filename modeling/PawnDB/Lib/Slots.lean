import Mathlib.Algebra.BigOperators.Fin
import Mathlib.Data.Fintype.BigOperators
import Mathlib.Tactic

set_option autoImplicit false

/-! # Arrays of slots

A fixed array is a function on its indices. `set` overwrites one slot; it evaluates without
the cast of `Function.update`, which it is equal to (`set_eq_update`).

`count p` is the number of indices with `p`. When `p` changes at one index only, the count
changes by what happens there (`count_congr_off`); likewise for a sum over the indices
(`sum_congr_off`). Where slots are given to members, each to at most one, a sum over the members
is one over the slots (`sum_elim`).
-/

namespace Slots

variable {ι α : Type} [DecidableEq ι]

/-- Overwrite slot `i` with `x`. -/
def set (f : ι → α) (i : ι) (x : α) : ι → α := fun j => if j = i then x else f j

theorem set_eq_update (f : ι → α) (i : ι) (x : α) : set f i x = Function.update f i x := by
  funext j
  simp [set, Function.update_apply]

@[simp] theorem set_self (f : ι → α) (i : ι) (x : α) : set f i x i = x := by simp [set]

theorem set_of_ne (f : ι → α) {i j : ι} (x : α) (h : j ≠ i) : set f i x j = f j := by
  simp [set, h]

/-- A projection that the new value shares with the old one does not see the update. -/
theorem map_set {β : Type} (g : α → β) (f : ι → α) (i : ι) (x : α) (h : g x = g (f i)) (j : ι) :
    g (set f i x j) = g (f j) := by
  by_cases hj : j = i
  · subst hj; rw [set_self, h]
  · rw [set_of_ne _ _ hj]

section

variable [Fintype ι]

/-- The number of indices with `p`. -/
def count (p : ι → Bool) : Nat := (Finset.univ.filter fun i => p i = true).card

omit [DecidableEq ι] in
theorem count_eq_zero {p : ι → Bool} : count p = 0 ↔ ∀ i, p i = false := by
  simp [count, Finset.card_eq_zero, Finset.filter_eq_empty_iff]

omit [DecidableEq ι] in
theorem count_congr {p q : ι → Bool} (h : ∀ i, p i = q i) : count p = count q := by
  simp only [count, h]

omit [DecidableEq ι] in
theorem count_pos {p : ι → Bool} {i : ι} (h : p i = true) : 0 < count p := by
  rw [Nat.pos_iff_ne_zero, Ne, count_eq_zero, not_forall]
  exact ⟨i, by simp [h]⟩

omit [DecidableEq ι] in
theorem exists_of_count_pos {p : ι → Bool} (h : 0 < count p) : ∃ i, p i = true := by
  by_contra hn
  have : count p = 0 := count_eq_zero.mpr fun i => by
    by_contra hp
    exact hn ⟨i, by simpa using hp⟩
  omega

omit [DecidableEq ι] in
theorem count_eq_sum (p : ι → Bool) : count p = ∑ i, (if p i = true then 1 else 0) := by
  rw [count, Finset.card_filter]

/-- **One index changes**: the sum changes by the difference there. -/
theorem sum_congr_off {f g : ι → Nat} (i : ι) (h : ∀ j, j ≠ i → f j = g j) :
    (∑ j, f j) + g i = (∑ j, g j) + f i := by
  have he : ∑ j ∈ Finset.univ.erase i, f j = ∑ j ∈ Finset.univ.erase i, g j :=
    Finset.sum_congr rfl fun j hj => h j (Finset.ne_of_mem_erase hj)
  rw [← Finset.add_sum_erase _ f (Finset.mem_univ i),
    ← Finset.add_sum_erase _ g (Finset.mem_univ i), he]
  omega

theorem count_congr_off {p q : ι → Bool} (i : ι) (h : ∀ j, j ≠ i → p j = q j) :
    count p + (if q i = true then 1 else 0) = count q + (if p i = true then 1 else 0) := by
  rw [count_eq_sum, count_eq_sum]
  exact sum_congr_off (f := fun j => if p j = true then 1 else 0)
    (g := fun j => if q j = true then 1 else 0) i fun j hj => by rw [h j hj]

omit [DecidableEq ι] in
/-- A sum over members is one over the slots that they have, where a member has at most one slot
and those without a slot add nothing. -/
theorem sum_elim {κ : Type} [Fintype κ] [DecidableEq κ] {g : ι → Option κ} {f : κ → Nat}
    (hsingle : ∀ i i' j, g i = some j → g i' = some j → i' = i)
    (hout : ∀ j, (∀ i, g i ≠ some j) → f j = 0) : ∑ i, (g i).elim 0 f = ∑ j, f j := by
  have hmember : ∀ j, ∑ i, (if g i = some j then f j else 0) = f j := fun j => by
    by_cases hj : ∃ i, g i = some j
    · obtain ⟨i, hi⟩ := hj
      rw [Finset.sum_eq_single i (fun i' _ hne => if_neg fun h => hne (hsingle i i' j hi h))
        fun h => absurd (Finset.mem_univ i) h, if_pos hi]
    · rw [not_exists] at hj
      simp [hj, hout j hj]
  have hslot : ∀ i, (g i).elim 0 f = ∑ j, (if g i = some j then f j else 0) := fun i => by
    cases g i with
    | none => simp
    | some j => simp
  calc ∑ i, (g i).elim 0 f = ∑ i, ∑ j, (if g i = some j then f j else 0) :=
        Finset.sum_congr rfl fun i _ => hslot i
    _ = ∑ j, ∑ i, (if g i = some j then f j else 0) := Finset.sum_comm
    _ = ∑ j, f j := Finset.sum_congr rfl fun j _ => hmember j

end

end Slots
