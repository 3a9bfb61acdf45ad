import PawnDB.Lib.Serial
import Mathlib.Tactic

set_option autoImplicit false

/-! # Two-phase locking

Owners take locks on the items of a store and access them. `held t i k` says that owner `i` has
a lock on item `k` at time `t`, and `xheld t i k` that it is an exclusive one. `TwoPhase` is the
discipline: up to its lock point an owner gives no lock back, from there on it takes none, and
an exclusive lock excludes all others. `Covered` is what an access asks for: a read is made
before the lock point and under a lock, a write after it and under an exclusive lock, and an item
comes to be after the lock point of its owner and before anybody has a lock on it.

Under the discipline the lock points decide who comes first (`Covered.point_lt`), so every log
can be carried out in the order of the lock points, one owner after the other
(`TwoPhase.play_serial`).
-/

namespace TwoPhaseLocking

open Serial

variable {ι K V : Type}

/-- Locks are taken before the lock point and given back after it. -/
structure TwoPhase (held xheld : Nat → ι → K → Prop) (point : ι → Nat) : Prop where
  weaken : ∀ {t i k}, xheld t i k → held t i k
  exclusion : ∀ {t i j k}, xheld t i k → held t j k → i = j
  keep : ∀ {t i k}, held t i k → t < point i → held (t + 1) i k
  fixed : ∀ {t i k}, xheld (t + 1) i k → point i ≤ t → xheld t i k

/-- An access, who made it and when. -/
structure Stamped (ι K V : Type) where
  time : Nat
  owner : ι
  access : Access K V

/-- What the discipline asks of an access. -/
def Covered (held xheld : Nat → ι → K → Prop) (point : ι → Nat) (a : Stamped ι K V) : Prop :=
  match a.access with
  | .read k _ => held (a.time + 1) a.owner k ∧ a.time < point a.owner
  | .create k _ => point a.owner ≤ a.time ∧ ∀ t ≤ a.time, ∀ j, ¬ held t j k
  | .write k _ | .remove k => xheld a.time a.owner k ∧ point a.owner ≤ a.time

variable {held xheld : Nat → ι → K → Prop} {point : ι → Nat}

namespace TwoPhase

theorem held_until (h : TwoPhase held xheld point) {t u : Nat} {i : ι} {k : K}
    (hi : held t i k) (htu : t ≤ u) (hu : u ≤ point i) : held u i k := by
  induction u, htu using Nat.le_induction with
  | base => exact hi
  | succ u _ ih => exact h.keep (ih (by omega)) (by omega)

theorem xheld_since (h : TwoPhase held xheld point) {t u : Nat} {i : ι} {k : K}
    (hi : xheld u i k) (ht : point i ≤ t) (htu : t ≤ u) : xheld t i k := by
  induction u, htu using Nat.le_induction with
  | base => exact hi
  | succ u _ ih => exact ih (h.fixed hi (by omega))

/-- Who has a lock on an item before another owner writes it has the earlier lock point: else
both would have a lock when the later of the two things happens. -/
theorem point_lt (h : TwoPhase held xheld point) {q r : Nat} {i j : ι} {k : K}
    (hi : held q i k) (hj : xheld r j k) (hqr : q ≤ r) (hr : point j ≤ r) (hij : i ≠ j) :
    point i < point j := by
  by_contra hlt
  rcases Nat.le_total q (point j) with hq | hq
  · have hi' := h.held_until hi hq (by omega)
    have hj' := h.xheld_since hj (Nat.le_refl _) hr
    exact hij (h.exclusion hj' hi').symm
  · have hj' := h.xheld_since hj hq hqr
    exact hij (h.exclusion hj' hi).symm

end TwoPhase

namespace Covered

variable {a b : Stamped ι K V}

/-- What is not a read is made after the lock point. -/
theorem late (ha : Covered held xheld point a) (hr : a.access.isRead = false) :
    point a.owner ≤ a.time := by
  rcases a with ⟨t, i, k | k | k | k⟩
  · cases hr
  · exact ha.1
  · exact ha.2
  · exact ha.2

/-- An access to an item that is there is made under a lock. -/
theorem locked (ha : Covered held xheld point a) (h : TwoPhase held xheld point)
    (hc : a.access.isCreate = false) :
    ∃ t, a.time ≤ t ∧ t ≤ a.time + 1 ∧ held t a.owner a.access.item := by
  rcases a with ⟨t, i, k | k | k | k⟩
  · exact ⟨t + 1, by simp, Nat.le_refl _, ha.1⟩
  · cases hc
  · exact ⟨t, Nat.le_refl _, by simp, h.weaken ha.1⟩
  · exact ⟨t, Nat.le_refl _, by simp, h.weaken ha.1⟩

/-- An access that changes an item keeps every other owner away from it. -/
theorem point_lt_write (ha : Covered held xheld point a) (h : TwoPhase held xheld point)
    {r : Nat} {j : ι} (hj : xheld r j a.access.item) (hr : point j ≤ r) (ht : a.time < r)
    (hij : a.owner ≠ j) : point a.owner < point j := by
  cases hc : a.access.isCreate with
  | false =>
      obtain ⟨t, -, htr, hheld⟩ := ha.locked h hc
      exact h.point_lt hheld hj (by omega) hr hij
  | true =>
      -- the item was not there yet, so the lock of the other owner is a later one
      rcases a with ⟨t, i, k | k | k | k⟩
      · cases hc
      · by_contra hlt
        have hj' := h.xheld_since hj (Nat.le_trans (Nat.le_of_not_lt hlt) ha.1) (Nat.le_of_lt ht)
        exact ha.2 t (Nat.le_refl t) j (h.weaken hj')
      · cases hc
      · cases hc

/-- **The lock points order the conflicts.** Of two accesses to one item that are not both reads,
and do not both create it, the earlier one is by the owner with the earlier lock point. -/
theorem point_lt (ha : Covered held xheld point a) (hb : Covered held xheld point b)
    (h : TwoPhase held xheld point) (ht : a.time < b.time) (hij : a.owner ≠ b.owner)
    (hk : a.access.item = b.access.item)
    (hread : a.access.isRead = false ∨ b.access.isRead = false)
    (hcreate : a.access.isCreate = false ∨ b.access.isCreate = false) :
    point a.owner < point b.owner := by
  rcases b with ⟨r, j, k | k | k | k⟩
  · -- a write before a read: one is after its lock point, the other before
    have ha' := ha.late (hread.resolve_right (by simp [Access.isRead]))
    exact Nat.lt_of_le_of_lt ha' (Nat.lt_trans ht hb.2)
  · -- nobody has a lock on an item before it is created
    obtain ⟨t, -, htr, hheld⟩ := ha.locked h (hcreate.resolve_right (by simp [Access.isCreate]))
    rw [hk] at hheld
    exact absurd hheld (hb.2 t (by dsimp only at ht ⊢; omega) _)
  · exact ha.point_lt_write h (hk ▸ hb.1) hb.2 ht hij
  · exact ha.point_lt_write h (hk ▸ hb.1) hb.2 ht hij

end Covered

section Order

variable [DecidableEq ι] [DecidableEq K] [DecidableEq V]

/-- What a stamped access does to a store. -/
def act (m : K → Option V) (a : Stamped ι K V) : Option (K → Option V) := a.access.act m

/-- **Two-phase locking is serializable.** A log of accesses that meet the discipline comes to
the same, read for read, as the accesses of one owner after those of another in the order of the
lock points. -/
theorem TwoPhase.play_serial (h : TwoPhase held xheld point) {L : List (Stamped ι K V)}
    (hcov : ∀ a ∈ L, Covered held xheld point a)
    (htime : L.Pairwise fun a b => a.time < b.time)
    (hcreate : L.Pairwise fun a b => a.access.isCreate = true → b.access.isCreate = true →
      a.access.item ≠ b.access.item)
    {order : List ι} (hd : order.Nodup) (hall : ∀ i, i ∈ order)
    (horder : order.Pairwise fun i j => point i ≤ point j) (m : K → Option V) :
    play act m L = play act m (serial Stamped.owner order L) := by
  refine Serial.play_serial hd (fun a _ => hall a.owner) ?_ m
  refine (htime.and hcreate).imp_of_mem fun {a b} ha hb hab hs => ?_
  have hij : a.owner ≠ b.owner := fun he => by
    have := hd.sublist hs
    simp [he] at this
  have hle : point b.owner ≤ point a.owner := List.pairwise_iff_forall_sublist.mp horder hs
  by_cases hk : a.access.item = b.access.item
  · by_cases hr : a.access.isRead = true ∧ b.access.isRead = true
    · exact fun m => Access.commute_of_isRead hr.1 hr.2 m
    · -- a conflict in the wrong order cannot be
      have hread : a.access.isRead = false ∨ b.access.isRead = false := by
        rcases not_and_or.mp hr with hr | hr
        · exact Or.inl (Bool.not_eq_true _ ▸ hr)
        · exact Or.inr (Bool.not_eq_true _ ▸ hr)
      have hfresh : a.access.isCreate = false ∨ b.access.isCreate = false := by
        by_contra hc
        simp only [not_or, Bool.not_eq_false] at hc
        exact hab.2 hc.1 hc.2 hk
      have hlt := (hcov a ha).point_lt (hcov b hb) h hab.1 hij hk hread hfresh
      omega
  · exact fun m => Access.commute_of_item_ne hk m

end Order

end TwoPhaseLocking
