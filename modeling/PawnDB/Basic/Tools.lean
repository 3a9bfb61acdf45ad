import Mathlib.Data.List.FinRange
import Mathlib.Order.Basic
import Mathlib.Tactic

set_option autoImplicit false

/-! # The order of C strings

`array_cmp` compares two character arrays of one length as C strings: what comes after the first
null character does not count, and an array need not have one. Whether `char` is signed is up to
the platform, so the characters are those of any linear order.

The loop of `arrayCmp` runs over a list of positions, and the laws are inductions over that list:
it is antisymmetric and transitive, and it says `0` for equal strings only.
-/

namespace PawnDB

variable {C : Type} [LinearOrder C] {n : Nat}

/-- The loop of `array_cmp` over these positions. -/
def arrayCmpAt (nul : C) (a b : Fin n → C) : List (Fin n) → Int
  | [] => 0
  | i :: is =>
      if a i ≠ b i then (if a i < b i then -1 else 1)
      else if a i = nul then 0
      else arrayCmpAt nul a b is

/-- `array_cmp` -/
def arrayCmp (nul : C) (a b : Fin n → C) : Int := arrayCmpAt nul a b (List.finRange n)

/-- The strings in the two arrays are the same: position by position up to the first null
character of `a`, that one included. -/
def SameString (nul : C) (a b : Fin n → C) : Prop :=
  ∀ i, (∀ j, j < i → a j ≠ nul) → a i = b i

variable {nul : C} {a b c : Fin n → C}

theorem arrayCmpAt_antisymm (is : List (Fin n)) :
    arrayCmpAt nul b a is = - arrayCmpAt nul a b is := by
  induction is with
  | nil => rfl
  | cons i is ih =>
      simp only [arrayCmpAt]
      rcases lt_trichotomy (a i) (b i) with hlt | heq | hgt
      · rw [if_pos hlt.ne', if_neg hlt.not_gt, if_pos hlt.ne, if_pos hlt]
        rfl
      · rw [heq, if_neg (not_not.mpr rfl), if_neg (not_not.mpr rfl)]
        split
        · rfl
        · exact ih
      · rw [if_pos hgt.ne, if_pos hgt, if_pos hgt.ne', if_neg hgt.not_gt]

theorem arrayCmpAt_trans (is : List (Fin n)) (hab : arrayCmpAt nul a b is ≤ 0)
    (hbc : arrayCmpAt nul b c is ≤ 0) : arrayCmpAt nul a c is ≤ 0 := by
  induction is with
  | nil => exact le_rfl
  | cons i is ih =>
      simp only [arrayCmpAt] at hab hbc ⊢
      -- the string that is greater at the first difference is the greater one
      have hle : ∀ {x y : Fin n → C}, (if x i ≠ y i then (if x i < y i then (-1 : Int) else 1)
          else if x i = nul then 0 else arrayCmpAt nul x y is) ≤ 0 → x i ≤ y i := by
        intro x y h
        by_contra hgt
        rw [not_le] at hgt
        rw [if_pos hgt.ne', if_neg hgt.not_gt] at h
        exact absurd h (by decide)
      rcases (hle hab).lt_or_eq with hlt | heq
      · have hac : a i < c i := hlt.trans_le (hle hbc)
        rw [if_pos hac.ne, if_pos hac]
        decide
      · rcases (hle hbc).lt_or_eq with hlt' | heq'
        · have hac : a i < c i := heq.trans_lt hlt'
          rw [if_pos hac.ne, if_pos hac]
          decide
        · rw [if_neg (not_not.mpr heq)] at hab
          rw [if_neg (not_not.mpr heq')] at hbc
          rw [if_neg (not_not.mpr (heq.trans heq'))]
          by_cases hnul : a i = nul
          · rw [if_pos hnul]
          · rw [if_neg hnul] at hab ⊢
            rw [if_neg (heq ▸ hnul)] at hbc
            exact ih hab hbc

/-- The loop says `0` if the positions up to the first null character agree. -/
theorem arrayCmpAt_eq_zero_iff {is : List (Fin n)} (hs : is.Pairwise (· < ·)) :
    arrayCmpAt nul a b is = 0 ↔
      ∀ i ∈ is, (∀ j ∈ is, j < i → a j ≠ nul) → a i = b i := by
  induction is with
  | nil => simp [arrayCmpAt]
  | cons k is ih =>
      obtain ⟨hk, hs⟩ := List.pairwise_cons.mp hs
      simp only [arrayCmpAt]
      by_cases hne : a k ≠ b k
      · rw [if_pos hne]
        have hfirst : ∀ j ∈ k :: is, j < k → a j ≠ nul := by
          intro j hj hjk
          rcases List.mem_cons.mp hj with rfl | hj
          · exact absurd hjk (lt_irrefl j)
          · exact absurd (hjk.trans (hk j hj)) (lt_irrefl j)
        constructor
        · intro h
          split at h <;> cases h
        · intro h
          exact absurd (h k List.mem_cons_self hfirst) hne
      rw [if_neg hne]
      rw [not_not] at hne
      by_cases hnul : a k = nul
      · -- the string ends here, and no later position counts
        rw [if_pos hnul]
        refine iff_of_true rfl fun i hi hbefore => ?_
        rcases List.mem_cons.mp hi with rfl | hi
        · exact hne
        · exact absurd hnul (hbefore k List.mem_cons_self (hk i hi))
      · rw [if_neg hnul, ih hs]
        constructor
        · intro h i hi hbefore
          rcases List.mem_cons.mp hi with rfl | hi
          · exact hne
          · exact h i hi fun j hj => hbefore j (List.mem_cons_of_mem k hj)
        · intro h i hi hbefore
          refine h i (List.mem_cons_of_mem k hi) fun j hj hji => ?_
          rcases List.mem_cons.mp hj with rfl | hj
          · exact hnul
          · exact hbefore j hj hji

/-! ## The whole arrays -/

theorem arrayCmp_antisymm : arrayCmp nul b a = - arrayCmp nul a b := arrayCmpAt_antisymm _

theorem arrayCmp_trans (hab : arrayCmp nul a b ≤ 0) (hbc : arrayCmp nul b c ≤ 0) :
    arrayCmp nul a c ≤ 0 := arrayCmpAt_trans _ hab hbc

theorem arrayCmp_eq_zero_iff : arrayCmp nul a b = 0 ↔ SameString nul a b := by
  rw [arrayCmp, arrayCmpAt_eq_zero_iff (List.pairwise_lt_finRange n)]
  constructor
  · intro h i hbefore
    exact h i (List.mem_finRange i) fun j _ hji => hbefore j hji
  · intro h i _ hbefore
    exact h i fun j hji => hbefore j (List.mem_finRange j) hji

/-- **Arrays that compare as `0` are equivalent.** -/
theorem arrayCmp_equivalence : Equivalence fun a b : Fin n → C => arrayCmp nul a b = 0 where
  refl := fun _ => arrayCmp_eq_zero_iff.mpr fun _ _ => rfl
  symm := fun h => by rw [arrayCmp_antisymm, h, neg_zero]
  trans := fun {a b c} hab hbc => by
    have hle : arrayCmp nul a c ≤ 0 := arrayCmp_trans hab.le hbc.le
    have hge : arrayCmp nul c a ≤ 0 := arrayCmp_trans (b := b)
      (by rw [arrayCmp_antisymm, hbc, neg_zero]) (by rw [arrayCmp_antisymm, hab, neg_zero])
    rw [arrayCmp_antisymm] at hge
    omega

end PawnDB
