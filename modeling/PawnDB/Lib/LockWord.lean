import Mathlib.Data.Int.Init
import Mathlib.Tactic

set_option autoImplicit false

/-! # Lock words

A readers–writer lock kept in one signed byte: `-1` while it is held exclusively and the
number of shared locks otherwise. `Shows l s x` says that the word `l` stands for `s` shared
and `x` exclusive locks. The byte has room for 127 shared locks; the one after that makes it
negative, and since a negative word is granted to nobody the count stops there.

The lemmas say what each operation on the word does to the locks it stands for, and what a
word that is tested against `-1`, `0` or `1` tells about them.
-/

namespace LockWord

/-- The word `l` stands for `s` shared and `x` exclusive locks. -/
def Shows (l : Int8) (s x : Nat) : Prop :=
  (x = 0 ∧ s ≤ 128 ∧ l = Int8.ofNat s) ∨ (x = 1 ∧ s = 0 ∧ l = -1)

theorem shows_zero : Shows 0 0 0 := Or.inl ⟨rfl, by omega, rfl⟩

/-- The value of the word for `s` shared locks. -/
theorem toInt_ofNat {s : Nat} (h : s ≤ 127) : (Int8.ofNat s).toInt = s :=
  Int8.toInt_ofNat_of_lt (by omega)

theorem ofNat_nonneg_iff {s : Nat} (h : s ≤ 128) : 0 ≤ Int8.ofNat s ↔ s ≤ 127 := by
  rw [Int8.le_iff_toInt_le]
  rcases Nat.lt_or_ge s 128 with hs | hs
  · rw [toInt_ofNat (by omega)]
    have : (0 : Int8).toInt = 0 := rfl
    omega
  · obtain rfl : s = 128 := by omega
    decide

theorem ofNat_ne_neg_one {s : Nat} (h : s ≤ 128) : Int8.ofNat s ≠ -1 := by
  intro he
  rcases Nat.lt_or_ge s 128 with hs | hs
  · have := congrArg Int8.toInt he
    rw [toInt_ofNat (by omega), show (-1 : Int8).toInt = -1 from rfl] at this
    omega
  · obtain rfl : s = 128 := by omega
    exact absurd he (by decide)

theorem ofNat_eq_zero_iff {s : Nat} (h : s ≤ 127) : Int8.ofNat s = 0 ↔ s = 0 := by
  rw [← Int8.toInt_inj, toInt_ofNat h, Int8.toInt_zero]
  omega

theorem ofNat_eq_one_iff {s : Nat} (h : s ≤ 127) : Int8.ofNat s = 1 ↔ s = 1 := by
  rw [← Int8.toInt_inj, toInt_ofNat h, show (1 : Int8).toInt = 1 from rfl]
  omega

theorem ofNat_succ (s : Nat) : Int8.ofNat s + 1 = Int8.ofNat (s + 1) := by
  rw [Int8.ofNat_add]
  rfl

theorem ofNat_succ_sub (s : Nat) : Int8.ofNat (s + 1) - 1 = Int8.ofNat s := by
  rw [← ofNat_succ, Int8.add_sub_cancel]

/-! ## Reading the word -/

variable {l : Int8} {s x : Nat}

theorem Shows.of_eq_neg_one (h : Shows l s x) (hl : l = -1) : x = 1 ∧ s = 0 := by
  rcases h with ⟨-, hs, rfl⟩ | ⟨hx, hs, -⟩
  · exact absurd hl (ofNat_ne_neg_one hs)
  · exact ⟨hx, hs⟩

/-- A word that does not show an exclusive lock is the number of shared ones. -/
theorem Shows.eq_ofNat_of_ne (h : Shows l s x) (hl : l ≠ -1) : l = Int8.ofNat s := by
  rcases h with ⟨-, -, h⟩ | ⟨-, -, h⟩
  · exact h
  · exact absurd h hl

theorem Shows.eq_ofNat (h : Shows l s x) (hl : 0 ≤ l) : s ≤ 127 ∧ l = Int8.ofNat s := by
  rcases h with ⟨-, hs, rfl⟩ | ⟨-, -, rfl⟩
  · exact ⟨(ofNat_nonneg_iff hs).mp hl, rfl⟩
  · exact absurd hl (by decide)

theorem Shows.of_nonneg (h : Shows l s x) (hl : 0 ≤ l) : x = 0 ∧ l.toInt = s := by
  rcases h with ⟨hx, hs, rfl⟩ | ⟨-, -, rfl⟩
  · exact ⟨hx, toInt_ofNat ((ofNat_nonneg_iff hs).mp hl)⟩
  · exact absurd hl (by decide)

theorem Shows.of_eq_zero (h : Shows l s x) (hl : l = 0) : x = 0 ∧ s = 0 := by
  obtain ⟨hx, hs⟩ := h.of_nonneg (by rw [hl]; decide)
  rw [hl] at hs
  exact ⟨hx, by simpa using hs.symm⟩

theorem Shows.of_eq_one (h : Shows l s x) (hl : l = 1) : x = 0 ∧ s = 1 := by
  obtain ⟨hx, hs⟩ := h.of_nonneg (by rw [hl]; decide)
  rw [hl, show (1 : Int8).toInt = 1 from rfl] at hs
  exact ⟨hx, by omega⟩

/-- **An exclusive lock is the only lock.** -/
theorem Shows.exclusion (h : Shows l s x) (hx : 0 < x) : x = 1 ∧ s = 0 ∧ l = -1 := by
  rcases h with ⟨h0, -, -⟩ | h
  · omega
  · exact h

theorem Shows.eq_zero (h : Shows l 0 0) : l = 0 := by
  rcases h with ⟨-, -, h⟩ | ⟨h, -⟩
  · exact h
  · omega

/-! ## Operations -/

theorem Shows.grant_shared (h : Shows l s x) (hl : 0 ≤ l) : Shows (l + 1) (s + 1) x := by
  rcases h with ⟨hx, hs, rfl⟩ | ⟨-, -, rfl⟩
  · have := (ofNat_nonneg_iff hs).mp hl
    exact Or.inl ⟨hx, by omega, ofNat_succ s⟩
  · exact absurd hl (by decide)

theorem Shows.grant_exclusive (h : Shows l s x) (hl : l = 0) : Shows (-1) s (x + 1) := by
  obtain ⟨hx, hs⟩ := h.of_eq_zero hl
  exact Or.inr ⟨by omega, hs, rfl⟩

theorem Shows.promote (h : Shows l (s + 1) x) (hl : l = 1) : Shows (-1) s (x + 1) := by
  obtain ⟨hx, hs⟩ := h.of_eq_one hl
  exact Or.inr ⟨by omega, by omega, rfl⟩

theorem Shows.release_shared (h : Shows l (s + 1) x) : l ≠ -1 ∧ Shows (l - 1) s x := by
  rcases h with ⟨hx, hs, rfl⟩ | ⟨-, hs, -⟩
  · exact ⟨ofNat_ne_neg_one hs, Or.inl ⟨hx, by omega, ofNat_succ_sub s⟩⟩
  · omega

theorem Shows.release_exclusive (h : Shows l s (x + 1)) : l = -1 ∧ Shows 0 s x := by
  obtain ⟨hx, hs, hl⟩ := h.exclusion (by omega)
  exact ⟨hl, Or.inl ⟨by omega, by omega, by rw [hs]; rfl⟩⟩

end LockWord
