import Mathlib.Data.Fin.Basic
import Mathlib.Tactic

set_option autoImplicit false

/-! # Linear probing

Two loops over the slots of a fixed array, both moving from a start slot to the next one and
wrapping around at the end.

* `seek p` runs until it meets a slot with `p`; nothing else stops it. It is bounded by a
  fuel argument, and `seek_fuel` shows that `n` turns decide it: a loop that has made a full
  round without meeting `p` goes round for ever.
* `scan stop hit` is the lookup: at most one round, ended early by a slot with `stop`.

`Linked home used q` is what open addressing keeps of a stored slot `q`: every slot passed on
the way to it from its home slot is in use. A linked slot is what both loops find when it is
the only slot in use that fits (`seek_of_linked`, `scan_of_linked`).
-/

namespace Probing

variable {n : Nat} [NeZero n]

/-! ## Walking over the slots -/

/-- The slot reached from `start` after `j` moves. -/
def walk (start : Fin n) : Nat → Fin n
  | 0 => start
  | j + 1 => walk (start + 1) j

@[simp] theorem walk_zero (start : Fin n) : walk start 0 = start := rfl

theorem walk_succ (start : Fin n) (j : Nat) : walk start (j + 1) = walk (start + 1) j := rfl

theorem val_next (i : Fin n) : (i + 1).val = (i.val + 1) % n := by
  simp [Fin.val_add]

theorem walk_val (start : Fin n) (j : Nat) : (walk start j).val = (start.val + j) % n := by
  induction j generalizing start with
  | zero => simp [Nat.mod_eq_of_lt start.isLt]
  | succ j ih => rw [walk_succ, ih, val_next, Nat.mod_add_mod]; congr 1; omega

/-- Every slot is met within one round. -/
theorem exists_walk (start q : Fin n) : ∃ j < n, walk start j = q := by
  have hq := q.isLt
  have hs := start.isLt
  refine ⟨(q.val + n - start.val) % n, Nat.mod_lt _ (by omega), Fin.ext ?_⟩
  rw [walk_val, Nat.add_mod_mod, show start.val + (q.val + n - start.val) = q.val + n by omega,
    Nat.add_mod_right, Nat.mod_eq_of_lt hq]

/-! ## The two loops -/

/-- Go from slot to slot until one satisfies `p`, for at most `fuel` turns. -/
def seek (p : Fin n → Bool) : Nat → Fin n → Option (Fin n)
  | 0, _ => none
  | fuel + 1, i => if p i then some i else seek p fuel (i + 1)

/-- Look for a slot with `hit`, for at most `fuel` turns, giving up at one with `stop`. -/
def scan (stop hit : Fin n → Bool) : Nat → Fin n → Option (Fin n)
  | 0, _ => none
  | fuel + 1, i =>
      if stop i then none else if hit i then some i else scan stop hit fuel (i + 1)

theorem seek_eq_scan (p : Fin n → Bool) (fuel : Nat) (start : Fin n) :
    seek p fuel start = scan (fun _ => false) p fuel start := by
  induction fuel generalizing start with
  | zero => rfl
  | succ fuel ih => simp only [seek, scan, Bool.false_eq_true, if_false, ih]

theorem scan_eq_some_iff {stop hit : Fin n → Bool} {fuel : Nat} {start q : Fin n} :
    scan stop hit fuel start = some q ↔
      ∃ j < fuel, walk start j = q ∧ hit q = true ∧ stop q = false ∧
        ∀ i < j, hit (walk start i) = false ∧ stop (walk start i) = false := by
  induction fuel generalizing start with
  | zero => simp [scan]
  | succ fuel ih =>
      simp only [scan]
      by_cases hs : stop start = true
      · -- the walk stops at once, and nothing can have been found after it
        rw [if_pos hs]
        simp only [reduceCtorEq, false_iff]
        rintro ⟨j, -, hj, -, hsq, hbefore⟩
        cases j with
        | zero => rw [walk_zero] at hj; rw [hj, hsq] at hs; cases hs
        | succ j => rw [← walk_zero start, (hbefore 0 (by omega)).2] at hs; cases hs
      · rw [if_neg hs]
        by_cases hh : hit start = true
        · rw [if_pos hh]
          constructor
          · intro h
            obtain rfl := Option.some.inj h
            exact ⟨0, by omega, rfl, hh, by simpa using hs, by omega⟩
          · rintro ⟨j, -, hj, -, -, hbefore⟩
            cases j with
            | zero => rw [← hj]; rfl
            | succ j => rw [← walk_zero start, (hbefore 0 (by omega)).1] at hh; cases hh
        · -- neither here: the positions found shift by one
          rw [if_neg hh, ih]
          constructor
          · rintro ⟨j, hjf, hj, hhq, hsq, hbefore⟩
            refine ⟨j + 1, by omega, hj, hhq, hsq, fun i hi => ?_⟩
            cases i with
            | zero => exact ⟨by simpa using hh, by simpa using hs⟩
            | succ i => exact hbefore i (by omega)
          · rintro ⟨j, hjf, hj, hhq, hsq, hbefore⟩
            cases j with
            | zero => rw [walk_zero] at hj; exact absurd (hj ▸ hhq) hh
            | succ j =>
                exact ⟨j, by omega, hj, hhq, hsq, fun i hi => hbefore (i + 1) (by omega)⟩

theorem seek_eq_some_iff {p : Fin n → Bool} {fuel : Nat} {start q : Fin n} :
    seek p fuel start = some q ↔
      ∃ j < fuel, walk start j = q ∧ p q = true ∧ ∀ i < j, p (walk start i) = false := by
  rw [seek_eq_scan, scan_eq_some_iff]
  simp

theorem seek_holds {p : Fin n → Bool} {fuel : Nat} {start q : Fin n}
    (h : seek p fuel start = some q) : p q = true := by
  obtain ⟨_, _, _, hp, _⟩ := seek_eq_some_iff.mp h
  exact hp

theorem scan_holds {stop hit : Fin n → Bool} {fuel : Nat} {start q : Fin n}
    (h : scan stop hit fuel start = some q) : hit q = true ∧ stop q = false := by
  obtain ⟨_, _, _, hh, hs, _⟩ := scan_eq_some_iff.mp h
  exact ⟨hh, hs⟩

/-- The unbounded loop ends within a round as soon as some slot satisfies `p`. -/
theorem seek_isSome_iff {p : Fin n → Bool} {start : Fin n} :
    (seek p n start).isSome ↔ ∃ q, p q = true := by
  constructor
  · intro h
    obtain ⟨q, hq⟩ := Option.isSome_iff_exists.mp h
    exact ⟨q, seek_holds hq⟩
  · rintro ⟨q, hq⟩
    obtain ⟨j, hj, hw⟩ := exists_walk start q
    have hex : ∃ k, k < n ∧ p (walk start k) = true := ⟨j, hj, hw ▸ hq⟩
    classical
    have hmin := Nat.find_spec hex
    refine Option.isSome_iff_exists.mpr ⟨walk start (Nat.find hex),
      seek_eq_some_iff.mpr ⟨Nat.find hex, hmin.1, rfl, hmin.2, fun i hi => ?_⟩⟩
    have := Nat.find_min hex hi
    simp only [not_and, Bool.not_eq_true] at this
    exact this (by omega)

theorem seek_eq_none_iff {p : Fin n → Bool} {start : Fin n} :
    seek p n start = none ↔ ∀ q, p q = false := by
  rw [← Option.not_isSome_iff_eq_none, seek_isSome_iff]
  simp

/-- **A round decides the unbounded loop**: no number of further turns changes its result. -/
theorem seek_fuel {p : Fin n → Bool} {fuel : Nat} {start : Fin n} (hf : n ≤ fuel) :
    seek p fuel start = seek p n start := by
  cases h : seek p n start with
  | some q =>
      obtain ⟨j, hj, hw⟩ := seek_eq_some_iff.mp h
      exact seek_eq_some_iff.mpr ⟨j, by omega, hw⟩
  | none =>
      cases hq : seek p fuel start with
      | none => rfl
      | some q =>
          have hp := seek_holds hq
          rw [seek_eq_none_iff.mp h q] at hp
          cases hp

/-- A lookup that finds a slot agrees with the unbounded loop for the same target. -/
theorem seek_of_scan {stop hit : Fin n → Bool} {fuel : Nat} {start q : Fin n}
    (h : scan stop hit fuel start = some q) : seek hit fuel start = some q := by
  obtain ⟨j, hj, hw, hh, -, hbefore⟩ := scan_eq_some_iff.mp h
  exact seek_eq_some_iff.mpr ⟨j, hj, hw, hh, fun i hi => (hbefore i hi).1⟩

/-! ## Open addressing -/

/-- Every slot passed on the way from `home` to `q` is in use. -/
def Linked (home : Fin n) (used : Fin n → Bool) (q : Fin n) : Prop :=
  ∃ j < n, walk home j = q ∧ ∀ i < j, used (walk home i) = true

theorem Linked.mono {home : Fin n} {used used' : Fin n → Bool} {q : Fin n}
    (h : Linked home used q) (hu : ∀ i, used i = true → used' i = true) :
    Linked home used' q := by
  obtain ⟨j, hj, hw, hbefore⟩ := h
  exact ⟨j, hj, hw, fun i hi => hu _ (hbefore i hi)⟩

/-- The slot an insertion picks is linked: it passed only slots that are not free. -/
theorem linked_of_seek {home : Fin n} {free used : Fin n → Bool} {q : Fin n}
    (h : seek free n home = some q) (hu : ∀ i, free i = false → used i = true) :
    Linked home used q := by
  obtain ⟨j, hj, hw, -, hbefore⟩ := seek_eq_some_iff.mp h
  exact ⟨j, hj, hw, fun i hi => hu _ (hbefore i hi)⟩

theorem seek_of_linked {home q : Fin n} {used p : Fin n → Bool} (hl : Linked home used q)
    (hq : p q = true) (honly : ∀ i, used i = true → p i = true → i = q) :
    seek p n home = some q := by
  obtain ⟨j, hj, hw, hbefore⟩ := hl
  have hsome : (seek p n home).isSome := seek_isSome_iff.mpr ⟨q, hq⟩
  obtain ⟨r, hr⟩ := Option.isSome_iff_exists.mp hsome
  obtain ⟨k, hk, hwk, hpr, hkbefore⟩ := seek_eq_some_iff.mp hr
  rcases Nat.lt_trichotomy k j with hlt | heq | hgt
  · rw [hr, honly r (hwk ▸ hbefore k hlt) hpr]
  · rw [hr, ← hwk, heq, hw]
  · have := hkbefore j hgt
    rw [hw, hq] at this
    cases this

/-- Where several slots fit, the unbounded loop stops at one that is in use. -/
theorem exists_seek_of_linked {home q : Fin n} {used p : Fin n → Bool}
    (hl : Linked home used q) (huq : used q = true) (hq : p q = true) :
    ∃ r, seek p n home = some r ∧ p r = true ∧ used r = true := by
  obtain ⟨j, hj, hw, hbefore⟩ := hl
  obtain ⟨r, hr⟩ := Option.isSome_iff_exists.mp (seek_isSome_iff.mpr ⟨q, hq⟩)
  obtain ⟨k, hk, hwk, hpr, hkbefore⟩ := seek_eq_some_iff.mp hr
  refine ⟨r, hr, hpr, ?_⟩
  rcases Nat.lt_trichotomy k j with hlt | heq | hgt
  · rw [← hwk]
    exact hbefore k hlt
  · rwa [← hwk, heq, hw]
  · have := hkbefore j hgt
    rw [hw, hq] at this
    cases this

/-- So does the lookup. -/
theorem exists_scan_of_linked {home q : Fin n} {used p : Fin n → Bool}
    (hl : Linked home used q) (huq : used q = true) (hq : p q = true) :
    ∃ r, scan (fun i => !used i) p n home = some r ∧ p r = true ∧ used r = true := by
  obtain ⟨j, hj, hw, hbefore⟩ := hl
  have hex : ∃ k, p (walk home k) = true := ⟨j, by rw [hw, hq]⟩
  classical
  have hmin : ∀ i < Nat.find hex, p (walk home i) = false := fun i hi => by
    simpa using Nat.find_min hex hi
  -- the first slot that fits comes no later than `q`
  have hle : Nat.find hex ≤ j := Nat.find_min' hex (by rw [hw, hq])
  have hused : ∀ i ≤ j, used (walk home i) = true := fun i hi => by
    rcases Nat.lt_or_eq_of_le hi with hlt | rfl
    · exact hbefore i hlt
    · rw [hw, huq]
  refine ⟨walk home (Nat.find hex), ?_, Nat.find_spec hex, hused _ hle⟩
  refine scan_eq_some_iff.mpr ⟨Nat.find hex, by omega, rfl, Nat.find_spec hex, ?_, fun i hi => ?_⟩
  · rw [hused _ hle]
    rfl
  · rw [hused i (by omega)]
    exact ⟨hmin i hi, rfl⟩

theorem scan_of_linked {home q : Fin n} {used p : Fin n → Bool} (hl : Linked home used q)
    (huq : used q = true) (hq : p q = true)
    (honly : ∀ i, used i = true → p i = true → i = q) :
    scan (fun i => !used i) p n home = some q := by
  obtain ⟨r, hr, hpr, hur⟩ := exists_scan_of_linked hl huq hq
  rw [hr, honly r hur hpr]

end Probing
