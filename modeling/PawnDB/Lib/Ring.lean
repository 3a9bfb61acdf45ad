import Mathlib.Data.Fin.Basic
import Mathlib.Data.List.Basic
import Mathlib.Tactic
import PawnDB.Lib.Probing
import PawnDB.Lib.Slots

set_option autoImplicit false

/-! # Windows of a ring

A ring buffer keeps its contents in `len` consecutive slots of an array, from a start slot on
and wrapping around. `window slots start len` is that list. Writing the slot after the window
appends (`window_push`), moving the start one slot on drops the first element (`window_pop`),
whose slot may then be cleared (`window_clear`). `Stored` puts this together for a ring that keeps
where its contents begin and end and how many they are.

`Inside start len i` says that slot `i` is one of the window's. A property of the slots that is
counted over the slots inside is counted over the window (`count_window`).
-/

namespace Ring

open Probing

variable {n : Nat} [NeZero n] {α : Type}

/-- The contents of `len` consecutive slots. -/
def window (slots : Fin n → α) : Fin n → Nat → List α
  | _, 0 => []
  | start, len + 1 => slots start :: window slots (start + 1) len

@[simp] theorem window_zero (slots : Fin n → α) (start : Fin n) : window slots start 0 = [] :=
  rfl

/-- Taking the first element moves the start. -/
theorem window_pop (slots : Fin n → α) (start : Fin n) (len : Nat) :
    window slots start (len + 1) = slots start :: window slots (start + 1) len := rfl

@[simp] theorem window_length (slots : Fin n → α) (start : Fin n) (len : Nat) :
    (window slots start len).length = len := by
  induction len generalizing start with
  | zero => rfl
  | succ len ih => rw [window_pop, List.length_cons, ih]

/-- A window of images. -/
theorem window_map {β : Type} (f : α → β) (slots : Fin n → α) (start : Fin n) (len : Nat) :
    window (fun i => f (slots i)) start len = (window slots start len).map f := by
  induction len generalizing start with
  | zero => rfl
  | succ len ih => rw [window_pop, window_pop, List.map_cons, ih]

theorem walk_injective_of_lt {start : Fin n} {i j : Nat} (hi : i < n) (hj : j < n)
    (h : walk start i = walk start j) : i = j := by
  have hv := congrArg Fin.val h
  rw [walk_val, walk_val] at hv
  have hs := start.isLt
  rcases Nat.lt_or_ge (start.val + i) n with h1 | h1 <;>
    rcases Nat.lt_or_ge (start.val + j) n with h2 | h2
  · rw [Nat.mod_eq_of_lt h1, Nat.mod_eq_of_lt h2] at hv; omega
  · rw [Nat.mod_eq_of_lt h1, Nat.mod_eq_sub_mod h2, Nat.mod_eq_of_lt (by omega)] at hv; omega
  · rw [Nat.mod_eq_sub_mod h1, Nat.mod_eq_of_lt (by omega), Nat.mod_eq_of_lt h2] at hv; omega
  · rw [Nat.mod_eq_sub_mod h1, Nat.mod_eq_of_lt (by omega), Nat.mod_eq_sub_mod h2,
      Nat.mod_eq_of_lt (by omega)] at hv
    omega

/-- A write outside the window is not seen. -/
theorem window_set_of_ne (slots : Fin n → α) (q : Fin n) (x : α) :
    ∀ (start : Fin n) (len : Nat), (∀ j < len, walk start j ≠ q) →
      window (Slots.set slots q x) start len = window slots start len
  | _, 0, _ => rfl
  | start, len + 1, h => by
      have h0 : start ≠ q := h 0 (by omega)
      rw [window_pop, window_pop, Slots.set_of_ne _ _ h0,
        window_set_of_ne slots q x (start + 1) len fun j hj => h (j + 1) (by omega)]

theorem window_succ_last (slots : Fin n → α) :
    ∀ (start : Fin n) (len : Nat),
      window slots start (len + 1) = window slots start len ++ [slots (walk start len)]
  | _, 0 => rfl
  | start, len + 1 => by
      rw [window_pop, window_succ_last slots (start + 1) len]
      rfl

/-- **Writing the slot after the window appends to it.** -/
theorem window_push (slots : Fin n → α) (start : Fin n) (len : Nat) (x : α) (h : len < n) :
    window (Slots.set slots (walk start len) x) start (len + 1)
      = window slots start len ++ [x] := by
  rw [window_succ_last, Slots.set_self, window_set_of_ne]
  intro j hj he
  exact absurd (walk_injective_of_lt (by omega) h he) (by omega)

/-- **Clearing the slot that was dropped leaves the rest of the window alone.** -/
theorem window_clear (slots : Fin n → α) (start : Fin n) (len : Nat) (x : α) (h : len < n) :
    window (Slots.set slots start x) (start + 1) len = window slots (start + 1) len := by
  apply window_set_of_ne
  intro j hj he
  rw [← walk_succ] at he
  exact absurd (walk_injective_of_lt (by omega) (by omega) (he.trans (walk_zero start).symm))
    (by omega)

theorem walk_add_one (start : Fin n) (j : Nat) : walk start j + 1 = walk start (j + 1) := by
  apply Fin.ext
  rw [val_next, walk_val, walk_val, Nat.mod_add_mod]
  rfl

/-! ## Slots inside and outside -/

/-- Slot `i` is one of the `len` slots from `start` on. -/
def Inside (start : Fin n) (len : Nat) (i : Fin n) : Prop := ∃ j, j < len ∧ walk start j = i

instance decidableInside (start : Fin n) (len : Nat) (i : Fin n) : Decidable (Inside start len i) :=
  inferInstanceAs (Decidable (∃ j, j < len ∧ walk start j = i))

variable {start i : Fin n} {len : Nat} {slots : Fin n → α}

theorem not_inside_zero : ¬ Inside start 0 i := by
  rintro ⟨j, hj, _⟩
  omega

/-- The slots inside a window are its first one and those inside the rest. -/
theorem inside_succ : Inside start (len + 1) i ↔ i = start ∨ Inside (start + 1) len i := by
  constructor
  · rintro ⟨j, hj, hji⟩
    cases j with
    | zero => exact Or.inl (hji.symm.trans (walk_zero start))
    | succ j => exact Or.inr ⟨j, by omega, by rw [← walk_succ]; exact hji⟩
  · intro h
    rcases h with rfl | ⟨j, hj, hji⟩
    · exact ⟨0, by omega, walk_zero i⟩
    · exact ⟨j + 1, by omega, by rw [walk_succ]; exact hji⟩

/-- The slots inside a window are its last one and those before. -/
theorem inside_succ_last :
    Inside start (len + 1) i ↔ Inside start len i ∨ i = walk start len := by
  constructor
  · rintro ⟨j, hj, hji⟩
    by_cases hlast : j = len
    · exact Or.inr (by rw [← hji, hlast])
    · exact Or.inl ⟨j, by omega, hji⟩
  · intro h
    rcases h with ⟨j, hj, hji⟩ | rfl
    · exact ⟨j, by omega, hji⟩
    · exact ⟨len, by omega, rfl⟩

/-- A slot that was dropped is outside. -/
theorem not_inside_dropped (h : len < n) : ¬ Inside (start + 1) len start := by
  rintro ⟨j, hj, hji⟩
  rw [← walk_succ] at hji
  have := walk_injective_of_lt (by omega) (by omega) (hji.trans (walk_zero start).symm)
  omega

/-- The elements of a window are those of the slots inside. -/
theorem mem_window {x : α} :
    x ∈ window slots start len ↔ ∃ i, Inside start len i ∧ slots i = x := by
  induction len generalizing start with
  | zero => simp [not_inside_zero]
  | succ len ih =>
      rw [window_pop, List.mem_cons, ih]
      constructor
      · intro h
        rcases h with h | ⟨i, hi, hx⟩
        · exact ⟨start, inside_succ.mpr (Or.inl rfl), h.symm⟩
        · exact ⟨i, inside_succ.mpr (Or.inr hi), hx⟩
      · rintro ⟨i, hi, hx⟩
        rcases inside_succ.mp hi with rfl | hi
        · exact Or.inl hx.symm
        · exact Or.inr ⟨i, hi, hx⟩

/-- **Counting over the slots inside is counting over the window**, as long as no slot is inside
twice. -/
theorem count_window (p : α → Bool) (h : len ≤ n) :
    Slots.count (fun i => decide (Inside start len i) && p (slots i))
      = (window slots start len).countP p := by
  induction len generalizing start with
  | zero =>
      apply Slots.count_eq_zero.mpr
      intro i
      rw [decide_eq_false not_inside_zero, Bool.false_and]
  | succ len ih =>
      -- only the first slot is in this window and not in the rest of it
      have hoff : ∀ i, i ≠ start → (decide (Inside start (len + 1) i) && p (slots i))
          = (decide (Inside (start + 1) len i) && p (slots i)) := by
        intro i hi
        have : Inside start (len + 1) i ↔ Inside (start + 1) len i := by
          rw [inside_succ, or_iff_right hi]
        rw [decide_eq_decide.mpr this]
      have hc := Slots.count_congr_off start hoff
      rw [decide_eq_false (not_inside_dropped h), decide_eq_true (inside_succ.mpr (Or.inl rfl)),
        ih (by omega)] at hc
      rw [window_pop, List.countP_cons]
      simpa using hc

/-! ## Ring buffers -/

/-- A ring whose contents begin at `start`, end before `stop` and are the list `l`. -/
structure Stored (slots : Fin n → α) (start stop : Fin n) (len : Nat) (l : List α) : Prop where
  window : window slots start len = l
  stop : stop = walk start len
  room : len ≤ n

namespace Stored

variable {slots : Fin n → α} {start stop : Fin n} {len : Nat} {l : List α} {x : α}

theorem nil (slots : Fin n → α) (start : Fin n) : Stored slots start start 0 [] :=
  ⟨rfl, rfl, Nat.zero_le n⟩

theorem length_eq (h : Stored slots start stop len l) : l.length = len := by
  rw [← h.window, window_length]

/-- Writing at `stop` appends. -/
theorem push (h : Stored slots start stop len l) (hlen : len < n) (x : α) :
    Stored (Slots.set slots stop x) start (stop + 1) (len + 1) (l ++ [x]) where
  window := by rw [h.stop, window_push slots start len x hlen, h.window]
  stop := by rw [h.stop, walk_add_one]
  room := hlen

/-- The slot at `start` has the first element. -/
theorem head_eq (h : Stored slots start stop len (x :: l)) : slots start = x := by
  have hlen : len = l.length + 1 := h.length_eq.symm
  have hw := h.window
  rw [hlen, window_pop] at hw
  exact (List.cons.inj hw).1

/-- Moving `start` one slot on drops the first element. -/
theorem pop (h : Stored slots start stop (len + 1) (x :: l)) :
    Stored slots (start + 1) stop len l where
  window := (List.cons.inj h.window).2
  stop := h.stop
  room := Nat.le_of_succ_le h.room

/-- The slot of a dropped element may be cleared. -/
theorem pop_clear (h : Stored slots start stop (len + 1) (x :: l)) (y : α) :
    Stored (Slots.set slots start y) (start + 1) stop len l where
  window := by
    rw [window_clear slots start len y h.room]
    exact h.pop.window
  stop := h.stop
  room := h.pop.room

end Stored

end Ring
