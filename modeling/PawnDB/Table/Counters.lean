import PawnDB.Lib.LockWord
import PawnDB.Table.Rows

set_option autoImplicit false

/-! # The availability counters

`s_avail_cnt_` counts the live rows without an exclusive lock and `x_avail_cnt_` those without
any lock. No operation recomputes them: each adds or subtracts one where the row it works on
becomes available or stops being so (`counterAfter`), and `Counters.of_row` is why that is
enough.

A row is described by the number of its shared locks, so what the operations need to know of a
lock word is that it is `-1` or `Int8.ofNat s` with `s` at most 127.
-/

namespace PawnDB

open LockWord StudentTable

/-- The row is live and not locked exclusively. -/
def Row.sAvailable (r : Row) : Bool := r.live && decide (0 ≤ r.lock)

/-- The row is live and not locked at all. -/
def Row.xAvailable (r : Row) : Bool := r.live && r.lock == 0

/-- The counters are the numbers of available rows. -/
structure Counters (t : StudentTable) : Prop where
  shared : t.sAvailCnt.toNat = Slots.count fun i => (t.table i).sAvailable
  exclusive : t.xAvailCnt.toNat = Slots.count fun i => (t.table i).xAvailable

theorem counters_init : Counters StudentTable.init where
  shared := (Slots.count_eq_zero.mpr fun _ => rfl).symm
  exclusive := (Slots.count_eq_zero.mpr fun _ => rfl).symm

/-! ## Availability of a row -/

namespace Row

variable {r : Row}

theorem sAvailable_of_not_live (h : r.live = false) : r.sAvailable = false := by
  rw [sAvailable, h, Bool.false_and]

theorem xAvailable_of_not_live (h : r.live = false) : r.xAvailable = false := by
  rw [xAvailable, h, Bool.false_and]

theorem sAvailable_of_neg_one (h : r.lock = -1) : r.sAvailable = false := by
  rw [sAvailable, h]
  exact Bool.and_false _

theorem xAvailable_of_neg_one (h : r.lock = -1) : r.xAvailable = false := by
  rw [xAvailable, h]
  exact Bool.and_false _

theorem sAvailable_of_ofNat {s : Nat} (hl : r.live = true) (hs : s ≤ 127)
    (h : r.lock = Int8.ofNat s) : r.sAvailable = true := by
  rw [sAvailable, hl, h, Bool.true_and, decide_eq_true_iff, ofNat_nonneg_iff (by omega)]
  exact hs

theorem xAvailable_of_ofNat {s : Nat} (hl : r.live = true) (hs : s ≤ 127)
    (h : r.lock = Int8.ofNat s) : r.xAvailable = decide (s = 0) := by
  rw [xAvailable, hl, h, Bool.true_and, Bool.eq_iff_iff, beq_iff_eq, decide_eq_true_iff,
    ofNat_eq_zero_iff hs]

end Row

/-! ## Counting -/

/-- A counter of rows, after one row was available or not and now is or is not. -/
def counterAfter (c : TblRow) : Bool → Bool → TblRow
  | false, true => c + 1
  | true, false => c - 1
  | false, false => c
  | true, true => c

theorem counterAfter_self (c : TblRow) (b : Bool) : counterAfter c b b = c := by
  cases b
  · rfl
  · rfl

theorem counter_step {c : TblRow} {p q : Fin rows → Bool} (i : Fin rows)
    (h : c.toNat = Slots.count p) (hoff : ∀ j, j ≠ i → q j = p j) :
    (counterAfter c (p i) (q i)).toNat = Slots.count q := by
  have hcount := Slots.count_congr_off i hoff
  have hle : Slots.count p ≤ rows := (Finset.card_le_univ _).trans_eq (Fintype.card_fin _)
  have hle' : Slots.count q ≤ rows := (Finset.card_le_univ _).trans_eq (Fintype.card_fin _)
  have hrows : rows = 10 := rfl
  have hone : (1 : UInt8).toNat = 1 := rfl
  cases hp : p i <;> cases hq : q i <;>
    simp only [hp, hq, Bool.false_eq_true, if_true, if_false] at hcount
  · change c.toNat = _
    omega
  · change (c + 1).toNat = _
    rw [UInt8.toNat_add]
    omega
  · have hpos : 1 ≤ c := UInt8.le_iff_toNat_le.mpr (by omega)
    change (c - 1).toNat = _
    rw [UInt8.toNat_sub_of_le _ _ hpos]
    omega
  · change c.toNat = _
    omega

/-- **One row changes**: the counters are right if they follow its availability. -/
theorem Counters.of_row {t t' : StudentTable} {i : Fin rows} {r : Row} {b b' c c' : Bool}
    (h : Counters t) (htable : t'.table = Slots.set t.table i r)
    (hb : (t.table i).sAvailable = b) (hb' : r.sAvailable = b')
    (hs : t'.sAvailCnt = counterAfter t.sAvailCnt b b')
    (hc : (t.table i).xAvailable = c) (hc' : r.xAvailable = c')
    (hx : t'.xAvailCnt = counterAfter t.xAvailCnt c c') : Counters t' where
  shared := by
    have hstep := counter_step (p := fun j => (t.table j).sAvailable)
      (q := fun j => (t'.table j).sAvailable) i h.shared fun j hj => by
        rw [htable, Slots.set_of_ne _ _ hj]
    rwa [hb, htable, Slots.set_self, hb', ← hs, ← htable] at hstep
  exclusive := by
    have hstep := counter_step (p := fun j => (t.table j).xAvailable)
      (q := fun j => (t'.table j).xAvailable) i h.exclusive fun j hj => by
        rw [htable, Slots.set_of_ne _ _ hj]
    rwa [hc, htable, Slots.set_self, hc', ← hx, ← htable] at hstep

/-! ## The operations -/

namespace Counters

variable {t t' : StudentTable} {i : Fin rows}

theorem insert (h : Counters t) {tuple : StudentTuple}
    (hi : t.traitInsert tuple = some (i, t')) : Counters t' := by
  have hr := traitInsert_some hi
  have hcnt : t'.sAvailCnt = t.sAvailCnt + 1 ∧ t'.xAvailCnt = t.xAvailCnt + 1 := by
    unfold traitInsert at hi
    split at hi
    · cases hi
    split at hi
    · cases hi
    · cases hi
      exact ⟨rfl, rfl⟩
  exact h.of_row hr.table (Row.sAvailable_of_not_live hr.notLive) rfl hcnt.1
    (Row.xAvailable_of_not_live hr.notLive) rfl hcnt.2

/-- The row that is removed is locked exclusively, so it was not counted. -/
theorem remove (h : Counters t) (hw : t.Wf) {key : TblRow} (hrow : t.IsRow key i)
    (hlock : (t.table i).lock = -1) (hr : t.traitRemove key = some t') : Counters t' := by
  rw [traitRemove, seekKey_of_isRow hw hrow] at hr
  cases hr
  exact h.of_row rfl (Row.sAvailable_of_neg_one hlock) (Row.sAvailable_of_neg_one hlock) rfl
    (Row.xAvailable_of_neg_one hlock) (Row.xAvailable_of_neg_one hlock) rfl

theorem write (h : Counters t) {tuple : StudentTuple} (hr : t.traitWrite tuple = some t') :
    Counters t' := by
  unfold traitWrite at hr
  split at hr
  · cases hr
  · cases hr
    exact h.of_row rfl rfl rfl (counterAfter_self _ _).symm rfl rfl (counterAfter_self _ _).symm

/-- A row with `s` shared locks gets one more. -/
theorem share (h : Counters t) {s : Nat} (hl : t.live i = true) (hs : s < 127)
    (hlock : (t.table i).lock = Int8.ofNat s) :
    Counters { t.setRow i { t.table i with lock := (t.table i).lock + 1 } with
      xAvailCnt := if (t.table i).lock + 1 = 1 then t.xAvailCnt - 1 else t.xAvailCnt } := by
  have hlock' : (t.table i).lock + 1 = Int8.ofNat (s + 1) := by rw [hlock, ofNat_succ]
  refine h.of_row rfl (Row.sAvailable_of_ofNat hl (by omega) hlock)
    (Row.sAvailable_of_ofNat (s := s + 1) hl (by omega) hlock') rfl
    (Row.xAvailable_of_ofNat hl (by omega) hlock)
    (Row.xAvailable_of_ofNat (s := s + 1) hl (by omega) hlock') ?_
  -- only the first shared lock makes the row unavailable for an exclusive one
  dsimp only
  have hone : (t.table i).lock + 1 = 1 ↔ s = 0 := by
    rw [hlock', ofNat_eq_one_iff (by omega)]
    omega
  by_cases hz : s = 0
  · rw [if_pos (hone.mpr hz), decide_eq_true hz]
    rfl
  · rw [if_neg (mt hone.mp hz), decide_eq_false hz]
    rfl

theorem lockExclusive (h : Counters t) (hl : t.live i = true) (hlock : (t.table i).lock = 0) :
    Counters { t.setRow i { t.table i with lock := -1 } with
      xAvailCnt := t.xAvailCnt - 1
      sAvailCnt := t.sAvailCnt - 1 } :=
  h.of_row rfl (Row.sAvailable_of_ofNat (s := 0) hl (by omega) hlock)
    (Row.sAvailable_of_neg_one rfl) rfl
    (Row.xAvailable_of_ofNat (s := 0) hl (by omega) hlock) (Row.xAvailable_of_neg_one rfl) rfl

/-- A row with one shared lock does not count as available for an exclusive one. -/
theorem promote (h : Counters t) (hl : t.live i = true) (hlock : (t.table i).lock = 1) :
    Counters { t.setRow i { t.table i with lock := -1 } with
      sAvailCnt := t.sAvailCnt - 1 } :=
  h.of_row rfl (Row.sAvailable_of_ofNat (s := 1) hl (by omega) hlock)
    (Row.sAvailable_of_neg_one rfl) rfl
    (Row.xAvailable_of_ofNat (s := 1) hl (by omega) hlock) (Row.xAvailable_of_neg_one rfl) rfl

theorem releaseExclusive (h : Counters t) (hl : t.live i = true)
    (hlock : (t.table i).lock = -1) :
    Counters { t.setRow i { t.table i with lock := 0 } with
      xAvailCnt := t.xAvailCnt + 1
      sAvailCnt := t.sAvailCnt + 1 } :=
  h.of_row rfl (Row.sAvailable_of_neg_one hlock)
    (Row.sAvailable_of_ofNat (s := 0) hl (by omega) rfl) rfl
    (Row.xAvailable_of_neg_one hlock) (Row.xAvailable_of_ofNat (s := 0) hl (by omega) rfl) rfl

/-- A row with `s + 1` shared locks loses one. -/
theorem releaseShared (h : Counters t) {s : Nat} (hl : t.live i = true) (hs : s < 127)
    (hlock : (t.table i).lock = Int8.ofNat (s + 1)) :
    Counters { t.setRow i { t.table i with lock := (t.table i).lock - 1 } with
      xAvailCnt := if (t.table i).lock - 1 = 0 then t.xAvailCnt + 1 else t.xAvailCnt } := by
  have hlock' : (t.table i).lock - 1 = Int8.ofNat s := by rw [hlock, ofNat_succ_sub]
  refine h.of_row rfl (Row.sAvailable_of_ofNat (s := s + 1) hl (by omega) hlock)
    (Row.sAvailable_of_ofNat (s := s) hl (by omega) hlock') rfl
    (Row.xAvailable_of_ofNat (s := s + 1) hl (by omega) hlock)
    (Row.xAvailable_of_ofNat (s := s) hl (by omega) hlock') ?_
  -- the last shared lock makes it available again
  dsimp only
  have hzero : (t.table i).lock - 1 = 0 ↔ s = 0 := by
    rw [hlock', ofNat_eq_zero_iff (by omega)]
  by_cases hz : s = 0
  · rw [if_pos (hzero.mpr hz), decide_eq_true hz]
    rfl
  · rw [if_neg (mt hzero.mp hz), decide_eq_false hz]
    rfl

/-! ## The waits -/

theorem exists_of_ne_zero {c : TblRow} {p : Fin rows → Bool} (h : c.toNat = Slots.count p)
    (hc : c ≠ 0) : ∃ i, p i = true := by
  refine Slots.exists_of_count_pos ?_
  rw [← h, Nat.pos_iff_ne_zero]
  exact fun hz => hc (UInt8.toNat_inj.mp hz)

theorem firstRow_isSome {p : Row → Bool} (h : ∃ i, ((t.table i).live && p (t.table i)) = true) :
    t.firstRow p ≠ none := by
  obtain ⟨i, hi⟩ := h
  rw [firstRow, Ne, List.find?_eq_none]
  exact fun hall => hall i (List.mem_finRange i) hi

/-- A wait that sees an available row finds one. -/
theorem waitShared_ne_notFound (h : Counters t) : t.traitWaitShared.1 ≠ .error .notFound := by
  unfold traitWaitShared
  split
  · exact fun he => by cases he
  split
  · exact fun he => by cases he
  next hc =>
    split
    · next hnone => exact absurd hnone (firstRow_isSome (exists_of_ne_zero h.shared hc))
    · exact fun he => by cases he

theorem waitExclusive_ne_notFound (h : Counters t) :
    t.traitWaitExclusive.1 ≠ .error .notFound := by
  unfold traitWaitExclusive
  split
  · exact fun he => by cases he
  split
  · exact fun he => by cases he
  next hc =>
    split
    · next hnone => exact absurd hnone (firstRow_isSome (exists_of_ne_zero h.exclusive hc))
    · exact fun he => by cases he

end Counters

end PawnDB
