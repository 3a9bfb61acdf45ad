import PawnDB.Table.Coupled
import PawnDB.Table.Counters
import PawnDB.Table.FiniteMap

set_option autoImplicit false

/-! # Clients of the table

Any number of clients use one table and follow the rules of locking: a client promotes only a
row that it shares, releases only a row that it holds, and writes or removes only a row that it
holds exclusively. What each client holds is a list of `Hold`s; a client that obtains a row
twice has two of them.

Along every such history the lock words are the holds (`Coupled`), the availability counters
are the numbers of available rows (`Counters`), and so a wait that is told that there is a row
finds one.
-/

namespace PawnDB

open LockWord StudentTable

/-- A client holds a row. -/
structure Hold (C : Type) where
  client : C
  key : TblRow
  type : LockType
  deriving DecidableEq

/-- The table and who holds what. -/
structure ClientTable (C : Type) where
  counted : CountedTable
  holds : List (Hold C)

namespace ClientTable

variable {C : Type} [DecidableEq C]

def init : ClientTable C := ⟨CountedTable.init, []⟩

abbrev table (s : ClientTable C) : StudentTable := s.counted.table

/-- The number of holds of one type on a key. -/
def heldIn (l : List (Hold C)) (type : LockType) (key : TblRow) : Nat :=
  l.countP fun h => decide (type = h.type ∧ key = h.key)

variable (s : ClientTable C)

/-- The rules of locking. -/
def mayDo (c : C) : StudentOp → Bool
  | .insert _ | .search _ | .waitShared | .waitExclusive => true
  | .promote key => decide (⟨c, key, .shared⟩ ∈ s.holds)
  | .release key => decide (⟨c, key, .shared⟩ ∈ s.holds ∨ ⟨c, key, .exclusive⟩ ∈ s.holds)
  | .remove key => decide (⟨c, key, .exclusive⟩ ∈ s.holds)
  | .write tuple => decide (⟨c, tuple.key, .exclusive⟩ ∈ s.holds)
  | .clear => false

/-- The holds after an operation that returned `out`. -/
def holdsAfter (c : C) : StudentOp → List StudentResult → List (Hold C)
  | .waitShared, [.tupleTable (.ok tuple)] => ⟨c, tuple.key, .shared⟩ :: s.holds
  | .waitExclusive, [.tupleTable (.ok tuple)] => ⟨c, tuple.key, .exclusive⟩ :: s.holds
  | .promote key, [.promoted (.ok ())] =>
      ⟨c, key, .exclusive⟩ :: s.holds.erase ⟨c, key, .shared⟩
  | .release key, _ =>
      if ⟨c, key, .exclusive⟩ ∈ s.holds then s.holds.erase ⟨c, key, .exclusive⟩
      else s.holds.erase ⟨c, key, .shared⟩
  | .remove key, _ => s.holds.erase ⟨c, key, .exclusive⟩
  | _, _ => s.holds

/-- One client does one operation. -/
def step (a : C × StudentOp) : Option (ClientTable C × List StudentResult) :=
  if s.mayDo a.1 a.2 then
    (s.counted.step a.2).map fun r => (⟨r.1, s.holdsAfter a.1 a.2 r.2⟩, r.2)
  else none

def machine : Machine (ClientTable C) (C × StudentOp) StudentResult := ⟨step⟩

/-! ## Holds -/

variable {s} {s' : ClientTable C} {c : C} {op : StudentOp} {out : List StudentResult}

theorem holdsAfter_release (key : TblRow) : s.holdsAfter c (.release key) out
    = if ⟨c, key, .exclusive⟩ ∈ s.holds then s.holds.erase ⟨c, key, .exclusive⟩
      else s.holds.erase ⟨c, key, .shared⟩ := rfl

omit [DecidableEq C] in
theorem heldIn_cons (h : Hold C) (l : List (Hold C)) (type : LockType) (key : TblRow) :
    heldIn (h :: l) type key
      = heldIn l type key + if type = h.type ∧ key = h.key then 1 else 0 := by
  rw [heldIn, List.countP_cons, heldIn]
  simp only [decide_eq_true_eq]

theorem heldIn_erase {h : Hold C} {l : List (Hold C)} (hm : h ∈ l) (type : LockType)
    (key : TblRow) : heldIn l type key
      = heldIn (l.erase h) type key + if type = h.type ∧ key = h.key then 1 else 0 := by
  rw [← heldIn_cons]
  exact (List.perm_cons_erase hm).countP_eq _

omit [DecidableEq C] in
theorem heldIn_pos {h : Hold C} {l : List (Hold C)} (hm : h ∈ l) :
    0 < heldIn l h.type h.key :=
  List.countP_pos_iff.mpr ⟨h, hm, by simp⟩

omit [DecidableEq C] in
theorem heldIn_le_length (l : List (Hold C)) (type : LockType) (key : TblRow) :
    heldIn l type key ≤ l.length := List.countP_le_length

/-- What a step does. -/
inductive Did (s : ClientTable C) (c : C) : StudentOp → ClientTable C → Prop
  | inserted {tuple : StudentTuple} {i : Fin rows} {t' : StudentTable} :
      s.table.traitInsert tuple = some (i, t') →
      Did s c (.insert tuple) ⟨⟨t', s.counted.inserts + 1⟩, s.holds⟩
  | same {op : StudentOp} : Did s c op s
  | shared {tuple : StudentTuple} {t' : StudentTable} :
      s.table.traitWaitShared = (.ok tuple, t') →
      Did s c .waitShared
        ⟨⟨t', s.counted.inserts⟩, ⟨c, tuple.key, .shared⟩ :: s.holds⟩
  | exclusive {tuple : StudentTuple} {t' : StudentTable} :
      s.table.traitWaitExclusive = (.ok tuple, t') →
      Did s c .waitExclusive
        ⟨⟨t', s.counted.inserts⟩, ⟨c, tuple.key, .exclusive⟩ :: s.holds⟩
  | promoted {key : TblRow} {t' : StudentTable} :
      ⟨c, key, .shared⟩ ∈ s.holds → s.table.traitPromote key = some (.ok (), t') →
      Did s c (.promote key) ⟨⟨t', s.counted.inserts⟩,
        ⟨c, key, .exclusive⟩ :: s.holds.erase ⟨c, key, .shared⟩⟩
  | released {key : TblRow} {type : LockType} {t' : StudentTable} :
      ⟨c, key, type⟩ ∈ s.holds → s.table.traitRelease key = some t' →
      Did s c (.release key) ⟨⟨t', s.counted.inserts⟩, s.holds.erase ⟨c, key, type⟩⟩
  | removed {key : TblRow} {t' : StudentTable} :
      ⟨c, key, .exclusive⟩ ∈ s.holds → s.table.traitRemove key = some t' →
      Did s c (.remove key) ⟨⟨t', s.counted.inserts⟩, s.holds.erase ⟨c, key, .exclusive⟩⟩
  | written {tuple : StudentTuple} {t' : StudentTable} :
      ⟨c, tuple.key, .exclusive⟩ ∈ s.holds → s.table.traitWrite tuple = some t' →
      Did s c (.write tuple) ⟨⟨t', s.counted.inserts⟩, s.holds⟩

/-- A step is allowed, and the table does it. -/
theorem step_some (h : machine.step s (c, op) = some (s', out)) :
    s.mayDo c op = true ∧ CountedTable.machine.step s.counted op = some (s'.counted, out) ∧
      s'.holds = s.holdsAfter c op out := by
  change s.step (c, op) = _ at h
  unfold step at h
  split at h
  · next hmay =>
      obtain ⟨r, hr, heq⟩ := Option.map_eq_some_iff.mp h
      cases heq
      exact ⟨hmay, hr, rfl⟩
  · cases h

theorem step_did (h : machine.step s (c, op) = some (s', out)) : s.Did c op s' := by
  obtain ⟨hmay, hstep, hholds⟩ := step_some h
  obtain ⟨⟨t', n⟩, holds⟩ := s'
  dsimp only at hstep hholds
  subst hholds
  change s.counted.step op = _ at hstep
  cases op with
  | insert tuple =>
      obtain ⟨⟨i, t'⟩, hi, heq⟩ := Option.map_eq_some_iff.mp hstep
      cases heq
      exact .inserted hi
  | search key =>
      rw [← (Prod.mk.inj (Option.some.inj hstep)).1]
      exact .same
  | remove key =>
      -- the guard of the machine is that the client holds the lock
      simp only [CountedTable.step] at hstep
      rw [mayDo, decide_eq_true_iff] at hmay
      split at hstep
      · obtain ⟨t', ht', heq⟩ := Option.map_eq_some_iff.mp hstep
        cases heq
        exact .removed hmay ht'
      · cases hstep
  | write tuple =>
      simp only [CountedTable.step] at hstep
      rw [mayDo, decide_eq_true_iff] at hmay
      split at hstep
      · obtain ⟨t', ht', heq⟩ := Option.map_eq_some_iff.mp hstep
        cases heq
        exact .written hmay ht'
      · cases hstep
  | clear => cases hmay
  | waitShared =>
      rcases hw : s.table.traitWaitShared with ⟨_ | tuple, t'⟩
      · have hsame := traitWaitShared_error hw
        rw [CountedTable.step, hw] at hstep
        cases hstep
        subst hsame
        exact .same
      · rw [CountedTable.step, hw] at hstep
        cases hstep
        exact .shared hw
  | waitExclusive =>
      rcases hw : s.table.traitWaitExclusive with ⟨_ | tuple, t'⟩
      · have hsame := traitWaitExclusive_error hw
        rw [CountedTable.step, hw] at hstep
        cases hstep
        subst hsame
        exact .same
      · rw [CountedTable.step, hw] at hstep
        cases hstep
        exact .exclusive hw
  | promote key =>
      simp only [CountedTable.step] at hstep
      rw [mayDo, decide_eq_true_iff] at hmay
      split at hstep
      · obtain ⟨⟨_ | _, t'⟩, ht', heq⟩ := Option.map_eq_some_iff.mp hstep
        · have hsame := traitPromote_error ht'
          cases heq
          subst hsame
          exact .same
        · cases heq
          exact .promoted hmay ht'
      · cases hstep
  | release key =>
      simp only [CountedTable.step] at hstep
      rw [mayDo, decide_eq_true_iff] at hmay
      split at hstep
      · obtain ⟨t', ht', heq⟩ := Option.map_eq_some_iff.mp hstep
        cases heq
        rw [holdsAfter_release]
        split
        · next hx => exact .released hx ht'
        · next hx => exact .released (hmay.resolve_right hx) ht'
      · cases hstep

/-! ## The invariant -/

/-- The words are the holds and the counters are right; no row has more than 127 sharers. -/
structure Inv (s : ClientTable C) : Prop where
  ok : s.counted.Ok
  few : s.counted.inserts < 256
  coupled : Coupled True s.table (heldIn s.holds)
  counters : Counters s.table
  room : ∀ key, heldIn s.holds .shared key ≤ 127

omit [DecidableEq C] in
theorem inv_init : (init : ClientTable C).Inv where
  ok := CountedTable.ok_init
  few := show 0 < 256 by decide
  coupled := Coupled.init atRest_init fun _ _ => rfl
  counters := counters_init
  room := fun _ => Nat.zero_le _

omit [DecidableEq C] in
theorem Inv.shows (hs : s.Inv) {i : Fin rows} (hl : s.table.live i = true) :
    Shows (s.table.table i).lock (heldIn s.holds .shared (s.table.keyOf i))
      (heldIn s.holds .exclusive (s.table.keyOf i)) := by
  obtain ⟨a, b, hshow, hab⟩ := hs.coupled.words i hl
  obtain ⟨rfl, rfl⟩ := hab trivial
  exact hshow

omit [DecidableEq C] in
/-- The row of a held key, which the probe loops find. -/
theorem Inv.isRow (hs : s.Inv) {h : Hold C} (hm : h ∈ s.holds) : ∃ i, s.table.IsRow h.key i :=
  hs.coupled.isRow_of_held (heldIn_pos hm)

/-- The records of the holds change with the words. -/
theorem Inv.coupled_step (hs : s.Inv) (h : s.Did c op s') :
    Coupled True s'.table (heldIn s'.holds) := by
  cases h with
  | inserted hi => exact hs.coupled.insert (hs.ok.fresh hs.few) (traitInsert_some hi)
  | same => exact hs.coupled
  | shared hw => exact hs.coupled.grant_shared hw fun _ _ => heldIn_cons _ _ _ _
  | exclusive hw => exact hs.coupled.grant_exclusive hw fun _ _ => heldIn_cons _ _ _ _
  | promoted hm hp =>
      refine hs.coupled.promote hp (fun key' => ?_) fun key' => ?_
      · rw [heldIn_cons, heldIn_erase hm .shared]
        simp
      · rw [heldIn_cons, heldIn_erase hm .exclusive]
        simp
  | released hm hr => exact hs.coupled.release _ hr fun _ _ => heldIn_erase hm _ _
  | removed hm hr => exact hs.coupled.remove hr fun _ _ => heldIn_erase hm _ _
  | written _ hw =>
      obtain ⟨i, -, hr⟩ := traitWrite_some hw
      exact hs.coupled.write hr

/-- The counters follow every operation, as long as the words do not overflow. -/
theorem Inv.counters_step (hs : s.Inv) (h : s.Did c op s')
    (hroom : ∀ key, heldIn s'.holds .shared key ≤ 127) : Counters s'.table := by
  cases h with
  | inserted hi => exact hs.counters.insert hi
  | same => exact hs.counters
  | shared hw =>
      obtain ⟨i, hl, hlock, rfl, rfl⟩ := traitWaitShared_eq hw
      obtain ⟨-, hword⟩ := (hs.shows hl).eq_ofNat hlock
      refine hs.counters.share hl ?_ hword
      -- after the step the row has one sharer more
      have hafter := hroom (s.table.keyOf i)
      rw [heldIn_cons, if_pos ⟨rfl, rfl⟩] at hafter
      omega
  | exclusive hw =>
      obtain ⟨i, hl, hlock, -, rfl⟩ := traitWaitExclusive_eq hw
      exact hs.counters.lockExclusive hl hlock
  | promoted hm hp =>
      obtain ⟨p, hrow⟩ := hs.isRow hm
      obtain ⟨i, hi, hlock, rfl⟩ := traitPromote_eq hp
      obtain rfl := isRow_of_seekKey hs.ok.1 hrow hi
      exact hs.counters.promote hrow.1 hlock
  | @released key type _ hm hr =>
      obtain ⟨p, hrow⟩ := hs.isRow hm
      obtain ⟨i, hi, hcase⟩ := traitRelease_eq hr
      obtain rfl := isRow_of_seekKey hs.ok.1 hrow hi
      obtain ⟨hl, rfl⟩ := hrow
      rcases hcase with ⟨hlock, rfl⟩ | ⟨hlock, rfl⟩
      · exact hs.counters.releaseExclusive hl hlock
      · -- the word is not that of an exclusive lock, so the hold is one of `n + 1` shared ones
        have hpos := heldIn_pos hm
        have hshow := hs.shows hl
        have hx : heldIn s.holds .exclusive (s.table.keyOf i) = 0 := by
          by_contra hne
          exact hlock (hshow.exclusion (Nat.pos_of_ne_zero hne)).2.2
        have htype : type = .shared := by
          cases type with
          | shared => rfl
          | exclusive => exact absurd hpos (by dsimp only; omega)
        subst htype
        have hle := hs.room (s.table.keyOf i)
        obtain ⟨n, hn⟩ := Nat.exists_eq_succ_of_ne_zero hpos.ne'
        dsimp only at hn
        have hword := hshow.eq_ofNat_of_ne hlock
        rw [hn] at hword hle
        exact hs.counters.releaseShared hl (by omega) hword
  | removed hm hr =>
      obtain ⟨p, hrow⟩ := hs.isRow hm
      obtain ⟨hl, rfl⟩ := hrow
      have hlock := ((hs.shows hl).exclusion (heldIn_pos hm)).2.2
      exact hs.counters.remove hs.ok.1 ⟨hl, rfl⟩ hlock hr
  | written _ hw => exact hs.counters.write hw

/-- Fewer than 256 inserts were made, and no row has more than 127 sharers: a client that
shares a row twice counts twice. -/
def Within (e : Entry (ClientTable C) (C × StudentOp) StudentResult) : Prop :=
  e.post.counted.inserts < 256 ∧ ∀ key, heldIn e.post.holds .shared key ≤ 127

theorem Inv.step (hs : s.Inv) (h : machine.step s (c, op) = some (s', out))
    (hw : Within ⟨s, (c, op), out, s'⟩) : s'.Inv where
  ok := hs.ok.step hs.few (step_some h).2.1
  few := hw.1
  coupled := hs.coupled_step (step_did h)
  counters := hs.counters_step (step_did h) hw.2
  room := hw.2

/-! ## What the words and counters say -/

/-- All holds on a key. -/
def holdsOn (s : ClientTable C) (key : TblRow) : List (Hold C) :=
  s.holds.filter fun h => decide (h.key = key)

omit [DecidableEq C] in
theorem length_holdsOn (s : ClientTable C) (key : TblRow) :
    (s.holdsOn key).length = heldIn s.holds .shared key + heldIn s.holds .exclusive key := by
  rw [holdsOn]
  induction s.holds with
  | nil => rfl
  | cons h l ih =>
      rw [List.filter_cons, heldIn_cons, heldIn_cons]
      by_cases hk : h.key = key
      · rw [decide_eq_true hk, if_pos rfl, List.length_cons, ih]
        cases ht : h.type <;> simp [hk] <;> omega
      · rw [decide_eq_false hk, if_neg (by decide), ih, if_neg fun hc => hk hc.2.symm,
          if_neg fun hc => hk hc.2.symm, Nat.add_zero, Nat.add_zero]

omit [DecidableEq C] in
/-- **A word of `-1` is one exclusive hold and no other.** -/
theorem Inv.lock_eq_neg_one_iff (hs : s.Inv) {i : Fin rows} (hl : s.table.live i = true) :
    (s.table.table i).lock = -1 ↔
      ∃ c, s.holdsOn (s.table.keyOf i) = [⟨c, s.table.keyOf i, .exclusive⟩] := by
  have hshow := hs.shows hl
  constructor
  · intro hlock
    obtain ⟨hx, hsh⟩ := hshow.of_eq_neg_one hlock
    have hlen := s.length_holdsOn (s.table.keyOf i)
    rw [hx, hsh] at hlen
    obtain ⟨⟨c, key, type⟩, hone⟩ := List.length_eq_one_iff.mp hlen
    have hmem : (⟨c, key, type⟩ : Hold C) ∈ s.holdsOn (s.table.keyOf i) := by
      rw [hone]
      exact List.mem_singleton_self _
    obtain ⟨hin, hkey⟩ := List.mem_filter.mp hmem
    obtain rfl : key = s.table.keyOf i := of_decide_eq_true hkey
    -- a shared hold would count
    cases type with
    | shared =>
        have hpos := heldIn_pos hin
        dsimp only at hpos
        omega
    | exclusive => exact ⟨c, hone⟩
  · rintro ⟨c, hone⟩
    have hmem : (⟨c, s.table.keyOf i, .exclusive⟩ : Hold C) ∈ s.holdsOn (s.table.keyOf i) := by
      rw [hone]
      exact List.mem_singleton_self _
    exact (hshow.exclusion (heldIn_pos (List.mem_filter.mp hmem).1)).2.2

omit [DecidableEq C] in
/-- **A word of `n` is `n` shared holds and no exclusive one.** -/
theorem Inv.lock_eq_iff (hs : s.Inv) {i : Fin rows} (hl : s.table.live i = true) (n : Nat) :
    (s.table.table i).lock.toInt = n ↔
      heldIn s.holds .shared (s.table.keyOf i) = n ∧
        heldIn s.holds .exclusive (s.table.keyOf i) = 0 := by
  have hshow := hs.shows hl
  constructor
  · intro hn
    have hnonneg : 0 ≤ (s.table.table i).lock := by
      rw [Int8.le_iff_toInt_le, hn]
      exact Int.natCast_nonneg n
    obtain ⟨hx, hsh⟩ := hshow.of_nonneg hnonneg
    exact ⟨by omega, hx⟩
  · rintro ⟨hn, hx⟩
    have hword := hshow.eq_ofNat_of_ne fun hlock => by
      have := (hshow.of_eq_neg_one hlock).1
      omega
    rw [hword, toInt_ofNat (hs.room _), hn]

/-- No counter wraps around: each moves by at most one. -/
def Steady (t t' : StudentTable) : Prop :=
  (t'.sAvailCnt.toNat ≤ t.sAvailCnt.toNat + 1 ∧ t.sAvailCnt.toNat ≤ t'.sAvailCnt.toNat + 1) ∧
  (t'.xAvailCnt.toNat ≤ t.xAvailCnt.toNat + 1 ∧ t.xAvailCnt.toNat ≤ t'.xAvailCnt.toNat + 1)

/-- A step touches at most one row. -/
theorem Inv.row_of_ne (hs : s.Inv) (h : machine.step s (c, op) = some (s', out)) :
    ∃ i, ∀ j, j ≠ i → s'.table.table j = s.table.table j := by
  obtain ⟨hmay, hstep, -⟩ := step_some h
  obtain ⟨⟨t', n⟩, holds⟩ := s'
  dsimp only at hstep
  cases CountedTable.step_did hs.ok.1 hstep with
  | inserted hi => exact ⟨_, fun j hj => hi.row_of_ne hj⟩
  | removed _ hr => exact ⟨_, fun j hj => hr.row_of_ne hj⟩
  | written _ hr => exact ⟨_, fun j hj => hr.row_of_ne hj⟩
  | cleared => cases hmay
  | locks _ hl =>
      rcases hl with rfl | ⟨i, l, hi⟩
      · exact ⟨0, fun _ _ => rfl⟩
      · exact ⟨i, fun j hj => by rw [hi.table, Slots.set_of_ne _ _ hj]⟩

theorem Inv.steady (hs : s.Inv) (h : machine.step s (c, op) = some (s', out)) (hs' : s'.Inv) :
    Steady s.table s'.table := by
  obtain ⟨i, hoff⟩ := hs.row_of_ne h
  -- the counters are counts of rows, and the rows differ in one place
  have hS := Slots.count_congr_off (p := fun j => (s'.table.table j).sAvailable)
    (q := fun j => (s.table.table j).sAvailable) i fun j hj => by rw [hoff j hj]
  have hX := Slots.count_congr_off (p := fun j => (s'.table.table j).xAvailable)
    (q := fun j => (s.table.table j).xAvailable) i fun j hj => by rw [hoff j hj]
  rw [Steady, hs.counters.shared, hs'.counters.shared, hs.counters.exclusive,
    hs'.counters.exclusive]
  refine ⟨?_, ?_⟩
  · split at hS <;> split at hS <;> omega
  · split at hX <;> split at hX <;> omega

/-- **Lock words and counters are exact and locks exclude.** In every state that clients reach,
a word of `-1` is one exclusive hold and no other, a word of `n` is `n` shared holds; the
counters count the available rows and have never wrapped around; and a wait never fails to find
the row it was promised. -/
theorem locks_exact_of_run {h : List (Entry (ClientTable C) (C × StudentOp) StudentResult)}
    (hr : machine.Run init h s) (hw : ∀ e ∈ h, Within e) :
    (∀ i, s.table.live i = true →
      ((s.table.table i).lock = -1 ↔
        ∃ c, s.holdsOn (s.table.keyOf i) = [⟨c, s.table.keyOf i, .exclusive⟩]) ∧
      ∀ n : Nat, (s.table.table i).lock.toInt = n ↔
        heldIn s.holds .shared (s.table.keyOf i) = n ∧
          heldIn s.holds .exclusive (s.table.keyOf i) = 0) ∧
    s.table.sAvailCnt.toNat
      = Slots.count (fun i => s.table.live i && decide (0 ≤ (s.table.table i).lock)) ∧
    s.table.xAvailCnt.toNat
      = Slots.count (fun i => s.table.live i && (s.table.table i).lock == 0) ∧
    (∀ e ∈ h, Steady e.pre.table e.post.table) ∧
    s.table.traitWaitShared.1 ≠ .error .notFound ∧
    s.table.traitWaitExclusive.1 ≠ .error .notFound := by
  suffices hinv : s.Inv ∧ ∀ e ∈ h, Steady e.pre.table e.post.table from
    ⟨fun i hl => ⟨hinv.1.lock_eq_neg_one_iff hl, hinv.1.lock_eq_iff hl⟩,
      hinv.1.counters.shared, hinv.1.counters.exclusive, hinv.2,
      hinv.1.counters.waitShared_ne_notFound, hinv.1.counters.waitExclusive_ne_notFound⟩
  refine hr.invariant_within
    (P := fun h t => t.Inv ∧ ∀ e ∈ h, Steady e.pre.table e.post.table) hw
    ⟨inv_init, fun _ he => by cases he⟩ ?_
  intro k u a out v _ _ ih hstep hwe
  obtain ⟨hu, hk⟩ := ih
  have hv : v.Inv := hu.step hstep hwe
  refine ⟨hv, fun e he => ?_⟩
  rcases List.mem_append.mp he with he | he
  · exact hk e he
  · rw [List.mem_singleton.mp he]
    exact hu.steady hstep hv

/-- Three clients: two share the first row and one locks the second, which it writes and
removes; one sharer gives its row back and the other promotes. -/
def sampleOps : List (Nat × StudentOp) :=
  [(0, .insert StudentTuple.empty), (0, .insert StudentTuple.empty), (1, .waitShared),
    (2, .waitShared), (0, .waitExclusive), (0, .write { StudentTuple.empty with key := 1 }),
    (1, .promote 0), (2, .release 0), (1, .promote 0), (2, .waitShared), (0, .remove 1)]

theorem locks_exact_of_run_sample : ∃ h s, (machine (C := Nat)).Run init h s ∧
    s.holds = [⟨1, 0, .exclusive⟩] ∧ (∀ e ∈ h, Steady e.pre.table e.post.table) ∧
    s.table.traitWaitShared.1 ≠ .error .notFound := by
  obtain ⟨h, s, hr, hp⟩ := Machine.exists_run_of_exec (M := machine (C := Nat)) (s := init)
    (p := fun h s => decide ((∀ e ∈ h, e.post.counted.inserts < 256 ∧
      e.post.holds.length ≤ 127) ∧ s.holds = [⟨1, 0, .exclusive⟩]))
    (show (machine.exec init sampleOps).map _ = some true by decide +kernel)
  obtain ⟨hw, hend⟩ := of_decide_eq_true hp
  have hall := locks_exact_of_run hr fun e he =>
    ⟨(hw e he).1, fun key => (heldIn_le_length _ _ key).trans (hw e he).2⟩
  exact ⟨h, s, hr, hend, hall.2.2.2.1, hall.2.2.2.2.1⟩

end ClientTable

end PawnDB
