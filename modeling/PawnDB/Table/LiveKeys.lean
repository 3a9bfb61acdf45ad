import PawnDB.Lib.Machine
import PawnDB.Table.Rows

set_option autoImplicit false

/-! # Keys of live rows

`next_key_` has eight bits and is never told which keys are still in use, so the key of an
insert is its number modulo 256. To say when two live rows get the same key, a table carries
two history variables: how many inserts were made, and for each row which insert filled it.

`Aged` is what every operation keeps: the key of a live row is the number of its insert modulo
256. As long as no live row is more than 256 inserts old, no key occurs twice
(`Aged.uniqueKeys`), and the converse is `AgedTable.uniqueKeys_iff_inTime`.
-/

namespace PawnDB

open StudentTable

/-- Live rows have different keys. -/
def StudentTable.UniqueKeys (t : StudentTable) : Prop :=
  ∀ i j, t.live i = true → t.live j = true → t.keyOf i = t.keyOf j → i = j

/-- Live rows stay or disappear, with their keys, and the counter stays. -/
structure Fewer (t t' : StudentTable) : Prop where
  nextKey : t'.nextKey = t.nextKey
  live : ∀ i, t'.live i = true → t.live i = true
  keyOf : ∀ i, t'.keyOf i = t.keyOf i

namespace Fewer

variable {t t' : StudentTable} {i : Fin rows}

theorem refl (t : StudentTable) : Fewer t t := ⟨rfl, fun _ hi => hi, fun _ => rfl⟩

theorem of_relocked {l : LkT} (h : Relocked t i l t') : Fewer t t' :=
  ⟨h.nextKey, fun j hj => by rwa [h.live] at hj, h.keyOf⟩

theorem of_written {tuple : StudentTuple} (h : Written t i tuple t') : Fewer t t' :=
  ⟨h.nextKey, fun j hj => by rwa [h.live] at hj, h.keyOf⟩

theorem of_removed (h : Removed t i t') : Fewer t t' :=
  ⟨h.nextKey, fun j hj => by rwa [h.live_of_ne (h.ne_of_live hj)] at hj, h.keyOf⟩

end Fewer

/-- After `n` inserts, a live row `i` was filled by insert number `birth i` and has its key. -/
structure Aged (t : StudentTable) (n : Nat) (birth : Fin rows → Nat) : Prop where
  nextKey : t.nextKey.toNat = n % 256
  born : ∀ i, t.live i = true → birth i < n
  key : ∀ i, t.live i = true → (t.keyOf i).toNat = birth i % 256
  injective : ∀ i j, t.live i = true → t.live j = true → birth i = birth j → i = j

namespace Aged

variable {t t' : StudentTable} {n : Nat} {birth : Fin rows → Nat}

theorem init (birth : Fin rows → Nat) : Aged StudentTable.init 0 birth where
  nextKey := rfl
  born := fun _ h => by cases h
  key := fun _ h => by cases h
  injective := fun _ _ h => by cases h

theorem fewer (h : Aged t n birth) (hf : Fewer t t') : Aged t' n birth where
  nextKey := by rw [hf.nextKey]; exact h.nextKey
  born := fun i hi => h.born i (hf.live i hi)
  key := fun i hi => by rw [hf.keyOf]; exact h.key i (hf.live i hi)
  injective := fun i j hi hj => h.injective i j (hf.live i hi) (hf.live j hj)

theorem inserted {i : Fin rows} {tuple : StudentTuple} (h : Aged t n birth)
    (hr : Inserted t i tuple t') : Aged t' (n + 1) (Slots.set birth i n) := by
  have hold : ∀ j, j ≠ i → t'.live j = true →
      t.live j = true ∧ Slots.set birth i n j = birth j := fun j hji hj =>
    ⟨by rwa [hr.live_of_ne hji] at hj, Slots.set_of_ne _ _ hji⟩
  constructor
  · rw [hr.nextKey, UInt8.toNat_add, h.nextKey]
    have : (1 : UInt8).toNat = 1 := rfl
    omega
  · intro j hj
    by_cases hji : j = i
    · rw [hji, Slots.set_self]; omega
    · obtain ⟨hl, hb⟩ := hold j hji hj
      have := h.born j hl
      omega
  · intro j hj
    by_cases hji : j = i
    · rw [hji, Slots.set_self, hr.keyOf_self, h.nextKey]
    · obtain ⟨hl, hb⟩ := hold j hji hj
      rw [hb, hr.keyOf_of_ne hji, h.key j hl]
  · intro j k hj hk hjk
    by_cases hji : j = i <;> by_cases hki : k = i
    · rw [hji, hki]
    · obtain ⟨hl, hb⟩ := hold k hki hk
      rw [hji, Slots.set_self, hb] at hjk
      have := h.born k hl
      omega
    · obtain ⟨hl, hb⟩ := hold j hji hj
      rw [hki, Slots.set_self, hb] at hjk
      have := h.born j hl
      omega
    · obtain ⟨hlj, hbj⟩ := hold j hji hj
      obtain ⟨hlk, hbk⟩ := hold k hki hk
      rw [hbj, hbk] at hjk
      exact h.injective j k hlj hlk hjk

/-- **When the next key is free**: exactly when no live row is as old as the counter's range,
provided that none is older. -/
theorem fresh_iff (h : Aged t n birth) (hage : ∀ i, t.live i = true → n ≤ birth i + 256) :
    t.Fresh ↔ ∀ i, t.live i = true → birth i + 256 ≠ n := by
  refine forall_congr' fun i => forall_congr' fun hi => not_congr ?_
  rw [← UInt8.toNat_inj, h.key i hi, h.nextKey]
  have := hage i hi
  have := h.born i hi
  omega

theorem fresh_of_lt (h : Aged t n birth) (hn : n < 256) : t.Fresh :=
  (h.fresh_iff fun i _ => by omega).mpr fun i _ => by omega

/-- Rows that are at most 256 inserts old have different keys. -/
theorem uniqueKeys (h : Aged t n birth) (hage : ∀ i, t.live i = true → n ≤ birth i + 256) :
    t.UniqueKeys := by
  intro i j hi hj hij
  refine h.injective i j hi hj ?_
  have hk := congrArg UInt8.toNat hij
  rw [h.key i hi, h.key j hj] at hk
  have := hage i hi
  have := hage j hj
  have := h.born i hi
  have := h.born j hj
  omega

end Aged

/-! ## Histories of inserts, removes and writes -/

inductive TableOp
  | insert (tuple : StudentTuple)
  | remove (key : TblRow)
  | write (tuple : StudentTuple)

/-- A table with its history variables. -/
structure AgedTable where
  table : StudentTable
  inserts : Nat
  birth : Fin rows → Nat

namespace AgedTable

def init : AgedTable := ⟨StudentTable.init, 0, fun _ => 0⟩

/-- One operation: an insert into a table that is not full, a remove of a live key, or a
write. The event is the row that an insert filled. -/
def step (s : AgedTable) : TableOp → Option (AgedTable × List (Fin rows))
  | .insert tuple =>
      match s.table.traitInsert tuple with
      | none => none
      | some (i, t) => some (⟨t, s.inserts + 1, Slots.set s.birth i s.inserts⟩, [i])
  | .remove key =>
      if (List.finRange rows).any fun i => s.table.live i && s.table.keyOf i == key then
        (s.table.traitRemove key).map fun t => ({ s with table := t }, [])
      else none
  | .write tuple => (s.table.traitWrite tuple).map fun t => ({ s with table := t }, [])

abbrev machine : Machine AgedTable TableOp (Fin rows) := ⟨step⟩

/-- The history variables belong to the table. -/
def Ok (s : AgedTable) : Prop := Aged s.table s.inserts s.birth

variable {s s' : AgedTable} {op : TableOp} {out : List (Fin rows)}

/-- An insert counts, and the other operations only take rows away. -/
theorem step_cases (h : s.step op = some (s', out)) :
    (∃ tuple i, op = .insert tuple ∧ Inserted s.table i tuple s'.table ∧
      s'.inserts = s.inserts + 1 ∧ s'.birth = Slots.set s.birth i s.inserts) ∨
    ((∀ tuple, op ≠ .insert tuple) ∧ s'.inserts = s.inserts ∧ s'.birth = s.birth ∧
      Fewer s.table s'.table) := by
  -- an insert gives its row the next birth; the others touch no birth
  cases op with
  | insert tuple =>
      unfold step at h
      dsimp only at h
      split at h
      · cases h
      · rename_i i t hi
        cases h
        exact Or.inl ⟨tuple, i, rfl, traitInsert_some hi, rfl, rfl⟩
  | remove key =>
      unfold step at h
      dsimp only at h
      split at h
      · obtain ⟨t, ht, heq⟩ := Option.map_eq_some_iff.mp h
        cases heq
        obtain ⟨i, -, hi⟩ := traitRemove_some ht
        exact Or.inr ⟨fun _ => by simp, rfl, rfl, Fewer.of_removed hi⟩
      · cases h
  | write tuple =>
      obtain ⟨t, ht, heq⟩ := Option.map_eq_some_iff.mp h
      cases heq
      obtain ⟨i, -, hi⟩ := traitWrite_some ht
      exact Or.inr ⟨fun _ => by simp, rfl, rfl, Fewer.of_written hi⟩

theorem Ok.step (hs : s.Ok) (h : s.step op = some (s', out)) : s'.Ok := by
  rcases step_cases h with ⟨tuple, i, -, hi, hn, hb⟩ | ⟨-, hn, hb, hf⟩
  · rw [Ok, hn, hb]; exact hs.inserted hi
  · rw [Ok, hn, hb]; exact hs.fewer hf

theorem ok_of_run {h : List (Entry AgedTable TableOp (Fin rows))}
    (hr : machine.Run init h s) : s.Ok :=
  hr.invariant (P := fun _ t => t.Ok) (Aged.init _) fun _ _ _ _ _ _ ih hs => ih.step hs

/-- The insert does not come 256 inserts after one whose row is still live. -/
def InTime (e : Entry AgedTable TableOp (Fin rows)) : Prop :=
  ∀ tuple, e.act = .insert tuple →
    ∀ i, e.pre.table.live i = true → e.pre.birth i + 256 ≠ e.pre.inserts

/-- No live row is more than 256 inserts old. -/
def Young (s : AgedTable) : Prop := ∀ i, s.table.live i = true → s.inserts ≤ s.birth i + 256

theorem Young.step (hs : s.Young) (h : s.step op = some (s', out))
    (hin : InTime ⟨s, op, out, s'⟩) : s'.Young := by
  intro j hj
  rcases step_cases h with ⟨tuple, i, rfl, hi, hn, hb⟩ | ⟨-, hn, hb, hf⟩
  · by_cases hji : j = i
    · rw [hn, hb, hji, Slots.set_self]; omega
    · rw [hi.live_of_ne hji] at hj
      have := hs j hj
      have : s.birth j + 256 ≠ s.inserts := hin tuple rfl j hj
      rw [hn, hb, Slots.set_of_ne _ _ hji]
      omega
  · rw [hn, hb]
    exact hs j (hf.live j hj)

theorem young_of_run {h : List (Entry AgedTable TableOp (Fin rows))}
    (hr : machine.Run init h s) (hin : ∀ e ∈ h, InTime e) : s.Young :=
  hr.invariant_within (P := fun _ t => t.Young) hin (fun _ hi => by cases hi)
    fun _ _ _ _ _ _ _ ih hs hin => ih.step hs hin

/-- An insert that comes too late leaves two live rows with one key. -/
theorem Ok.not_unique (hs : s.Ok) (h : s.step op = some (s', out))
    (hin : ¬ InTime ⟨s, op, out, s'⟩) : ¬ s'.table.UniqueKeys := by
  intro hu
  refine hin fun tuple hop j hj hage => ?_
  dsimp only at hop hj hage
  subst hop
  rcases step_cases h with ⟨tuple', i, -, hi, -, -⟩ | ⟨hne, -⟩
  · have hji := hi.ne_of_live hj
    refine hji (hu j i (by rw [hi.live_of_ne hji]; exact hj) hi.live_self ?_)
    rw [hi.keyOf_of_ne hji, hi.keyOf_self, ← UInt8.toNat_inj, hs.key j hj, hs.nextKey]
    omega
  · exact hne tuple rfl

/-- **Live keys are unique throughout a history if and only if every insert comes in time.** -/
theorem uniqueKeys_iff_inTime {h : List (Entry AgedTable TableOp (Fin rows))}
    (hr : machine.Run init h s) :
    (∀ e ∈ h, e.post.table.UniqueKeys) ↔ ∀ e ∈ h, InTime e := by
  constructor
  · intro hu e he
    obtain ⟨k, l, -, hk, hstep, -⟩ := hr.split he
    by_contra hin
    exact (ok_of_run hk).not_unique hstep hin (hu e he)
  · intro hin e he
    obtain ⟨k, l, rfl, hk, hstep, -⟩ := hr.split he
    have hpre : ∀ e' ∈ k, InTime e' := fun e' he' => hin e' (List.mem_append_left _ he')
    exact ((ok_of_run hk).step hstep).uniqueKeys
      ((young_of_run hk hpre).step hstep (hin e he))

theorem uniqueKeys_iff_inTime_two_inserts : ∃ h s, machine.Run init h s ∧ h.length = 2 ∧
    ((∀ e ∈ h, e.post.table.UniqueKeys) ↔ ∀ e ∈ h, InTime e) := by
  obtain ⟨h, s, hr, hl⟩ := Machine.exists_run_of_exec (M := machine) (s := init)
    (p := fun h _ => h.length == 2)
    (show (machine.exec init [.insert StudentTuple.empty, .insert StudentTuple.empty]).map _
      = some true by decide +kernel)
  exact ⟨h, s, hr, by simpa using hl, uniqueKeys_iff_inTime hr⟩

/-! ## A row that outlives the counter -/

/-- A table with one live row, which has key `0`; the counter shows `n`. -/
structure One (s : AgedTable) (p : Fin rows) (n : Nat) : Prop where
  wf : s.table.Wf
  ok : s.Ok
  live : ∀ i, s.table.live i = true ↔ i = p
  key : s.table.keyOf p = 0
  inserts : s.inserts = n

theorem One.traitFull {p : Fin rows} {n : Nat} (h : s.One p n) : s.table.traitFull = false := by
  have hc : Slots.count s.table.live = 1 := by
    rw [Slots.count, show (Finset.univ.filter fun i => s.table.live i = true) = {p} from
      Finset.ext fun i => by simp [h.live]]
    rfl
  rw [StudentTable.traitFull, beq_eq_false_iff_ne, Ne, ← UInt64.toNat_inj, h.wf.size, hc]
  decide

theorem One.insert {p : Fin rows} {n : Nat} (h : s.One p n) (tuple : StudentTuple) :
    ∃ i s', s.step (.insert tuple) = some (s', [i]) ∧
      Inserted s.table i tuple s'.table := by
  obtain ⟨⟨i, t⟩, hi⟩ := Option.isSome_iff_exists.mp
    (traitInsert_isSome h.wf h.traitFull tuple)
  exact ⟨i, _, by rw [AgedTable.step, hi], traitInsert_some hi⟩

/-- Inserting a row and removing it again leaves the one row and moves the counter. -/
theorem One.insert_remove {p : Fin rows} {n : Nat} (h : s.One p n) (hn : n % 256 ≠ 0) :
    ∃ k s', machine.Run s k s' ∧ s'.One p (n + 1) := by
  obtain ⟨i, s1, hstep, hi⟩ := h.insert StudentTuple.empty
  -- the counter has not come round to the key of the row that stays
  have hfresh : s.table.Fresh := fun j hj => by
    rw [(h.live j).mp hj, h.key, Ne, ← UInt8.toNat_inj, h.ok.nextKey, h.inserts]
    exact fun he => hn he.symm
  have hw := hi.wf h.wf hfresh
  have hseek := seekKey_of_isRow hw ⟨hi.live_self, rfl⟩
  obtain ⟨t2, ht2⟩ := traitRemove_isSome hseek
  obtain ⟨j, hj, hr⟩ := traitRemove_some ht2
  rw [hseek] at hj
  obtain rfl := Option.some.inj hj
  have hstep2 : s1.step (.remove (s1.table.keyOf i)) = some ({ s1 with table := t2 }, []) := by
    rw [AgedTable.step, if_pos, ht2]
    · rfl
    · exact List.any_eq_true.mpr ⟨i, List.mem_finRange i, by simp [hi.live_self]⟩
  -- the row that is removed is the one just inserted
  have hpi : p ≠ i := hi.ne_of_live ((h.live p).mpr rfl)
  have hr1 : machine.Run s _ s1 := Machine.Run.single (a := .insert _) hstep
  refine ⟨_, _, hr1.snoc (a := .remove _) hstep2, ?_, ?_, ?_, ?_, ?_⟩
  · exact hr.wf hw hi.live_self
  · exact (h.ok.step hstep).step hstep2
  · intro k
    by_cases hki : k = i
    · rw [hki]
      exact ⟨fun hl => absurd hl (by rw [hr.live_self]; simp), fun he => absurd he.symm hpi⟩
    · rw [hr.live_of_ne hki, hi.live_of_ne hki]
      exact h.live k
  · rw [hr.keyOf, hi.keyOf_of_ne hpi]
    exact h.key
  · rcases step_cases hstep with ⟨_, _, _, _, hcount, _⟩ | ⟨hne, _⟩
    · exact hcount.trans (by rw [h.inserts])
    · exact absurd rfl (hne _)

theorem exists_one (n : Nat) (hn : n < 256) :
    ∃ k s p, machine.Run init k s ∧ s.One p (n + 1) := by
  induction n with
  | zero =>
      obtain ⟨⟨i, t⟩, hi⟩ := Option.isSome_iff_exists.mp
        (traitInsert_isSome wf_init (by decide) StudentTuple.empty)
      have hins := traitInsert_some hi
      have hstep : init.step (.insert StudentTuple.empty)
          = some (⟨t, 1, Slots.set init.birth i 0⟩, [i]) := by
        have hi' : init.table.traitInsert StudentTuple.empty = some (i, t) := hi
        rw [AgedTable.step, hi']
        rfl
      refine ⟨_, _, i, Machine.Run.single (a := .insert _) hstep, ?_, ?_, ?_, ?_, rfl⟩
      · exact hins.wf wf_init fun _ hl => by cases hl
      · exact (show init.Ok from Aged.init _).step hstep
      · intro j
        by_cases hji : j = i
        · rw [hji]; exact ⟨fun _ => rfl, fun _ => hins.live_self⟩
        · have hl : t.live j = false := hins.live_of_ne hji
          exact ⟨fun hj => absurd hj (by rw [hl]; decide), fun he => absurd he hji⟩
      · rw [hins.keyOf_self]; rfl
  | succ n ih =>
      obtain ⟨k, s, p, hr, hone⟩ := ih (by omega)
      obtain ⟨l, s', hr', hone'⟩ := hone.insert_remove (by omega)
      exact ⟨_, s', p, hr.trans hr', hone'⟩

/-- A row that is still live when the counter comes round again shares its key with the next
one. -/
theorem not_always_uniqueKeys : ¬ ∀ h s, machine.Run init h s → s.table.UniqueKeys := by
  intro hall
  obtain ⟨k, s, p, hr, hone⟩ := exists_one 255 (by decide)
  obtain ⟨i, s', hstep, -⟩ := hone.insert StudentTuple.empty
  refine (ok_of_run hr).not_unique hstep (fun hin => ?_)
    (hall _ _ (hr.snoc (a := .insert _) hstep))
  have hp := (hone.live p).mpr rfl
  have hb := hone.ok.key p hp
  have hlt := hone.ok.born p hp
  rw [hone.key, show (0 : TblRow).toNat = 0 from rfl] at hb
  rw [hone.inserts] at hlt
  exact hin StudentTuple.empty rfl p hp (by
    rw [show s.inserts = 256 from hone.inserts, show s.birth p = 0 by omega])

end AgedTable

end PawnDB
