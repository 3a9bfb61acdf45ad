import PawnDB.Lib.LockWord
import PawnDB.Table.Rows

set_option autoImplicit false

/-! # Lock words and recorded locks

`Coupled exact t held` relates the lock words of the table `t` to the numbers `held` of locks
that somebody records: each live row shows the locks recorded for its key, and possibly more of
them, since a lock that was granted and not recorded is never given back; there are no more if
`exact`. No lock is recorded for a key that is not live.

Each table operation keeps the coupling if the records change with it.
-/

namespace PawnDB

open LockWord StudentTable

structure Coupled (exact : Prop) (t : StudentTable) (held : LockType → TblRow → Nat) : Prop where
  table : t.Wf
  words : ∀ i, t.live i = true → ∃ a b,
    Shows (t.table i).lock (held .shared (t.keyOf i) + a) (held .exclusive (t.keyOf i) + b) ∧
      (exact → a = 0 ∧ b = 0)
  dead : ∀ key, (∀ i, ¬ t.IsRow key i) → ∀ type, held type key = 0

namespace Coupled

variable {exact exact' : Prop} {t t' : StudentTable} {held held' : LockType → TblRow → Nat}
  {i : Fin rows}

theorem init (hrest : t.AtRest) (h : ∀ type key, held type key = 0) : Coupled True t held where
  table := hrest.wf
  words := fun i hi => by
    rw [h, h, hrest.unlocked i hi]
    exact ⟨0, 0, shows_zero, fun _ => ⟨rfl, rfl⟩⟩
  dead := fun key _ type => h type key

theorem congr (h : Coupled exact t held) (hex : exact' → exact)
    (hh : ∀ type key, held' type key = held type key) : Coupled exact' t held' := by
  obtain rfl : held' = held := funext fun type => funext fun key => hh type key
  exact ⟨h.table, fun i hi => by
    obtain ⟨a, b, hs, he⟩ := h.words i hi
    exact ⟨a, b, hs, fun hx => he (hex hx)⟩, h.dead⟩

/-- A recorded lock is on a live row. -/
theorem isRow_of_held (h : Coupled exact t held) {type : LockType} {key : TblRow}
    (hpos : 0 < held type key) : ∃ i, t.IsRow key i := by
  by_contra hn
  have := h.dead key (fun i hi => hn ⟨i, hi⟩) type
  omega

/-- **A key recorded as locked exclusively has no other lock.** -/
theorem exclusion (h : Coupled exact t held) {key : TblRow}
    (hpos : 0 < held .exclusive key) : held .exclusive key = 1 ∧ held .shared key = 0 := by
  obtain ⟨i, hlive, rfl⟩ := h.isRow_of_held hpos
  obtain ⟨a, b, hs, -⟩ := h.words i hlive
  have := hs.exclusion (by omega)
  omega

/-- The word of one row changes, and the locks recorded for its key. -/
theorem relock (h : Coupled exact t held) {l : LkT} (hlive : t.live i = true)
    (hrel : Relocked t i l t') (hex : exact' → exact)
    (hoff : ∀ type key, key ≠ t.keyOf i → held' type key = held type key)
    (hshow : ∃ a b, Shows l (held' .shared (t.keyOf i) + a) (held' .exclusive (t.keyOf i) + b) ∧
      (exact' → a = 0 ∧ b = 0)) : Coupled exact' t' held' := by
  refine ⟨hrel.wf h.table, fun j hj => ?_, fun key hdead type => ?_⟩
  · rw [hrel.live] at hj
    rw [hrel.keyOf]
    by_cases hji : j = i
    · subst hji
      rw [hrel.lock_self]
      exact hshow
    · have hkey : t.keyOf j ≠ t.keyOf i := fun he => hji (h.table.unique j i hj hlive he)
      rw [hrel.lock_of_ne hji, hoff _ _ hkey, hoff _ _ hkey]
      obtain ⟨a, b, hs, he⟩ := h.words j hj
      exact ⟨a, b, hs, fun hx => he (hex hx)⟩
  · have hdead' : ∀ j, ¬ t.IsRow key j := fun j hj => hdead j (hrel.isRow.mpr hj)
    have hne : key ≠ t.keyOf i := fun he => hdead' i ⟨hlive, he.symm⟩
    rw [hoff _ _ hne]
    exact h.dead key hdead' type

/-- A shared lock is granted and recorded. -/
theorem grant_shared (h : Coupled exact t held) {tuple : StudentTuple}
    (hwait : t.traitWaitShared = (.ok tuple, t'))
    (hheld : ∀ type key, held' type key
      = held type key + (if type = .shared ∧ key = tuple.key then 1 else 0)) :
    Coupled exact t' held' := by
  obtain ⟨i, hlive, hlock, rfl, hrel⟩ := traitWaitShared_ok hwait
  obtain ⟨a, b, hs, he⟩ := h.words i hlive
  refine h.relock hlive hrel id (fun type key hne => ?_) ⟨a, b, ?_, he⟩
  · rw [hheld, if_neg fun hc => hne hc.2, Nat.add_zero]
  · have hS := hheld .shared (t.keyOf i)
    have hX := hheld .exclusive (t.keyOf i)
    rw [if_pos ⟨rfl, rfl⟩] at hS
    rw [if_neg (by simp)] at hX
    rw [hS, hX]
    have := hs.grant_shared hlock
    rwa [Nat.add_right_comm] at this

/-- The exclusive lock is granted and recorded. -/
theorem grant_exclusive (h : Coupled exact t held) {tuple : StudentTuple}
    (hwait : t.traitWaitExclusive = (.ok tuple, t'))
    (hheld : ∀ type key, held' type key
      = held type key + (if type = .exclusive ∧ key = tuple.key then 1 else 0)) :
    Coupled exact t' held' := by
  obtain ⟨i, hlive, hlock, rfl, hrel⟩ := traitWaitExclusive_ok hwait
  obtain ⟨a, b, hs, he⟩ := h.words i hlive
  refine h.relock hlive hrel id (fun type key hne => ?_) ⟨a, b, ?_, he⟩
  · rw [hheld, if_neg fun hc => hne hc.2, Nat.add_zero]
  · have hS := hheld .shared (t.keyOf i)
    have hX := hheld .exclusive (t.keyOf i)
    rw [if_neg (by simp)] at hS
    rw [if_pos ⟨rfl, rfl⟩] at hX
    rw [hS, hX]
    have := hs.grant_exclusive hlock
    rwa [Nat.add_right_comm] at this

/-- A lock is granted that nobody records. -/
theorem leak_shared (h : Coupled exact t held) {tuple : StudentTuple}
    (hwait : t.traitWaitShared = (.ok tuple, t')) : Coupled False t' held := by
  obtain ⟨i, hlive, hlock, -, hrel⟩ := traitWaitShared_ok hwait
  obtain ⟨a, b, hs, -⟩ := h.words i hlive
  exact h.relock hlive hrel False.elim (fun _ _ _ => rfl)
    ⟨a + 1, b, hs.grant_shared hlock, False.elim⟩

theorem leak_exclusive (h : Coupled exact t held) {tuple : StudentTuple}
    (hwait : t.traitWaitExclusive = (.ok tuple, t')) : Coupled False t' held := by
  obtain ⟨i, hlive, hlock, -, hrel⟩ := traitWaitExclusive_ok hwait
  obtain ⟨a, b, hs, -⟩ := h.words i hlive
  exact h.relock hlive hrel False.elim (fun _ _ _ => rfl)
    ⟨a, b + 1, hs.grant_exclusive hlock, False.elim⟩

/-- A recorded shared lock is promoted. -/
theorem promote (h : Coupled exact t held) {key : TblRow}
    (hprom : t.traitPromote key = some (.ok (), t'))
    (hS : ∀ key', held .shared key' = held' .shared key' + (if key' = key then 1 else 0))
    (hX : ∀ key', held' .exclusive key' = held .exclusive key' + (if key' = key then 1 else 0)) :
    Coupled exact t' held' := by
  have hpos : 0 < held .shared key := by rw [hS, if_pos rfl]; omega
  obtain ⟨p, hp⟩ := h.isRow_of_held hpos
  obtain ⟨i, hseek, hlock, hrel⟩ := traitPromote_ok hprom
  obtain rfl := isRow_of_seekKey h.table hp hseek
  obtain ⟨hlive, rfl⟩ := hp
  obtain ⟨a, b, hs, he⟩ := h.words i hlive
  refine h.relock hlive hrel id (fun type key hne => ?_) ⟨a, b, ?_, he⟩
  · cases type with
    | shared => rw [hS, if_neg hne, Nat.add_zero]
    | exclusive => rw [hX, if_neg hne, Nat.add_zero]
  · rw [hS, if_pos rfl, Nat.add_right_comm] at hs
    rw [hX, if_pos rfl, Nat.add_right_comm (held .exclusive _)]
    exact hs.promote hlock

/-- A recorded lock is given back. -/
theorem release (h : Coupled exact t held) (type : LockType) {key : TblRow}
    (hrelease : t.traitRelease key = some t')
    (hheld : ∀ type' key', held type' key'
      = held' type' key' + (if type' = type ∧ key' = key then 1 else 0)) :
    Coupled exact t' held' := by
  have hpos : 0 < held type key := by rw [hheld, if_pos ⟨rfl, rfl⟩]; omega
  obtain ⟨p, hp⟩ := h.isRow_of_held hpos
  obtain ⟨i, hseek, hrel⟩ := traitRelease_some hrelease
  obtain rfl := isRow_of_seekKey h.table hp hseek
  obtain ⟨hlive, rfl⟩ := hp
  obtain ⟨a, b, hs, he⟩ := h.words i hlive
  refine h.relock hlive hrel id (fun type' key hne => ?_) ⟨a, b, ?_, he⟩
  · rw [hheld type' key, if_neg fun hc => hne hc.2, Nat.add_zero]
  · rw [hheld .shared, hheld .exclusive] at hs
    cases type with
    | shared =>
        rw [if_pos ⟨rfl, rfl⟩, if_neg (by simp), Nat.add_right_comm] at hs
        obtain ⟨hne, hs'⟩ := hs.release_shared
        rw [if_neg hne]
        exact hs'
    | exclusive =>
        rw [if_neg (by simp), if_pos ⟨rfl, rfl⟩, Nat.add_right_comm _ 1] at hs
        obtain ⟨heq, hs'⟩ := hs.release_exclusive
        rw [if_pos heq]
        exact hs'

/-- A row is inserted under a key that was not live. -/
theorem insert (h : Coupled exact t held) {tuple : StudentTuple} (hfresh : t.Fresh)
    (hins : Inserted t i tuple t') : Coupled exact t' held := by
  have hnone : ∀ type, held type t.nextKey = 0 :=
    h.dead _ fun j hj => hfresh j hj.1 hj.2
  refine ⟨hins.wf h.table hfresh, fun j hj => ?_, fun key hdead => ?_⟩
  · by_cases hji : j = i
    · subst hji
      rw [hins.keyOf_self, hins.lock_self, hnone, hnone]
      exact ⟨0, 0, shows_zero, fun _ => ⟨rfl, rfl⟩⟩
    · rw [hins.live_of_ne hji] at hj
      rw [hins.keyOf_of_ne hji, hins.row_of_ne hji]
      exact h.words j hj
  · refine h.dead key fun j hj => hdead j ?_
    have hji := hins.ne_of_live hj.1
    exact ⟨by rw [hins.live_of_ne hji]; exact hj.1, by rw [hins.keyOf_of_ne hji]; exact hj.2⟩

theorem write (h : Coupled exact t held) {tuple : StudentTuple}
    (hwr : Written t i tuple t') : Coupled exact t' held := by
  refine ⟨hwr.wf h.table, fun j hj => ?_, fun key hdead => ?_⟩
  · rw [hwr.live] at hj
    rw [hwr.keyOf, hwr.lock]
    exact h.words j hj
  · exact h.dead key fun j hj => hdead j (hwr.isRow.mpr hj)

/-- A row is removed together with the one lock on it. -/
theorem remove (h : Coupled exact t held) {key : TblRow}
    (hremove : t.traitRemove key = some t')
    (hheld : ∀ type' key', held type' key'
      = held' type' key' + (if type' = .exclusive ∧ key' = key then 1 else 0)) :
    Coupled exact t' held' := by
  have hpos : 0 < held .exclusive key := by rw [hheld, if_pos ⟨rfl, rfl⟩]; omega
  obtain ⟨p, hp⟩ := h.isRow_of_held hpos
  obtain ⟨i, hseek, hrm⟩ := traitRemove_some hremove
  obtain rfl := isRow_of_seekKey h.table hp hseek
  obtain ⟨hX, hS⟩ := h.exclusion hpos
  obtain ⟨hlive, rfl⟩ := hp
  refine ⟨hrm.wf h.table hlive, fun j hj => ?_, fun key hdead type => ?_⟩
  · have hji := hrm.ne_of_live hj
    rw [hrm.live_of_ne hji] at hj
    have hkey : t.keyOf j ≠ t.keyOf i := fun he => hji (h.table.unique j i hj hlive he)
    rw [hrm.keyOf, hrm.row_of_ne hji]
    obtain ⟨a, b, hs, he⟩ := h.words j hj
    rw [hheld .shared, hheld .exclusive, if_neg fun hc => hkey hc.2,
      if_neg fun hc => hkey hc.2] at hs
    exact ⟨a, b, hs, he⟩
  · by_cases hkey : key = t.keyOf i
    · subst hkey
      rw [hheld] at hS hX
      rw [if_pos ⟨rfl, rfl⟩] at hX
      cases type with
      | shared => omega
      | exclusive => omega
    · have := h.dead key (fun j hj => ?_) type
      · rw [hheld] at this
        omega
      · have hji : j ≠ i := by
          rintro rfl
          exact hkey hj.2.symm
        exact hdead j ⟨by rw [hrm.live_of_ne hji]; exact hj.1, by rw [hrm.keyOf]; exact hj.2⟩

end Coupled

end PawnDB
