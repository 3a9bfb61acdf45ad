import PawnDB.Lib.Slots
import Mathlib.Data.List.Basic

set_option autoImplicit false

/-! # Serial orders of a log

A log is a list of accesses that several owners made to one store, in the order they were made.
`play` carries a log out on a store and fails where an access is not possible there. `serial`
is the same log with the accesses of one owner after those of another, each in its own order.

`play_serial` is when both come to the same: whenever an access was made before one whose owner
comes earlier in the order, the two commute. Accesses to the items of a store (`Access`) commute
if they are to different items or both are reads.
-/

namespace Serial

/-! ## Logs -/

section Log

variable {A S ι : Type}

/-- Carry out the accesses of a log in turn. -/
def play (act : S → A → Option S) (s : S) (L : List A) : Option S := L.foldlM act s

/-- In either order two accesses come to the same. -/
def Commute (act : S → A → Option S) (a b : A) : Prop :=
  ∀ s, play act s [a, b] = play act s [b, a]

/-- The accesses of the owners one after the other. -/
def serial [DecidableEq ι] (owner : A → ι) (order : List ι) (L : List A) : List A :=
  order.flatMap fun i => L.filter fun a => decide (owner a = i)

variable {act : S → A → Option S}

@[simp] theorem play_nil (s : S) : play act s [] = some s := rfl

theorem play_cons (s : S) (a : A) (L : List A) :
    play act s (a :: L) = (act s a).bind fun t => play act t L := rfl

theorem play_append (s : S) (L M : List A) :
    play act s (L ++ M) = (play act s L).bind fun t => play act t M :=
  List.foldlM_append

theorem play_append_congr {L L' : List A} (h : ∀ s, play act s L = play act s L') (M : List A)
    (s : S) : play act s (L ++ M) = play act s (L' ++ M) := by
  rw [play_append, play_append, h]

/-- An access can be moved past those it commutes with. -/
theorem play_move {a : A} {L : List A} (h : ∀ b ∈ L, Commute act a b) (M : List A) (s : S) :
    play act s (a :: (L ++ M)) = play act s (L ++ a :: M) := by
  induction L generalizing s with
  | nil => rfl
  | cons b L ih =>
      have hswap : play act s (a :: b :: (L ++ M)) = play act s (b :: a :: (L ++ M)) :=
        play_append_congr (h b List.mem_cons_self) (L ++ M) s
      rw [List.cons_append, hswap, List.cons_append, play_cons, play_cons]
      congr 1
      funext t
      exact ih (fun c hc => h c (List.mem_cons_of_mem b hc)) t

/-- **The accesses with `p` first.** Whatever was made before an access with `p` has `p` too or
commutes with it. -/
theorem play_partition (p : A → Bool) {L : List A}
    (h : L.Pairwise fun a b => p a = false → p b = true → Commute act a b) (s : S) :
    play act s L = play act s (L.filter p ++ L.filter fun a => !p a) := by
  induction L generalizing s with
  | nil => rfl
  | cons a L ih =>
      obtain ⟨ha, hL⟩ := List.pairwise_cons.mp h
      rw [play_cons]
      simp only [ih hL]
      rw [← play_cons]
      cases hp : p a with
      | true => rw [List.filter_cons_of_pos hp, List.filter_cons_of_neg (by simp [hp])]; rfl
      | false =>
          rw [List.filter_cons_of_neg (by simp [hp]), List.filter_cons_of_pos (by simp [hp])]
          refine play_move (fun b hb => ?_) _ s
          obtain ⟨hmem, hpb⟩ := List.mem_filter.mp hb
          exact ha b hmem hp hpb

variable [DecidableEq ι] {owner : A → ι}

/-- The accesses of other owners do not matter. -/
theorem serial_filter {p : A → Bool} {order : List ι} {L : List A}
    (h : ∀ a ∈ L, owner a ∈ order → p a = true) :
    serial owner order (L.filter p) = serial owner order L := by
  refine List.flatMap_congr fun i hi => ?_
  rw [List.filter_filter]
  refine List.filter_congr fun a ha => ?_
  by_cases hai : owner a = i
  · rw [h a ha (hai ▸ hi), Bool.and_true]
  · rw [decide_eq_false hai, Bool.false_and]

/-- **A log is as good as its serial order**, if accesses that change places commute. -/
theorem play_serial {order : List ι} {L : List A} (hd : order.Nodup)
    (hall : ∀ a ∈ L, owner a ∈ order)
    (h : L.Pairwise fun a b => [owner b, owner a].Sublist order → Commute act a b) (s : S) :
    play act s L = play act s (serial owner order L) := by
  induction order generalizing L s with
  | nil =>
      obtain rfl : L = [] := List.eq_nil_iff_forall_not_mem.mpr fun a ha => by
        cases hall a ha
      rfl
  | cons i order ih =>
      obtain ⟨hi, hd⟩ := List.nodup_cons.mp hd
      -- the accesses of the first owner come to the front
      have hfront : play act s L = play act s ((L.filter fun a => decide (owner a = i)) ++
          L.filter fun a => !decide (owner a = i)) := by
        refine play_partition _ (h.imp_of_mem fun {a b} ha _ hab hpa hpb => hab ?_) s
        rw [of_decide_eq_true hpb]
        refine List.Sublist.cons_cons i (List.singleton_sublist.mpr ?_)
        exact (List.mem_cons.mp (hall a ha)).resolve_left (of_decide_eq_false hpa)
      rw [hfront, serial, List.flatMap_cons, play_append, play_append]
      congr 1
      funext t
      -- and the others are as they were
      have hrest : ∀ a ∈ L, owner a ∈ order → (!decide (owner a = i)) = true := by
        intro a _ hmem
        simp only [Bool.not_eq_true', decide_eq_false_iff_not]
        rintro rfl
        exact hi hmem
      have hL : ∀ a ∈ L.filter fun a => !decide (owner a = i), owner a ∈ order := by
        intro a ha
        obtain ⟨hmem, hne⟩ := List.mem_filter.mp ha
        simp only [Bool.not_eq_true', decide_eq_false_iff_not] at hne
        exact (List.mem_cons.mp (hall a hmem)).resolve_left hne
      rw [ih hd hL ((h.filter _).imp fun hab hs => hab (hs.cons i)) t, serial_filter hrest]
      rfl

end Log

/-! ## Accesses to items -/

/-- An access to an item: the value it finds there decides whether it is possible and what it
leaves there. -/
inductive Access (K V : Type)
  /-- The value `v` is read. -/
  | read (k : K) (v : V)
  /-- The item comes to be. -/
  | create (k : K) (v : V)
  | write (k : K) (v : V)
  | remove (k : K)

namespace Access

variable {K V : Type}

def item : Access K V → K
  | read k _ | create k _ | write k _ | remove k => k

def isRead : Access K V → Bool
  | read _ _ => true
  | _ => false

def isCreate : Access K V → Bool
  | create _ _ => true
  | _ => false

variable [DecidableEq V]

/-- What an access leaves of the value of its item, if it is possible. -/
def onItem (o : Option V) : Access K V → Option (Option V)
  | read _ v => if o = some v then some o else none
  | create _ v => if o = none then some (some v) else none
  | write _ v => if o.isSome then some (some v) else none
  | remove _ => if o.isSome then some none else none

variable [DecidableEq K]

/-- What an access does to a store. -/
def act (m : K → Option V) (a : Access K V) : Option (K → Option V) :=
  (a.onItem (m a.item)).map fun o => Slots.set m a.item o

theorem commute_of_item_ne {a b : Access K V} (h : a.item ≠ b.item) : Commute act a b := by
  intro m
  have hab : ∀ o, Slots.set m a.item o b.item = m b.item := fun o =>
    Slots.set_of_ne m o h.symm
  have hba : ∀ o, Slots.set m b.item o a.item = m a.item := fun o => Slots.set_of_ne m o h
  simp only [play_cons, act]
  cases ha : a.onItem (m a.item) with
  | none => cases hb : b.onItem (m b.item) with
    | none => rfl
    | some y => simp [hba, ha]
  | some x => cases hb : b.onItem (m b.item) with
    | none => simp [hab, hb]
    | some y =>
        simp only [Option.map_some, Option.bind_some, hab, hba, ha, hb, play_nil]
        rw [Slots.set_eq_update, Slots.set_eq_update, Slots.set_eq_update, Slots.set_eq_update,
          Function.update_comm h]

/-- A read leaves the store as it is. -/
theorem act_read {m m' : K → Option V} {a : Access K V} (ha : a.isRead = true)
    (h : act m a = some m') : m' = m := by
  obtain ⟨o, ho, rfl⟩ := Option.map_eq_some_iff.mp h
  cases a with
  | read k v =>
      simp only [onItem] at ho
      split at ho
      · obtain rfl := Option.some.inj ho
        rw [Slots.set_eq_update]
        exact Function.update_eq_self _ _
      · cases ho
  | create | write | remove => cases ha

theorem commute_of_isRead {a b : Access K V} (ha : a.isRead = true) (hb : b.isRead = true) :
    Commute act a b := by
  intro m
  have hsame : ∀ {c : Access K V}, c.isRead = true → act m c = none ∨ act m c = some m :=
    fun {c} hc => by
      cases hac : act m c with
      | none => exact Or.inl rfl
      | some m' => exact Or.inr (by rw [act_read hc hac])
  rcases hsame ha with ha | ha
  · rcases hsame hb with hb | hb
    · simp [play_cons, ha, hb]
    · simp [play_cons, ha, hb]
  · rcases hsame hb with hb | hb
    · simp [play_cons, ha, hb]
    · simp [play_cons, ha, hb]

/-- What an access leaves of the value of its item. -/
def leave (o : Option V) : Access K V → Option V
  | read _ _ => o
  | create _ v | write _ v => some v
  | remove _ => none

/-- What the accesses of a log leave of the value of item `k`. -/
def left (k : K) (o : Option V) (L : List (Access K V)) : Option V :=
  L.foldl (fun o a => if a.item = k then a.leave o else o) o

theorem act_item {m m' : K → Option V} {a : Access K V} (h : act m a = some m') (k : K) :
    m' k = if a.item = k then a.leave (m k) else m k := by
  obtain ⟨o, ho, rfl⟩ := Option.map_eq_some_iff.mp h
  by_cases hk : a.item = k
  · subst hk
    rw [Slots.set_self, if_pos rfl]
    cases a with
    | read k v =>
        simp only [onItem] at ho
        split at ho
        · exact (Option.some.inj ho).symm
        · cases ho
    | create k v | write k v | remove k =>
        simp only [onItem] at ho
        split at ho
        · exact (Option.some.inj ho).symm
        · cases ho
  · rw [Slots.set_of_ne _ _ (Ne.symm hk), if_neg hk]

/-- A log that can be carried out leaves on each item what its accesses to that item leave. -/
theorem play_item {m m' : K → Option V} {L : List (Access K V)} (h : play act m L = some m')
    (k : K) : m' k = left k (m k) L := by
  induction L generalizing m with
  | nil => rw [← Option.some.inj h]; rfl
  | cons a L ih =>
      rw [play_cons] at h
      obtain ⟨m1, ha, hL⟩ := Option.bind_eq_some_iff.mp h
      rw [ih hL, act_item ha, left, left, List.foldl_cons]

/-- A read finds what the accesses before it have left. -/
theorem play_read {m m' : K → Option V} {L M : List (Access K V)} {k : K} {v : V}
    (h : play act m (L ++ read k v :: M) = some m') : left k (m k) L = some v := by
  rw [play_append] at h
  obtain ⟨m1, hL, hrest⟩ := Option.bind_eq_some_iff.mp h
  rw [play_cons] at hrest
  obtain ⟨m2, ha, -⟩ := Option.bind_eq_some_iff.mp hrest
  rw [← play_item hL k]
  by_contra hne
  simp [act, onItem, item, hne] at ha

end Access

end Serial
