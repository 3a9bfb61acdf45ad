import Mathlib.Data.List.Induction

set_option autoImplicit false

/-! # Labelled machines and their runs

A machine takes a state and an action and either returns the next state with the events it
emitted, or has no such step. A run keeps its history: one `Entry` per step, with the state
before, the action, the events and the state after. Properties of runs are stated over
histories, so "every step of the run meets `C`" is a condition on its entries.

The rules at the end are the only inductions over runs a development needs: `Run.invariant`
for what every reachable state satisfies, `Run.invariant_within` for runs whose steps all
meet a condition, and `run_of_exec`, which turns an evaluated schedule into a run.
-/

/-- One step of a history. -/
structure Entry (σ α ε : Type) where
  pre : σ
  act : α
  out : List ε
  post : σ

/-- A labelled machine: `step s a = none` means that `a` is not possible in `s`. -/
structure Machine (σ α ε : Type) where
  step : σ → α → Option (σ × List ε)

namespace Machine

variable {σ α ε : Type} (M : Machine σ α ε)

/-- `M.Run s h t`: the machine can go from `s` to `t`, and `h` is what it did. -/
inductive Run : σ → List (Entry σ α ε) → σ → Prop
  | nil (s : σ) : Run s [] s
  | snoc {s t u : σ} {h : List (Entry σ α ε)} {a : α} {out : List ε} :
      Run s h t → M.step t a = some (u, out) → Run s (h ++ [⟨t, a, out, u⟩]) u

variable {M}

theorem Run.single {s t : σ} {a : α} {out : List ε} (hs : M.step s a = some (t, out)) :
    M.Run s [⟨s, a, out, t⟩] t :=
  (Run.nil s).snoc hs

theorem Run.trans {s t u : σ} {h k : List (Entry σ α ε)} (hr : M.Run s h t)
    (kr : M.Run t k u) : M.Run s (h ++ k) u := by
  induction kr with
  | nil => rwa [List.append_nil]
  | snoc _ hstep ih => rw [← List.append_assoc]; exact ih.snoc hstep

/-- A run that did nothing is where it began. -/
theorem Run.eq_of_nil {s t : σ} (hr : M.Run s [] t) : s = t := by
  generalize hg : ([] : List (Entry σ α ε)) = g at hr
  cases hr with
  | nil => rfl
  | snoc => simp at hg

/-- Every entry of a history is a step of the machine. -/
theorem Run.step_of_mem {s t : σ} {h : List (Entry σ α ε)} (hr : M.Run s h t) :
    ∀ e ∈ h, M.step e.pre e.act = some (e.post, e.out) := by
  induction hr with
  | nil => simp
  | snoc _ hstep ih =>
      intro e he
      rcases List.mem_append.mp he with he | he
      · exact ih e he
      · rw [List.mem_singleton.mp he]; exact hstep

/-- A run passes through the states of every entry of its history. -/
theorem Run.split {s t : σ} {h : List (Entry σ α ε)} (hr : M.Run s h t) {e : Entry σ α ε}
    (he : e ∈ h) : ∃ k l, h = k ++ e :: l ∧ M.Run s k e.pre ∧
      M.step e.pre e.act = some (e.post, e.out) ∧ M.Run e.post l t := by
  induction hr with
  | nil => cases he
  | @snoc t u h a out hr' hstep ih =>
      rcases List.mem_append.mp he with he | he
      · obtain ⟨k, l, rfl, h1, h2, h3⟩ := ih he
        exact ⟨k, l ++ [⟨t, a, out, u⟩], by simp, h1, h2, h3.snoc hstep⟩
      · obtain rfl := List.mem_singleton.mp he
        exact ⟨h, [], rfl, hr', hstep, Run.nil _⟩

/-- The last step of a run. -/
theorem Run.last {s t : σ} {h : List (Entry σ α ε)} {e : Entry σ α ε}
    (hr : M.Run s (h ++ [e]) t) :
    M.Run s h e.pre ∧ M.step e.pre e.act = some (e.post, e.out) ∧ e.post = t := by
  generalize hg : h ++ [e] = g at hr
  cases hr with
  | nil => simp at hg
  | snoc hr' hstep =>
      obtain ⟨rfl, he⟩ := List.append_inj' hg rfl
      obtain rfl := List.singleton_inj.mp he
      exact ⟨hr', hstep, rfl⟩

/-- A run can be cut after any prefix of its history. -/
theorem Run.cut {s u : σ} {h k : List (Entry σ α ε)} (hr : M.Run s (h ++ k) u) :
    ∃ t, M.Run s h t ∧ M.Run t k u := by
  induction k using List.reverseRecOn generalizing u with
  | nil => exact ⟨u, by simpa using hr, Run.nil u⟩
  | append_singleton k e ih =>
      rw [← List.append_assoc] at hr
      obtain ⟨hr', hstep, rfl⟩ := hr.last
      obtain ⟨t, h1, h2⟩ := ih hr'
      exact ⟨t, h1, h2.snoc hstep⟩

/-- **The invariant rule.** What holds of the start and is kept by every step, given the
history so far, holds at the end of every run. -/
theorem Run.invariant {P : List (Entry σ α ε) → σ → Prop} {s t : σ}
    {h : List (Entry σ α ε)} (hr : M.Run s h t) (h0 : P [] s)
    (hstep : ∀ k u a out v, M.Run s k u → P k u → M.step u a = some (v, out) →
      P (k ++ [⟨u, a, out, v⟩]) v) : P h t := by
  induction hr with
  | nil => exact h0
  | snoc hr' hs ih => exact hstep _ _ _ _ _ hr' ih hs

/-- **The invariant rule within a condition.** Every step of the run meets `C`, and a step
that meets `C` keeps `P`. -/
theorem Run.invariant_within {C : Entry σ α ε → Prop}
    {P : List (Entry σ α ε) → σ → Prop} {s t : σ} {h : List (Entry σ α ε)}
    (hr : M.Run s h t) (hC : ∀ e ∈ h, C e) (h0 : P [] s)
    (hstep : ∀ k u a out v, M.Run s k u → (∀ e ∈ k, C e) → P k u →
      M.step u a = some (v, out) → C ⟨u, a, out, v⟩ → P (k ++ [⟨u, a, out, v⟩]) v) :
    P h t := by
  induction hr with
  | nil => exact h0
  | snoc hr' hs ih =>
      have hk : ∀ e ∈ _, C e := fun e he => hC e (List.mem_append_left _ he)
      exact hstep _ _ _ _ _ hr' hk (ih hk) hs (hC _ (by simp))

/-- **The condition rule.** `P` holds of the start, and a step from a state with `P` keeps it
exactly when the step meets `C`. Then `P` holds all along a run exactly when every step meets
`C`. -/
theorem Run.always_iff {P : σ → Prop} {C : Entry σ α ε → Prop} {s t : σ}
    {h : List (Entry σ α ε)} (hr : M.Run s h t) (h0 : P s)
    (hstep : ∀ k u a out v, M.Run s k u → P u → M.step u a = some (v, out) →
      (P v ↔ C ⟨u, a, out, v⟩)) : (∀ e ∈ h, P e.post) ↔ ∀ e ∈ h, C e := by
  suffices hboth : ((∀ e ∈ h, P e.post) ↔ ∀ e ∈ h, C e) ∧ ((∀ e ∈ h, C e) → P t) from hboth.1
  induction hr with
  | nil => exact ⟨by simp, fun _ => h0⟩
  | @snoc t u h a out hr' hs ih =>
      simp only [List.forall_mem_append, List.forall_mem_singleton]
      rw [ih.1]
      refine ⟨and_congr_right fun hC => ?_, fun hC => ?_⟩
      · exact hstep h t a out u hr' (ih.2 hC) hs
      · exact (hstep h t a out u hr' (ih.2 hC.1) hs).mpr hC.2

/-- The condition rule for a property of histories, in every state that the run has passed. -/
theorem Run.throughout_iff {P : List (Entry σ α ε) → σ → Prop} {C : Entry σ α ε → Prop}
    {s t : σ} {h : List (Entry σ α ε)} (hr : M.Run s h t) (h0 : P [] s)
    (hstep : ∀ k u a out v, M.Run s k u → P k u → M.step u a = some (v, out) →
      (P (k ++ [⟨u, a, out, v⟩]) v ↔ C ⟨u, a, out, v⟩)) :
    (∀ k l u, h = k ++ l → M.Run s k u → P k u) ↔ ∀ e ∈ h, C e := by
  constructor
  · intro hall e he
    obtain ⟨k, l, rfl, hk, hs, -⟩ := hr.split he
    have hpost := hall (k ++ [e]) l e.post (by simp) (hk.snoc hs)
    exact (hstep k _ _ _ _ hk (hall k (e :: l) _ rfl hk) hs).mp hpost
  · rintro hC k l u rfl hk
    refine hk.invariant_within (fun e he => hC e (List.mem_append_left l he)) h0 ?_
    intro k u a out v hr _ ih hs hc
    exact (hstep k u a out v hr ih hs).mpr hc

/-- **The ranking rule within a condition.** Every step of the run meets `C`, those of a kind
lower the rank and the others do not raise it. So there are no more steps of that kind than the
rank at the start. -/
theorem Run.countP_add_rank_le (P : σ → Prop) (rank : σ → Nat) {c : Entry σ α ε → Bool}
    {C : Entry σ α ε → Prop} {s t : σ} {h : List (Entry σ α ε)} (hr : M.Run s h t)
    (hC : ∀ e ∈ h, C e) (h0 : P s)
    (hstep : ∀ u a out v, P u → M.step u a = some (v, out) → C ⟨u, a, out, v⟩ →
      P v ∧ rank v + (if c ⟨u, a, out, v⟩ = true then 1 else 0) ≤ rank u) :
    P t ∧ h.countP c + rank t ≤ rank s := by
  induction hr with
  | nil => exact ⟨h0, by simp⟩
  | snoc _ hs ih =>
      obtain ⟨hP, hle⟩ := ih fun e he => hC e (List.mem_append_left _ he)
      obtain ⟨hP', hle'⟩ := hstep _ _ _ _ hP hs (hC _ (by simp))
      refine ⟨hP', ?_⟩
      rw [List.countP_append, List.countP_singleton]
      omega

/-! ## Simulations -/

/-- **The simulation rule.** Every step of a run is matched by a run of another machine, from a
state with `R` to one with `R`, that shows the same. Then so is the run. -/
theorem Run.simulate {τ β δ ω : Type} {N : Machine τ β δ} (see : Entry σ α ε → List ω)
    (see' : Entry τ β δ → List ω) (R : List (Entry σ α ε) → σ → τ → Prop) {s t : σ} {x : τ}
    {h : List (Entry σ α ε)} (hr : M.Run s h t) (h0 : R [] s x)
    (hstep : ∀ k u a out v y, k ++ [⟨u, a, out, v⟩] <+: h → M.Run s k u → R k u y →
      M.step u a = some (v, out) → ∃ l z, N.Run y l z ∧ R (k ++ [⟨u, a, out, v⟩]) v z ∧
        l.flatMap see' = see ⟨u, a, out, v⟩) :
    ∃ l y, N.Run x l y ∧ R h t y ∧ l.flatMap see' = h.flatMap see := by
  induction hr with
  | nil => exact ⟨[], x, Run.nil x, h0, rfl⟩
  | @snoc t u h a out hr hs ih =>
      obtain ⟨l, y, hl, hR, hsee⟩ := ih fun k u a out v y hk =>
        hstep k u a out v y (hk.trans (List.prefix_append _ _))
      obtain ⟨l', z, hl', hR', hsee'⟩ := hstep h t a out u y List.prefix_rfl hr hR hs
      refine ⟨l ++ l', z, hl.trans hl', hR', ?_⟩
      rw [List.flatMap_append, List.flatMap_append, hsee, hsee', List.flatMap_singleton]

/-! ## Schedules -/

variable (M)

/-- Run a list of actions and keep the history; `none` when one of them is not possible. -/
def exec : σ → List α → Option (List (Entry σ α ε) × σ)
  | s, [] => some ([], s)
  | s, a :: as =>
      match M.step s a with
      | none => none
      | some (t, out) =>
          match exec t as with
          | none => none
          | some (h, u) => some (⟨s, a, out, t⟩ :: h, u)

variable {M}

theorem run_of_exec {as : List α} {s t : σ} {h : List (Entry σ α ε)}
    (he : M.exec s as = some (h, t)) : M.Run s h t := by
  induction as generalizing s h with
  | nil =>
      simp only [exec, Option.some.injEq, Prod.mk.injEq] at he
      obtain ⟨rfl, rfl⟩ := he
      exact Run.nil s
  | cons a as ih =>
      simp only [exec] at he
      split at he
      · cases he
      · rename_i t' out hs
        split at he
        · cases he
        · rename_i k u hk
          simp only [Option.some.injEq, Prod.mk.injEq] at he
          obtain ⟨rfl, rfl⟩ := he
          exact (Run.single hs).trans (ih hk)

/-- A schedule that evaluates to a state with property `p` is a run to such a state. -/
theorem exists_run_of_exec {as : List α} {s : σ} {p : List (Entry σ α ε) → σ → Bool}
    (he : (M.exec s as).map (fun r => p r.1 r.2) = some true) :
    ∃ h t, M.Run s h t ∧ p h t = true := by
  cases hr : M.exec s as with
  | none => simp [hr] at he
  | some r => exact ⟨r.1, r.2, run_of_exec hr, by simpa [hr] using he⟩

/-- The history of an evaluated schedule has its actions. -/
theorem acts_of_exec {as : List α} {s t : σ} {h : List (Entry σ α ε)}
    (he : M.exec s as = some (h, t)) : h.map Entry.act = as := by
  induction as generalizing s h with
  | nil =>
      simp only [exec, Option.some.injEq, Prod.mk.injEq] at he
      rw [← he.1]
      rfl
  | cons a as ih =>
      simp only [exec] at he
      split at he
      · cases he
      · split at he
        · cases he
        · rename_i hk
          simp only [Option.some.injEq, Prod.mk.injEq] at he
          obtain ⟨rfl, rfl⟩ := he
          rw [List.map_cons, ih hk]

/-- The same for a schedule in two parts, with the state in between. -/
theorem exists_runs_of_exec {as bs : List α} {s : σ} {p : σ → List (Entry σ α ε) → σ → Bool}
    (he : ((M.exec s as).bind fun r => (M.exec r.2 bs).map fun q => p r.2 q.1 q.2) = some true) :
    ∃ k t h u, M.Run s k t ∧ M.Run t h u ∧ h.map Entry.act = bs ∧ p t h u = true := by
  obtain ⟨r, hr, he⟩ := Option.bind_eq_some_iff.mp he
  obtain ⟨q, hq, hp⟩ := Option.map_eq_some_iff.mp he
  exact ⟨r.1, r.2, q.1, q.2, run_of_exec hr, run_of_exec hq, acts_of_exec hq, hp⟩

/-- The same with both histories. -/
theorem exists_histories_of_exec {as bs : List α} {s : σ}
    {p : List (Entry σ α ε) → σ → List (Entry σ α ε) → σ → Bool}
    (he : ((M.exec s as).bind fun r =>
      (M.exec r.2 bs).map fun q => p r.1 r.2 q.1 q.2) = some true) :
    ∃ h t k u, M.Run s h t ∧ M.Run t k u ∧ p h t k u = true := by
  obtain ⟨r, hr, he⟩ := Option.bind_eq_some_iff.mp he
  obtain ⟨q, hq, hp⟩ := Option.map_eq_some_iff.mp he
  exact ⟨r.1, r.2, q.1, q.2, run_of_exec hr, run_of_exec hq, hp⟩

/-- The same for a schedule and one more step. -/
theorem exists_step_of_exec {as : List α} {a : α} {s : σ}
    {p : List (Entry σ α ε) → σ → σ → List ε → Bool}
    (he : ((M.exec s as).bind fun r => (M.step r.2 a).map fun q => p r.1 r.2 q.1 q.2)
      = some true) :
    ∃ h t u out, M.Run s h t ∧ M.step t a = some (u, out) ∧ p h t u out = true := by
  obtain ⟨r, hr, he⟩ := Option.bind_eq_some_iff.mp he
  obtain ⟨q, hq, hp⟩ := Option.map_eq_some_iff.mp he
  exact ⟨r.1, r.2, q.1, q.2, run_of_exec hr, hq, hp⟩

/-- A run begins where its first entry does. -/
theorem Run.head {s t : σ} {e : Entry σ α ε} {h : List (Entry σ α ε)}
    (hr : M.Run s (e :: h) t) :
    e.pre = s ∧ M.step s e.act = some (e.post, e.out) ∧ M.Run e.post h t := by
  obtain ⟨u, h1, h2⟩ := Run.cut (h := [e]) hr
  obtain ⟨hnil, hstep, rfl⟩ := Run.last (h := []) h1
  obtain rfl := hnil.eq_of_nil
  exact ⟨rfl, hstep, h2⟩

/-! ## States by time -/

/-- The state after the first `t` steps of a history that begins in `s`. -/
def stateAt (s : σ) (h : List (Entry σ α ε)) (t : Nat) : σ :=
  (h.take t).getLast?.elim s Entry.post

/-- A run ends where its last entry does. -/
theorem Run.eq_last {s t : σ} {h : List (Entry σ α ε)} (hr : M.Run s h t) :
    t = h.getLast?.elim s Entry.post := by
  cases hr with
  | nil => rfl
  | snoc => simp

theorem Run.stateAt {s u : σ} {h : List (Entry σ α ε)} (hr : M.Run s h u) (t : Nat) :
    M.Run s (h.take t) (stateAt s h t) := by
  rw [← List.take_append_drop t h] at hr
  obtain ⟨v, hv, -⟩ := hr.cut
  rw [Machine.stateAt, ← hv.eq_last]
  exact hv

/-- After its last step a run stays where it is. -/
theorem Run.stateAt_of_le {s u : σ} {h : List (Entry σ α ε)} (hr : M.Run s h u) {t : Nat}
    (ht : h.length ≤ t) : Machine.stateAt s h t = u := by
  rw [Machine.stateAt, List.take_of_length_le ht, ← hr.eq_last]

/-- The step that a run makes at time `t`. -/
theorem Run.entry_at {s u : σ} {h : List (Entry σ α ε)} (hr : M.Run s h u) {t : Nat}
    (ht : t < h.length) : h[t].pre = Machine.stateAt s h t ∧
      h[t].post = Machine.stateAt s h (t + 1) ∧
      M.step h[t].pre h[t].act = some (h[t].post, h[t].out) := by
  have hsucc := hr.stateAt (t + 1)
  have htake : h.take (t + 1) = h.take t ++ [h[t]] := List.take_succ_eq_append_getElem ht
  rw [htake] at hsucc
  obtain ⟨hpre, hstep, hpost⟩ := hsucc.last
  refine ⟨?_, hpost, hstep⟩
  rw [hpre.eq_last, Machine.stateAt]

/-! ## Runs in lockstep -/

/-- Schedules that begin with related steps and go on alike. -/
theorem exec_cons_rel {R : σ → σ → Prop} {s s' : σ} {a a' : α} {as : List α}
    (hstep : Option.Rel (fun r r' => R r.1 r'.1 ∧ r'.2 = r.2) (M.step s a) (M.step s' a'))
    (hrest : ∀ t t', R t t' →
      Option.Rel (fun r r' => r'.1.map Entry.out = r.1.map Entry.out ∧ R r.2 r'.2)
        (M.exec t as) (M.exec t' as)) :
    Option.Rel (fun r r' => r'.1.map Entry.out = r.1.map Entry.out ∧ R r.2 r'.2)
      (M.exec s (a :: as)) (M.exec s' (a' :: as)) := by
  simp only [exec]
  generalize M.step s a = r at hstep ⊢
  generalize M.step s' a' = r' at hstep ⊢
  cases hstep with
  | none => exact .none
  | @some r r' hrel =>
      have hl := hrest r.1 r'.1 hrel.1
      dsimp only
      generalize M.exec r.1 as = l at hl ⊢
      generalize M.exec r'.1 as = l' at hl ⊢
      cases hl with
      | none => exact .none
      | some hrel' =>
          refine .some ⟨?_, hrel'.2⟩
          rw [List.map_cons, List.map_cons, hrel'.1, hrel.2]

/-- **The lockstep rule.** Two states are related, and from related states every action that is
`ok` is possible or not alike, emits the same and leads to related states. Then a schedule of such
actions evaluates alike from both. -/
theorem exec_rel {R : σ → σ → Prop} {ok : α → Prop}
    (hstep : ∀ s s' a, R s s' → ok a →
      Option.Rel (fun r r' => R r.1 r'.1 ∧ r'.2 = r.2) (M.step s a) (M.step s' a))
    {as : List α} {s s' : σ} (hR : R s s') (hok : ∀ a ∈ as, ok a) :
    Option.Rel (fun r r' => r'.1.map Entry.out = r.1.map Entry.out ∧ R r.2 r'.2)
      (M.exec s as) (M.exec s' as) := by
  induction as generalizing s s' with
  | nil => exact .some ⟨rfl, hR⟩
  | cons a as ih =>
      have hs := hstep s s' a hR (hok a List.mem_cons_self)
      exact exec_cons_rel hs fun t t' hrel => ih hrel fun b hb => hok b (List.mem_cons_of_mem a hb)

end Machine
