import Mathlib.Data.List.FinRange
import Mathlib.Data.List.Perm.Basic
import PawnDB.Lib.Machine

set_option autoImplicit false

/-! # Ledgers

A machine takes things in, keeps them in some places and hands them out again, each for something
in return. When every step accounts for what it takes, keeps and settles, then so does a run:
what was taken in is what was settled and what is still kept, each thing once (`Run.ledger`).

The places are often an array of lists of which a step changes one (`perm_flatMap_off`). What is
handed out can be told apart afterwards (`forall₂_partition`).
-/

open scoped List

variable {κ β : Type}

/-- Of the lists in an array, one loses some of its elements and the others stay the same. -/
theorem perm_flatMap_off {n : Nat} {f g : Fin n → List κ} {i : Fin n} {l : List κ}
    (hoff : ∀ j, j ≠ i → f j = g j) (hi : (f i).Perm (l ++ g i)) :
    ((List.finRange n).flatMap f).Perm (l ++ (List.finRange n).flatMap g) := by
  have hfront : (List.finRange n).Perm (i :: (List.finRange n).erase i) :=
    List.perm_cons_erase (List.mem_finRange i)
  have hrest : ((List.finRange n).erase i).flatMap f = ((List.finRange n).erase i).flatMap g :=
    List.flatMap_congr fun j hj =>
      hoff j ((List.nodup_finRange n).mem_erase_iff.mp hj).1
  calc (List.finRange n).flatMap f
      ~ f i ++ ((List.finRange n).erase i).flatMap f := hfront.flatMap_right f
    _ ~ l ++ g i ++ ((List.finRange n).erase i).flatMap g := by
        rw [hrest]
        exact hi.append_right _
    _ ~ l ++ (List.finRange n).flatMap g := by
        rw [List.append_assoc]
        exact (hfront.flatMap_right g).symm.append_left l

/-- What is paired with the elements that pass a test, and what with the others. -/
theorem forall₂_partition {R : κ → β → Prop} (p : β → Bool) {l : List κ} {l' : List β}
    (h : List.Forall₂ R l l') : ∃ l₁ l₂, l.Perm (l₁ ++ l₂) ∧ List.Forall₂ R l₁ (l'.filter p) ∧
      List.Forall₂ R l₂ (l'.filter fun b => !p b) := by
  induction h with
  | nil => exact ⟨[], [], .nil, .nil, .nil⟩
  | @cons a b l l' hab _ ih =>
      obtain ⟨l₁, l₂, hperm, h₁, h₂⟩ := ih
      rw [List.filter_cons, List.filter_cons]
      cases p b with
      | true => exact ⟨a :: l₁, l₂, hperm.cons a, .cons hab h₁, h₂⟩
      | false => exact ⟨l₁, a :: l₂, (hperm.cons a).trans List.perm_middle.symm, h₁, .cons hab h₂⟩

namespace Machine

variable {σ α ε : Type} {M : Machine σ α ε}

/-- **The ledger rule.** Everything that is taken in is settled once or still held. -/
theorem Run.ledger (R : κ → β → Prop) (taken : Entry σ α ε → List κ)
    (given : Entry σ α ε → List β) (held : σ → List κ) {s t : σ} {h : List (Entry σ α ε)}
    (hr : M.Run s h t) (h0 : held s = [])
    (hstep : ∀ k u a out v, k ++ [⟨u, a, out, v⟩] <+: h → M.Run s k u →
      M.step u a = some (v, out) → ∃ done, List.Forall₂ R done (given ⟨u, a, out, v⟩) ∧
        (taken ⟨u, a, out, v⟩ ++ held u).Perm (done ++ held v)) :
    ∃ done, List.Forall₂ R done (h.flatMap given) ∧
      (h.flatMap taken).Perm (done ++ held t) := by
  induction hr with
  | nil => exact ⟨[], .nil, by rw [h0]; exact .nil⟩
  | @snoc t u h a out hr hs ih =>
      obtain ⟨done, hgiven, htaken⟩ := ih fun k u a out v hk =>
        hstep k u a out v (hk.trans (List.prefix_append _ _))
      obtain ⟨done', hgiven', htaken'⟩ := hstep h t a out u List.prefix_rfl hr hs
      refine ⟨done ++ done', ?_, ?_⟩
      · rw [List.flatMap_append, List.flatMap_singleton]
        exact List.rel_append hgiven hgiven'
      · -- what was held before the step is settled by it or held after it
        rw [List.flatMap_append, List.flatMap_singleton, List.append_assoc]
        refine (htaken.append_right _).trans ?_
        rw [List.append_assoc]
        exact (List.perm_append_comm.trans htaken').append_left done

end Machine
