import PawnDB.Worker.Effects

set_option autoImplicit false

/-! # What is queued for the commit

A step leaves the queue as it is, appends the entry of the request it accepts, drops the entry
it applies, or empties the queue at the end (`Effect.contents`).
-/

namespace PawnDB

variable {w w' : Worker} {p p' : Point} {db db' : StudentTable} {a : Act} {out : List Event}

theorem Point.Open.drained {w : Worker} {p : Point} (h : p.Open w)
    {parser : JobBuf} {conn : ClientConn} (hp : p = .commit parser conn) :
    w.commitQueue.contents = [] := by
  rw [hp] at h
  exact CommitQueue.empty_iff.mp h

/-- **What a step does to the queue.** A thread leaves the drain loop only with nothing left. -/
theorem Effect.contents (h : Effect w p db a w' p' db' out) (hw : w.Wf p) :
    (w'.commitQueue.contents = w.commitQueue.contents ∧ (∀ parser conn, p = .commit parser conn →
        a = .stop ∧ p' = p ∨ w.commitQueue.contents = [])) ∨
    (∃ job op key, a = .recv job ∧ p = .recv ∧ job.buf.getOp = .ok op ∧ op.Writes ∧
        w.target op job.buf = some key ∧ w.commitQueue.full = false ∧
        (w.status = .aborted → w'.status = .aborted) ∧
        w'.commitQueue.contents = w.commitQueue.contents ++ [Worker.entryFor op key job.buf]) ∨
    (∃ parser conn, p = .commit parser conn ∧ p' = p ∧ a = .resume ∧
        w.commitQueue.empty = false ∧
        w.commitQueue.contents = w.commitQueue.get :: w'.commitQueue.contents) ∨
    ((∃ idx, p = .release idx) ∧ p' = .ended ∧ w'.commitQueue.contents = []) := by
  have hpop := fun he => (CommitQueue.contents_pop hw.queue he).2
  have hsame : ∀ {q : Point} {l : LockList}, (∀ parser conn, p ≠ .commit parser conn) →
      (({ w with lockList := l } : Worker).commitQueue.contents = w.commitQueue.contents ∧
        ∀ parser conn, p = .commit parser conn →
          a = .stop ∧ q = p ∨ w.commitQueue.contents = []) :=
    fun hp => ⟨rfl, fun _ _ he => absurd he (hp _ _)⟩
  cases h with
  | stop => exact Or.inl ⟨rfl, fun _ _ _ => Or.inl ⟨rfl, rfl⟩⟩
  | move hopen hq _ _ _ _ _ _ =>
      exact Or.inl ⟨by rw [hq], fun _ _ hp => Or.inr (hopen.drained hp)⟩
  | phase hopen hq _ _ _ =>
      exact Or.inl ⟨by rw [hq], fun _ _ hp => Or.inr (hopen.drained hp)⟩
  | queue hp hop hwr htarget hfull hq _ hst _ =>
      refine Or.inr (Or.inl ⟨_, _, _, rfl, hp, hop, hwr, htarget, hfull, hst.aborted, ?_⟩)
      rw [hq]
      exact (CommitQueue.contents_send hw.queue hfull).2
  | grantShared _ hp _ _ _ _ => exact Or.inl (hsame (by simp [hp]))
  | grantExclusive _ hp _ _ _ _ => exact Or.inl (hsame (by simp [hp]))
  | refuseShared _ hp _ _ _ => exact Or.inl (hsame (by simp [hp]))
  | refuseExclusive _ hp _ _ _ => exact Or.inl (hsame (by simp [hp]))
  | yield hp _ _ _ _ hq _ _ _ =>
      exact Or.inl ⟨by rw [hq], fun _ _ he => by rw [hp] at he; cases he⟩
  | promote hs _ _ _ _ _ _ => exact Or.inl ⟨rfl, fun _ _ _ => Or.inr (hw.growing hs)⟩
  | remove hp he _ _ _ _ => exact Or.inr (Or.inr (Or.inl ⟨_, _, hp, rfl, rfl, he, hpop he⟩))
  | free hp _ _ _ => exact Or.inl (hsame (by simp [hp]))
  | finish hp _ _ _ hc _ _ => exact Or.inr (Or.inr (Or.inr ⟨⟨_, hp⟩, rfl, hc⟩))

/-- A queued entry was there before or is the one of the request that is being handled. -/
theorem Effect.mem_contents (h : Effect w p db a w' p' db' out) (hw : w.Wf p) {e : Commit}
    (he : e ∈ w'.commitQueue.contents) : e ∈ w.commitQueue.contents ∨
      ∃ job op key, a = .recv job ∧ p = .recv ∧ job.buf.getOp = .ok op ∧ op.Writes ∧
        w.target op job.buf = some key ∧ w.commitQueue.full = false ∧
        e = Worker.entryFor op key job.buf ∧
        w'.commitQueue.contents = w.commitQueue.contents ++ [e] := by
  rcases h.contents hw with ⟨hc, -⟩ | ⟨job, op, key, ha, hp, hop, hwr, ht, hf, -, hc⟩ |
    ⟨parser, conn, -, -, -, -, hc⟩ | ⟨-, -, hc⟩
  · exact Or.inl (hc ▸ he)
  · rw [hc] at he
    rcases List.mem_append.mp he with he | he
    · exact Or.inl he
    · obtain rfl := List.mem_singleton.mp he
      exact Or.inr ⟨job, op, key, ha, hp, hop, hwr, ht, hf, rfl, hc⟩
  · rw [hc]
    exact Or.inl (List.mem_cons_of_mem _ he)
  · rw [hc] at he
    cases he

/-- A thread that has ended does nothing more. -/
theorem Effect.ended (h : Effect w p db a w' p' db' out) (hp : p = .ended) : p' = .ended := by
  cases h with
  | stop => exact hp
  | move hopen | phase hopen => rw [hp] at hopen; exact hopen.elim
  | promote _ hact => rw [hp] at hact; exact hact.elim
  | finish => rfl
  | queue he | grantShared _ he | grantExclusive _ he | refuseShared _ he | refuseExclusive _ he
  | yield he | remove he | free he => rw [hp] at he; cases he

end PawnDB
