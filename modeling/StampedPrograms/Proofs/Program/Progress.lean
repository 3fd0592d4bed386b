import StampedPrograms.Program.Run

/-!
How far a run gets. Blocks that all succeed lead from one progress and state to another, and a run is such a
stretch of blocks, which either are all of them or end in front of the first block that fails.
-/

namespace StampedPrograms

variable {σ : Type} {handler : Handler σ} {policy : Policy}

/-- These blocks succeed one after the other and lead from there to here. -/
inductive Reaches (handler : Handler σ) (policy : Policy) :
    Progress → σ → List Block → Progress → σ → Prop where
  | nil (p : Progress) (s : σ) : Reaches handler policy p s [] p s
  | cons {p p' q : Progress} {s s' t : σ} {block : Block} {blocks : List Block}
      (first : block.perform handler policy p s = (.ok p', s'))
      (rest : Reaches handler policy p' s' blocks q t) : Reaches handler policy p s (block :: blocks) q t

namespace Reaches

variable {p q : Progress} {s t : σ}

/-- The run goes on where the blocks lead. -/
theorem runFrom_append {done : List Block} (h : Reaches handler policy p s done q t) (rest : List Block) :
    runFrom handler policy p s (done ++ rest) = runFrom handler policy q t rest := by
  induction h with
  | nil => rfl
  | cons first _ ih =>
      rw [List.cons_append, runFrom, first]
      exact ih

theorem runFrom_eq {blocks : List Block} (h : Reaches handler policy p s blocks q t) :
    runFrom handler policy p s blocks = ⟨none, q.outcome, t⟩ := by
  have happend := h.runFrom_append []
  rwa [List.append_nil] at happend

end Reaches

theorem runFrom_of_fails {p : Progress} {s t : σ} {block : Block} {e : Error}
    (h : block.perform handler policy p s = (.error e, t)) (after : List Block) :
    runFrom handler policy p s (block :: after) = ⟨some e, p.outcome, t⟩ := by
  rw [runFrom, h]

/-- A run in which all blocks succeed, or one that ends at its first failing block. -/
inductive Ends (handler : Handler σ) (policy : Policy) (p : Progress) (s : σ) : List Block → Run σ → Prop where
  | completed {blocks : List Block} {q : Progress} {t : σ} (reaches : Reaches handler policy p s blocks q t) :
      Ends handler policy p s blocks ⟨none, q.outcome, t⟩
  | failed {done after : List Block} {block : Block} {q : Progress} {t u : σ} {e : Error}
      (reaches : Reaches handler policy p s done q t)
      (fails : block.perform handler policy q t = (.error e, u)) :
      Ends handler policy p s (done ++ block :: after) ⟨some e, q.outcome, u⟩

theorem ends_runFrom (handler : Handler σ) (policy : Policy) (p : Progress) (s : σ) (blocks : List Block) :
    Ends handler policy p s blocks (runFrom handler policy p s blocks) := by
  induction blocks generalizing p s with
  | nil => exact .completed (.nil p s)
  | cons block blocks ih =>
      rw [runFrom]
      cases hperform : block.perform handler policy p s with
      | mk answer s' =>
          cases answer with
          | error e =>
              show Ends handler policy p s ([] ++ block :: blocks) _
              exact .failed (.nil p s) hperform
          | ok p' =>
              have hrest := ih p' s'
              dsimp only
              generalize runFrom handler policy p' s' blocks = run at hrest
              cases hrest with
              | completed reaches => exact .completed (.cons hperform reaches)
              | failed reaches fails => exact .failed (.cons hperform reaches) fails

theorem exists_reaches {p : Progress} {s : σ} {blocks : List Block}
    (h : (runFrom handler policy p s blocks).failure = none) : ∃ q t, Reaches handler policy p s blocks q t := by
  have hends := ends_runFrom handler policy p s blocks
  generalize runFrom handler policy p s blocks = run at hends h
  cases hends with
  | completed reaches => exact ⟨_, _, reaches⟩
  | failed => cases h

end StampedPrograms
