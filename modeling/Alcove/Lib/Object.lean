import Mathlib.Data.List.Basic

/-!
# Sequential objects

An object takes one operation after the other and answers each (`serve`). Two objects whose states
can be related so that every operation keeps the relation and is answered alike are answered alike
for every sequence of operations (`serve_related`).
-/

namespace Alcove.Lib

variable {σ τ ι ο : Type*}

/-- The state after a sequence of operations, and the answers. -/
def serve (exec : σ → ι → σ × ο) : σ → List ι → σ × List ο
  | s, [] => (s, [])
  | s, op :: ops =>
    let next := exec s op
    let rest := serve exec next.1 ops
    (rest.1, next.2 :: rest.2)

/-- **Simulation of objects.** -/
theorem serve_related {exec : σ → ι → σ × ο} {exec' : τ → ι → τ × ο} {R : σ → τ → Prop}
    (hstep : ∀ s t op, R s t → R (exec s op).1 (exec' t op).1 ∧ (exec s op).2 = (exec' t op).2)
    {s : σ} {t : τ} (h : R s t) (ops : List ι) :
    R (serve exec s ops).1 (serve exec' t ops).1 ∧
      (serve exec s ops).2 = (serve exec' t ops).2 := by
  induction ops generalizing s t with
  | nil => exact ⟨h, rfl⟩
  | cons op ops ih =>
    obtain ⟨hnext, hanswer⟩ := hstep s t op h
    obtain ⟨hlast, hrest⟩ := ih hnext
    refine ⟨hlast, ?_⟩
    simp only [serve, hanswer, hrest]

end Alcove.Lib
