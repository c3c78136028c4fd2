import Mathlib.Data.Nat.Init
import Mathlib.Tactic.Cases
import Mathlib.Order.Basic

/-!
# While loops

A loop `while (test(s)) s = step(s);` over states of any type. The test and the step may have no
defined result, and then the loop has none. `whileLoop` stops after a given number of rounds, so it
has a result for enough rounds exactly when the loop ends, and more rounds do not change it
(`whileLoop_mono`). An invariant holds where the loop ends (`whileLoop_invariant`), and the loop
ends when the invariant lets each round decrease a measure (`whileLoop_terminates`).
-/

namespace Alcove.Lib

variable {σ : Type*} (test : σ → Option Bool) (step : σ → Option σ)

/-- `while (test(s)) s = step(s);` in fewer rounds than given. -/
def whileLoop : ℕ → σ → Option σ
  | 0, _ => none
  | n + 1, s => (test s).bind fun
    | true => (step s).bind (whileLoop n)
    | false => some s

variable {test step} {s s' : σ}

theorem whileLoop_exit (n : ℕ) (h : test s = some false) : whileLoop test step (n + 1) s = some s := by
  rw [whileLoop, h]
  rfl

theorem whileLoop_round (n : ℕ) (h : test s = some true) (hs : step s = some s') :
    whileLoop test step (n + 1) s = whileLoop test step n s' := by
  rw [whileLoop, h, Option.bind_some]
  simp only [hs, Option.bind_some]

/-- What a loop with a result did first. -/
theorem whileLoop_cases {n : ℕ} (h : whileLoop test step n s = some s') :
    ∃ m, n = m + 1 ∧ (test s = some false ∧ s' = s ∨
      test s = some true ∧ ∃ s₁, step s = some s₁ ∧ whileLoop test step m s₁ = some s') := by
  cases n with
  | zero => cases h
  | succ m =>
    refine ⟨m, rfl, ?_⟩
    obtain ⟨b, hb, hrest⟩ := Option.bind_eq_some_iff.mp h
    cases b with
    | false => exact .inl ⟨hb, (Option.some.inj hrest).symm⟩
    | true =>
      obtain ⟨s₁, hs₁, hloop⟩ := Option.bind_eq_some_iff.mp hrest
      exact .inr ⟨hb, s₁, hs₁, hloop⟩

theorem whileLoop_mono {n m : ℕ} (h : whileLoop test step n s = some s') (hnm : n ≤ m) :
    whileLoop test step m s = some s' := by
  induction n generalizing m s with
  | zero => cases h
  | succ n ih =>
    obtain ⟨m, rfl⟩ : ∃ k, m = k + 1 := ⟨m - 1, by omega⟩
    obtain ⟨k, hk, ⟨ht, rfl⟩ | ⟨ht, s₁, hs₁, hloop⟩⟩ := whileLoop_cases h
    · exact whileLoop_exit m ht
    · cases hk
      rw [whileLoop_round m ht hs₁]
      exact ih hloop (by omega)

variable {I : σ → Prop}

theorem whileLoop_invariant {n : ℕ}
    (hstep : ∀ s s', I s → test s = some true → step s = some s' → I s') (hI : I s)
    (h : whileLoop test step n s = some s') : I s' ∧ test s' = some false := by
  induction n generalizing s with
  | zero => cases h
  | succ n ih =>
    obtain ⟨k, hk, ⟨ht, rfl⟩ | ⟨ht, s₁, hs₁, hloop⟩⟩ := whileLoop_cases h
    · exact ⟨hI, ht⟩
    · cases hk
      exact ih (hstep s s₁ hI ht hs₁) hloop

theorem whileLoop_terminates (μ : σ → ℕ)
    (hstep : ∀ s, I s → test s = some false ∨
      test s = some true ∧ ∃ s', step s = some s' ∧ I s' ∧ μ s' < μ s) (hI : I s) :
    ∃ n s', whileLoop test step n s = some s' ∧ I s' ∧ test s' = some false := by
  induction h : μ s using Nat.strong_induction_on generalizing s with
  | _ k ih =>
    obtain ht | ⟨ht, s₁, hs₁, hI₁, hμ⟩ := hstep s hI
    · exact ⟨1, s, whileLoop_exit 0 ht, hI, ht⟩
    · obtain ⟨n, s', hloop, hend⟩ := ih (μ s₁) (h ▸ hμ) hI₁ rfl
      exact ⟨n + 1, s', by rw [whileLoop_round n ht hs₁, hloop], hend⟩

end Alcove.Lib
