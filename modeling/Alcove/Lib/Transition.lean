import Mathlib.Data.List.Basic

/-!
# Labelled transition systems

Runs of a system given by a partial step function on labelled steps. A run may be restricted by a
condition `ok` on the steps it takes (`Path step ok`); the run with no restriction is executable
(`run`). An invariant is carried along a run by `Path.invariant`, a relation to the states of a
second system by `Path.simulates`, and a bound on the number of steps of one kind by
`Path.measure`.
-/

namespace Alcove.Lib

variable {σ ℓ : Type*} (step : σ → ℓ → Option σ)

/-- Take the listed steps in order; `none` when one of them is not enabled. -/
def run : σ → List ℓ → Option σ
  | s, [] => some s
  | s, l :: ls => (step s l).bind fun s' => run s' ls

variable {step} in
theorem run_append {ls ls' : List ℓ} {s₁ s₂ s₃ : σ} (h : run step s₁ ls = some s₂)
    (h' : run step s₂ ls' = some s₃) : run step s₁ (ls ++ ls') = some s₃ := by
  induction ls generalizing s₁ with
  | nil =>
    obtain rfl := Option.some.inj h
    exact h'
  | cons l ls ih =>
    simp only [run, Option.bind_eq_some_iff] at h
    obtain ⟨s, hs, hrest⟩ := h
    rw [List.cons_append, run, hs]
    exact ih hrest

/-- `Path step ok s ls s'`: the steps `ls` lead from `s` to `s'`, and each meets `ok` in the state
it is taken in. -/
inductive Path (ok : σ → ℓ → Prop) : σ → List ℓ → σ → Prop
  | nil (s : σ) : Path ok s [] s
  | cons {s s' s'' : σ} {l : ℓ} {ls : List ℓ} (hok : ok s l) (hstep : step s l = some s')
      (rest : Path ok s' ls s'') : Path ok s (l :: ls) s''

/-- The restriction that every step meets. -/
def anyStep : σ → ℓ → Prop := fun _ _ => True

variable {step}

namespace Path

variable {ok : σ → ℓ → Prop} {s s' s'' : σ} {ls ls' : List ℓ}

theorem append (h : Path step ok s ls s') (h' : Path step ok s' ls' s'') :
    Path step ok s (ls ++ ls') s'' := by
  induction h with
  | nil s => exact h'
  | cons hok hstep _ ih => exact .cons hok hstep (ih h')

theorem split (h : Path step ok s (ls ++ ls') s'') :
    ∃ s', Path step ok s ls s' ∧ Path step ok s' ls' s'' := by
  induction ls generalizing s with
  | nil => exact ⟨s, .nil s, h⟩
  | cons l ls ih =>
    cases h with
    | cons hok hstep rest =>
      obtain ⟨s', h₁, h₂⟩ := ih rest
      exact ⟨s', .cons hok hstep h₁, h₂⟩

theorem mono {ok' : σ → ℓ → Prop} (hmono : ∀ s l, ok s l → ok' s l) (h : Path step ok s ls s') :
    Path step ok' s ls s' := by
  induction h with
  | nil s => exact .nil s
  | cons hok hstep _ ih => exact .cons (hmono _ _ hok) hstep ih

/-- **The invariant rule**: a property that every allowed step keeps holds at the end of a run
that starts in it. -/
theorem invariant {I : σ → Prop}
    (hstep : ∀ s l s', I s → ok s l → step s l = some s' → I s')
    (h : Path step ok s ls s') (hs : I s) : I s' := by
  induction h with
  | nil s => exact hs
  | cons hok hl _ ih => exact ih (hstep _ _ _ hs hok hl)

/-- **The simulation rule**: a relation to the states of a second system, which moves by `next`, holds
at the end of a run when every allowed step keeps it. -/
theorem simulates {τ : Type*} {R : σ → τ → Prop} {next : τ → ℓ → τ}
    (hstep : ∀ s l s' t, R s t → ok s l → step s l = some s' → R s' (next t l))
    (h : Path step ok s ls s') {t : τ} (ht : R s t) : R s' (ls.foldl next t) := by
  induction h generalizing t with
  | nil s => exact ht
  | cons hok hl _ ih => exact ih (hstep _ _ _ _ ht hok hl)

/-- **The measure rule**: when a step counted by `own` decreases the measure and no step increases
it, a run has at most as many counted steps as the measure was at its start. -/
theorem measure {I : σ → Prop} {μ : σ → ℕ} {own : ℓ → Bool}
    (hstep : ∀ s l s', I s → ok s l → step s l = some s' →
      I s' ∧ μ s' + (if own l then 1 else 0) ≤ μ s)
    (h : Path step ok s ls s') (hs : I s) : I s' ∧ μ s' + ls.countP own ≤ μ s := by
  induction h with
  | nil s => exact ⟨hs, Nat.le_refl _⟩
  | cons hok hl _ ih =>
    obtain ⟨hI, hle⟩ := hstep _ _ _ hs hok hl
    obtain ⟨hI', hle'⟩ := ih hI
    refine ⟨hI', ?_⟩
    rw [List.countP_cons]
    omega

/-- A run with a condition is a run. -/
theorem run (h : Path step ok s ls s') : run step s ls = some s' := by
  induction h with
  | nil s => rfl
  | cons _ hl _ ih => rw [Lib.run, hl, Option.bind_some, ih]

end Path

/-- The steps that meet a condition that can be evaluated. -/
def guarded (step : σ → ℓ → Option σ) (ok : σ → ℓ → Bool) (s : σ) (l : ℓ) : Option σ :=
  if ok s l then step s l else none

/-- A run whose steps were checked as it was taken. -/
theorem path_of_run_guarded {ok : σ → ℓ → Bool} :
    ∀ {ls : List ℓ} {s s' : σ}, run (guarded step ok) s ls = some s' →
      Path step (fun s l => ok s l = true) s ls s'
  | [], s, s', h => by
    simp only [run, Option.some.injEq] at h
    exact h ▸ .nil s
  | l :: ls, s, s', h => by
    simp only [run, Option.bind_eq_some_iff] at h
    obtain ⟨s₁, h₁, h₂⟩ := h
    unfold guarded at h₁
    split at h₁
    · rename_i hok
      exact .cons hok h₁ (path_of_run_guarded h₂)
    · cases h₁

theorem path_of_run : ∀ {ls : List ℓ} {s s' : σ}, run step s ls = some s' →
    Path step anyStep s ls s'
  | [], s, s', h => by
    simp only [run, Option.some.injEq] at h
    exact h ▸ .nil s
  | l :: ls, s, s', h => by
    simp only [run, Option.bind_eq_some_iff] at h
    obtain ⟨s₁, h₁, h₂⟩ := h
    exact .cons trivial h₁ (path_of_run h₂)

/-! ## Runs that must end -/

/-- However the inputs are chosen, a state in `Q` is reached. -/
inductive Inevitable {α : Type*} (next : σ → α → σ) (Q : σ → Prop) : σ → Prop
  | now {s : σ} (h : Q s) : Inevitable next Q s
  | later {s : σ} (h : ∀ a, Inevitable next Q (next s a)) : Inevitable next Q s

namespace Inevitable

variable {α : Type*} {next : σ → α → σ} {Q R : σ → Prop} {s : σ}

/-- **The rule for sequential composition.** -/
theorem bind (h : Inevitable next Q s) (hQ : ∀ s, Q s → Inevitable next R s) :
    Inevitable next R s := by
  induction h with
  | now h => exact hQ _ h
  | later _ ih => exact .later ih

theorem mono (h : Inevitable next Q s) (hQ : ∀ s, Q s → R s) : Inevitable next R s :=
  h.bind fun s hs => .now (hQ s hs)

/-- Any sequence of inputs leads to `Q` after finitely many steps. -/
theorem exists_foldl (h : Inevitable next Q s) (inputs : ℕ → α) :
    ∃ n, Q (((List.range n).map inputs).foldl next s) := by
  induction h generalizing inputs with
  | now h => exact ⟨0, h⟩
  | @later s _ ih =>
    obtain ⟨n, hn⟩ := ih (inputs 0) fun i => inputs (i + 1)
    refine ⟨n + 1, ?_⟩
    rw [List.range_succ_eq_map, List.map_cons, List.map_map, List.foldl_cons]
    exact hn

/-- A run that has come to rest has reached `Q`, when the states in `Q` are at rest. -/
theorem of_foldl [Nonempty α] (h : Inevitable next Q s) (hQ : ∀ s, Q s → ∀ a, next s a = s)
    {inputs : List α} (hend : ∀ a, next (inputs.foldl next s) a = inputs.foldl next s) :
    Q (inputs.foldl next s) := by
  induction h generalizing inputs with
  | @now s hs =>
    have hrest : inputs.foldl next s = s := by
      induction inputs with
      | nil => rfl
      | cons a as ih =>
        rw [List.foldl_cons, hQ s hs a] at hend ⊢
        exact ih hend
    rw [hrest]
    exact hs
  | @later s _ ih =>
    cases inputs with
    | nil =>
      obtain ⟨a⟩ := ‹Nonempty α›
      have hfix : next s a = s := hend a
      have hQs := @ih a [] (by rw [List.foldl_nil, hfix]; exact hend)
      rw [List.foldl_nil, hfix] at hQs
      exact hQs
    | cons a as => exact ih a hend

/-- What some invariant excludes is not inevitable. -/
theorem not_of_invariant [Nonempty α] {J : σ → Prop} (hstep : ∀ s a, J s → J (next s a))
    (hQ : ∀ s, J s → ¬ Q s) (hs : J s) : ¬ Inevitable next Q s := by
  intro h
  induction h with
  | now h => exact hQ _ hs h
  | @later s _ ih =>
    obtain ⟨a⟩ := ‹Nonempty α›
    exact ih a (hstep s a hs)

end Inevitable

end Alcove.Lib
