import Mathlib.Data.Nat.Notation
import Mathlib.Logic.Function.Basic

/-!
# Counting loops on a state

`loop n body a` runs `body 0`, `body 1`, ... up to `body (n - 1)`, each on the value of the one before.

A program that may fault (`StateT σ Option`) refines one that cannot (`StateM τ`) when from related states it
does not fault, returns the same, and ends in related states (`Refines`). `Triple P q Q` is a specification of
a program that cannot fault. Both have a rule for sequencing and one for the loop.
-/

namespace Alcove.Lib

variable {m : Type → Type} [Monad m] {σ τ α β : Type}

/-- `for (i = 0; i < n; i++)` -/
def loop (n : ℕ) (body : ℕ → α → m α) (a : α) : m α :=
  match n with
  | 0 => pure a
  | n + 1 => do
    let a ← loop n body a
    body n a

/-- The loop with `&& !stop` in its condition. -/
def loopUnless (stop : m Bool) (n : ℕ) (body : ℕ → α → m α) (a : α) : m α :=
  loop n (fun i a => do if ← stop then pure a else body i a) a

/-! ## Refinement -/

/-- From states in `R`, `p` returns what `q` returns, and the states are in `S` then. -/
def Refines (R S : σ → τ → Prop) (p : StateT σ Option α) (q : StateM τ α) : Prop :=
  ∀ s t, R s t → ∃ s', p.run s = some ((q.run t).1, s') ∧ S s' (q.run t).2

namespace Refines

variable {R S T : σ → τ → Prop} {p : StateT σ Option α} {q : StateM τ α}

theorem pure (a : α) : Refines R R (Pure.pure a) (Pure.pure a) := fun s _ h => ⟨s, rfl, h⟩

theorem bind {f : α → StateT σ Option β} {g : α → StateM τ β} (h : Refines R S p q)
    (hf : ∀ a, Refines S T (f a) (g a)) : Refines R T (p >>= f) (q >>= g) := by
  intro s t hR
  obtain ⟨s₁, h₁, hS⟩ := h s t hR
  obtain ⟨s₂, h₂, hT⟩ := hf _ s₁ _ hS
  refine ⟨s₂, ?_, hT⟩
  rw [StateT.run_bind, h₁]
  exact h₂

/-- Sequencing under one relation. -/
theorem seq {f : α → StateT σ Option β} {g : α → StateM τ β} (h : Refines R R p q)
    (hf : ∀ a, Refines R R (f a) (g a)) : Refines R R (p >>= f) (q >>= g) :=
  h.bind hf

theorem bind_left {f : α → StateT σ Option β} {q : StateM τ β} (a : α)
    (h : ∀ s t, R s t → ∃ s', p.run s = some (a, s') ∧ S s' t) (hf : Refines S T (f a) q) :
    Refines R T (p >>= f) q := by
  intro s t hR
  obtain ⟨s₁, h₁, hS⟩ := h s t hR
  obtain ⟨s₂, h₂, hT⟩ := hf s₁ t hS
  refine ⟨s₂, ?_, hT⟩
  rw [StateT.run_bind, h₁]
  exact h₂

theorem loop {n : ℕ} {body : ℕ → α → StateT σ Option α} {body' : ℕ → α → StateM τ α}
    (h : ∀ i < n, ∀ a, Refines R R (body i a) (body' i a)) (a : α) :
    Refines R R (loop n body a) (loop n body' a) := by
  induction n with
  | zero => exact pure a
  | succ n ih => exact (ih fun i hi => h i (by omega)).bind fun a => h n (by omega) a

theorem loopUnless {n : ℕ} {stop : StateT σ Option Bool} {stop' : StateM τ Bool}
    {body : ℕ → α → StateT σ Option α} {body' : ℕ → α → StateM τ α} (hs : Refines R R stop stop')
    (h : ∀ i < n, ∀ a, Refines R R (body i a) (body' i a)) (a : α) :
    Refines R R (loopUnless stop n body a) (loopUnless stop' n body' a) := by
  refine loop (fun i hi a => hs.bind fun b => ?_) a
  cases b
  · exact h i hi a
  · exact pure a

theorem mono {R' S' : σ → τ → Prop} (h : Refines R S p q) (hR : ∀ s t, R' s t → R s t)
    (hS : ∀ s t, S s t → S' s t) : Refines R' S' p q := by
  intro s t h'
  obtain ⟨s', hp, hs⟩ := h s t (hR s t h')
  exact ⟨s', hp, hS _ _ hs⟩

end Refines

/-! ## Faults -/

/-- From states in `R`, `p` faults. -/
def Faults (R : σ → τ → Prop) (p : StateT σ Option α) : Prop := ∀ s t, R s t → p.run s = none

namespace Faults

variable {R S : σ → τ → Prop} {p : StateT σ Option α} {f : α → StateT σ Option β}

theorem bind (h : Faults R p) : Faults R (p >>= f) := by
  intro s t hR
  rw [StateT.run_bind, h s t hR]
  rfl

theorem mono {R' : σ → τ → Prop} (h : Faults R p) (hR : ∀ s t, R' s t → R s t) : Faults R' p :=
  fun s t hs => h s t (hR s t hs)

theorem left (a : α) (h : ∀ s t, R s t → ∃ s', p.run s = some (a, s') ∧ S s' t) (hf : Faults S (f a)) :
    Faults R (p >>= f) := by
  intro s t hR
  obtain ⟨s', hp, hS⟩ := h s t hR
  rw [StateT.run_bind, hp]
  exact hf s' t hS

theorem after {q : StateM τ α} (h : Refines R S p q) (hf : ∀ a, Faults S (f a)) : Faults R (p >>= f) := by
  intro s t hR
  obtain ⟨s', hp, hS⟩ := h s t hR
  rw [StateT.run_bind, hp]
  exact hf _ s' _ hS

theorem loop {n : ℕ} {body : ℕ → α → StateT σ Option α} (hn : 0 < n) (h : ∀ a, Faults R (body 0 a)) (a : α) :
    Faults R (loop n body a) := by
  induction n with
  | zero => omega
  | succ n ih =>
    obtain rfl | hn := Nat.eq_zero_or_pos n
    · exact after (Refines.pure a) h
    · exact (ih hn).bind

end Faults

/-! ## Specifications -/

/-- From a state in `P`, the value and the state at the end are in `Q`. -/
def Triple (P : τ → Prop) (q : StateM τ α) (Q : α → τ → Prop) : Prop :=
  ∀ t, P t → Q (q.run t).1 (q.run t).2

namespace Triple

variable {P P' : τ → Prop} {q : StateM τ α} {Q Q' : α → τ → Prop}

theorem pure {a : α} (h : ∀ t, P t → Q a t) : Triple P (Pure.pure a) Q := h

theorem bind {f : α → StateM τ β} {K : β → τ → Prop} (h : Triple P q Q) (hf : ∀ a, Triple (Q a) (f a) K) :
    Triple P (q >>= f) K :=
  fun t ht => hf _ _ (h t ht)

theorem mono (h : Triple P q Q) (hP : ∀ t, P' t → P t) (hQ : ∀ a t, Q a t → Q' a t) : Triple P' q Q' :=
  fun t ht => hQ _ _ (h t (hP t ht))

/-- The rule of the loop: `I i` holds before turn `i`. -/
theorem loop {n : ℕ} {body : ℕ → α → StateM τ α} {I : ℕ → α → τ → Prop}
    (h : ∀ i < n, ∀ a, Triple (I i a) (body i a) (I (i + 1))) (a : α) : Triple (I 0 a) (loop n body a) (I n) := by
  induction n with
  | zero => exact pure fun _ h => h
  | succ n ih => exact (ih fun i hi => h i (by omega)).bind fun a => h n (by omega) a

end Triple

end Alcove.Lib
