import Alcove.Epoch.Machine

/-!
# Registration and epochs

The invariant `Reg` of the registration: no two threads have one index, a thread that holds a
pointer advertises an epoch, and no epoch that is advertised, or loaded to be advertised, is ahead
of `epoch_global`.
-/

namespace Alcove.Epoch

open Lib

variable {s s' : State}

theorem reactors_setReactor (t t' : ℕ) (r : Reactor) :
    (s.setReactor t r).reactors t' = if t' = t then r else s.reactors t' :=
  Function.update_apply s.reactors t r t'

theorem forall_setReactor {P : ℕ → Reactor → Prop} {t : ℕ} {r : Reactor} (hr : P t r)
    (h : ∀ t' ≠ t, P t' (s.reactors t')) (t' : ℕ) : P t' ((s.setReactor t r).reactors t') := by
  rw [reactors_setReactor]
  split
  · rename_i heq
    exact heq ▸ hr
  · rename_i hne
    exact h t' hne

/-- The thread is inside `epoch_register`. -/
def Pc.registering : Pc → Bool
  | .registerAdd | .registerSub | .registerLoad | .registerStore _ => true
  | _ => false

/-- The thread is inside `epoch_register` and has no index. -/
def Pc.joining : Pc → Bool
  | .registerAdd | .registerSub => true
  | _ => false

/-- The thread is inside `epoch_tick`, before its collection. -/
def Pc.ticking : Pc → Bool
  | .tickLoad | .tickStore _ => true
  | _ => false

/-- The epoch that a thread has loaded and not yet advertised. -/
def Pc.loadedEpoch : Pc → Option ℕ
  | .registerStore g | .tickStore g => some g
  | _ => none

/-- What holds of one thread, when `n` threads have registered, the global epoch is `g` and `q` are
the epochs advertised. -/
structure RegAt (n g : ℕ) (q : ℕ → ℕ) (r : Reactor) : Prop where
  idx : ∀ i, r.myIdx = some i → i < epochMaxThreads ∧ i < n
  holds : r.held ≠ [] → r.myIdx ≠ none ∧ r.pc.registering = false ∧ r.pc.ticking = false
  started : ∀ i, r.myIdx = some i → r.pc.registering = false → q i ≠ 0
  loaded : ∀ x, r.pc.loadedEpoch = some x → 0 < x ∧ x ≤ g
  joining : r.pc.joining = true → r.myIdx = none

/-- The epochs advertised. -/
def State.quiescent (s : State) (i : ℕ) : ℕ := (s.epochThreads i).quiescent

/-- What holds of the threads and the epochs. -/
structure Reg (s : State) : Prop where
  global : 0 < s.epochGlobal
  quiescent_le : ∀ i, s.quiescent i ≤ s.epochGlobal
  regAt : ∀ t, RegAt s.epochNthreads s.epochGlobal s.quiescent (s.reactors t)
  inj : ∀ t t' i, (s.reactors t).myIdx = some i → (s.reactors t').myIdx = some i → t = t'
  /-- threads that roll back have made `epoch_nthreads` exceed the number of indices -/
  rollback : ∃ f : Finset ℕ, (∀ t, (s.reactors t).pc = .registerSub → t ∈ f) ∧
    (f.Nonempty → epochMaxThreads + f.card ≤ s.epochNthreads)

theorem reg_init : Reg State.init where
  global := Nat.one_pos
  quiescent_le := fun _ => Nat.zero_le _
  regAt := by
    intro t
    constructor
    · intro i hi
      cases hi
    · intro hne
      exact absurd rfl hne
    · intro i hi
      cases hi
    · intro x hx
      cases hx
    · intro _
      rfl
  inj := by
    intro t t' i hi
    cases hi
  rollback := by
    refine ⟨∅, fun t ht => ?_, fun hne => absurd hne Finset.not_nonempty_empty⟩
    cases ht

theorem RegAt.mono {n n' g g' : ℕ} {q q' : ℕ → ℕ} {r : Reactor} (h : RegAt n g q r)
    (hn : ∀ i, r.myIdx = some i → i < n → i < n') (hg : g ≤ g')
    (hq : ∀ i, r.myIdx = some i → q' i = q i) : RegAt n' g' q' r where
  idx i hi := ⟨(h.idx i hi).1, hn i hi (h.idx i hi).2⟩
  holds := h.holds
  started i hi hpc := by
    rw [hq i hi]
    exact h.started i hi hpc
  loaded x hx := ⟨(h.loaded x hx).1, (h.loaded x hx).2.trans hg⟩
  joining := h.joining

/-- The thread moves on within its registration. -/
theorem RegAt.step {n g : ℕ} {q : ℕ → ℕ} {r r' : Reactor} (h : RegAt n g q r)
    (hidx : r'.myIdx = r.myIdx)
    (hholds : r'.held ≠ [] → r'.myIdx ≠ none ∧ r'.pc.registering = false ∧ r'.pc.ticking = false)
    (hreg : r'.pc.registering = false → r.pc.registering = false)
    (hloaded : ∀ x, r'.pc.loadedEpoch = some x → 0 < x ∧ x ≤ g)
    (hjoining : r'.pc.joining = false ∨ r'.myIdx = none) : RegAt n g q r' where
  idx i hi := h.idx i (hidx ▸ hi)
  holds := hholds
  started i hi hpc := h.started i (hidx ▸ hi) (hreg hpc)
  loaded := hloaded
  joining hpc := hjoining.resolve_left fun h => by
    rw [h] at hpc
    cases hpc

namespace Reg

variable {t : ℕ} {r : Reactor}

theorem inj_setReactor (h : Reg s) (hidx : r.myIdx = (s.reactors t).myIdx) (t₁ t₂ i : ℕ)
    (h₁ : ((s.setReactor t r).reactors t₁).myIdx = some i)
    (h₂ : ((s.setReactor t r).reactors t₂).myIdx = some i) : t₁ = t₂ := by
  have hmyIdx : ∀ t', ((s.setReactor t r).reactors t').myIdx = (s.reactors t').myIdx :=
    forall_setReactor (P := fun t' r => r.myIdx = (s.reactors t').myIdx) hidx fun _ _ => rfl
  rw [hmyIdx] at h₁ h₂
  exact h.inj t₁ t₂ i h₁ h₂

/-- A thread moves on: it keeps its index, and what holds of a thread holds of it. -/
theorem move (h : Reg s) (hidx : r.myIdx = (s.reactors t).myIdx) (hsub : r.pc ≠ .registerSub)
    (hr : RegAt s.epochNthreads s.epochGlobal s.quiescent r) : Reg (s.setReactor t r) where
  global := h.global
  quiescent_le := h.quiescent_le
  regAt := forall_setReactor (P := fun _ => RegAt s.epochNthreads s.epochGlobal s.quiescent) hr
    fun t' _ => h.regAt t'
  inj := h.inj_setReactor hidx
  rollback := by
    obtain ⟨f, hf, hcard⟩ := h.rollback
    exact ⟨f, forall_setReactor (P := fun t r => r.pc = .registerSub → t ∈ f)
      (fun hpc => absurd hpc hsub) fun t' _ => hf t', hcard⟩

/-- A thread gets an index. -/
theorem enroll (h : Reg s) (hmax : s.epochNthreads < epochMaxThreads) (hheld : r.held = [])
    (hidx : r.myIdx = some s.epochNthreads) (hpc : r.pc = .registerLoad) :
    Reg ({ s with epochNthreads := s.epochNthreads + 1 }.setReactor t r) where
  global := h.global
  quiescent_le := h.quiescent_le
  regAt := by
    refine forall_setReactor
      (P := fun _ => RegAt (s.epochNthreads + 1) s.epochGlobal s.quiescent) ?_ fun t' _ => ?_
    · refine ⟨fun i hi => ?_, fun hne => absurd hheld hne, fun i _ hreg => ?_, fun x hx => ?_,
        fun hj => ?_⟩
      · obtain rfl := Option.some.inj (hidx.symm.trans hi)
        exact ⟨hmax, Nat.lt_succ_self _⟩
      · rw [hpc] at hreg
        cases hreg
      · rw [hpc] at hx
        cases hx
      · rw [hpc] at hj
        cases hj
    · exact (h.regAt t').mono (fun i _ hi => Nat.lt_succ_of_lt hi) le_rfl fun _ _ => rfl
  inj := by
    have hnew : ∀ t', (s.reactors t').myIdx ≠ some s.epochNthreads := fun t' hi =>
      absurd ((h.regAt t').idx _ hi).2 (lt_irrefl _)
    intro t₁ t₂ i h₁ h₂
    rw [reactors_setReactor] at h₁ h₂
    split at h₁ <;> split at h₂
    · omega
    · exact absurd (h₂.trans (h₁.symm.trans hidx)) (hnew t₂)
    · exact absurd (h₁.trans (h₂.symm.trans hidx)) (hnew t₁)
    · exact h.inj t₁ t₂ i h₁ h₂
  rollback := by
    obtain ⟨f, hf, hcard⟩ := h.rollback
    refine ⟨f, forall_setReactor (P := fun t r => r.pc = .registerSub → t ∈ f) ?_
      fun t' _ => hf t', fun hne => (hcard hne).trans (Nat.le_succ _)⟩
    intro hsub
    rw [hpc] at hsub
    cases hsub

/-- A thread finds no index left. -/
theorem overflow (h : Reg s) (hmax : epochMaxThreads ≤ s.epochNthreads)
    (hidx : r.myIdx = (s.reactors t).myIdx) (hnone : r.myIdx = none) (hheld : r.held = [])
    (hpc : r.pc = .registerSub) :
    Reg ({ s with epochNthreads := s.epochNthreads + 1 }.setReactor t r) where
  global := h.global
  quiescent_le := h.quiescent_le
  regAt := by
    refine forall_setReactor
      (P := fun _ => RegAt (s.epochNthreads + 1) s.epochGlobal s.quiescent) ?_ fun t' _ => ?_
    · refine ⟨fun i hi => ?_, fun hne => absurd hheld hne, fun i _ hreg => ?_, fun x hx => ?_,
        fun _ => hnone⟩
      · have hold := (h.regAt t).idx i (hidx ▸ hi)
        exact ⟨hold.1, Nat.lt_succ_of_lt hold.2⟩
      · rw [hpc] at hreg
        cases hreg
      · rw [hpc] at hx
        cases hx
    · exact (h.regAt t').mono (fun i _ hi => Nat.lt_succ_of_lt hi) le_rfl fun _ _ => rfl
  inj := h.inj_setReactor hidx
  rollback := by
    obtain ⟨f, hf, hcard⟩ := h.rollback
    refine ⟨insert t f, forall_setReactor (P := fun t' r => r.pc = .registerSub → t' ∈ insert t f)
      (fun _ => Finset.mem_insert_self t f) fun t' _ ht' => Finset.mem_insert_of_mem (hf t' ht'), ?_⟩
    intro _
    have hle := Finset.card_insert_le t f
    show epochMaxThreads + (insert t f).card ≤ s.epochNthreads + 1
    rcases f.eq_empty_or_nonempty with rfl | hne
    · simp
      omega
    · have := hcard hne
      omega

/-- A thread takes back its increment. -/
theorem giveBack (h : Reg s) (hsub : (s.reactors t).pc = .registerSub)
    (hidx : r.myIdx = (s.reactors t).myIdx) (hnone : r.myIdx = none) (hheld : r.held = [])
    (hpc : r.pc = .idle) :
    Reg ({ s with epochNthreads := s.epochNthreads - 1 }.setReactor t r) := by
  obtain ⟨f, hf, hcard⟩ := h.rollback
  have hmem : t ∈ f := hf t hsub
  have hbig := hcard ⟨t, hmem⟩
  have hpos : 0 < f.card := Finset.card_pos.mpr ⟨t, hmem⟩
  refine ⟨h.global, h.quiescent_le, ?_, ?_, f.erase t, ?_, ?_⟩
  · refine forall_setReactor
      (P := fun _ => RegAt (s.epochNthreads - 1) s.epochGlobal s.quiescent) ?_ fun t' _ => ?_
    · refine ⟨fun i hi => ?_, fun hne => absurd hheld hne, fun i hi => ?_, fun x hx => ?_,
        fun _ => hnone⟩
      · rw [hnone] at hi
        cases hi
      · rw [hnone] at hi
        cases hi
      · rw [hpc] at hx
        cases hx
    · refine (h.regAt t').mono (fun i hi _ => ?_) le_rfl fun _ _ => rfl
      have := ((h.regAt t').idx i hi).1
      omega
  · exact h.inj_setReactor hidx
  · refine forall_setReactor (P := fun t' r => r.pc = .registerSub → t' ∈ f.erase t) ?_
      fun t' hne ht' => Finset.mem_erase.mpr ⟨hne, hf t' ht'⟩
    intro hpc'
    rw [hpc] at hpc'
    cases hpc'
  · intro _
    show epochMaxThreads + (f.erase t).card ≤ s.epochNthreads - 1
    rw [Finset.card_erase_of_mem hmem]
    omega

/-- A change of the retire lists and the objects does not matter here. -/
theorem congr (h : Reg s) (hg : s'.epochGlobal = s.epochGlobal)
    (hn : s'.epochNthreads = s.epochNthreads) (hq : ∀ i, s'.quiescent i = s.quiescent i)
    (hr : s'.reactors = s.reactors) : Reg s' := by
  have hq' : s'.quiescent = s.quiescent := funext hq
  refine ⟨?_, ?_, ?_, ?_, ?_⟩
  · rw [hg]
    exact h.global
  · rw [hg, hq']
    exact h.quiescent_le
  · rw [hg, hn, hq', hr]
    exact h.regAt
  · rw [hr]
    exact h.inj
  · rw [hr, hn]
    exact h.rollback

/-- The global epoch advances. -/
theorem advance (h : Reg s) {g : ℕ} (hg : s.epochGlobal ≤ g) :
    Reg { s with epochGlobal := g } where
  global := h.global.trans_le hg
  quiescent_le := fun i => (h.quiescent_le i).trans hg
  regAt := fun t => (h.regAt t).mono (fun _ _ hi => hi) hg fun _ _ => rfl
  inj := h.inj
  rollback := h.rollback

/-- A thread advertises the epoch it has loaded. -/
theorem announce (h : Reg s) {i g : ℕ} {e : EpochThread} (hi : (s.reactors t).myIdx = some i)
    (hg : (s.reactors t).pc.loadedEpoch = some g) (he : e.quiescent = g)
    (hidx : r.myIdx = (s.reactors t).myIdx) (hheld : r.held = [])
    (hpc : r.pc = .idle ∨ r.pc = .gcLoad) : Reg ((s.setThread i e).setReactor t r) := by
  obtain ⟨hpos, hle⟩ := (h.regAt t).loaded g hg
  have hq : ∀ j, (s.setThread i e).quiescent j = if j = i then g else s.quiescent j := by
    intro j
    show (Function.update s.epochThreads i e j).quiescent = _
    rw [Function.update_apply]
    split
    · exact he
    · rfl
  refine ⟨h.global, fun j => ?_, ?_, ?_, ?_⟩
  · show (s.setThread i e).quiescent j ≤ s.epochGlobal
    rw [hq]
    split
    · exact hle
    · exact h.quiescent_le j
  · refine forall_setReactor
      (P := fun _ => RegAt s.epochNthreads s.epochGlobal (s.setThread i e).quiescent) ?_
      fun t' hne => ?_
    · refine ⟨fun j hj => (h.regAt t).idx j (hidx ▸ hj), fun hne => absurd hheld hne,
        fun j hj _ => ?_, fun x hx => ?_, fun hj => ?_⟩
      · obtain rfl := Option.some.inj (hi.symm.trans (hidx ▸ hj))
        rw [hq, if_pos rfl]
        omega
      · rcases hpc with hpc | hpc <;> rw [hpc] at hx <;> cases hx
      · rcases hpc with hpc | hpc <;> rw [hpc] at hj <;> cases hj
    · refine (h.regAt t').mono (fun _ _ hi => hi) le_rfl fun j hj => ?_
      rw [hq, if_neg]
      rintro rfl
      exact hne (h.inj t' t j hj hi)
  · exact h.inj_setReactor hidx
  · obtain ⟨f, hf, hcard⟩ := h.rollback
    refine ⟨f, forall_setReactor (P := fun t r => r.pc = .registerSub → t ∈ f) ?_
      fun t' _ => hf t', hcard⟩
    intro hsub
    rcases hpc with hpc | hpc <;> rw [hpc] at hsub <;> cases hsub

end Reg

end Alcove.Epoch
