import Alcove.Bgsave.Machine

/-!
# The outcome of a background save

**Main result:** `outcome_is_handled`. In every run of `BGSAVE` and of the poll in which no reactor
clears the pid after `ECHILD` while another one is still at work on the child's file, and no child
is given a pid that a poll still holds, the temporary file is renamed only when the child that wrote
it has exited with status 0, and no child is started before the file of the one before was renamed
or removed. Otherwise both fail (`pid_cleared_early`): the reactor that is told `ECHILD` clears the
pid before the one that has reaped the child renames the file, and the next child is started and
truncates it.
-/

namespace Alcove.Bgsave

open Lib

/-! ## The condition and the property -/

/-- No `SAVE` runs; no reactor that was told `ECHILD` still finds the pid of that child, and no new
child has a pid that a poll holds. -/
def Orderly (s : State) : Label → Prop
  | .save _ => False
  | .next r => ∀ p, s.reactors r = .echild p → s.pid ≠ p
  | .fork _ pid => ∀ r, s.reactors r ≠ .waitpid pid ∧ s.reactors r ≠ .echild pid
  | _ => True

/-- The outcome of a child decides over its file, and comes before the next child. -/
structure OutcomeFirst (s : State) : Prop where
  /-- what is to be renamed was written by the child alone, and it has exited with status 0 -/
  committed : ∀ r t i, s.reactors r = .commit t → s.disk.tmp = some i →
    s.disk.authors i = [t] ∧ s.exits t = some 0
  /-- when a child is to be forked, the files of the earlier ones were renamed or removed -/
  started : ∀ r, s.reactors r = .starting → ∀ t, t < s.tickets → s.handled t = true

/-! ## The phases of a background save -/

/-- A reactor that has no part in a background save but the poll. -/
def Reactor.polls : Reactor → Bool
  | idle | waitpid _ | echild _ => true
  | _ => false

/-- The temporary file is the one that this child wrote. -/
def Wrote (d : Disk) (t : ℕ) : Prop := ∃ i, d.tmp = some i ∧ d.authors i = [t]

def DumpOk (d : Disk) (t : ℕ) : Dump → Prop
  | .write i _ _ | .failed i _ _ => d.tmp = some i ∧ d.authors i = [t]
  | .flushed | .ret 0 => Wrote d t
  | _ => True

/-- The ticket is the last one, and the files before were renamed or removed. -/
def Last (s : State) (t : ℕ) : Prop := s.tickets = t + 1 ∧ ∀ u, u < t → s.handled u = true

def KidOk (s : State) : Kid → Prop
  | .running t d => Last s t ∧ DumpOk s.disk t d
  | .exited t code => Last s t ∧ (code = 0 → Wrote s.disk t ∧ s.exits t = some 0)
  | .killed t => Last s t

/-- The reactor that has forked the child `p`. -/
def Launching (s : State) (p : ℕ) : Reactor → Prop
  | .stashTmp q => q = p
  | .stashDst q => q = p ∧ s.tmp = true
  | .publish q => q = p ∧ s.tmp = true ∧ s.dst = true
  | _ => False

/-- The reactor that has reaped the child. -/
def Reaping (s : State) : Reactor → Prop
  | .reaped t ok => Last s t ∧ s.tmp = true ∧ s.dst = true ∧
      (ok = true → Wrote s.disk t ∧ s.exits t = some 0)
  | .commit t => Last s t ∧ Wrote s.disk t ∧ s.exits t = some 0
  | .rollback t => Last s t
  | .freeTmp | .freeDst | .clear => ∀ t, t < s.tickets → s.handled t = true
  | _ => False

/-- The phases that the pid tells apart. -/
inductive Phase (s : State) : Prop
  | rest (hpid : s.pid = 0) (hr : ∀ r, (s.reactors r).polls = true) (hk : ∀ p, s.kids p = none)
      (hh : ∀ t, t < s.tickets → s.handled t = true)
  | starting (r₀ : ℕ) (hpid : s.pid = -1)
      (hr₀ : s.reactors r₀ = .starting ∨ s.reactors r₀ = .giveUp)
      (hr : ∀ r, r ≠ r₀ → (s.reactors r).polls = true) (hk : ∀ p, s.kids p = none)
      (hh : ∀ t, t < s.tickets → s.handled t = true)
  | launching (r₀ p : ℕ) (k : Kid) (hpid : s.pid = -1) (hp : 0 < p)
      (hr₀ : Launching s p (s.reactors r₀)) (hr : ∀ r, r ≠ r₀ → (s.reactors r).polls = true)
      (hw : ∀ r, s.reactors r ≠ .waitpid p ∧ s.reactors r ≠ .echild p)
      (hk : ∀ q, s.kids q = if q = p then some k else none) (hkid : KidOk s k)
  | running (p : ℕ) (k : Kid) (hpid : s.pid = p) (hp : 0 < p)
      (hstash : s.tmp = true ∧ s.dst = true) (hr : ∀ r, (s.reactors r).polls = true)
      (hw : ∀ r, s.reactors r ≠ .echild p)
      (hk : ∀ q, s.kids q = if q = p then some k else none) (hkid : KidOk s k)
  | reaping (r₀ p : ℕ) (hpid : s.pid = p) (hp : 0 < p) (hr₀ : Reaping s (s.reactors r₀))
      (hr : ∀ r, r ≠ r₀ → (s.reactors r).polls = true) (hk : ∀ q, s.kids q = none)

section Phases

variable {s s' : State} {r : ℕ}

theorem phase_init (db tmp : Option Bytes) : Phase (State.init db tmp) :=
  .rest rfl (fun _ => rfl) (fun _ => rfl) fun _ ht => absurd ht (Nat.not_lt_zero _)

/-- The one reactor that does more than poll. -/
theorem eq_of_not_polls {r₀ : ℕ} {q : Reactor} (hr : ∀ r, r ≠ r₀ → (s.reactors r).polls = true)
    (hq : s.reactors r = q) (hnp : q.polls = false) : r = r₀ := by
  by_contra hne
  have hp := hr r hne
  rw [hq, hnp] at hp
  cases hp

theorem false_of_polls {q : Reactor} (hr : ∀ r, (s.reactors r).polls = true)
    (hq : s.reactors r = q) (hnp : q.polls = false) : False := by
  have hp := hr r
  rw [hq, hnp] at hp
  cases hp

/-- **In every phase the outcome comes first.** -/
theorem Phase.outcomeFirst (h : Phase s) : OutcomeFirst s := by
  refine ⟨fun r t i hrt hi => ?_, fun r hrs t ht => ?_⟩
  · cases h with
    | rest hpid hr => exact (false_of_polls hr hrt rfl).elim
    | starting r₀ hpid hr₀ hr =>
      obtain rfl := eq_of_not_polls hr hrt rfl
      rw [hrt] at hr₀
      rcases hr₀ with hc | hc <;> cases hc
    | launching r₀ p k hpid hp hr₀ hr =>
      obtain rfl := eq_of_not_polls hr hrt rfl
      rw [hrt] at hr₀
      cases hr₀
    | running p k hpid hp hstash hr => exact (false_of_polls hr hrt rfl).elim
    | reaping r₀ p hpid hp hr₀ hr =>
      obtain rfl := eq_of_not_polls hr hrt rfl
      rw [hrt] at hr₀
      obtain ⟨-, ⟨j, hj, hauthors⟩, hexit⟩ := hr₀
      rw [hj] at hi
      cases hi
      exact ⟨hauthors, hexit⟩
  · cases h with
    | rest hpid hr => exact (false_of_polls hr hrs rfl).elim
    | starting r₀ hpid hr₀ hr hk hh => exact hh t ht
    | launching r₀ p k hpid hp hr₀ hr =>
      obtain rfl := eq_of_not_polls hr hrs rfl
      rw [hrs] at hr₀
      cases hr₀
    | running p k hpid hp hstash hr => exact (false_of_polls hr hrs rfl).elim
    | reaping r₀ p hpid hp hr₀ hr =>
      obtain rfl := eq_of_not_polls hr hrs rfl
      rw [hrs] at hr₀
      cases hr₀

/-! ## Steps -/

/-- A reactor that polls moves within its poll. -/
theorem Phase.poll (h : Phase s) {q : Reactor} (hold : (s.reactors r).polls = true)
    (hnew : q.polls = true) (hwait : ∀ p : ℕ, q = .waitpid p → s.pid = p)
    (hechild : ∀ p, q = .echild p → s.kids p = none) : Phase (s.goto r q) := by
  have hpolls : ∀ r', (s.reactors r').polls = true → ((s.goto r q).reactors r').polls = true := by
    intro r' hr'
    by_cases hne : r' = r
    · rw [hne, State.goto_self, hnew]
    · rwa [State.goto_of_ne s q hne]
  have hother : ∀ {r₀ : ℕ}, (s.reactors r₀).polls = false →
      (s.goto r q).reactors r₀ = s.reactors r₀ := by
    intro r₀ hr₀
    refine State.goto_of_ne s q ?_
    rintro rfl
    rw [hold] at hr₀
    cases hr₀
  cases h with
  | rest hpid hr hk hh => exact .rest hpid (fun r' => hpolls r' (hr r')) hk hh
  | starting r₀ hpid hr₀ hr hk hh =>
    refine .starting r₀ hpid ?_ (fun r' hne => hpolls r' (hr r' hne)) hk hh
    rwa [hother (by rcases hr₀ with hq | hq <;> rw [hq] <;> rfl)]
  | launching r₀ p k hpid hp hr₀ hr hw hk hkid =>
    refine .launching r₀ p k hpid hp ?_ (fun r' hne => hpolls r' (hr r' hne)) (fun r' => ?_) hk hkid
    · rw [hother]
      · exact hr₀
      · cases hq : s.reactors r₀ <;> rw [hq] at hr₀ <;> first | rfl | cases hr₀
    · by_cases hne : r' = r
      · rw [hne, State.goto_self]
        refine ⟨fun hq => ?_, fun hq => ?_⟩
        · have hpos := hwait p hq
          omega
        · have hnone := hechild p hq
          rw [hk, if_pos rfl] at hnone
          cases hnone
      · rw [State.goto_of_ne s q hne]
        exact hw r'
  | running p k hpid hp hstash hr hw hk hkid =>
    refine .running p k hpid hp hstash (fun r' => hpolls r' (hr r')) (fun r' => ?_) hk hkid
    by_cases hne : r' = r
    · rw [hne, State.goto_self]
      intro hq
      have hnone := hechild p hq
      rw [hk, if_pos rfl] at hnone
      cases hnone
    · rw [State.goto_of_ne s q hne]
      exact hw r'
  | reaping r₀ p hpid hp hr₀ hr hk =>
    refine .reaping r₀ p hpid hp ?_ (fun r' hne => hpolls r' (hr r' hne)) hk
    rw [hother]
    · exact hr₀
    · cases hq : s.reactors r₀ <;> rw [hq] at hr₀ <;> first | rfl | cases hr₀

/-- The child takes a step. -/
theorem Phase.kid {pid : ℕ} {k k' : Kid} (h : Phase s) (hold : s.kids pid = some k)
    (hkids : s'.kids = Function.update s.kids pid (some k')) (hreactors : s'.reactors = s.reactors)
    (hpid' : s'.pid = s.pid) (htmp : s'.tmp = s.tmp) (hdst : s'.dst = s.dst)
    (hok : KidOk s k → KidOk s' k') : Phase s' := by
  have hlaunch : ∀ {p q}, Launching s p q → Launching s' p q := by
    intro p q hq
    cases q with
    | stashTmp _ => exact hq
    | stashDst _ => exact ⟨hq.1, htmp.trans hq.2⟩
    | publish _ => exact ⟨hq.1, htmp.trans hq.2.1, hdst.trans hq.2.2⟩
    | _ => exact hq
  -- the child that steps is the only one
  have honly : ∀ {p k₀}, (∀ q, s.kids q = if q = p then some k₀ else none) → KidOk s k₀ →
      (∀ q, s'.kids q = if q = p then some k' else none) ∧ KidOk s' k' := by
    intro p k₀ hk hk₀
    rw [hk] at hold
    split at hold
    · rename_i hpp
      cases hold
      refine ⟨fun q => ?_, hok hk₀⟩
      rw [hkids, hpp]
      by_cases hq : q = p
      · rw [hq, Function.update_self, if_pos rfl]
      · rw [Function.update_of_ne hq, hk, if_neg hq, if_neg hq]
    · cases hold
  have hnone : (∀ q, s.kids q = none) → False := by
    intro hk
    rw [hk] at hold
    cases hold
  cases h with
  | rest hpid hr hk => exact (hnone hk).elim
  | starting r₀ hpid hr₀ hr hk => exact (hnone hk).elim
  | launching r₀ p k₀ hpid hp hr₀ hr hw hk hkid =>
    obtain ⟨hk', hkid'⟩ := honly hk hkid
    refine .launching r₀ p k' (hpid'.trans hpid) hp ?_ ?_ ?_ hk' hkid'
    · rw [hreactors]
      exact hlaunch hr₀
    · rwa [hreactors]
    · rwa [hreactors]
  | running p k₀ hpid hp hstash hr hw hk hkid =>
    obtain ⟨hk', hkid'⟩ := honly hk hkid
    refine .running p k' (hpid'.trans hpid) hp ?_ ?_ ?_ hk' hkid'
    · rwa [htmp, hdst]
    · rwa [hreactors]
    · rwa [hreactors]
  | reaping r₀ p hpid hp hr₀ hr hk => exact (hnone hk).elim

/-- The steps of the child's dump. -/
theorem DumpOk.step {d d' : Dump} {disk disk' : Disk} {t : ℕ} {a : Act} (h : DumpOk disk t d)
    (hstep : d.step disk t a = some (disk', d')) : DumpOk disk' t d' := by
  have hwrite : ∀ {i off : ℕ} {bs : Bytes}, disk.tmp = some i ∧ disk.authors i = [t] →
      (disk.write t i off bs).tmp = some i ∧ (disk.write t i off bs).authors i = [t] := by
    intro i off bs hi
    refine ⟨hi.1, (Function.update_self ..).trans ?_⟩
    rw [hi.2, List.insert_of_mem List.mem_cons_self]
  cases d with
  | fopen =>
    cases a with
    | fopen image =>
      cases hstep
      exact ⟨rfl, Function.update_self ..⟩
    | fopenFails =>
      cases hstep
      trivial
    | _ => cases hstep
  | write i off rest =>
    cases a with
    | write n =>
      simp only [Dump.step] at hstep
      split at hstep <;> cases hstep
      exact hwrite h
    | flush =>
      simp only [Dump.step] at hstep
      split at hstep <;> cases hstep
      exact ⟨i, h⟩
    | fail =>
      cases hstep
      exact h
    | _ => cases hstep
  | flushed =>
    cases a with
    | fclose =>
      cases hstep
      exact h
    | _ => cases hstep
  | failed i off rest =>
    cases a with
    | write n =>
      simp only [Dump.step] at hstep
      split at hstep <;> cases hstep
      exact hwrite h
    | fclose =>
      cases hstep
      trivial
    | _ => cases hstep
  | unlink =>
    cases a with
    | unlink =>
      cases hstep
      trivial
    | _ => cases hstep
  | ret _ => cases a <;> cases hstep

/-- The phase of a reactor that is about to fork. -/
theorem Phase.starting_of (h : Phase s) {q : Reactor} (hr : s.reactors r = q)
    (hq : q = .starting ∨ q = .giveUp) : s.pid = -1 ∧
      (∀ r', r' ≠ r → (s.reactors r').polls = true) ∧ (∀ p, s.kids p = none) ∧
      ∀ t, t < s.tickets → s.handled t = true := by
  have hnp : q.polls = false := by rcases hq with rfl | rfl <;> rfl
  cases h with
  | rest hpid hpolls => exact (false_of_polls hpolls hr hnp).elim
  | starting r₀ hpid hr₀ hpolls hk hh =>
    obtain rfl := eq_of_not_polls hpolls hr hnp
    exact ⟨hpid, hpolls, hk, hh⟩
  | launching r₀ p k hpid hp hr₀ hpolls =>
    obtain rfl := eq_of_not_polls hpolls hr hnp
    rw [hr] at hr₀
    rcases hq with rfl | rfl <;> cases hr₀
  | running p k hpid hp hstash hpolls => exact (false_of_polls hpolls hr hnp).elim
  | reaping r₀ p hpid hp hr₀ hpolls =>
    obtain rfl := eq_of_not_polls hpolls hr hnp
    rw [hr] at hr₀
    rcases hq with rfl | rfl <;> cases hr₀

/-- The phase of a reactor that has forked. -/
theorem Phase.launching_of (h : Phase s) {q : Reactor} {p : ℕ} (hr : s.reactors r = q)
    (hq : q = .stashTmp p ∨ q = .stashDst p ∨ q = .publish p) : ∃ k, s.pid = -1 ∧ 0 < p ∧
      Launching s p q ∧ (∀ r', r' ≠ r → (s.reactors r').polls = true) ∧
      (∀ r, s.reactors r ≠ .waitpid p ∧ s.reactors r ≠ .echild p) ∧
      (∀ q, s.kids q = if q = p then some k else none) ∧ KidOk s k := by
  have hnp : q.polls = false := by rcases hq with rfl | rfl | rfl <;> rfl
  cases h with
  | rest hpid hpolls => exact (false_of_polls hpolls hr hnp).elim
  | starting r₀ hpid hr₀ hpolls =>
    obtain rfl := eq_of_not_polls hpolls hr hnp
    rw [hr] at hr₀
    rcases hr₀ with rfl | rfl <;> rcases hq with hc | hc | hc <;> cases hc
  | launching r₀ p₀ k hpid hp hr₀ hpolls hw hk hkid =>
    obtain rfl := eq_of_not_polls hpolls hr hnp
    rw [hr] at hr₀
    obtain rfl : p = p₀ := by
      rcases hq with rfl | rfl | rfl
      · exact hr₀
      · exact hr₀.1
      · exact hr₀.1
    exact ⟨k, hpid, hp, hr₀, hpolls, hw, hk, hkid⟩
  | running p k hpid hp hstash hpolls => exact (false_of_polls hpolls hr hnp).elim
  | reaping r₀ p hpid hp hr₀ hpolls =>
    obtain rfl := eq_of_not_polls hpolls hr hnp
    rw [hr] at hr₀
    rcases hq with rfl | rfl | rfl <;> cases hr₀

/-- The phase of a reactor that has reaped the child. -/
theorem Phase.reaping_of (h : Phase s) {q : Reactor} (hr : s.reactors r = q)
    (hnp : q.polls = false) (hnot : ¬ (q = .starting ∨ q = .giveUp)) (hnl : ∀ p, ¬ Launching s p q) :
    ∃ p : ℕ, s.pid = p ∧ 0 < p ∧ Reaping s q ∧ (∀ r', r' ≠ r → (s.reactors r').polls = true) ∧
      ∀ q, s.kids q = none := by
  cases h with
  | rest hpid hpolls => exact (false_of_polls hpolls hr hnp).elim
  | starting r₀ hpid hr₀ hpolls =>
    obtain rfl := eq_of_not_polls hpolls hr hnp
    rw [hr] at hr₀
    exact absurd hr₀ hnot
  | launching r₀ p k hpid hp hr₀ hpolls =>
    obtain rfl := eq_of_not_polls hpolls hr hnp
    rw [hr] at hr₀
    exact absurd hr₀ (hnl p)
  | running p k hpid hp hstash hpolls => exact (false_of_polls hpolls hr hnp).elim
  | reaping r₀ p hpid hp hr₀ hpolls hk =>
    obtain rfl := eq_of_not_polls hpolls hr hnp
    rw [hr] at hr₀
    exact ⟨p, hpid, hp, hr₀, hpolls, hk⟩

/-- The others poll on. -/
theorem polls_goto {s₁ : State} {q : Reactor} (hs : s₁.reactors = s.reactors)
    (hr : ∀ r', r' ≠ r → (s.reactors r').polls = true) (r' : ℕ) (hne : r' ≠ r) :
    ((s₁.goto r q).reactors r').polls = true := by
  rw [State.goto_of_ne s₁ q hne, hs]
  exact hr r' hne

theorem all_polls_goto {s₁ : State} {q : Reactor} (hs : s₁.reactors = s.reactors)
    (hr : ∀ r', r' ≠ r → (s.reactors r').polls = true) (hq : q.polls = true) (r' : ℕ) :
    ((s₁.goto r q).reactors r').polls = true := by
  by_cases hne : r' = r
  · rw [hne, State.goto_self, hq]
  · exact polls_goto hs hr r' hne

/-- The reactor that reaped the child goes on. -/
theorem Phase.of_reaping {s₁ : State} {q : Reactor} {p : ℕ} (hs : s₁.reactors = s.reactors)
    (hpid : s₁.pid = p) (hp : 0 < p) (hq : Reaping s₁ q)
    (hr : ∀ r', r' ≠ r → (s.reactors r').polls = true) (hk : ∀ q, s₁.kids q = none) :
    Phase (s₁.goto r q) := by
  refine .reaping r p hpid hp ?_ (polls_goto hs hr) hk
  rw [State.goto_self]
  cases q <;> exact hq

/-- The reactor that forked goes on. -/
theorem Phase.of_launching {s₁ : State} {q : Reactor} {p : ℕ} {k : Kid}
    (hs : s₁.reactors = s.reactors) (hpid : s₁.pid = -1) (hp : 0 < p) (hq : Launching s₁ p q)
    (hr : ∀ r', r' ≠ r → (s.reactors r').polls = true)
    (hw : ∀ r, s.reactors r ≠ .waitpid p ∧ s.reactors r ≠ .echild p)
    (hk : ∀ q, s₁.kids q = if q = p then some k else none) (hkid : KidOk s₁ k) :
    Phase (s₁.goto r q) := by
  refine .launching r p k hpid hp ?_ (polls_goto hs hr) (fun r' => ?_) hk ?_
  · rw [State.goto_self]
    cases q <;> exact hq
  · by_cases hne : r' = r
    · rw [hne, State.goto_self]
      constructor <;> rintro rfl <;> cases hq
    · rw [State.goto_of_ne s₁ q hne, hs]
      exact hw r'
  · cases k <;> exact hkid

theorem Last.handle {t : ℕ} (h : Last s t) (u : ℕ) (hu : u < s.tickets) :
    (s.handle t).handled u = true := by
  by_cases hut : u = t
  · rw [hut]
    exact Function.update_self ..
  · refine (Function.update_of_ne hut ..).trans (h.2 u ?_)
    have hlast := h.1
    omega

/-- A child that is waited for is the running one. -/
theorem Phase.running_of {p : ℕ} {k : Kid} (h : Phase s) (hr : s.reactors r = .waitpid p)
    (hkid : s.kids p = some k) : s.pid = p ∧ 0 < p ∧ s.tmp = true ∧ s.dst = true ∧
      (∀ r', (s.reactors r').polls = true) ∧ KidOk s k ∧
      ∀ q, Function.update s.kids p none q = none := by
  cases h with
  | rest hpid hpolls hk =>
    rw [hk] at hkid
    cases hkid
  | starting r₀ hpid hr₀ hpolls hk =>
    rw [hk] at hkid
    cases hkid
  | launching r₀ p₀ k₀ hpid hp hr₀ hpolls hw hk =>
    rw [hk] at hkid
    split at hkid
    · rename_i hpp
      exact absurd (hpp ▸ hr) (hw r).1
    · cases hkid
  | running p₀ k₀ hpid hp hstash hpolls hw hk hok =>
    rw [hk] at hkid
    split at hkid
    · rename_i hpp
      cases hkid
      subst hpp
      refine ⟨hpid, hp, hstash.1, hstash.2, hpolls, hok, fun q => ?_⟩
      by_cases hq : q = p
      · rw [hq, Function.update_self]
      · rw [Function.update_of_ne hq, hk, if_neg hq]
    · cases hkid
  | reaping r₀ p₀ hpid hp hr₀ hpolls hk =>
    rw [hk] at hkid
    cases hkid

/-- The steps of the reactors that have no choice. -/
theorem Phase.next (h : Phase s) (hok : ∀ p : ℕ, s.reactors r = .echild p → s.pid ≠ p)
    (hstep : s.next r = some s') : Phase s' := by
  rw [State.next] at hstep
  cases hr : s.reactors r with
  | idle | starting | commit _ | renameTmp => simp [hr] at hstep
  | giveUp =>
    obtain ⟨hpid, hpolls, hk, hh⟩ := h.starting_of hr (.inr rfl)
    rw [hr] at hstep
    cases hstep
    exact .rest rfl (all_polls_goto rfl hpolls rfl) hk hh
  | stashTmp p =>
    obtain ⟨k, hpid, hp, hl, hpolls, hw, hk, hkid⟩ := h.launching_of hr (.inl rfl)
    rw [hr] at hstep
    cases hstep
    exact .of_launching rfl hpid hp ⟨rfl, rfl⟩ hpolls hw hk (by cases k <;> exact hkid)
  | stashDst p =>
    obtain ⟨k, hpid, hp, hl, hpolls, hw, hk, hkid⟩ := h.launching_of hr (.inr (.inl rfl))
    rw [hr] at hstep
    cases hstep
    exact .of_launching rfl hpid hp ⟨rfl, hl.2, rfl⟩ hpolls hw hk (by cases k <;> exact hkid)
  | publish p =>
    obtain ⟨k, hpid, hp, hl, hpolls, hw, hk, hkid⟩ := h.launching_of hr (.inr (.inr rfl))
    rw [hr] at hstep
    cases hstep
    refine .running p k rfl hp hl.2 (all_polls_goto rfl hpolls rfl) (fun r' => ?_) hk
      (by cases k <;> exact hkid)
    by_cases hne : r' = r
    · rw [hne, State.goto_self]
      nofun
    · rw [State.goto_of_ne _ _ hne]
      exact (hw r').2
  | waitpid p =>
    have hpolls : (s.reactors r).polls = true := by rw [hr]; rfl
    cases hkid : s.kids p with
    | none =>
      simp only [hr, hkid] at hstep
      cases hstep
      refine h.poll hpolls rfl nofun fun p' hp' => ?_
      cases hp'
      exact hkid
    | some k =>
      cases k with
      | running t d =>
        simp only [hr, hkid] at hstep
        cases hstep
        exact h.poll hpolls rfl nofun nofun
      | exited t code =>
        obtain ⟨hpid, hp, htmp, hdst, hall, ⟨hlast, hwrote⟩, hk⟩ := h.running_of hr hkid
        simp only [hr, hkid] at hstep
        cases hstep
        exact .of_reaping (s := s) rfl hpid hp
          ⟨hlast, htmp, hdst, fun hcode => hwrote (of_decide_eq_true hcode)⟩ (fun r' _ => hall r') hk
      | killed t =>
        obtain ⟨hpid, hp, htmp, hdst, hall, hlast, hk⟩ := h.running_of hr hkid
        simp only [hr, hkid] at hstep
        cases hstep
        exact .of_reaping (s := s) rfl hpid hp ⟨hlast, htmp, hdst, nofun⟩ (fun r' _ => hall r') hk
  | echild p =>
    rw [hr] at hstep
    cases hstep
    simp only [if_neg (hok p hr)]
    exact h.poll (by rw [hr]; rfl) rfl nofun nofun
  | reaped t ok =>
    obtain ⟨p, hpid, hp, ⟨hlast, htmp, hdst, hwrote⟩, hpolls, hk⟩ :=
      h.reaping_of hr rfl (by simp) (fun _ => id)
    simp only [hr, htmp, hdst, Bool.and_true, if_true] at hstep
    split at hstep <;> cases hstep
    · rename_i hok
      exact .of_reaping rfl hpid hp ⟨hlast, hwrote hok⟩ hpolls hk
    · exact .of_reaping rfl hpid hp hlast hpolls hk
  | rollback t =>
    obtain ⟨p, hpid, hp, hlast, hpolls, hk⟩ := h.reaping_of hr rfl (by simp) (fun _ => id)
    simp only [hr] at hstep
    cases hstep
    exact .of_reaping rfl hpid hp hlast.handle hpolls hk
  | freeTmp =>
    obtain ⟨p, hpid, hp, hh, hpolls, hk⟩ := h.reaping_of hr rfl (by simp) (fun _ => id)
    rw [hr] at hstep
    cases hstep
    exact .of_reaping rfl hpid hp hh hpolls hk
  | freeDst =>
    obtain ⟨p, hpid, hp, hh, hpolls, hk⟩ := h.reaping_of hr rfl (by simp) (fun _ => id)
    rw [hr] at hstep
    cases hstep
    exact .of_reaping rfl hpid hp hh hpolls hk
  | clear =>
    obtain ⟨p, hpid, hp, hh, hpolls, hk⟩ := h.reaping_of hr rfl (by simp) (fun _ => id)
    rw [hr] at hstep
    cases hstep
    exact .rest rfl (all_polls_goto rfl hpolls rfl) hk hh
  | saving t d =>
    obtain ⟨p, hpid, hp, hreap, -⟩ := h.reaping_of hr rfl (by simp) (fun _ => id)
    cases hreap

/-- **Every step keeps to the phases**, in order. -/
theorem Phase.step (h : Phase s) {l : Label} (hok : Orderly s l) (hstep : s.step l = some s') :
    Phase s' := by
  cases l with
  | bgsave r =>
    simp only [State.step] at hstep
    split at hstep
    · rename_i hr
      split at hstep <;> cases hstep
      · rename_i hpid₀
        cases h with
        | rest hpid hpolls hk hh =>
          exact .starting r rfl (.inl (State.goto_self ..))
            (polls_goto rfl fun r' _ => hpolls r') hk hh
        | _ => omega
      · exact h
    · cases hstep
  | fork r pid =>
    simp only [State.step] at hstep
    split at hstep <;> cases hstep
    rename_i hguard
    obtain ⟨hr, hp, hnone⟩ := hguard
    obtain ⟨hpid, hpolls, hk, hh⟩ := h.starting_of hr (.inl rfl)
    have hkids : ∀ q, Function.update s.kids pid (some (.running s.tickets .fopen)) q =
        if q = pid then some (.running s.tickets .fopen) else none := by
      intro q
      by_cases hq : q = pid
      · rw [hq, Function.update_self, if_pos rfl]
      · rw [Function.update_of_ne hq, if_neg hq, hk]
    exact .of_launching (s := s) rfl hpid hp rfl hpolls hok hkids ⟨⟨rfl, hh⟩, trivial⟩
  | forkFails r =>
    simp only [State.step] at hstep
    split at hstep <;> cases hstep
    rename_i hr
    obtain ⟨hpid, hpolls, hk, hh⟩ := h.starting_of hr (.inl rfl)
    exact .starting r hpid (.inr (State.goto_self ..)) (polls_goto rfl hpolls) hk hh
  | poll r =>
    simp only [State.step] at hstep
    split at hstep
    · rename_i hr
      split at hstep <;> cases hstep
      · exact h
      · refine h.poll (by rw [hr]; rfl) rfl (fun p hp => ?_) nofun
        cases hp
        omega
    · cases hstep
  | next r => exact h.next hok hstep
  | rename r fails =>
    simp only [State.step] at hstep
    split at hstep
    · rename_i t hr
      obtain ⟨p, hpid, hp, ⟨hlast, -⟩, hpolls, hk⟩ := h.reaping_of hr rfl (by simp) (fun _ => id)
      split at hstep <;> cases hstep
      · exact .of_reaping rfl hpid hp hlast hpolls hk
      · exact .of_reaping (s := s) rfl hpid hp hlast.handle hpolls hk
    · rename_i hr
      obtain ⟨p, hpid, hp, hreap, -⟩ := h.reaping_of hr rfl (by simp) (fun _ => id)
      cases hreap
    · cases hstep
  | save r => cases hok
  | dump r a =>
    simp only [State.step] at hstep
    split at hstep
    · rename_i t d hr
      obtain ⟨p, hpid, hp, hreap, -⟩ := h.reaping_of hr rfl (by simp) (fun _ => id)
      cases hreap
    · cases hstep
  | child pid a =>
    simp only [State.step] at hstep
    split at hstep
    · rename_i t d hk
      obtain ⟨⟨disk, d'⟩, hd, hs'⟩ := Option.map_eq_some_iff.mp hstep
      have hkids : s'.kids = Function.update s.kids pid (some (.running t d')) := by rw [← hs']
      refine h.kid hk hkids ?_ ?_ ?_ ?_ fun hkid => ?_
      · rw [← hs']
        cases a <;> rfl
      · rw [← hs']
        cases a <;> rfl
      · rw [← hs']
        cases a <;> rfl
      · rw [← hs']
        cases a <;> rfl
      · obtain ⟨hlast, hdump⟩ := hkid
        have hlast' : Last s' t := by
          rw [← hs']
          cases a <;> exact hlast
        refine ⟨hlast', ?_⟩
        rw [← hs']
        exact hdump.step hd
    · cases hstep
  | exit pid =>
    simp only [State.step] at hstep
    split at hstep
    · rename_i t code hk
      cases hstep
      refine h.kid hk rfl rfl rfl rfl rfl fun hkid => ⟨hkid.1, ?_⟩
      rintro rfl
      exact ⟨hkid.2, Function.update_self ..⟩
    · cases hstep
  | kill pid =>
    simp only [State.step] at hstep
    split at hstep
    · rename_i t d hk
      cases hstep
      exact h.kid hk rfl rfl rfl rfl rfl fun hkid => hkid.1
    · cases hstep

end Phases

/-! ## Runs -/

/-- **The outcome of a child decides over its file, and comes before the next child**, in every run
that meets the condition. -/
theorem outcome_is_handled {db tmp : Option Bytes} {ls : List Label} {s : State}
    (h : Path State.step Orderly (State.init db tmp) ls s) : OutcomeFirst s :=
  (h.invariant (fun _ _ _ hs hok hstep => hs.step hok hstep) (phase_init db tmp)).outcomeFirst

/-- A step that meets the condition in any case. -/
def harmless (s : State) : Label → Bool
  | .next r => match s.reactors r with
    | .echild _ => false
    | _ => true
  | .save _ | .fork _ _ => false
  | _ => true

theorem orderly_of_harmless {s : State} {l : Label} (h : harmless s l = true) : Orderly s l := by
  cases l with
  | next r =>
    intro p hp
    simp [harmless, hp] at h
  | save _ | fork _ _ => cases h
  | _ => trivial

/-- The child 100 of reactor 0 writes a dump and exits. -/
def written : List Label :=
  [.next 0, .next 0, .next 0, .child 100 (.fopen [1, 2]), .child 100 (.write 2), .child 100 .flush,
    .child 100 .fclose, .exit 100]

/-- Reactor 1 reaps it and is about to rename its file. -/
theorem outcome_is_handled_commit : ∃ s, run State.step (State.init none none)
    (.bgsave 0 :: .fork 0 100 :: (written ++ [.poll 1, .next 1, .next 1])) = some s ∧
      s.reactors 1 = .commit 0 ∧ OutcomeFirst s := by
  have hfork : ∀ s, (State.init none none).step (.bgsave 0) = some s → Orderly s (.fork 0 100) := by
    rintro _ ⟨⟩ (_ | r)
    · exact ⟨nofun, nofun⟩
    · exact ⟨nofun, nofun⟩
  obtain ⟨s₁, s₂, s₃, h₁, h₂, h₃, hcommit⟩ : ∃ s₁ s₂ s₃,
      (State.init none none).step (.bgsave 0) = some s₁ ∧ s₁.step (.fork 0 100) = some s₂ ∧
        run (guarded State.step harmless) s₂ (written ++ [.poll 1, .next 1, .next 1]) = some s₃ ∧
        s₃.reactors 1 = .commit 0 := ⟨_, _, _, rfl, rfl, rfl, rfl⟩
  have hrest := (path_of_run_guarded h₃).mono fun _ _ => orderly_of_harmless
  have hbgsave : Orderly (State.init none none) (.bgsave 0) := trivial
  have hpath := Path.cons hbgsave h₁ (.cons (hfork s₁ h₁) h₂ hrest)
  exact ⟨s₃, hpath.run, hcommit, outcome_is_handled hpath⟩

/-- Reactors 1 and 2 both poll: reactor 1 reaps the child, and reactor 2 clears the pid, so that
reactor 0 may fork again. -/
def cleared : List Label :=
  .bgsave 0 :: .fork 0 100 :: written ++
    [.poll 1, .poll 2, .next 1, .next 2, .next 2, .next 1, .bgsave 0]

/-- **The next child is started before the file of the first was renamed**, and its empty file takes
the place of the saved one. -/
theorem pid_cleared_early : ∃ s₁ s₂ s₃,
    run State.step (State.init none none) cleared = some s₁ ∧ ¬ OutcomeFirst s₁ ∧
      run State.step s₁ [.fork 0 101, .child 101 (.fopen [3, 4])] = some s₂ ∧ ¬ OutcomeFirst s₂ ∧
      s₂.step (.rename 1 false) = some s₃ ∧ s₃.disk.db = some 2 ∧ s₃.disk.data 2 = [] ∧
      s₃.kids 101 = some (.running 1 (.write 2 0 [3, 4])) := by
  refine ⟨_, _, _, rfl, fun h => ?_, rfl, fun h => ?_, rfl, rfl, rfl, rfl⟩
  · exact absurd (h.started 0 rfl 0 (by decide)) (by decide)
  · exact absurd (h.committed 1 0 2 rfl rfl).1 (by decide)

end Alcove.Bgsave
