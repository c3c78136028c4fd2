import Mathlib.Data.List.Basic
import Mathlib.Algebra.Group.Nat.Defs

/-!
# Reading a buffer through a position

Routines that read a buffer of known length through a position they move (`Cursor`). Nothing stops
such a routine from reading outside the buffer, so that is an outcome of its own (`Scan.overrun`),
and so is a recursion that goes deeper than its bound (`Scan.exhausted`).

Two judgements speak of the input that is left instead of the position. `p.Reads s Q`: on the input
`s` the routine neither overruns nor exhausts its bound, and a value that it returns satisfies `Q`
with the input it leaves. `p.Yields s a r`: on the input `s` it returns `a` and leaves `r`. Each
operation has one rule for either.
-/

namespace Alcove.Lib

variable {β α γ σ : Type}

/-- How a routine ends: with a read outside the buffer, too deep, or at a position, with a refusal or a
value. -/
inductive Scan (α : Type)
  | overrun
  | exhausted
  | fail (pos : ℕ)
  | ok (a : α) (pos : ℕ)
  deriving DecidableEq

/-- The routine read inside the buffer and within its bound, and left the position in it. -/
def Scan.Within (len : ℕ) : Scan α → Prop
  | .overrun => False
  | .exhausted => False
  | .fail pos => pos ≤ len
  | .ok _ pos => pos ≤ len

/-- A routine that reads the buffer from a position. -/
def Cursor (β α : Type) : Type := List β → ℕ → Scan α

namespace Cursor

/-- Read nothing. -/
def pure (a : α) : Cursor β α := fun _ pos => .ok a pos

/-- Read with `p`, then go on with what it read. -/
def bind (p : Cursor β α) (f : α → Cursor β γ) : Cursor β γ := fun b pos =>
  match p b pos with
  | .overrun => .overrun
  | .exhausted => .exhausted
  | .fail pos' => .fail pos'
  | .ok a pos' => f a b pos'

instance : Monad (Cursor β) where
  pure := pure
  bind := bind

/-- Refuse the input. -/
def fail : Cursor β α := fun _ pos => .fail pos

/-- The recursion is too deep. -/
def exhausted : Cursor β α := fun _ _ => .exhausted

/-- `pos + n <= len` -/
def avail (n : ℕ) : Cursor β Bool := fun b pos => .ok (decide (pos + n ≤ b.length)) pos

/-- `if (pos + n > len) return NULL;` -/
def need (n : ℕ) : Cursor β Unit := fun b pos => if pos + n ≤ b.length then .ok () pos else .fail pos

/-- `len - pos`, which is no number when `pos` is past `len`. -/
def remaining : Cursor β ℕ := fun b pos =>
  if pos ≤ b.length then .ok (b.length - pos) pos else .overrun

/-- `b[pos + i]` -/
def peek (i : ℕ) : Cursor β β := fun b pos =>
  match b[pos + i]? with
  | some c => .ok c pos
  | none => .overrun

/-- `pos += n` -/
def skip (n : ℕ) : Cursor β Unit := fun _ pos => .ok () (pos + n)

/-- `b[pos++]` -/
def next : Cursor β β := do
  let c ← peek 0
  skip 1
  return c

/-- The `n` elements from the position on. -/
def slice (n : ℕ) : Cursor β (List β) := fun b pos =>
  if pos + n ≤ b.length then .ok ((b.drop pos).take n) pos else .overrun

/-- `pos + i < len && f(b[pos + i])` -/
def test (i : ℕ) (f : β → Bool) : Cursor β Bool := do
  let inside ← avail (i + 1)
  if inside then f <$> peek i else return false

/-- `if (pos < len && f(b[pos])) pos++;`, and whether it did. -/
def skipIf (f : β → Bool) : Cursor β Bool := do
  let found ← test 0 f
  if found then (fun _ => true) <$> skip 1 else return false

/-- Run `p`, and copy the elements it moved over. -/
def span (p : Cursor β α) : Cursor β (α × List β) := fun b pos =>
  match p b pos with
  | .overrun => .overrun
  | .exhausted => .exhausted
  | .fail pos' => .fail pos'
  | .ok a pos' =>
    if pos ≤ pos' ∧ pos' ≤ b.length then .ok (a, (b.drop pos).take (pos' - pos)) pos' else .overrun

/-- At most `n` rounds of a loop: a round goes on with a new state or ends with a value. -/
def rounds (body : σ → Cursor β (σ ⊕ α)) : ℕ → σ → Cursor β α
  | 0, _ => exhausted
  | n + 1, x => do
    match ← body x with
    | .inl y => rounds body n y
    | .inr a => return a

/-- A loop; no more rounds than there are elements in the buffer, and one, are ever needed. -/
def loop (body : σ → Cursor β (σ ⊕ α)) (x : σ) : Cursor β α := fun b pos =>
  rounds body (b.length + 1) x b pos

/-- `while (pos < len && f(b[pos])) pos++;` -/
def skipWhile (f : β → Bool) : Cursor β Unit :=
  loop (fun _ => do
    let found ← skipIf f
    return if found then .inl () else .inr ()) ()

/-! ## Sequencing, at one position -/

theorem bind_ok {p : Cursor β α} {f : α → Cursor β γ} {b : List β} {pos pos' : ℕ} {a : α}
    (h : p b pos = .ok a pos') : (p >>= f) b pos = f a b pos' := by
  show Cursor.bind p f b pos = _
  simp only [Cursor.bind, h]

theorem bind_fail {p : Cursor β α} {f : α → Cursor β γ} {b : List β} {pos pos' : ℕ}
    (h : p b pos = .fail pos') : (p >>= f) b pos = .fail pos' := by
  show Cursor.bind p f b pos = _
  simp only [Cursor.bind, h]

/-! ## The input that is left -/

/-- The input left at `pos` is `s`. -/
def At (b : List β) (pos : ℕ) (s : List β) : Prop := pos ≤ b.length ∧ b.drop pos = s

variable {b : List β} {pos : ℕ} {s t r : List β} {c : β}

theorem At.start (b : List β) : At b 0 b := ⟨Nat.zero_le _, rfl⟩

theorem At.length (h : At b pos s) : pos + s.length = b.length := by
  have hlen := congrArg List.length h.2
  rw [List.length_drop] at hlen
  have := h.1
  omega

theorem At.drop (h : At b pos s) {n : ℕ} (hn : n ≤ s.length) : At b (pos + n) (s.drop n) := by
  have hlen := h.length
  refine ⟨by omega, ?_⟩
  rw [← List.drop_drop, h.2]

theorem At.get (h : At b pos s) (i : ℕ) : b[pos + i]? = s[i]? := by
  rw [← h.2, List.getElem?_drop]

/-- At the end of the buffer nothing is left. -/
theorem At.eq_nil_iff (h : At b pos s) : s = [] ↔ pos = b.length := by
  have := h.length
  rw [← List.length_eq_zero_iff]
  omega

/-! ## What a routine may do on an input -/

variable {p : Cursor β α} {f : α → Cursor β γ} {a : α} {v : γ} {n : ℕ}

/-- On the input `s` the routine stays inside the buffer and within its bound, and what it returns
satisfies `Q` together with the input it leaves. -/
def Reads (p : Cursor β α) (s : List β) (Q : α → List β → Prop) : Prop :=
  ∀ b pos, At b pos s → match p b pos with
    | .overrun => False
    | .exhausted => False
    | .fail pos' => pos' ≤ b.length
    | .ok a pos' => ∃ r, At b pos' r ∧ Q a r

namespace Reads

variable {Q R : α → List β → Prop} {S : γ → List β → Prop}

theorem within (h : p.Reads s Q) (hs : At b pos s) : (p b pos).Within b.length := by
  have := h b pos hs
  cases hp : p b pos with
  | overrun | exhausted => simp [hp] at this
  | fail pos' =>
    rw [hp] at this
    exact this
  | ok a pos' =>
    rw [hp] at this
    obtain ⟨r, hr, -⟩ := this
    exact hr.1

theorem of_ok (h : p.Reads s Q) (hs : At b pos s) {pos' : ℕ} (hp : p b pos = .ok a pos') :
    ∃ r, At b pos' r ∧ Q a r := by
  have := h b pos hs
  rwa [hp] at this

theorem mono (h : p.Reads s Q) (hQ : ∀ a r, Q a r → R a r) : p.Reads s R := by
  intro b pos hs
  have := h b pos hs
  cases hp : p b pos with
  | overrun | exhausted => simp [hp] at this
  | fail => simpa [hp] using this
  | ok a pos' =>
    rw [hp] at this
    obtain ⟨r, hr, hq⟩ := this
    exact ⟨r, hr, hQ a r hq⟩

theorem pure (h : Q a s) : (Pure.pure a : Cursor β α).Reads s Q := fun _ _ hs => ⟨s, hs, h⟩

theorem fail : (Cursor.fail : Cursor β α).Reads s Q := fun _ _ hs => hs.1

theorem bind (h : p.Reads s fun a t => (f a).Reads t S) : (p >>= f).Reads s S := by
  intro b pos hs
  have hp := h b pos hs
  show match Cursor.bind p f b pos with
    | .overrun => _
    | .exhausted => _
    | .fail pos' => _
    | .ok a pos' => _
  unfold Cursor.bind
  cases heq : p b pos with
  | overrun | exhausted => simp [heq] at hp
  | fail => simpa [heq] using hp
  | ok a pos' =>
    rw [heq] at hp
    obtain ⟨t, ht, hf⟩ := hp
    exact hf b pos' ht

theorem map {g : α → γ} (h : p.Reads s fun a r => S (g a) r) : (g <$> p).Reads s S :=
  bind (h.mono fun _ _ hq => pure hq)

theorem avail {Q : Bool → List β → Prop} (h : Q (decide (n ≤ s.length)) s) :
    (Cursor.avail n : Cursor β Bool).Reads s Q := by
  intro b pos hs
  have hlen := hs.length
  have hiff : decide (pos + n ≤ b.length) = decide (n ≤ s.length) := by
    rw [decide_eq_decide]
    omega
  exact ⟨s, hs, by rwa [hiff]⟩

theorem need {Q : Unit → List β → Prop} (h : n ≤ s.length → Q () s) :
    (Cursor.need n : Cursor β Unit).Reads s Q := by
  intro b pos hs
  have hlen := hs.length
  by_cases hn : pos + n ≤ b.length
  · simp only [Cursor.need, if_pos hn]
    exact ⟨s, hs, h (by omega)⟩
  · simp only [Cursor.need, if_neg hn]
    exact hs.1

theorem remaining {Q : ℕ → List β → Prop} (h : Q s.length s) :
    (Cursor.remaining : Cursor β ℕ).Reads s Q := by
  intro b pos hs
  have hlen := hs.length
  simp only [Cursor.remaining, if_pos hs.1]
  exact ⟨s, hs, by rwa [show b.length - pos = s.length by omega]⟩

theorem peek {i : ℕ} {Q : β → List β → Prop} (hc : s[i]? = some c) (h : Q c s) :
    (Cursor.peek i).Reads s Q := by
  intro b pos hs
  simp only [Cursor.peek, hs.get, hc]
  exact ⟨s, hs, h⟩

theorem skip {Q : Unit → List β → Prop} (hn : n ≤ s.length) (h : Q () (s.drop n)) :
    (Cursor.skip n : Cursor β Unit).Reads s Q := fun _ _ hs => ⟨_, hs.drop hn, h⟩

theorem next {Q : β → List β → Prop} (h : Q c s) : Cursor.next.Reads (c :: s) Q :=
  bind (peek rfl (bind (skip (Nat.le_add_left ..) (pure h))))

theorem slice {Q : List β → List β → Prop} (hn : n ≤ s.length) (h : Q (s.take n) s) :
    (Cursor.slice n).Reads s Q := by
  intro b pos hs
  have hlen := hs.length
  simp only [Cursor.slice, if_pos (show pos + n ≤ b.length by omega), hs.2]
  exact ⟨s, hs, h⟩

theorem test {i : ℕ} {g : β → Bool} {Q : Bool → List β → Prop} (h : Q (s[i]?.any g) s) :
    (Cursor.test i g).Reads s Q := by
  apply bind
  apply avail
  by_cases hi : i < s.length
  · rw [if_pos (decide_eq_true (Nat.succ_le_of_lt hi))]
    rw [List.getElem?_eq_getElem hi] at h
    exact map (peek (List.getElem?_eq_getElem hi) h)
  · rw [if_neg (by simp; omega)]
    rw [List.getElem?_eq_none (by omega)] at h
    exact pure h

theorem skipIf {g : β → Bool} {Q : Bool → List β → Prop}
    (h : ∀ c t, s = c :: t → g c → Q true t) (h' : (∀ c t, s = c :: t → ¬ g c) → Q false s) :
    (Cursor.skipIf g).Reads s Q := by
  apply bind
  apply test
  cases s with
  | nil => exact pure (h' fun c t hs => by cases hs)
  | cons c t =>
    by_cases hc : g c
    · rw [List.getElem?_cons_zero, Option.any_some, hc, if_pos rfl]
      exact map (skip (Nat.le_add_left ..) (h c t rfl hc))
    · rw [List.getElem?_cons_zero, Option.any_some, eq_false_of_ne_true hc, if_neg (by simp)]
      exact pure (h' fun c' t' hs => by
        obtain ⟨rfl, rfl⟩ := List.cons.inj hs
        exact hc)

theorem span {Q : α × List β → List β → Prop}
    (h : p.Reads s fun a r => ∃ x, s = x ++ r ∧ Q (a, x) r) : (Cursor.span p).Reads s Q := by
  intro b pos hs
  have hp := h b pos hs
  unfold Cursor.span
  cases heq : p b pos with
  | overrun | exhausted => simp [heq] at hp
  | fail => simpa [heq] using hp
  | ok a pos' =>
    rw [heq] at hp
    obtain ⟨r, hr, x, rfl, hq⟩ := hp
    have hlen := hs.length
    have hlen' := hr.length
    rw [List.length_append] at hlen
    simp only [if_pos (show pos ≤ pos' ∧ pos' ≤ b.length by omega), hs.2]
    rw [show pos' - pos = x.length by omega, List.take_left]
    exact ⟨r, hr, hq⟩

/-- The rule for loops: an invariant, and less input after each round. -/
theorem loop {body : σ → Cursor β (σ ⊕ α)} (I : σ → List β → Prop)
    (hbody : ∀ x s, I x s → (body x).Reads s fun y r => match y with
      | .inl x' => r.length < s.length ∧ I x' r
      | .inr a => Q a r)
    {x : σ} (hx : I x s) : (Cursor.loop body x).Reads s Q := by
  have hrounds : ∀ n x s, s.length < n → I x s → (rounds body n x).Reads s Q := by
    intro n
    induction n with
    | zero => intro x s hn
              omega
    | succ n ih =>
      intro x s hn hx
      apply bind
      apply (hbody x s hx).mono
      intro y r hy
      cases y with
      | inl x' => exact ih x' r (by omega) hy.2
      | inr a => exact pure hy
  intro b pos hs
  exact hrounds (b.length + 1) x s (by have := hs.length; omega) hx b pos hs

theorem skipWhile {g : β → Bool} {Q : Unit → List β → Prop} (h : Q () (s.dropWhile g)) :
    (Cursor.skipWhile g).Reads s Q := by
  apply loop fun _ t => t.dropWhile g = s.dropWhile g
  · intro _ t ht
    apply bind
    apply skipIf
    · rintro c t rfl hc
      apply pure
      rw [List.dropWhile_cons_of_pos hc] at ht
      exact ⟨Nat.lt_succ_self _, ht⟩
    · intro hstop
      apply pure
      have hdrop : t.dropWhile g = t := by
        cases t with
        | nil => rfl
        | cons c t => exact List.dropWhile_cons_of_neg (hstop c t rfl)
      rw [hdrop] at ht
      exact ht ▸ h
  · rfl

end Reads

/-! ## What a routine does on an input -/

/-- On the input `s` the routine returns `a` and leaves `r`. -/
def Yields (p : Cursor β α) (s : List β) (a : α) (r : List β) : Prop :=
  ∀ b pos, At b pos s → ∃ pos', p b pos = .ok a pos' ∧ At b pos' r

namespace Yields

/-- What a routine returns satisfies the post-condition that was proved for it. -/
theorem post {Q : α → List β → Prop} (h : p.Yields s a r) (h' : p.Reads s Q) : Q a r := by
  obtain ⟨pos', heq, hr⟩ := h s 0 (At.start s)
  obtain ⟨r', hr', hq⟩ := h'.of_ok (At.start s) heq
  rwa [← hr.2, hr'.2]

theorem pure : (Pure.pure a : Cursor β α).Yields s a s := fun _ pos hs => ⟨pos, rfl, hs⟩

theorem bind (hp : p.Yields s a t) (hf : (f a).Yields t v r) : (p >>= f).Yields s v r := by
  intro b pos hs
  obtain ⟨pos', heq, ht⟩ := hp b pos hs
  obtain ⟨pos'', heq', hr⟩ := hf b pos' ht
  refine ⟨pos'', ?_, hr⟩
  show Cursor.bind p f b pos = _
  simp only [Cursor.bind, heq, heq']

theorem map {g : α → γ} (hp : p.Yields s a r) : (g <$> p).Yields s (g a) r := bind hp pure

theorem avail (n : ℕ) (s : List β) :
    (Cursor.avail n : Cursor β Bool).Yields s (decide (n ≤ s.length)) s := by
  intro b pos hs
  have hlen := hs.length
  refine ⟨pos, ?_, hs⟩
  simp only [Cursor.avail, Scan.ok.injEq, decide_eq_decide, and_true]
  omega

theorem need (hn : n ≤ s.length) : (Cursor.need n : Cursor β Unit).Yields s () s := by
  intro b pos hs
  have hlen := hs.length
  exact ⟨pos, if_pos (by omega), hs⟩

theorem remaining : (Cursor.remaining : Cursor β ℕ).Yields s s.length s := by
  intro b pos hs
  have hlen := hs.length
  refine ⟨pos, ?_, hs⟩
  rw [Cursor.remaining, if_pos hs.1, show b.length - pos = s.length by omega]

theorem peek {i : ℕ} (hc : s[i]? = some c) : (Cursor.peek i).Yields s c s := by
  intro b pos hs
  refine ⟨pos, ?_, hs⟩
  simp only [Cursor.peek, hs.get, hc]

theorem skip (hn : n ≤ s.length) : (Cursor.skip n : Cursor β Unit).Yields s () (s.drop n) :=
  fun _ pos hs => ⟨pos + n, rfl, hs.drop hn⟩

theorem next : Cursor.next.Yields (c :: s) c s :=
  bind (peek rfl) (bind (skip (Nat.le_add_left ..)) pure)

theorem slice (hn : n ≤ s.length) : (Cursor.slice n).Yields s (s.take n) s := by
  intro b pos hs
  have hlen := hs.length
  refine ⟨pos, ?_, hs⟩
  rw [Cursor.slice, if_pos (by omega), hs.2]

theorem test (i : ℕ) (g : β → Bool) : (Cursor.test i g).Yields s (s[i]?.any g) s := by
  apply bind (avail (i + 1) s)
  by_cases hi : i < s.length
  · rw [if_pos (decide_eq_true (Nat.succ_le_of_lt hi)), List.getElem?_eq_getElem hi]
    exact map (peek (List.getElem?_eq_getElem hi))
  · rw [if_neg (by simp; omega), List.getElem?_eq_none (by omega)]
    exact pure

theorem skipIf_pos {g : β → Bool} (hc : g c) : (Cursor.skipIf g).Yields (c :: s) true s := by
  apply bind (test 0 g)
  rw [List.getElem?_cons_zero, Option.any_some, hc, if_pos rfl]
  exact map (skip (Nat.le_add_left ..))

theorem skipIf_neg {g : β → Bool} (hs : s.head?.any g = false) :
    (Cursor.skipIf g).Yields s false s := by
  apply bind (test 0 g)
  rw [← List.head?_eq_getElem?, hs]
  exact pure

theorem span {x : List β} (h : p.Yields (x ++ r) a r) :
    (Cursor.span p).Yields (x ++ r) (a, x) r := by
  intro b pos hs
  obtain ⟨pos', heq, hr⟩ := h b pos hs
  have hlen := hs.length
  have hlen' := hr.length
  rw [List.length_append] at hlen
  refine ⟨pos', ?_, hr⟩
  simp only [Cursor.span, heq, if_pos (show pos ≤ pos' ∧ pos' ≤ b.length by omega), hs.2]
  rw [show pos' - pos = x.length by omega, List.take_left]

/-- The loop ends with `a` on the input, whatever the bound on its rounds. -/
def Loops (body : σ → Cursor β (σ ⊕ α)) (x : σ) (s : List β) (a : α) (r : List β) : Prop :=
  ∀ n, s.length < n → (rounds body n x).Yields s a r

variable {body : σ → Cursor β (σ ⊕ α)} {x y : σ}

theorem Loops.done (h : (body x).Yields s (.inr a) r) : Loops body x s a r := by
  intro n hn
  cases n with
  | zero => omega
  | succ n => exact bind h pure

theorem Loops.next (h : (body x).Yields s (.inl y) t) (hlt : t.length < s.length)
    (hy : Loops body y t a r) : Loops body x s a r := by
  intro n hn
  cases n with
  | zero => omega
  | succ n => exact bind h (hy n (by omega))

theorem loop (h : Loops body x s a r) : (Cursor.loop body x).Yields s a r := by
  intro b pos hs
  exact h (b.length + 1) (by have := hs.length; omega) b pos hs

theorem skipWhile (g : β → Bool) (s : List β) :
    (Cursor.skipWhile g).Yields s () (s.dropWhile g) := by
  apply loop
  induction s with
  | nil => exact Loops.done (bind (skipIf_neg rfl) pure)
  | cons c s ih =>
    by_cases hc : g c
    · rw [List.dropWhile_cons_of_pos hc]
      exact Loops.next (bind (skipIf_pos hc) pure) (Nat.lt_succ_self _) ih
    · rw [List.dropWhile_cons_of_neg hc]
      exact Loops.done (bind (skipIf_neg (by simpa using hc)) pure)

end Yields

/-- On the input `s` the routine refuses. -/
def Refuses (p : Cursor β α) (s : List β) : Prop :=
  ∀ b pos, At b pos s → ∃ pos', p b pos = .fail pos'

namespace Refuses

theorem fail : (Cursor.fail : Cursor β α).Refuses s := fun _ pos _ => ⟨pos, rfl⟩

theorem bind (hp : p.Refuses s) : (p >>= f).Refuses s := by
  intro b pos hs
  obtain ⟨pos', heq⟩ := hp b pos hs
  refine ⟨pos', ?_⟩
  show Cursor.bind p f b pos = _
  simp only [Cursor.bind, heq]

theorem after (hp : p.Yields s a t) (hf : (f a).Refuses t) : (p >>= f).Refuses s := by
  intro b pos hs
  obtain ⟨pos', heq, ht⟩ := hp b pos hs
  obtain ⟨pos'', heq'⟩ := hf b pos' ht
  refine ⟨pos'', ?_⟩
  show Cursor.bind p f b pos = _
  simp only [Cursor.bind, heq, heq']

end Refuses

/-- The routine fails where it started, if it fails. -/
def FailsHere (p : Cursor β α) : Prop := ∀ b pos pos', p b pos = .fail pos' → pos' = pos

/-- The routine leaves the position, and fails where it started. -/
def Stays (p : Cursor β α) : Prop := p.FailsHere ∧ ∀ b pos a pos', p b pos = .ok a pos' → pos' = pos

namespace Stays

theorem pure (a : α) : (Pure.pure a : Cursor β α).Stays :=
  ⟨fun _ _ _ h => (nomatch h), fun _ _ _ _ h => (Scan.ok.inj h).2.symm⟩

theorem fail : (Cursor.fail : Cursor β α).Stays :=
  ⟨fun _ _ _ h => (Scan.fail.inj h).symm, fun _ _ _ _ h => nomatch h⟩

theorem need (n : ℕ) : (Cursor.need n : Cursor β Unit).Stays := by
  refine ⟨fun b pos pos' h => ?_, fun b pos a pos' h => ?_⟩
  all_goals
    unfold Cursor.need at h
    split at h <;> cases h
    rfl

theorem peek (i : ℕ) : (Cursor.peek i : Cursor β β).Stays := by
  refine ⟨fun b pos pos' h => ?_, fun b pos a pos' h => ?_⟩
  all_goals
    unfold Cursor.peek at h
    split at h <;> cases h
  rfl

end Stays

theorem FailsHere.skip (n : ℕ) : (Cursor.skip n : Cursor β Unit).FailsHere := fun _ _ _ h => nomatch h

/-- After a routine that leaves the position, the next one starts in the same place. -/
theorem FailsHere.bind (hp : p.Stays) (hf : ∀ a, (f a).FailsHere) : (p >>= f).FailsHere := by
  intro b pos pos' h
  replace h : Cursor.bind p f b pos = .fail pos' := h
  unfold Cursor.bind at h
  cases heq : p b pos with
  | overrun | exhausted => simp [heq] at h
  | fail q =>
    rw [heq] at h
    cases h
    exact hp.1 b pos _ heq
  | ok a q =>
    rw [heq] at h
    obtain rfl := hp.2 b pos a q heq
    exact hf a b q pos' h

theorem Stays.bind (hp : p.Stays) (hf : ∀ a, (f a).Stays) : (p >>= f).Stays := by
  refine ⟨.bind hp fun a => (hf a).1, fun b pos v pos' h => ?_⟩
  replace h : Cursor.bind p f b pos = .ok v pos' := h
  unfold Cursor.bind at h
  cases heq : p b pos with
  | overrun | exhausted | fail => simp [heq] at h
  | ok a q =>
    rw [heq] at h
    obtain rfl := hp.2 b pos a q heq
    exact (hf a).2 b q v pos' h

/-- The routine ends inside the buffer and leaves no more input than it found, or it refuses. -/
def Shrinks (p : Cursor β α) : Prop := ∀ s, p.Reads s fun _ r => r.length ≤ s.length

namespace Shrinks

theorem pure (a : α) : (Pure.pure a : Cursor β α).Shrinks := fun _ => .pure (Nat.le_refl _)

theorem fail : (Cursor.fail : Cursor β α).Shrinks := fun _ => .fail

theorem bind (hp : p.Shrinks) (hf : ∀ a, (f a).Shrinks) : (p >>= f).Shrinks := fun s =>
  .bind ((hp s).mono fun a t ht => (hf a t).mono fun _ _ hr => Nat.le_trans hr ht)

theorem map (g : α → γ) (hp : p.Shrinks) : (g <$> p).Shrinks := bind hp fun _ => pure _

theorem ite {c : Prop} [Decidable c] {p' : Cursor β α} (hp : p.Shrinks) (hp' : p'.Shrinks) :
    (if c then p else p').Shrinks := by
  by_cases hc : c
  · rwa [if_pos hc]
  · rwa [if_neg hc]

end Shrinks

end Cursor

end Alcove.Lib
