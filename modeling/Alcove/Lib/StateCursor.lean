import Alcove.Lib.Cursor

/-!
# Reading a buffer and changing a state

A routine that reads a buffer through a position and changes a state on the way (`StateCursor`). A
refusal does not undo what was changed before it. `perform` turns a routine that only notes what is to
be done, in a list, into one that does it.

Three judgements: `p.Erases q`: the reads of `p` are those of the `Cursor` `q`, whatever the state;
`p.Forward`: the position never moves back nor leaves the buffer; and `Many p b pos xs pos'`: the buffer
holds the items `xs` from `pos` to `pos'`, one after the other.

**Main result:** `many_spec`. Reading a number of items and acting on each ends with all of them acted
on, or with those before the first that cannot be read.
-/

namespace Alcove.Lib

variable {σ τ β α γ : Type}

/-- A routine that reads the buffer from a position and changes a state. -/
def StateCursor (σ β α : Type) : Type := List β → ℕ → σ → σ × Scan α

namespace StateCursor

/-- Read nothing. -/
def pure (a : α) : StateCursor σ β α := fun _ pos x => (x, .ok a pos)

/-- Read with `p`, then go on with what it read. -/
def bind (p : StateCursor σ β α) (f : α → StateCursor σ β γ) : StateCursor σ β γ := fun b pos x =>
  match p b pos x with
  | (y, .overrun) => (y, .overrun)
  | (y, .exhausted) => (y, .exhausted)
  | (y, .fail pos') => (y, .fail pos')
  | (y, .ok a pos') => f a b pos' y

instance : Monad (StateCursor σ β) where
  pure := pure
  bind := bind

/-- Read without a change of the state. -/
def read (p : Cursor β α) : StateCursor σ β α := fun b pos x => (x, p b pos)

/-- Refuse the input. -/
def fail : StateCursor σ β α := read Cursor.fail

/-- Change the state. -/
def modify (f : σ → σ) : StateCursor σ β Unit := fun _ pos x => (f x, .ok () pos)

/-- The state. -/
def get : StateCursor σ β σ := fun _ pos x => (x, .ok x pos)

/-- The position. -/
def position : StateCursor σ β ℕ := fun _ pos x => (x, .ok pos pos)

/-- Note that `e` is to be done. -/
def tell (e : τ) : StateCursor (List τ) β Unit := modify (· ++ [e])

/-- Do what the routine notes, in its order. -/
def perform (act : σ → τ → σ) (p : StateCursor (List τ) β α) : StateCursor σ β α := fun b pos x =>
  ((p b pos []).1.foldl act x, (p b pos []).2)

/-- What the routine returns, or `none` where it refuses, at the position where it began. -/
def attempt (p : StateCursor σ β α) : StateCursor σ β (Option α) := fun b pos x =>
  match p b pos x with
  | (y, .fail _) => (y, .ok none pos)
  | (y, .ok a pos') => (y, .ok (some a) pos')
  | (y, .overrun) => (y, .overrun)
  | (y, .exhausted) => (y, .exhausted)

theorem bind_ok {p : StateCursor σ β α} {f : α → StateCursor σ β γ} {b : List β} {pos pos' : ℕ}
    {x y : σ} {a : α} (h : p b pos x = (y, .ok a pos')) : (p >>= f) b pos x = f a b pos' y := by
  show StateCursor.bind p f b pos x = _
  unfold StateCursor.bind
  rw [h]

theorem bind_fail {p : StateCursor σ β α} {f : α → StateCursor σ β γ} {b : List β} {pos pos' : ℕ}
    {x y : σ} (h : p b pos x = (y, .fail pos')) : (p >>= f) b pos x = (y, .fail pos') := by
  show StateCursor.bind p f b pos x = _
  unfold StateCursor.bind
  rw [h]

theorem attempt_ok {p : StateCursor σ β α} {b : List β} {pos pos' : ℕ} {x y : σ} {a : α}
    (h : p b pos x = (y, .ok a pos')) : attempt p b pos x = (y, .ok (some a) pos') := by
  unfold attempt
  rw [h]

theorem attempt_fail {p : StateCursor σ β α} {b : List β} {pos pos' : ℕ} {x y : σ}
    (h : p b pos x = (y, .fail pos')) : attempt p b pos x = (y, .ok none pos) := by
  unfold attempt
  rw [h]

variable {δ : Type}

/-- At most `n` rounds of a loop: a round goes on with a new value or ends. -/
def rounds (body : δ → StateCursor σ β (δ ⊕ α)) : ℕ → δ → StateCursor σ β α
  | 0, _ => read Cursor.exhausted
  | n + 1, d => do
    match ← body d with
    | .inl d' => rounds body n d'
    | .inr a => return a

/-- A loop; no more rounds than there are elements in the buffer, and one, are ever needed. -/
def loop (body : δ → StateCursor σ β (δ ⊕ α)) (d : δ) : StateCursor σ β α := fun b pos x =>
  rounds body (b.length + 1) d b pos x

/-! ## Reads without the state -/

/-- The reads of the routine are those of `q`. -/
def Erases (p : StateCursor σ β α) (q : Cursor β α) : Prop := ∀ b pos x, (p b pos x).2 = q b pos

namespace Erases

variable {p : StateCursor σ β α} {q : Cursor β α} {f : α → StateCursor σ β γ} {g : α → Cursor β γ}

theorem pure (a : α) : (Pure.pure a : StateCursor σ β α).Erases (Pure.pure a) := fun _ _ _ => rfl

theorem read (q : Cursor β α) : (StateCursor.read q : StateCursor σ β α).Erases q := fun _ _ _ => rfl

theorem fail : (StateCursor.fail : StateCursor σ β α).Erases Cursor.fail := read _

theorem bind (hp : p.Erases q) (hf : ∀ a, (f a).Erases (g a)) : (p >>= f).Erases (q >>= g) := by
  intro b pos x
  have h := hp b pos x
  show (StateCursor.bind p f b pos x).2 = Cursor.bind q g b pos
  unfold StateCursor.bind Cursor.bind
  rw [← h]
  rcases p b pos x with ⟨y, _ | _ | pos' | ⟨a, pos'⟩⟩
  · rfl
  · rfl
  · rfl
  · exact hf a b pos' y

theorem map (h : α → γ) (hp : p.Erases q) : (h <$> p).Erases (h <$> q) := bind hp fun _ => pure _

/-- A change of the state is not seen. -/
theorem after {h : σ → σ} {r : StateCursor σ β γ} {s : Cursor β γ} (hr : r.Erases s) :
    (StateCursor.modify h >>= fun _ => r).Erases s := fun b pos x => hr b pos (h x)

theorem ite {c : Prop} [Decidable c] {p' : StateCursor σ β α} {q' : Cursor β α} (hp : p.Erases q)
    (hp' : p'.Erases q') : (if c then p else p').Erases (if c then q else q') := by
  by_cases hc : c
  · rwa [if_pos hc, if_pos hc]
  · rwa [if_neg hc, if_neg hc]

end Erases

/-! ## Progress -/

/-- The routine ends inside the buffer, at its position or after it, or refuses. -/
def Forward (p : StateCursor σ β α) : Prop := ∀ b pos x, pos ≤ b.length →
  match (p b pos x).2 with
  | .overrun => False
  | .exhausted => False
  | .fail _ => True
  | .ok _ pos' => pos ≤ pos' ∧ pos' ≤ b.length

namespace Forward

variable {p : StateCursor σ β α} {f : α → StateCursor σ β γ}

/-- How a routine that moves forward ends. -/
theorem cases (h : p.Forward) {b : List β} {pos : ℕ} (hpos : pos ≤ b.length) (x : σ) :
    (∃ y pos', p b pos x = (y, .fail pos')) ∨
      ∃ y a pos', p b pos x = (y, .ok a pos') ∧ pos ≤ pos' ∧ pos' ≤ b.length := by
  have := h b pos x hpos
  rcases hp : p b pos x with ⟨y, _ | _ | pos' | ⟨a, pos'⟩⟩
  · simp [hp] at this
  · simp [hp] at this
  · exact .inl ⟨y, pos', rfl⟩
  · rw [hp] at this
    exact .inr ⟨y, a, pos', rfl, this⟩

theorem pure (a : α) : (Pure.pure a : StateCursor σ β α).Forward := fun _ _ _ h => ⟨Nat.le_refl _, h⟩

theorem fail : (StateCursor.fail : StateCursor σ β α).Forward := fun _ _ _ _ => trivial

theorem modify (f : σ → σ) : (StateCursor.modify f : StateCursor σ β Unit).Forward :=
  fun _ _ _ h => ⟨Nat.le_refl _, h⟩

theorem get : (StateCursor.get : StateCursor σ β σ).Forward := fun _ _ _ h => ⟨Nat.le_refl _, h⟩

theorem position : (StateCursor.position : StateCursor σ β ℕ).Forward := fun _ _ _ h => ⟨Nat.le_refl _, h⟩

theorem bind (hp : p.Forward) (hf : ∀ a, (f a).Forward) : (p >>= f).Forward := by
  intro b pos x hpos
  show match (StateCursor.bind p f b pos x).2 with
    | .overrun => False
    | .exhausted => False
    | .fail _ => True
    | .ok _ pos' => pos ≤ pos' ∧ pos' ≤ b.length
  unfold StateCursor.bind
  rcases hp.cases hpos x with ⟨y, pos', heq⟩ | ⟨y, a, pos', heq, hle, hlen⟩
  · simp [heq]
  · rcases (hf a).cases hlen y with ⟨z, pos'', heq'⟩ | ⟨z, c, pos'', heq', hle', hlen'⟩
    · simp [heq, heq']
    · simpa [heq, heq'] using ⟨Nat.le_trans hle hle', hlen'⟩

theorem map (h : α → γ) (hp : p.Forward) : (h <$> p).Forward := bind hp fun _ => pure _

theorem ite {c : Prop} [Decidable c] {p' : StateCursor σ β α} (hp : p.Forward) (hp' : p'.Forward) :
    (if c then p else p').Forward := by
  by_cases hc : c
  · rwa [if_pos hc]
  · rwa [if_neg hc]

/-- A `Cursor` that leaves no more input than it found. -/
theorem read {q : Cursor β α} (h : q.Shrinks) :
    (StateCursor.read q : StateCursor σ β α).Forward := by
  intro b pos x hpos
  have hs : Cursor.At b pos (b.drop pos) := ⟨hpos, rfl⟩
  have hq := h _ b pos hs
  show match q b pos with
    | .overrun => False
    | .exhausted => False
    | .fail _ => True
    | .ok _ pos' => pos ≤ pos' ∧ pos' ≤ b.length
  rcases heq : q b pos with _ | _ | pos' | ⟨a, pos'⟩
  · simp [heq] at hq
  · simp [heq] at hq
  · trivial
  · rw [heq] at hq
    obtain ⟨r, hr, hle⟩ := hq
    have h1 := hs.length
    have h2 := hr.length
    exact ⟨by omega, hr.1⟩

theorem perform {act : σ → τ → σ} {p : StateCursor (List τ) β α} (h : p.Forward) :
    (StateCursor.perform act p).Forward := fun b pos _ hpos => h b pos [] hpos

end Forward

/-- Each round of the loop moves forward, by an element at least where another one follows. -/
def Advances (body : δ → StateCursor σ β (δ ⊕ α)) : Prop := ∀ d b pos x, pos ≤ b.length →
  match (body d b pos x).2 with
  | .overrun => False
  | .exhausted => False
  | .fail _ => True
  | .ok (.inl _) pos' => pos < pos' ∧ pos' ≤ b.length
  | .ok (.inr _) pos' => pos ≤ pos' ∧ pos' ≤ b.length

/-- A routine that moves forward by an element at least, or refuses. -/
def Eats (p : StateCursor σ β α) : Prop := ∀ b pos x, pos ≤ b.length →
  match (p b pos x).2 with
  | .overrun => False
  | .exhausted => False
  | .fail _ => True
  | .ok _ pos' => pos < pos' ∧ pos' ≤ b.length

namespace Eats

variable {p : StateCursor σ β α} {f : α → StateCursor σ β γ}

theorem read {q : Cursor β α} (hq : ∀ s, q.Reads s fun _ r => r.length < s.length) :
    (StateCursor.read q : StateCursor σ β α).Eats := by
  intro b pos x hpos
  have hs : Cursor.At b pos (b.drop pos) := ⟨hpos, rfl⟩
  have hreads := hq _ b pos hs
  show match q b pos with
    | .overrun => False
    | .exhausted => False
    | .fail _ => True
    | .ok _ pos' => pos < pos' ∧ pos' ≤ b.length
  rcases heq : q b pos with _ | _ | pos' | ⟨c, pos'⟩
  · simp [heq] at hreads
  · simp [heq] at hreads
  · trivial
  · rw [heq] at hreads
    obtain ⟨r, hr, hlt⟩ := hreads
    have h1 := hs.length
    have h2 := hr.length
    exact ⟨by omega, hr.1⟩

theorem bind (hp : p.Eats) (hf : ∀ a, (f a).Forward) : (p >>= f).Eats := by
  intro b pos x hpos
  have hread := hp b pos x hpos
  rcases heq : p b pos x with ⟨y, _ | _ | pos' | ⟨a, pos'⟩⟩
  · simp [heq] at hread
  · simp [heq] at hread
  · rw [bind_fail heq]
    trivial
  · rw [heq] at hread
    rw [bind_ok heq]
    rcases (hf a).cases hread.2 y with ⟨z, pos'', heq'⟩ | ⟨z, c, pos'', heq', hle, hlen⟩
    · simp [heq']
    · rw [heq']
      exact ⟨Nat.lt_of_lt_of_le hread.1 hle, hlen⟩

theorem perform {act : σ → τ → σ} {p : StateCursor (List τ) β α} (h : p.Eats) :
    (StateCursor.perform act p).Eats := fun b pos _ hpos => h b pos [] hpos

end Eats

theorem Advances.of_eats {body : δ → StateCursor σ β (δ ⊕ α)} (h : ∀ d, (body d).Eats) :
    Advances body := by
  intro d b pos x hpos
  have hbody := h d b pos x hpos
  rcases heq : body d b pos x with ⟨y, _ | _ | pos' | ⟨d' | a, pos'⟩⟩
  · simp [heq] at hbody
  · simp [heq] at hbody
  · trivial
  · rwa [heq] at hbody
  · rw [heq] at hbody
    exact ⟨Nat.le_of_lt hbody.1, hbody.2⟩

/-- A loop that ends where an item cannot be read. -/
theorem Advances.attempt {p : StateCursor σ β γ} {f : δ → Option γ → StateCursor σ β (δ ⊕ α)}
    (hp : p.Eats) (hnone : ∀ d, ∃ a, f d none = Pure.pure (.inr a))
    (hsome : ∀ d c, (f d (some c)).Forward) :
    Advances fun d => StateCursor.attempt p >>= f d := by
  intro d b pos x hpos
  have hread := hp b pos x hpos
  show match ((StateCursor.attempt p >>= f d) b pos x).2 with
    | .overrun => False
    | .exhausted => False
    | .fail _ => True
    | .ok (.inl _) pos' => pos < pos' ∧ pos' ≤ b.length
    | .ok (.inr _) pos' => pos ≤ pos' ∧ pos' ≤ b.length
  rcases heq : p b pos x with ⟨y, _ | _ | pos' | ⟨c, pos'⟩⟩
  · simp [heq] at hread
  · simp [heq] at hread
  · obtain ⟨a, ha⟩ := hnone d
    rw [bind_ok (attempt_fail heq), ha]
    exact ⟨Nat.le_refl _, hpos⟩
  · rw [heq] at hread
    rw [bind_ok (attempt_ok heq)]
    rcases (hsome d c).cases hread.2 y with ⟨z, pos'', heq'⟩ | ⟨z, e, pos'', heq', hle, hlen⟩
    · simp [heq']
    · have hlt : pos < pos'' := Nat.lt_of_lt_of_le hread.1 hle
      rw [heq']
      cases e with
      | inl d' => exact ⟨hlt, hlen⟩
      | inr a => exact ⟨Nat.le_of_lt hlt, hlen⟩

/-- **The rule for loops.** -/
theorem loop_rule {body : δ → StateCursor σ β (δ ⊕ α)} (hbody : Advances body) {b : List β}
    {C : δ → ℕ → σ → σ × Scan α → Prop}
    (hfail : ∀ d pos x y pos', pos ≤ b.length → body d b pos x = (y, .fail pos') →
      C d pos x (y, .fail pos'))
    (hdone : ∀ d pos x y a pos', body d b pos x = (y, .ok (.inr a) pos') → pos ≤ pos' →
      pos' ≤ b.length → C d pos x (y, .ok a pos'))
    (hnext : ∀ d pos x y d' pos' r, body d b pos x = (y, .ok (.inl d') pos') → pos ≤ pos' →
      C d' pos' y r → C d pos x r)
    {pos : ℕ} (hpos : pos ≤ b.length) (d : δ) (x : σ) : C d pos x (loop body d b pos x) := by
  have hrounds : ∀ n d pos x, pos ≤ b.length → b.length - pos < n →
      C d pos x (rounds body n d b pos x) := by
    intro n
    induction n with
    | zero => intro d pos x _ hn
              omega
    | succ n ih =>
      intro d pos x hpos hn
      have hround := hbody d b pos x hpos
      have hstep : rounds body (n + 1) d b pos x = StateCursor.bind (body d) (fun
        | .inl d' => rounds body n d'
        | .inr a => StateCursor.pure a) b pos x := rfl
      rw [hstep]
      unfold StateCursor.bind
      rcases heq : body d b pos x with ⟨y, _ | _ | pos' | ⟨d' | a, pos'⟩⟩
      · simp [heq] at hround
      · simp [heq] at hround
      · exact hfail d pos x y pos' hpos heq
      · rw [heq] at hround
        exact hnext d pos x y d' pos' _ heq (Nat.le_of_lt hround.1)
          (ih d' pos' y hround.2 (by have := hround.1; omega))
      · rw [heq] at hround
        exact hdone d pos x y a pos' heq hround.1 hround.2
  exact hrounds (b.length + 1) d pos x hpos (by omega)

/-- The bound on the rounds does not matter. -/
theorem rounds_eq {body : δ → StateCursor σ β (δ ⊕ α)} (hbody : Advances body) {b : List β} {n m : ℕ}
    {d : δ} {pos : ℕ} {x : σ} (hpos : pos ≤ b.length) (hn : b.length - pos < n)
    (hm : b.length - pos < m) : rounds body n d b pos x = rounds body m d b pos x := by
  induction n generalizing m d pos x with
  | zero => omega
  | succ n ih =>
    cases m with
    | zero => omega
    | succ m =>
      have hround := hbody d b pos x hpos
      show StateCursor.bind (body d) (fun
        | .inl d' => rounds body n d'
        | .inr a => StateCursor.pure a) b pos x = StateCursor.bind (body d) (fun
        | .inl d' => rounds body m d'
        | .inr a => StateCursor.pure a) b pos x
      unfold StateCursor.bind
      rcases heq : body d b pos x with ⟨y, _ | _ | pos' | ⟨d' | a, pos'⟩⟩
      · rfl
      · rfl
      · rfl
      · rw [heq] at hround
        exact ih hround.2 (by have := hround.1; omega) (by have := hround.1; omega)
      · rfl

/-- A round that goes on. -/
theorem loop_next {body : δ → StateCursor σ β (δ ⊕ α)} (hbody : Advances body) {b : List β} {d d' : δ}
    {pos pos' : ℕ} {x y : σ} (hpos : pos ≤ b.length) (h : body d b pos x = (y, .ok (.inl d') pos')) :
    loop body d b pos x = loop body d' b pos' y := by
  have hround := hbody d b pos x hpos
  rw [h] at hround
  show rounds body (b.length + 1) d b pos x = rounds body (b.length + 1) d' b pos' y
  have hstep : rounds body (b.length + 1) d b pos x = rounds body b.length d' b pos' y := bind_ok h
  rw [hstep]
  exact rounds_eq hbody hround.2 (by have := hround.1; omega) (by omega)

/-- The last round. -/
theorem loop_done {body : δ → StateCursor σ β (δ ⊕ α)} {b : List β} {d : δ} {a : α} {pos pos' : ℕ}
    {x y : σ} (h : body d b pos x = (y, .ok (.inr a) pos')) :
    loop body d b pos x = (y, .ok a pos') := bind_ok h

theorem Forward.loop {body : δ → StateCursor σ β (δ ⊕ α)} (hbody : Advances body) (d : δ) :
    (StateCursor.loop body d).Forward := by
  intro b pos x hpos
  refine loop_rule hbody (C := fun _ pos _ r => match r.2 with
    | .overrun => False
    | .exhausted => False
    | .fail _ => True
    | .ok _ pos' => pos ≤ pos' ∧ pos' ≤ b.length) ?_ ?_ ?_ hpos d x
  · exact fun _ _ _ _ _ _ _ => trivial
  · exact fun _ _ _ _ _ _ _ hle hlen => ⟨hle, hlen⟩
  · rintro _ _ _ _ _ pos' ⟨y, _ | _ | _ | _⟩ _ hle h
    · exact h
    · exact h
    · trivial
    · exact ⟨Nat.le_trans hle h.1, h.2⟩

/-! ## Items one after the other -/

/-- The buffer holds the items from `pos` to `pos'`. -/
inductive Many (p : Cursor β α) (b : List β) : ℕ → List α → ℕ → Prop
  | nil (pos : ℕ) : Many p b pos [] pos
  | cons {pos pos' pos'' : ℕ} {a : α} {as : List α} (ha : p b pos = .ok a pos')
      (has : Many p b pos' as pos'') : Many p b pos (a :: as) pos''

/-- Read `n` items and act on each. -/
def each (p : Cursor β α) (act : σ → α → σ) : ℕ → StateCursor σ β Unit
  | 0 => return ()
  | n + 1 => do
    let a ← read p
    modify fun x => act x a
    each p act n

/-- **Some items, or all.** -/
theorem many_spec {p : Cursor β α} (hp : p.Shrinks) (act : σ → α → σ) {b : List β} (n : ℕ) {pos : ℕ}
    (hpos : pos ≤ b.length) (x : σ) :
    ∃ as pos', Many p b pos as pos' ∧ pos' ≤ b.length ∧
      (as.length = n ∧ each p act n b pos x = (as.foldl act x, .ok () pos') ∨
        as.length < n ∧ ∃ pos'', p b pos' = .fail pos'' ∧
          each p act n b pos x = (as.foldl act x, .fail pos'')) := by
  induction n generalizing pos x with
  | zero => exact ⟨[], pos, .nil _, hpos, .inl ⟨rfl, rfl⟩⟩
  | succ n ih =>
    have hforward : (read p : StateCursor σ β α).Forward := .read hp
    have hstep : each p act (n + 1) b pos x = StateCursor.bind (read p)
      (fun a => StateCursor.bind (modify fun x => act x a) fun _ => each p act n) b pos x := rfl
    rw [hstep]
    rcases hforward.cases hpos x with ⟨y, pos', heq⟩ | ⟨y, a, pos', heq, -, hlen⟩
    · obtain ⟨rfl, hfail⟩ := Prod.mk.inj heq
      refine ⟨[], pos, .nil _, hpos, .inr ⟨Nat.succ_pos n, pos', hfail, ?_⟩⟩
      simp [StateCursor.bind, read, hfail]
    · obtain ⟨rfl, hok⟩ := Prod.mk.inj heq
      obtain ⟨as, pos'', hmany, hlen', hends⟩ := ih hlen (act x a)
      refine ⟨a :: as, pos'', .cons hok hmany, hlen', ?_⟩
      simpa [StateCursor.bind, read, modify, hok] using hends

end StateCursor

end Alcove.Lib
