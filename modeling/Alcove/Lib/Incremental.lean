import Mathlib.Data.List.Infix

/-!
# Incremental parsers

A parser of a buffer that may hold only the beginning of the input: it asks for more, rejects, or
has read a value and leaves the rest of the buffer (`Outcome`). It is incremental (`Incremental`)
when more input never changes a value or a rejection, and a value does not need the bytes that are
left; sequential composition keeps this. Such a parser asks for more on every strict prefix of what
it reads (`Incremental.more_of_prefix`), whatever follows (`Incremental.done_append`).
-/

namespace Alcove.Lib

universe u

variable {β : Type*}

/-- What a parser makes of a buffer. -/
inductive Outcome (β α : Type*)
  | more
  | reject
  | done (a : α) (rest : List β)
  deriving DecidableEq

/-- A parser of buffers. -/
def Parser (β α : Type*) : Type _ := List β → Outcome β α

namespace Parser

variable {α γ : Type u}

/-- Read nothing. -/
def pure (a : α) : Parser β α := fun buf => .done a buf

/-- Read with `p`, then go on with what it read. -/
def bind (p : Parser β α) (f : α → Parser β γ) : Parser β γ := fun buf =>
  match p buf with
  | .more => .more
  | .reject => .reject
  | .done a rest => f a rest

instance : Monad (Parser β) where
  pure := pure
  bind := bind

/-- Reject unless `b`. -/
def check (b : Bool) : Parser β Unit := fun buf => if b then .done () buf else .reject

/-- Read one element, which has to be `b`. -/
def token [DecidableEq β] (b : β) : Parser β Unit
  | [] => .more
  | c :: buf => if c = b then .done () buf else .reject

/-- Read `n` elements. -/
def take (n : ℕ) : Parser β (List β) := fun buf =>
  if buf.length < n then .more else .done (buf.take n) (buf.drop n)

/-- Read up to the first `b`, and pass over it. -/
def line [DecidableEq β] (b : β) : Parser β (List β)
  | [] => .more
  | c :: buf =>
    if c = b then .done [] buf
    else match line b buf with
      | .more => .more
      | .reject => .reject
      | .done a rest => .done (c :: a) rest

theorem bind_apply (p : Parser β α) (f : α → Parser β γ) (buf : List β) :
    (p >>= f) buf = match p buf with
      | .more => .more
      | .reject => .reject
      | .done a rest => f a rest := rfl

end Parser

/-- More input does not change what the parser has read or rejected, and it leaves the rest of the
buffer as it is. -/
structure Incremental {α : Type*} (p : Parser β α) : Prop where
  done : ∀ {buf a rest}, p buf = .done a rest → ∀ ext, p (buf ++ ext) = .done a (rest ++ ext)
  reject : ∀ {buf}, p buf = .reject → ∀ ext, p (buf ++ ext) = .reject
  suffix : ∀ {buf a rest}, p buf = .done a rest → rest <:+ buf
  exact : ∀ {used a rest}, p (used ++ rest) = .done a rest → p used = .done a []

namespace Incremental

variable {α γ : Type u} {p : Parser β α}

theorem check (b : Bool) : Incremental (Parser.check b : Parser β Unit) := by
  cases b with
  | true =>
    refine ⟨fun h ext => ?_, fun h => ?_, fun h => ?_, fun {used a rest} h => ?_⟩
    · cases h
      rfl
    · cases h
    · cases h
      exact List.suffix_rfl
    · have hrest : used ++ rest = rest := (Outcome.done.inj h).2
      rw [List.append_left_eq_self.mp hrest]
      rfl
  | false =>
    refine ⟨fun h => ?_, fun h ext => rfl, fun h => ?_, fun h => ?_⟩ <;> cases h

theorem pure (a : α) : Incremental (Pure.pure a : Parser β α) := by
  refine ⟨fun h ext => ?_, fun h => ?_, fun h => ?_, fun {used b rest} h => ?_⟩
  · cases h
    rfl
  · cases h
  · cases h
    exact List.suffix_rfl
  · obtain ⟨rfl, hrest⟩ : a = b ∧ used ++ rest = rest := Outcome.done.inj h
    rw [List.append_left_eq_self.mp hrest]
    rfl

theorem token [DecidableEq β] (b : β) : Incremental (Parser.token b) := by
  refine ⟨fun {buf a rest} h ext => ?_, fun {buf} h ext => ?_, fun {buf a rest} h => ?_,
    fun {used a rest} h => ?_⟩
  · cases buf with
    | nil => cases h
    | cons c buf =>
      simp only [Parser.token] at h
      simp only [List.cons_append, Parser.token]
      split at h
      next hc =>
        cases h
        rw [if_pos hc]
      next => cases h
  · cases buf with
    | nil => cases h
    | cons c buf =>
      simp only [Parser.token] at h
      simp only [List.cons_append, Parser.token]
      split at h
      next => cases h
      next hc => rw [if_neg hc]
  · cases buf with
    | nil => cases h
    | cons c buf =>
      simp only [Parser.token] at h
      split at h
      next =>
        cases h
        exact List.suffix_cons c rest
      next => cases h
  · cases used with
    | nil =>
      cases rest with
      | nil => cases h
      | cons c rest =>
        simp only [List.nil_append, Parser.token] at h
        split at h
        next => exact absurd (Outcome.done.inj h).2.symm (List.cons_ne_self c rest)
        next => cases h
    | cons c used =>
      simp only [List.cons_append, Parser.token] at h ⊢
      split at h
      next hc =>
        have hnil : used = [] := List.append_left_eq_self.mp (Outcome.done.inj h).2
        rw [if_pos hc, hnil]
      next => cases h

theorem take (n : ℕ) : Incremental (Parser.take n : Parser β (List β)) := by
  refine ⟨fun {buf a rest} h ext => ?_, fun {buf} h ext => ?_, fun {buf a rest} h => ?_,
    fun {used a rest} h => ?_⟩
  · unfold Parser.take at h ⊢
    split at h
    next => cases h
    next hlen =>
      obtain ⟨rfl, rfl⟩ := Outcome.done.inj h
      rw [if_neg (by rw [List.length_append]; omega), List.take_append_of_le_length (by omega),
        List.drop_append_of_le_length (by omega)]
  · unfold Parser.take at h
    split at h <;> cases h
  · unfold Parser.take at h
    split at h
    next => cases h
    next =>
      obtain ⟨-, rfl⟩ := Outcome.done.inj h
      exact List.drop_suffix n buf
  · unfold Parser.take at h ⊢
    split at h
    next => cases h
    next hlen =>
      obtain ⟨rfl, hrest⟩ := Outcome.done.inj h
      -- exactly `n` elements were read
      have hused : used.length = n := by
        have hl := congrArg List.length hrest
        rw [List.length_drop, List.length_append] at hl
        rw [List.length_append] at hlen
        omega
      rw [if_neg (by omega), List.take_append_of_le_length (by omega), ← hused, List.drop_length]

/-- Reading a line, given the line. -/
theorem line_append [DecidableEq β] {b : β} {l : List β} (hl : b ∉ l) (rest : List β) :
    Parser.line b (l ++ b :: rest) = .done l rest := by
  induction l with
  | nil => simp [Parser.line]
  | cons c l ih =>
    have hc : c ≠ b := fun heq => hl (heq ▸ List.mem_cons_self)
    have htail := ih fun hmem => hl (List.mem_cons_of_mem c hmem)
    simp only [List.cons_append, Parser.line, if_neg hc, htail]

theorem line_cases [DecidableEq β] (b : β) (buf : List β) :
    Parser.line b buf = .more ∨
      ∃ l rest, b ∉ l ∧ buf = l ++ b :: rest ∧ Parser.line b buf = .done l rest := by
  by_cases hmem : b ∈ buf
  · obtain ⟨l, rest, rfl, hl⟩ := List.eq_append_cons_of_mem hmem
    exact .inr ⟨l, rest, hl, rfl, line_append hl rest⟩
  · refine .inl ?_
    induction buf with
    | nil => rfl
    | cons c buf ih =>
      have hc : c ≠ b := fun heq => hmem (heq ▸ List.mem_cons_self)
      have htail := ih fun hm => hmem (List.mem_cons_of_mem c hm)
      simp only [Parser.line, if_neg hc, htail]

theorem line [DecidableEq β] (b : β) : Incremental (Parser.line b) := by
  refine ⟨fun {buf a rest} h ext => ?_, fun {buf} h ext => ?_, fun {buf a rest} h => ?_,
    fun {used a rest} h => ?_⟩
  · rcases line_cases b buf with hmore | ⟨l, rest', hl, rfl, hdone⟩
    · rw [hmore] at h
      cases h
    · rw [hdone] at h
      obtain ⟨rfl, rfl⟩ := Outcome.done.inj h
      rw [List.append_assoc, List.cons_append]
      exact line_append hl _
  · rcases line_cases b buf with hmore | ⟨l, rest', -, -, hdone⟩
    · rw [hmore] at h
      cases h
    · rw [hdone] at h
      cases h
  · rcases line_cases b buf with hmore | ⟨l, rest', -, rfl, hdone⟩
    · rw [hmore] at h
      cases h
    · rw [hdone] at h
      obtain ⟨-, rfl⟩ := Outcome.done.inj h
      exact (List.suffix_cons b rest').trans (List.suffix_append l _)
  · rcases line_cases b (used ++ rest) with hmore | ⟨l, rest', hl, hbuf, hdone⟩
    · rw [hmore] at h
      cases h
    · rw [hdone] at h
      obtain ⟨rfl, rfl⟩ := Outcome.done.inj h
      have hused : used = l ++ [b] := by
        refine List.append_cancel_right (?_ : _ ++ rest' = _)
        rw [hbuf]
        simp
      rw [hused]
      exact line_append hl []

/-- **The rule for sequential composition.** -/
theorem bind {f : α → Parser β γ} (hp : Incremental p) (hf : ∀ a, Incremental (f a)) :
    Incremental (p >>= f) := by
  refine ⟨fun {buf a rest} h ext => ?_, fun {buf} h ext => ?_, fun {buf a rest} h => ?_,
    fun {used a rest} h => ?_⟩
  · rw [Parser.bind_apply] at h ⊢
    cases hbuf : p buf with
    | more => simp [hbuf] at h
    | reject => simp [hbuf] at h
    | done b rest' =>
      simp only [hbuf] at h
      simp only [hp.done hbuf ext]
      exact (hf b).done h ext
  · rw [Parser.bind_apply] at h ⊢
    cases hbuf : p buf with
    | more => simp [hbuf] at h
    | reject => simp [hp.reject hbuf ext]
    | done b rest' =>
      simp only [hbuf] at h
      simp only [hp.done hbuf ext]
      exact (hf b).reject h ext
  · rw [Parser.bind_apply] at h
    cases hbuf : p buf with
    | more => simp [hbuf] at h
    | reject => simp [hbuf] at h
    | done b rest' =>
      simp only [hbuf] at h
      exact ((hf b).suffix h).trans (hp.suffix hbuf)
  · rw [Parser.bind_apply] at h ⊢
    cases hbuf : p (used ++ rest) with
    | more => simp [hbuf] at h
    | reject => simp [hbuf] at h
    | done b rest' =>
      simp only [hbuf] at h
      -- the first parser reads `pre`, the second one the rest of `used`
      obtain ⟨used', rfl⟩ := (hf b).suffix h
      obtain ⟨pre, hpre⟩ := hp.suffix hbuf
      rw [← List.append_assoc] at hpre
      obtain rfl := List.append_cancel_right hpre
      rw [List.append_assoc] at hbuf
      have hfirst := hp.done (hp.exact hbuf) used'
      rw [List.nil_append] at hfirst
      simp only [hfirst]
      exact (hf b).exact h

/-- **What the parser reads does not depend on what follows.** -/
theorem done_append (hp : Incremental p) {used rest : List β} {a : α}
    (h : p (used ++ rest) = .done a rest) (ext : List β) : p (used ++ ext) = .done a ext := by
  have hused := hp.done (hp.exact h) ext
  rwa [List.nil_append] at hused

/-- **A strict prefix of what the parser reads is not enough.** -/
theorem more_of_prefix (hp : Incremental p) {pre ext rest : List β} {a : α}
    (h : p (pre ++ ext ++ rest) = .done a rest) (hne : ext ≠ []) : p pre = .more := by
  have hused := hp.exact h
  cases hbuf : p pre with
  | more => rfl
  | reject =>
    rw [hp.reject hbuf ext] at hused
    cases hused
  | done b rest' =>
    rw [hp.done hbuf ext] at hused
    have hnil := (Outcome.done.inj hused).2
    exact absurd (List.append_eq_nil_iff.mp hnil).2 hne

end Incremental

/-- What the parser reads is not empty. -/
structure Consumes {α : Type*} (p : Parser β α) : Prop where
  lt : ∀ {buf a rest}, p buf = .done a rest → rest.length < buf.length

namespace Consumes

variable {α γ : Type u} {p : Parser β α}

theorem token [DecidableEq β] (b : β) : Consumes (Parser.token b) := by
  refine ⟨fun {buf a rest} h => ?_⟩
  cases buf with
  | nil => cases h
  | cons c buf =>
    simp only [Parser.token] at h
    split at h
    · cases h
      exact Nat.lt_succ_self _
    · cases h

theorem line [DecidableEq β] (b : β) : Consumes (Parser.line b) := by
  refine ⟨fun {buf a rest} h => ?_⟩
  rcases Incremental.line_cases b buf with hmore | ⟨l, rest', -, rfl, hdone⟩
  · rw [hmore] at h
    cases h
  · rw [hdone] at h
    obtain ⟨-, rfl⟩ := Outcome.done.inj h
    rw [List.length_append, List.length_cons]
    omega

theorem bind {f : α → Parser β γ} (hp : Consumes p) (hf : ∀ a, Incremental (f a)) :
    Consumes (p >>= f) := by
  refine ⟨fun {buf a rest} h => ?_⟩
  rw [Parser.bind_apply] at h
  cases hbuf : p buf with
  | more => simp [hbuf] at h
  | reject => simp [hbuf] at h
  | done b rest' =>
    simp only [hbuf] at h
    have hlen := ((hf b).suffix h).length_le
    have := hp.lt hbuf
    omega

end Consumes

end Alcove.Lib
