import Alcove.Control.Compile

/-!
# What the compiled forms do

`compiled` is what the code of a form comes to: branches test a value for truth and `OP_POP` drops one,
whatever it is. `Runs` says that code, wherever it stands in a program, leaves one value on the stack
below which it started, or leaves the body.

**Main result:** `runs_compile`. With distances encoded as they are, the code of a form runs as
`compiled` says.
-/

namespace Alcove.Control

variable {V σ : Type} {ops : Values V}

/-! ## The meaning of compiled code -/

/-- What code does with the value that other code left, unless that left the body. -/
def Out.andThen (r : Out V × World σ) (k : V → World σ → Out V × World σ) : Out V × World σ :=
  match r with
  | (.val v, w) => k v w
  | stop => stop

section Compiled

variable (L : Leaves ops σ)

mutual

/-- What the code of a form comes to. -/
def compiled (tail : Bool) : Form V → World σ → Out V × World σ
  | .leaf k, w =>
    if tail && L.isCall k then (.call k, w)
    else match L.run k w with
      | (.ok v, w) => (.val v, w)
      | (.error e, w) => (.raised e, w)
  | .missing, w => (.val ops.null, w)
  | .ifForm test thn rest, w => Out.andThen (compiled false test w) fun v w =>
    if ops.istrue v then compiled tail thn w else compiledElse tail rest w
  | .whenForm negate test body, w => Out.andThen (compiled false test w) fun v w =>
    if ops.istrue v != negate then compiledSeq tail body w else (.val ops.nil, w)
  | .andForm args, w => compiledAndOr false tail args w
  | .orForm args, w => compiledAndOr true tail args w
  | .condForm clauses, w => compiledCond tail clauses w
  | .caseForm key clauses, w => Out.andThen (compiled false key w) fun v w =>
    compiledCase tail v clauses w
  | .doForm body, w => compiledSeq tail body w

/-- The else branch of `if`; there is no code for more pairs. -/
def compiledElse (tail : Bool) : Conds V → World σ → Out V × World σ
  | .none, w => (.val ops.nil, w)
  | .default f, w => compiled tail f w
  | .clause test f rest, w => Out.andThen (compiled false test w) fun v w =>
    if ops.istrue v then compiled tail f w else compiledElse tail rest w

def compiledSeq (tail : Bool) : Forms V → World σ → Out V × World σ
  | .nil, w => (.val ops.nil, w)
  | .cons f .nil, w => compiled tail f w
  | .cons f rest, w => Out.andThen (compiled false f w) fun _ w => compiledSeq tail rest w

def compiledAndOr (isOr tail : Bool) : Forms V → World σ → Out V × World σ
  | .nil, w => (.val (if isOr then ops.nil else ops.t), w)
  | .cons f .nil, w => compiled tail f w
  | .cons f rest, w => Out.andThen (compiled false f w) fun v w =>
    if ops.istrue v = isOr then (.val v, w) else compiledAndOr isOr tail rest w

def compiledCond (tail : Bool) : Conds V → World σ → Out V × World σ
  | .none, w => (.val ops.nil, w)
  | .default f, w => compiled tail f w
  | .clause test f rest, w => Out.andThen (compiled false test w) fun v w =>
    if ops.istrue v then compiled tail f w else compiledCond tail rest w

def compiledCase (tail : Bool) (key : V) : Cases V → World σ → Out V × World σ
  | .none, w => (.val ops.nil, w)
  | .default f, w => compiled tail f w
  | .clause literal f rest, w =>
    if ops.isequal key literal then compiled tail f w else compiledCase tail key rest w

end

end Compiled

/-! ## Runs of code in a program -/

variable {L : Leaves ops σ}

/-- Where code of a form leaves the VM, with the program counter behind the code. -/
def Config.after (pc : ℕ) (stack : List V) : Out V × World σ → Config V σ
  | (.val v, w) => .at' pc (v :: stack) w
  | (.raised e, w) => .raised e w
  | (.call k, w) => .tailCall k w

/-- The code, in any program and from a stack `start`, leaves its value on `stack`. -/
def Runs (L : Leaves ops σ) (code : Code V) (start stack : List V) (w : World σ)
    (r : Out V × World σ) : Prop :=
  ∀ pre post : Code V, Reaches L (pre ++ (code ++ post)) (.at' (codeSize L pre) start w)
    (.after (codeSize L pre + codeSize L code) stack r)

variable {a b code : Code V} {start start' stack : List V} {w w' : World σ} {v : V}
  {r : Out V × World σ}

theorem Runs.nil (v : V) (stack : List V) (w : World σ) :
    Runs L [] (v :: stack) stack w (.val v, w) := fun _ _ => .refl _

/-- Code behind code that leaves a value. -/
theorem Runs.append (ha : Runs L a start stack w (.val v, w')) (hb : Runs L b (v :: stack) stack w' r) :
    Runs L (a ++ b) start stack w r := by
  intro pre post
  have h₁ := ha pre (b ++ post)
  have h₂ := hb (pre ++ a) post
  rw [codeSize_append, List.append_assoc] at h₂
  rw [codeSize_append, ← Nat.add_assoc, List.append_assoc]
  exact h₁.trans h₂

/-- Code behind code that leaves the body. -/
theorem Runs.stop (ha : Runs L a start stack w r) (hr : ∀ v, r.1 ≠ .val v) :
    Runs L (a ++ b) start stack w r := by
  intro pre post
  have h₁ := ha pre (b ++ post)
  rw [List.append_assoc]
  obtain ⟨o, w'⟩ := r
  cases o with
  | val v => exact absurd rfl (hr v)
  | raised e => exact h₁
  | call k => exact h₁

/-- An instruction that skips some code. -/
theorem Runs.cons {i : Instr V} (skip : Code V)
    (hi : ∀ pc : ℕ, execInstr L pc i start w = .at' (pc + codeSize L skip) start' w')
    (hb : Runs L b start' stack w' r) : Runs L (i :: (skip ++ b)) start stack w r := by
  intro pre post
  have h₁ : Reaches L (pre ++ (i :: (skip ++ b) ++ post)) (.at' (codeSize L pre) start w)
      (execInstr L (codeSize L (pre ++ [i])) i start w) := Reaches.instr rfl
  rw [hi] at h₁
  have h₂ := hb (pre ++ i :: skip) post
  rw [List.append_assoc, List.cons_append, ← List.append_assoc skip b post] at h₂
  simp only [codeSize_append, codeSize, Nat.add_zero, ← Nat.add_assoc] at h₁ h₂ ⊢
  exact h₁.trans h₂

theorem Runs.next {i : Instr V} (hi : ∀ pc : ℕ, execInstr L pc i start w = .at' pc start' w')
    (hb : Runs L b start' stack w' r) : Runs L (i :: b) start stack w r :=
  Runs.cons [] hi hb

theorem goto_nat (pc n : ℕ) (start : List V) (w : World σ) :
    goto pc (n : ℤ) start w = .at' (pc + n) start w := by
  rw [goto, if_pos (by omega)]
  rfl

/-- A branch that is not taken -/
theorem Runs.brIfFalse_next (d : ℤ) (hv : ops.istrue v = true) (hb : Runs L b start stack w r) :
    Runs L (.brIfFalse d :: b) (v :: start) stack w r :=
  Runs.next (fun _ => if_pos hv) hb

theorem Runs.brIfFalse_skip (skip : Code V) (hv : ops.istrue v = false)
    (hb : Runs L b start stack w r) :
    Runs L (.brIfFalse (codeSize L skip : ℕ) :: (skip ++ b)) (v :: start) stack w r :=
  Runs.cons skip (fun pc => (if_neg (ne_true_of_eq_false hv)).trans (goto_nat pc _ start w)) hb

theorem Runs.brIfTrue_next (d : ℤ) (hv : ops.istrue v = false) (hb : Runs L b start stack w r) :
    Runs L (.brIfTrue d :: b) (v :: start) stack w r :=
  Runs.next (fun _ => if_neg (ne_true_of_eq_false hv)) hb

theorem Runs.brIfTrue_skip (skip : Code V) (hv : ops.istrue v = true)
    (hb : Runs L b start stack w r) :
    Runs L (.brIfTrue (codeSize L skip : ℕ) :: (skip ++ b)) (v :: start) stack w r :=
  Runs.cons skip (fun pc => (if_pos hv).trans (goto_nat pc _ start w)) hb

/-- The jump over the other branch, to the end. -/
theorem Runs.jump (skip : Code V) (v : V) (stack : List V) (w : World σ) :
    Runs L (.jump (codeSize L skip : ℕ) :: skip) (v :: stack) stack w (.val v, w) := by
  have hi : ∀ pc : ℕ, execInstr L pc (.jump (codeSize L skip : ℕ)) (v :: stack) w =
      .at' (pc + codeSize L skip) (v :: stack) w := fun pc => goto_nat pc _ (v :: stack) w
  have h := Runs.cons skip hi (Runs.nil v stack w)
  rwa [List.append_nil] at h

/-- A branch of a form, and the jump to the end behind it. -/
theorem Runs.thenJump (ha : Runs L a stack stack w r) (skip : Code V) :
    Runs L (a ++ .jump (codeSize L skip : ℕ) :: skip) stack stack w r := by
  obtain ⟨o, w'⟩ := r
  cases o with
  | val v => exact ha.append (Runs.jump skip v stack w')
  | raised e => exact ha.stop fun v h => by cases h
  | call k => exact ha.stop fun v h => by cases h

/-- Two branches behind a test: the code of `if`, `when`, `unless` and of a clause of `cond`. -/
theorem Runs.branch {x y : Code V} {z : Out V × World σ} (v : V)
    (hx : ops.istrue v = true → Runs L x stack stack w z)
    (hy : ops.istrue v = false → Runs L y stack stack w z) :
    Runs L (.brIfFalse (codeSize L x + 3 : ℕ) :: (x ++ .jump (codeSize L y : ℕ) :: y)) (v :: stack) stack
      w z := by
  cases hv : ops.istrue v with
  | true => exact Runs.brIfFalse_next _ hv ((hx hv).thenJump y)
  | false =>
    have h := Runs.brIfFalse_skip (x ++ [.jump (codeSize L y : ℕ)]) hv (hy hv)
    rw [codeSize_append, List.append_assoc] at h
    exact h

/-- Code behind code that leaves a value or the body. -/
theorem Runs.andThen {k : V → World σ → Out V × World σ} (ha : Runs L a stack stack w r)
    (hb : ∀ v w', r = (.val v, w') → Runs L b (v :: stack) stack w' (k v w')) :
    Runs L (a ++ b) stack stack w (Out.andThen r k) := by
  obtain ⟨o, w'⟩ := r
  cases o with
  | val v => exact ha.append (hb v w' rfl)
  | raised e => exact ha.stop fun v h => by cases h
  | call k => exact ha.stop fun v h => by cases h

/-- The copy of the value decides, and the value itself is the result behind the rest of the code. -/
theorem Runs.dupBranch {isOr : Bool} (rest : Code V) (v : V) {d : ℕ} {z : Out V × World σ}
    (hd : d = codeSize L rest) (hrest : ¬ ops.istrue v = isOr → Runs L rest (v :: stack) stack w z) :
    Runs L (.dup :: (if isOr then .brIfTrue (d : ℤ) else .brIfFalse (d : ℤ)) :: rest) (v :: stack)
      stack w (if ops.istrue v = isOr then (.val v, w) else z) := by
  subst hd
  suffices h : Runs L ((if isOr then .brIfTrue (codeSize L rest : ℕ) else
      .brIfFalse (codeSize L rest : ℕ)) :: rest) (v :: v :: stack) stack w
        (if ops.istrue v = isOr then (.val v, w) else z) from Runs.next (fun _ => rfl) h
  have hnil : Runs L [] (v :: stack) stack w (.val v, w) := Runs.nil v stack w
  cases isOr with
  | false =>
    cases hv : ops.istrue v with
    | true => exact Runs.brIfFalse_next _ hv (hrest (by rw [hv]; exact Bool.false_ne_true.symm))
    | false =>
      have h := Runs.brIfFalse_skip rest hv hnil
      rwa [List.append_nil] at h
  | true =>
    cases hv : ops.istrue v with
    | true =>
      have h := Runs.brIfTrue_skip rest hv hnil
      rwa [List.append_nil] at h
    | false => exact Runs.brIfTrue_next _ hv (hrest (by rw [hv]; exact Bool.false_ne_true))

theorem Runs.loadConst (v : V) (stack : List V) (w : World σ) :
    Runs L [.loadConst v] stack stack w (.val v, w) :=
  Runs.next (fun _ => rfl) (Runs.nil v stack w)

/-! ## The code of a form -/

/-- A distance as it is -/
abbrev wide : ℕ → ℤ := fun d => (d : ℤ)

mutual

theorem runs_compile : ∀ (f : Form V) (tail : Bool) (code : Code V) (stack : List V) (w : World σ),
    compile L wide tail f = some code → Runs L code stack stack w (compiled L tail f w)
  | .leaf k, tail, code, stack, w, h => by
    rw [compile] at h
    cases h
    rw [compiled]
    split
    · intro pre post
      exact Reaches.instr rfl
    · cases hk : L.run k w with
      | mk res w' =>
        cases res with
        | ok v =>
          refine Runs.next (fun pc => ?_) (Runs.nil v stack w')
          rw [execInstr, hk]
        | error e =>
          intro pre post
          have hi : ∀ pc : ℕ, execInstr L pc (.leaf k) stack w = .raised e w' := fun pc => by
            rw [execInstr, hk]
          have hr : Reaches L (pre ++ (.leaf k :: [] ++ post)) (.at' (codeSize L pre) stack w)
            (execInstr L (codeSize L (pre ++ [.leaf k])) (.leaf k) stack w) := Reaches.instr rfl
          rw [hi] at hr
          exact hr
  | .missing, tail, code, stack, w, h => by
    rw [compile] at h
    cases h
    rw [compiled]
    exact Runs.loadConst _ _ _
  | .ifForm test thn rest, tail, code, stack, w, h => by
    simp only [compile, Option.bind_eq_bind, Option.bind_eq_some_iff, Option.some.injEq] at h
    obtain ⟨c, hc, t, ht, e, he, rfl⟩ := h
    rw [compiled]
    simp only [List.append_assoc, List.singleton_append]
    refine (runs_compile test false c stack w hc).andThen fun v w' _ => ?_
    refine Runs.branch v (fun hv => ?_) (fun hv => ?_)
    · rw [hv, if_pos rfl]
      exact runs_compile thn tail t stack w' ht
    · rw [hv, if_neg Bool.false_ne_true]
      exact runs_else rest tail e stack w' he
  | .whenForm negate test body, tail, code, stack, w, h => by
    simp only [compile, Option.bind_eq_bind, Option.ite_none_left_eq_some, Option.bind_eq_some_iff,
      Option.some.injEq] at h
    obtain ⟨-, c, hc, b, hb, rfl⟩ := h
    rw [compiled]
    simp only [List.append_assoc, List.singleton_append]
    refine (runs_compile test false c stack w hc).andThen fun v w' _ => ?_
    have hbody := runs_seq body tail b stack w' hb
    have hnil : Runs L [.loadConst ops.nil] stack stack w' (.val ops.nil, w') := Runs.loadConst _ _ _
    refine Runs.branch v (fun hv => ?_) (fun hv => ?_)
    · cases negate with
      | true => rw [hv]; exact hnil
      | false => rw [hv]; exact hbody
    · cases negate with
      | true => rw [hv]; exact hbody
      | false => rw [hv]; exact hnil
  | .andForm args, tail, code, stack, w, h => by
    rw [compile] at h
    rw [compiled]
    split at h
    · cases h
    · exact runs_andOr args false tail code stack w h
  | .orForm args, tail, code, stack, w, h => by
    rw [compile] at h
    rw [compiled]
    split at h
    · cases h
    · exact runs_andOr args true tail code stack w h
  | .condForm clauses, tail, code, stack, w, h => by
    rw [compile] at h
    rw [compiled]
    split at h
    · cases h
    · exact runs_cond clauses tail code stack w h
  | .caseForm key clauses, tail, code, stack, w, h => by
    rw [compile] at h
    rw [compiled]
    split at h
    · cases h
    · simp only [Option.bind_eq_bind, Option.bind_eq_some_iff, Option.some.injEq] at h
      obtain ⟨k, hk, b, hb, rfl⟩ := h
      exact (runs_compile key false k stack w hk).andThen fun v w' _ =>
        runs_case clauses tail b v stack w' hb
  | .doForm body, tail, code, stack, w, h => by
    rw [compile] at h
    rw [compiled]
    exact runs_seq body tail code stack w h

theorem runs_else : ∀ (r : Conds V) (tail : Bool) (code : Code V) (stack : List V) (w : World σ),
    compileElse L wide tail r = some code → Runs L code stack stack w (compiledElse L tail r w)
  | .none, tail, code, stack, w, h => by
    rw [compileElse] at h
    cases h
    rw [compiledElse]
    exact Runs.loadConst _ _ _
  | .default f, tail, code, stack, w, h => by
    rw [compileElse] at h
    rw [compiledElse]
    exact runs_compile f tail code stack w h
  | .clause _ _ _, tail, code, stack, w, h => by
    rw [compileElse] at h
    cases h

theorem runs_seq : ∀ (fs : Forms V) (tail : Bool) (code : Code V) (stack : List V) (w : World σ),
    compileSeq L wide tail fs = some code → Runs L code stack stack w (compiledSeq L tail fs w)
  | .nil, tail, code, stack, w, h => by
    rw [compileSeq] at h
    cases h
    rw [compiledSeq]
    exact Runs.loadConst _ _ _
  | .cons f .nil, tail, code, stack, w, h => by
    rw [compileSeq] at h
    rw [compiledSeq]
    exact runs_compile f tail code stack w h
  | .cons f (.cons g rest), tail, code, stack, w, h => by
    simp only [compileSeq, Option.bind_eq_bind, Option.bind_eq_some_iff, Option.some.injEq] at h
    obtain ⟨c, hc, r, hr, rfl⟩ := h
    rw [compiledSeq, List.append_assoc]
    · refine (runs_compile f false c stack w hc).andThen fun v w' _ => ?_
      exact Runs.next (fun _ => rfl) (runs_seq (.cons g rest) tail r stack w' hr)
    · exact fun h => by cases h

theorem runs_andOr : ∀ (fs : Forms V) (isOr tail : Bool) (code : Code V) (stack : List V)
    (w : World σ), compileAndOr L wide isOr tail fs = some code →
      Runs L code stack stack w (compiledAndOr L isOr tail fs w)
  | .nil, isOr, tail, code, stack, w, h => by
    rw [compileAndOr] at h
    cases h
    rw [compiledAndOr]
    exact Runs.loadConst _ _ _
  | .cons f .nil, isOr, tail, code, stack, w, h => by
    rw [compileAndOr] at h
    rw [compiledAndOr]
    exact runs_compile f tail code stack w h
  | .cons f (.cons g rest), isOr, tail, code, stack, w, h => by
    simp only [compileAndOr, Option.bind_eq_bind, Option.bind_eq_some_iff, Option.some.injEq] at h
    obtain ⟨c, hc, r, hr, rfl⟩ := h
    rw [compiledAndOr, List.append_assoc]
    · refine (runs_compile f false c stack w hc).andThen fun v w' _ => ?_
      -- one copy of the value goes with the branch, the other stays or is popped
      have hrest : Runs L (.pop :: r) (v :: stack) stack w'
          (compiledAndOr L isOr tail (.cons g rest) w') :=
        Runs.next (fun _ => rfl) (runs_andOr (.cons g rest) isOr tail r stack w' hr)
      exact Runs.dupBranch (.pop :: r) v (by rw [codeSize, Instr.size, Nat.add_comm]) fun _ => hrest
    · exact fun h => by cases h

theorem runs_cond : ∀ (cs : Conds V) (tail : Bool) (code : Code V) (stack : List V) (w : World σ),
    compileCond L wide tail cs = some code → Runs L code stack stack w (compiledCond L tail cs w)
  | .none, tail, code, stack, w, h => by
    rw [compileCond] at h
    cases h
    rw [compiledCond]
    exact Runs.loadConst _ _ _
  | .default f, tail, code, stack, w, h => by
    rw [compileCond] at h
    rw [compiledCond]
    exact runs_compile f tail code stack w h
  | .clause test f rest, tail, code, stack, w, h => by
    simp only [compileCond, Option.bind_eq_bind, Option.bind_eq_some_iff, Option.some.injEq] at h
    obtain ⟨c, hc, e, he, r, hr, rfl⟩ := h
    rw [compiledCond]
    simp only [List.append_assoc, List.singleton_append]
    refine (runs_compile test false c stack w hc).andThen fun v w' _ => ?_
    refine Runs.branch v (fun hv => ?_) (fun hv => ?_)
    · rw [hv, if_pos rfl]
      exact runs_compile f tail e stack w' he
    · rw [hv, if_neg Bool.false_ne_true]
      exact runs_cond rest tail r stack w' hr

theorem runs_case : ∀ (cs : Cases V) (tail : Bool) (code : Code V) (key : V) (stack : List V)
    (w : World σ), compileCase L wide tail cs = some code →
      Runs L code (key :: stack) stack w (compiledCase L tail key cs w)
  | .none, tail, code, key, stack, w, h => by
    rw [compileCase] at h
    cases h
    rw [compiledCase]
    exact Runs.next (fun _ => rfl) (Runs.loadConst _ _ _)
  | .default f, tail, code, key, stack, w, h => by
    simp only [compileCase, Option.bind_eq_bind, Option.bind_eq_some_iff, Option.some.injEq] at h
    obtain ⟨e, he, rfl⟩ := h
    rw [compiledCase]
    exact Runs.next (fun _ => rfl) (runs_compile f tail e stack w he)
  | .clause literal f rest, tail, code, key, stack, w, h => by
    simp only [compileCase, Option.bind_eq_bind, Option.bind_eq_some_iff, Option.some.injEq] at h
    obtain ⟨e, he, r, hr, rfl⟩ := h
    rw [compiledCase]
    simp only [List.append_assoc, List.cons_append, List.nil_append]
    refine Runs.next (fun _ => rfl) (Runs.next (fun _ => rfl) (Runs.next (fun _ => rfl) ?_))
    cases hv : ops.isequal key literal with
    | true =>
      simp only [if_true]
      refine Runs.brIfFalse_next _ ops.istrue_t (Runs.next (fun _ => rfl) ?_)
      exact (runs_compile f tail e stack w he).thenJump r
    | false =>
      simp only [Bool.false_eq_true, if_false]
      have h := Runs.brIfFalse_skip (.pop :: (e ++ [.jump (codeSize L r : ℕ)])) ops.istrue_nil
        (runs_case rest tail r key stack w hr)
      rw [codeSize, codeSize_append, List.cons_append, List.append_assoc] at h
      have hd : Instr.size L (.pop : Instr V) +
          (codeSize L e + codeSize L [.jump (codeSize L r : ℕ)]) = codeSize L e + 4 := by
        simp only [Instr.size, codeSize]
        omega
      rw [hd] at h
      exact h

end

end Alcove.Control
