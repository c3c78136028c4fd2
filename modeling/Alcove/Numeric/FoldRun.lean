import Alcove.Numeric.Opcodes

/-!
# A fold as a run

From the second operand on, a fold of `MATH_CMD` is in one of five states (`Total`): its total is an
`int64`, a `double`, an exact number in `tower_fold`, a `double` in `tower_fold`, or a decimal. Each
operand is a step (`Total.step`), and `mathCmd` is a run of such steps (`mathCmd_eq`). Compiled code is
a run of `Opcode.binary` on values (`exec_foldCode`).
-/

namespace Alcove.Numeric

open Lib Double

/-- The total of a fold and the loop that it is in. -/
inductive Total (D : Type)
  | int (sum : ℤ)
  | float (f : D)
  | tower (e : Exact)
  | towerFloat (f : D)
  | dec (coef scale : ℤ)

namespace Outcome

variable {α β γ : Type}

@[simp]
theorem some_ok_andThen (a : α) (f : α → Outcome β) : andThen (some (.ok a)) f = f a := rfl

@[simp]
theorem some_error_andThen (e : ArithError) (f : α → Outcome β) :
    andThen (some (.error e)) f = some (.error e) := rfl

@[simp]
theorem none_andThen (f : α → Outcome β) : andThen none f = none := rfl

theorem andThen_assoc (r : Outcome α) (f : α → Outcome β) (g : β → Outcome γ) :
    (r.andThen f).andThen g = r.andThen fun a => (f a).andThen g := by
  rcases r with _ | _ | _ <;> rfl

theorem andThen_ok (r : Outcome α) : (r.andThen fun a => some (.ok a)) = r := by
  rcases r with _ | _ | _ <;> rfl

@[simp]
theorem classed_none : Outcome.classed (none : Outcome α) = none := rfl

@[simp]
theorem classed_error (e : ArithError) :
    Outcome.classed (some (.error e) : Outcome α) = some (.error e.errorClass) := rfl

@[simp]
theorem classed_ok (a : α) : Outcome.classed (some (.ok a) : Outcome α) = some (.ok a) := rfl

theorem ofFold_eq_none {r : Option (Except FoldError α)} : ofFold r = none ↔ r = none := by
  simp [ofFold]

end Outcome

namespace Total

variable {D : Type} [Double D]

/-- The total as a value. -/
def value : Total D → Value D
  | .int n => .fix n
  | .float f => .float f
  | .tower e => .num (.exact e)
  | .towerFloat f => .float f
  | .dec c s => .dec c s

/-- The first operand. -/
def first : Value D → Except ArithError (Total D)
  | .num (.exact (.fix n)) => .ok (.int n)
  | .num (.exact (.rat num den)) => .ok (.tower (.rat num den))
  | .num (.dec c s) => .ok (.dec c s)
  | .float f => .ok (.float f)
  | _ => .error .illegalValue

/-- An operand in the loop over fixnums. -/
def stepInt (o : Op) (sum : ℤ) : Value D → Outcome (Total D)
  | .num (.exact (.fix n)) =>
    (fixOpOvf o sum n).map fun
      | none => .error .overflow
      | some r => .ok (.int r)
  | .num (.exact (.rat num den)) =>
    (Outcome.ofFold (exactStep o .exactOverflow (makeFixnum sum) (.rat num den))).andThen
      fun e => some (.ok (.tower e))
  | .num (.dec c s) =>
    (decOfInt sum).bind fun si =>
      (Outcome.ofFold (decStep o si (c, s))).andThen fun d => some (.ok (.dec d.1 d.2))
  | .float w => some (.ok (.float (arith o (ofInt sum) w)))
  | _ => some (.error .illegalValue)

/-- An operand in the loop over doubles. -/
def stepFloat (o : Op) (sum : D) : Value D → Outcome (Total D)
  | .num (.exact w) => some (.ok (.float (arith o sum (exactToDouble w))))
  | .float w => some (.ok (.float (arith o sum w)))
  | .num (.dec _ _) => some (.error .floatMix)
  | _ => some (.error .illegalValue)

/-- An operand in `tower_fold`. -/
def stepTower (o : Op) (acc : Exact) : Value D → Outcome (Total D)
  | .num (.exact w) =>
    (Outcome.ofFold (exactStep o .exactOverflowNoBignum acc w)).andThen fun e => some (.ok (.tower e))
  | .float w => some (.ok (.towerFloat (arith o (exactToDouble acc) w)))
  | _ => some (.error .illegalValue)

/-- An operand in `tower_fold` once it saw a float. -/
def stepTowerFloat (o : Op) (f : D) : Value D → Outcome (Total D)
  | .num (.exact w) => some (.ok (.towerFloat (arith o f (exactToDouble w))))
  | .float w => some (.ok (.towerFloat (arith o f w)))
  | _ => some (.error .illegalValue)

/-- An operand in `decimal_fold`. -/
def stepDec (o : Op) (d : ℤ × ℤ) : Value D → Outcome (Total D)
  | .num (.dec c s) => (Outcome.ofFold (decStep o d (c, s))).andThen fun r => some (.ok (.dec r.1 r.2))
  | .num (.exact (.fix n)) =>
    (decOfInt n).bind fun wd =>
      (Outcome.ofFold (decStep o d wd)).andThen fun r => some (.ok (.dec r.1 r.2))
  | _ => some (.error (.fold .decimalMix))

/-- One operand after the first. -/
def step (o : Op) : Total D → Value D → Outcome (Total D)
  | .int sum, v =>
    if o = .div ∧ Builtin.isZeroOperand v then some (.error .divBy0) else stepInt o sum v
  | .float f, v =>
    if o = .div ∧ Builtin.isZeroOperand v then some (.error .divBy0) else stepFloat o f v
  | .tower e, v => stepTower o e v
  | .towerFloat f, v => stepTowerFloat o f v
  | .dec c s, v => stepDec o (c, s) v

/-- The result of a fold of two operands or more. -/
def finish : Total D → Outcome (Value D)
  | .int n => if FixFits n then some (.ok (.fix n)) else some (.error .overflow)
  | acc => some (.ok acc.value)

/-- The fold of the operands that are left. -/
def runs (o : Op) : Total D → List (Value D) → Outcome (Value D)
  | acc, [] => acc.finish
  | acc, v :: rest => (acc.step o v).andThen fun acc => runs o acc rest

end Total

namespace Builtin

open Total

variable {D : Type} [Double D] {o : Op}

/-! ## The folds of the source -/

theorem towerFloat_eq (f : D) (rest : List (Value D)) :
    towerFloat o f rest = runs o (.towerFloat f) rest := by
  induction rest generalizing f with
  | nil => rfl
  | cons v rest ih =>
    rcases v with (w | ⟨c, s⟩) | w | x
    · exact ih _
    · rfl
    · exact ih _
    · rfl

theorem towerFold_eq (acc : Exact) (rest : List (Value D)) {count : ℕ}
    (hcount : 2 ≤ count + rest.length) :
    towerFold o count acc rest = runs o (.tower acc) rest := by
  induction rest generalizing acc count with
  | nil =>
    have hne : count ≠ 1 := by
      rw [List.length_nil] at hcount
      omega
    rw [towerFold, Numeric.towerFold, if_neg hne]
    rfl
  | cons v rest ih =>
    rw [List.length_cons] at hcount
    rcases v with (w | ⟨c, s⟩) | w | x
    · rw [towerFold, runs, step, stepTower, Outcome.andThen_assoc]
      congr 1
      funext r
      exact ih r (by omega)
    · rfl
    · exact towerFloat_eq _ rest
    · rfl

theorem decimalFold_eq (d : ℤ × ℤ) (rest : List (Value D)) {count : ℕ}
    (hcount : 2 ≤ count + rest.length) :
    decimalFold o count d rest = runs o (.dec d.1 d.2) rest := by
  induction rest generalizing d count with
  | nil =>
    have hne : count ≠ 1 := by
      rw [List.length_nil] at hcount
      omega
    rw [decimalFold, Numeric.decimalFold, if_neg hne]
    rfl
  | cons v rest ih =>
    rw [List.length_cons] at hcount
    rcases v with ((n | ⟨num, den⟩) | ⟨c, s⟩) | w | x
    · rw [decimalFold, runs, step, stepDec]
      cases decOfInt n with
      | none => rfl
      | some wd =>
        rw [Option.bind_some, Option.bind_some, Outcome.andThen_assoc]
        congr 1
        funext r
        exact ih r (by omega)
    · rfl
    · rw [decimalFold, runs, step, stepDec, Outcome.andThen_assoc]
      congr 1
      funext r
      exact ih r (by omega)
    · rfl
    · rfl

theorem mathFloat_eq (f : D) (rest : List (Value D)) {i : ℕ} (hcount : 2 ≤ i + rest.length) :
    mathFloat o i f rest = runs o (.float f) rest := by
  induction rest generalizing f i with
  | nil =>
    have hne : i ≠ 1 := by
      rw [List.length_nil] at hcount
      omega
    simp [mathFloat, floatEnd, hne, runs, finish, value]
  | cons v rest ih =>
    rw [List.length_cons] at hcount
    rw [mathFloat.eq_def, runs, step]
    dsimp only
    split
    · rfl
    · rcases v with (w | ⟨c, s⟩) | w | x
      · exact ih _ (by omega)
      · rfl
      · exact ih _ (by omega)
      · rfl

theorem mathLoop_eq (sum : ℤ) (rest : List (Value D)) {i : ℕ} (hi : 0 < i)
    (hcount : 2 ≤ i + rest.length) : mathLoop o i sum rest = runs o (.int sum) rest := by
  induction rest generalizing sum i with
  | nil =>
    have hne : i ≠ 1 := by
      rw [List.length_nil] at hcount
      omega
    rw [mathLoop, mathEnd, if_neg (fun h => hi.ne' h.1), if_neg (fun h => hne h.1),
      if_neg (fun h => hne h.1), runs, finish]
    by_cases hfit : FixFits sum
    · simp only [if_pos hfit]
      rfl
    · simp only [if_neg hfit]
      rfl
  | cons v rest ih =>
    rw [List.length_cons] at hcount
    rw [mathLoop.eq_def, runs, step]
    simp only [hi, true_and, true_or, if_true, hi.ne', if_false]
    split
    · rfl
    · rcases v with ((n | ⟨num, den⟩) | ⟨c, s⟩) | w | x
      · dsimp only [stepInt]
        rcases fixOpOvf o sum n with _ | _ | r
        · rfl
        · rfl
        · exact ih r (by omega) (by omega)
      · dsimp only [stepInt]
        rw [Outcome.andThen_assoc]
        congr 1
        funext e
        exact towerFold_eq e rest (by omega)
      · dsimp only [stepInt]
        cases decOfInt sum with
        | none => rfl
        | some si =>
          rw [Option.bind_some, Option.bind_some, Outcome.andThen_assoc]
          congr 1
          funext d
          exact decimalFold_eq d rest (by omega)
      · exact mathFloat_eq _ rest (by omega)
      · rfl

/-- **The folds are runs**, on two operands or more. -/
theorem mathCmd_eq [LawfulDouble D] (o : Op) {v w : Value D} (hv : ∀ n, v = .fix n → FixFits n)
    (rest : List (Value D)) :
    mathCmd o (v :: w :: rest) =
      Outcome.andThen (some (first v)) fun acc => runs o acc (w :: rest) := by
  have hlen : (w :: rest).length = rest.length + 1 := List.length_cons
  rw [mathCmd, mathLoop.eq_def]
  dsimp only
  rw [if_neg (fun h => absurd h.2.1 (lt_irrefl 0))]
  rcases v with ((n | ⟨num, den⟩) | ⟨c, s⟩) | f | x
  · have hn : checked 64 n = some n := checked_eq_some (fits_of_fixFits (hv n rfl))
    have hmul : fixOpOvf .mul 1 n = some (some n) := by rw [fixOpOvf, one_mul, hn]
    cases o with
    | mul => simpa [hmul, first] using mathLoop_eq n (w :: rest) (by omega) (by omega)
    | add => simpa [first] using mathLoop_eq n (w :: rest) (by omega) (by omega)
    | sub => simpa [first] using mathLoop_eq n (w :: rest) (by omega) (by omega)
    | div => simpa [first] using mathLoop_eq n (w :: rest) (by omega) (by omega)
  · simpa [first] using towerFold_eq _ (w :: rest) (by omega)
  · simpa [first] using decimalFold_eq _ (w :: rest) (by omega)
  · cases o with
    | mul => simpa [LawfulDouble.one_mul, first] using mathFloat_eq f (w :: rest) (by omega)
    | add => simpa [first] using mathFloat_eq f (w :: rest) (by omega)
    | sub => simpa [first] using mathFloat_eq f (w :: rest) (by omega)
    | div => simpa [first] using mathFloat_eq f (w :: rest) (by omega)
  · rfl

end Builtin

namespace Opcode

variable {D : Type} [Double D]

/-! ## Compiled code -/

/-- The opcode is applied to one operand after the other. -/
def foldFrom (h : Head) : Value D → List (Value D) → Outcome (Value D)
  | v, [] => some (.ok v)
  | v, w :: rest => (binary h v w).andThen fun r => foldFrom h r rest

theorem exec_op {h : Head} (hh : h ≠ .abs) (code : List (Instr D)) (a b : Value D)
    (stack : List (Value D)) :
    exec (.op h :: code) (b :: a :: stack) =
      (binary h a b).andThen fun r => exec code (r :: stack) := by
  cases h with
  | abs => exact absurd rfl hh
  | arith o => rfl
  | mod => rfl
  | cmp c => rfl
  | max => rfl
  | min => rfl

/-- **The code for the operands that are left folds them in.** -/
theorem exec_foldCode {h : Head} (hh : h ≠ .abs) (rest : List (Arg D)) (v : Value D) :
    exec (foldCode h rest) [v] = foldFrom h v (rest.map Arg.value) := by
  induction rest generalizing v with
  | nil => rfl
  | cons a rest ih =>
    show exec (.op h :: foldCode h rest) [a.value, v] = _
    rw [exec_op hh, List.map_cons, foldFrom]
    congr 1
    funext r
    exact ih r

end Opcode

end Alcove.Numeric
