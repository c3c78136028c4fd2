import Alcove.Numeric.Unrounded

/-!
# The shortcut of `reduce`

`reducecmd` folds a list with a function. For a compiled lambda whose code is `LOAD_SLOT 0`, `LOAD_SLOT 1`,
an opcode of `+`, `-` or `*`, `RET`, it does not call the lambda for two fixnums whose result is a fixnum,
but computes in `int64_t`.

The opcodes check what the shortcut does not: that the 64 bits hold the result; and a call checks the number
of arguments, which the code does not show. `reduce_iff` says when the shortcut changes nothing.

The rest of the evaluator is a parameter: `W` is all that a call may change, `rest` what the opcodes
do that are not in the code above, and `interpreted` a lambda without code.
-/

namespace Alcove.Numeric.Reduce

open Lib

/-- The errors of a call: of an opcode, of the number of arguments, and any other. -/
inductive ApplyError (E : Type)
  | arith (e : ArithError)
  | arity (many : Bool)
  | raised (e : E)
  deriving DecidableEq

/-- The code of the error; any other error is as good as its code. -/
def ApplyError.errorCode {E : Type} : ApplyError E → ErrorClass ⊕ E
  | .arith e => .inl e.errorClass
  | .arity _ => .inl .missingParameter
  | .raised e => .inr e

/-- What a call makes of the world; `none` where the C arithmetic is undefined. -/
abbrev Run (W E D : Type) : Type := W → Option (Except (ApplyError E) (Value D) × W)

namespace Run

variable {W E D : Type}

def pure (v : Value D) : Run W E D := fun w => some (.ok v, w)

def fail (e : ApplyError E) : Run W E D := fun w => some (.error e, w)

/-- What follows where there is no error. -/
def andThen (r : Run W E D) (k : Value D → Run W E D) : Run W E D := fun w =>
  (r w).bind fun
    | (.error e, w') => some (.error e, w')
    | (.ok v, w') => k v w'

/-- The outcome of an opcode. -/
def ofOutcome (r : Outcome (Value D)) : Run W E D := fun w =>
  r.map fun x => (x.mapError .arith, w)

/-- A result without the text of its error. -/
def classed (r : Option (Except (ApplyError E) (Value D) × W)) :
    Option (Except (ErrorClass ⊕ E) (Value D) × W) :=
  r.map fun p => (p.1.mapError ApplyError.errorCode, p.2)

end Run

variable {W E D : Type} [Double D]

/-! ## Calls -/

/-- Opcodes, as they are numbered in `OPCODE_LIST`. -/
@[match_pattern] abbrev opRet : ℕ := 1

@[match_pattern] abbrev opLoadSlot : ℕ := 7

@[match_pattern] abbrev opAdd : ℕ := 13

@[match_pattern] abbrev opSub : ℕ := 14

@[match_pattern] abbrev opMul : ℕ := 15

/-- `vm_run` on code that does not jump; `rest` is a run from any other opcode on. -/
def vmRun (inlineVals : ℕ → Value D) (rest : List ℕ → List (Value D) → Run W E D) :
    List ℕ → List (Value D) → Run W E D
  | opLoadSlot :: idx :: code, stack => vmRun inlineVals rest code (inlineVals idx :: stack)
  | opAdd :: code, b :: a :: stack =>
    (Run.ofOutcome (Opcode.binArith .add a b)).andThen fun v => vmRun inlineVals rest code (v :: stack)
  | opSub :: code, b :: a :: stack =>
    (Run.ofOutcome (Opcode.binArith .sub a b)).andThen fun v => vmRun inlineVals rest code (v :: stack)
  | opMul :: code, b :: a :: stack =>
    (Run.ofOutcome (Opcode.binArith .mul a b)).andThen fun v => vmRun inlineVals rest code (v :: stack)
  | opRet :: _, r :: _ => Run.pure r
  | code, stack => rest code stack

/-- The operator of the code that the shortcut is for. -/
def fastOp : List ℕ → Option Op
  | [opLoadSlot, 0, opLoadSlot, 1, opAdd, opRet] => some .add
  | [opLoadSlot, 0, opLoadSlot, 1, opSub, opRet] => some .sub
  | [opLoadSlot, 0, opLoadSlot, 1, opMul, opRet] => some .mul
  | _ => none

/-- `bytecode_t`. The native code, if there is any, may give up and leave the call to the bytecode. No
shape that `jit_compile` has native code for is that of the shortcut. -/
structure Bytecode (W E D : Type) where
  code : List ℕ
  nparams : ℕ
  rest : List ℕ → List (Value D) → Run W E D
  jit : Option (Value D → Value D → W → Option (Option (Except (ApplyError E) (Value D) × W)))
  jit_none : fastOp code ≠ none → jit = none

/-- A lambda, with `FLAG_COMPILED` or without. -/
inductive Lambda (W E D : Type)
  | compiled (bc : Bytecode W E D)
  | interpreted (apply : Value D → Value D → Run W E D)

/-- The slots of a call with two arguments. -/
def inlineVals (a b : Value D) : ℕ → Value D
  | 0 => a
  | 1 => b
  | _ => .null

/-- `alc_apply2`, which is `vm_invoke_values` for a lambda. -/
def alcApply2 : Lambda W E D → Value D → Value D → Run W E D
  | .interpreted apply, a, b => apply a b
  | .compiled bc, a, b =>
    if bc.nparams ≠ 2 then Run.fail (.arity (bc.nparams < 2))
    else fun w =>
      match bc.jit.bind fun native => native a b w with
      | some r => r
      | none => vmRun (inlineVals a b) bc.rest bc.code [] w

/-! ## `reduce` -/

/-- `fast_op` -/
def Lambda.fastOp : Lambda W E D → Option Op
  | .compiled bc => Reduce.fastOp bc.code
  | .interpreted _ => none

/-- `a + b`, `a - b` or `a * b` in `int64_t`. -/
def int64Arith : Op → ℤ → ℤ → Option ℤ
  | .add, a, b => checked 64 (a + b)
  | .sub, a, b => checked 64 (a - b)
  | _, a, b => checked 64 (a * b)

/-- One round of the loop with the shortcut. -/
def fastStep (f : Lambda W E D) (o : Op) (acc x : Value D) : Run W E D :=
  match acc, x with
  | .num (.exact (.fix a)), .num (.exact (.fix b)) =>
    match int64Arith o a b with
    | none => fun _ => none
    | some r => if FixFits r then Run.pure (.fix r) else alcApply2 f acc x
  | _, _ => alcApply2 f acc x

/-- A NULL is nil. -/
def orNil : Value D → Value D
  | .null => .truth false
  | v => v

/-- The loop over the cells; a cell without content ends the list. -/
def loop (step : Value D → Value D → Run W E D) : Value D → List (Value D) → Run W E D
  | acc, [] => Run.pure acc
  | acc, .null :: _ => Run.pure acc
  | acc, x :: cells => (step acc x).andThen fun v => loop step (orNil v) cells

/-- `(reduce f init xs)` for the cells of `xs`. -/
def reducecmd (f : Lambda W E D) (init : Value D) (cells : List (Value D)) : Run W E D :=
  match f.fastOp with
  | some o => loop (fastStep f o) (orNil init) cells
  | none => loop (alcApply2 f) (orNil init) cells

/-! ## The fold -/

/-- The elements of a list: what is in its cells up to the first that is empty. -/
def elements : List (Value D) → List (Value D)
  | [] => []
  | .null :: _ => []
  | x :: cells => x :: elements cells

/-- The function applied to the accumulator and each element in turn, up to the first error. -/
def fold (apply : Value D → Value D → Run W E D) : Value D → List (Value D) → Run W E D
  | acc, [] => Run.pure acc
  | acc, x :: xs => (apply acc x).andThen fun v => fold apply (orNil v) xs

/-- `reduce` has the value of the fold, or an error of the same class. -/
def Agrees (f : Lambda W E D) (init : Value D) (cells : List (Value D)) (w : W) : Prop :=
  Run.classed (reducecmd f init cells w) = Run.classed (fold (alcApply2 f) (orNil init) (elements cells) w)

/-- Two fixnums whose result is no `int64_t`. -/
def overflows (o : Op) : Value D → Value D → Bool
  | .num (.exact (.fix a)), .num (.exact (.fix b)) => (int64Arith o a b).isNone
  | _, _ => false

/-- The fold has no fixnums whose result is no `int64_t`. -/
def inRange (o : Op) : Value D → List (Value D) → Bool
  | _, [] => true
  | acc, x :: xs =>
    !overflows o acc x &&
      match Opcode.binArith o acc x with
      | some (.ok v) => inRange o (orNil v) xs
      | _ => true

/-- Before the shortcut is at the end, it has to call the lambda. -/
def fallsBack (o : Op) : Value D → List (Value D) → Bool
  | _, [] => false
  | .num (.exact (.fix a)), .num (.exact (.fix b)) :: xs =>
    match int64Arith o a b with
    | none => false
    | some r => if FixFits r then fallsBack o (.fix r) xs else true
  | _, _ :: _ => true

/-- Where the shortcut changes nothing. -/
def ok : Lambda W E D → Value D → List (Value D) → Bool
  | .interpreted _, _, _ => true
  | .compiled bc, init, xs =>
    match fastOp bc.code with
    | none => true
    | some o => if bc.nparams = 2 then inRange o init xs else xs.isEmpty || fallsBack o init xs

/-! ## Runs -/

namespace Run

variable {W E D : Type} {r : Run W E D} {k k' : Value D → Run W E D} {w : W}

@[simp]
theorem pure_andThen (v : Value D) : (Run.pure v : Run W E D).andThen k = k v := rfl

@[simp]
theorem fail_andThen (e : ApplyError E) : (Run.fail e : Run W E D).andThen k = Run.fail e := rfl

theorem andThen_pure (r : Run W E D) : r.andThen Run.pure = r := by
  funext w
  rcases h : r w with _ | ⟨_ | _, _⟩ <;> simp [andThen, h, pure]

theorem ofOutcome_ok (v : Value D) : (ofOutcome (some (.ok v)) : Run W E D) = pure v := rfl

theorem ofOutcome_error (e : ArithError) :
    (ofOutcome (some (.error e)) : Run W E D) = fail (.arith e) := rfl

end Run

omit [Double D] in
theorem loop_eq (step : Value D → Value D → Run W E D) (acc : Value D) (cells : List (Value D)) :
    loop step acc cells = fold step acc (elements cells) := by
  fun_induction elements cells generalizing acc with
  | case1 => rfl
  | case2 cells => rfl
  | case3 x cells hx ih =>
    rw [loop, fold]
    · exact congrArg (Run.andThen _) (funext fun v => ih (orNil v))
    · exact hx

theorem reducecmd_eq (f : Lambda W E D) (init : Value D) (cells : List (Value D)) :
    reducecmd f init cells =
      match f.fastOp with
      | some o => fold (fastStep f o) (orNil init) (elements cells)
      | none => fold (alcApply2 f) (orNil init) (elements cells) := by
  unfold reducecmd
  split <;> exact loop_eq _ _ _

/-! ## The shortcut for two parameters -/

section Shortcut

variable {bc : Bytecode W E D} {o : Op}

theorem fastOp_ne_div {code : List ℕ} (h : fastOp code = some o) : o ≠ .div := by
  unfold fastOp at h
  split at h <;> cases h <;> exact Op.noConfusion

theorem vmRun_fast {code : List ℕ} (h : fastOp code = some o) (a b : Value D)
    (rest : List ℕ → List (Value D) → Run W E D) :
    vmRun (inlineVals a b) rest code [] = Run.ofOutcome (Opcode.binArith o a b) := by
  unfold fastOp at h
  split at h <;> cases h <;> exact Run.andThen_pure _

/-- A call of such a lambda is its opcode. -/
theorem alcApply2_fast (h : fastOp bc.code = some o) (hn : bc.nparams = 2) (a b : Value D) :
    alcApply2 (.compiled bc) a b = Run.ofOutcome (Opcode.binArith o a b) := by
  have hjit : bc.jit = none := bc.jit_none (by simp [h])
  funext w
  simp [alcApply2, hn, hjit, vmRun_fast h]

omit [Double D] in
theorem fixArith_eq (ho : o ≠ .div) (a b : ℤ) :
    (Opcode.fixArith o a b : Outcome (Value D)) =
      match int64Arith o a b with
      | some r => some (if FixFits r then .ok (.fix r) else .error .overflow)
      | none => some (.error .overflow) := by
  cases o with
  | div => exact absurd rfl ho
  | add => cases h : checked 64 (a + b) <;> simp [Opcode.fixArith, fixOpOvf, int64Arith, h]
  | sub => cases h : checked 64 (a - b) <;> simp [Opcode.fixArith, fixOpOvf, int64Arith, h]
  | mul => cases h : checked 64 (a * b) <;> simp [Opcode.fixArith, fixOpOvf, int64Arith, h]

/-- A round of the shortcut, unless the result is no `int64_t`. -/
theorem fastStep_eq (h : fastOp bc.code = some o) (hn : bc.nparams = 2) (acc x : Value D) :
    fastStep (.compiled bc) o acc x =
      if overflows o acc x then fun _ => none else Run.ofOutcome (Opcode.binArith o acc x) := by
  unfold fastStep overflows
  split
  · rename_i a b
    rcases Option.eq_none_or_eq_some (int64Arith o a b) with hr | ⟨r, hr⟩
    · simp [hr]
    · have hfix : Opcode.binArith o (.fix a) (.fix b : Value D) =
          some (if FixFits r then .ok (.fix r) else .error .overflow) := by
        rw [Opcode.binArith, fixArith_eq (fastOp_ne_div h), hr]
      simp only [hr, Option.isNone_some, Bool.false_eq_true, if_false, alcApply2_fast h hn, hfix]
      split
      · exact (Run.ofOutcome_ok _).symm
      · rfl
  · rw [alcApply2_fast h hn]
    simp

/-- What overflows is an error to the opcode. -/
theorem binArith_overflows (ho : o ≠ .div) {acc x : Value D} (h : overflows o acc x = true) :
    Opcode.binArith o acc x = some (.error .overflow) := by
  unfold overflows at h
  split at h
  · rename_i a b
    rw [Opcode.binArith, fixArith_eq ho, Option.isNone_iff_eq_none.mp h]
  · cases h

omit [Double D] in
theorem classed_fold_ofOutcome {r : Outcome (Value D)} {k k' : Value D → Run W E D} {w : W} :
    Run.classed ((Run.ofOutcome r).andThen k w) = Run.classed ((Run.ofOutcome r).andThen k' w) ↔
      ∀ v, r = some (.ok v) → Run.classed (k v w) = Run.classed (k' v w) := by
  rcases r with _ | e | v
  · simp [Run.ofOutcome, Run.andThen]
  · simp [Run.ofOutcome, Run.andThen, Except.mapError]
  · simp [Run.ofOutcome, Run.andThen, Except.mapError]

theorem shortcut_iff (h : fastOp bc.code = some o) (hn : bc.nparams = 2) (acc : Value D)
    (xs : List (Value D)) (w : W) :
    Run.classed (fold (fastStep (.compiled bc) o) acc xs w) =
        Run.classed (fold (alcApply2 (.compiled bc)) acc xs w) ↔ inRange o acc xs = true := by
  induction xs generalizing acc with
  | nil => simp [fold, inRange]
  | cons x xs ih =>
    rw [fold, fold, fastStep_eq h hn, alcApply2_fast h hn, inRange]
    cases hov : overflows o acc x with
    | true =>
      -- nothing is undefined in the opcode, which reports the overflow
      rw [binArith_overflows (fastOp_ne_div h) hov]
      simp [Run.andThen, Run.ofOutcome, Run.classed, Except.mapError]
    | false =>
      simp only [Bool.false_eq_true, if_false, Bool.not_false, Bool.true_and]
      rw [classed_fold_ofOutcome]
      split
      · rename_i v hv
        simp [hv, ih]
      · rename_i hv
        simp only [iff_true]
        exact fun v hv' => absurd hv' (hv v)

end Shortcut

/-! ## The shortcut for another number of parameters -/

section Arity

variable {bc : Bytecode W E D} {o : Op}

theorem alcApply2_arity (hn : bc.nparams ≠ 2) (a b : Value D) :
    alcApply2 (.compiled bc) a b = Run.fail (.arity (bc.nparams < 2)) := by
  simp [alcApply2, hn]

/-- Where the shortcut does not call the lambda it ends with a fixnum or has no result. -/
theorem classed_shortcut_arity (hn : bc.nparams ≠ 2) (acc : Value D) (xs : List (Value D)) (w : W) :
    Run.classed (fold (fastStep (.compiled bc) o) acc xs w) = some (.error (.inl .missingParameter), w) ↔
      fallsBack o acc xs = true := by
  fun_induction fallsBack o acc xs with
  | case1 acc => simp [fold, Run.pure, Run.classed, Except.mapError]
  | case2 a b xs hr => simp [fold, fastStep, hr, Run.andThen, Run.classed]
  | case3 a b xs r hr hfit ih =>
    rw [← ih]
    simp [fold, fastStep, hr, hfit, orNil]
  | case4 a b xs r hr hfit =>
    simp [fold, fastStep, hr, hfit, alcApply2_arity hn, Run.fail, Run.classed, Except.mapError,
      ApplyError.errorCode]
  | case5 acc x xs hx =>
    have hstep : fastStep (.compiled bc) o acc x = alcApply2 (.compiled bc) acc x := by
      unfold fastStep
      split
      · exact absurd rfl (hx _ _ rfl)
      · rfl
    simp [fold, hstep, alcApply2_arity hn, Run.fail, Run.classed, Except.mapError, ApplyError.errorCode]

end Arity

omit [Double D] in
/-- The sum and the difference of two fixnums are an `int64_t`. -/
theorem overflows_add_sub {o : Op} (ho : o = .add ∨ o = .sub) {acc x : Value D} (hacc : acc.WellFormed)
    (hx : x.WellFormed) : overflows o acc x = false := by
  unfold overflows
  split
  · rename_i a b
    have ha : FixFits a := hacc
    have hb : FixFits b := hx
    unfold FixFits Fits at ha hb
    rcases ho with rfl | rfl
    · rw [int64Arith, checked_eq_some (by unfold Fits; omega)]
      rfl
    · rw [int64Arith, checked_eq_some (by unfold Fits; omega)]
      rfl
  · rfl

end Alcove.Numeric.Reduce
