import Alcove.Numeric.Fused
import Mathlib.Algebra.BigOperators.Group.Finset.Basic
import Mathlib.Data.Nat.Factorial.Basic
import Mathlib.Data.Nat.Fib.Basic

/-!
# Recursion folded into a loop

Two shapes of a function of one parameter that calls itself have native code without a call. The first is
`(if (cmp n K1) n (+ (f (op n K2)) (f (op n K3))))`, where both steps subtract and take 1 and 2
(`isFibLike`), the second `(if (cmp n K1) BASE (* n (f (op n K2))))`. The bytecode is `run`, to a given
depth of calls, and the native code `native`, for a given number of rounds.

* `RecurseAddTwo.Condition`, `RecurseMulOne.Condition`: the arguments for which the two agree.
-/

namespace Alcove.Jit

open Lib Numeric

/-- The operators of a step: `OP_SLOT_ADD_FIX` and `OP_SLOT_SUB_FIX`. -/
inductive Step
  | add
  | sub
  deriving DecidableEq

namespace Step

def op : Step → Op
  | .add => .add
  | .sub => .sub

/-- What the step adds to a number. -/
def delta : Step → ℤ → ℤ
  | .add, K => K
  | .sub, K => -K

end Step

/-- The predicate of the base case: one of `OP_SLOT_LT_FIX` and its siblings, or `OP_SLOT_IS_FIX`. -/
inductive Test
  | cmp (c : Builtin.Cmp)
  | is
  deriving DecidableEq

/-- The predicate on a fixnum. -/
def Test.int : Test → ℤ → ℤ → Bool
  | .cmp c, n, K => c.int n K
  | .is, n, K => n = K

/-- `struct match_recurse_add_two`. The immediates are `int16_t`. -/
structure RecurseAddTwo where
  cmpOp : Test
  opA : Step
  opB : Step
  K1 : ℤ
  K2 : ℤ
  K3 : ℤ
  fits1 : Fits 16 K1
  fits2 : Fits 16 K2
  fits3 : Fits 16 K3

/-- `struct match_recurse_mul_one` -/
structure RecurseMulOne where
  cmpOp : Builtin.Cmp
  stepOp : Step
  K1 : ℤ
  K2 : ℤ
  BASE : ℤ
  fits1 : Fits 16 K1
  fits2 : Fits 16 K2
  fitsBase : Fits 16 BASE

/-! ## The bytecode -/

section Bytecode

variable {D : Type} [Double D]

/-- `OP_BR_IF_FALSE` goes on. -/
def taken : Value D → Bool
  | .truth b => b
  | .null => false
  | _ => true

/-- The opcode of the predicate and the branch behind it. -/
def Test.run : Test → Value D → ℤ → Outcome Bool
  | .cmp c, v, K => (Opcode.slotFix (.cmp c) v K).andThen fun r => some (.ok (taken r))
  | .is, v, K => some (.ok (sameWord v K))

/-- The bytecode with both calls made, for a stack of `depth` calls; `none` is a run that needs more. -/
def RecurseAddTwo.run (m : RecurseAddTwo) : ℕ → Value D → Outcome (Value D)
  | 0, _ => none
  | depth + 1, v =>
    (m.cmpOp.run v m.K1).andThen fun base =>
      if base then some (.ok v)
      else (Opcode.slotFix (.arith m.opA.op) v m.K2).andThen fun a =>
        (run m depth a).andThen fun x =>
          (Opcode.slotFix (.arith m.opB.op) v m.K3).andThen fun b =>
            (run m depth b).andThen fun y => Opcode.binary (.arith .add) x y

def RecurseMulOne.run (m : RecurseMulOne) : ℕ → Value D → Outcome (Value D)
  | 0, _ => none
  | depth + 1, v =>
    ((Test.cmp m.cmpOp).run v m.K1).andThen fun base =>
      if base then some (.ok (.fix m.BASE))
      else (Opcode.slotFix (.arith m.stepOp.op) v m.K2).andThen fun a =>
        (run m depth a).andThen fun x => Opcode.binary (.arith .mul) v x

end Bytecode

/-! ## The native code -/

/-- The tag is put back by `imul` with 8 and `jo`; `none` is the return of `NULL`. -/
def retag (r : ℤ) : Option ℤ := (checked 64 (r * 8)).map fun _ => r

namespace RecurseAddTwo

/-- `is_fib_like`, for calls of the function itself. -/
def isFibLike (m : RecurseAddTwo) : Bool :=
  m.cmpOp ≠ .is ∧ m.opA = .sub ∧ m.opB = .sub ∧ (m.K2 = 1 ∧ m.K3 = 2 ∨ m.K2 = 2 ∧ m.K3 = 1)

/-- `while (i <= n) { (a, b) = (b, a + b); i++; }` in 64-bit registers. -/
def loop (n : ℤ) : ℕ → ℤ → ℤ → ℤ → Option ℤ
  | 0, _, _, _ => none
  | rounds + 1, a, b, i =>
    if n < i then some b else loop n rounds b (wrap 64 (a + b)) (wrap 64 (i + 1))

/-- `try_jit_recurse_add_two` where `is_fib_like` -/
def native {D : Type} (m : RecurseAddTwo) (v : Value D) (rounds : ℕ) : Option (Option ℤ) :=
  match v with
  | .num (.exact (.fix n)) =>
    if m.cmpOp.int n m.K1 then some (some n)
    else (loop n rounds (m.K1 - 2) (m.K1 - 1) m.K1).map retag
  | _ => some none

end RecurseAddTwo

namespace RecurseMulOne

/-- What a round adds to `n`. -/
def delta (m : RecurseMulOne) : ℤ := m.stepOp.delta m.K2

/-- `while (!cmp(n, K1)) { acc *= n; n = n op K2; }` in 64-bit registers, where the product is checked. -/
def loop (m : RecurseMulOne) : ℕ → ℤ → ℤ → Option (Option ℤ)
  | 0, _, _ => none
  | rounds + 1, acc, n =>
    if m.cmpOp.int n m.K1 then some (retag acc)
    else if Fits 64 (acc * n) then loop m rounds (acc * n) (wrap 64 (n + m.delta)) else some none

/-- `try_jit_recurse_mul_one` -/
def native {D : Type} (m : RecurseMulOne) (v : Value D) (rounds : ℕ) : Option (Option ℤ) :=
  match v with
  | .num (.exact (.fix n)) => m.loop rounds m.BASE n
  | _ => some none

end RecurseMulOne

/-! ## Agreement -/

/-- The native code ends, with the fixnum that the bytecode has, or with `NULL` where the bytecode has the
error of a result out of range and only there. -/
def Serves {D : Type} (native : ℕ → Option (Option ℤ)) (r : Except ArithError (Value D)) : Prop :=
  ∃ rounds out, native rounds = some out ∧ (∀ k, out = some k → r = .ok (.fix k)) ∧
    (out = none ↔ r = .error .overflow)

namespace RecurseAddTwo

/-- The number `j` places after `b` in the sequence of sums that starts with `a` and `b`. -/
def sums (a b : ℤ) (j : ℕ) : ℤ := a * Nat.fib j + b * Nat.fib (j + 1)

/-- The least number that is not in the base case of `<` or `<=`. -/
def threshold (m : RecurseAddTwo) : ℤ := if m.cmpOp = .cmp .le then m.K1 + 1 else m.K1

/-- **The arguments for which the sums are the same.** The base case; otherwise the predicate is `<` or
`<=`, and either the sum from the two numbers below the threshold is a fixnum and those are the numbers
that the loop starts with, up to `K1 = 3`, where the next two are as well; or it is none, and no more is
what the loop makes of its own sum in 64 bits. -/
def Condition (m : RecurseAddTwo) (n : ℤ) : Prop :=
  m.cmpOp.int n m.K1 = true ∨ (m.cmpOp = .cmp .lt ∨ m.cmpOp = .cmp .le) ∧
    if Fits 61 (sums (m.threshold - 2) (m.threshold - 1) (n - m.threshold + 1).toNat) then
      m.cmpOp = .cmp .lt ∨ m.K1 = 3
    else ¬ Fits 61 (wrap 64 (sums (m.K1 - 2) (m.K1 - 1) (n - m.K1 + 1).toNat))

end RecurseAddTwo

namespace RecurseMulOne

variable (m : RecurseMulOne)

/-- `L` steps lead from `n` to the base case, and no fewer. -/
def First (n : ℤ) (L : ℕ) : Prop :=
  m.cmpOp.int (n + L * m.delta) m.K1 = true ∧ ∀ k : ℕ, k < L → m.cmpOp.int (n + k * m.delta) m.K1 = false

/-- `z` steps lead from `n` to 0, which is before the base case. -/
def Passes (n : ℤ) (z : ℕ) : Prop :=
  n + z * m.delta = 0 ∧ ∀ k : ℕ, k ≤ z → m.cmpOp.int (n + k * m.delta) m.K1 = false

/-- **The arguments for which the products are the same.** The base case is reached if `BASE` is 0; else,
if 0 is a factor, the product of `BASE` and the factors behind it is a fixnum (and there is one, as the
base case is reached) exactly when the product of `BASE` and those before it has 64 bits. -/
def Condition (n : ℤ) : Prop :=
  if m.BASE = 0 then ∃ L, m.First n L
  else ∀ z, m.Passes n z →
    ((∃ w, m.First m.delta w ∧ Fits 61 (m.BASE * (m.delta ^ w * w.factorial))) ↔
      Fits 64 (m.BASE * ((-m.delta) ^ z * z.factorial)))

end RecurseMulOne

/-! ## Fixnums -/

theorem fits_of_fits {w w' : ℕ} {z : ℤ} (hw : w ≤ w') (h : Fits w z) : Fits w' z := by
  have hle : (2 : ℤ) ^ (w - 1) ≤ 2 ^ (w' - 1) := pow_le_pow_right₀ (by norm_num) (by omega)
  obtain ⟨h1, h2⟩ := h
  exact ⟨by omega, by omega⟩

theorem wrap_eq {z : ℤ} (h : Fits 64 z) : wrap 64 z = z := by
  obtain ⟨h1, h2⟩ := h
  norm_num at h1 h2
  exact Int.bmod_eq_of_le (by norm_num; omega) (by norm_num; omega)

theorem retag_eq (z : ℤ) : retag z = if Fits 61 z then some z else none := by
  have h : Fits 64 (z * 8) ↔ Fits 61 z := by
    unfold Fits
    norm_num
    omega
  rw [retag, checked]
  by_cases hz : Fits 61 z
  · rw [if_pos hz, if_pos (h.mpr hz)]
    rfl
  · rw [if_neg hz, if_neg fun h64 => hz (h.mp h64)]
    rfl

section Values

variable {D : Type}

/-- The outcome of an operation with the exact result `z`. -/
def fixnum (z : ℤ) : Except ArithError (Value D) := if Fits 61 z then .ok (.fix z) else .error .overflow

theorem fixnum_of_fits {z : ℤ} (h : Fits 61 z) : fixnum (D := D) z = .ok (.fix z) := if_pos h

theorem fixnum_of_not_fits {z : ℤ} (h : ¬ Fits 61 z) : fixnum (D := D) z = .error .overflow := if_neg h

theorem checked_fixnum (z : ℤ) :
    (match checked 64 z with
      | some r => if FixFits r then .ok (.fix r) else .error .overflow
      | none => .error .overflow) = fixnum (D := D) z := by
  unfold checked
  split_ifs with h
  · rfl
  · rw [fixnum_of_not_fits fun h61 => h (fits_of_fits (by decide) h61)]

variable [Double D]

theorem slotFix_step (op : Step) (n K : ℤ) :
    Opcode.slotFix (D := D) (.arith op.op) (.fix n) K = some (fixnum (n + op.delta K)) := by
  cases op with
  | add => exact congrArg some (checked_fixnum _)
  | sub =>
    rw [Step.delta, ← Int.sub_eq_add_neg]
    exact congrArg some (checked_fixnum _)

theorem binary_add (a b : ℤ) :
    Opcode.binary (D := D) (.arith .add) (.fix a) (.fix b) = some (fixnum (a + b)) :=
  congrArg some (checked_fixnum _)

theorem binary_mul (a b : ℤ) :
    Opcode.binary (D := D) (.arith .mul) (.fix a) (.fix b) = some (fixnum (a * b)) :=
  congrArg some (checked_fixnum _)

theorem test_fix (t : Test) (n K : ℤ) : t.run (D := D) (.fix n) K = some (.ok (t.int n K)) := by
  cases t <;> rfl

end Values

/-! ## Runs -/

section Runs

variable {α β : Type}

/-- `x` has no result that `y` does not have. -/
def Extends (x y : Option α) : Prop := ∀ a, x = some a → y = some a

theorem Extends.andThen {x y : Outcome α} {f g : α → Outcome β} (h : Extends x y)
    (hfg : ∀ a, Extends (f a) (g a)) : Extends (x.andThen f) (y.andThen g) := by
  intro r hr
  obtain ⟨e, he, hr⟩ := Option.bind_eq_some_iff.mp hr
  rw [Outcome.andThen, h e he, Option.bind_some]
  cases e with
  | error _ => exact hr
  | ok a => exact hfg a r hr

theorem Extends.refl (x : Option α) : Extends x x := fun _ h => h

/-- More never takes a result back. -/
theorem extends_of_le {f : ℕ → Option α} (h : ∀ n, Extends (f n) (f (n + 1))) {n n' : ℕ} (hn : n ≤ n') :
    Extends (f n) (f n') := by
  induction hn with
  | refl => exact .refl _
  | step _ ih => exact fun a ha => h _ a (ih a ha)

/-- Any two results are the same. -/
theorem result_unique {f : ℕ → Option α} (h : ∀ n, Extends (f n) (f (n + 1))) {n n' : ℕ} {a b : α}
    (ha : f n = some a) (hb : f n' = some b) : a = b := by
  have ha' := extends_of_le h (le_max_left n n') a ha
  rw [extends_of_le h (le_max_right n n') b hb] at ha'
  exact (Option.some.inj ha').symm

variable {D : Type}

/-- For native code that ends, what it ends with decides. -/
theorem serves_iff {native : ℕ → Option (Option ℤ)} (h : ∀ n, Extends (native n) (native (n + 1)))
    {rounds : ℕ} {out : Option ℤ} (hout : native rounds = some out) (r : Except ArithError (Value D)) :
    Serves native r ↔
      (∀ k, out = some k → r = .ok (.fix k)) ∧ (out = none ↔ r = .error .overflow) := by
  constructor
  · rintro ⟨rounds', out', hout', hserves⟩
    rwa [result_unique h hout hout']
  · exact fun hserves => ⟨rounds, out, hout, hserves⟩

/-- The same, for bytecode whose result is exact. -/
theorem serves_retag_iff {native : ℕ → Option (Option ℤ)}
    (h : ∀ n, Extends (native n) (native (n + 1))) {rounds : ℕ} {b : ℤ}
    (hout : native rounds = some (retag b)) (z : ℤ) :
    Serves native (fixnum (D := D) z) ↔ if Fits 61 z then b = z else ¬ Fits 61 b := by
  rw [serves_iff h hout, retag_eq]
  by_cases hz : Fits 61 z
  · rw [fixnum_of_fits hz, if_pos hz]
    by_cases hb : Fits 61 b
    · simp [hb, eq_comm]
    · have hne : b ≠ z := by
        rintro rfl
        exact hb hz
      simp [hb, hne]
  · rw [fixnum_of_not_fits hz, if_neg hz]
    by_cases hb : Fits 61 b <;> simp [hb]

theorem serves_overflow_iff {native : ℕ → Option (Option ℤ)} :
    Serves (D := D) native (.error .overflow) ↔ ∃ rounds, native rounds = some none := by
  constructor
  · rintro ⟨rounds, out, hout, -, hnone⟩
    exact ⟨rounds, by rw [hout, hnone.mpr rfl]⟩
  · rintro ⟨rounds, h⟩
    refine ⟨rounds, none, h, ?_, by simp⟩
    rintro k ⟨⟩

variable [Double D]

theorem RecurseAddTwo.run_extends (m : RecurseAddTwo) (n : ℕ) (v : Value D) :
    Extends (m.run n v) (m.run (n + 1) v) := by
  induction n generalizing v with
  | zero => exact fun _ h => nomatch h
  | succ n ih =>
    rw [run, run]
    refine .andThen (.refl _) fun base => ?_
    cases base with
    | true => exact .refl _
    | false =>
      exact .andThen (.refl _) fun a => .andThen (ih a) fun x => .andThen (.refl _) fun b =>
        .andThen (ih b) fun y => .refl _

theorem RecurseMulOne.run_extends (m : RecurseMulOne) (n : ℕ) (v : Value D) :
    Extends (m.run n v) (m.run (n + 1) v) := by
  induction n generalizing v with
  | zero => exact fun _ h => nomatch h
  | succ n ih =>
    rw [run, run]
    refine .andThen (.refl _) fun base => ?_
    cases base with
    | true => exact .refl _
    | false => exact .andThen (.refl _) fun a => .andThen (ih a) fun x => .refl _

end Runs

end Alcove.Jit
