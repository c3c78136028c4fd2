import Alcove.Numeric.Fold
import Alcove.Value.Text

/-!
# The arithmetic builtins on every value

`pluscmd` and the other folds of `MATH_CMD`, `cmpcmd`, `modcmd`, `abscmd`, `maxcmd` and `mincmd`, on
evaluated operands of any type. The arithmetic of `double` is a parameter (`Double`) with the laws
that the results below need (`LawfulDouble`).

On numbers that are no floats the folds are those of `Alcove.Numeric.Fold` (`mathCmd_numbers`).
-/

namespace Alcove.Numeric

open Lib

/-- The operations of `double`. `isZero` is `== 0.0`, and `isInf` tells the infinities. -/
class Double (D : Type) where
  ofInt : ℤ → D
  arith : Op → D → D → D
  fmod : D → D → D
  pow : D → D → D
  neg : D → D
  lt : D → D → Bool
  le : D → D → Bool
  isZero : D → Bool
  isInf : D → Bool

open Double

/-- What is used of IEEE arithmetic. A difference of two doubles has the sign of their order, except
that equal infinities have no difference. -/
class LawfulDouble (D : Type) [Double D] : Prop where
  isZero_ofInt (n : ℤ) : isZero (ofInt n : D) = decide (n = 0)
  isInf_ofInt (n : ℤ) : Fits 64 n → isInf (ofInt n : D) = false
  add_comm_ofInt (n : ℤ) (x : D) : arith .add (ofInt n) x = arith .add x (ofInt n)
  mul_comm_ofInt (n : ℤ) (x : D) : arith .mul (ofInt n) x = arith .mul x (ofInt n)
  one_mul (x : D) : arith .mul (ofInt 1) x = x
  lt_ofInt (m n : ℤ) : m.natAbs ≤ 2 ^ 53 → n.natAbs ≤ 2 ^ 53 →
    lt (ofInt m : D) (ofInt n) = decide (m < n)
  le_ofInt (m n : ℤ) : m.natAbs ≤ 2 ^ 53 → n.natAbs ≤ 2 ^ 53 →
    le (ofInt m : D) (ofInt n) = decide (m ≤ n)
  sub_lt_zero (x y : D) : lt (arith .sub x y) (ofInt 0) = lt x y
  zero_lt_sub (x y : D) : lt (ofInt 0) (arith .sub x y) = lt y x
  sub_le_zero (x y : D) :
    le (arith .sub x y) (ofInt 0) = (le x y && !(isInf x && isInf y && le y x))
  zero_le_sub (x y : D) :
    le (ofInt 0) (arith .sub x y) = (le y x && !(isInf x && isInf y && le x y))

/-! ## Values and errors -/

/-- A value that is no number: `truth` is `t` or `nil`, `null` the C `NULL` that stands for an empty
list, `other` a value of any other type. -/
inductive NonNumber
  | str (s : CStr)
  | char (c : ℕ)
  | truth (b : Bool)
  | null
  | other
  deriving DecidableEq

/-- An evaluated operand. -/
inductive Value (D : Type)
  | num (n : Number)
  | float (f : D)
  | nonNumber (x : NonNumber)
  deriving DecidableEq

namespace Value

variable {D : Type}

abbrev fix (n : ℤ) : Value D := .num (.exact (.fix n))
abbrev rat (num den : ℤ) : Value D := .num (.exact (.rat num den))
abbrev dec (coef scale : ℤ) : Value D := .num (.dec coef scale)

@[match_pattern]
abbrev str (s : CStr) : Value D := .nonNumber (.str s)

@[match_pattern]
abbrev char (c : ℕ) : Value D := .nonNumber (.char c)

@[match_pattern]
abbrev truth (b : Bool) : Value D := .nonNumber (.truth b)

@[match_pattern]
abbrev null : Value D := .nonNumber .null

/-- The numbers are as the constructors of the source build them. -/
def WellFormed : Value D → Prop
  | .num n => n.WellFormed
  | _ => True

end Value

/-- The codes of the errors. -/
inductive ErrorClass
  | divBy0
  | illegalValue
  | missingParameter
  deriving DecidableEq

/-- The errors of the builtins, and of the opcodes (`illegalIn`). -/
inductive ArithError
  | fold (e : FoldError)
  | floatMix
  | moduloByZero
  | modOperands
  | modMissing
  | compareIncompat
  | absOperand
  | absMissing
  | nonNumeric (isMax : Bool)
  | minMaxMissing (isMax : Bool)
  | illegalIn (opname : String)
  deriving DecidableEq

namespace ArithError

/-- The text of the error. -/
def message : ArithError → String
  | fold e => e.message
  | floatMix => "decimal does not combine with float (convert explicitly)"
  | moduloByZero => "Illegal modulo by 0"
  | modOperands => "mod needs numeric operands"
  | modMissing => "(mod a b)"
  | compareIncompat => "compare: incompatible types"
  | absOperand => "abs: not a number"
  | absMissing => "(abs x)"
  | nonNumeric isMax => if isMax then "max: non-numeric" else "min: non-numeric"
  | minMaxMissing isMax => if isMax then "(maxcmd ...)" else "(mincmd ...)"
  | illegalIn opname => "Illegal value in " ++ opname

/-- The code of the error. -/
def errorClass : ArithError → ErrorClass
  | fold .divBy0 => .divBy0
  | fold (.missingParameter _) => .missingParameter
  | fold _ => .illegalValue
  | moduloByZero => .divBy0
  | modMissing => .missingParameter
  | absMissing => .missingParameter
  | minMaxMissing _ => .missingParameter
  | _ => .illegalValue

abbrev illegalValue : ArithError := .fold .illegalValue
abbrev divBy0 : ArithError := .fold .divBy0
abbrev overflow : ArithError := .fold .integerOverflow

@[simp]
theorem errorClass_illegalValue : illegalValue.errorClass = .illegalValue := rfl

@[simp]
theorem errorClass_overflow : overflow.errorClass = .illegalValue := rfl

end ArithError

/-- `none` is where the C arithmetic is undefined. -/
abbrev Outcome (α : Type) : Type := Option (Except ArithError α)

namespace Outcome

variable {α β : Type}

/-- An outcome without the text of its error. -/
def classed (r : Outcome α) : Option (Except ErrorClass α) :=
  r.map fun x => x.mapError ArithError.errorClass

/-- What follows where there is no error. -/
def andThen (r : Outcome α) (f : α → Outcome β) : Outcome β :=
  r.bind fun
    | .error e => some (.error e)
    | .ok a => f a

/-- The outcome of a step of a fold. -/
def ofFold (r : Option (Except FoldError α)) : Outcome α :=
  r.map fun x => x.mapError ArithError.fold

end Outcome

section Doubles

variable {D : Type} [Double D]

/-- `rat_to_double` -/
def ratToDouble (num den : ℤ) : D := arith .div (ofInt num) (ofInt den)

/-- `exact_to_double` -/
def exactToDouble : Exact → D
  | .fix n => ofInt n
  | .rat num den => ratToDouble num den

/-- `dec_to_double` -/
def decToDouble (coef scale : ℤ) : Option D :=
  (decPow10 scale.toNat).map fun p => arith .div (ofInt coef) (ofInt p)

/-- The value of a fixnum or a float as a double; `TO_DOUBLE`. -/
def coerce : Value D → Option D
  | .num (.exact (.fix n)) => some (ofInt n)
  | .float f => some f
  | _ => none

end Doubles

namespace Builtin

variable {D : Type} [Double D]

/-! ## The folds of `MATH_CMD` -/

/-- The outcome of a fold without floats. -/
def ofNumber (r : Option (Except FoldError Number)) : Outcome (Value D) :=
  (Outcome.ofFold r).andThen fun n => some (.ok (.num n))

/-- `tower_fold` once it saw a float. -/
def towerFloat (o : Op) : D → List (Value D) → Outcome (Value D)
  | f, [] => some (.ok (.float f))
  | f, .num (.exact w) :: rest => towerFloat o (arith o f (exactToDouble w)) rest
  | f, .float w :: rest => towerFloat o (arith o f w) rest
  | _, _ :: _ => some (.error .illegalValue)

/-- `tower_fold` -/
def towerFold (o : Op) : ℕ → Exact → List (Value D) → Outcome (Value D)
  | count, acc, [] => ofNumber (Numeric.towerFold o count acc [])
  | _, acc, .float w :: rest => towerFloat o (arith o (exactToDouble acc) w) rest
  | count, acc, .num (.exact w) :: rest =>
    (Outcome.ofFold (exactStep o .exactOverflowNoBignum acc w)).andThen fun r =>
      towerFold o (count + 1) r rest
  | _, _, _ :: _ => some (.error .illegalValue)

/-- `decimal_fold` -/
def decimalFold (o : Op) : ℕ → ℤ × ℤ → List (Value D) → Outcome (Value D)
  | count, acc, [] => ofNumber (Numeric.decimalFold o count acc [])
  | count, acc, .num (.dec c s) :: rest =>
    (Outcome.ofFold (decStep o acc (c, s))).andThen fun r => decimalFold o (count + 1) r rest
  | count, acc, .num (.exact (.fix n)) :: rest =>
    (decOfInt n).bind fun wd =>
      (Outcome.ofFold (decStep o acc wd)).andThen fun r => decimalFold o (count + 1) r rest
  | _, _, _ :: _ => some (.error (.fold .decimalMix))

/-- The operand is a fixnum or a float that is zero. -/
def isZeroOperand : Value D → Bool
  | .num (.exact (.fix n)) => n = 0
  | .float f => isZero f
  | _ => false

/-- The end of the loop of `MATH_CMD` after `i` operands with a float among them. -/
def floatEnd (o : Op) (i : ℕ) (sum : D) : Outcome (Value D) :=
  if i = 1 ∧ o = .sub then some (.ok (.float (neg sum)))
  else if i = 1 ∧ o = .div then
    if isZero sum then some (.error .divBy0) else some (.ok (.float (arith .div (ofInt 1) sum)))
  else some (.ok (.float sum))

/-- The loop of `MATH_CMD` once it saw a float. -/
def mathFloat (o : Op) : ℕ → D → List (Value D) → Outcome (Value D)
  | i, sum, [] => floatEnd o i sum
  | i, sum, v :: rest =>
    if o = .div ∧ isZeroOperand v then some (.error .divBy0)
    else match v with
      | .num (.exact w) => mathFloat o (i + 1) (arith o sum (exactToDouble w)) rest
      | .float w => mathFloat o (i + 1) (arith o sum w) rest
      | .num (.dec _ _) => some (.error .floatMix)
      | _ => some (.error .illegalValue)

/-- The loop of `MATH_CMD`: `i` operands are in `sum`. -/
def mathLoop (o : Op) : ℕ → ℤ → List (Value D) → Outcome (Value D)
  | i, sum, [] => ofNumber (some (mathEnd o i sum))
  | i, sum, v :: rest =>
    if o = .div ∧ 0 < i ∧ isZeroOperand v then some (.error .divBy0)
    else match v with
      | .num (.exact (.fix n)) =>
        -- `i > 1 || init_i != 0`, where `i` counts this operand
        if 0 < i ∨ o = .mul then
          (fixOpOvf o sum n).bind fun
            | none => some (.error .overflow)
            | some sum => mathLoop o (i + 1) sum rest
        else mathLoop o (i + 1) n rest
      | .float w =>
        if 0 < i ∨ o = .mul then mathFloat o (i + 1) (arith o (ofInt sum) w) rest
        else mathFloat o (i + 1) w rest
      | .num (.exact (.rat num den)) =>
        if i = 0 then towerFold o 1 (.rat num den) rest
        else
          (Outcome.ofFold (exactStep o .exactOverflow (makeFixnum sum) (.rat num den))).andThen
            fun acc => towerFold o (i + 1) acc rest
      | .num (.dec c s) =>
        if i = 0 then decimalFold o 1 (c, s) rest
        else
          (decOfInt sum).bind fun si =>
            (Outcome.ofFold (decStep o si (c, s))).andThen fun acc => decimalFold o (i + 1) acc rest
      | _ => some (.error .illegalValue)

/-- `pluscmd`, `minuscmd`, `multiplycmd` and `dividecmd` -/
def mathCmd (o : Op) (args : List (Value D)) : Outcome (Value D) :=
  mathLoop o 0 (if o = .mul then 1 else 0) args

/-! ## Comparisons -/

/-- The sign of a three-way comparison. -/
def threeWay (a b : ℤ) : ℤ := if a < b then -1 else if b < a then 1 else 0

/-- `rat_cmp` -/
def ratCmp (a b : Exact) : Option ℤ := do
  let lhs ← checked 128 (a.parts.1 * b.parts.2)
  let rhs ← checked 128 (b.parts.1 * a.parts.2)
  return threeWay lhs rhs

/-- The last lines of `dec_cmp`, for operands that do not align. -/
def decCmpDouble (D : Type) [Double D] (a b : ℤ × ℤ) : ℤ :=
  let da : D := arith .mul (ofInt a.1) (pow (ofInt 10) (neg (ofInt a.2)))
  let db : D := arith .mul (ofInt b.1) (pow (ofInt 10) (neg (ofInt b.2)))
  if lt da db then -1 else if lt db da then 1 else 0

/-- `dec_cmp` -/
def decCmp (D : Type) [Double D] (a b : ℤ × ℤ) : Option ℤ :=
  if a.2 = b.2 then some (threeWay a.1 b.1)
  else (decAlign a b).map fun
    | some (ca, cb, _) => threeWay ca cb
    | none => decCmpDouble D a b

/-- The sign of `strcmp`. -/
def strcmp : List UInt8 → List UInt8 → ℤ
  | [], [] => 0
  | [], _ :: _ => -1
  | _ :: _, [] => 1
  | a :: as, b :: bs => if a = b then strcmp as bs else threeWay a.toNat b.toNat

/-- A number as a double, in a comparison. -/
def numberToDouble : Value D → Option (Option D)
  | .num (.exact e) => some (some (exactToDouble e))
  | .num (.dec c s) => (decToDouble c s).map some
  | .float f => some (some f)
  | _ => some none

/-- The difference of two numbers as doubles; the inner `none` is a type that does not compare. -/
def differenceOf (a b : Value D) : Option (Option D) := do
  let x ← numberToDouble a
  let y ← numberToDouble b
  return do return arith .sub (← x) (← y)

/-- `alc_pair_cmp`; the inner `none` is a type mismatch. -/
def pairCmp : Value D → Value D → Option (Option D)
  | .num (.dec c s), .num (.dec c' s') => (decCmp D (c, s) (c', s')).map fun n => some (ofInt n)
  | .num (.exact a), .num (.exact b) => (ratCmp a b).map fun n => some (ofInt n)
  | .str s, .str t => some (some (ofInt (strcmp s.bytes t.bytes)))
  | .char c, .char d => some (some (arith .sub (ofInt c) (ofInt d)))
  | a, b => differenceOf a b

/-- `<`, `>`, `<=` and `>=` -/
inductive Cmp
  | lt
  | gt
  | le
  | ge
  deriving DecidableEq

namespace Cmp

/-- The comparison of two integers. -/
def int : Cmp → ℤ → ℤ → Bool
  | lt, a, b => a < b
  | gt, a, b => b < a
  | le, a, b => a ≤ b
  | ge, a, b => b ≤ a

/-- The comparison of two doubles. -/
def double : Cmp → D → D → Bool
  | lt, a, b => Double.lt a b
  | gt, a, b => Double.lt b a
  | le, a, b => Double.le a b
  | ge, a, b => Double.le b a

def name : Cmp → String
  | lt => "<"
  | gt => ">"
  | le => "<="
  | ge => ">="

end Cmp

/-- The comparisons of `cmpcmd` from the operand `prev` on. -/
def cmpFrom (c : Cmp) : Value D → List (Value D) → Outcome (Value D)
  | _, [] => some (.ok (.truth true))
  | prev, v :: rest =>
    (pairCmp prev v).bind fun
      | none => some (.error .compareIncompat)
      | some d => if c.double d (ofInt 0) then cmpFrom c v rest else some (.ok (.truth false))

/-- `cmpcmd` -/
def cmpCmd (c : Cmp) : List (Value D) → Outcome (Value D)
  | [] => some (.ok (.truth true))
  | v :: rest => cmpFrom c v rest

/-! ## `mod`, `abs`, `max` and `min` -/

/-- `MAKE_FIX (va - (va / vb) * vb)` -/
def fixMod (a b : ℤ) : Exact := makeFixnum (a - a.tdiv b * b)

/-- `modcmd` -/
def modCmd : List (Value D) → Outcome (Value D)
  | a :: b :: _ =>
    match a, b with
    | .num (.exact (.fix m)), .num (.exact (.fix n)) =>
      if n ≠ 0 then some (.ok (.num (.exact (fixMod m n))))
      else doubles a b
    | _, _ => doubles a b
  | _ => some (.error .modMissing)
where
  doubles (a b : Value D) : Outcome (Value D) :=
    match coerce a, coerce b with
    | some x, some y =>
      if isZero y then some (.error .moduloByZero) else some (.ok (.float (fmod x y)))
    | _, _ => some (.error .modOperands)

/-- The absolute value of a fixnum. -/
def fixAbs (n : ℤ) : Outcome (Value D) :=
  if n < 0 ∧ ¬ FixFits (-n) then some (.error .overflow) else some (.ok (.fix |n|))

/-- `f < 0 ? -f : f` -/
def floatAbs (f : D) : D := if lt f (ofInt 0) then neg f else f

/-- `abscmd` -/
def absCmd : List (Value D) → Outcome (Value D)
  | [] => some (.error .absMissing)
  | .null :: _ => some (.error .absMissing)
  | .num (.exact (.fix n)) :: _ => fixAbs n
  | .float f :: _ => some (.ok (.float (floatAbs f)))
  | _ :: _ => some (.error .absOperand)

/-- `alc_numlt`; `none` is a type error. -/
def numLt : Value D → Value D → Option Bool
  | .num (.exact (.fix m)), .num (.exact (.fix n)) => some (m < n)
  | a, b =>
    match coerce a, coerce b with
    | some x, some y => some (lt x y)
    | _, _ => none

/-- The loop of `maxcmd` and `mincmd`. -/
def minMaxFrom (isMax : Bool) : Value D → List (Value D) → Outcome (Value D)
  | best, [] => some (.ok best)
  | best, v :: rest =>
    match if isMax then numLt best v else numLt v best with
    | none => some (.error (.nonNumeric isMax))
    | some true => minMaxFrom isMax v rest
    | some false => minMaxFrom isMax best rest

/-- `maxcmd` and `mincmd` -/
def minMaxCmd (isMax : Bool) : List (Value D) → Outcome (Value D)
  | [] => some (.error (.minMaxMissing isMax))
  | v :: rest => minMaxFrom isMax v rest

def maxCmd (args : List (Value D)) : Outcome (Value D) := minMaxCmd true args

def minCmd (args : List (Value D)) : Outcome (Value D) := minMaxCmd false args

/-! ## Operands without floats -/

theorem towerFold_numbers (o : Op) (count : ℕ) (acc : Exact) (ns : List Number) :
    (towerFold o count acc (ns.map .num) : Outcome (Value D)) =
      ofNumber (Numeric.towerFold o count acc ns) := by
  induction ns generalizing count acc with
  | nil => rfl
  | cons n ns ih =>
    cases n with
    | dec c s => rfl
    | exact w =>
      rw [List.map_cons, towerFold, Numeric.towerFold]
      rcases exactStep o .exactOverflowNoBignum acc w with _ | _ | r
      · rfl
      · rfl
      · exact ih (count + 1) r

omit [Double D] in
theorem decimalFold_numbers (o : Op) (count : ℕ) (acc : ℤ × ℤ) (ns : List Number) :
    (decimalFold o count acc (ns.map .num) : Outcome (Value D)) =
      ofNumber (Numeric.decimalFold o count acc ns) := by
  induction ns generalizing count acc with
  | nil => rfl
  | cons n ns ih =>
    cases n with
    | dec c s =>
      rw [List.map_cons, decimalFold, Numeric.decimalFold]
      rcases decStep o acc (c, s) with _ | _ | r
      · rfl
      · rfl
      · exact ih (count + 1) r
    | exact w =>
      cases w with
      | rat num den => rfl
      | fix n =>
        rw [List.map_cons, decimalFold, Numeric.decimalFold]
        cases decOfInt n with
        | none => rfl
        | some wd =>
          rw [Option.bind_some, Option.bind_some]
          rcases decStep o acc wd with _ | _ | r
          · rfl
          · rfl
          · exact ih (count + 1) r

theorem mathLoop_numbers (o : Op) (i : ℕ) (sum : ℤ) (ns : List Number) :
    (mathLoop o i sum (ns.map .num) : Outcome (Value D)) = ofNumber (Numeric.mathLoop o i sum ns) := by
  induction ns generalizing i sum with
  | nil => rfl
  | cons n ns ih =>
    cases n with
    | dec c s =>
      have hzero : ¬ (o = .div ∧ 0 < i ∧ isZeroOperand (.dec c s : Value D)) := by simp [isZeroOperand]
      rw [List.map_cons, mathLoop, if_neg hzero, Numeric.mathLoop]
      split
      · exact decimalFold_numbers o 1 (c, s) ns
      · cases decOfInt sum with
        | none => rfl
        | some si =>
          rw [Option.bind_some, Option.bind_some]
          rcases decStep o si (c, s) with _ | _ | r
          · rfl
          · rfl
          · exact decimalFold_numbers o (i + 1) r ns
    | exact w =>
      cases w with
      | rat num den =>
        have hzero : ¬ (o = .div ∧ 0 < i ∧ isZeroOperand (.rat num den : Value D)) := by
          simp [isZeroOperand]
        rw [List.map_cons, mathLoop, if_neg hzero, Numeric.mathLoop]
        split
        · exact towerFold_numbers o 1 (.rat num den) ns
        · rcases exactStep o .exactOverflow (makeFixnum sum) (.rat num den) with _ | _ | r
          · rfl
          · rfl
          · exact towerFold_numbers o (i + 1) r ns
      | fix n =>
        rw [List.map_cons, mathLoop, Numeric.mathLoop]
        simp only [isZeroOperand, decide_eq_true_eq]
        split
        · rfl
        · split
          · rcases fixOpOvf o sum n with _ | _ | r
            · rfl
            · rfl
            · exact ih (i + 1) r
          · exact ih (i + 1) n

/-- **Without floats, the builtins are the folds over numbers.** -/
theorem mathCmd_numbers (o : Op) (ns : List Number) :
    (mathCmd o (ns.map .num) : Outcome (Value D)) = ofNumber (Numeric.mathCmd o ns) :=
  mathLoop_numbers o 0 _ ns

end Builtin

end Alcove.Numeric
