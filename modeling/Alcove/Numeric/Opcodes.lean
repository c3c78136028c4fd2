import Alcove.Numeric.Builtins

/-!
# Arithmetic in compiled code

How `compile_arith` and `compile_expr` compile a form of `+ - * / mod < > <= >= abs max min`, and what
the opcodes do with the operands on the stack. A form of `+`, `-`, `*` or `/` with more operands folds
them from the left; a form of two operands, a local variable and a small literal, is one fused opcode.

An operand is its value here, with what the compiler sees of it (`Arg`).
-/

namespace Alcove.Numeric

open Lib Double

/-- The heads of arithmetic forms and comparisons. -/
inductive Head
  | arith (o : Op)
  | mod
  | cmp (c : Builtin.Cmp)
  | abs
  | max
  | min
  deriving DecidableEq

/-- The texts in the errors of the opcodes. -/
def Op.name : Op → String
  | .add => "+"
  | .sub => "-"
  | .mul => "*"
  | .div => "/"

/-- An operand as the compiler sees it: a local variable, another symbol, a fixnum in the source, or
any other expression; with the value it has. -/
inductive Arg (D : Type)
  | slot (v : Value D)
  | symbol (v : Value D)
  | literal (n : ℤ)
  | form (v : Value D)

namespace Arg

variable {D : Type}

/-- The value of the operand. -/
def value : Arg D → Value D
  | .slot v => v
  | .symbol v => v
  | .literal n => .fix n
  | .form v => v

def isSymbol : Arg D → Bool
  | .slot _ => true
  | .symbol _ => true
  | _ => false

end Arg

/-- The interpreter's builtin. -/
def Head.builtin {D : Type} [Double D] : Head → List (Value D) → Outcome (Value D)
  | .arith o => Builtin.mathCmd o
  | .mod => Builtin.modCmd
  | .cmp c => Builtin.cmpCmd c
  | .abs => Builtin.absCmd
  | .max => Builtin.maxCmd
  | .min => Builtin.minCmd

namespace Opcode

variable {D : Type} [Double D]

/-! ## The compiler -/

/-- An instruction: `operand` stands for the code of an operand, `slotFix` reads a slot. -/
inductive Instr (D : Type)
  | operand (v : Value D)
  | op (h : Head)
  | slotFix (h : Head) (slot : Value D) (imm : ℤ)

/-- `fuse_slot_fix` has an opcode for the head. -/
def fuses : Head → Bool
  | .arith .add => true
  | .arith .sub => true
  | .cmp _ => true
  | _ => false

/-- The head takes two operands only. -/
def binaryOnly : Head → Bool
  | .mod => true
  | .cmp _ => true
  | _ => false

/-- `(+ K sym)` becomes `(+ sym K)`. -/
def canonical (h : Head) : List (Arg D) → List (Arg D)
  | [.literal n, a] =>
    if (h = .arith .add ∨ h = .arith .mul) ∧ a.isSymbol then [a, .literal n] else [.literal n, a]
  | args => args

/-- The slot and the literal of a fused instruction. -/
def fused (h : Head) : List (Arg D) → Option (Value D × ℤ)
  | [.slot v, .literal n] => if fuses h ∧ Fits 16 n then some (v, n) else none
  | _ => none

/-- The operands from the third one on are folded in. -/
def foldCode (h : Head) (rest : List (Arg D)) : List (Instr D) :=
  rest.flatMap fun a => [.operand a.value, .op h]

/-- `compile_arith`; `none` where the compilation fails. -/
def compileArith (h : Head) (args : List (Arg D)) : Option (List (Instr D)) :=
  if binaryOnly h ∧ 2 < args.length then none
  else
    match fused h (canonical h args), canonical h args with
    | some (v, n), _ => some [.slotFix h v n]
    | none, a :: b :: rest =>
      some (.operand a.value :: .operand b.value :: .op h :: foldCode h rest)
    | none, _ => none

/-- The code of a form; `none` where it has no code of its own. -/
def compile : Head → List (Arg D) → Option (List (Instr D))
  | .abs, [a] => some [.operand a.value, .op .abs]
  | .abs, _ => none
  | .max, [a, b] => some [.operand a.value, .operand b.value, .op .max]
  | .max, _ => none
  | .min, [a, b] => some [.operand a.value, .operand b.value, .op .min]
  | .min, _ => none
  | h, args => compileArith h args

/-! ## The opcodes -/

/-- A rational or a decimal. -/
def isTower : Value D → Bool
  | .num (.exact (.rat _ _)) => true
  | .num (.dec _ _) => true
  | _ => false

/-- Both operands as doubles; `COERCE_TO_DOUBLE` -/
def doubles (opname : String) (a b : Value D) (k : D → D → Outcome (Value D)) : Outcome (Value D) :=
  match coerce a, coerce b with
  | some x, some y => k x y
  | _, _ => some (.error (.illegalIn opname))

/-- A checked operation on two fixnums. -/
def fixArith (o : Op) (m n : ℤ) : Outcome (Value D) :=
  (fixOpOvf o m n).map fun
    | some r => if FixFits r then .ok (.fix r) else .error .overflow
    | none => .error .overflow

/-- `BIN_ARITH` -/
def binArith (o : Op) (a b : Value D) : Outcome (Value D) :=
  match a, b with
  | .num (.exact (.fix m)), .num (.exact (.fix n)) => fixArith o m n
  | _, _ =>
    if isTower a ∨ isTower b then Builtin.mathCmd o [a, b]
    else doubles o.name a b fun x y => some (.ok (.float (arith o x y)))

/-- `l_div` -/
def div (a b : Value D) : Outcome (Value D) :=
  match a, b with
  | .num (.exact (.fix m)), .num (.exact (.fix n)) =>
    if n = 0 then some (.error .divBy0) else some (.ok (.num (.exact (makeFixnum (m.tdiv n)))))
  | _, _ =>
    if isTower a ∨ isTower b then Builtin.mathCmd .div [a, b]
    else doubles "/" a b fun x y =>
      if isZero y then some (.error .divBy0) else some (.ok (.float (arith .div x y)))

/-- `l_mod` -/
def mod (a b : Value D) : Outcome (Value D) :=
  match a, b with
  | .num (.exact (.fix m)), .num (.exact (.fix n)) =>
    if n = 0 then some (.error .moduloByZero) else some (.ok (.num (.exact (Builtin.fixMod m n))))
  | _, _ => doubles "mod" a b fun x y =>
      if isZero y then some (.error .moduloByZero) else some (.ok (.float (fmod x y)))

/-- `CMP_OP` -/
def cmpOp (c : Builtin.Cmp) (a b : Value D) : Outcome (Value D) :=
  match a, b with
  | .num (.exact (.fix m)), .num (.exact (.fix n)) => some (.ok (.truth (c.int m n)))
  | _, _ =>
    match coerce a, coerce b with
    | some x, some y => some (.ok (.truth (c.double x y)))
    | _, _ => (Builtin.pairCmp a b).map fun
      | none => .error .compareIncompat
      | some d => .ok (.truth (c.double d (ofInt 0)))

/-- `l_abs` -/
def abs (a : Value D) : Outcome (Value D) :=
  match a with
  | .num (.exact (.fix n)) => Builtin.fixAbs n
  | .float f => some (.ok (.float (Builtin.floatAbs f)))
  | _ => some (.error .absOperand)

/-- `l_max` -/
def max (a b : Value D) : Outcome (Value D) :=
  match Builtin.numLt a b with
  | none => some (.error (.nonNumeric true))
  | some less => some (.ok (if less then b else a))

/-- `l_min` -/
def min (a b : Value D) : Outcome (Value D) :=
  match Builtin.numLt b a with
  | none => some (.error (.nonNumeric false))
  | some less => some (.ok (if less then b else a))

/-- An opcode of two operands; `l_abs` takes one. -/
def binary : Head → Value D → Value D → Outcome (Value D)
  | .arith .div => div
  | .arith o => binArith o
  | .mod => mod
  | .cmp c => cmpOp c
  | .max => max
  | .min => min
  | .abs => fun _ _ => none

/-- `SLOT_FIX_NUMERIC` -/
def slotFix : Head → Value D → ℤ → Outcome (Value D)
  | .arith o, .num (.exact (.fix m)), imm => fixArith o m imm
  | .arith o, .float f, imm => some (.ok (.float (arith o f (ofInt imm))))
  | .arith o, _, _ => some (.error (.illegalIn o.name))
  | .cmp c, .num (.exact (.fix m)), imm => some (.ok (.truth (c.int m imm)))
  | .cmp c, .float f, imm => some (.ok (.truth (c.double f (ofInt imm))))
  | .cmp c, _, _ => some (.error (.illegalIn c.name))
  -- there are no other fused opcodes
  | _, _, _ => none

/-- A run of the code from a stack; the result is what it leaves on top. -/
def exec : List (Instr D) → List (Value D) → Outcome (Value D)
  | [], v :: _ => some (.ok v)
  | [], [] => none
  | .operand v :: code, stack => exec code (v :: stack)
  | .slotFix h v imm :: code, stack =>
    (slotFix h v imm).andThen fun r => exec code (r :: stack)
  | .op .abs :: code, a :: stack =>
    (abs a).andThen fun r => exec code (r :: stack)
  | .op h :: code, b :: a :: stack =>
    (binary h a b).andThen fun r => exec code (r :: stack)
  | .op _ :: _, _ => none

end Opcode

end Alcove.Numeric
