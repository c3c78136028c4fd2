import Alcove.Value.Exp

/-!
# Builders of lists, vectors and deques

`list`, `cons`, `vec`, `vector`, `deque` and the operations on the two ends of a deque, over element
values that are evaluated already. Either shape of nil is stored as it comes: as a NULL pointer, the
value of `cdr` on the last pair of a list, or as the singleton. Compiled bodies build lists and
vectors from the operand stack (`opCons`, `opList`, `opVecNew`).

**Main results:** `opList_stack` and `opVecNew_stack`. The opcodes build what the builtins build.
-/

namespace Alcove.Sequence

/-- How a builtin fails: with an error of its own, or with one that a callback raised. -/
inductive Failure
  | illegalValue (message : String)
  | numberExpected (message : String)
  | raised (error : Exp)

/-! ## Lists -/

/-- `(list ...)` -/
def listcmd (args : List Exp) : Exp := Exp.ofList args

/-- `(cons a b)`: any tail that is not nil is kept. -/
def conscmd (a : Exp) : Exp → Exp
  | .null => .pair a .null
  | .nil => .pair a .null
  | b => .pair a b

/-- `(cdr a)`, from either tier: NULL for what is no pair, and behind the last pair of a list. -/
def cdrcmd : Exp → Exp
  | .pair _ next => next
  | _ => .null

/-- `l_list`: the operands are the upper `n` of the stack, the last one on top. -/
def opList (n : ℕ) (stack : List Exp) : List Exp :=
  (if n = 0 then .nil else Exp.cells .null (stack.take n).reverse) :: stack.drop n

/-- `l_cons` -/
def opCons : List Exp → List Exp
  | b :: a :: stack => conscmd a b :: stack
  | stack => stack

theorem opList_stack (args stack : List Exp) :
    opList args.length (args.reverse ++ stack) = listcmd args :: stack := by
  have htake : (args.reverse ++ stack).take args.length = args.reverse := by
    rw [← List.length_reverse, List.take_left]
  have hdrop : (args.reverse ++ stack).drop args.length = stack := by
    rw [← List.length_reverse, List.drop_left]
  rw [opList, htake, hdrop, List.reverse_reverse, listcmd]
  cases args <;> rfl

/-! ## Vectors -/

/-- `vec_get_boxed` of an integer cell -/
def boxI64 (v : ℤ) : Exp := if fixFits v then .fix (makeFix v) else .float (doubleOfInt v)

/-- `FIX_VAL` of the cells, when all are fixnums -/
def allFix : List Exp → Option (List Fixnum)
  | [] => some []
  | .fix n :: xs => (allFix xs).map (n :: ·)
  | _ => none

/-- The cells as doubles, when all are numbers -/
def allNum : List Exp → Option (List UInt64)
  | [] => some []
  | .fix n :: xs => (allNum xs).map (doubleOfInt n.1 :: ·)
  | .float b :: xs => (allNum xs).map (b :: ·)
  | _ => none

/-- `vec_tighten`: the narrowest kind of vector that holds the cells. -/
def vecTighten (cells : List Exp) : Exp :=
  if cells.isEmpty then .vector cells
  else match allFix cells with
    | some ns => .vectorI64 (ns.map (·.1))
    | none => match allNum cells with
      | some ds => .vectorF64 ds
      | none => .vector cells

/-- `(vector ...)` -/
def vectorcmd (args : List Exp) : Exp := vecTighten args

/-- `make_vector`: the kind is that of the filler; the number of cells is limited. -/
def makeVector (n : ℕ) (fill : Exp) : Option Exp :=
  if 2 ^ 31 ≤ n then none
  else some <| match fill with
    | .fix v => .vectorI64 (List.replicate n v.1)
    | .float b => .vectorF64 (List.replicate n b)
    | fill => .vector (List.replicate n fill)

/-- `(vec n init)` -/
def veccmd (n fill : Exp) : Except Failure Exp :=
  match n with
  | .fix n => match makeVector n.1.toNat fill with
    | some v => .ok v
    | none => .error (.illegalValue "(vec n ...): n is too large or alloc failed")
  | _ => .error (.numberExpected "(vec n init): n must be a number")

/-- `l_vec_new` -/
def opVecNew : List Exp → Except Failure (List Exp)
  | fill :: n :: stack => match n with
    | .fix n => match makeVector n.1.toNat fill with
      | some v => .ok (v :: stack)
      | none => .error (.illegalValue "(vec n ...): n is too large or alloc failed")
    | _ => .error (.illegalValue "vec: n must be a number")
  | stack => .ok stack

theorem opVecNew_stack {n fill v : Exp} {stack : List Exp} :
    opVecNew (fill :: n :: stack) = .ok (v :: stack) ↔ veccmd n fill = .ok v := by
  cases n with
  | fix n =>
    rw [opVecNew, veccmd]
    cases makeVector n.1.toNat fill with
    | none => exact ⟨fun h => (by cases h), fun h => (by cases h)⟩
    | some w =>
      simp only [Except.ok.injEq, List.cons.injEq, and_true]
  | _ => exact ⟨fun h => (by cases h), fun h => (by cases h)⟩

/-! ## Deques -/

/-- `(deque ...)` -/
def dequecmd (args : List Exp) : Exp := .deque args

/-- `DEQUE_PUSH_CMD` of a deque that nobody watches -/
def dequePush (name : String) (push : List Exp → Exp → List Exp) (d v : Exp) : Except Failure Exp :=
  match d with
  | .deque vals => .ok (.deque (push vals v))
  | _ => .error (.illegalValue (name ++ ": first arg must be a deque"))

/-- `(push-right! d x)` -/
def pushrightbangcmd : Exp → Exp → Except Failure Exp :=
  dequePush "push-right!" fun vals v => vals ++ [v]

/-- `(push-left! d x)` -/
def pushleftbangcmd : Exp → Exp → Except Failure Exp :=
  dequePush "push-left!" fun vals v => v :: vals

/-- `DEQUE_POP_CMD` of a deque that nobody watches: the value at the end, or nil, and the rest. -/
def dequePop (name : String) (last : List Exp → Option Exp) (rest : List Exp → List Exp) (d : Exp) :
    Except Failure (Exp × Exp) :=
  match d with
  | .deque vals => .ok ((last vals).getD .nil, .deque (rest vals))
  | _ => .error (.illegalValue (name ++ ": arg must be a deque"))

/-- `(pop-right! d)` -/
def poprightbangcmd : Exp → Except Failure (Exp × Exp) :=
  dequePop "pop-right!" List.getLast? List.dropLast

/-- `(pop-left! d)` -/
def popleftbangcmd : Exp → Except Failure (Exp × Exp) :=
  dequePop "pop-left!" List.head? List.tail

end Alcove.Sequence
