import Alcove.Lib.While
import Alcove.Objects.Mutators
import Alcove.Value.Utf8
import Mathlib.Data.Nat.Sqrt

/-!
# The builtins that the VM runs inline

`cons`, `car`, `cdr`, `list`, `vec-ref`, `vec-set!`, `vec-len`, `vec`, `sqrt-int`, `abs`, `max`,
`min` and `length` are written twice: as builtins of the interpreter (`builtin`), which return an
operand that is an error, and as opcodes over the operand stack (`opcode`), which test operands for
their types alone. The loops of `sqrt-int` and `length` run for a number of rounds at most (`fuel`).

The number of rounds is the only bound: storage always suffices.
-/

namespace Alcove.Inline

open Objects Lib

/-- A builtin with an opcode, and its operands. -/
inductive Form
  | cons (a b : Ptr)
  | car (a : Ptr)
  | cdr (a : Ptr)
  | list (args : List Ptr)
  | vecRef (v i : Ptr)
  | vecSet (v i x : Ptr)
  | vecLen (v : Ptr)
  | vec (n fill : Ptr)
  | sqrtInt (n : Ptr)
  | abs (a : Ptr)
  | max (a b : Ptr)
  | min (a b : Ptr)
  | length (a : Ptr)
  deriving DecidableEq

/-! ## Lists -/

/-- `make_node(a)` with `b` as its tail, where nil ends the list. -/
def consPair (a b : Ptr) (w : World) : Ptr × World :=
  w.alloc (.pair a (if b = .nil then .null else b))

/-- `cur->next = node` -/
def setNext (cur node : Ptr) (w : World) : World :=
  match cur, w.pairOf cur with
  | .ref i, some (content, _) => w.store i (.pair content node)
  | _, _ => w

/-- The nodes that the loop of `list` appends to `cur`. -/
def linkNodes : Ptr → List Ptr → World → World
  | _, [], w => w
  | cur, x :: xs, w =>
    let (node, w) := w.alloc (.pair x .null)
    linkNodes node xs (setNext cur node w)

/-- `(list ...)` of values. -/
def makeList (args : List Ptr) (w : World) : Ptr × World :=
  match args with
  | [] => (.nil, w)
  | x :: xs =>
    let (head, w) := w.alloc (.pair x .null)
    (head, linkNodes head xs w)

/-- The loop of `length` along `next`. -/
def countPairs (w : World) (fuel : ℕ) (xs : Ptr) : Option ℕ :=
  (whileLoop (fun s : Ptr × ℕ => some (w.pairOf s.1).isSome)
    (fun s => (w.pairOf s.1).map fun p => (p.2, s.2 + 1)) fuel (xs, 0)).map Prod.snd

/-- The length of what `length` takes, from either copy. -/
def lengthOf (fuel : ℕ) (xs : Ptr) (w : World) : Option Run :=
  if xs = .null ∨ xs = .nil then done (.ptr (.fix (makeFix 0))) w
  else match w.look xs with
    | some (.string text) => done (.ptr (.fix (makeFix (utf8Strlen text)))) w
    | some (.pair _ _) => (countPairs w fuel xs).bind fun n => done (.ptr (.fix (makeFix n))) w
    | some (.vector cells _) => done (.ptr (.fix (makeFix cells.length))) w
    | some (.blob bytes) => done (.ptr (.fix (makeFix bytes.length))) w
    | some (.deque vals) => done (.ptr (.fix (makeFix vals.length))) w
    | _ => done (.raise .illegalValue) w

/-! ## Vectors -/

/-- `make_vector` -/
def makeVector (n : ℤ) (fill : Ptr) (w : World) : Option (Ptr × World) :=
  if n < 0 ∨ 2 ^ 31 ≤ n then none
  else match fill, w.look fill with
    | .fix k, _ => some (w.alloc (.vector (.i64 (.replicate n.toNat k.1)) false))
    | _, some (.float bits) => some (w.alloc (.vector (.f64 (.replicate n.toNat bits)) false))
    | _, _ => some (w.alloc (.vector (.gen (.replicate n.toNat fill)) false))

/-- The vector of `n` cells, none of them for a negative `n`. -/
def vecNew (n : ℤ) (fill : Ptr) (w : World) : Option Run :=
  match makeVector (if n < 0 then 0 else n) fill w with
  | none => done (.raise .illegalValue) w
  | some (v, w) => done (.ptr v) w

/-- `vec-ref` after the evaluation of its operands, in either copy. -/
def vecGet (v i : Ptr) (w : World) : Option Run :=
  (vecSetOperands v i w).bind fun
    | .error e => done e w
    | .ok (j, n) =>
      let (r, w) := w.vecGetBoxed (w.cellsAt j) n
      done (.ptr r) w

/-- `vec-len` after the evaluation of its operand, in either copy. -/
def vecLength (v : Ptr) (w : World) : Option Run :=
  match w.vectorOf v with
  | none => done (.raise .illegalValue) w
  | some (_, cells, _) => done (.ptr (.fix (makeFix cells.length))) w

/-! ## Numbers -/

/-- `(uint64_t)z` -/
def toUint64 (z : ℤ) : ℕ := (z % 2 ^ 64).toNat

/-- `(uint64_t)z * (uint64_t)z` -/
def squareUint64 (z : ℤ) : ℕ := toUint64 z * toUint64 z % 2 ^ 64

/-- `(int64_t)sqrt((double)m)` for a double that is the whole number `m`: the root is rounded to 53
bits, and then truncated. -/
def truncSqrt (m : ℕ) : ℕ :=
  let s := 52 - m.sqrt.log2
  let q := (m * 4 ^ s).sqrt
  (if q * q + q < m * 4 ^ s then q + 1 else q) / 2 ^ s

/-- The estimate of the root of a fixnum. -/
def sqrtEstimate (n : ℤ) : ℕ := truncSqrt ((floatToInt64 (doubleOfInt n)).getD 0).toNat

/-- `while ((uint64_t)(r + 1) * (uint64_t)(r + 1) <= (uint64_t)n) r++;` -/
def sqrtUp (n : ℤ) (fuel : ℕ) (r : ℤ) : Option ℤ :=
  whileLoop (fun r => (checked 64 (r + 1)).map fun s => decide (squareUint64 s ≤ toUint64 n))
    (fun r => checked 64 (r + 1)) fuel r

/-- `while ((uint64_t)r * (uint64_t)r > (uint64_t)n) r--;` -/
def sqrtDown (n : ℤ) (fuel : ℕ) (r : ℤ) : Option ℤ :=
  whileLoop (fun r => some (decide (toUint64 n < squareUint64 r))) (fun r => checked 64 (r - 1)) fuel r

/-- The two loops of `sqrt-int`, from an estimate. -/
def sqrtLoops (n : ℤ) (fuel : ℕ) (r : ℤ) : Option ℤ := (sqrtUp n fuel r).bind (sqrtDown n fuel)

/-- `a < b` of doubles. -/
def floatLt (a b : UInt64) : Bool :=
  let key := fun x : UInt64 => if x < 0x8000000000000000 then (x.toNat : ℤ) else 2 ^ 63 - x.toNat
  !Hamt.isNaN a && !Hamt.isNaN b && decide (key a < key b)

/-- `alc_numlt`, without a value where it sets `err`. -/
def alcNumlt (a b : Ptr) (w : World) : Option Bool :=
  match a, b, w.doubleOf a, w.doubleOf b with
  | .fix m, .fix n, _, _ => some (decide (m.1 < n.1))
  | _, _, some da, some db => some (floatLt da db)
  | _, _, _, _ => none

/-- `max` of two values, in either copy. -/
def maxOf (a b : Ptr) (w : World) : Option Run :=
  match alcNumlt a b w with
  | none => done (.raise .illegalValue) w
  | some lt => done (.ptr (if lt then b else a)) w

/-- `min` of two values, in either copy. -/
def minOf (a b : Ptr) (w : World) : Option Run :=
  match alcNumlt b a w with
  | none => done (.raise .illegalValue) w
  | some lt => done (.ptr (if lt then b else a)) w

/-- `f < 0 ? -f : f` -/
def floatAbs (f : UInt64) : UInt64 := if floatLt f 0 then f ^^^ 0x8000000000000000 else f

/-- `abs` of a value that is not NULL, in either copy. -/
def absOf (a : Ptr) (w : World) : Option Run :=
  match a, w.look a with
  | .fix n, _ =>
    let av := if n.1 < 0 then -n.1 else n.1
    if n.1 < 0 ∧ !fixFits av then done (.raise .illegalValue) w
    else done (.ptr (.fix (makeFix av))) w
  | _, some (.float bits) =>
    let (r, w) := w.alloc (.float (floatAbs bits))
    done (.ptr r) w
  | _, _ => done (.raise .illegalValue) w

/-! ## The two copies -/

/-- A value that was made, with the world after it. -/
def returning (r : Ptr × World) : Option Run := done (.ptr r.1) r.2

/-- `EVAL_ARG_n` of evaluated operands: the first error among them is returned. -/
def evalArgs (ps : List Ptr) (body : World → Option Run) (w : World) : Option Run :=
  match ps.find? w.isError with
  | some e => done (.ptr e) w
  | none => body w

variable (call : Callback) (fuel : ℕ)

/-- The builtin of the interpreter. -/
def builtin : Form → World → Option Run
  | .cons a b => evalArgs [a, b] fun w => returning (consPair a b w)
  | .car a => evalArgs [a] fun w => done (.ptr (w.car a)) w
  | .cdr a => evalArgs [a] fun w => done (.ptr (w.cdr a)) w
  | .list args => evalArgs args fun w => returning (makeList args w)
  | .vecRef v i => evalArgs [v, i] (vecGet v i)
  | .vecSet v i x => vecSet call v i x
  | .vecLen v => evalArgs [v] (vecLength v)
  | .vec n fill => evalArgs [n, fill] fun w =>
    match n with
    | .fix k => vecNew k.1 fill w
    | _ => done (.raise .numberExpected) w
  | .sqrtInt n => evalArgs [n] fun w =>
    match n with
    | .fix k =>
      if k.1 < 0 then done (.ptr (.fix (makeFix 0))) w
      else (sqrtLoops k.1 fuel (sqrtEstimate k.1)).bind fun r => done (.ptr (.fix (makeFix r))) w
    | _ => done (.raise .numberExpected) w
  | .abs a => evalArgs [a] fun w =>
    if a = .null then done (.raise .missingParameter) w else absOf a w
  | .max a b => evalArgs [a, b] (maxOf a b)
  | .min a b => evalArgs [a, b] (minOf a b)
  | .length a => evalArgs [a] (lengthOf fuel a)

/-- The opcode of compiled code. -/
def opcode : Form → World → Option Run
  | .cons a b => fun w => returning (consPair a b w)
  | .car a => fun w => done (.ptr (w.car a)) w
  | .cdr a => fun w => done (.ptr (w.cdr a)) w
  | .list args => fun w => returning (makeList args w)
  | .vecRef v i => vecGet v i
  | .vecSet v i x => lVecSet v i x
  | .vecLen v => vecLength v
  | .vec n fill => fun w =>
    match n with
    | .fix k => vecNew k.1 fill w
    | _ => done (.raise .illegalValue) w
  | .sqrtInt n => fun w =>
    match n with
    | .fix k =>
      (sqrtLoops k.1 fuel (if k.1 < 0 then 0 else sqrtEstimate k.1)).bind fun r =>
        done (.ptr (.fix (makeFix r))) w
    | _ => done (.raise .illegalValue) w
  | .abs a => absOf a
  | .max a b => maxOf a b
  | .min a b => minOf a b
  | .length a => lengthOf fuel a

end Alcove.Inline
