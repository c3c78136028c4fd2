import Alcove.Lib.Loops
import Alcove.Vector.Cells

/-!
# The tensor builtins

Operations on whole vectors of numbers. Arguments are named, so two that are the same object have one name.
A box stands for its value here: a float in a box is written in place only when nothing else owns it.

Every builtin checks the lengths, turns an I64 target into doubles, and then runs one of several loops: one
on raw doubles when all vectors hold doubles, and one that asks for the kind of every element. The loops are
those of the source. A raw access to a cell that is something else ends in `none`.

* `readDouble`, `writeDouble`: an element of any kind.
* `TensorCall`, `exec`: the builtins.
-/

namespace Alcove.Vector

open Lib

/-- What is used of doubles: `fits` for a finite number in the range of `int64_t`. -/
class Arith (D : Type) extends Doubles D, Add D, Sub D, Mul D, Div D where
  exp : D → D
  lt : D → D → Bool
  le : D → D → Bool
  fits : D → Bool

/-- The value in a boxed cell. -/
inductive Boxed (D : Type)
  | fix (n : Fixnum)
  | float (x : D)
  | other

/-- A cell. -/
inductive Cell (D : Type)
  | int (n : ℤ)
  | double (x : D)
  | box (e : Boxed D)

/-- A vector: its kind, window and storage. -/
structure Tensor (D : Type) where
  kind : Kind
  start : ℕ
  len : ℕ
  cells : List (Cell D)

/-- The vectors, and the flag that a builtin raises for an element that is no number. -/
structure Mem (ι D : Type) where
  vec : ι → Tensor D
  err : Bool

/-- What a builtin returns: a number, an index, a fresh vector of doubles or its target. -/
inductive Result (ι D : Type)
  | float (x : D)
  | index (i : ℤ)
  | fresh (xs : List D)
  | vector (v : ι)

/-- The errors of the builtins. -/
inductive TensorError
  | badArgs
  | shape
  | tooLarge
  | nonNumeric
  deriving DecidableEq

/-- What a builtin ends with. -/
abbrev Outcome (ι D : Type) := Except TensorError (Result ι D)

/-- A computation on the vectors. -/
abbrev Kernel (ι D α : Type) := StateT (Mem ι D) Option α

variable {ι D : Type} [Arith D]

/-- `0.0` -/
def zero : D := Doubles.ofInt 0

/-- `1.0` -/
def one : D := Doubles.ofInt 1

/-- A scalar argument. -/
def Boxed.toDouble : Boxed D → Option D
  | .fix n => some (Doubles.ofInt n.1)
  | .float x => some x
  | .other => none

def Cell.asInt : Cell D → Option ℤ
  | .int n => some n
  | _ => none

/-! ## Elements -/

namespace Kernel

/-- `vec_kind` -/
def kind (v : ι) : Kernel ι D Kind := fun σ => some ((σ.vec v).kind, σ)

/-- `vec_len` -/
def len (v : ι) : Kernel ι D ℕ := fun σ => some ((σ.vec v).len, σ)

/-- The flag. -/
def failed : Kernel ι D Bool := fun σ => some (σ.err, σ)

/-- `*err = 1` -/
def fail : Kernel ι D Unit := fun σ => some ((), { σ with err := true })

/-- A cell of the window. -/
def cell (v : ι) (i : ℕ) : Kernel ι D (Cell D) := fun σ =>
  ((σ.vec v).cells[(σ.vec v).start + i]?).map fun c => (c, σ)

/-- A raw double. -/
def double (v : ι) (i : ℕ) : Kernel ι D D := do
  match ← cell v i with
  | .double x => pure x
  | _ => failure

/-- A raw integer. -/
def int (v : ι) (i : ℕ) : Kernel ι D ℤ := do
  match ← cell v i with
  | .int n => pure n
  | _ => failure

/-- A raw integer, converted. -/
def intDouble (v : ι) (i : ℕ) : Kernel ι D D := do return Doubles.ofInt (← int v i)

/-- `gen_cell_as_double` -/
def genDouble (v : ι) (i : ℕ) : Kernel ι D D := do
  match ← cell v i with
  | .box (.fix n) => pure (Doubles.ofInt n.1)
  | .box (.float x) => pure x
  | .box .other => do
    fail
    return zero
  | _ => failure

/-- `vec_read_double` -/
def readDouble (v : ι) (i : ℕ) : Kernel ι D D := do
  match ← kind v with
  | .f64 => double v i
  | .i64 => intDouble v i
  | .gen => genDouble v i

variable [DecidableEq ι]

/-- A vector that is replaced. -/
def replace (v : ι) (t : Tensor D) : Kernel ι D Unit := fun σ =>
  some ((), { σ with vec := Function.update σ.vec v t })

/-- A cell of the window that is overwritten. -/
def put (v : ι) (i : ℕ) (c : Cell D) : Kernel ι D Unit := fun σ =>
  let t := σ.vec v
  if t.start + i < t.cells.length then replace v { t with cells := t.cells.set (t.start + i) c } σ else none

/-- The store of a raw double; over a pointer it is a fault. -/
def setDouble (v : ι) (i : ℕ) (x : D) : Kernel ι D Unit := do
  match ← kind v with
  | .f64 => put v i (.double x)
  | _ => failure

/-- `vec_write_double`; an integer cell keeps what it has when the double is out of range. -/
def writeDouble (v : ι) (i : ℕ) (x : D) : Kernel ι D Unit := do
  match ← kind v with
  | .f64 => put v i (.double x)
  | .i64 => if Arith.fits x then put v i (.int (Doubles.toInt x)) else pure ()
  | .gen => put v i (.box (.float x))

end Kernel

namespace Tensor

variable (t : Tensor D)

/-- The cells in the window. -/
def window : List (Cell D) := (t.cells.drop t.start).take t.len

/-- Storage of the same size with `ws` in the window. -/
def store (kind : Kind) (fill : Cell D) (ws : List (Cell D)) : Tensor D :=
  { t with
    kind
    cells := List.replicate t.start fill ++ ws ++ List.replicate (t.cells.length - (t.start + t.len)) fill }

/-- `vec_promote_i64_to_f64` of an I64 vector. -/
def promoteI64ToF64 : Option (Tensor D) := do
  let ns ← t.window.mapM Cell.asInt
  return t.store .f64 (.double zero) (ns.map fun n => .double (Doubles.ofInt n))

/-- `FIX_FITS(v) ? MAKE_FIX(v) : make_floatf((double)v)`, and the box of a double. -/
def boxed : Cell D → Boxed D
  | .int n => if fixFits n then .fix (makeFix n) else .float (Doubles.ofInt n)
  | .double x => .float x
  | .box e => e

/-- The boxes that `vec_promote_to_gen` makes of a typed vector. -/
def promoteToGen : Tensor D := t.store .gen (.box .other) (t.window.map fun c => .box (boxed c))

end Tensor

namespace Kernel

variable [DecidableEq ι]

/-- `VEC_REQUIRE_FLOAT_WRITABLE` -/
def requireFloatWritable (v : ι) : Kernel ι D Unit := fun σ =>
  if (σ.vec v).kind = .i64 then (σ.vec v).promoteI64ToF64.bind fun t => replace v t σ else some ((), σ)

/-- `vec_get_boxed` -/
def getBoxed (v : ι) (i : ℕ) : Kernel ι D (Boxed D) := do return Tensor.boxed (← cell v i)

/-- `vec_promote_to_gen` of a typed vector. -/
def promote (v : ι) : Kernel ι D Unit := fun σ => replace v (σ.vec v).promoteToGen σ

/-- `vec_set_boxed` -/
def setBoxed (v : ι) (i : ℕ) (e : Boxed D) : Kernel ι D Unit := do
  match ← kind v, e with
  | .gen, e => put v i (.box e)
  | .i64, .fix n => put v i (.int n.1)
  | .f64, .float x => put v i (.double x)
  | .f64, .fix n => put v i (.double (Doubles.ofInt n.1))
  | _, e => do
    promote v
    put v i (.box e)

/-- The end of a builtin: the error for an element that is no number, or the result. -/
def finish (r : Result ι D) : Kernel ι D (Outcome ι D) := do
  if ← failed then return .error .nonNumeric else return .ok r

/-! ## Reductions -/

/-- `vecdotcmd` -/
def vecdot (a b : ι) : Kernel ι D (Outcome ι D) := do
  let n ← len a
  if n ≠ (← len b) then return .error .shape
  else do
    let s ← (match ← kind a, ← kind b with
      | .f64, .f64 => loop n (fun i s => do return s + (← double a i) * (← double b i)) zero
      | .gen, .gen => loop n (fun i s => do return s + (← genDouble a i) * (← genDouble b i)) zero
      | .i64, .f64 => loop n (fun i s => do return s + (← intDouble a i) * (← double b i)) zero
      | .f64, .i64 => loop n (fun i s => do return s + (← double a i) * (← intDouble b i)) zero
      | _, _ => loop n (fun i s => do return s + (← readDouble a i) * (← readDouble b i)) zero)
    finish (.float s)

/-- `vecsumcmd` -/
def vecsum (v : ι) : Kernel ι D (Outcome ι D) := do
  let n ← len v
  let s ← (if (← kind v) = .f64 then loop n (fun i s => do return s + (← double v i)) zero
    else loopUnless failed n (fun i s => do return s + (← readDouble v i)) zero)
  finish (.float s)

/-- The comparison of `vecargmaxcmd`, on the index and the value of the best one. -/
def better (i : ℕ) (x : D) (best : ℤ × D) : ℤ × D :=
  if best.1 < 0 ∨ Arith.lt best.2 x then (i, x) else best

/-- `vecargmaxcmd` -/
def vecargmax (v : ι) : Kernel ι D (Outcome ι D) := do
  let n ← len v
  let best ← (if (← kind v) = .f64 then loop n (fun i best => do return better i (← double v i) best) (-1, zero)
    else loopUnless failed n (fun i best => do
      let x ← readDouble v i
      if ← failed then return best else return better i x best) (-1, zero))
  finish (.index best.1)

/-! ## Element by element -/

/-- The loops of `vecaxpycmd`, of `VEC_BINOP_INPLACE` and of `veccountlecmd`: `y[i] = op(y[i], x[i])`. -/
def binaryLoops (op : D → D → D) (n : ℕ) (y x : ι) : Kernel ι D Unit := do
  if (← kind y) = .f64 ∧ (← kind x) = .f64 then
    loop n (fun i _ => do setDouble y i (op (← double y i) (← double x i))) ()
  else loopUnless failed n (fun i _ => do
    let yv ← readDouble y i
    let xv ← readDouble x i
    if ← failed then return () else writeDouble y i (op yv xv)) ()

/-- An elementwise update of `y` by `x`, of the same length. -/
def binaryInplace (op : D → D → D) (y x : ι) : Kernel ι D (Outcome ι D) := do
  let n ← len y
  if n ≠ (← len x) then return .error .shape
  else do
    requireFloatWritable y
    binaryLoops op n y x
    finish (.vector y)

/-- `vecaxpycmd` -/
def vecaxpy (y : ι) (a : Boxed D) (x : ι) : Kernel ι D (Outcome ι D) :=
  match a.toDouble with
  | none => return .error .badArgs
  | some a => binaryInplace (fun yv xv => yv + a * xv) y x

/-- `vecaddcmd` -/
def vecadd (y x : ι) : Kernel ι D (Outcome ι D) := binaryInplace (· + ·) y x

/-- `vecsubcmd` -/
def vecsub (y x : ι) : Kernel ι D (Outcome ι D) := binaryInplace (· - ·) y x

/-- `vecmulcmd` -/
def vecmul (y x : ι) : Kernel ι D (Outcome ι D) := binaryInplace (· * ·) y x

/-- `veccountlecmd` -/
def veccountle (c s : ι) (lim : Boxed D) : Kernel ι D (Outcome ι D) :=
  match lim.toDouble with
  | none => return .error .badArgs
  | some lim => binaryInplace (fun cv sv => cv + if Arith.le sv lim then one else zero) c s

/-- `vecscalecmd` -/
def vecscale (v : ι) (a : Boxed D) : Kernel ι D (Outcome ι D) :=
  match a.toDouble with
  | none => return .error .badArgs
  | some a => do
    requireFloatWritable v
    let n ← len v
    if (← kind v) = .f64 then loop n (fun i _ => do setDouble v i ((← double v i) * a)) ()
    else loopUnless failed n (fun i _ => do
      let x ← readDouble v i
      if ← failed then return () else writeDouble v i (x * a)) ()
    finish (.vector v)

/-- `vecrelucmd` -/
def vecrelu (v : ι) : Kernel ι D (Outcome ι D) := do
  requireFloatWritable v
  let n ← len v
  if (← kind v) = .f64 then
    loop n (fun i _ => do if Arith.lt (← double v i) zero then setDouble v i zero else return ()) ()
  else loopUnless failed n (fun i _ => do
    let x ← readDouble v i
    if ← failed then return ()
    else if Arith.lt x zero then writeDouble v i zero else return ()) ()
  finish (.vector v)

/-- `veccopycmd` -/
def veccopy (d s : ι) : Kernel ι D (Outcome ι D) := do
  let n ← len d
  if n ≠ (← len s) then return .error .shape
  else if d = s then return .ok (.vector d)
  else do
    -- the bytes, or the pointers, when both have one kind
    if (← kind d) = (← kind s) then loop n (fun i _ => do put d i (← cell s i)) ()
    else loop n (fun i _ => do setBoxed d i (← getBoxed s i)) ()
    return .ok (.vector d)

/-- `vecsoftmaxcmd` -/
def vecsoftmax (v : ι) : Kernel ι D (Outcome ι D) := do
  requireFloatWritable v
  let n ← len v
  if n = 0 then return .ok (.vector v)
  else do
    if (← kind v) = .f64 then do
      let m ← loop (n - 1) (fun i m => do
        let x ← double v (i + 1)
        return if Arith.lt m x then x else m) (← double v 0)
      let s ← loop n (fun i s => do
        setDouble v i (Arith.exp ((← double v i) - m))
        return s + (← double v i)) zero
      let inv := if Arith.lt zero s then one / s else zero
      loop n (fun i _ => do setDouble v i ((← double v i) * inv)) ()
    else do
      let m ← loopUnless failed (n - 1) (fun i m => do
        let x ← readDouble v (i + 1)
        return if Arith.lt m x then x else m) (← readDouble v 0)
      let s ← loopUnless failed n (fun i s => do
        let x := Arith.exp ((← readDouble v i) - m)
        writeDouble v i x
        return s + x) zero
      let inv := if Arith.lt zero s then one / s else zero
      loopUnless failed n (fun i _ => do writeDouble v i ((← readDouble v i) * inv)) ()
    finish (.vector v)

/-! ## Matrices -/

/-- `matveccmd` -/
def matvec (a x : ι) : Kernel ι D (Outcome ι D) := do
  let alen ← len a
  let n ← len x
  if n = 0 ∨ alen % n ≠ 0 then return .error .shape
  else do
    let m := alen / n
    let y := List.replicate m zero
    let y ← (if (← kind a) = .f64 ∧ (← kind x) = .f64 then
      loop m (fun i y => do
        let s ← loop n (fun j s => do return s + (← double a (i * n + j)) * (← double x j)) zero
        return y.set i s) y
      else loopUnless failed m (fun i y => do
        let s ← loop n (fun j s => do return s + (← readDouble a (i * n + j)) * (← readDouble x j)) zero
        return y.set i s) y)
    finish (.fresh y)

/-- `!has_bias || vec_kind(bexp) == VEC_KIND_F64` -/
def biasIsF64 : Option ι → Kernel ι D Bool
  | none => return true
  | some b => return (← kind b) = .f64

/-- `has_bias && vec_len(bexp) != m` -/
def biasMisfit (m : ℕ) : Option ι → Kernel ι D Bool
  | none => return false
  | some b => return (← len b) ≠ m

/-- `B ? B[i] : 0.0` -/
def biasDouble (i : ℕ) : Option ι → Kernel ι D D
  | none => return zero
  | some b => double b i

/-- `has_bias ? vec_read_double(bexp, i, &err) : 0.0` -/
def readBias (i : ℕ) : Option ι → Kernel ι D D
  | none => return zero
  | some b => readDouble b i

/-- `matvecbangcmd` -/
def matvecbang (out a x : ι) (bias : Option ι) : Kernel ι D (Outcome ι D) := do
  let alen ← len a
  let n ← len x
  let m ← len out
  if n = 0 ∨ m = 0 ∨ alen ≠ m * n then return .error .shape
  else if ← biasMisfit m bias then return .error .shape
  else do
    requireFloatWritable out
    if (← kind a) = .f64 ∧ (← kind x) = .f64 ∧ (← biasIsF64 bias) then
      loop m (fun i _ => do
        let s ← loop n (fun j s => do return s + (← double a (i * n + j)) * (← double x j)) (← biasDouble i bias)
        setDouble out i s) ()
    else loopUnless failed m (fun i _ => do
      let s ← loop n (fun j s => do return s + (← readDouble a (i * n + j)) * (← readDouble x j))
        (← readBias i bias)
      setDouble out i s) ()
    finish (.vector out)

/-- `matvectbangcmd` -/
def matvectbang (out a v : ι) (bias : Option ι) : Kernel ι D (Outcome ι D) := do
  let alen ← len a
  let m ← len v
  let n ← len out
  if m = 0 ∨ n = 0 ∨ alen ≠ m * n then return .error .shape
  else if ← biasMisfit n bias then return .error .shape
  else do
    requireFloatWritable out
    if (← kind a) = .f64 ∧ (← kind v) = .f64 ∧ (← biasIsF64 bias) then do
      loop n (fun j _ => do setDouble out j (← biasDouble j bias)) ()
      loop m (fun i _ => do
        let vi ← double v i
        loop n (fun j _ => do setDouble out j ((← double out j) + vi * (← double a (i * n + j)))) ()) ()
    else do
      loop n (fun j _ => do setDouble out j (← readBias j bias)) ()
      loopUnless failed m (fun i _ => do
        let vi ← readDouble v i
        loop n (fun j _ => do setDouble out j ((← double out j) + vi * (← readDouble a (i * n + j)))) ()) ()
    finish (.vector out)

/-- `vecgercmd` -/
def vecger (a : ι) (alpha : Boxed D) (u v : ι) : Kernel ι D (Outcome ι D) :=
  match alpha.toDouble with
  | none => return .error .badArgs
  | some alpha => do
    let alen ← len a
    let m ← len u
    let n ← len v
    if m = 0 ∨ n = 0 ∨ alen ≠ m * n then return .error .shape
    else do
      requireFloatWritable a
      if (← kind a) = .f64 ∧ (← kind u) = .f64 ∧ (← kind v) = .f64 then
        loop m (fun i _ => do
          let au := alpha * (← double u i)
          loop n (fun j _ => do
            setDouble a (i * n + j) ((← double a (i * n + j)) + au * (← double v j))) ()) ()
      else loopUnless failed m (fun i _ => do
        let au := alpha * (← readDouble u i)
        loop n (fun j _ => do
          let x ← readDouble a (i * n + j)
          writeDouble a (i * n + j) (x + au * (← readDouble v j))) ()) ()
      finish (.vector a)

/-- `matmulcmd`; `make_vector` refuses sizes from `capLimit` on. -/
def matmul (a b : ι) (k : Boxed D) : Kernel ι D (Outcome ι D) :=
  match k with
  | .fix k => do
    let alen ← len a
    let blen ← len b
    if k.1 ≤ 0 ∨ alen % k.1.toNat ≠ 0 ∨ blen % k.1.toNat ≠ 0 then return .error .shape
    else do
      let k := k.1.toNat
      let m := alen / k
      let n := blen / k
      if capLimit ≤ m * n then return .error .tooLarge
      else do
        let c := List.replicate (m * n) zero
        let c ← (if (← kind a) = .f64 ∧ (← kind b) = .f64 then
          loop m (fun i c => loop k (fun p c => do
            let aip ← double a (i * k + p)
            loop n (fun j c => do
              let y ← double b (p * n + j)
              return c.modify (i * n + j) (· + aip * y)) c) c) c
          else loopUnless failed m (fun i c => loopUnless failed k (fun p c => do
            let aip ← readDouble a (i * k + p)
            loopUnless failed n (fun j c => do
              let y ← readDouble b (p * n + j)
              return c.modify (i * n + j) (· + aip * y)) c) c) c)
        finish (.fresh c)
  | _ => return .error .badArgs

end Kernel

/-! ## Calls -/

/-- A call: the vectors by their names, and the scalars. -/
inductive TensorCall (ι α : Type)
  | dot (a b : ι)
  | sum (v : ι)
  | argmax (v : ι)
  | axpy (y : ι) (a : α) (x : ι)
  | scale (v : ι) (a : α)
  | add (y x : ι)
  | sub (y x : ι)
  | mul (y x : ι)
  | countLe (c s : ι) (lim : α)
  | copy (d s : ι)
  | relu (v : ι)
  | softmax (v : ι)
  | matVec (a x : ι)
  | matVecTo (out a x : ι) (bias : Option ι)
  | matVecTTo (out a v : ι) (bias : Option ι)
  | ger (a : ι) (alpha : α) (u v : ι)
  | matMul (a b : ι) (k : α)

namespace TensorCall

variable [DecidableEq ι]

/-- The builtin of a call. -/
def run : TensorCall ι (Boxed D) → Kernel ι D (Outcome ι D)
  | dot a b => .vecdot a b
  | sum v => .vecsum v
  | argmax v => .vecargmax v
  | axpy y a x => .vecaxpy y a x
  | scale v a => .vecscale v a
  | add y x => .vecadd y x
  | sub y x => .vecsub y x
  | mul y x => .vecmul y x
  | countLe c s lim => .veccountle c s lim
  | copy d s => .veccopy d s
  | relu v => .vecrelu v
  | softmax v => .vecsoftmax v
  | matVec a x => .matvec a x
  | matVecTo out a x bias => .matvecbang out a x bias
  | matVecTTo out a v bias => .matvectbang out a v bias
  | ger a alpha u v => .vecger a alpha u v
  | matMul a b k => .matmul a b k

/-- A call on vectors: what it returns, and the vectors then. -/
def exec (c : TensorCall ι (Boxed D)) (vec : ι → Tensor D) : Option (Outcome ι D × (ι → Tensor D)) :=
  (c.run.run ⟨vec, false⟩).map fun (r, σ) => (r, σ.vec)

end TensorCall

end Alcove.Vector
