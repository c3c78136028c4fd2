import Alcove.Vector.Window
import Alcove.Value.Exp

/-!
# The cells of a vector

A cell is a word of 8 bytes. The kind of the vector says what its words are: a fixnum, a double, or a pointer
to a value, which owns a reference to it. Objects are counted in `nref`; a float is an object, a fixnum, nil
and the like are not.

An access outside of the storage, and a word that is read as what it is not, end in `none`.

* `promoteToGen`: boxes the words of the window.
* `getBoxed`, `setBoxed`: an element as a value.
* `Call`, `exec`: the builtins.
-/

namespace Alcove.Vector

open Lib

/-! ## Values -/

/-- What is used of doubles. `toInt` is the conversion `(int64_t)`. -/
class Doubles (D : Type) where
  ofInt : ℤ → D
  toInt : D → ℤ
  isNaN : D → Bool

/-- Values that are no objects with a count. -/
inductive Const
  | null
  | nil
  | t
  | char (c : UInt32)
  deriving DecidableEq

/-- A value: a fixnum, a constant, or a pointer. -/
inductive Value
  | fix (n : Fixnum)
  | const (c : Const)
  | ref (r : ℕ)

/-- An object: a float, or anything else. -/
inductive Obj (D : Type)
  | float (x : D)
  | other

/-- The objects and their counts; `next` is the first that was never made. -/
structure Heap (D : Type) where
  obj : ℕ → Obj D
  nref : ℕ → ℕ
  next : ℕ

variable {D : Type}

namespace Heap

variable (h : Heap D)

/-- `isfloat`, with the double. -/
def toFloat : Value → Option D
  | .ref r =>
    match h.obj r with
    | .float x => some x
    | .other => none
  | _ => none

/-- `refexp` -/
def refexp : Value → Heap D
  | .ref r => { h with nref := Function.update h.nref r (h.nref r + 1) }
  | _ => h

/-- `unrefexp` -/
def unrefexp : Value → Heap D
  | .ref r => { h with nref := Function.update h.nref r (h.nref r - 1) }
  | _ => h

/-- `make_floatf` -/
def makeFloat (x : D) : Value × Heap D :=
  (.ref h.next,
    ⟨Function.update h.obj h.next (.float x), Function.update h.nref h.next 1, h.next + 1⟩)

end Heap

/-! ## Words -/

/-- A word; `zero` is one of fresh storage. -/
inductive Word (D : Type)
  | zero
  | int (n : ℤ)
  | double (x : D)
  | box (e : Value)

/-- `vec_kind` -/
inductive Kind
  | gen
  | i64
  | f64
  deriving DecidableEq

/-- A vector; `cells` is its storage. -/
structure Vec (D : Type) where
  kind : Kind
  win : Window
  cells : List (Word D)

variable [Doubles D]

namespace Word

def asInt : Word D → Option ℤ
  | zero => some 0
  | int n => some n
  | _ => none

def asDouble : Word D → Option D
  | zero => some (Doubles.ofInt 0)
  | double x => some x
  | _ => none

def asBox : Word D → Option Value
  | zero => some (.const .null)
  | box e => some e
  | _ => none

end Word

namespace Heap

/-- The value of an integer: a fixnum, or a float. -/
def ofInt (h : Heap D) (n : ℤ) : Value × Heap D :=
  if fixFits n then (.fix (makeFix n), h) else h.makeFloat (Doubles.ofInt n)

/-- A word as a value with a reference of its own. -/
def box (h : Heap D) : Kind → Word D → Option (Value × Heap D)
  | .gen, w => w.asBox.map fun e => (e, h.refexp e)
  | .i64, w => w.asInt.map h.ofInt
  | .f64, w => w.asDouble.map h.makeFloat

/-- The words of `vec_promote_to_gen`. -/
def boxAll (h : Heap D) (kind : Kind) : List (Word D) → Option (List (Word D) × Heap D)
  | [] => some ([], h)
  | w :: ws => do
    let (e, h) ← h.box kind w
    let (bs, h) ← h.boxAll kind ws
    return (.box e :: bs, h)

end Heap

namespace Vec

variable (v : Vec D)

/-- The words in the window. -/
def window : List (Word D) := (v.cells.drop v.win.start).take v.win.len

/-- A cell that is written. -/
def write (off : ℕ) (w : Word D) : Option (Vec D) :=
  if off < v.cells.length then some { v with cells := v.cells.set off w } else none

/-- Storage of `cap` words with `ws` from `start` on. -/
def storage (cap start : ℕ) (ws : List (Word D)) : List (Word D) :=
  List.replicate start .zero ++ ws ++ List.replicate (cap - (start + ws.length)) .zero

/-- `vec_promote_to_gen` -/
def promoteToGen (h : Heap D) : Option (Heap D × Vec D) :=
  if v.kind = .gen then some (h, v)
  else if v.cells.length < v.win.stop then none
  else do
    let (bs, h) ← h.boxAll v.kind v.window
    return (h, { v with kind := .gen, cells := storage v.win.cap v.win.start bs })

/-- `vec_get_boxed` -/
def getBoxed (h : Heap D) (i : ℕ) : Option (Value × Heap D) :=
  v.cells[v.win.start + i]?.bind (h.box v.kind)

/-- The store of `vec_set_boxed` into boxed cells. -/
def setGen (h : Heap D) (i : ℕ) (val : Value) : Option (Heap D × Vec D) := do
  let w ← v.cells[v.win.start + i]?
  let old ← w.asBox
  let v ← v.write (v.win.start + i) (.box val)
  return (h.unrefexp old, v)

/-- `vec_set_boxed`; storage for a promotion is always there. -/
def setBoxed (h : Heap D) (i : ℕ) (val : Value) : Option (Heap D × Vec D) :=
  match v.kind, h.toFloat val, val with
  | .gen, _, _ => v.setGen h i val
  | .i64, _, .fix n => (v.write (v.win.start + i) (.int n.1)).map fun v => (h, v)
  | .f64, some x, _ => (v.write (v.win.start + i) (.double x)).map fun v => (h.unrefexp val, v)
  | .f64, none, .fix n => (v.write (v.win.start + i) (.double (Doubles.ofInt n.1))).map fun v => (h, v)
  | _, _, _ => (v.promoteToGen h).bind fun (h, v) => v.setGen h i val

/-! ## Growth -/

/-- `vec_slide_left` -/
def slideLeft : Vec D :=
  if v.win.start = 0 then v
  else { v with win := v.win.slideLeft, cells := v.window ++ v.cells.drop v.win.len }

/-- `vec_realloc` -/
def realloc (newCap frontPad : ℕ) : Option (Vec D) :=
  (v.win.realloc newCap frontPad).map fun w => { v with win := w, cells := storage newCap frontPad v.window }

/-- `vec_grow_back` -/
def growBack : Option (Vec D) :=
  if 0 < v.win.start ∧ v.win.cap / 4 ≤ v.win.start then some v.slideLeft
  else if capLimit ≤ grown v.win.cap then none
  else v.realloc (grown v.win.cap) 0

/-- `vec_grow_front` -/
def growFront : Option (Vec D) :=
  if capLimit ≤ grown v.win.cap then none
  else v.realloc (grown v.win.cap) ((grown v.win.cap - v.win.len) / 2)

/-- Room for one element behind the window. -/
def roomBack : Option (Vec D) := if v.win.stop = v.win.cap then v.growBack else some v

/-- Room for one element before the window. -/
def roomFront : Option (Vec D) := if v.win.start = 0 then v.growFront else some v

/-- The nil that `vec-push!` and `vec-unshift!` put into a new boxed cell. -/
def clear (off : ℕ) : Option (Vec D) :=
  if v.kind = .gen then v.write off (.box (.const .nil)) else some v

/-- The reference of a boxed cell that is given up. -/
def release (h : Heap D) (i : ℕ) : Option (Heap D) :=
  if v.kind = .gen then (v.cells[v.win.start + i]?.bind Word.asBox).map h.unrefexp else some h

end Vec

/-! ## The builtins -/

/-- A call with its evaluated arguments. -/
inductive Call (α : Type)
  | push (x : α)
  | pop
  | unshift (x : α)
  | shift
  | set (i x : α)
  | ref (i : α)
  | len

/-- The errors of the builtins. -/
inductive VecError
  | growFailed
  | empty
  | badArgs
  | outOfRange
  deriving DecidableEq

/-- The index that a value stands for. -/
def Heap.index (h : Heap D) (i : Value) : Option ℤ :=
  match i with
  | .fix n => some n.1
  | _ => (h.toFloat i).map fun x => if Doubles.isNaN x then -1 else Doubles.toInt x

namespace Vec

variable (v : Vec D) (h : Heap D)

/-- `vecpushcmd` -/
def push (x : Value) : Option (Except VecError Value × Heap D × Vec D) :=
  match v.roomBack with
  | none => some (.error .growFailed, h.unrefexp x, v)
  | some v => do
    let v ← v.clear v.win.stop
    let (h, v) ← v.setBoxed (h.refexp x) v.win.len x
    return (.ok x, h, { v with win := v.win.extendBack })

/-- `vecpopcmd` -/
def pop : Option (Except VecError Value × Heap D × Vec D) :=
  if v.win.len = 0 then some (.error .empty, h, v)
  else do
    let (r, h) ← v.getBoxed h (v.win.len - 1)
    let h ← v.release h (v.win.len - 1)
    return (.ok r, h, { v with win := v.win.dropBack })

/-- `vecunshiftcmd` -/
def unshift (x : Value) : Option (Except VecError Value × Heap D × Vec D) :=
  match v.roomFront with
  | none => some (.error .growFailed, h.unrefexp x, v)
  | some v => do
    let v : Vec D := { v with win := v.win.extendFront }
    let v ← v.clear v.win.start
    let (h, v) ← v.setBoxed (h.refexp x) 0 x
    return (.ok x, h, v)

/-- `vecshiftcmd` -/
def shift : Option (Except VecError Value × Heap D × Vec D) :=
  if v.win.len = 0 then some (.error .empty, h, v)
  else do
    let (r, h) ← v.getBoxed h 0
    let h ← v.release h 0
    return (.ok r, h, { v with win := v.win.dropFront })

/-- `vecsetcmd` -/
def set (i x : Value) : Option (Except VecError Value × Heap D × Vec D) :=
  match h.index i with
  | none => some (.error .badArgs, (h.unrefexp i).unrefexp x, v)
  | some n =>
    if n < 0 ∨ v.win.len ≤ n then some (.error .outOfRange, (h.unrefexp i).unrefexp x, v)
    else do
      let (h, v) ← v.setBoxed (h.refexp x) n.toNat x
      return (.ok x, h.unrefexp i, v)

/-- `vecrefcmd` -/
def ref (i : Value) : Option (Except VecError Value × Heap D × Vec D) :=
  match h.index i with
  | none => some (.error .badArgs, h.unrefexp i, v)
  | some n =>
    if n < 0 ∨ v.win.len ≤ n then some (.error .outOfRange, h.unrefexp i, v)
    else do
      let (r, h) ← v.getBoxed h n.toNat
      return (.ok r, h.unrefexp i, v)

/-- A call. -/
def exec : Call Value → Option (Except VecError Value × Heap D × Vec D)
  | .push x => v.push h x
  | .pop => v.pop h
  | .unshift x => v.unshift h x
  | .shift => v.shift h
  | .set i x => v.set h i x
  | .ref i => v.ref h i
  | .len => some (.ok (.fix (makeFix v.win.len)), h, v)

end Vec

/-! ## Construction -/

/-- `make_vector`, for a size that storage can have. -/
def makeVector (h : Heap D) (n : ℕ) (fill : Value) : Heap D × Vec D :=
  let win : Window := ⟨n, 0, n⟩
  match h.toFloat fill, fill with
  | some x, _ => (h, ⟨.f64, win, List.replicate n (.double x)⟩)
  | none, .fix k => (h, ⟨.i64, win, List.replicate n (.int k.1)⟩)
  | none, _ => ((fun h => h.refexp fill)^[n] h, ⟨.gen, win, List.replicate n (.box fill)⟩)

/-- `veccmd`, for a size that storage can have. -/
def vec (h : Heap D) (n : ℕ) (fill : Value) : Heap D × Vec D :=
  let (h, v) := makeVector h n fill
  (h.unrefexp fill, v)

/-- The words that `vec_tighten` makes of boxed ones, all of them doubles; a box is given up. -/
def tightenDoubles (h : Heap D) : List Value → List (Word D) × Heap D
  | [] => ([], h)
  | .fix n :: es =>
    let (ws, h) := tightenDoubles h es
    (.double (Doubles.ofInt n.1) :: ws, h)
  | e :: es =>
    let (ws, h') := tightenDoubles (h.unrefexp e) es
    (.double ((h.toFloat e).getD (Doubles.ofInt 0)) :: ws, h')

/-- `isnumber` -/
def Value.isFix : Value → Bool
  | .fix _ => true
  | _ => false

/-- The fixnum of a value. -/
def Value.fixVal : Value → ℤ
  | .fix n => n.1
  | _ => 0

/-- `vectorcmd`: the evaluated elements, and `vec_tighten`. -/
def vector (h : Heap D) (es : List Value) : Heap D × Vec D :=
  let win : Window := ⟨es.length, 0, es.length⟩
  if es.isEmpty || es.any (fun e => !e.isFix && (h.toFloat e).isNone) then (h, ⟨.gen, win, es.map .box⟩)
  else if es.all Value.isFix then (h, ⟨.i64, win, es.map fun e => .int e.fixVal⟩)
  else
    let (ws, h) := tightenDoubles h es
    (h, ⟨.f64, win, ws⟩)

end Alcove.Vector
