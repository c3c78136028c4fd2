import Alcove.Value.Exp

/-!
# Generators

A generator is a dict with its kind and its state: the cursor of a list, the cursor, the end and the step
of a range, or a function and the generator inside it. A closure without parameters is a generator as
well. `alc_gen_step` advances a generator and returns its next value or the sentinel `*done*`; an error is
a value like any other here. `gen-collect` and `for-gen` step a generator until the sentinel or an error.

Only the generators that a step advances change in it, so a step returns the generator with its new state.
The loop of a filter and the loops of the consumers run on `fuel`.
-/

namespace Alcove.Generator

open Lib

/-! ## Values -/

/-- `exp_t *`, as far as generators look at it; an object of another type has its identity and whether it
is true. -/
inductive Val
  | null
  | nil
  | done
  | fix (n : Fixnum)
  | error (id : ℕ)
  | pair (content next : Val)
  | other (id : ℕ) (truthy : Bool)
  deriving DecidableEq

namespace Val

/-- `iserror` -/
def isError : Val → Bool
  | error _ => true
  | _ => false

/-- `!v || isgen_done(v)` -/
def isEnd : Val → Bool
  | null | done => true
  | _ => false

/-- `istrue`; the sentinel is a symbol. -/
def istrue : Val → Bool
  | null | nil | error _ => false
  | done => true
  | fix n => n.1 ≠ 0
  | pair content next => !(content = null && next = null)
  | other _ truthy => truthy

/-- `v ? v : NIL_EXP` -/
def orNil (v : Val) : Val := if v = null then nil else v

/-- The list that `list_append_owned` builds, from `NIL_EXP` on. -/
def ofList (vs : List Val) : Val := if vs.isEmpty then nil else vs.foldr pair null

end Val

/-- `alc_apply_n` with no argument, and `alc_apply1`. -/
structure Runtime (σ : Type) where
  apply0 : Val → σ → Val × σ
  apply1 : Val → Val → σ → Val × σ

/-! ## The generators -/

/-- What `alc_gen_step` takes: a generator, a closure, or some other value. -/
inductive Gen
  | list (cur : Val)
  | range (cur stop stp : Fixnum)
  | map (fn : Val) (inner : Gen)
  | filter (pred : Val) (inner : Gen)
  | closure (fn : Val)
  | other
  deriving DecidableEq

/-- The errors that the constructors make. -/
inductive GenError
  | integer
  | integers
  | stepZero
  | raised (v : Val)

/-- The text of an error. -/
def GenError.text : GenError → String
  | .integer => "gen-range: integer expected"
  | .integers => "gen-range: integers expected"
  | .stepZero => "gen-range: step cannot be 0"
  | .raised _ => ""

/-- `genlist_cmd`, on the value of its argument. -/
def genlist (lst : Val) : Except GenError Gen :=
  if lst.isError then .error (.raised lst) else .ok (.list lst.orNil)

/-- `genrange_cmd`, on the values of its arguments, none of them an error or NULL. -/
def genrange (a : Val) (b c : Option Val) : Except GenError Gen :=
  match b, c with
  | none, _ =>
    match a with
    | .fix stop => .ok (.range (makeFix 0) stop (makeFix 1))
    | _ => .error .integer
  | some b, none =>
    match a, b with
    | .fix start, .fix stop => .ok (.range start stop (makeFix 1))
    | _, _ => .error .integers
  | some b, some c =>
    match a, b, c with
    | .fix start, .fix stop, .fix step =>
      if step.1 = 0 then .error .stepZero else .ok (.range start stop step)
    | _, _, _ => .error .integers

/-- `genmap_cmd`, on a function and a generator. -/
def genmap (fn : Val) (g : Gen) : Except GenError Gen :=
  if fn.isError then .error (.raised fn) else .ok (.map fn g)

/-- `genfilter_cmd`, on a predicate and a generator. -/
def genfilter (pred : Val) (g : Gen) : Except GenError Gen :=
  if pred.isError then .error (.raised pred) else .ok (.filter pred g)

/-! ## One step -/

variable {σ : Type} (R : Runtime σ)

/-- `case GK_LIST` -/
def stepList (cur : Val) : Val × Gen :=
  match cur with
  | .pair content next =>
    if Val.istrue (.pair content next) then (content.orNil, .list next.orNil)
    else (.done, .list (.pair content next))
  | cur => (.done, .list cur)

/-- `case GK_RANGE` -/
def stepRange (cur stop stp : Fixnum) : Val × Gen :=
  if if 0 < stp.1 then stop.1 ≤ cur.1 else cur.1 ≤ stop.1 then (.done, .range cur stop stp)
  else if !fixFits (cur.1 + stp.1) then (.fix cur, .range stop stop stp)
  else (.fix cur, .range (makeFix (cur.1 + stp.1)) stop stp)

/-- `alc_gen_step` -/
def genStep : ℕ → Gen → σ → Option (Val × Gen × σ)
  | 0, _, _ => none
  | _ + 1, .list cur, s => some ((stepList cur).1, (stepList cur).2, s)
  | _ + 1, .range cur stop stp, s => some ((stepRange cur stop stp).1, (stepRange cur stop stp).2, s)
  | fuel + 1, .map fn inner, s =>
    match genStep fuel inner s with
    | none => none
    | some (v, inner, s) =>
      if v.isEnd then some (.done, .map fn inner, s)
      else
        let (r, s) := R.apply1 fn v s
        some (r.orNil, .map fn inner, s)
  | fuel + 1, .filter pred inner, s =>
    match genStep fuel inner s with
    | none => none
    | some (v, inner, s) =>
      if v.isEnd then some (.done, .filter pred inner, s)
      else
        let (ok, s) := R.apply1 pred v s
        if ok.isError then some (ok, .filter pred inner, s)
        else if ok.istrue then some (v, .filter pred inner, s)
        else genStep fuel (.filter pred inner) s
  | _ + 1, .closure fn, s =>
    let (v, s) := R.apply0 fn s
    some (if v = .null then .done else v, .closure fn, s)
  | _ + 1, .other, s => some (.done, .other, s)

/-! ## The consumers -/

/-- The loop of `gencollect_cmd`, with the elements so far. -/
def collectLoop : ℕ → Gen → List Val → σ → Option (Val × σ)
  | 0, _, _, _ => none
  | fuel + 1, g, acc, s =>
    match genStep R fuel g s with
    | none => none
    | some (v, g, s) =>
      if v.isEnd then some (.ofList acc, s)
      else if v.isError then some (v, s)
      else collectLoop fuel g (acc ++ [v]) s

/-- `gencollect_cmd`, on a generator. -/
def gencollect (fuel : ℕ) (g : Gen) (s : σ) : Option (Val × σ) := collectLoop R fuel g [] s

/-- The body forms of `for-gen`, evaluated in a frame where the variable has a value: the value of the
last form, or the first error. -/
def evalBody (forms : List (Val → σ → Val × σ)) (v : Val) (ret : Val) (s : σ) : Val × σ :=
  match forms with
  | [] => (ret, s)
  | form :: forms =>
    let (ret, s) := form v s
    if ret.isError then (ret, s) else evalBody forms v ret s

/-- The loop of `forgencmd`. -/
def forLoop (forms : List (Val → σ → Val × σ)) : ℕ → Gen → Val → σ → Option (Val × σ)
  | 0, _, _, _ => none
  | fuel + 1, g, ret, s =>
    match genStep R fuel g s with
    | none => none
    | some (v, g, s) =>
      if v.isEnd then some (ret, s)
      else if v.isError then some (v, s)
      else
        let (ret, s) := evalBody forms v ret s
        if ret.isError then some (ret, s) else forLoop forms fuel g ret s

/-- `forgencmd`, on a generator: nil, or an error. -/
def forgen (fuel : ℕ) (forms : List (Val → σ → Val × σ)) (g : Gen) (s : σ) : Option (Val × σ) :=
  (forLoop R forms fuel g .nil s).map fun (ret, s) => (if ret.isError then ret else .nil, s)

end Alcove.Generator
