import Alcove.Inline.Builtins
import Alcove.Params.Lists

/-!
# Binding the parameters of a call

`var2env` for an interpreted call and the loop of `vm_invoke_values` for a call from compiled code.
Each walks the parameters with the values of the arguments and fills the new frame. The evaluation of
a default may do anything with the state, so it is a parameter (`Eval`), and it sees the frame as far
as it is filled.

An interpreted call turns a NULL among its arguments into `NIL_EXP`. A seventh binding goes to the
dict of the frame, where `set_get_keyval_dict` with NULL only looks the name up.
-/

namespace Alcove.Params

open Objects Binding Inline

/-- The state of a program: the objects, and whatever else there is. -/
abbrev State (σ : Type) : Type := World × σ

/-- The evaluation of a form in a frame: its value or the class of an error, and the state after. -/
abbrev Eval (σ : Type) : Type := Exp → Frame Ptr → State σ → Except ErrorClass Ptr × State σ

/-- The frame with its parameters, or the class of the error. -/
abbrev Bound (σ : Type) : Type := Except ErrorClass (Frame Ptr × State σ)

/-- `var2env_bind` -/
def bindParam (f : Frame Ptr) (name : CStr) (v : Ptr) : Frame Ptr :=
  if f.nInline < envInlineSlots ∨ v ≠ .null then f.bindVar name v
  else { f with d := some (f.d.getD Scope.create) }

variable {σ : Type} (eval : Eval σ)

/-- The loop of a destructuring parameter; a list that is too short leaves nil. -/
def destructure (w : World) : List Exp → Ptr → Frame Ptr → Option (Frame Ptr)
  | [], _, f => some f
  | nm :: rest, v, f =>
    match symbolText nm with
    | none => none
    | some name =>
      match w.pairOf v with
      | some (content, next) =>
        if content = .null ∧ next = .null then destructure w rest v (bindParam f name .nil)
        else destructure w rest next (bindParam f name content)
      | none => destructure w rest v (bindParam f name .nil)

/-- The list that a rest parameter gets, bound to its name. -/
def bindRest (name : CStr) (args : List Ptr) (f : Frame Ptr) (s : State σ) : Frame Ptr × State σ :=
  let (rest, w) := makeList args s.1
  (bindParam f name rest, w, s.2)

/-- `var2env` with evaluated arguments. -/
def var2env : List Exp → List Ptr → Frame Ptr → State σ → Bound σ
  | [], args, f, s =>
    if args.head?.any (· ≠ .null) then .error .missingParameter else .ok (f, s)
  | p :: ps, args, f, s =>
    if isDot p then
      match ps.head?.bind symbolText with
      | none => .error .illegalValue
      | some name => .ok (bindRest name (args.map orNil) f s)
    else match args with
      | a :: args =>
        match defaultOf p, symbolText p with
        | some (name, _), _ => var2env ps args (bindParam f name (orNil a)) s
        | none, some name => var2env ps args (bindParam f name (orNil a)) s
        | none, none =>
          if isTruePair p then
            match destructure s.1 p.elems (orNil a) f with
            | none => .error .illegalValue
            | some f => var2env ps args f s
          else .error .illegalValue
      | [] =>
        match defaultOf p with
        | none => .error .missingParameter
        | some (name, d) =>
          match eval d f s with
          | (.error c, _) => .error c
          | (.ok v, s) => var2env ps [] (bindParam f name (orNil v)) s

/-- The loop of `vm_invoke_values`. -/
def bindLambda : List Exp → List Ptr → Frame Ptr → State σ → Bound σ
  | [], _, f, s => .ok (f, s)
  | p :: ps, args, f, s =>
    match defaultOf p with
    | some (name, d) =>
      match args with
      | a :: args => bindLambda ps args (bindParam f name a) s
      | [] =>
        match eval d f s with
        | (.error c, _) => .error c
        | (.ok v, s) => bindLambda ps [] (bindParam f name (orNil v)) s
    | none =>
      match symbolText p with
      | none => .error .illegalValue
      | some name =>
        if isDot p then
          match ps.head?.bind symbolText with
          | none => .error .illegalValue
          | some rest => .ok (bindRest rest args f s)
        else match args with
          | [] => .error .missingParameter
          | a :: args => bindLambda ps args (bindParam f name a) s

/-- The slots of a compiled function, filled at once. -/
def fillSlots (f : Frame Ptr) (keys : List CStr) (args : List Ptr) : Frame Ptr :=
  { f with
    inlineKeys := fun i => if i < args.length then keys[i]? else f.inlineKeys i
    inlineVals := fun i => if i < args.length then args[i]? else f.inlineVals i
    nInline := args.length }

variable {types : TypeNames}

/-- The parameters of an interpreted call, bound in a fresh frame. -/
def interpretedBind (fn : Lambda types) (args : List Ptr) (f : Frame Ptr) (s : State σ) : Bound σ :=
  var2env eval fn.params (args.map orNil) f s

/-- The parameters of a call from compiled code, bound in a fresh frame. -/
def vmBind (fn : Lambda types) (args : List Ptr) (f : Frame Ptr) (s : State σ) : Bound σ :=
  match fn.keys with
  | some keys =>
    if keys.length = args.length ∧ args.length ≤ envInlineSlots then .ok (fillSlots f keys args, s)
    else if keys.length ≠ args.length then .error .missingParameter
    else bindLambda eval fn.params args f s
  | none => bindLambda eval fn.params args f s

/-- The function that the number of arguments selects. -/
def Callee.pick (n : ℕ) : Callee types → Option (Lambda types)
  | .single fn => some fn
  | .multi clauses => multiPick clauses n

/-- A call: `bind` is applied to the function that is selected, in the frame that `make_env` gives. -/
def callWith (bind : Lambda types → List Ptr → Frame Ptr → State σ → Bound σ) (callee : Callee types)
    (args : List Ptr) (stale : Stale Ptr) (s : State σ) : Bound σ :=
  match callee.pick args.length with
  | none => .error .missingParameter
  | some fn => bind fn args (.fresh stale) s

end Alcove.Params
