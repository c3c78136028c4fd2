import Alcove.Binding.Machine
import Alcove.Value.Exp

/-!
# Parameter lists

What `def` and `fn` accept as parameters, and what they keep of it: `build_clean_params` checks that
each parameter is a symbol or a pair and strips the type annotations; a bare symbol stands for a rest
parameter alone. A parameter is plain, has a default, is a destructuring pattern, or is the dot before
the rest parameter. `compile_lambda` compiles a function whose parameters are all plain, if they fit
the inline slots, and caches their names in `param_keys`.
-/

namespace Alcove.Params

open Binding

/-! ## One parameter -/

/-- `issymbol`, with its text. -/
def symbolText : Exp → Option CStr
  | .symbol text => some text
  | _ => none

/-- The symbol `.` before a rest parameter. -/
def isDot (p : Exp) : Bool := symbolText p = some (.ofBytes [46])

/-- `ispair(p) && istrue(p)` -/
def isTruePair : Exp → Bool
  | .pair content next => !(content.isNull && next.isNull)
  | _ => false

/-- `cadr` -/
def cadr : Exp → Exp
  | .pair _ (.pair content _) => content
  | _ => .null

/-- `(name default)`, where the default is not a symbol. -/
def defaultOf : Exp → Option (CStr × Exp)
  | .pair (.symbol name) next =>
    let d := cadr (.pair (.symbol name) next)
    if d.isNull || (symbolText d).isSome then none else some (name, d)
  | _ => none

/-! ## Acceptance -/

/-- The tables that an annotation is looked up in: the hints that are keywords, and the names of
types. -/
structure TypeNames where
  hint : CStr → Bool
  type : CStr → Bool

variable (types : TypeNames)

/-- `is_keyword_exp` -/
def isKeyword (p : Exp) : Bool := (symbolText p).any fun text => text.bytes.head? = some 58

/-- `param_type_annotation` -/
def isTypeAnnotation (p : Exp) : Bool := (symbolText p).any fun text => !isKeyword p && types.type text

/-- The loop of the shape check. -/
def shapeOk : Exp → Bool
  | .pair content next =>
    (content.isNull && next.isNull) ||
      (((symbolText content).isSome || isTruePair content) && shapeOk next)
  | _ => true

/-- The loop that strips the annotations; `prev` says whether one may follow. -/
def stripHints (prev : Bool) : List Exp → Option (List Exp)
  | [] => some []
  | p :: ps =>
    if isKeyword p then
      if (symbolText p).any types.hint && prev then stripHints false ps else none
    else if isTypeAnnotation types p then if prev then stripHints false ps else none
    else (stripHints true ps).map (p :: ·)

/-- `build_clean_params`, for a list. -/
def buildCleanParams (params : Exp) : Option (List Exp) :=
  if !shapeOk params then none
  else if params.elems.any fun p => isKeyword p || isTypeAnnotation types p then
    stripHints types false params.elems
  else some params.elems

/-- The parameters that `def` and `fn` make of what is written. -/
def paramsOf (header : Exp) : Option (List Exp) :=
  match header with
  | .symbol text => some [.symbol (.ofBytes [46]), .symbol text]
  | .nil => buildCleanParams types .nil
  | .pair content next => buildCleanParams types (.pair content next)
  | _ => none

/-- The names that `compile_lambda` gives slots. -/
def registerParams (params : List Exp) : Option (List CStr) :=
  if params.length ≤ envInlineSlots then
    params.mapM fun p => if isDot p then none else symbolText p
  else none

/-- A function: its parameters, and `param_keys` if it was compiled. -/
structure Lambda (types : TypeNames) where
  header : Exp
  params : List Exp
  keys : Option (List CStr)
  params_eq : paramsOf types header = some params
  keys_eq : ∀ ks, keys = some ks → registerParams params = some ks

/-- A function, or one of `defn` with its clauses. -/
inductive Callee (types : TypeNames)
  | single (fn : Lambda types)
  | multi (clauses : List (Lambda types))

/-- The parameters before the dot, and whether there is one. -/
def arity : List Exp → ℕ × Bool
  | [] => (0, false)
  | p :: ps => if isDot p then (0, true) else ((arity ps).1 + 1, (arity ps).2)

variable {types}

/-- `multi_pick` -/
def multiPick (clauses : List (Lambda types)) (n : ℕ) : Option (Lambda types) :=
  clauses.find? fun fn =>
    let (fixed, variadic) := arity fn.params
    if variadic then fixed ≤ n else n = fixed

end Alcove.Params
