import Alcove.Classes.Registry

/-!
# Generic functions

A generic function `m` dispatches through a global hash-map of methods, whose name is made of `m` and
`__m`. `defmulti` and `defmethod` make that name in a buffer of 160 bytes (`tableName`); the rewritten
`super` makes it in one that is long enough. The keys of the map are texts; that of a type object is the
byte 1 and its id.

A lookup takes the method of the class, else of the nearest of 64 ancestors, else that of `Any`
(`mmLookup`); `is-a?` looks at a class and 63 ancestors (`conforms`).
-/

namespace Alcove.Classes

/-! ## Tables of methods -/

/-- `snprintf(mname, 160, "%s__m", name)` -/
def tableName (name : Name) : Name := (name ++ lit "__m").take 159

/-- The key of a type object. -/
def typeKey (id : ℕ) : Name := 1 :: Json.formatNat id

/-- `alc_key_to_cstr` -/
def alcKeyToCstr : Value → Option Name
  | .text _ s => some s
  | .int n => some (Json.formatInt n)
  | .type id => some (typeKey id)
  | _ => none

/-- The loop of `mm_lookupcmd` up the chain of parents, with the steps that are left. -/
def walkParents (s : Runtime) (methods : Name → Option Method) : ℕ → ℕ → Option Method
  | 0, _ => none
  | n + 1, cur =>
    match if typeUserMin ≤ cur then s.typeById cur else none with
    | none => none
    | some t =>
      if t.parent = 0 then none
      else
        match methods (typeKey t.parent) with
        | some m => some m
        | none => walkParents s methods n t.parent

section Reserved

variable (reserved : Name → Option Value) (s : Runtime)

/-- `mm_lookupcmd`, on the table with this name; `none` is nil or an error, and cannot be called. -/
def mmLookup (table : Name) (dval : Value) : Option Method :=
  if (reserved table).isSome then none
  else
    match s.globals table with
    | some (.table methods) =>
      match (alcKeyToCstr dval).bind methods, dval with
      | some m, _ => some m
      | none, .type id => (walkParents s methods 64 id).or (methods (typeKey typeAny))
      | none, _ => none
    | _ => none

/-- `get_actual_type_id`; a type that is not registered is that of a hash-map, `TYPE_DICT`. -/
def getActualTypeId : Value → ℕ
  | .instance id => if (s.typeById id).isSome then id else 17
  | .type _ => 30
  | .text t _ => t
  | .int _ => 4
  | .other t => t

/-- `typecmd`, of the first argument; the type of nil is `TYPE_NIL`. -/
def typecmd : List Value → Value
  | [] => .type 2
  | x :: _ => .type (getActualTypeId s x)

/-- The loop of `alc_user_type_conforms`, with the steps that are left. -/
def conformsLoop (target : ℕ) : ℕ → ℕ → Bool
  | 0, _ => false
  | n + 1, cur =>
    if cur = 0 then false
    else if cur = target then true
    else
      match s.typeById cur with
      | none => false
      | some t => conformsLoop target n t.parent

/-- `alc_user_type_conforms` -/
def conforms (actual target : ℕ) : Bool :=
  if actual = 0 ∨ target = 0 then false else conformsLoop s target 64 actual

/-- `is_acmd`, for an instance of the class `id`. -/
def isA (id target : ℕ) : Bool :=
  target = typeAny || getActualTypeId s (.instance id) = target || target = 17 ||
    (typeUserMin ≤ target && conforms s (if (s.typeById id).isSome then id else 0) target)

/-- The value of a dispatch function. -/
def Dispatch.apply : Dispatch → List Value → Value
  | .typecmd, args => Classes.typecmd s args
  | .fn f, args => f args

/-- `(name args...)`: the method that runs, if one does. The generic function is
`(apply (__mm-lookup table (apply dispatch args)) args)`. -/
def callGeneric (name : Name) (args : List Value) : Option Method :=
  if (reserved name).isSome then none
  else
    match s.globals name with
    | some (.generic table dispatch) => mmLookup reserved s table (dispatch.apply s args)
    | _ => none

/-- The head of a call that is rewritten from `super`: the method that it runs, if one. -/
def evalCallee : Form → Option Method
  | .pair (.symbol f) (.pair (.symbol table) (.pair (.type id) .nil)) =>
    if f = lit "__mm-lookup" then mmLookup reserved s table (.type id) else none
  | _ => none

/-! ## Definitions -/

/-- `defmulticmd` -/
def defmulticmd (name : Name) (dispatch : Dispatch) : Runtime × Except Name Unit :=
  let mname := tableName name
  match s.globals mname with
  | some (.table _) => (s.bind name (.generic mname dispatch), .ok ())
  | _ =>
    if isReservedName reserved s mname then
      (s, .error (lit "cannot assign to reserved name '" ++ mname ++ lit "'"))
    else ((s.bind mname (.table fun _ => none)).bind name (.generic mname dispatch), .ok ())

/-- The dispatch value of `defmethod`: a name that is evaluated, or a value. -/
inductive Dval
  | name (n : Name)
  | value (v : Value)

/-- What a dispatch value evaluates to, unless it is an unbound name; 17 is `TYPE_DICT`, 22
`TYPE_LAMBDA`. -/
def evalDval : Dval → Option Value
  | .value v => some v
  | .name n =>
    match reserved n, s.globals n with
    | some v, _ => some v
    | none, none => none
    | none, some (.type id) => some (.type id)
    | none, some (.table _) => some (.other 17)
    | none, some _ => some (.other 22)

/-- `defmethodcmd`, which evaluates `(assoc! mname dval (fn params body...))`. -/
def defmethodcmd (name : Name) (dval : Dval) (params : Form) (body : List Form) :
    Runtime × Except Name Unit :=
  let mname := tableName name
  match reserved mname, s.globals mname with
  | some _, _ => (s, .error (lit "assoc!: first arg must be a hash-map"))
  | none, none => (s, .error (lit "Unbound variable " ++ mname))
  | none, some (.table methods) =>
    match evalDval reserved s dval with
    | none => (s, .error (lit "Unbound variable"))
    | some v =>
      match alcKeyToCstr v with
      | none => (s, .error (lit "assoc!: unsupported key type"))
      | some key =>
        (s.bind mname (.table (Function.update methods key (some ⟨params, body⟩))), .ok ())
  | none, some _ => (s, .error (lit "assoc!: first arg must be a hash-map"))

/-- `defclass_emit_methods` -/
def defclassEmitMethods (cname : Name) (parent : ℕ) : Runtime → List MethodSpec →
    Runtime × Except Name Unit
  | s, [] => (s, .ok ())
  | s, m :: ms =>
    match defmulticmd reserved s m.name .typecmd with
    | (s, .error msg) => (s, .error msg)
    | (s, .ok ()) =>
      match defmethodcmd reserved s m.name (.name cname) m.params
        (m.body.map (rewriteSuper parent)) with
      | (s, .error msg) => (s, .error msg)
      | (s, .ok ()) => defclassEmitMethods cname parent s ms

/-- A definition -/
inductive Def
  | defclass (dev : Bool) (cname : Name) (clauses : List Clause)
  | defmulti (name : Name) (dispatch : Dispatch)
  | defmethod (name : Name) (dval : Dval) (params : Form) (body : List Form)

/-- A definition is evaluated. -/
def Def.run : Def → Runtime × Except Name Unit
  | .defclass dev cname clauses =>
    match registerClass reserved dev s cname clauses with
    | (s, .error msg) => (s, .error msg)
    | (s, .ok (_, parent, methods)) => defclassEmitMethods reserved cname parent s methods
  | .defmulti name dispatch => defmulticmd reserved s name dispatch
  | .defmethod name dval params body => defmethodcmd reserved s name dval params body

end Reserved

end Alcove.Classes
