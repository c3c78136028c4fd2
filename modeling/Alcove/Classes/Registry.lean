import Alcove.Json.Encode

/-!
# The registry of classes

`defclass` enters a class with its parent in the registry and binds the names it makes: the class, its
constructor, validator and predicate, and the accessors of its fields. This module has the registry, the
global names and the part of `defclass` that comes before the methods (`registerClass`).

The types and defaults of fields are left out: they decide which values an instance can hold, and not
which methods it runs.
-/

namespace Alcove.Classes

/-- The text of a symbol. -/
abbrev Name : Type := List UInt8

/-- The bytes of a literal of the source. -/
def lit (s : String) : Name := s.toList.map fun c => UInt8.ofNat c.toNat

/-- A form that the reader returns; the fields of a pair are `content` and `next`. -/
inductive Form
  | nil
  | symbol (s : Name)
  | type (id : ℕ)
  | atom (n : ℕ)
  | pair (content next : Form)
  deriving DecidableEq

/-- `TYPE_ANY` -/
abbrev typeAny : ℕ := 1

/-- `TYPE_USER_MIN` -/
abbrev typeUserMin : ℕ := 100000

/-- A value: an instance of a class, which is a hash-map whose `"__type__"` is the type object; a type
object; a string, symbol or keyword; a fixnum; or any other value, of a builtin type. -/
inductive Value
  | instance (id : ℕ)
  | type (id : ℕ)
  | text (typeId : ℕ) (s : Name)
  | int (n : ℤ)
  | other (typeId : ℕ)
  deriving DecidableEq

/-- A method: `(fn params body...)`. -/
structure Method where
  params : Form
  body : List Form
  deriving DecidableEq

/-- `alc_user_type_t`. The parent is 0 when there is none. Constructor, validator and schema are set and
cleared together: `fields` are the fields of the schema. -/
structure UserType where
  id : ℕ
  name : Name
  parent : ℕ
  fields : Option (List Name)

/-- The dispatch function of a generic function: `type`, or another one. -/
inductive Dispatch
  | typecmd
  | fn (f : List Value → Value)

/-- What a global name is bound to: a type object, the hash-map with the methods of a generic function, a
generic function with the name of its table and its dispatch function, or something else. -/
inductive Global
  | type (id : ℕ)
  | table (methods : Name → Option Method)
  | generic (table : Name) (dispatch : Dispatch)
  | other

/-- `g_user_types`, `g_next_user_type_id` and the globals. -/
structure Runtime where
  types : List UserType
  nextTypeId : ℕ
  globals : Name → Option Global

namespace Runtime

/-- Nothing is defined. -/
def start : Runtime := ⟨[], typeUserMin, fun _ => none⟩

variable (s : Runtime)

/-- `alc_user_type_by_id` -/
def typeById (id : ℕ) : Option UserType := s.types.find? fun t => t.id = id

/-- `alc_user_type_by_name` -/
def typeByName (name : Name) : Option UserType := s.types.find? fun t => t.name = name

/-- `alc_register_user_type` -/
def registerUserType (name : Name) : Runtime :=
  match s.typeByName name with
  | some _ => s
  | none => { s with
      types := ⟨s.nextTypeId, name, 0, none⟩ :: s.types
      nextTypeId := s.nextTypeId + 1 }

/-- A name is bound. -/
def bind (name : Name) (g : Global) : Runtime :=
  { s with globals := Function.update s.globals name (some g) }

/-- `alc_unregister_user_type` -/
def unregisterUserType (id : ℕ) : Runtime :=
  match s.typeById id with
  | none => s
  | some t => { s with
      types := s.types.eraseP fun t => t.id = id
      globals := Function.update s.globals t.name none }

/-- A change of the entries with some name. -/
def updateType (name : Name) (f : UserType → UserType) : Runtime :=
  { s with types := s.types.map fun t => if t.name = name then f t else t }

end Runtime

/-! ## Names -/

/-- `isalnum`, in the C locale -/
def isalnum (c : UInt8) : Bool :=
  (0x30 ≤ c && c ≤ 0x39) || (0x41 ≤ c && c ≤ 0x5a) || (0x61 ≤ c && c ≤ 0x7a)

/-- `defclass_ident_ok` -/
def identOk : Name → Bool
  | [] => false
  | c :: s => c ≠ 0x3a && c ≠ 0x2e &&
      (c :: s).all fun c => isalnum c || c = 0x5f || c = 0x2d || c = 0x2f

/-- The names that the code of a class binds. -/
def generatedNames (cname : Name) (fields : List Name) : List Name :=
  [cname ++ lit "__class", cname ++ lit "__validator", cname ++ lit "__new", cname ++ lit "?"] ++
    fields.flatMap fun f => [cname ++ lit "-" ++ f, cname ++ lit "-" ++ f ++ lit "!"]

section Reserved

-- the builtin names, with the values that they resolve to
variable (reserved : Name → Option Value)

/-- `is_reserved_name` -/
def isReservedName (s : Runtime) (name : Name) : Bool :=
  (reserved name).isSome || (s.typeByName name).isSome

/-! ## `super` in the body of a method -/

mutual

/-- `defclass_scan_super` -/
def scanSuper (hasParent : Bool) : Form → Except Name Unit
  | .pair hd tl =>
    if hd = .symbol (lit "quote") then .ok ()
    else if hd = .symbol (lit "super") then
      if !hasParent then .error (lit "(super ...) in a :method of a class with no parent class")
      else
        match tl with
        | .pair (.symbol _) _ => do
          scanSuper hasParent hd
          scanElements hasParent tl
        | _ => .error (lit "(super name args...) needs a generic-function name")
    else do
      scanSuper hasParent hd
      scanElements hasParent tl
  | _ => .ok ()

/-- The loop of `defclass_scan_super` over the elements of a form. -/
def scanElements (hasParent : Bool) : Form → Except Name Unit
  | .pair hd tl => do
    scanSuper hasParent hd
    scanElements hasParent tl
  | _ => .ok ()

end

mutual

/-- `defclass_rewrite_super`; `parent` is 0 for a class without a parent. -/
def rewriteSuper (parent : ℕ) : Form → Form
  | .pair hd tl =>
    if hd = .symbol (lit "quote") then .pair hd tl
    else
      match tl with
      | .pair (.symbol name) args =>
        if hd = .symbol (lit "super") ∧ parent ≠ 0 then
          .pair (.pair (.symbol (lit "__mm-lookup")) (.pair (.symbol (name ++ lit "__m"))
            (.pair (.type parent) .nil))) (rewriteElements parent args)
        else .pair (rewriteSuper parent hd) (.pair (.symbol name) (rewriteElements parent args))
      | tl => .pair (rewriteSuper parent hd) (rewriteElements parent tl)
  | form => form

/-- The loop of `defclass_rewrite_super` over the elements of a form. -/
def rewriteElements (parent : ℕ) : Form → Form
  | .pair hd tl => .pair (rewriteSuper parent hd) (rewriteElements parent tl)
  | form => form

end

/-! ## The clauses of a class -/

/-- A clause: `(:extends parent)`, a field, or `(:method name params body...)`. -/
inductive Clause
  | extends (parent : Name)
  | field (name : Name)
  | method (name : Name) (params : Form) (body : List Form)

/-- A method of a class, before its body is rewritten. -/
structure MethodSpec where
  name : Name
  params : Form
  body : List Form

/-- What is read of the clauses. -/
structure ClassBody where
  parentName : Option Name
  fields : List Name
  methods : List MethodSpec

/-- A parameter list with at least one parameter. -/
def paramsOk : Form → Bool
  | .pair _ _ => true
  | .symbol _ => true
  | _ => false

/-- One round of the loop of `defclasscmd` over the clauses. -/
def readClause (s : Runtime) (first : Bool) (b : ClassBody) : Clause → Except Name ClassBody
  | .extends parent =>
    if !first then .error (lit "defclass: (:extends Parent) must be the first clause")
    else .ok { b with parentName := some parent }
  | .method name params body =>
    if !identOk name || isReservedName reserved s name then
      .error (lit "defclass: (:method name (params) body...) needs a non-reserved name")
    else if !paramsOk params then
      .error (lit "defclass: (:method " ++ name ++
        lit " ...) needs a param list with at least the dispatch (self) parameter")
    else
      match body.forM (scanSuper b.parentName.isSome) with
      | .error msg => .error (lit "defclass: " ++ msg)
      | .ok () => .ok { b with methods := b.methods ++ [⟨name, params, body⟩] }
  | .field name =>
    if b.methods ≠ [] then
      .error (lit "defclass: a field clause cannot follow a (:method ...)" ++
        lit " — put all fields before the methods")
    else if !identOk name || isReservedName reserved s name then
      .error (lit "defclass: field names must be non-reserved symbols")
    else if b.fields.contains name then
      .error (lit "defclass: duplicate field '" ++ name ++ lit "'")
    else .ok { b with fields := b.fields ++ [name] }

/-- The loop over the clauses. -/
def readClauses (s : Runtime) (first : Bool) (b : ClassBody) : List Clause → Except Name ClassBody
  | [] => .ok b
  | c :: cs =>
    match readClause reserved s first b c with
    | .error msg => .error msg
    | .ok b => readClauses s false b cs

/-- The parent of a class, by its name: the id, or 0, and the fields. -/
def resolveParent (s : Runtime) : Option Name → Except Name (ℕ × List Name)
  | none => .ok (0, [])
  | some pn =>
    match s.typeByName pn with
    | some ⟨id, _, _, some fields⟩ => .ok (id, fields)
    | _ => .error (lit "defclass: (:extends " ++ pn ++ lit ") — " ++ pn ++
        lit " is not a defined class")

/-- Inherited fields before own ones. -/
def effectiveFields (inherited own : List Name) : Except Name (List Name) :=
  match own.find? fun f => inherited.contains f with
  | some f => .error (lit "defclass: field '" ++ f ++ lit "' duplicates an inherited field")
  | none => .ok (inherited ++ own)

/-! ## Registration -/

/-- `--dev`: a defined class can be claimed again. -/
def reopen (dev : Bool) (s : Runtime) (cname : Name) : Runtime :=
  if dev then s.updateType cname fun t => { t with fields := none } else s

/-- The name is bound, and not to the entry that is claimed. -/
def alreadyBound (s : Runtime) (cname : Name) : Option UserType → Bool
  | none => (s.globals cname).isSome
  | some t =>
    match s.globals cname with
    | none => false
    | some (.type id) => id ≠ t.id
    | some _ => true

/-- The clauses, the id of the parent and the effective fields. -/
def readBody (s : Runtime) (clauses : List Clause) : Except Name (ClassBody × ℕ × List Name) :=
  match readClauses reserved s true ⟨none, [], []⟩ clauses with
  | .error msg => .error msg
  | .ok b =>
    match resolveParent s b.parentName with
    | .error msg => .error msg
    | .ok (parent, inherited) =>
      match effectiveFields inherited b.fields with
      | .error msg => .error msg
      | .ok fields => .ok (b, parent, fields)

/-- The checks of `defclasscmd`: the id of the entry that is claimed, and what is read. -/
def checkClass (s : Runtime) (cname : Name) (clauses : List Clause) :
    Except Name (Option ℕ × ClassBody × ℕ × List Name) :=
  let claim := s.typeByName cname
  if !identOk cname || (reserved cname).isSome || claim.any fun t => t.fields.isSome then
    .error (lit "defclass: class name must be a non-reserved symbol")
  else if alreadyBound s cname claim then
    .error (lit "defclass: '" ++ cname ++ lit "' is already bound — choose another name")
  else
    match readBody reserved s clauses with
    | .error msg => .error msg
    | .ok r => .ok (claim.map UserType.id, r)

/-- The class is registered, bound to its name and linked to its parent. -/
def enterClass (s : Runtime) (cname : Name) (id parent : ℕ) : Runtime :=
  ((s.registerUserType cname).bind cname (.type id)).updateType cname fun t => { t with parent := parent }

/-- The generated code is evaluated; it assigns to `cname__class` first. -/
def runClassCode (s : Runtime) (cname : Name) (isClaim : Bool) (id : ℕ) (fields : List Name) :
    Runtime × Except Name Unit :=
  if isReservedName reserved s (cname ++ lit "__class") then
    (if isClaim then s else s.unregisterUserType id,
      .error (lit "cannot assign to reserved name '" ++ cname ++ lit "__class'"))
  else
    (((generatedNames cname fields).foldl (fun s n => s.bind n .other) s).updateType cname
      fun t => { t with fields := some fields }, .ok ())

/-- `defclasscmd` up to the methods: the id of the class and of its parent, and the methods. -/
def registerClass (dev : Bool) (s : Runtime) (cname : Name) (clauses : List Clause) :
    Runtime × Except Name (ℕ × ℕ × List MethodSpec) :=
  let s := reopen dev s cname
  match checkClass reserved s cname clauses with
  | .error msg => (s, .error msg)
  | .ok (claim, b, parent, fields) =>
    let id := claim.getD s.nextTypeId
    match runClassCode reserved (enterClass s cname id parent) cname claim.isSome id fields with
    | (s, .error msg) => (s, .error msg)
    | (s, .ok ()) => (s, .ok (id, parent, b.methods))

end Reserved

end Alcove.Classes
