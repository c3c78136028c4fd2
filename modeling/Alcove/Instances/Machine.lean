import Alcove.Instances.Schema

/-!
# Instances of classes

The code that `defclass` generates and the operations on the objects that the constructors return. The
generated validator of an instance is one of the hooks of `watch.h`. The functions that watch an instance
may do anything, so a run of a program is a sequence of actions: the operations on instances, the return of
the watcher that runs, and whatever else the program does in between, to other objects (`elsewhere`).
`conj` and `into` are loops of `conjOne`.

Each value that is stored in an instance is recorded with the state of that moment (`Stored`).

Left out: the defaults of fields, whose values are arguments of `construct` like those that are supplied;
namespaces; the methods of a class; `--dev`, and classes that a dump registered.
-/

namespace Alcove.Instances

open Objects

/-! ## `defclass` -/

mutual

/-- `defclass_schema_ok` -/
def schemaOk (classes : Registry) (cname : CStr) : TypeExpr → Bool
  | .name n => n = cname || (typeOfName classes n).isSome
  | .optional te => schemaOk classes cname te
  | .listOf te => schemaOk classes cname te
  | .or tes => 2 ≤ tes.length && schemaOkAll classes cname tes

def schemaOkAll (classes : Registry) (cname : CStr) : List TypeExpr → Bool
  | [] => true
  | te :: tes => schemaOk classes cname te && schemaOkAll classes cname tes

end

/-- A `defclass` form, the id that the class gets and the validator that is generated for it. -/
structure Decl where
  name : CStr
  parent : Option CStr
  own : List Field
  id : UInt32
  validator : Ptr

/-- The class that `defclasscmd` registers, if it accepts the form. -/
def defclass (reserved : CStr → Bool) (classes : Registry) (d : Decl) : Option ClassInfo :=
  let isReserved n := reserved n || (classes.byName n).isSome
  let resolved : Option (UInt32 × List Field) :=
    match d.parent with
    | none => some (0, [])
    | some p => (classes.byName p).map fun c => (c.id, c.fields)
  match resolved with
  | none => none
  | some (parent, inherited) =>
    let fields := inherited ++ d.own
    if h : Classes.identOk d.name.bytes ∧ !isReserved d.name ∧
        (d.own.all fun f => Classes.identOk f.name.bytes && !isReserved f.name &&
          schemaOk classes d.name f.type) ∧
        (fields.map Field.name).Nodup ∧
        typeUserMin ≤ d.id ∧ classes.byId d.id = none ∧ classes.byValidator d.validator = none then
      some ⟨d.id, d.name, parent, fields, d.validator, h.2.2.2.1⟩
    else none

/-! ## States -/

/-- `watch_notify` of an instance, while a watcher runs: `tab` is where the registry was, and `rest` are
the watchers after this one. -/
structure Dispatch where
  obj : ℕ
  tab : ℕ
  rest : List (ℕ × Ptr)

/-- A value that was stored in a field, with the classes and the objects at that time. -/
structure Stored where
  obj : ℕ
  field : CStr
  value : Ptr
  classes : Registry
  world : World

/-- The classes, the objects, the watchers that run, innermost first, the objects that a constructor
returned with their classes, and what was stored in them. -/
structure State where
  classes : Registry
  world : World
  dispatches : List Dispatch
  instances : List (ℕ × UInt32)
  stored : List Stored

/-- The program starts: no class is defined. -/
def start (w : World) : State := ⟨[], w, [], [], []⟩

/-- What an action comes to: the operation returns, or calls a watcher first; it does not end, or uses
memory that was freed. -/
inductive Outcome
  | ret (r : Ret)
  | calling (fn : Ptr)
  | hang
  | undefined
  deriving DecidableEq

/-- What a program does. In an action with `fault`, generated code does not run to its end: because of a
limit of the evaluator, or of a class that has the name of one of its variables, say `_v`, which then is an
annotation. -/
inductive Action
  /-- `defclass` -/
  | define (d : Decl)
  /-- the constructor, on the values of its parameters; the registry is at `tab` afterwards -/
  | construct (id : UInt32) (vals : List Ptr) (fault : Bool) (tab : ℕ)
  | assoc (i : ℕ) (k v : Ptr) (fault : Bool)
  /-- a setter of the class: `key` is the string in its code -/
  | setter (id : UInt32) (key o v : Ptr) (fault : Bool)
  | dissoc (i : ℕ) (k : Ptr) (fault : Bool)
  /-- one entry of `conj` or `into` -/
  | conjOne (i : ℕ) (x : Ptr) (fault : Bool)
  | watch (i : ℕ) (cell : ℕ) (fn : Ptr) (tab : ℕ)
  | unwatch (i : ℕ)
  /-- the watcher that runs returns -/
  | return (r : Ptr)
  | elsewhere (w : World)

/-- The error of a value of a wrong type. -/
def typeError : ErrorClass := .other 0

/-- The error of a fault. -/
def faultError : ErrorClass := .other 1

/-! ## Writes -/

/-- A change of a hash-map. -/
inductive Change
  | put (key : CStr) (v : Ptr)
  | drop (key : CStr)

def Change.apply : Change → Dict Ptr → Dict Ptr
  | put key v, d => d.set key v
  | drop key, d => (d.erase key).1

/-- What a validator rules. -/
inductive Ruling
  | allow
  | reject (c : ErrorClass)
  | hang
  deriving DecidableEq

section Semantics

variable (kinds : Kinds)

/-- The generated validator, on `assoc!` with the key `k` as it was given. -/
def validateAssoc (s : State) (c : ClassInfo) (k v : Ptr) : Ruling :=
  match s.world.scalar k with
  | .string text =>
    match c.fields.find? fun f => f.name = text with
    | none => .reject .illegalValue
    | some f =>
      match check kinds s.classes s.world f.type v with
      | some true => .allow
      | some false => .reject typeError
      | none => .hang
  | _ => .reject .illegalValue

/-- `watch_validate` with a generated validator, whose bit `FLAG_WATCHED` is cleared in the meantime;
none where the validator is a function of the program. -/
def validate (s : State) (i : ℕ) (fault : Bool) (rule : ClassInfo → Ruling) : Option Ruling :=
  match (s.world.watchFind i).bind Hooks.validator with
  | none => some .allow
  | some fn =>
    match s.classes.byValidator fn with
    | none => none
    | some c => some (if fault then .reject faultError else rule c)

/-- The new values of fields of instances are recorded. -/
def State.record (s : State) (i : ℕ) (ch : Change) : List Stored :=
  match ch with
  | .put key v => ⟨i, key, v, s.classes, s.world⟩ :: s.stored
  | .drop _ => s.stored

/-- The table changes, and `watch_notify` calls the first watcher. -/
def State.write (s : State) (i : ℕ) (ch : Change) : State × Outcome :=
  let w := s.world.store i (.dict (ch.apply (s.world.tableAt i)))
  let s' := { s with world := w, stored := s.record i ch }
  match if s.world.watched i then s.world.fns i else [] with
  | [] => (s', .ret (.ptr (.ref i)))
  | (_, fn) :: rest =>
    ({ s' with
        world := w.setWatched i false
        dispatches := ⟨i, w.watchTab, rest⟩ :: s.dispatches },
      .calling fn)

/-- A mutating builtin on the hash-map at `i`, on evaluated operands. -/
def State.mutate (s : State) (i : ℕ) (fault : Bool) (rule : ClassInfo → Ruling) (ch : Change) :
    Option (State × Outcome) :=
  if s.world.watched i then
    match validate s i fault rule with
    | none => none
    | some .allow => some (s.write i ch)
    | some (.reject c) => some (s, .ret (.raise c))
    | some .hang => some (s, .hang)
  else some (s.write i ch)

/-- `assocbangcmd` -/
def assocBang (s : State) (i : ℕ) (k v : Ptr) (fault : Bool) : Option (State × Outcome) :=
  if isDict s.world (.ref i) then
    match s.world.keyToCstr k with
    | none => some (s, .ret (.raise .illegalValue))
    | some ks => s.mutate i fault (fun c => validateAssoc kinds s c k v) (.put ks v)
  else some (s, .ret (.raise .illegalValue))

/-- `dissocbangcmd` -/
def dissocBang (s : State) (i : ℕ) (k : Ptr) (fault : Bool) : Option (State × Outcome) :=
  if isDict s.world (.ref i) then
    match s.world.keyToCstr k with
    | none => some (s, .ret (.ptr (.ref i)))
    | some ks => s.mutate i fault (fun _ => .reject .illegalValue) (.drop ks)
  else some (s, .ret (.raise .illegalValue))

/-- `conj_one`, for a hash-map -/
def conjOne (s : State) (i : ℕ) (x : Ptr) (fault : Bool) : Option (State × Outcome) :=
  let k := s.world.car x
  let v := s.world.car (s.world.cdr x)
  if (s.world.pairOf x).isNone ∨ k = .null ∨ v = .null then some (s, .ret (.raise .illegalValue))
  else if s.world.isError k then some (s, .ret (.ptr k))
  else if s.world.isError v then some (s, .ret (.ptr v))
  else assocBang kinds s i k v fault

/-! ## The constructor -/

/-- The checks of the constructor, in the order of the fields. -/
def checkFields (s : State) : List (Field × Ptr) → Ruling
  | [] => .allow
  | (f, v) :: rest =>
    match check kinds s.classes s.world f.type v with
    | some true => checkFields s rest
    | some false => .reject typeError
    | none => .hang

/-- `(hash-map "__type__" C "f" v ...)` -/
def newTable (c : ClassInfo) (vals : List Ptr) : Dict Ptr :=
  .ofList ((typeTag, .type c.id) :: (c.fields.zip vals).map fun fv => (fv.1.name, fv.2))

/-- The constructor of a class. -/
def construct (s : State) (id : UInt32) (vals : List Ptr) (fault : Bool) (tab : ℕ) :
    Option (State × Outcome) :=
  match s.classes.byId id with
  | none => none
  | some c =>
    if vals.length ≠ c.fields.length then some (s, .ret (.raise .missingParameter))
    else if fault then some (s, .ret (.raise faultError))
    else
      match checkFields kinds s (c.fields.zip vals) with
      | .reject e => some (s, .ret (.raise e))
      | .hang => some (s, .hang)
      | .allow =>
        let i := s.world.objs.length
        let entry : Entry := ⟨.dict (newTable c vals), true, some ⟨[], some c.validator⟩⟩
        some ({ s with
          world := ⟨s.world.objs ++ [entry], tab⟩
          instances := (i, id) :: s.instances
          stored := (c.fields.zip vals).map (fun fv => ⟨i, fv.1.name, fv.2, s.classes, s.world⟩) ++
            s.stored }, .ret (.ptr (.ref i)))

/-! ## Hooks -/

/-- `watchcmd`, on an object that has hooks -/
def watchBang (s : State) (i cell : ℕ) (fn : Ptr) (tab : ℕ) : Option (State × Outcome) :=
  match s.world.watchFind i with
  | none => none
  | some slot =>
    some ({ s with world := ⟨s.world.objs.modify i fun e =>
        { e with watched := true, slot := some { slot with fns := (cell, fn) :: slot.fns } }, tab⟩ },
      .ret (.ptr (.ref i)))

/-- `unwatchcmd`, on an object that has hooks -/
def unwatchBang (s : State) (i : ℕ) : Option (State × Outcome) :=
  match s.world.watchFind i with
  | none => none
  | some slot =>
    let drop := slot.validator.isNone
    some ({ s with world := { s.world with objs := s.world.objs.modify i fun e =>
        { e with
          watched := e.watched && !drop
          slot := if drop then none else some { slot with fns := [] } } } },
      .ret (.ptr (.ref i)))

/-- The loop of `watch_notify` goes on when a watcher has returned. -/
def returnFrom (s : State) (r : Ptr) : Option (State × Outcome) :=
  match s.dispatches with
  | [] => none
  | d :: ds =>
    let finish (p : Ptr) : Option (State × Outcome) :=
      some ({ s with world := s.world.rehook d.obj, dispatches := ds }, .ret (.ptr p))
    if s.world.isError r then finish r
    else if s.world.watchTab ≠ d.tab then some (s, .undefined)
    else
      match d.rest with
      | [] => finish (.ref d.obj)
      | (_, fn) :: rest =>
        if s.world.fns d.obj = [] then finish (.ref d.obj)
        -- the saved cell is alive when the list still ends with it
        else if d.rest <:+ s.world.fns d.obj then
          some ({ s with dispatches := ⟨d.obj, d.tab, rest⟩ :: ds }, .calling fn)
        else some (s, .undefined)

/-- Other code leaves the instances alone: what it does to them is an action of its own. -/
def keepsInstances (s : State) (w : World) : Bool :=
  s.world.objs.length ≤ w.objs.length &&
    s.instances.all fun p => w.objs[p.1]? = s.world.objs[p.1]?

/-! ## Steps -/

variable (reserved : CStr → Bool)

/-- One action; none when the action is not possible. -/
def exec (s : State) : Action → Option (State × Outcome)
  | .define d => (defclass reserved s.classes d).map fun c =>
      ({ s with classes := c :: s.classes }, .ret (.ptr (.type c.id)))
  | .construct id vals fault tab => construct kinds s id vals fault tab
  | .assoc i k v fault => assocBang kinds s i k v fault
  | .setter id key o v fault =>
    match o with
    | .ref i =>
      match isA kinds s.classes s.world o id with
      | none => some (s, .hang)
      | some false => some (s, .ret (.raise .illegalValue))
      | some true => assocBang kinds s i key v fault
    | _ => some (s, .ret (.raise .illegalValue))
  | .dissoc i k fault => dissocBang s i k fault
  | .conjOne i x fault => conjOne kinds s i x fault
  | .watch i cell fn tab => watchBang s i cell fn tab
  | .unwatch i => unwatchBang s i
  | .return r => returnFrom s r
  | .elsewhere w =>
    if keepsInstances s w then some ({ s with world := w }, .ret (.ptr .nil)) else none

/-- The state after an action. -/
def step (s : State) (a : Action) : Option State := (exec kinds reserved s a).map Prod.fst

end Semantics

end Alcove.Instances
