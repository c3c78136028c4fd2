import Alcove.Binding.Env
import Alcove.Lib.GenCache

/-!
# The cache of global bindings

The dict of the global environment, the table of builtins, and the two caches in front of them: a
symbol object keeps the builtin it was resolved to, and a bytecode keeps for each constant the global
value it was resolved to, with the generation (`alcove_global_gen`) of the time. The operations are
those that read or write the two tables, each whole, from the statement that starts it to the
`GEN_BUMP` at its end; the environments of the running calls are given with an operation. A value is
alive as long as a table or something else refers to it. The generation is a 64-bit counter, which a
program cannot run through.
-/

namespace Alcove.Gcache

open Lib Binding

variable {V : Type}

/-- What compiled code refers to: the symbol object that is constant number `idx` of a bytecode, and
the text of a symbol object. -/
structure Program where
  constant : ℕ → ℕ → ℕ
  text : ℕ → CStr

/-- `root` is the dict of the global environment, `symbolCache` the `meta` of the symbol objects, and
`held` counts the references from elsewhere. -/
structure State (V : Type) where
  root : Scope V
  reserved : Scope V
  userTypes : List CStr
  symbolCache : ℕ → Option V
  gcache : GenCache (ℕ × ℕ) V
  held : V → ℕ

/-- The environments of the running call below the global one, the innermost one first. -/
abbrev Frames (V : Type) : Type := List (Frame V)

/-- The nearest binding of a name below the global environment. -/
def localBinding (scan : Binding.Scan V) (frames : Frames V) (key : CStr) : Option (Frame V × Place) :=
  frames.findSome? fun e => (e.find scan key).map fun place => (e, place)

namespace State

/-- No bytecode has run, nothing is defined. -/
def initial (reserved : Scope V) (held : V → ℕ) : State V :=
  ⟨Scope.create, reserved, [], fun _ => none, GenCache.empty 1, held⟩

/-- `GEN_BUMP` -/
def bump (s : State V) : State V := { s with gcache := s.gcache.bump }

/-- `set_get_keyval_dict` on the dict of the global environment -/
def define (s : State V) (key : CStr) (v : V) : State V := { s with root := s.root.set key v }

/-- `is_reserved_name` -/
def isReservedName (s : State V) (name : CStr) : Bool :=
  (s.reserved.find name).isSome || s.userTypes.contains name

/-! ## Reads -/

/-- `lookup` and `lookup_scoped` of a symbol object, which scan the slots in different directions; the
flag says whether the binding is a global one. -/
def resolve (P : Program) (scan : Binding.Scan V) (s : State V) (o : ℕ) (frames : Frames V) :
    State V × Option V × Bool :=
  match s.symbolCache o with
  | some v => (s, some v, true)
  | none => match s.reserved.find (P.text o) with
    | some v => ({ s with symbolCache := Function.update s.symbolCache o (some v) }, some v, true)
    | none => match localBinding scan frames (P.text o) with
      | some (e, place) => (s, e.read (P.text o) place, false)
      | none => match s.root.find (P.text o) with
        | some v => (s, some v, true)
        | none => (s, none, false)

/-- What `lookup` of a symbol object returns in the global environment. -/
def lookupGlobal (P : Program) (s : State V) (o : ℕ) : Option V := (s.resolve P scanDown o []).2.1

/-- `OP_LOAD_GLOBAL`, and how `OP_CALL_GLOBAL` gets its callee -/
def loadGlobal (P : Program) (s : State V) (bc idx : ℕ) (noGcache : Bool) (frames : Frames V) :
    State V × Option V :=
  match s.gcache.hit (bc, idx) with
  | some v => (s, some v)
  | none =>
    let (s, found, isGlobal) := s.resolve P scanUp (P.constant bc idx) frames
    match found with
    | none => (s, none)
    | some v =>
      (if !noGcache && isGlobal then { s with gcache := s.gcache.fill (bc, idx) v } else s, some v)

/-! ## Definitions and assignments -/

/-- The end of `defcmd`, `defncmd` and `defmacrocmd`, with the qualified name. -/
def def' (s : State V) (qname : CStr) (v : V) (frames : Frames V) : State V :=
  (if frames.isEmpty then s.define qname v else s).bump

/-- `updatebang` and `assign_store_symbol`: without a binding, one is made where they started. -/
def assign (s : State V) (guard isSymbol : Bool) (key : CStr) (v : V) (frames : Frames V) : State V :=
  if isSymbol && s.isReservedName key then s
  else match localBinding scanUp frames key with
    | some (_, .slot _) => s
    | some (_, .dict) => s.bump
    | none =>
      if (s.root.find key).isSome then
        if guard then s else { s.bump with root := s.root.assign key v }
      else if frames.isEmpty then
        if guard then s else (s.define key v).bump
      else s.bump

/-- `setq_store_symbol` behind the check for reserved names: without a binding, a global one is
made. -/
def setq (s : State V) (key : CStr) (v : V) (frames : Frames V) : State V :=
  if s.isReservedName key then s
  else match localBinding scanUp frames key with
    | some (_, .slot _) => s
    | some (_, .dict) => s.bump
    | none =>
      if (s.root.find key).isSome then { s.bump with root := s.root.assign key v }
      else (s.define key v).bump

/-- `forgetcmd` -/
def forget (s : State V) (guard : Bool) (key : CStr) : State V :=
  if guard then s else { s with root := s.root.erase key }.bump

/-! ## Types and modules -/

/-- `alc_bind_global_type` of a type that was registered for it -/
def bindType (s : State V) (name : CStr) (v : V) : State V :=
  { s.define name v with userTypes := name :: s.userTypes }.bump

/-- `alc_unregister_user_type` -/
def unregisterType (s : State V) (name : CStr) : State V :=
  { s with root := s.root.erase name, userTypes := s.userTypes.erase name }.bump

/-- The qualified name -/
def qualify (ns bare : CStr) : CStr := .ofBytes (ns.bytes ++ 47 :: bare.bytes)

/-- `refer_one` on the dict of the global environment -/
def referOne (ns : CStr) (d : Scope V) (bare : CStr) : Option (Scope V) :=
  (d.find (qualify ns bare)).map fun v => d.set bare v

/-- The loop of `requirecmd` over the names behind `:refer`, which ends at one that is not defined. -/
def referLoop (ns : CStr) : List CStr → Scope V → Scope V × Bool
  | [], d => (d, true)
  | bare :: names, d => match referOne ns d bare with
    | some d => referLoop ns names d
    | none => (d, false)

/-- `REFER_MATCH`: the rest of a key of the namespace, when it is one segment. -/
def referMatch (ns key : CStr) : Option CStr :=
  if key.bytes.take (ns.bytes.length + 1) = ns.bytes ++ [47] then
    let rest := key.bytes.drop (ns.bytes.length + 1)
    if rest.isEmpty || rest.contains 47 then none else some (.ofBytes rest)
  else none

/-- A list of entries into a dict -/
def setAll (d : Scope V) (kvs : List (CStr × V)) : Scope V := kvs.foldl (fun d kv => d.set kv.1 kv.2) d

/-- `refer_all` -/
def referAll (s : State V) (ns : CStr) : State V :=
  let hits := s.root.1.entries.filterMap fun kv => (referMatch ns kv.1).map fun bare => (bare, kv.2)
  if hits.isEmpty then s else { s with root := setAll s.root hits }.bump

/-- The end of `requirecmd`: `:refer` with its names. -/
def requireRefer (s : State V) (ns : CStr) (names : List CStr) : State V :=
  if names.isEmpty then s.referAll ns
  else
    let (d, found) := referLoop ns names s.root
    if found then { s with root := d }.bump else { s with root := d }

/-! ## Native modules and dumps -/

/-- What `alcove_module_init` registers: a builtin, or a type that may be known already. -/
inductive Registration (V : Type)
  | cmd (name : CStr) (v : V)
  | type (isNew : Bool)

/-- `alcove_register_cmd` and `alcove_register_type` -/
def register (s : State V) : Registration V → State V
  | .cmd name v => { s with reserved := s.reserved.set name v }
  | .type isNew => if isNew then s.bump else s

/-- `load_native_module`, and whether its initialisation succeeds -/
def loadNative (s : State V) (regs : List (Registration V)) (succeeds : Bool) : State V :=
  let s := regs.foldl register s
  if succeeds then s.bump else s

/-- `alcove_load_unified`: the modules of the custom types, then the records up to the end of the
dump, or to where it is damaged. -/
def loadUnified (s : State V) (modules : List (List (Registration V) × Bool))
    (records : List (CStr × V)) (complete : Bool) : State V :=
  let s := modules.foldl (fun s m => s.loadNative m.1 m.2) s
  let s := { s with root := setAll s.root records }
  if complete then s.bump else s

/-- `loaddb_from_file_path` of a dump in the older format -/
def loadLegacy (s : State V) (records : List (CStr × V)) : State V :=
  { s with root := setAll s.root records }.bump

/-! ## References -/

/-- A table refers to the value. -/
def boundIn [DecidableEq V] (d : Scope V) (v : V) : Bool := (d.1.entries.map Prod.snd).contains v

/-- The reference count is not 0. -/
def alive [DecidableEq V] (s : State V) (v : V) : Bool :=
  0 < s.held v || boundIn s.root v || boundIn s.reserved v

end State

/-! ## Steps -/

inductive Op (V : Type)
  | lookup (o : ℕ) (frames : Frames V)
  | loadGlobal (bc idx : ℕ) (noGcache : Bool) (frames : Frames V)
  | def' (qname : CStr) (v : V) (frames : Frames V)
  | assign (guard isSymbol : Bool) (key : CStr) (v : V) (frames : Frames V)
  | setq (key : CStr) (v : V) (frames : Frames V)
  | forget (guard : Bool) (key : CStr)
  | bindType (name : CStr) (v : V)
  | unregisterType (name : CStr)
  | requireRefer (ns : CStr) (names : List CStr)
  | register (r : State.Registration V)
  | loadNative (regs : List (State.Registration V)) (succeeds : Bool)
  | loadUnified (modules : List (List (State.Registration V) × Bool)) (records : List (CStr × V))
      (complete : Bool)
  | loadLegacy (records : List (CStr × V))
  /-- a value is made, or one more reference to it, or a reference goes -/
  | alloc (v : V)
  | retain (v : V)
  | release (v : V)

variable [DecidableEq V]

/-- One operation; none where there is no such value or reference. -/
def step (P : Program) (s : State V) : Op V → Option (State V)
  | .lookup o frames => some (s.resolve P scanDown o frames).1
  | .loadGlobal bc idx noGcache frames => some (s.loadGlobal P bc idx noGcache frames).1
  | .def' qname v frames => some (s.def' qname v frames)
  | .assign guard isSymbol key v frames => some (s.assign guard isSymbol key v frames)
  | .setq key v frames => some (s.setq key v frames)
  | .forget guard key => some (s.forget guard key)
  | .bindType name v => some (s.bindType name v)
  | .unregisterType name => some (s.unregisterType name)
  | .requireRefer ns names => some (s.requireRefer ns names)
  | .register r => some (s.register r)
  | .loadNative regs succeeds => some (s.loadNative regs succeeds)
  | .loadUnified modules records complete => some (s.loadUnified modules records complete)
  | .loadLegacy records => some (s.loadLegacy records)
  | .alloc v =>
    if s.alive v then none else some { s with held := Function.update s.held v 1 }
  | .retain v =>
    if s.alive v then some { s with held := Function.update s.held v (s.held v + 1) } else none
  | .release v =>
    if 0 < s.held v then some { s with held := Function.update s.held v (s.held v - 1) } else none

end Alcove.Gcache
