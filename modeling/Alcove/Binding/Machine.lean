import Alcove.Binding.Env
import Alcove.Lib.Transition

/-!
# Lookups, assignments and frames

The state of the interpreter as far as names go: the environments, the names of the builtins
(`reserved_symbol`) and of the user types, the symbols with the builtin each has cached, and the
frames that the handlers of `try` forms have saved. `lookup`, `lookup_scoped`, `updatebang`,
`assign_store_symbol` and `setq_store_symbol` are translated from `alcove.c`; the steps are what
interpreted and compiled code does to environments: a call binds its parameters one by one, a
compiled `let` binds all its names with `BIND_SLOT_NAMED` from the last one back, a self tail call
keeps the names of the parameters, a handler frame is rebuilt from what was saved of it.
-/

namespace Alcove.Binding

open Lib

variable {V : Type}

/-! ## Changes of one frame -/

/-- What the arrays of an environment held before it was made. -/
structure Stale (V : Type) where
  keys : ℕ → Option CStr
  vals : ℕ → Option V

namespace Frame

/-- The frame that `make_env` gives. -/
def fresh (stale : Stale V) : Frame V := ⟨stale.keys, stale.vals, 0, none⟩

/-- `var2env_bind` -/
def bindVar (e : Frame V) (name : CStr) (v : V) : Frame V :=
  if e.nInline < envInlineSlots then
    { e with
      inlineKeys := Function.update e.inlineKeys e.nInline (some name)
      inlineVals := Function.update e.inlineVals e.nInline (some v)
      nInline := e.nInline + 1 }
  else e.define name v

/-- `OP_BIND_SLOT`, and `OP_BIND_SLOT_NAMED` when there is a name -/
def bindSlot (e : Frame V) (idx : ℕ) (name : Option CStr) (v : V) : Frame V :=
  { e with
    inlineKeys := Function.update e.inlineKeys idx name
    inlineVals := Function.update e.inlineVals idx (some v)
    nInline := if e.nInline ≤ idx then idx + 1 else e.nInline }

theorem bindSlot_keys (e : Frame V) (idx : ℕ) (name : Option CStr) (v : V) :
    (e.bindSlot idx name v).inlineKeys = Function.update e.inlineKeys idx name := rfl

theorem bindSlot_nInline (e : Frame V) (idx : ℕ) (name : Option CStr) (v : V) :
    (e.bindSlot idx name v).nInline = if e.nInline ≤ idx then idx + 1 else e.nInline := rfl

/-- The bindings of one compiled `let` from the slot `start` on; the last one is bound first. -/
def bindLet (e : Frame V) (start : ℕ) : List (CStr × V) → Frame V
  | [] => e
  | (name, v) :: rest => (e.bindLet (start + 1) rest).bindSlot start (some name) v

/-- `OP_UNBIND_SLOT` -/
def unbindSlot (e : Frame V) (idx : ℕ) : Frame V :=
  { e with
    inlineKeys := Function.update e.inlineKeys idx none
    inlineVals := Function.update e.inlineVals idx none
    nInline := if idx + 1 = e.nInline then idx else e.nInline }

theorem unbindSlot_keys (e : Frame V) (idx : ℕ) :
    (e.unbindSlot idx).inlineKeys = Function.update e.inlineKeys idx none := rfl

theorem unbindSlot_nInline (e : Frame V) (idx : ℕ) :
    (e.unbindSlot idx).nInline = if idx + 1 = e.nInline then idx else e.nInline := rfl

/-- `OP_STORE_SLOT` -/
def storeSlot (e : Frame V) (idx : ℕ) (v : V) : Frame V :=
  { e with inlineVals := Function.update e.inlineVals idx (some v) }

/-- `OP_TAIL_SELF`: new values for the parameters, whose names stay. -/
def tailSelf (e : Frame V) (args : List V) : Frame V :=
  let n := min args.length envInlineSlots
  { e with
    inlineVals := fun i => if i < n then args[i]? else e.inlineVals i
    nInline := n }

/-- A frame is emptied for the next call, by `OP_TAIL_CALL` or by a tail call of interpreted
code. -/
def release (e : Frame V) : Frame V := { e with nInline := 0, d := none }

/-- An entry of the dict is deleted. -/
def forget (e : Frame V) (key : CStr) : Frame V := { e with d := e.d.map fun d => d.erase key }

/-- The frame that `vm_handler_make_env` gives: what `vm_handler_push` saved of one. -/
def ofHandler (saved : Frame V) (stale : Stale V) : Frame V where
  inlineKeys := fun i => if i < saved.nInline then saved.inlineKeys i else stale.keys i
  inlineVals := fun i => if i < saved.nInline then saved.inlineVals i else stale.vals i
  nInline := saved.nInline
  d := saved.d.map Scope.copy

end Frame

/-! ## The state -/

/-- A symbol: its text, and in `meta` the builtin it was once resolved to. -/
structure Symbol (V : Type) where
  text : CStr
  cached : Option V

/-- `userTypes` are the names in `g_user_types`; `handlers` are the saved frames, the innermost one
first. -/
structure State (V : Type) where
  heap : Heap V
  reserved : Scope V
  userTypes : List CStr
  symbols : List (Symbol V)
  handlers : List (Env V)

/-- Why an assignment is refused. -/
inductive AssignError where
  | reservedName (name : CStr)
  | readOnlyCallback

/-- The text of the error. -/
def AssignError.message : AssignError → List UInt8
  | .reservedName name => "cannot assign to reserved name '".toUTF8.toList ++ name.bytes ++
      "'".toUTF8.toList
  | .readOnlyCallback => "this RESP command callback is read-only w.r.t. Lisp globals ".toUTF8.toList
      ++ "(callbacks run concurrently under --threads); mutate the ".toUTF8.toList
      ++ "keyspace, not global defs/vars".toUTF8.toList

/-! ## Lookups -/

/-- `lookup` -/
def lookup (σ : State V) (s : Symbol V) (env : Option ℕ) : Option V × Symbol V :=
  match s.cached with
  | some v => (some v, s)
  | none =>
    match σ.reserved.find s.text with
    | some v => (some v, { s with cached := some v })
    | none => ((σ.heap.walk scanDown env s.text).bind (σ.heap.read s.text), s)

/-- `lookup_scoped`: the flag says whether the binding is a global one. -/
def lookupScoped (σ : State V) (s : Symbol V) (env : Option ℕ) : Option V × Bool × Symbol V :=
  match s.cached with
  | some v => (some v, true, s)
  | none =>
    match σ.reserved.find s.text with
    | some v => (some v, true, { s with cached := some v })
    | none =>
      match σ.heap.walk scanUp env s.text with
      | some found => (σ.heap.read s.text found, σ.heap.isRoot found.1, s)
      | none => (none, false, s)

/-! ## Assignments -/

/-- `is_reserved_name` -/
def isReservedName (σ : State V) (name : CStr) : Bool :=
  (σ.reserved.find name).isSome || σ.userTypes.contains name

namespace Heap

/-- A store to a binding that a walk found. -/
def write (h : Heap V) (key : CStr) (v : V) (found : ℕ × Place) : Heap V :=
  h.modify found.1 fun e => e.write key v found.2

/-- A new entry in the dict of an environment. -/
def define (h : Heap V) (i : ℕ) (key : CStr) (v : V) : Heap V :=
  h.modify i fun e => e.define key v

/-- The global environment of a chain: `while (root && root->root) root = root->root;`. -/
def outermost (h : Heap V) (env : ℕ) : ℕ := (h.chain (some env)).getLastD env

end Heap

/-- `assign_store_symbol`: the nearest binding is assigned to, or one is made in `env`. The guard
refuses to write to the dict of a global environment. -/
def assignStoreSymbol (h : Heap V) (guard : Bool) (key : CStr) (env : ℕ) (v : V) :
    Except AssignError (Heap V) :=
  match h.walk scanUp (some env) key with
  | some (i, .slot j) => .ok (h.write key v (i, .slot j))
  | some (i, .dict) =>
    if guard && h.isRoot i then .error .readOnlyCallback else .ok (h.write key v (i, .dict))
  | none => if guard && h.isRoot env then .error .readOnlyCallback else .ok (h.define env key v)

/-- **What an assignment does**: a store to the binding that a walk finds, or a new binding. -/
theorem Heap.assignStoreSymbol_cases {h h' : Heap V} {guard : Bool} {key : CStr} {env : ℕ} {v : V}
    (ha : assignStoreSymbol h guard key env v = .ok h') :
    (∃ found, h.walk scanUp (some env) key = some found ∧ h' = h.write key v found) ∨
      (h.walk scanUp (some env) key = none ∧ h' = h.define env key v) := by
  rw [assignStoreSymbol] at ha
  split at ha
  · rename_i i j hw
    exact .inl ⟨(i, .slot j), hw, (Except.ok.inj ha).symm⟩
  · rename_i i hw
    split at ha
    · cases ha
    · exact .inl ⟨(i, .dict), hw, (Except.ok.inj ha).symm⟩
  · rename_i hw
    split at ha
    · cases ha
    · exact .inr ⟨hw, (Except.ok.inj ha).symm⟩

/-- `updatebang` where the place is a symbol or a string -/
def updatebang (σ : State V) (guard isSymbol : Bool) (key : CStr) (env : ℕ) (v : V) :
    Except AssignError (State V) :=
  if isSymbol && isReservedName σ key then .error (.reservedName key)
  else (assignStoreSymbol σ.heap guard key env v).map fun h => { σ with heap := h }

/-- `setq_store_symbol`: without the guard, and a new binding is a global one. -/
def setqStoreSymbol (h : Heap V) (key : CStr) (env : ℕ) (v : V) : Heap V :=
  match h.walk scanUp (some env) key with
  | some found => h.write key v found
  | none => h.define (h.outermost env) key v

/-! ## Steps -/

/-- What code does to environments and symbols. -/
inductive Step (V : Type) where
  | makeEnv (root : Option ℕ) (stale : Stale V)
  | bindVar (env : ℕ) (name : CStr) (v : V)
  | bindLet (env : ℕ) (bindings : List (CStr × V))
  | bindSlot (env : ℕ) (v : V)
  | unbindSlot (env idx : ℕ)
  | storeSlot (env idx : ℕ) (v : V)
  | tailSelf (env : ℕ) (args : List V)
  | tailCall (env : ℕ)
  | updatebang (guard isSymbol : Bool) (key : CStr) (env : ℕ) (v : V)
  | setq (key : CStr) (env : ℕ) (v : V)
  | define (env : ℕ) (key : CStr) (v : V)
  | forget (env : ℕ) (key : CStr)
  | pushHandler (env : ℕ)
  | handlerEnv (k : ℕ) (stale : Stale V)
  | popHandler
  | readSymbol (text : CStr)
  | lookup (s : ℕ) (env : Option ℕ)
  | lookupScoped (s : ℕ) (env : Option ℕ)
  | registerCmd (name : CStr) (v : V)
  | registerType (name : CStr)

/-- A new environment, whose `root` is one that there is. -/
def Heap.push (h : Heap V) (e : Env V) (hr : ∀ r ∈ e.root, r < h.envs.length) : Heap V where
  envs := h.envs ++ [e]
  rooted := by
    intro i e' r hi her
    rcases Nat.lt_or_ge i h.envs.length with hlt | hge
    · rw [List.getElem?_append_left hlt] at hi
      exact h.rooted i e' r hi her
    · rw [List.getElem?_append_right hge, List.getElem?_singleton] at hi
      split at hi
      · obtain rfl := Option.some.inj hi
        exact Nat.lt_of_lt_of_le (hr r her) hge
      · cases hi

namespace State

/-- A change of one frame that there is, which has to meet the condition `ok`. -/
def change (σ : State V) (i : ℕ) (ok : Frame V → Bool) (f : Frame V → Frame V) :
    Option (State V) :=
  match σ.heap.envs[i]? with
  | some e => if ok e.toFrame then some { σ with heap := σ.heap.modify i f } else none
  | none => none

/-- A new environment. -/
def push (σ : State V) (e : Env V) : Option (State V) :=
  if hr : ∀ r ∈ e.root, r < σ.heap.envs.length then
    some { σ with heap := σ.heap.push e hr }
  else none

/-- What a lookup leaves in the symbol. -/
def cache (σ : State V) (s : ℕ) (sym : Symbol V) : State V :=
  { σ with symbols := σ.symbols.set s sym }

/-- The state once `init` has made the global environment and the builtins. -/
def init (stale : Stale V) (reserved : Scope V) : State V where
  heap := (⟨[], by simp⟩ : Heap V).push ⟨Frame.fresh stale, none⟩ (by simp)
  reserved := reserved
  userTypes := []
  symbols := []
  handlers := []

end State

/-- One step. The compiler gives the bindings of a `let` and the hidden slot of a `for` the first
free slots, when there are enough, and a self tail call has as many arguments as the frame has
parameters. -/
def step (σ : State V) : Step V → Option (State V)
  | .makeEnv root stale => σ.push ⟨Frame.fresh stale, root⟩
  | .bindVar env name v => σ.change env (fun _ => true) fun e => e.bindVar name v
  | .bindLet env bs =>
    σ.change env (fun e => e.nInline + bs.length ≤ envInlineSlots) fun e => e.bindLet e.nInline bs
  | .bindSlot env v =>
    σ.change env (fun e => e.nInline < envInlineSlots) fun e => e.bindSlot e.nInline none v
  | .unbindSlot env idx => σ.change env (fun _ => true) fun e => e.unbindSlot idx
  | .storeSlot env idx v => σ.change env (fun _ => true) fun e => e.storeSlot idx v
  | .tailSelf env args => σ.change env (fun e => args.length ≤ e.nInline) fun e => e.tailSelf args
  | .tailCall env => σ.change env (fun _ => true) Frame.release
  | .updatebang guard isSymbol key env v =>
    if env < σ.heap.envs.length then (updatebang σ guard isSymbol key env v).toOption else none
  | .setq key env v =>
    if env < σ.heap.envs.length ∧ !isReservedName σ key then
      some { σ with heap := setqStoreSymbol σ.heap key env v }
    else none
  | .define env key v => σ.change env (fun _ => true) fun e => e.define key v
  | .forget env key => σ.change env (fun _ => true) fun e => e.forget key
  | .pushHandler env => (σ.heap.envs[env]?).map fun e => { σ with handlers := e :: σ.handlers }
  | .handlerEnv k stale =>
    (σ.handlers[k]?).bind fun saved => σ.push ⟨saved.toFrame.ofHandler stale, saved.root⟩
  | .popHandler => some { σ with handlers := σ.handlers.tail }
  | .readSymbol text => some { σ with symbols := σ.symbols ++ [⟨text, none⟩] }
  | .lookup s env => (σ.symbols[s]?).map fun sym => σ.cache s (lookup σ sym env).2
  | .lookupScoped s env => (σ.symbols[s]?).map fun sym => σ.cache s (lookupScoped σ sym env).2.2
  | .registerCmd name v => some { σ with reserved := σ.reserved.set name v }
  | .registerType name => some { σ with userTypes := name :: σ.userTypes }

end Alcove.Binding
