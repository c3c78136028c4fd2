import Alcove.Binding.Assign
import Alcove.Binding.Binder

/-!
# Code that runs in an environment

`vm_run` gets a lambda and an environment with its arguments. As far as environments go, what the
lambda then does is a sequence of operations, each of which may depend on what the ones before it
returned (`Code`): it makes environments, binds names in those it made and in the global one, reads
them, looks names up and assigns to them, also through the cache of global bindings of a bytecode. An
environment that was there before is known to code by a closure that captured it (`Activation.held`).
The names that code looks up in its frame and that are bound neither in the frame nor in what it made
below it are the free names of the lambda (`Activation.free`).
-/

namespace Alcove.Binding

variable {V : Type}

/-! ## The state -/

/-- What the VM reads and changes: `gcache bc idx` is `bc->gcache[idx]` of the bytecode `bc`. -/
structure Vm (V : Type) extends Process V where
  gcache : ℕ → ℕ → Option (V × UInt64)

/-- `setq_store_symbol` -/
def Process.setqStoreSymbol (p : Process V) (key : CStr) (env : ℕ) (v : V) : Process V :=
  match p.heap.walk scanUp (some env) key with
  | some (i, .slot j) => p.storeInline key v i j
  | some (i, .dict) => p.storeEntry key v i
  | none => p.create key (p.heap.outermost env) v

namespace Vm

/-- `if (bc->gcache && bc->gcache[idx].gen == alcove_global_gen)` -/
def hit (p : Vm V) (bc idx : ℕ) : Option V :=
  match p.gcache bc idx with
  | some (v, gen) => if gen = p.globalGen then some v else none
  | none => none

/-- `bc->gcache[idx].val = v; bc->gcache[idx].gen = alcove_global_gen;` -/
def memoize (p : Vm V) (bc idx : ℕ) (v : V) : Vm V :=
  let entries := Function.update (p.gcache bc) idx (some (v, p.globalGen))
  { p with gcache := Function.update p.gcache bc entries }

/-- `OP_LOAD_GLOBAL` of the symbol that is number `s` -/
def loadGlobal (p : Vm V) (bc idx : ℕ) (noGcache : Bool) (s : ℕ) (sym : Symbol V) (env : ℕ) :
    Vm V × Option V :=
  match p.hit bc idx with
  | some v => (p, some v)
  | none =>
    let (found, isGlobal, sym) := lookupScoped p.toState sym (some env)
    let p := { p with symbols := p.symbols.set s sym }
    match found with
    | none => (p, none)
    | some v => (if !noGcache && isGlobal then p.memoize bc idx v else p, some v)

end Vm

/-! ## Operations -/

/-- A change of a frame, which does not see what is left beyond the live slots. -/
structure Change (V : Type) where
  apply : Frame V → Frame V
  alike : ∀ e e' : Frame V, e.Alike e' → (apply e).Alike (apply e')

/-- A value that code reads in a frame, as `OP_LOAD_SLOT` of a live slot. -/
structure View (V : Type) where
  read : Frame V → Option V
  alike : ∀ e e' : Frame V, e.Alike e' → read e = read e'

/-- An environment as code knows it: its own frame, one that it made, or one that was there before. -/
inductive Handle where
  | frame
  | made (k : ℕ)
  | held (i : ℕ)

/-- What code does. A handler of `try` runs in an environment that is made beside the frame it was
pushed in (`vm_handler_make_env`). An assignment to a string is not checked for reserved names. -/
inductive Op (V : Type) where
  | make (root : Handle) (stale : Stale V)
  | makeBeside (env : Handle) (stale : Stale V)
  | change (env : Handle) (f : Change V)
  | view (env : Handle) (f : View V)
  | lookup (s : ℕ) (env : Handle)
  | loadGlobal (bc idx : ℕ) (noGcache : Bool) (s : ℕ) (env : Handle)
  | assign (isSymbol guard : Bool) (key : CStr) (env : Handle) (v : V)
  | setq (key : CStr) (env : Handle) (v : V)
  | readSymbol (text : CStr)
  | registerCmd (name : CStr) (v : V)
  | bumpGen

/-- What an operation returns to the code. -/
abbrev Response (V : Type) : Type := Except AssignError (Option V)

/-- The operations that code does until it returns. -/
inductive Code (V : Type) where
  | ret (v : Option V)
  | op (o : Op V) (next : Response V → Code V)

/-! ## Runs -/

/-- What stays the same while code runs: the number of its frame, how many environments there were
before, the free names, and the environments that values captured. -/
structure Activation where
  frame : ℕ
  first : ℕ
  free : List CStr
  held : List ℕ

/-- The state of the VM, and for each environment that the code made whether the frame is on its
chain. -/
structure Run (V : Type) where
  vm : Vm V
  inner : List Bool

namespace Activation

variable (a : Activation) (s : Run V)

/-- The number of an environment, and whether the frame is on its chain. -/
def refer : Handle → Option (ℕ × Bool)
  | .frame => some (a.frame, true)
  | .made k => (s.inner[k]?).map fun inner => (a.first + k, inner)
  | .held i => if i ∈ a.held then some (i, false) else none

/-- Code runs in environments that it made and in the global one. -/
def runsIn : Handle → Option (ℕ × Bool)
  | .held i => if s.vm.heap.isRoot i then a.refer s (.held i) else none
  | env => a.refer s env

/-- The frame and what the code made. -/
def own (i : ℕ) : Bool := i = a.frame || a.first ≤ i

/-- A name is looked up where the frame is on the chain if it is free, or bound in the frame or below. -/
def sees (env : ℕ × Bool) (key : CStr) : Bool :=
  !env.2 || a.free.contains key || (s.vm.heap.binder (some env.1) key).any a.own

end Activation

/-- `make_env` -/
def Run.push (s : Run V) (e : Env V) (inner : Bool) : Option (Run V × Response V) :=
  if hr : ∀ r ∈ e.root, r < s.vm.heap.envs.length then
    some (⟨{ s.vm with heap := s.vm.heap.push e hr }, s.inner ++ [inner]⟩, .ok none)
  else none

/-- One operation; none where the code cannot do it. -/
def Op.exec (a : Activation) (s : Run V) : Op V → Option (Run V × Response V)
  | .make root stale =>
    (a.refer s root).bind fun env => s.push ⟨Frame.fresh stale, some env.1⟩ env.2
  | .makeBeside (.held _) _ => none
  | .makeBeside h stale =>
    (a.refer s h).bind fun env =>
      s.push ⟨Frame.fresh stale, (s.vm.heap.envs[env.1]?).bind Env.root⟩ env.2
  | .change h f =>
    (a.runsIn s h).map fun env =>
      (⟨{ s.vm with heap := s.vm.heap.modify env.1 f.apply }, s.inner⟩, .ok none)
  | .view h f =>
    (a.runsIn s h).map fun env =>
      (s, .ok ((s.vm.heap.envs[env.1]?).bind fun e => f.read e.toFrame))
  | .lookup i h =>
    (a.runsIn s h).bind fun env => (s.vm.symbols[i]?).bind fun sym =>
      if a.sees s env sym.text then
        let (v, sym) := Binding.lookup s.vm.toState sym (some env.1)
        some (⟨{ s.vm with symbols := s.vm.symbols.set i sym }, s.inner⟩, .ok v)
      else none
  | .loadGlobal bc idx noGcache i h =>
    (a.runsIn s h).bind fun env => (s.vm.symbols[i]?).bind fun sym =>
      if a.sees s env sym.text then
        let (vm, v) := s.vm.loadGlobal bc idx noGcache i sym env.1
        some (⟨vm, s.inner⟩, .ok v)
      else none
  | .assign isSymbol guard key h v =>
    (a.runsIn s h).bind fun env =>
      if a.sees s env key then
        if isSymbol && isReservedName s.vm.toState key then some (s, .error (.reservedName key))
        else
          let (p, refused) := s.vm.toProcess.assignStoreSymbol guard key env.1 v
          some (⟨{ s.vm with toProcess := p }, s.inner⟩,
            if refused = 0 then .ok (some v) else .error .readOnlyCallback)
      else none
  | .setq key h v =>
    (a.runsIn s h).bind fun env =>
      if a.sees s env key then
        if isReservedName s.vm.toState key then some (s, .error (.reservedName key))
        else
          some (⟨{ s.vm with toProcess := s.vm.toProcess.setqStoreSymbol key env.1 v }, s.inner⟩,
            .ok (some v))
      else none
  | .readSymbol text =>
    some (⟨{ s.vm with symbols := s.vm.symbols ++ [⟨text, none⟩] }, s.inner⟩, .ok none)
  | .registerCmd name v =>
    some (⟨{ s.vm with reserved := s.vm.reserved.set name v }, s.inner⟩, .ok none)
  | .bumpGen => some (⟨{ s.vm with globalGen := s.vm.globalGen + 1 }, s.inner⟩, .ok none)

/-- A run until the code returns. -/
def Code.exec (a : Activation) : Code V → Run V → Option (Option V × Vm V)
  | .ret v, s => some (v, s.vm)
  | .op o next, s => (o.exec a s).bind fun (s, r) => (next r).exec a s

end Alcove.Binding
