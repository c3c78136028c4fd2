import Alcove.Classes.Methods
import Alcove.Lib.Lineage
import Mathlib.Order.WellFounded

/-!
# Which method runs

What generic functions are for, in terms of the definitions that were made: a call on an instance runs
the method of the nearest class in its line of ancestors that has one for this generic function, else that
of `Any`. `Resolves` says that a state of the runtime does so after a history of definitions.

`Def.Clean` is what a definition has to keep clear of: names that do not fit the buffer, names of globals
that definitions make for their own use, and lines of more than 64 classes.
-/

namespace Alcove.Classes

open Lib

/-! ## The history -/

/-- A definition that was made. -/
inductive Event
  | cls (id parent : ℕ)
  | generic (name : Name)
  | method (name : Name) (id : ℕ) (m : Method)

/-- The definitions made so far, the last one first. -/
abbrev History : Type := List Event

namespace History

variable (h : History)

/-- The class was defined. -/
def IsClass (id : ℕ) : Prop := ∃ parent, Event.cls id parent ∈ h

/-- The parent of a class -/
def parentOf (id : ℕ) : Option ℕ :=
  h.findSome? fun
    | .cls i p => if i = id ∧ p ≠ 0 then some p else none
    | _ => none

/-- The generic function was defined. -/
def IsGeneric (name : Name) : Prop := Event.generic name ∈ h

/-- The method of a generic function for a type. -/
def methodOf (name : Name) (id : ℕ) : Option Method :=
  h.findSome? fun
    | .method n i m => if n = name ∧ i = id then some m else none
    | _ => none

/-- The method that is nearest on a line of ancestors, else the one for `Any`. -/
def nearest (name : Name) (line : List ℕ) : Option Method :=
  (line.findSome? (h.methodOf name)).or (h.methodOf name typeAny)

/-- A call of `super` in a method of the second class finds a method of the first. -/
def SuperFinds (owner id : ℕ) : Prop :=
  ∃ parent line, h.parentOf id = some parent ∧ Lineage h.parentOf parent line ∧ owner ∈ line

end History

section Reserved

variable (reserved : Name → Option Value)

/-- The class that a dispatch value is. -/
def Dval.classOf (s : Runtime) : Dval → Option ℕ
  | .value (.type id) => some id
  | .value _ => none
  | .name n =>
    match reserved n with
    | some (.type id) => some id
    | some _ => none
    | none => (s.typeByName n).map UserType.id

/-- The definitions of the methods of a class. -/
def methodEvents (id parent : ℕ) : List MethodSpec → History
  | [] => []
  | m :: ms => methodEvents id parent ms ++
      [.method m.name id ⟨m.params, m.body.map (rewriteSuper parent)⟩, .generic m.name]

/-- What a definition defines. -/
def Def.events (s : Runtime) : Def → History
  | .defclass dev cname clauses =>
    match (registerClass reserved dev s cname clauses).2 with
    | .error _ => []
    | .ok (id, parent, methods) => methodEvents id parent methods ++ [.cls id parent]
  | .defmulti name _ => [.generic name]
  | .defmethod name dval params body =>
    match (defmethodcmd reserved s name dval params body).2, dval.classOf reserved s with
    | .ok (), some id => [.method name id ⟨params, body⟩]
    | _, _ => []

/-- Definitions are evaluated one after the other. -/
def program (x : Runtime × History) : List Def → Runtime × History
  | [] => x
  | d :: ds => program ((d.run reserved x.1).1, d.events reserved x.1 ++ x.2) ds

/-! ## The purpose -/

/-- After these definitions, generic functions, `is-a?` and `super` follow the line of ancestors. -/
structure Resolves (s : Runtime) (h : History) : Prop where
  /-- The line of a class ends. -/
  line : ∀ id, h.IsClass id → ∃ l, Lineage h.parentOf id l
  /-- A call on an instance runs the nearest method. -/
  call : ∀ id l name args, h.IsClass id → Lineage h.parentOf id l → h.IsGeneric name →
    callGeneric reserved s name (.instance id :: args) = h.nearest name l
  /-- An instance is one of the classes of its line. -/
  isA : ∀ id l target, h.IsClass id → Lineage h.parentOf id l → typeUserMin ≤ target →
    (isA s id target = true ↔ target ∈ l)
  /-- `super` in a method of a class runs what a call on an instance of its parent runs. -/
  super : ∀ id parent l name args, h.IsClass id → h.parentOf id = some parent →
    Lineage h.parentOf parent l → ∃ callee,
      rewriteSuper parent (.pair (.symbol (lit "super")) (.pair (.symbol name) args)) =
        .pair callee (rewriteElements parent args) ∧
      evalCallee reserved s callee = h.nearest name l ∧
      ∀ args', h.IsGeneric name → callGeneric reserved s name (.instance parent :: args') =
        evalCallee reserved s callee
  /-- It goes strictly up, and comes to an end. -/
  ascends : ∀ owner id, h.SuperFinds owner id → ∀ l, Lineage h.parentOf id l → owner ∈ l.tail
  ends : WellFounded h.SuperFinds

/-! ## What definitions keep clear of -/

/-- The parent of a class in the registry. -/
def Runtime.parentOf (s : Runtime) (id : ℕ) : Option ℕ :=
  (s.typeById id).bind fun t => if t.parent = 0 then none else some t.parent

/-- The name is not bound to a type, a generic function or a table. -/
def Runtime.Unused (s : Runtime) (name : Name) : Prop :=
  s.globals name = none ∨ s.globals name = some .other

/-- The name of a generic function fits the buffer; neither it nor that of its table is used. -/
structure GenericOk (s : Runtime) (name : Name) : Prop where
  fits : name.length ≤ 156
  plain : reserved name = none
  noTable : ∀ methods, s.globals name ≠ some (.table methods)
  noType : ∀ id, s.globals name ≠ some (.type id)
  tablePlain : isReservedName reserved s (name ++ lit "__m") = false
  tableNoGeneric : ∀ table dispatch, s.globals (name ++ lit "__m") ≠ some (.generic table dispatch)

/-- The methods of a class are clean, each in the state in which it is defined. -/
def CleanMethods (cname : Name) (parent : ℕ) : Runtime → List MethodSpec → Prop
  | _, [] => True
  | s, m :: ms => GenericOk reserved s m.name ∧
      CleanMethods cname parent (defmethodcmd reserved (defmulticmd reserved s m.name .typecmd).1 m.name
        (.name cname) m.params (m.body.map (rewriteSuper parent))).1 ms

/-- What a definition keeps clear of. -/
def Def.Clean (s : Runtime) : Def → Prop
  | .defclass dev cname clauses =>
    s.typeByName cname = none ∧
      ∀ claim b parent fields, checkClass reserved (reopen dev s cname) cname clauses =
          .ok (claim, b, parent, fields) →
        (∀ n ∈ generatedNames cname fields, s.Unused n) ∧
        (∀ l, Lineage s.parentOf parent l → l.length < 64) ∧
        CleanMethods reserved cname parent (registerClass reserved dev s cname clauses).1 b.methods
  | .defmulti name dispatch => dispatch = .typecmd ∧ GenericOk reserved s name
  | .defmethod name dval _ _ => name.length ≤ 156 ∧
      ∀ t x id, evalDval reserved s dval = some (.text t x) → x ≠ typeKey id

/-- Every definition is clean, in the state in which it is evaluated. -/
def CleanProgram : Runtime → List Def → Prop
  | _, [] => True
  | s, d :: ds => d.Clean reserved s ∧ CleanProgram (d.run reserved s).1 ds

end Reserved

end Alcove.Classes
