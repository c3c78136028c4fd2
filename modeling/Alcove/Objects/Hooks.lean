import Alcove.Objects.Heap

/-!
# Validators and watchers

`watch_validate` and `watch_notify`. The functions that a program installs may do anything with the
heap and the registry, so they are a parameter (`Callback`). A run of a mutating builtin is its
result with what it did, in order: the calls of hooks and the write (`Event`).

`watch_notify` saves the next cell of the list before each call. It has no defined result when the
watcher frees this cell and registers another watcher (`notifyLoop`), or makes the registry grow.
-/

namespace Alcove.Objects

/-- The operations that hooks are told of. -/
inductive Op
  | assoc
  | dissoc
  | pushRight
  | pushLeft
  | popRight
  | popLeft
  | vecSet
  | vecPush
  | vecPop
  | vecUnshift
  | vecShift
  | setAdd
  | setDel
  deriving DecidableEq

/-- The symbol of an operation. -/
def Op.name : Op → String
  | assoc => "assoc!"
  | dissoc => "dissoc!"
  | pushRight => "push-right!"
  | pushLeft => "push-left!"
  | popRight => "pop-right!"
  | popLeft => "pop-left!"
  | vecSet => "vec-set!"
  | vecPush => "vec-push!"
  | vecPop => "vec-pop!"
  | vecUnshift => "vec-unshift!"
  | vecShift => "vec-shift!"
  | setAdd => "set-add!"
  | setDel => "set-del!"

/-- The arguments of a hook: `(fn obj op key new)`, or `(fn obj ev)` with the event of
`watch_make_event`. -/
inductive Call
  | validate (obj : ℕ) (op : Op) (key new : Ptr)
  | notify (obj : ℕ) (op : Op) (key old new : Ptr)
  deriving DecidableEq

/-- What the call of a function returns, and the world it leaves. -/
abbrev Callback : Type := Ptr → Call → World → Ptr × World

/-- What a mutating builtin does. -/
inductive Event
  | called (fn : Ptr) (c : Call) (reply : Ptr)
  | wrote (i : ℕ) (o : Object)
  deriving DecidableEq

/-- What a builtin returns: a value it has, or a new error. -/
inductive Ret
  | ptr (p : Ptr)
  | raise (c : ErrorClass)
  deriving DecidableEq

/-- A run of a builtin. -/
structure Run where
  events : List Event
  ret : Ret
  world : World
  deriving DecidableEq

/-- The run with earlier events. -/
def Run.after (events : List Event) (r : Run) : Run := { r with events := events ++ r.events }

/-- `p ? p : NIL_EXP` -/
def orNil : Ptr → Ptr
  | .null => .nil
  | p => p

/-- `if (watch_find(obj)) obj->flags |= FLAG_WATCHED` -/
def World.rehook (w : World) (i : ℕ) : World :=
  if (w.watchFind i).isSome then w.setWatched i true else w

/-- The error that the reply of a validator means: its own, or a new one for nil. -/
def rejection (w : World) (reply : Ptr) : Option Ret :=
  if (w.errorOf reply).isSome then some (.ptr reply)
  else if reply = .null ∨ reply = .nil then some (.raise .illegalValue)
  else none

variable (call : Callback)

/-- `watch_validate` -/
def watchValidate (i : ℕ) (op : Op) (k nw : Ptr) (w : World) : List Event × Option Ret × World :=
  match (w.watchFind i).bind Hooks.validator with
  | none => ([], none, w)
  | some fn =>
    let c := .validate i op (orNil k) (orNil nw)
    let (r, w) := call fn c (w.setWatched i false)
    ([.called fn c r], rejection w r, w.rehook i)

/-- The loop of `watch_notify`, with `s` in the registry at `tab`. -/
def notifyLoop (i tab : ℕ) (c : Call) :
    List (ℕ × Ptr) → World → Option (List Event × Option Ptr × World)
  | [], w => some ([], none, w)
  | (_, fn) :: next, w =>
    let (r, w) := call fn c w
    if (w.errorOf r).isSome then some ([.called fn c r], some r, w)
    else if w.watchTab ≠ tab then none
    else if w.fns i = [] ∨ next = [] then some ([.called fn c r], none, w)
    -- the saved cell is alive when the list still ends with it
    else if next <:+ w.fns i then
      (notifyLoop i tab c next w).map fun (ev, err, w) => (.called fn c r :: ev, err, w)
    else none

/-- `watch_notify` -/
def watchNotify (i : ℕ) (op : Op) (k old nw : Ptr) (w : World) :
    Option (List Event × Option Ptr × World) :=
  if w.fns i = [] then some ([], none, w)
  else
    (notifyLoop call i w.watchTab (.notify i op (orNil k) (orNil old) (orNil nw)) (w.fns i)
      (w.setWatched i false)).map fun (ev, err, w) => (ev, err, w.rehook i)

/-! ## The steps of a mutating builtin -/

/-- It returns without a hook. -/
def done (ret : Ret) (w : World) : Option Run := some ⟨[], ret, w⟩

/-- It calls `watch_validate`, and returns the rejection if there is one. -/
def validating (i : ℕ) (op : Op) (k nw : Ptr) (next : World → Option Run) (w : World) :
    Option Run :=
  match watchValidate call i op k nw w with
  | (ev, some err, w) => some ⟨ev, err, w⟩
  | (ev, none, w) => (next w).map (Run.after ev)

/-- It changes the object. -/
def writing (i : ℕ) (o : Object) (next : World → Option Run) (w : World) : Option Run :=
  (next (w.store i o)).map (Run.after [.wrote i o])

/-- It calls `watch_notify`, and returns the error of a watcher or its own result. -/
def notifying (i : ℕ) (op : Op) (k old nw : Ptr) (ret : Ret) (w : World) : Option Run :=
  (watchNotify call i op k old nw w).map fun (ev, err, w) => ⟨ev, (err.map Ret.ptr).getD ret, w⟩

end Alcove.Objects
