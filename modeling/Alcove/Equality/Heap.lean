import Alcove.Hamt.FiniteMap
import Alcove.Json.Encode

/-!
# Equality of shared values

`isequal` and `isoequal` on pointers into a heap, where two values may share objects: both begin
with a comparison of the pointers. The values are acyclic, so their objects can be listed with the
parts of each before it (`Heap.older`); the first one is `nil_singleton`, a pair whose fields are
`NULL`.

`isoequal` counts its nested calls, and gives up at a depth of `isoMaxDepth`. The walk along two
lists is a loop and does not count.
-/

namespace Alcove.Equality

open Hamt (isNaN floatEq sameValue hamtHashkey)

/-! ## The heap -/

/-- `exp_t *`; `boxed` is a float that `vec_get_boxed` has just made. -/
inductive Ptr
  | null
  | fix (n : ℤ)
  | char (c : UInt32)
  | type (id : UInt32)
  | ref (i : ℕ)
  | boxed (bits : UInt64)
  deriving DecidableEq

/-- A pointer that an object may hold when the objects before it are `i`. -/
def Ptr.Before (i : ℕ) : Ptr → Prop
  | ref j => j < i
  | boxed _ => False
  | _ => True

/-- A heap object; the keys of a `hamt` carry what `isequal` and `hamt_hashkey` see of them. -/
inductive Object
  /-- a float, a string, a symbol, a blob, a rational or a decimal, or an object of another type -/
  | plain (o : Hamt.Obj)
  | pair (content next : Ptr)
  | vector (cells : List Ptr)
  | vectorI64 (cells : List ℤ)
  | vectorF64 (cells : List UInt64)
  | dict (d : Dict Ptr)
  | set (d : Dict Ptr)
  | deque (vals : List Ptr)
  | hamt (m : Hamt.Map Ptr)

namespace Object

/-- What an object refers to. -/
def parts : Object → List Ptr
  | pair content next => [content, next]
  | vector cells => cells
  | dict d => d.entries.map Prod.snd
  | deque vals => vals
  | hamt m => m.entries.map Prod.snd
  | _ => []

/-- `vec_get_boxed` of an integer cell. -/
def boxI64 (v : ℤ) : Ptr := if fixFits v then .fix v else .boxed (doubleOfInt v)

/-- `vec_get_boxed` of each cell of a vector. -/
def boxedCells : Object → Option (List Ptr)
  | vector cells => some cells
  | vectorI64 cells => some (cells.map boxI64)
  | vectorF64 cells => some (cells.map .boxed)
  | _ => none

/-- The tables of an object are sound. -/
def Sound : Object → Prop
  | dict d => d.Ok
  | set d => d.Ok
  | hamt m => m.Inv hamtHashkey
  | _ => True

end Object

/-- The objects of some acyclic values, `nil_singleton` first. -/
structure Heap where
  objs : List Object
  older : ∀ (i : ℕ) (o : Object), objs[i]? = some o → ∀ p ∈ o.parts, p.Before i
  sound : ∀ (i : ℕ) (o : Object), objs[i]? = some o → o.Sound
  nilAt : objs[0]? = some (.pair .null .null)

namespace Heap

variable (h : Heap)

/-- The object that a pointer leads to, when `is_ptr` holds of it. -/
def look : Ptr → Option Object
  | .ref i => h.objs[i]?
  | .boxed bits => some (.plain (.float bits))
  | _ => none

/-- `content` and `next` where `ispair` holds. -/
def pairOf (p : Ptr) : Option (Ptr × Ptr) :=
  match h.look p with
  | some (.pair content next) => some (content, next)
  | _ => none

end Heap

/-- A bound of the pairs along `next`. -/
def Ptr.rank : Ptr → ℕ
  | ref i => i + 1
  | _ => 0

/-- `!e || e == nil_singleton` -/
def isNil : Ptr → Bool
  | .null | .ref 0 => true
  | _ => false

/-- `cur1 == cur2`; a box is an object of its own. -/
def identical (cur1 cur2 : Ptr) : Bool :=
  match cur1 with
  | .boxed _ => false
  | _ => cur1 = cur2

namespace Heap

variable (h : Heap)

/-- `isequal` -/
def isequal (cur1 cur2 : Ptr) : Bool :=
  identical cur1 cur2 || isNil cur1 && isNil cur2 ||
    match h.look cur1, h.look cur2 with
    | some (.plain o), some (.plain o') => sameValue o o'
    | _, _ => false

section

variable (eq : Ptr → Ptr → Bool)

/-- `while (ret && ispair(cur1n) && ispair(cur2n))`, and the comparison of what is left. A walk is
no longer than the rank of its pointer. -/
def isoPairs : ℕ → Ptr → Ptr → Bool
  | 0, cur1n, cur2n => eq cur1n cur2n
  | fuel + 1, cur1n, cur2n =>
    match h.pairOf cur1n, h.pairOf cur2n with
    | some (x, xs), some (y, ys) => eq x y && isoPairs fuel xs ys
    | _, _ => eq cur1n cur2n

/-- `hamt_iso`; the walk and the lookups are defined where the trie is well formed. -/
def hamtIso (m m' : Hamt.Map Ptr) : Bool :=
  m.count = m'.count &&
    match m.visit with
    | some entries => entries.all fun e =>
      match m'.lookup hamtHashkey e.1 with
      | some (some v) => v ≠ .null && eq e.2 v
      | _ => false
    | none => false

/-- `isoequal` of two objects, over the nested call. -/
def isoObjects (a b : Ptr) : Bool :=
  match h.look a, h.look b with
  | some (.pair _ _), some (.pair _ _) => isoPairs h eq a.rank a b
  | some (.hamt m), some (.hamt m') => hamtIso eq m m'
  | some (.dict d), some (.dict d') =>
    d.used = d'.used && d.entries.all fun kv => (d'.find kv.1).any (eq kv.2)
  | some (.set d), some (.set d') =>
    d.used = d'.used && d.entries.all fun kv => (d'.find kv.1).isSome
  | some (.deque xs), some (.deque ys) => xs.isEqv ys eq
  | some o, some o' =>
    match o.boxedCells, o'.boxedCells with
    | some xs, some ys => xs.isEqv ys eq
    | _, _ => h.isequal a b
  | _, _ => false

end

/-- `ISO_MAX_DEPTH` -/
def isoMaxDepth : ℕ := 2000

/-- `isoequal`, where `room` nested calls are left. -/
def isoequal : ℕ → Ptr → Ptr → Bool
  | 0, a, b => identical a b || isNil a && isNil b
  | room + 1, a, b => identical a b || isNil a && isNil b || h.isoObjects (isoequal room) a b

end Heap

end Alcove.Equality
