import Alcove.Value.Set

/-!
# Equal values

`isequal` and `isoequal`, for two values that share no object but the singletons, such as a value and
one that was read back from a file. The values are trees, so the comparison of pointers that both begin
with sees the immediates and the singletons only (`identical`).

`isoequal` counts its nested calls: at a depth of `isoMaxDepth` it gives up.
-/

namespace Alcove

namespace Exp

/-- `cur1 == cur2` -/
def identical : Exp → Exp → Bool
  | null, null | nil, nil | t, t => true
  | fix m, fix n => m = n
  | char c, char d => c = d
  | type i, type j => i = j
  | _, _ => false

/-- `!e || e == nil_singleton` -/
def isNil : Exp → Bool
  | null | nil => true
  | _ => false

/-- `ispair` -/
def isPair : Exp → Bool
  | nil | pair _ _ => true
  | _ => false

/-- The name of a symbol. -/
def symbolText : Exp → Option CStr
  | t => some (.ofBytes [0x74])
  | symbol text => some text
  | _ => none

/-- `isequal` -/
def isequal (a b : Exp) : Bool :=
  identical a b || isNil a && isNil b ||
    match a, b with
    | float x, float y => Hamt.floatEq x y
    | string s, string s' => s = s'
    | blob x, blob y => x = y
    | rational n d, rational n' d' => n = n' && d = d'
    | decimal c s, decimal c' s' => c = c' && s = s'
    | a, b => a.symbolText.isSome && a.symbolText = b.symbolText

/-- `vec_get_boxed` of each cell of a vector. -/
def boxedCells : Exp → Option (List Exp)
  | vector cells => some cells
  | vectorI64 cells => some (cells.map Json.boxI64)
  | vectorF64 cells => some (cells.map float)
  | _ => none

/-- The keys that `hamt_hashkey` hashes by what `isequal` compares; another key is looked for under its
address. -/
def hashedByValue : Exp → Bool
  | t | fix _ | char _ | type _ | float _ | string _ | symbol _ | blob _ => true
  | _ => false

/-- `hamt_node_get` -/
def hamtGet (entries : List (Exp × Exp)) (key : Exp) : Option Exp :=
  if key.hashedByValue then (entries.find? fun kv => isequal kv.1 key).map Prod.snd else none

section

variable (eq : Exp → Exp → Bool)

/-- The walk along two lists, and the comparison of what is left of them. -/
def isoPairs : Exp → Exp → Bool
  | pair x xs, pair y ys => eq x y && isoPairs xs ys
  | pair x xs, nil => eq x null && eq xs null
  | nil, pair y ys => eq null y && eq null ys
  | nil, nil => eq null null && eq null null
  | a, b => eq a b

/-- `isoequal` of two objects, over the nested call. The source compares lambdas and macros by identity;
`callables` compares them by name, parameters and body instead. -/
def isoObjects (callables : Bool) (a b : Exp) : Bool :=
  match a, b with
  | hamt es, hamt es' => es.length = es'.length && es.all fun kv => (hamtGet es' kv.1).any (eq kv.2)
  | dict d, dict d' => d.used = d'.used && d.entries.all fun kv => (d'.find kv.1).any (eq kv.2)
  | set d, set d' => d.used = d'.used && d.entries.all fun kv => (d'.find kv.1).isSome
  | deque xs, deque ys => xs.isEqv ys eq
  | lambda multi name params body, lambda multi' name' params' body' =>
    callables && multi = multi' && name = name' && eq params params' && eq body body'
  | expander name params body, expander name' params' body' =>
    callables && name = name' && eq params params' && eq body body'
  | a, b =>
    if a.isPair && b.isPair then isoPairs eq a b
    else match a.boxedCells, b.boxedCells with
      | some xs, some ys => xs.isEqv ys eq
      | _, _ => isequal a b

end

/-- `ISO_MAX_DEPTH` -/
def isoMaxDepth : ℕ := 2000

/-- `isoequal`, where `room` nested calls are left. -/
def isoequal (callables : Bool) (room : ℕ) (a b : Exp) : Bool :=
  identical a b || isNil a && isNil b ||
    match room with
    | 0 => false
    | room + 1 => isoObjects (isoequal callables room) callables a b

end Exp

end Alcove
