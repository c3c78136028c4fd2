import Alcove.Lfkv.Table
import Alcove.Lib.Bitset

/-!
# The persistent map: its trie

The hash array mapped trie of `hamt.h`. A node packs the slots of a 32-way branch behind a bitmap, or
is a collision bucket (`bitmap == 0`); a slot is an entry or a child node, told apart in the source
by a key pointer that is `NULL` for a child. `Key` is the pointer `exp_t *` as `isequal` and
`hamt_hashkey` see it.

Nodes are immutable, so they are values here; copying a node only takes references to what its
slots hold (`refSlot`). A function returns `none` where the source would have no defined behaviour
(it reads the value of an entry as a node, or shifts a hash by 32 or more) and when it would call
itself more than `fuel` levels deep.
-/

namespace Alcove.Hamt

open Lib

/-! ## Keys -/

/-- What a heap object holds, as far as keys are compared by value. -/
inductive Obj
  /-- the `nil` singleton -/
  | nil
  /-- a double, as its bit pattern -/
  | float (bits : UInt64)
  | string (text : Bytes)
  | symbol (text : Bytes)
  | blob (bytes : Bytes)
  | rational (num den : ℤ)
  | decimal (coef scale : ℤ)
  /-- any object that is compared by identity -/
  | other
  deriving DecidableEq

/-- A key pointer. The address of an object determines what it holds. -/
inductive Key
  | null
  | fix (n : ℤ)
  | char (c : UInt32)
  | obj (addr : UInt64) (o : Obj)
  deriving DecidableEq

/-- The double has an exponent of all ones and a fraction that is not zero. -/
def isNaN (bits : UInt64) : Bool := 0x7FF0000000000000 < bits &&& 0x7FFFFFFFFFFFFFFF

/-- The double is a zero of either sign. -/
def isZero (bits : UInt64) : Bool := bits &&& 0x7FFFFFFFFFFFFFFF == 0

/-- `==` on doubles. -/
def floatEq (a b : UInt64) : Bool :=
  !isNaN a && !isNaN b && (a == b || isZero a && isZero b)

/-- Both shapes of `nil`. -/
def isNil : Key → Bool
  | .null | .obj _ .nil => true
  | _ => false

/-- `isequal` -/
def isequal (cur1 cur2 : Key) : Bool :=
  if cur1 = cur2 then true
  else if isNil cur1 && isNil cur2 then true
  else
    match cur1, cur2 with
    | .obj _ o1, .obj _ o2 =>
      match o1, o2 with
      | .float a, .float b => floatEq a b
      | .string a, .string b | .symbol a, .symbol b | .blob a, .blob b => a == b
      | .rational a b, .rational c d => a == c && b == d
      | .decimal a b, .decimal c d => a == c && b == d
      | _, _ => false
    | _, _ => false

/-- The `n` low bytes of `x`, as they lie in memory. -/
def leBytes (n x : ℕ) : Bytes := (List.range n).map fun i => (x >>> (8 * i)).toUInt8

/-- `hamt_hashkey` -/
def hamtHashkey : Key → UInt32
  | .fix n => bernsteinHash (leBytes 8 (n % 2 ^ 64).toNat)
  | .char c => bernsteinHash (leBytes 4 c.toNat)
  | .obj _ (.float v) => bernsteinHash (leBytes 8 (if isZero v then 0 else v.toNat))
  | .obj _ (.string s) | .obj _ (.symbol s) | .obj _ (.blob s) => bernsteinHash s
  | .null => bernsteinHash (leBytes 8 0)
  | .obj addr _ => bernsteinHash (leBytes 8 addr.toNat)

/-! ## Nodes -/

mutual

/-- `hamt_node` -/
inductive Node (V : Type)
  | mk (bitmap : UInt32) (slots : List (Slot V))

/-- `hamt_slot`, with what was stored in its union. -/
inductive Slot (V : Type)
  | entry (key : Key) (val : V)
  | child (node : Node V)

end

variable {V : Type}

mutual

/-- The entries of a node, in slot order. -/
def Node.entries : Node V → List (Key × V)
  | .mk _ slots => slotsEntries slots

def slotsEntries : List (Slot V) → List (Key × V)
  | [] => []
  | s :: ss => s.entries ++ slotsEntries ss

def Slot.entries : Slot V → List (Key × V)
  | .entry key val => [(key, val)]
  | .child node => node.entries

end

/-- The key field of a slot. -/
def Slot.key : Slot V → Key
  | entry key _ => key
  | child _ => .null

/-- Reading the value of a slot. -/
def Slot.val : Slot V → Option V
  | entry _ val => some val
  | child _ => none

/-- Reading the child of a slot. -/
def Slot.node : Slot V → Option (Node V)
  | entry _ _ => none
  | child node => some node

/-- `hamt_slot_ref` -/
def refSlot (isEntry : Bool) (s : Slot V) : Option (Slot V) :=
  if isEntry then s.val.map fun _ => s else s.node.map fun _ => s

/-- The slots copied with a fresh reference each; in a bucket all of them are entries. -/
def refSlots (bucket : Bool) (slots : List (Slot V)) : Option (List (Slot V)) :=
  slots.mapM fun s => refSlot (bucket || s.key != .null) s

/-- `(hash >> shift) & HAMT_MASK` -/
def hashIndex (hash : UInt32) (shift : ℕ) : Option ℕ :=
  if shift < 32 then some (hash.toNat >>> shift &&& 31) else none

/-- `1u << i`, for an index below 32. -/
def bitOf (i : ℕ) : UInt32 := 1 <<< UInt32.ofNat i

/-- The bits of a bitmap. -/
def bitSet (x : UInt32) : ℕ → Bool := x.toNat.testBit

/-- `__builtin_popcount` -/
def popcount (x : UInt32) : ℕ := rank (bitSet x) 32

/-- The position of a bit among the slots of a node. -/
def slotPos (bitmap bit : UInt32) : ℕ := popcount (bitmap &&& (bit - 1))

/-- `hamt_merge` -/
def merge : ℕ → Key → V → UInt32 → Key → V → UInt32 → ℕ → Option (Node V)
  | 0, _, _, _, _, _, _, _ => none
  | fuel + 1, k1, v1, h1, k2, v2, h2, shift =>
    if 32 ≤ shift then some (.mk 0 [.entry k1 v1, .entry k2 v2])
    else do
      let i1 ← hashIndex h1 shift
      let i2 ← hashIndex h2 shift
      if i1 = i2 then
        let child ← merge fuel k1 v1 h1 k2 v2 h2 (shift + 5)
        some (.mk (bitOf i1) [.child child])
      else
        some (.mk (bitOf i1 ||| bitOf i2)
          (if i1 < i2 then [.entry k1 v1, .entry k2 v2] else [.entry k2 v2, .entry k1 v1]))

/-- `hamt_node_get`; the inner `none` is `NULL`. -/
def get : ℕ → Option (Node V) → Key → UInt32 → ℕ → Option (Option V)
  | 0, _, _, _, _ => none
  | _ + 1, none, _, _, _ => some none
  | fuel + 1, some (.mk bitmap slots), key, hash, shift =>
    if bitmap = 0 then
      match slots.find? fun s => isequal s.key key with
      | some s => s.val.map some
      | none => some none
    else do
      let bit := bitOf (← hashIndex hash shift)
      if bitmap &&& bit = 0 then some none
      else
        let s ← slots[slotPos bitmap bit]?
        if s.key ≠ .null then
          if isequal s.key key then s.val.map some else some none
        else get fuel (some (← s.node)) key hash (shift + 5)

section Assoc

variable (hashkey : Key → UInt32)

/-- `hamt_node_assoc`, with `*added`. -/
def assoc : ℕ → Option (Node V) → Key → V → UInt32 → ℕ → Option (Node V × Bool)
  | 0, _, _, _, _, _ => none
  | _ + 1, none, key, val, hash, shift => do
    let idx ← hashIndex hash shift
    some (.mk (bitOf idx) [.entry key val], true)
  | fuel + 1, some (.mk bitmap slots), key, val, hash, shift =>
    if bitmap = 0 then
      match slots.findIdx? fun s => isequal s.key key with
      | some i => do
        let copy ← refSlots true slots
        let s ← copy[i]?
        some (.mk 0 (copy.set i (.entry s.key val)), false)
      | none => do
        let copy ← refSlots true slots
        some (.mk 0 (copy ++ [.entry key val]), true)
    else do
      let bit := bitOf (← hashIndex hash shift)
      let pos := slotPos bitmap bit
      if bitmap &&& bit = 0 then
        let copy ← refSlots false slots
        some (.mk (bitmap ||| bit) (copy.take pos ++ .entry key val :: copy.drop pos), true)
      else
        let s ← slots[pos]?
        if s.key ≠ .null then
          if isequal s.key key then
            let copy ← refSlots false slots
            some (.mk bitmap (copy.set pos (.entry s.key val)), false)
          else
            let ev ← s.val
            let child ← merge fuel s.key ev (hashkey s.key) key val hash (shift + 5)
            let copy ← refSlots false slots
            some (.mk bitmap (copy.set pos (.child child)), true)
        else
          let (newchild, added) ← assoc fuel (some (← s.node)) key val hash (shift + 5)
          let copy ← refSlots false slots
          some (.mk bitmap (copy.set pos (.child newchild)), added)

/-- `hamt_node_dissoc`, with `*removed`; `none` inside the result is `NULL`. -/
def dissoc : ℕ → Option (Node V) → Key → UInt32 → ℕ → Option (Option (Node V) × Bool)
  | 0, _, _, _, _ => none
  | _ + 1, none, _, _, _ => some (none, false)
  | fuel + 1, some (.mk bitmap slots), key, hash, shift =>
    if bitmap = 0 then
      match slots.findIdx? fun s => isequal s.key key with
      | some i =>
        if slots.length = 1 then some (none, true)
        else do
          let copy ← refSlots true (slots.eraseIdx i)
          some (some (.mk 0 copy), true)
      | none => some (some (.mk bitmap slots), false)
    else do
      let bit := bitOf (← hashIndex hash shift)
      let pos := slotPos bitmap bit
      if bitmap &&& bit = 0 then some (some (.mk bitmap slots), false)
      else
        let s ← slots[pos]?
        if s.key ≠ .null then
          if isequal s.key key then
            if slots.length = 1 then some (none, true)
            else
              let copy ← refSlots false (slots.eraseIdx pos)
              some (some (.mk (bitmap &&& ~~~bit) copy), true)
          else some (some (.mk bitmap slots), false)
        else
          match ← dissoc fuel (some (← s.node)) key hash (shift + 5) with
          | (_, false) => some (some (.mk bitmap slots), false)
          | (none, true) =>
            if slots.length = 1 then some (none, true)
            else
              let copy ← refSlots false (slots.eraseIdx pos)
              some (some (.mk (bitmap &&& ~~~bit) copy), true)
          | (some newchild, true) =>
            let copy ← refSlots false slots
            some (some (.mk bitmap (copy.set pos (.child newchild))), true)

/-! ## Maps -/

/-- `hamt_t` -/
structure Map (V : Type) where
  root : Option (Node V)
  count : ℤ

/-- The empty map. -/
def Map.empty : Map V := ⟨none, 0⟩

/-- The entries of a map. -/
def Map.entries (m : Map V) : List (Key × V) := (m.root.map Node.entries).getD []

/-- An update of a map. -/
inductive Op (V : Type)
  | assoc (key : Key) (val : V)
  | dissoc (key : Key)

/-- `HAMT_BITS` of the 32 hash bits for each level, and one level of buckets below. -/
def maxDepth : ℕ := 8

/-- What `hamt-assoc` and `hamt-dissoc` do with a map. -/
def Map.step (m : Map V) : Op V → Option (Map V)
  | .assoc key val => do
    let (nr, added) ← Hamt.assoc hashkey maxDepth m.root key val (hashkey key) 0
    some ⟨some nr, m.count + if added then 1 else 0⟩
  | .dissoc key => do
    let (nr, removed) ← Hamt.dissoc maxDepth m.root key (hashkey key) 0
    some ⟨nr, m.count - if removed then 1 else 0⟩

/-- What `hamt-get` looks up. -/
def Map.lookup (m : Map V) (key : Key) : Option (Option V) :=
  Hamt.get maxDepth m.root key (hashkey key) 0

end Assoc

end Alcove.Hamt
