import Alcove.Lib.Bytes
import Alcove.Json.Decode

/-!
# Dumping a value

The serializers of `persist.h` behind `__DUMP__`, on a stream that accepts every write: the bytes of a
record, or failure (`dump`). A record is a type tag and what the type needs; containers hold the records
of their elements. The classes that are defined, and the types that modules add, are a `Registry`.
-/

namespace Alcove.Persist

open Lib

/-! ## Fields -/

/-- The numbers of `ALC_EXP_TYPES`, of the types that have a serializer. -/
def expSymbol : ℕ := 1
def expNumber : ℕ := 2
def expFloat : ℕ := 3
def expString : ℕ := 4
def expChar : ℕ := 5
def expVector : ℕ := 7
def expPair : ℕ := 9
def expLambda : ℕ := 10
def expMacro : ℕ := 12
def expBlob : ℕ := 17
def expDict : ℕ := 18
def expList : ℕ := 19
def expSet : ℕ := 20
def expHamt : ℕ := 21
def expRational : ℕ := 22
def expDecimal : ℕ := 23

/-- `ALCOVE_DUMP_TAG_TYPE_OBJECT` -/
def alcoveDumpTagTypeObject : ℕ := 0xffff

/-- `TYPE_USER_MIN` -/
def typeUserMin : ℕ := 100000

/-- `dumptype` -/
def dumptype (type : ℕ) : List UInt8 := putLe 2 type

/-- `dumpsize_t` -/
def dumpsizeT (n : ℕ) : List UInt8 := putLe 8 n

/-- The bytes of a signed integer of `w` bytes. -/
def putInt (w : ℕ) (v : ℤ) : List UInt8 := putLe w (v % 256 ^ w).toNat

/-- `dump_str` -/
def dumpStr (text : CStr) : List UInt8 := dumpsizeT text.length ++ text.bytes

/-- What the process knows of classes and of the types of modules: the name of a class, and the `dump`
that a module registered, which succeeds or fails on the payload. -/
structure Registry where
  userTypeName : ℕ → Option CStr
  customDump : ℕ → Option (ℕ → Option (List UInt8))

/-! ## Records -/

/-- The text of `t`. -/
def tText : CStr := CStr.ofBytes [0x74]

/-- Records one after the other, as far as none fails. -/
def concat : List (Option (List UInt8)) → Option (List UInt8)
  | [] => some []
  | record :: records => do
    let x ← record
    let xs ← concat records
    return x ++ xs

section

variable (reg : Registry)

/-- `__DUMPABLE__` -/
def isDumpable : Exp → Bool
  | .null => false
  | .foreign (.custom id _) => (reg.customDump id).isSome
  | .foreign _ => false
  | _ => true

/-- `dump_type_obj` -/
def dumpTypeObj (id : ℕ) : Option (List UInt8) :=
  if id < typeUserMin then some (dumptype alcoveDumpTagTypeObject ++ putLe 4 id)
  else do
    let name ← reg.userTypeName id
    return dumptype alcoveDumpTagTypeObject ++ putLe 4 0xffffffff ++ putLe 4 name.length ++ name.bytes

/-- `DUMP_ELEM`, with the record that `__DUMP__` makes of the element. -/
def dumpElem (v : Exp) (record : Option (List UInt8)) : Option (List UInt8) :=
  if v.isNull || !isDumpable reg v then none else record

end

/-- Which of two parts are there. -/
def partFlags (x y : Exp) : UInt8 := (if x.isNull then 0 else 1) ||| (if y.isNull then 0 else 2)

/-- The record of a part that may be missing. -/
def dumpPart (v : Exp) (record : Option (List UInt8)) : Option (List UInt8) :=
  if v.isNull then some [] else record

theorem sizeOf_entry_lt {d : Dict Exp} {kv : CStr × Exp} (h : kv ∈ d.entries) :
    sizeOf kv.2 < 1 + sizeOf d := by
  obtain ⟨table, used⟩ := d
  obtain ⟨chain, hchain, hkv⟩ := List.mem_flatten.mp h
  have h1 := List.sizeOf_lt_of_mem hkv
  have h2 := List.sizeOf_lt_of_mem hchain
  obtain ⟨key, val⟩ := kv
  simp only [Dict.mk.sizeOf_spec, Prod.mk.sizeOf_spec] at *
  omega

theorem sizeOf_key_lt {entries : List (Exp × Exp)} {kv : Exp × Exp} (h : kv ∈ entries) :
    sizeOf kv.1 < 1 + sizeOf entries := by
  have h1 := List.sizeOf_lt_of_mem h
  obtain ⟨key, val⟩ := kv
  simp only [Prod.mk.sizeOf_spec] at *
  omega

theorem sizeOf_val_lt {entries : List (Exp × Exp)} {kv : Exp × Exp} (h : kv ∈ entries) :
    sizeOf kv.2 < 1 + sizeOf entries := by
  have h1 := List.sizeOf_lt_of_mem h
  obtain ⟨key, val⟩ := kv
  simp only [Prod.mk.sizeOf_spec] at *
  omega

/-- `__DUMP__` -/
def dump (reg : Registry) : Exp → Option (List UInt8)
  | .null => none
  | .nil => some (dumptype expPair ++ [0])
  | .t => some (dumptype expSymbol ++ dumpStr tText)
  | .fix n => some (dumptype expNumber ++ putInt 8 n.1)
  | .char c => some (dumptype expChar ++ Json.utf8Encode c.toNat)
  | .type id => dumpTypeObj reg id.toNat
  | .float bits => some (dumptype expFloat ++ putLe 8 bits.toNat)
  | .string text => some (dumptype expString ++ dumpStr text)
  | .symbol text => some (dumptype expSymbol ++ dumpStr text)
  | .blob bytes => some (dumptype expBlob ++ dumpsizeT bytes.length ++ bytes)
  | .rational num den => some (dumptype expRational ++ putInt 8 num ++ putInt 8 den)
  | .decimal coef scale => some (dumptype expDecimal ++ putInt 16 coef ++ putInt 4 scale)
  | .pair content next => do
    let x ← dumpPart content (dump reg content)
    let y ← dumpPart next (dump reg next)
    return dumptype expPair ++ partFlags content next :: (x ++ y)
  | .vector cells => do
    let xs ← concat (cells.map fun v => dumpElem reg v (dump reg v))
    return dumptype expVector ++ 0 :: (putLe 4 cells.length ++ xs)
  | .vectorI64 cells =>
    some (dumptype expVector ++ 1 :: (putLe 4 cells.length ++ cells.flatMap (putInt 8)))
  | .vectorF64 cells => some (dumptype expVector ++
      2 :: (putLe 4 cells.length ++ cells.flatMap fun bits => putLe 8 bits.toNat))
  | .dict d => do
    let xs ← concat (d.entries.attach.map fun ⟨kv, _⟩ => do
      let x ← dumpElem reg kv.2 (dump reg kv.2)
      return dumpStr kv.1 ++ x)
    return dumptype expDict ++ dumpsizeT d.used ++ xs
  | .set d => do
    let xs ← concat (d.entries.attach.map fun ⟨kv, _⟩ => dumpElem reg kv.2 (dump reg kv.2))
    return dumptype expSet ++ dumpsizeT d.used ++ xs
  | .deque vals => do
    let xs ← concat (vals.map fun v => dumpElem reg v (dump reg v))
    return dumptype expList ++ dumpsizeT vals.length ++ xs
  | .hamt entries => do
    let xs ← concat (entries.map fun kv => do
      let x ← dumpElem reg kv.1 (dump reg kv.1)
      let y ← dumpElem reg kv.2 (dump reg kv.2)
      return x ++ y)
    return dumptype expHamt ++ dumpsizeT entries.length ++ xs
  | .lambda _ name params body => do
    let x ← dumpPart params (dump reg params)
    let y ← dumpPart body (dump reg body)
    return dumptype expLambda ++ dumpStr name ++ partFlags params body :: (x ++ y)
  | .expander name params body => do
    let x ← dumpPart params (dump reg params)
    let y ← dumpPart body (dump reg body)
    return dumptype expMacro ++ dumpStr name ++ partFlags params body :: (x ++ y)
  | .foreign (.custom id ptr) => (reg.customDump id).bind fun dump => dump ptr
  | .foreign _ => none
termination_by e => sizeOf e
decreasing_by
  all_goals simp_wf
  all_goals first
    | exact sizeOf_entry_lt ‹_›
    | exact sizeOf_key_lt ‹_›
    | exact sizeOf_val_lt ‹_›
    | have := List.sizeOf_lt_of_mem ‹_›
      omega
    | omega

end Alcove.Persist
