import Alcove.Persist.Dumpable
import Alcove.Restore.File

/-!
# Writing a dump file

`alcove_dump_unified` on a stream that accepts every write: the bytes of the file, or failure. A persisted
binding or a key whose value does not pass the check is left out, with a warning.
-/

namespace Alcove.Restore

open Lib Persist

/-- `dump_strn` -/
def dumpStrn (bytes : List UInt8) : List UInt8 := dumpsizeT bytes.length ++ bytes

/-- An entry of the table of the types of modules. -/
def dumpTypeEntry (entry : TypeEntry) : List UInt8 :=
  putLe 2 entry.dumpId ++ dumpStrn entry.name.bytes ++ dumpStrn entry.spec.bytes

variable (reg : Registry)

/-- `is_fully_dumpable(val, 0)` -/
def passes (val : Exp) : Bool := isFullyDumpable reg (alcoveDumpableMaxDepth + 1) val

/-! ## Section L -/

/-- A record of section L. -/
def dumpLispRecord (kv : CStr × Exp × ℤ) : Option (List UInt8) := do
  let x ← dump reg kv.2.1
  return 0xfe :: (x ++ dumpStr kv.1)

/-- The bindings that are written. -/
def writtenBindings (globals : Dict (Exp × ℤ)) : List (CStr × Exp × ℤ) :=
  globals.entries.filter fun kv => decide (0 < kv.2.2) && passes reg kv.2.1

/-- `dump_lisp_section` -/
def dumpLispSection (globals : Dict (Exp × ℤ)) : Option (List UInt8) :=
  concat ((writtenBindings reg globals).map (dumpLispRecord reg))

/-! ## Section R -/

/-- A record of section R. -/
def dumpRespRecord (item : List UInt8 × Exp × ℤ) : Option (List UInt8) := do
  let x ← dump reg item.2.1
  return 0xfe :: (putInt 8 item.2.2 ++ x ++ dumpStrn item.1)

/-- The keys that are written, of those that `lfkv_foreach` visits. -/
def writtenKeys (items : List (List UInt8 × Exp × ℤ)) : List (List UInt8 × Exp × ℤ) :=
  items.filter fun item => passes reg item.2.1

/-- The walk with `resp_dump_iter`. -/
def dumpRespSection (items : List (List UInt8 × Exp × ℤ)) : Option (List UInt8) :=
  concat ((writtenKeys reg items).map (dumpRespRecord reg))

/-- `lfkv_foreach` visits the pairs that have not expired, each once. -/
structure Visits (m : Lfkv.KeyMap Exp) (now : ℤ) (items : List (List UInt8 × Exp × ℤ)) : Prop where
  nodup : (items.map Prod.fst).Nodup
  mem_iff : ∀ k v x, (k, v, x) ∈ items ↔ m.find k = some (v, x) ∧ Lfkv.expired x now = false

/-- It is the walk of the keyspace. -/
theorem visits_iff_answers [DecidableEq Exp] {m : Lfkv.KeyMap Exp} {now : ℤ}
    {items : List (List UInt8 × Exp × ℤ)} :
    Visits m now items ↔ m.Answers now .foreach (.items items) m := by
  constructor
  · exact fun h => ⟨rfl, items, rfl, h.nodup, h.mem_iff⟩
  · rintro ⟨-, l, heq, hnodup, hmem⟩
    obtain rfl : items = l := Lfkv.Ret.items.inj heq
    exact ⟨hnodup, hmem⟩

/-! ## Files -/

/-- `alcove_dump_unified`, with the types that modules registered, the global environment, and what
`lfkv_foreach` visits in the keyspace; either may be missing. -/
def alcoveDumpUnified (types : List TypeEntry) (globals : Option (Dict (Exp × ℤ)))
    (items : Option (List (List UInt8 × Exp × ℤ))) : Option (List UInt8) := do
  let lisp ← match globals with
    | some globals => dumpLispSection reg globals
    | none => some []
  let resp ← match items with
    | some items => (dumpRespSection reg items).map fun x => 0x52 :: (x ++ [0x00])
    | none => some []
  return alcoveDumpMagic ++ (putLe 2 alcoveDumpVersion ++ (putLe 2 types.length ++
    (types.flatMap dumpTypeEntry ++ (0x4c :: (lisp ++ 0x00 :: (resp ++ [0x00]))))))

end Alcove.Restore
