import Alcove.Persist.Dump
import Alcove.Value.Pmap

/-!
# Loading a value

`load_exp_t` and the loaders of `persist.h`, for a file of the version that `dump` writes. A loader reads
the stream through a `Cursor`, which fails where the source returns `NULL`. A record takes one level of
`alcoveLoadMaxDepth`, and so does each cell of a list; a type object takes none.
-/

namespace Alcove.Persist

open Lib Cursor

/-! ## Limits -/

/-- `ALCOVE_LOAD_MAX_STRLEN` -/
def alcoveLoadMaxStrlen : ℕ := 2 ^ 24

/-- `512u * 1024 * 1024` bytes of a blob -/
def loadMaxBlob : ℕ := 2 ^ 29

/-- `1u << 28` elements -/
def loadMaxCount : ℕ := 2 ^ 28

/-- The number of cells that `vec_alloc_storage` refuses. -/
def vecCapBound : ℕ := 2 ^ 31

/-- The bytes of the name of a class. -/
def loadMaxTypeName : ℕ := 4096

/-- `ALCOVE_LOAD_MAX_DEPTH` -/
def alcoveLoadMaxDepth : ℕ := 16384

/-- `EXP_MAXSIZE` -/
def expMaxsize : ℕ := 27

/-! ## Fields -/

/-- `fread` of `n` bytes. -/
def fread (n : ℕ) : Cursor UInt8 (List UInt8) := do
  need n
  let bytes ← slice n
  skip n
  return bytes

/-- `fread` of an unsigned number. -/
def loadLe (w : ℕ) : Cursor UInt8 ℕ := getLe <$> fread w

/-- `fread` of a signed number. -/
def loadInt (w : ℕ) : Cursor UInt8 ℤ := (fun v : ℕ => (v : ℤ).bmod (256 ^ w)) <$> loadLe w

/-- `load_str` -/
def loadStr : Cursor UInt8 CStr := do
  let length ← loadLe 8
  if alcoveLoadMaxStrlen < length then fail else CStr.ofBytes <$> fread length

/-- The count in `LOAD_DISCARD_AND_COUNT`. -/
def loadCount : Cursor UInt8 ℕ := do
  let n ← loadLe 8
  if loadMaxCount < n then fail else return n

/-- `n` reads. -/
def loadMany {α : Type} (load : Cursor UInt8 α) : ℕ → Cursor UInt8 (List α)
  | 0 => return []
  | n + 1 => do
    let x ← load
    let xs ← loadMany load n
    return x :: xs

/-- The bytes after the first of a character, as far as they continue it. -/
def utf8Continue : ℕ → ℕ → Cursor UInt8 ℕ
  | 0, cp => return cp
  | n + 1, cp => do
    let found ← test 0 fun c => c &&& 0xc0 = 0x80
    if found then
      let c ← next
      utf8Continue n (cp <<< 6 ||| (c &&& 0x3f).toNat)
    else return cp

/-- `utf8_decode_stream` -/
def utf8DecodeStream (first : UInt8) : Cursor UInt8 ℕ :=
  if first < 0x80 then return first.toNat
  else if first &&& 0xe0 = 0xc0 then utf8Continue 1 (first &&& 0x1f).toNat
  else if first &&& 0xf0 = 0xe0 then utf8Continue 2 (first &&& 0x0f).toNat
  else if first &&& 0xf8 = 0xf0 then utf8Continue 3 (first &&& 0x07).toNat
  else return first.toNat

/-! ## Values without parts -/

/-- What a loader made, or `NULL`. -/
def made (v : Option Exp) : Cursor UInt8 Exp :=
  match v with
  | some v => return v
  | none => fail

/-- `load_char` -/
def loadChar : Cursor UInt8 Exp := do
  need 1
  let c ← next
  let cp ← utf8DecodeStream c
  return .char (UInt32.ofNat cp)

/-- `load_number` -/
def loadNumber : Cursor UInt8 Exp := do
  let v ← loadInt 8
  return if fixFits v then .fix (makeFix v) else .float (doubleOfInt v)

/-- `load_float` -/
def loadFloat : Cursor UInt8 Exp := (fun v => .float (UInt64.ofNat v)) <$> loadLe 8

/-- `load_rational` -/
def loadRational : Cursor UInt8 Exp := do
  let num ← loadInt 8
  let den ← loadInt 8
  if den = 0 then fail else made (expOfRational num den)

/-- `load_decimal` -/
def loadDecimal : Cursor UInt8 Exp := do
  let coef ← loadInt 16
  let scale ← loadInt 4
  if scale < 0 ∨ Numeric.decMaxScale < scale then fail else made (expOfDecimal coef scale)

/-- `load_blob` -/
def loadBlob : Cursor UInt8 Exp := do
  let n ← loadLe 8
  if loadMaxBlob < n then fail else .blob <$> fread n

/-! ## Values with parts -/

section

variable (load : Cursor UInt8 Exp)

/-- A part that may be missing. -/
def loadPart (there : Bool) : Cursor UInt8 Exp := if there then load else return .null

/-- The flags, and the two parts they speak of. -/
def loadParts : Cursor UInt8 (Exp × Exp) := do
  let flags ← loadLe 1
  let x ← loadPart load (flags.testBit 0)
  let y ← loadPart load (flags.testBit 1)
  return (x, y)

/-- `load_pair` -/
def loadPair : Cursor UInt8 Exp := do
  let (content, next) ← loadParts load
  return .pair content next

/-- `load_callable` -/
def loadCallable (make : CStr → Exp → Exp → Exp) : Cursor UInt8 Exp := do
  let name ← loadStr
  let (params, body) ← loadParts load
  return make name params body

/-- `load_vec_v2` -/
def loadVec : Cursor UInt8 Exp := do
  let kind ← loadLe 1
  if 2 < kind then fail
  else
    let n ← loadLe 4
    if vecCapBound ≤ n then fail
    else if kind = 0 then .vector <$> loadMany load n
    else if kind = 1 then .vectorI64 <$> loadMany (loadInt 8) n
    else (fun cells => .vectorF64 (cells.map UInt64.ofNat)) <$> loadMany (loadLe 8) n

/-- A member of a set. -/
def loadMember : Cursor UInt8 (CStr × Exp) := do
  let v ← load
  match setEntry v with
  | some kv => return kv
  | none => fail

/-- `load_set` -/
def loadSet : Cursor UInt8 Exp := do
  let n ← loadCount
  let kvs ← loadMany (loadMember load) n
  return .set (Dict.ofList kvs)

/-- An entry of a dict. -/
def loadEntry : Cursor UInt8 (CStr × Exp) := do
  let key ← loadStr
  let val ← load
  return (key, val)

/-- `load_dict_value` -/
def loadDict : Cursor UInt8 Exp := do
  let n ← loadCount
  let kvs ← loadMany (loadEntry load) n
  return .dict (Dict.ofList kvs)

/-- `load_deque_value` -/
def loadDeque : Cursor UInt8 Exp := do
  let n ← loadCount
  .deque <$> loadMany load n

/-- An entry of a persistent map. -/
def loadKeyVal : Cursor UInt8 (Exp × Exp) := do
  let k ← load
  if isNaNKey k then fail
  else
    let v ← load
    return (k, v)

/-- `load_hamt_value`, where the allocator puts the keys of a map at `place`. -/
def loadHamt (place : List (Exp × Exp) → ℕ → UInt64) : Cursor UInt8 Exp := do
  let n ← loadCount
  let kvs ← loadMany (loadKeyVal load) n
  made ((hamtOfList (place kvs) kvs).map .hamt)

end

/-! ## Records -/

/-- The process that loads: the class of a name, which is registered if it is new; the `load` of the
types of modules, over that of the parts; and where the allocator puts keys. -/
structure Session extends Registry where
  typeId : CStr → UInt32
  typeId_of_name : ∀ id name, userTypeName id = some name → (typeId name).toNat = id
  customLoad : ℕ → Option (Cursor UInt8 Exp → Cursor UInt8 Exp)
  place : List (Exp × Exp) → ℕ → UInt64

variable (session : Session)

/-- A type object, after its tag. -/
def loadTypeObj : Cursor UInt8 Exp := do
  let id ← loadLe 4
  if id = 0xffffffff then
    let length ← loadLe 4
    if loadMaxTypeName < length then fail
    else
      let name ← fread length
      return .type (session.typeId (CStr.ofBytes name))
  else return .type (UInt32.ofNat id)

/-- `__LOAD__`, over the loader of the parts. -/
def loadRecord (load : Cursor UInt8 Exp) (type : ℕ) : Cursor UInt8 Exp :=
  if type = expSymbol then .symbol <$> loadStr
  else if type = expNumber then loadNumber
  else if type = expFloat then loadFloat
  else if type = expString then .string <$> loadStr
  else if type = expChar then loadChar
  else if type = expVector then loadVec load
  else if type = expPair then loadPair load
  else if type = expLambda then loadCallable load (.lambda false)
  else if type = expMacro then loadCallable load .expander
  else if type = expBlob then loadBlob
  else if type = expDict then loadDict load
  else if type = expList then loadDeque load
  else if type = expSet then loadSet load
  else if type = expHamt then loadHamt load session.place
  else if type = expRational then loadRational
  else if type = expDecimal then loadDecimal
  else if expMaxsize ≤ type then
    match session.customLoad type with
    | some loadCustom => loadCustom load
    | none => fail
  else fail

/-- The tag of a record, and what follows it. -/
def loadTagged (record : ℕ → Cursor UInt8 Exp) : Cursor UInt8 Exp := do
  let type ← loadLe 2
  if type = alcoveDumpTagTypeObject then loadTypeObj session else record type

/-- `load_exp_t`, where `room` levels are left. -/
def loadExp : ℕ → Cursor UInt8 Exp
  | 0 => loadTagged session fun _ => fail
  | room + 1 => loadTagged session (loadRecord session (loadExp room))

end Alcove.Persist
