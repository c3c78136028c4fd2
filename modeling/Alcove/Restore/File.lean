import Alcove.Lfkv.Map
import Alcove.Restore.Value

/-!
# Loading a dump file

`alcove_load_unified` and `loaddb_from_file_path`, on the global environment and the keyspaces of a
process (`Stores`). The loader installs each record as soon as it has read it. What is done outside these
functions is a parameter (`Host`): finding and initialising the module of a type, compiling a lambda
(which expands macros), the clock, and whether a keyspace finds a slot and memory for a key.
-/

namespace Alcove.Restore

open Lib StateCursor Persist

/-! ## The process -/

/-- The global environment, whose bindings have a timestamp that is positive for a persisted one; the
names of the classes; the types of modules; the keyspace of database 0, once it exists; and those of the
databases after it. -/
structure Stores where
  globals : Dict (Exp × ℤ)
  classes : List CStr
  moduleType : CStr → Option CustomId
  kv : Option (Lfkv.KeyMap Exp)
  extra : ℕ → Option (Lfkv.KeyMap Exp)

/-- The process around the loader: `g_safe_mode`, `auto_require_native`, what `compile_lambda` does
outside the lambda, `gettimeusec` when the stream is at a position, and whether `lfkv_set` succeeds. -/
structure Host extends Tables where
  safeMode : Bool
  requireNative : CStr → Stores → Stores
  compileLambda : Exp → Stores → Stores
  clock : ℕ → ℤ
  room : Lfkv.KeyMap Exp → List UInt8 → Bool

variable (host : Host)

/-- `alc_bind_global_type` -/
def Host.alcBindGlobalType (name : CStr) (globals : Dict (Exp × ℤ)) : Dict (Exp × ℤ) :=
  globals.set name (.type (host.typeId name), ((globals.find name).map Prod.snd).getD 0)

/-- What an effect does to the process. -/
def Host.perform (w : Stores) : Effect → Stores
  | .registerType name =>
    if name ∈ w.classes then w
    else { w with
      classes := name :: w.classes
      globals := host.alcBindGlobalType name w.globals }
  | .compileLambda fn => host.compileLambda fn w

/-! ## Keys -/

/-- `lfkv_set`, where it succeeds. -/
def lfkvSet (k : List UInt8) (val : Exp) (m : Lfkv.KeyMap Exp) : Lfkv.KeyMap Exp :=
  m.update k (some (val, 0))

/-- `lfkv_set_expiry` -/
def lfkvSetExpiry (now : ℤ) (k : List UInt8) (tsUs : ℤ) (m : Lfkv.KeyMap Exp) : Lfkv.KeyMap Exp :=
  m.update k <| (m.find k).bind fun p => if Lfkv.expired p.2 now then none else some (p.1, tsUs)

/-- The two are calls on the keyspace. -/
theorem lfkvSet_answers [DecidableEq Exp] (now tsUs : ℤ) (k : List UInt8) (val : Exp)
    (m : Lfkv.KeyMap Exp) : m.Answers now (.set k val) (.int 0) (lfkvSet k val m) ∧
      ∃ r, m.Answers now (.setExpiry k tsUs) r (lfkvSetExpiry now k tsUs m) := by
  refine ⟨⟨rfl, rfl⟩, _, rfl, ?_⟩
  show lfkvSetExpiry now k tsUs m =
    m.update k (Lfkv.onPair now (.setExpiry k tsUs) (m.find k)).1
  unfold lfkvSetExpiry Lfkv.onPair
  cases m.find k with
  | none => rfl
  | some p =>
    simp only [Option.bind_some]
    split <;> rfl

/-- A key of section R. -/
def Host.restoreKey (now : ℤ) (k : List UInt8) (val : Exp) (expiry : ℤ) (m : Lfkv.KeyMap Exp) :
    Lfkv.KeyMap Exp :=
  if host.room m k then
    if 0 < expiry then lfkvSetExpiry now k expiry (lfkvSet k val m) else lfkvSet k val m
  else m

/-! ## Records -/

/-- `load_strn` -/
def loadStrn : Cursor UInt8 (List UInt8) := do
  let n ← loadLe 8
  if loadMaxBlob < n then .fail else fread n

/-- A record of section L or of section R. -/
inductive Record
  | lisp (key : CStr) (val : Exp)
  | resp (key : List UInt8) (val : Exp) (expiry : ℤ)

/-- A record after its marker. -/
def loadSectionRecord (fmt : Format) (isResp : Bool) : Loader Record :=
  if isResp then do
    let expiry ← read (loadInt 8)
    let val ← loadExp host.toTables fmt alcoveLoadMaxDepth
    let key ← read loadStrn
    return .resp key val expiry
  else do
    let val ← loadExp host.toTables fmt alcoveLoadMaxDepth
    let key ← read loadStr
    return .lisp key val

/-- What `load_section_records` does with a record. -/
def Host.install (now : ℤ) (w : Stores) : Record → Stores
  | .lisp key val => { w with globals := w.globals.set key (val, now) }
  | .resp key val expiry => { w with kv := w.kv.map (host.restoreKey now key val expiry) }

/-- A round of `load_section_records`, with `n` records read. -/
def sectionRound (fmt : Format) (isResp : Bool) (n : ℕ) : StateCursor Stores UInt8 (ℕ ⊕ ℕ) := do
  let marker ← read (loadLe 1)
  if marker = 0x00 then return .inr n
  else if marker ≠ 0xfe then fail
  else do
    let record ← perform host.perform (loadSectionRecord host fmt isResp)
    let pos ← position
    modify fun w => host.install (host.clock pos) w record
    return .inl (n + 1)

/-- `load_section_records` -/
def loadSectionRecords (fmt : Format) (isResp : Bool) : StateCursor Stores UInt8 ℕ :=
  loop (sectionRound host fmt isResp) 0

/-- `ALCOVE_SEC_LISP` -/
def alcoveSecLisp : ℕ := 0x4c

/-- `ALCOVE_SEC_RESP` -/
def alcoveSecResp : ℕ := 0x52

/-- A round of the loop over the sections, with so many records of each kind read. -/
def sectionsRound (fmt : Format) : ℕ × ℕ → StateCursor Stores UInt8 (ℕ × ℕ ⊕ ℕ × ℕ)
  | (nl, nr) => do
    let tag ← read (loadLe 1)
    if tag = 0x00 then return .inr (nl, nr)
    else if tag = alcoveSecLisp then do
      let got ← loadSectionRecords host fmt false
      return .inl (nl + got, nr)
    else if tag = alcoveSecResp then do
      let got ← loadSectionRecords host fmt true
      return .inl (nl, nr + got)
    else fail

/-- The sections of a file. -/
def loadSections (fmt : Format) : StateCursor Stores UInt8 (ℕ × ℕ) :=
  loop (sectionsRound host fmt) (0, 0)

/-! ## Files -/

/-- An entry of the table of the types of modules. -/
structure TypeEntry where
  dumpId : ℕ
  name : CStr
  spec : CStr

/-- An entry of the table, read. -/
def loadTypeEntry : Cursor UInt8 TypeEntry := do
  let dumpId ← loadLe 2
  let name ← loadStrn
  let spec ← loadStrn
  return ⟨dumpId, .ofBytes name, .ofBytes spec⟩

/-- The module of a missing type is required. -/
def Host.requireType (w : Stores) (entry : TypeEntry) : Stores :=
  if (w.moduleType entry.name).isNone ∧ ¬ host.safeMode ∧ entry.spec.bytes ≠ [] then
    host.requireNative entry.spec w
  else w

/-- What `alcove_load_unified` does with an entry. -/
def Host.resolveType (s : Stores × Format) (entry : TypeEntry) : Stores × Format :=
  let w := host.requireType s.1 entry
  (w, if entry.dumpId < alcoveTypeCap then
    { s.2 with remap := Function.update s.2.remap entry.dumpId (w.moduleType entry.name) } else s.2)

/-- `ALCOVE_DUMP_VERSION_MIN` -/
def alcoveDumpVersionMin : ℕ := 1

/-- `ALCOVE_DUMP_VERSION` -/
def alcoveDumpVersion : ℕ := 5

/-- `ALCOVE_DUMP_MAGIC` -/
def alcoveDumpMagic : List UInt8 := [0x41, 0x4c, 0x43, 0x56]

/-- The version of a file and its table of types. -/
def loadHeader : StateCursor (Stores × Format) UInt8 Unit := do
  let ver ← read (loadLe 2)
  if ver < alcoveDumpVersionMin ∨ alcoveDumpVersion < ver then fail
  else do
    modify fun s => (s.1, ⟨ver, fun _ => none⟩)
    if 3 ≤ ver then do
      let ntypes ← read (loadLe 2)
      each loadTypeEntry host.resolveType ntypes
    else return ()

/-- What `alcove_load_unified` returns: 0, and where it leaves the stream; -1; or 1, with the numbers of
records. -/
inductive Unified
  | legacy (pos : ℕ)
  | corrupt
  | loaded (nl nr : ℕ)
  deriving DecidableEq

/-- `alcove_load_unified` -/
def alcoveLoadUnified (content : List UInt8) (s : Stores × Format) : (Stores × Format) × Unified :=
  if content.length < 4 then (s, .legacy content.length)
  else if content.take 4 ≠ alcoveDumpMagic then (s, .legacy 0)
  else
    match loadHeader host content 4 s with
    | (s', .ok () pos) =>
      match loadSections host s'.2 content pos s'.1 with
      | (w, .ok (nl, nr) _) => ((w, s'.2), .loaded nl nr)
      | (w, _) => ((w, s'.2), .corrupt)
    | (s', _) => (s', .corrupt)

/-- A round of the reader for files without a header, with `n` records read. -/
def legacyRound (fmt : Format) (n : ℕ) : StateCursor Stores UInt8 (ℕ ⊕ ℕ) := do
  match ← attempt (perform host.perform (loadSectionRecord host fmt false)) with
  | none => return .inr n
  | some record => do
    let pos ← position
    modify fun w => host.install (host.clock pos) w record
    return .inl (n + 1)

/-- `loaddb_from_file_path`, on the content of the file; `none` where it cannot be opened. -/
def loaddbFromFilePath (file : Option (List UInt8)) (s : Stores × Format) : (Stores × Format) × ℤ :=
  match file with
  | none => (s, -1)
  | some content =>
    match alcoveLoadUnified host content s with
    | (s', .loaded nl nr) => (s', nl + nr)
    | (s', .corrupt) => (s', -1)
    | (s', .legacy pos) =>
      match loop (legacyRound host s'.2) 0 content pos s'.1 with
      | (w, .ok n _) => ((w, s'.2), n)
      | (w, _) => ((w, s'.2), 0)

end Alcove.Restore
