import Alcove.Lib.StateCursor
import Alcove.Persist.Load

/-!
# What loading a value does

`load_exp_t` with all it does: it reads the five versions of the format, registers the classes that type
objects name, and compiles the lambdas. What is done to the process is noted (`Effect`) in the order in
which it is done, also where the value turns out to be incomplete.

**Main results:** `loadExp_erases`, in a file of the current version it reads what `Persist.loadExp`
reads; `forward_loadExp`, it moves forward in the file.
-/

namespace Alcove.Restore

open Lib StateCursor Persist Cursor

/-! ## The process -/

/-- What loading a value does to the process: `alc_register_user_type` with `alc_bind_global_type`, where
the name is new, and `compile_lambda`. -/
inductive Effect
  | registerType (name : CStr)
  | compileLambda (fn : Exp)

/-- A routine that loads. -/
abbrev Loader (α : Type) : Type := StateCursor (List Effect) UInt8 α

/-- `ALCOVE_TYPE_CAP` -/
def alcoveTypeCap : ℕ := 256

/-- The id of a type of a module. -/
def CustomId : Type := {id : ℕ // expMaxsize ≤ id ∧ id < alcoveTypeCap}

/-- The `load` of a type of a module, over that of the parts. It reads the stream forward, and what it
reads does not depend on the process. -/
structure ModuleLoad where
  load : Loader Exp → Loader Exp
  reads : Cursor UInt8 Exp → Cursor UInt8 Exp
  erases : ∀ p q, p.Erases q → (load p).Erases (reads q)
  forward : ∀ p, p.Forward → (load p).Forward

/-- What `load_exp_t` finds in the process: the id that a class has, or is registered with; the types of
modules in `exp_tfuncList`; and where the allocator puts keys. -/
structure Tables where
  typeId : CStr → UInt32
  tfunc : CustomId → Option ModuleLoad
  place : List (Exp × Exp) → ℕ → UInt64

/-- `alcove_load_dump_version` and `g_type_remap` -/
structure Format where
  version : ℕ
  remap : ℕ → Option CustomId

/-- The type of a module behind the tag of a record. -/
def Format.customType (fmt : Format) (type : ℕ) : Option CustomId :=
  if 3 ≤ fmt.version then if type < alcoveTypeCap then fmt.remap type else none
  else if h : expMaxsize ≤ type ∧ type < alcoveTypeCap then some ⟨type, h⟩ else none

/-! ## Vectors of the first version -/

/-- `FIX_VAL` of a number. -/
def fixVal : Exp → Option ℤ
  | .fix n => some n.1
  | _ => none

/-- A number or a float as a double. -/
def numBits : Exp → Option UInt64
  | .fix n => some (doubleOfInt n.1)
  | .float bits => some bits
  | _ => none

/-- `vec_tighten` -/
def vecTighten (cells : List Exp) : Exp :=
  if cells.isEmpty then .vector cells
  else match cells.mapM fixVal with
    | some vals => .vectorI64 vals
    | none =>
      match cells.mapM numBits with
      | some vals => .vectorF64 vals
      | none => .vector cells

/-! ## Values with parts -/

/-- What was made, or `NULL`. -/
def made (v : Option Exp) : Loader Exp := read (Persist.made v)

/-- `n` reads. -/
def loadMany {α : Type} (load : Loader α) : ℕ → Loader (List α)
  | 0 => return []
  | n + 1 => do
    let x ← load
    let xs ← loadMany load n
    return x :: xs

section

variable (load : Loader Exp)

/-- A part that may be missing. -/
def loadPart (there : Bool) : Loader Exp := if there then load else return .null

/-- The flags, and the two parts they speak of. -/
def loadParts : Loader (Exp × Exp) := do
  let flags ← read (loadLe 1)
  let x ← loadPart load (flags.testBit 0)
  let y ← loadPart load (flags.testBit 1)
  return (x, y)

/-- `load_pair` -/
def loadPair : Loader Exp := do
  let (content, next) ← loadParts load
  return .pair content next

/-- `load_callable` -/
def loadCallable (make : CStr → Exp → Exp → Exp) : Loader Exp := do
  let name ← read loadStr
  let (params, body) ← loadParts load
  return make name params body

/-- `load_lambda` -/
def loadLambda : Loader Exp := do
  let fn ← loadCallable load (.lambda false)
  tell (.compileLambda fn)
  return fn

/-- `load_vec_v1` -/
def loadVecV1 : Loader Exp := do
  let n ← read (loadLe 4)
  if vecCapBound ≤ n then fail else vecTighten <$> loadMany load n

/-- `load_vec_v2` -/
def loadVecV2 : Loader Exp := do
  let kind ← read (loadLe 1)
  if 2 < kind then fail
  else do
    let n ← read (loadLe 4)
    if vecCapBound ≤ n then fail
    else if kind = 0 then .vector <$> loadMany load n
    else if kind = 1 then .vectorI64 <$> loadMany (read (loadInt 8)) n
    else (fun cells => .vectorF64 (cells.map UInt64.ofNat)) <$> loadMany (read (loadLe 8)) n

/-- `load_vec` -/
def loadVec (fmt : Format) : Loader Exp := if 2 ≤ fmt.version then loadVecV2 load else loadVecV1 load

/-- A member of a set. -/
def loadMember : Loader (CStr × Exp) := do
  let v ← load
  match setEntry v with
  | some kv => return kv
  | none => fail

/-- `load_set` -/
def loadSet : Loader Exp := do
  let n ← read loadCount
  let kvs ← loadMany (loadMember load) n
  return .set (Dict.ofList kvs)

/-- An entry of a dict. -/
def loadEntry : Loader (CStr × Exp) := do
  let key ← read loadStr
  let val ← load
  return (key, val)

/-- `load_dict_value` -/
def loadDict : Loader Exp := do
  let n ← read loadCount
  let kvs ← loadMany (loadEntry load) n
  return .dict (Dict.ofList kvs)

/-- `load_deque_value` -/
def loadDeque : Loader Exp := do
  let n ← read loadCount
  .deque <$> loadMany load n

/-- An entry of a persistent map. -/
def loadKeyVal : Loader (Exp × Exp) := do
  let k ← load
  if isNaNKey k then fail
  else do
    let v ← load
    return (k, v)

/-- `load_hamt_value` -/
def loadHamt (place : List (Exp × Exp) → ℕ → UInt64) : Loader Exp := do
  let n ← read loadCount
  let kvs ← loadMany (loadKeyVal load) n
  made ((hamtOfList (place kvs) kvs).map .hamt)

end

/-! ## Records -/

variable (tables : Tables) (fmt : Format)

/-- A type object, after its tag. Only the fifth version writes the names of classes. -/
def loadTypeObj : Loader Exp := do
  let id ← read (loadLe 4)
  if id = 0xffffffff ∧ 5 ≤ fmt.version then do
    let length ← read (loadLe 4)
    if loadMaxTypeName < length then fail
    else do
      let name ← read (CStr.ofBytes <$> fread length)
      tell (.registerType name)
      return .type (tables.typeId name)
  else return .type (UInt32.ofNat id)

/-- `__LOAD__`, over the loader of the parts. -/
def loadRecord (load : Loader Exp) (type : ℕ) : Loader Exp :=
  if type = expSymbol then read (.symbol <$> loadStr)
  else if type = expNumber then read loadNumber
  else if type = expFloat then read loadFloat
  else if type = expString then read (.string <$> loadStr)
  else if type = expChar then read loadChar
  else if type = expVector then loadVec load fmt
  else if type = expPair then loadPair load
  else if type = expLambda then loadLambda load
  else if type = expMacro then loadCallable load .expander
  else if type = expBlob then read loadBlob
  else if type = expDict then loadDict load
  else if type = expList then loadDeque load
  else if type = expSet then loadSet load
  else if type = expHamt then loadHamt load tables.place
  else if type = expRational then read loadRational
  else if type = expDecimal then read loadDecimal
  else if expMaxsize ≤ type then
    match (fmt.customType type).bind tables.tfunc with
    | some custom => custom.load load
    | none => fail
  else fail

/-- The tag of a record, and what follows it. -/
def loadTagged (record : ℕ → Loader Exp) : Loader Exp := do
  let type ← read (loadLe 2)
  if type = alcoveDumpTagTypeObject then loadTypeObj tables fmt else record type

/-- `load_exp_t`, where `room` levels are left. -/
def loadExp : ℕ → Loader Exp
  | 0 => loadTagged tables fmt fun _ => fail
  | room + 1 => loadTagged tables fmt (loadRecord tables fmt (loadExp room))

/-! ## What is read -/

variable {tables fmt} {load : Loader Exp} {q : Cursor UInt8 Exp}

theorem loadMany_erases {α : Type} {load : Loader α} {q : Cursor UInt8 α} (h : load.Erases q)
    (n : ℕ) : (loadMany load n).Erases (Persist.loadMany q n) := by
  induction n with
  | zero => exact .pure _
  | succ n ih => exact .bind h fun _ => .bind ih fun _ => .pure _

theorem loadParts_erases (h : load.Erases q) : (loadParts load).Erases (Persist.loadParts q) := by
  have hpart (there : Bool) : (loadPart load there).Erases (Persist.loadPart q there) :=
    .ite h (.pure _)
  exact .bind (.read _) fun _ => .bind (hpart _) fun _ => .bind (hpart _) fun _ => .pure _

theorem loadCallable_erases (h : load.Erases q) (make : CStr → Exp → Exp → Exp) :
    (loadCallable load make).Erases (Persist.loadCallable q make) :=
  .bind (.read _) fun _ => .bind (loadParts_erases h) fun _ => .pure _

/-- The effect of a lambda does not change what is read. -/
theorem loadLambda_erases (h : load.Erases q) :
    (loadLambda load).Erases (Persist.loadCallable q (.lambda false)) := by
  have hbind : (loadLambda load).Erases (Persist.loadCallable q (.lambda false) >>= Pure.pure) :=
    .bind (loadCallable_erases h _) fun _ => .after (.pure _)
  refine fun b pos x => (hbind b pos x).trans ?_
  show Cursor.bind _ _ b pos = _
  unfold Cursor.bind
  cases Persist.loadCallable q (.lambda false) b pos <;> rfl

theorem loadVec_erases (hversion : 2 ≤ fmt.version) (h : load.Erases q) :
    (loadVec load fmt).Erases (Persist.loadVec q) := by
  rw [loadVec, if_pos hversion]
  refine .bind (.read _) fun _ => .ite .fail (.bind (.read _) fun _ => .ite .fail (.ite ?_ (.ite ?_ ?_)))
  · exact .map _ (loadMany_erases h _)
  · exact .map _ (loadMany_erases (.read _) _)
  · exact .map _ (loadMany_erases (.read _) _)

theorem loadSet_erases (h : load.Erases q) : (loadSet load).Erases (Persist.loadSet q) := by
  have hmember : (loadMember load).Erases (Persist.loadMember q) := by
    refine .bind h fun v => ?_
    cases setEntry v with
    | none => exact .fail
    | some kv => exact .pure _
  exact .bind (.read _) fun _ => .bind (loadMany_erases hmember _) fun _ => .pure _

theorem loadDict_erases (h : load.Erases q) : (loadDict load).Erases (Persist.loadDict q) := by
  have hentry : (loadEntry load).Erases (Persist.loadEntry q) :=
    .bind (.read _) fun _ => .bind h fun _ => .pure _
  exact .bind (.read _) fun _ => .bind (loadMany_erases hentry _) fun _ => .pure _

theorem loadHamt_erases (h : load.Erases q) (place : List (Exp × Exp) → ℕ → UInt64) :
    (loadHamt load place).Erases (Persist.loadHamt q place) := by
  have hkeyVal : (loadKeyVal load).Erases (Persist.loadKeyVal q) :=
    .bind h fun _ => .ite .fail (.bind h fun _ => .pure _)
  exact .bind (.read _) fun _ => .bind (loadMany_erases hkeyVal _) fun _ => .read _

/-- The process that loads, for a dump of the classes and modules of `reg`. -/
def Tables.session (tables : Tables) (fmt : Format) (reg : Registry)
    (hreg : ∀ id name, reg.userTypeName id = some name → (tables.typeId name).toNat = id) : Session where
  toRegistry := reg
  typeId := tables.typeId
  typeId_of_name := hreg
  customLoad type := ((fmt.customType type).bind tables.tfunc).map ModuleLoad.reads
  place := tables.place

variable {reg : Registry}
  {hreg : ∀ id name, reg.userTypeName id = some name → (tables.typeId name).toNat = id}

theorem loadTypeObj_erases (hversion : 5 ≤ fmt.version) :
    (loadTypeObj tables fmt).Erases (Persist.loadTypeObj (tables.session fmt reg hreg)) := by
  refine .bind (.read _) fun id => ?_
  by_cases hid : id = 0xffffffff
  · rw [if_pos ⟨hid, hversion⟩, if_pos hid]
    refine .bind (.read _) fun length => .ite .fail ?_
    -- the name is made of the bytes before it is used
    intro b pos x
    show (StateCursor.bind (read (CStr.ofBytes <$> fread length)) _ b pos x).2 =
      Cursor.bind (fread length) _ b pos
    show (StateCursor.bind (read (Cursor.bind (fread length) fun bytes =>
      Cursor.pure (CStr.ofBytes bytes))) _ b pos x).2 = _
    unfold StateCursor.bind StateCursor.read Cursor.bind
    cases fread length b pos <;> rfl
  · rw [if_neg fun h => hid h.1, if_neg hid]
    exact .pure _

theorem loadRecord_erases (hversion : 2 ≤ fmt.version) (h : load.Erases q) (type : ℕ) :
    (loadRecord tables fmt load type).Erases
      (Persist.loadRecord (tables.session fmt reg hreg) q type) := by
  have hread {q : Cursor UInt8 Exp} : (StateCursor.read q : Loader Exp).Erases q := .read q
  refine .ite hread (.ite hread (.ite hread (.ite hread (.ite hread (.ite (loadVec_erases hversion h)
    (.ite ?_ (.ite (loadLambda_erases h) (.ite (loadCallable_erases h _) (.ite hread
      (.ite (loadDict_erases h) (.ite ?_ (.ite (loadSet_erases h) (.ite (loadHamt_erases h _)
        (.ite hread (.ite hread (.ite ?_ .fail))))))))))))))))
  · exact .bind (loadParts_erases h) fun _ => .pure _
  · exact .bind (.read _) fun _ => .map _ (loadMany_erases h _)
  · dsimp only [Tables.session]
    cases (fmt.customType type).bind tables.tfunc with
    | none => exact .fail
    | some custom => exact custom.erases _ _ h

/-- **A file of the current version is read as `Persist.loadExp` reads it.** -/
theorem loadExp_erases (hversion : 5 ≤ fmt.version) (room : ℕ) :
    (loadExp tables fmt room).Erases (Persist.loadExp (tables.session fmt reg hreg) room) := by
  induction room with
  | zero => exact .bind (.read _) fun _ => .ite (loadTypeObj_erases hversion) .fail
  | succ room ih =>
    exact .bind (.read _) fun type =>
      .ite (loadTypeObj_erases hversion) (loadRecord_erases (by omega) ih type)

/-! ## Progress -/

theorem shrinks_fread (n : ℕ) : (fread n).Shrinks := fun s =>
  .bind (.need fun hn => .bind (.slice hn (.bind (.skip hn (.pure (by simp))))))

theorem shrinks_loadLe (w : ℕ) : (loadLe w).Shrinks := .map _ (shrinks_fread w)

theorem shrinks_loadInt (w : ℕ) : (loadInt w).Shrinks := .map _ (shrinks_loadLe w)

theorem shrinks_loadStr : loadStr.Shrinks :=
  .bind (shrinks_loadLe 8) fun _ => .ite .fail (.map _ (shrinks_fread _))

theorem shrinks_loadCount : loadCount.Shrinks :=
  .bind (shrinks_loadLe 8) fun _ => .ite .fail (.pure _)

theorem shrinks_made (v : Option Exp) : (Persist.made v).Shrinks := by
  cases v with
  | none => exact .fail
  | some v => exact .pure v

theorem shrinks_utf8Continue (n cp : ℕ) : (utf8Continue n cp).Shrinks := by
  induction n generalizing cp with
  | zero => exact .pure cp
  | succ n ih =>
    intro s
    refine .bind (.test ?_)
    cases s with
    | nil => exact .pure (Nat.le_refl _)
    | cons c s =>
      by_cases hc : c &&& 0xc0 = 0x80
      · rw [List.getElem?_cons_zero, Option.any_some, decide_eq_true hc, if_pos rfl]
        exact .bind (.next ((ih _ s).mono fun _ _ hr => Nat.le_succ_of_le hr))
      · rw [List.getElem?_cons_zero, Option.any_some, decide_eq_false hc, if_neg Bool.false_ne_true]
        exact .pure (Nat.le_refl _)

theorem shrinks_loadChar : loadChar.Shrinks := by
  have hdecode (c : UInt8) : (utf8DecodeStream c).Shrinks :=
    .ite (.pure _) (.ite (shrinks_utf8Continue _ _) (.ite (shrinks_utf8Continue _ _)
      (.ite (shrinks_utf8Continue _ _) (.pure _))))
  intro s
  refine .bind (.need fun hs => .bind ?_)
  cases s with
  | nil => simp at hs
  | cons c s =>
    refine .next (.bind ?_)
    exact (hdecode c s).mono fun _ _ hr => .pure (Nat.le_succ_of_le hr)

theorem shrinks_loadRational : loadRational.Shrinks :=
  .bind (shrinks_loadInt 8) fun _ => .bind (shrinks_loadInt 8) fun _ => .ite .fail (shrinks_made _)

theorem shrinks_loadDecimal : loadDecimal.Shrinks :=
  .bind (shrinks_loadInt 16) fun _ => .bind (shrinks_loadInt 4) fun _ => .ite .fail (shrinks_made _)

theorem shrinks_loadBlob : loadBlob.Shrinks :=
  .bind (shrinks_loadLe 8) fun _ => .ite .fail (.map _ (shrinks_fread _))

theorem forward_loadMany {α : Type} {load : Loader α} (h : load.Forward) (n : ℕ) :
    (loadMany load n).Forward := by
  induction n with
  | zero => exact .pure _
  | succ n ih => exact .bind h fun _ => .bind ih fun _ => .pure _

theorem forward_loadParts (h : load.Forward) : (loadParts load).Forward := by
  have hpart (there : Bool) : (loadPart load there).Forward := .ite h (.pure _)
  exact .bind (.read (shrinks_loadLe 1)) fun _ => .bind (hpart _) fun _ => .bind (hpart _) fun _ =>
    .pure _

theorem forward_loadCallable (h : load.Forward) (make : CStr → Exp → Exp → Exp) :
    (loadCallable load make).Forward :=
  .bind (.read shrinks_loadStr) fun _ => .bind (forward_loadParts h) fun _ => .pure _

theorem forward_loadVec (h : load.Forward) : (loadVec load fmt).Forward := by
  have hlen : (StateCursor.read (loadLe 4) : Loader ℕ).Forward := .read (shrinks_loadLe 4)
  refine .ite ?_ (.bind hlen fun _ => .ite .fail (.map _ (forward_loadMany h _)))
  refine .bind (.read (shrinks_loadLe 1)) fun _ => .ite .fail (.bind hlen fun _ => .ite .fail ?_)
  refine .ite (.map _ (forward_loadMany h _)) (.ite ?_ ?_)
  · exact .map _ (forward_loadMany (.read (shrinks_loadInt 8)) _)
  · exact .map _ (forward_loadMany (.read (shrinks_loadLe 8)) _)

theorem forward_loadSet (h : load.Forward) : (loadSet load).Forward := by
  have hmember : (loadMember load).Forward := by
    refine .bind h fun v => ?_
    cases setEntry v with
    | none => exact .fail
    | some kv => exact .pure _
  exact .bind (.read shrinks_loadCount) fun _ => .bind (forward_loadMany hmember _) fun _ => .pure _

theorem forward_loadDict (h : load.Forward) : (loadDict load).Forward := by
  have hentry : (loadEntry load).Forward :=
    .bind (.read shrinks_loadStr) fun _ => .bind h fun _ => .pure _
  exact .bind (.read shrinks_loadCount) fun _ => .bind (forward_loadMany hentry _) fun _ => .pure _

theorem forward_loadHamt (h : load.Forward) (place : List (Exp × Exp) → ℕ → UInt64) :
    (loadHamt load place).Forward := by
  have hkeyVal : (loadKeyVal load).Forward :=
    .bind h fun _ => .ite .fail (.bind h fun _ => .pure _)
  exact .bind (.read shrinks_loadCount) fun _ => .bind (forward_loadMany hkeyVal _) fun _ =>
    .read (shrinks_made _)

theorem forward_loadTypeObj : (loadTypeObj tables fmt).Forward := by
  refine .bind (.read (shrinks_loadLe 4)) fun _ => .ite ?_ (.pure _)
  exact .bind (.read (shrinks_loadLe 4)) fun _ => .ite .fail
    (.bind (.read (.map _ (shrinks_fread _))) fun _ => .bind (.modify _) fun _ => .pure _)

theorem forward_loadRecord (h : load.Forward) (type : ℕ) :
    (loadRecord tables fmt load type).Forward := by
  have hstr (make : CStr → Exp) : (StateCursor.read (make <$> loadStr) : Loader Exp).Forward :=
    .read (.map _ shrinks_loadStr)
  refine .ite (hstr _) (.ite ?_ (.ite ?_ (.ite (hstr _) (.ite (.read shrinks_loadChar)
    (.ite (forward_loadVec h) (.ite ?_ (.ite ?_ (.ite (forward_loadCallable h _)
      (.ite (.read shrinks_loadBlob) (.ite (forward_loadDict h) (.ite ?_ (.ite (forward_loadSet h)
        (.ite (forward_loadHamt h _) (.ite (.read shrinks_loadRational)
          (.ite (.read shrinks_loadDecimal) (.ite ?_ .fail))))))))))))))))
  · exact .read (.bind (shrinks_loadInt 8) fun _ => .pure _)
  · exact .read (.map _ (shrinks_loadLe 8))
  · exact .bind (forward_loadParts h) fun _ => .pure _
  · exact .bind (forward_loadCallable h _) fun _ => .bind (.modify _) fun _ => .pure _
  · exact .bind (.read shrinks_loadCount) fun _ => .map _ (forward_loadMany h _)
  · cases (fmt.customType type).bind tables.tfunc with
    | none => exact .fail
    | some custom => exact custom.forward _ h

/-- **Loading a value moves forward in the file.** -/
theorem forward_loadExp (room : ℕ) : (loadExp tables fmt room).Forward := by
  have htype : (StateCursor.read (loadLe 2) : Loader ℕ).Forward := .read (shrinks_loadLe 2)
  induction room with
  | zero => exact .bind htype fun _ => .ite forward_loadTypeObj .fail
  | succ room ih =>
    exact .bind htype fun type => .ite forward_loadTypeObj (forward_loadRecord ih type)

end Alcove.Restore
