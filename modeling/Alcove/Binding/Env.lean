import Alcove.Value.Dict

/-!
# Environments

`env_t`: the bindings of one function call or scope. The first few are in inline slots, the others
in a dict, and `root` is the enclosing environment. The arrays keep what was left in them beyond
`n_inline`, and a slot whose key is `NULL` is not seen by a search for a name.

A name is resolved by a walk along the `root` chain that looks at the inline slots and then at the
dict of each environment. The walks of the interpreter differ in the direction in which they scan
the slots, so a walk takes the scan as a parameter (`Heap.walk`).

**Main results:** `scanUp_eq_scanDown`, `Heap.walk_congr`. Where no two live slots of an environment
have the same name, both directions find the same slot, and then the walks find the same binding.
-/

namespace Alcove.Binding

variable {V : Type}

/-- `ENV_INLINE_SLOTS` -/
def envInlineSlots : ℕ := 6

/-! ## The dict of an environment -/

/-- A dict with a sound table. -/
abbrev Scope (V : Type) : Type := {d : Dict V // d.Ok}

namespace Scope

/-- `create_dict` -/
def create : Scope V := ⟨Dict.create, Dict.ok_create⟩

def find (d : Scope V) (key : CStr) : Option V := d.1.find key

/-- An assignment to the value of an entry that is there. -/
def assign (d : Scope V) (key : CStr) (v : V) : Scope V := ⟨d.1.put key v, d.2.put⟩

/-- `set_get_keyval_dict` with a value -/
def set (d : Scope V) (key : CStr) (v : V) : Scope V := ⟨d.1.set key v, d.2.set⟩

/-- `dict_copy` -/
def copy (d : Scope V) : Scope V := ⟨Dict.ofList d.1.entries, Dict.ok_ofList _⟩

/-- `del_keyval_dict` -/
def erase (d : Scope V) (key : CStr) : Scope V := ⟨(d.1.erase key).1, d.2.erase⟩

variable {d : Scope V} {key k : CStr} {v : V}

@[simp]
theorem find_assign : (d.assign key v).find k = if k = key then some v else d.find k :=
  d.2.find_put

@[simp]
theorem find_set : (d.set key v).find k = if k = key then some v else d.find k := d.2.find_set

end Scope

/-! ## One environment -/

/-- The bindings of an `env_t`. -/
structure Frame (V : Type) where
  inlineKeys : ℕ → Option CStr
  inlineVals : ℕ → Option V
  nInline : ℕ
  d : Option (Scope V)

/-- `env_t` -/
structure Env (V : Type) extends Frame V where
  root : Option ℕ

/-- Where an environment holds a binding. -/
inductive Place where
  | slot (i : ℕ)
  | dict
  deriving DecidableEq

/-- A search of the inline slots. -/
abbrev Scan (V : Type) : Type := Frame V → CStr → Option ℕ

/-- The slots from the first one on, as `lookup_scoped` and the assignments scan them. -/
def scanUp : Scan V := fun e key =>
  (List.range e.nInline).find? fun i => e.inlineKeys i = some key

/-- The slots from the last one back, as `lookup` scans them. -/
def scanDown : Scan V := fun e key =>
  (List.range e.nInline).reverse.find? fun i => e.inlineKeys i = some key

namespace Frame

/-- The names of the live slots. -/
def names (e : Frame V) : List CStr := (List.range e.nInline).filterMap e.inlineKeys

/-- **No two live slots have the same name.** -/
def Distinct (e : Frame V) : Prop :=
  ∀ i j key, i < e.nInline → j < e.nInline → e.inlineKeys i = some key →
    e.inlineKeys j = some key → i = j

/-- `curenv->d` and its entry for the key -/
def entry (e : Frame V) (key : CStr) : Option V := e.d.bind fun d => d.find key

/-- The binding of a name in one environment: a slot, then an entry of the dict. -/
def find (scan : Scan V) (e : Frame V) (key : CStr) : Option Place :=
  match scan e key with
  | some i => some (.slot i)
  | none => if (e.entry key).isSome then some .dict else none

/-- The value of a binding. -/
def read (e : Frame V) (key : CStr) : Place → Option V
  | .slot i => e.inlineVals i
  | .dict => e.entry key

/-- An assignment to a binding that is there. -/
def write (e : Frame V) (key : CStr) (v : V) : Place → Frame V
  | .slot i => { e with inlineVals := Function.update e.inlineVals i (some v) }
  | .dict => { e with d := e.d.map fun d => d.assign key v }

/-- `if (!env->d) env->d = create_dict();` and an entry. -/
def define (e : Frame V) (key : CStr) (v : V) : Frame V :=
  { e with d := some ((e.d.getD Scope.create).set key v) }

variable {e : Frame V} {key : CStr}

theorem mem_names : key ∈ e.names ↔ ∃ i, i < e.nInline ∧ e.inlineKeys i = some key := by
  rw [names, List.mem_filterMap]
  constructor
  · rintro ⟨i, hi, hk⟩
    exact ⟨i, List.mem_range.mp hi, hk⟩
  · rintro ⟨i, hi, hk⟩
    exact ⟨i, List.mem_range.mpr hi, hk⟩

end Frame

/-! ## The two directions -/

section Scan

variable {e : Frame V} {key : CStr} {i : ℕ}

theorem lt_of_scanUp (h : scanUp e key = some i) :
    i < e.nInline ∧ e.inlineKeys i = some key := by
  have hmem := List.mem_of_find?_eq_some h
  have hkey := List.find?_some h
  exact ⟨List.mem_range.mp hmem, by simpa using hkey⟩

theorem lt_of_scanDown (h : scanDown e key = some i) :
    i < e.nInline ∧ e.inlineKeys i = some key := by
  have hmem := List.mem_of_find?_eq_some h
  have hkey := List.find?_some h
  rw [List.mem_reverse] at hmem
  exact ⟨List.mem_range.mp hmem, by simpa using hkey⟩

theorem scanUp_eq_none : scanUp e key = none ↔ key ∉ e.names := by
  rw [scanUp, List.find?_eq_none, Frame.mem_names]
  simp

theorem scanDown_eq_none : scanDown e key = none ↔ key ∉ e.names := by
  rw [scanDown, List.find?_eq_none, Frame.mem_names]
  simp

/-- **Distinct names are found in both directions alike.** -/
theorem scanUp_eq_scanDown (h : e.Distinct) (key : CStr) : scanUp e key = scanDown e key := by
  cases hup : scanUp e key with
  | none =>
    rw [scanUp_eq_none] at hup
    rw [scanDown_eq_none.mpr hup]
  | some i =>
    cases hdown : scanDown e key with
    | none =>
      rw [scanDown_eq_none, ← scanUp_eq_none, hup] at hdown
      cases hdown
    | some j =>
      obtain ⟨hi, hki⟩ := lt_of_scanUp hup
      obtain ⟨hj, hkj⟩ := lt_of_scanDown hdown
      rw [h i j key hi hj hki hkj]

end Scan

/-! ## The heap of environments -/

/-- The environments that were made. The `root` of an environment was there before it. -/
structure Heap (V : Type) where
  envs : List (Env V)
  rooted : ∀ (i : ℕ) (e : Env V) (r : ℕ), envs[i]? = some e → e.root = some r → r < i

namespace Heap

/-- The environments from one on along `root`; `fuel` bounds their number. -/
def ancestors (envs : List (Env V)) : ℕ → ℕ → List ℕ
  | 0, _ => []
  | fuel + 1, i => i :: match (envs[i]?).bind Env.root with
    | none => []
    | some r => ancestors envs fuel r

/-- The environments a search from `env` meets; none when `env` is `NULL`. -/
def chain (h : Heap V) : Option ℕ → List ℕ
  | none => []
  | some i => ancestors h.envs (i + 1) i

/-- The first environment of the chain that binds the name, and where. -/
def walk (h : Heap V) (scan : Scan V) (env : Option ℕ) (key : CStr) : Option (ℕ × Place) :=
  (h.chain env).findSome? fun i =>
    (h.envs[i]?).bind fun e => (e.find scan key).map fun p => (i, p)

/-- The value of a binding. -/
def read (h : Heap V) (key : CStr) (found : ℕ × Place) : Option V :=
  (h.envs[found.1]?).bind fun e => e.read key found.2

/-- A change of the bindings of one environment. -/
def modify (h : Heap V) (i : ℕ) (f : Frame V → Frame V) : Heap V where
  envs := h.envs.modify i fun e => { e with toFrame := f e.toFrame }
  rooted := by
    intro j e r hj hr
    rw [List.getElem?_modify] at hj
    obtain ⟨old, hold, rfl⟩ := Option.map_eq_some_iff.mp hj
    refine h.rooted j old r hold ?_
    split at hr <;> exact hr

/-- `cur->root == NULL` -/
def isRoot (h : Heap V) (i : ℕ) : Bool := ((h.envs[i]?).bind Env.root).isNone

variable {h : Heap V} {i : ℕ} {f : Frame V → Frame V}

theorem ancestors_fuel {fuel fuel' : ℕ} (hi : i < fuel) (hi' : i < fuel') :
    ancestors h.envs fuel i = ancestors h.envs fuel' i := by
  induction fuel generalizing i fuel' with
  | zero => exact absurd hi (Nat.not_lt_zero i)
  | succ fuel ih =>
    obtain ⟨fuel', rfl⟩ : ∃ n, fuel' = n + 1 := ⟨fuel' - 1, by omega⟩
    rw [ancestors, ancestors]
    cases hr : (h.envs[i]?).bind Env.root with
    | none => rfl
    | some r =>
      obtain ⟨e, he, her⟩ := Option.bind_eq_some_iff.mp hr
      have hlt : r < i := h.rooted i e r he her
      simp only [ih (by omega : r < fuel) (by omega : r < fuel')]

/-- **The chain follows `root` to its end.** -/
theorem chain_some : h.chain (some i) = i :: h.chain ((h.envs[i]?).bind Env.root) := by
  rw [chain, ancestors]
  cases hr : (h.envs[i]?).bind Env.root with
  | none => rfl
  | some r =>
    obtain ⟨e, he, her⟩ := Option.bind_eq_some_iff.mp hr
    simp only [chain, ancestors_fuel (h.rooted i e r he her) (Nat.lt_succ_self r)]

/-- What a walk finds depends on what is found in each environment only. -/
theorem walk_congr {h h' : Heap V} {scan scan' : Scan V} {env : Option ℕ} {key : CStr}
    (hchain : h.chain env = h'.chain env)
    (hfind : ∀ i : ℕ, (h.envs[i]?).map (fun e => e.find scan key) =
      (h'.envs[i]?).map fun e => e.find scan' key) :
    h.walk scan env key = h'.walk scan' env key := by
  rw [walk, walk, hchain]
  congr 1
  funext i
  have hi := hfind i
  cases he : h.envs[i]? with
  | none =>
    rw [he, Option.map_none, eq_comm, Option.map_eq_none_iff] at hi
    rw [hi]
    rfl
  | some e =>
    rw [he, Option.map_some, eq_comm, Option.map_eq_some_iff] at hi
    obtain ⟨e', he', hee⟩ := hi
    rw [he', Option.bind_some, Option.bind_some, hee]

/-- **Where names are distinct, the direction of the scans makes no difference.** -/
theorem walk_scanUp (hd : ∀ (i : ℕ) (e : Env V), h.envs[i]? = some e → e.Distinct)
    (env : Option ℕ) (key : CStr) : h.walk scanUp env key = h.walk scanDown env key := by
  refine walk_congr rfl fun i => ?_
  cases he : h.envs[i]? with
  | none => rfl
  | some e => simp only [Option.map_some, Frame.find, scanUp_eq_scanDown (hd i e he)]

/-! ## A change of one environment -/

theorem getElem?_modify (j : ℕ) : (h.modify i f).envs[j]? =
    (h.envs[j]?).map fun e => if i = j then { e with toFrame := f e.toFrame } else e := by
  rw [modify, List.getElem?_modify]
  rfl

theorem root_modify (j : ℕ) :
    ((h.modify i f).envs[j]?).bind Env.root = (h.envs[j]?).bind Env.root := by
  rw [getElem?_modify]
  cases he : h.envs[j]? with
  | none => rfl
  | some e =>
    rw [Option.map_some, Option.bind_some, Option.bind_some]
    split <;> rfl

theorem chain_modify (env : Option ℕ) : (h.modify i f).chain env = h.chain env := by
  cases env with
  | none => rfl
  | some j =>
    induction j using Nat.strong_induction_on with
    | _ j ih =>
      rw [chain_some, chain_some, root_modify]
      cases hr : (h.envs[j]?).bind Env.root with
      | none => rfl
      | some r =>
        obtain ⟨e, he, her⟩ := Option.bind_eq_some_iff.mp hr
        rw [ih r (h.rooted j e r he her)]

/-- A walk that met a binding first found it there. -/
theorem find_of_walk {scan : Scan V} {env : Option ℕ} {key : CStr} {p : Place}
    (hw : h.walk scan env key = some (i, p)) :
    ∃ e, h.envs[i]? = some e ∧ e.find scan key = some p := by
  obtain ⟨j, -, hj⟩ := List.exists_of_findSome?_eq_some hw
  obtain ⟨e, he, hp⟩ := Option.bind_eq_some_iff.mp hj
  obtain ⟨p', hp', heq⟩ := Option.map_eq_some_iff.mp hp
  cases heq
  exact ⟨e, he, hp'⟩

end Heap

end Alcove.Binding
