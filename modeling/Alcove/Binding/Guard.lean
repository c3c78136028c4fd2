import Alcove.Binding.Machine

/-!
# Callbacks that must not write global bindings

While a RESP callback runs on one of several reactors, `g_resp_cb_guard` is set and the forms that
define, assign, persist or forget are to refuse a write to the global environment. A form is given
with its operands evaluated: the function that `def` builds, the value that `=` assigns. A frame is
made by a call, so it has a `root`; only the global environment has none.

**Main result:** `callback_keeps_globals`. In a run under the guard in which each `defn` is evaluated
in a frame and each `setq` assigns to a name that a frame binds, or is refused, no environment without
a `root` changes, nor do the persistence marks and the namespace. `setq_store_symbol` has no guard,
unlike `assign_store_symbol`, and writes the global environment otherwise (`setq_writes_global`).
-/

namespace Alcove.Binding

open Lib

variable {V : Type}

/-! ## The state -/

/-- The names, the timestamps of the entries of each dict (positive ones are persistence marks), and
`g_current_ns`. -/
structure World (V : Type) where
  names : State V
  marks : ℕ → CStr → ℤ
  ns : Option CStr

/-- Why a form is refused. -/
inductive FormError where
  | assign (e : AssignError)
  | reservedBind (name : CStr) (context : List UInt8)
  | illFormed (text : List UInt8)

/-- The text of the error. -/
def FormError.message : FormError → List UInt8
  | .assign e => e.message
  | .reservedBind name context => "cannot bind reserved name '".toUTF8.toList ++ name.bytes ++
      "' ".toUTF8.toList ++ context
  | .illFormed text => text

/-- A form with its operands evaluated. `built` is the function or macro that the form makes, or the
error about its parameters and body. -/
inductive Form (V : Type) where
  | defcmd (name : CStr) (built : Except (List UInt8) V)
  | defncmd (name : CStr) (built : Except (List UInt8) V)
  | defccmd (name : CStr) (built : Except (List UInt8) V)
  | defmacrocmd (name : CStr) (built : Except (List UInt8) V)
  /-- `=` and `setf` of a symbol or a string -/
  | assign (isSymbol : Bool) (key : CStr) (v : V)
  /-- `=` and `setf` of a place in an object -/
  | assignPlace
  /-- `OP_STORE_FREE` -/
  | storeFree (key : CStr) (v : V)
  /-- one pair of `setq`, and `OP_SETQ_DYN` -/
  | setq (key : CStr) (v : V)
  | persist (key : CStr) (now : ℤ)
  | unpersist (key : CStr)
  | forget (key : CStr)
  | ns (name : Option CStr)
  /-- `require`, with the bindings that `:refer` makes; the forms of the module are evaluated after
  it -/
  | require (refers : List (CStr × V))

namespace World

/-- An entry in the dict of an environment. -/
def define (w : World V) (env : ℕ) (key : CStr) (v : V) : World V :=
  { w with names := { w.names with heap := w.names.heap.define env key v } }

/-- `ns_qualify` -/
def nsQualify (w : World V) (bare : CStr) (env : ℕ) : CStr :=
  match w.ns with
  | some ns =>
    if w.names.heap.isRoot env && !bare.bytes.contains 47 then
      .ofBytes (ns.bytes ++ 47 :: bare.bytes)
    else bare
  | none => bare

/-- `set_keyval_dict_timestamp` on the dict of the global environment. -/
def mark (w : World V) (env : ℕ) (key : CStr) (timestamp : ℤ) : World V :=
  let root := w.names.heap.outermost env
  if ((w.names.heap.envs[root]?).bind fun e => e.entry key).isSome then
    { w with marks := Function.update w.marks root (Function.update (w.marks root) key timestamp) }
  else w

end World

/-- The tail of `defcmd`, `defncmd` and `defmacrocmd`: the name, qualified, is bound in `env`. -/
def bindBuilt (w : World V) (env : ℕ) (name : CStr) :
    Except (List UInt8) V → Except FormError (World V)
  | .error text => .error (.illFormed text)
  | .ok v => .ok (w.define env (w.nsQualify name env) v)

/-- `defcmd` -/
def defcmd (guard : Bool) (w : World V) (env : ℕ) (name : CStr) (built : Except (List UInt8) V) :
    Except FormError (World V) :=
  if guard then .error (.assign .readOnlyCallback) else bindBuilt w env name built

/-- `defncmd` -/
def defncmd (w : World V) (env : ℕ) (name : CStr) (built : Except (List UInt8) V) :
    Except FormError (World V) :=
  if isReservedName w.names name then
    .error (.reservedBind name "as a function name".toUTF8.toList)
  else bindBuilt w env name built

/-- The symbol path of `=`, and `OP_STORE_FREE`. -/
def assignName (guard isSymbol : Bool) (w : World V) (env : ℕ) (key : CStr) (v : V) :
    Except FormError (World V) :=
  match updatebang w.names guard isSymbol key env v with
  | .error e => .error (.assign e)
  | .ok names => .ok { w with names := names }

/-- One round of `setqcmd`, and `OP_SETQ_DYN`. -/
def setqcmd (w : World V) (env : ℕ) (key : CStr) (v : V) : Except FormError (World V) :=
  if isReservedName w.names key then .error (.assign (.reservedName key))
  else .ok { w with names := { w.names with heap := setqStoreSymbol w.names.heap key env v } }

/-- `forgetcmd`: the entry goes with its timestamp. -/
def forgetcmd (guard : Bool) (w : World V) (env : ℕ) (key : CStr) : Except FormError (World V) :=
  if guard then .error (.assign .readOnlyCallback)
  else
    let root := w.names.heap.outermost env
    .ok { w with
      names := { w.names with heap := w.names.heap.modify root fun e => e.forget key }
      marks := Function.update w.marks root (Function.update (w.marks root) key 0) }

/-- The evaluation of a form in an environment. -/
def evalForm (guard : Bool) (w : World V) (env : ℕ) : Form V → Except FormError (World V)
  | .defcmd name built => defcmd guard w env name built
  | .defncmd name built => defncmd w env name built
  -- `defc` evaluates a `def` form
  | .defccmd name built => defcmd guard w env name built
  | .defmacrocmd name built => defcmd guard w env name built
  | .assign isSymbol key v => assignName guard isSymbol w env key v
  | .assignPlace => .ok w
  | .storeFree key v => assignName guard true w env key v
  | .setq key v => setqcmd w env key v
  | .persist key now =>
    if guard then .error (.assign .readOnlyCallback) else .ok (w.mark env key now)
  | .unpersist key =>
    if guard then .error (.assign .readOnlyCallback) else .ok (w.mark env key 0)
  | .forget key => forgetcmd guard w env key
  | .ns name => if guard then .error (.assign .readOnlyCallback) else .ok { w with ns := name }
  | .require refers =>
    if guard then .error (.assign .readOnlyCallback)
    else .ok (refers.foldl (fun w kv => w.define 0 kv.1 kv.2) w)

/-! ## Steps -/

/-- A step: a form, under the guard or not, or what a call does to its frame. -/
inductive Eval (V : Type) where
  | form (guard : Bool) (env : ℕ) (f : Form V)
  | frame (s : Step V)

/-- A call makes frames that have a `root`, and changes such frames only. -/
def ofCall (w : World V) : Step V → Bool
  | .makeEnv root _ => root.isSome
  | .bindVar env _ _ | .bindLet env _ | .bindSlot env _ | .unbindSlot env _ | .storeSlot env _ _
  | .tailSelf env _ | .tailCall env | .define env _ _ | .pushHandler env =>
    !w.names.heap.isRoot env
  | .handlerEnv _ _ | .popHandler | .readSymbol _ | .lookup _ _ | .lookupScoped _ _ => true
  | _ => false

/-- One step; a form that is refused changes nothing. -/
def evalStep (w : World V) : Eval V → Option (World V)
  | .form guard env f =>
    if env < w.names.heap.envs.length then
      some (match evalForm guard w env f with
        | .ok w' => w'
        | .error _ => w)
    else none
  | .frame s =>
    if ofCall w s then (step w.names s).map fun names => { w with names := names } else none

/-- The state once the interpreter has started. -/
def World.init (stale : Stale V) (reserved : Scope V) : World V where
  names := State.init stale reserved
  marks := fun _ _ => 0
  ns := none

/-- A form that has no guard is refused for another reason or acts in a frame. -/
def staysLocal (w : World V) (env : ℕ) : Form V → Bool
  | .defncmd name built =>
    isReservedName w.names name || !built.toBool || !w.names.heap.isRoot env
  | .setq key _ =>
    isReservedName w.names key || (w.names.heap.walk scanUp (some env) key).any fun found =>
      !w.names.heap.isRoot found.1
  | _ => true

/-- A step of a callback: the guard is set. -/
def keepsGlobals (w : World V) : Eval V → Bool
  | .form guard env f => guard && staysLocal w env f
  | .frame _ => true

/-! ## What is global -/

/-- The environments without a `root` are as they were. -/
def Heap.SameGlobals (h h' : Heap V) : Prop :=
  ∀ (i : ℕ) (e : Env V), h.envs[i]? = some e → e.root = none → h'.envs[i]? = some e

/-- Nothing global differs: the environments without a `root` with their timestamps, and the
namespace. -/
structure SameGlobals (w w' : World V) : Prop where
  envs : w.names.heap.SameGlobals w'.names.heap
  marks : w'.marks = w.marks
  ns : w'.ns = w.ns

namespace Heap

variable {h h' h'' : Heap V} {i : ℕ} {f : Frame V → Frame V}

theorem SameGlobals.refl (h : Heap V) : h.SameGlobals h := fun _ _ he _ => he

theorem SameGlobals.trans (h₁ : h.SameGlobals h') (h₂ : h'.SameGlobals h'') : h.SameGlobals h'' :=
  fun i e he hr => h₂ i e (h₁ i e he hr) hr

theorem not_isRoot {e : Env V} (he : h.envs[i]? = some e) (hi : h.isRoot i = false) :
    e.root ≠ none := by
  intro hr
  rw [isRoot, he, Option.bind_some, hr] at hi
  cases hi

/-- A change of a frame is none of a global environment. -/
theorem sameGlobals_modify (hi : h.isRoot i = false) : h.SameGlobals (h.modify i f) := by
  intro j e he hr
  have hij : i ≠ j := by
    rintro rfl
    exact not_isRoot he hi hr
  rw [getElem?_modify, he, Option.map_some, if_neg hij]

theorem sameGlobals_push {e : Env V} (hr : ∀ r ∈ e.root, r < h.envs.length) :
    h.SameGlobals (h.push e hr) := by
  intro j e' he _
  obtain ⟨hj, -⟩ := List.getElem?_eq_some_iff.mp he
  exact (List.getElem?_append_left hj).trans he

/-- The environments have the parents and as many live slots as before. -/
def SameSlots (h h' : Heap V) : Prop :=
  ∀ (i : ℕ) (e' : Env V), h'.envs[i]? = some e' →
    ∃ e, h.envs[i]? = some e ∧ e'.root = e.root ∧ e'.nInline = e.nInline

theorem SameSlots.refl (h : Heap V) : h.SameSlots h := fun _ e' he => ⟨e', he, rfl, rfl⟩

theorem SameSlots.trans (h₁ : h.SameSlots h') (h₂ : h'.SameSlots h'') : h.SameSlots h'' := by
  intro i e'' he''
  obtain ⟨e', he', hr', hn'⟩ := h₂ i e'' he''
  obtain ⟨e, he, hr, hn⟩ := h₁ i e' he'
  exact ⟨e, he, hr'.trans hr, hn'.trans hn⟩

theorem sameSlots_modify (hf : ∀ e : Frame V, (f e).nInline = e.nInline) :
    h.SameSlots (h.modify i f) := by
  intro j e' he'
  rw [getElem?_modify] at he'
  obtain ⟨e, he, rfl⟩ := Option.map_eq_some_iff.mp he'
  refine ⟨e, he, ?_⟩
  split
  · exact ⟨rfl, hf e.toFrame⟩
  · exact ⟨rfl, rfl⟩

theorem sameSlots_write (h : Heap V) (key : CStr) (v : V) (found : ℕ × Place) :
    h.SameSlots (h.write key v found) := by
  refine sameSlots_modify fun e => ?_
  cases found.2 <;> rfl

theorem sameSlots_define (h : Heap V) (i : ℕ) (key : CStr) (v : V) :
    h.SameSlots (h.define i key v) := sameSlots_modify fun _ => rfl

theorem sameSlots_forget (h : Heap V) (i : ℕ) (key : CStr) :
    h.SameSlots (h.modify i fun e => e.forget key) := sameSlots_modify fun _ => rfl

end Heap

/-! ## What calls keep -/

/-- A global environment has no live slot, and the frames that handlers saved are no global ones. -/
structure Calls (σ : State V) : Prop where
  noSlot : ∀ (i : ℕ) (e : Env V), σ.heap.envs[i]? = some e → e.root = none → e.nInline = 0
  saved : ∀ e ∈ σ.handlers, e.root ≠ none

namespace Calls

variable {σ σ' : State V} {l : Step V}

theorem init (stale : Stale V) (reserved : Scope V) : Calls (State.init stale reserved) where
  noSlot := by
    intro i e he _
    have hmem : e ∈ [(⟨Frame.fresh stale, none⟩ : Env V)] := List.mem_of_getElem? he
    rw [List.mem_singleton.mp hmem]
    rfl
  saved := by simp [State.init]

theorem of_slots (hc : Calls σ) {heap : Heap V} (hs : σ.heap.SameSlots heap) :
    Calls { σ with heap := heap } where
  noSlot := by
    intro i e' he' hr'
    obtain ⟨e, he, hr, hn⟩ := hs i e' he'
    rw [hn]
    exact hc.noSlot i e he (hr ▸ hr')
  saved := hc.saved

/-- **A slot that a walk finds is in a frame.** -/
theorem slot_not_root (hc : Calls σ) {env : Option ℕ} {key : CStr} {i j : ℕ}
    (hw : σ.heap.walk scanUp env key = some (i, .slot j)) : σ.heap.isRoot i = false := by
  obtain ⟨e, he, hp⟩ := Heap.find_of_walk hw
  have hlt : j < e.nInline := by
    rw [Frame.find] at hp
    split at hp
    · rename_i k hk
      cases hp
      exact (lt_of_scanUp hk).1
    · split at hp <;> cases hp
  rw [Heap.isRoot, he, Option.bind_some]
  cases hr : e.root with
  | none =>
    have hzero := hc.noSlot i e he hr
    omega
  | some r => rfl

theorem change (hc : Calls σ) {i : ℕ} {ok : Frame V → Bool} {f : Frame V → Frame V}
    (hi : σ.heap.isRoot i = false) (hs : σ.change i ok f = some σ') :
    Calls σ' ∧ σ.heap.SameGlobals σ'.heap := by
  rw [State.change] at hs
  split at hs
  · split at hs
    · obtain rfl := Option.some.inj hs
      refine ⟨⟨fun j e' he' hr' => ?_, hc.saved⟩, Heap.sameGlobals_modify hi⟩
      rw [Heap.getElem?_modify] at he'
      obtain ⟨e, he, rfl⟩ := Option.map_eq_some_iff.mp he'
      by_cases hij : i = j
      · subst hij
        rw [if_pos rfl] at hr'
        exact absurd hr' (Heap.not_isRoot (e := e) he hi)
      · rw [if_neg hij] at hr' ⊢
        exact hc.noSlot j e he hr'
    · cases hs
  · cases hs

theorem push (hc : Calls σ) {e : Frame V} {root : Option ℕ} (he : root ≠ none)
    (hs : σ.push ⟨e, root⟩ = some σ') :
    Calls σ' ∧ σ.heap.SameGlobals σ'.heap := by
  rw [State.push] at hs
  split at hs
  · rename_i hroot
    obtain rfl := Option.some.inj hs
    refine ⟨⟨fun i e' hi hr => ?_, hc.saved⟩, Heap.sameGlobals_push hroot⟩
    rcases Nat.lt_or_ge i σ.heap.envs.length with hlt | hge
    · exact hc.noSlot i e' ((List.getElem?_append_left hlt).symm.trans hi) hr
    · have hlast := (List.getElem?_append_right hge).symm.trans hi
      rw [List.getElem?_singleton] at hlast
      split at hlast
      · obtain rfl := Option.some.inj hlast
        exact absurd hr he
      · cases hlast
  · cases hs

/-- What does not touch the environments. -/
theorem of_heap_eq (hc : Calls σ) (hh : σ'.heap = σ.heap) (hs : ∀ e ∈ σ'.handlers, e.root ≠ none) :
    Calls σ' ∧ σ.heap.SameGlobals σ'.heap :=
  ⟨⟨hh ▸ hc.noSlot, hs⟩, hh ▸ Heap.SameGlobals.refl σ.heap⟩

end Calls

section Steps

variable {w w' : World V} {σ : State V}

/-- **What a call does to its frame**, it does to no global environment. -/
theorem Calls.ofCall {s : Step V} (hc : Calls w.names) (hok : Binding.ofCall w s = true)
    (hs : step w.names s = some σ) : Calls σ ∧ w.names.heap.SameGlobals σ.heap := by
  have hframe : ∀ {env : ℕ}, (!w.names.heap.isRoot env) = true → w.names.heap.isRoot env = false := by
    simp
  cases s with
  | makeEnv root stale =>
    have hroot : root.isSome = true := hok
    exact hc.push (Option.isSome_iff_ne_none.mp hroot) hs
  | bindVar env name v =>
    rw [step] at hs
    exact hc.change (hframe hok) hs
  | bindLet env bs =>
    rw [step] at hs
    exact hc.change (hframe hok) hs
  | bindSlot env v =>
    rw [step] at hs
    exact hc.change (hframe hok) hs
  | unbindSlot env idx =>
    rw [step] at hs
    exact hc.change (hframe hok) hs
  | storeSlot env idx v =>
    rw [step] at hs
    exact hc.change (hframe hok) hs
  | tailSelf env args =>
    rw [step] at hs
    exact hc.change (hframe hok) hs
  | tailCall env =>
    rw [step] at hs
    exact hc.change (hframe hok) hs
  | define env key v =>
    rw [step] at hs
    exact hc.change (hframe hok) hs
  | updatebang guard isSymbol key env v => cases hok
  | setq key env v => cases hok
  | forget env key => cases hok
  | registerCmd name v => cases hok
  | registerType name => cases hok
  | pushHandler env =>
    obtain ⟨e, he, rfl⟩ := Option.map_eq_some_iff.mp hs
    refine hc.of_heap_eq rfl fun e' he' => ?_
    rcases List.mem_cons.mp he' with rfl | he'
    · exact Heap.not_isRoot he (hframe hok)
    · exact hc.saved e' he'
  | handlerEnv k stale =>
    obtain ⟨saved, hk, hpush⟩ := Option.bind_eq_some_iff.mp hs
    exact hc.push (hc.saved saved (List.mem_of_getElem? hk)) hpush
  | popHandler =>
    obtain rfl := Option.some.inj hs
    exact hc.of_heap_eq rfl fun e he => hc.saved e (List.mem_of_mem_tail he)
  | readSymbol text =>
    obtain rfl := Option.some.inj hs
    exact hc.of_heap_eq rfl hc.saved
  | lookup s env =>
    obtain ⟨sym, -, rfl⟩ := Option.map_eq_some_iff.mp hs
    exact hc.of_heap_eq rfl hc.saved
  | lookupScoped s env =>
    obtain ⟨sym, -, rfl⟩ := Option.map_eq_some_iff.mp hs
    exact hc.of_heap_eq rfl hc.saved

/-! ## What forms do -/

/-- The tail of the defining forms writes an entry of `env`, or nothing. -/
theorem bindBuilt_cases {env : ℕ} {name : CStr} {built : Except (List UInt8) V}
    (h : bindBuilt w env name built = .ok w') :
    built.toBool = true ∧ ∃ key v, w' = w.define env key v := by
  cases built with
  | error text => cases h
  | ok v => exact ⟨rfl, w.nsQualify name env, v, (Except.ok.inj h).symm⟩

/-- What `=` does to the heap. -/
theorem assignName_cases {guard isSymbol : Bool} {env : ℕ} {key : CStr} {v : V}
    (h : assignName guard isSymbol w env key v = .ok w') :
    ∃ heap, assignStoreSymbol w.names.heap guard key env v = .ok heap ∧
      w' = { w with names := { w.names with heap := heap } } := by
  rw [assignName, updatebang] at h
  split at h
  · cases h
  · rename_i names hu
    split at hu
    · cases hu
    · cases ha : assignStoreSymbol w.names.heap guard key env v with
      | error err =>
        rw [ha] at hu
        cases hu
      | ok heap =>
        rw [ha] at hu
        obtain rfl := Except.ok.inj hu
        exact ⟨heap, rfl, (Except.ok.inj h).symm⟩

theorem Calls.define (hc : Calls w.names) (env : ℕ) (key : CStr) (v : V) :
    Calls (w.define env key v).names := hc.of_slots (Heap.sameSlots_define _ env key v)

theorem Calls.bindBuilt (hc : Calls w.names) {env : ℕ} {name : CStr}
    {built : Except (List UInt8) V} (h : Binding.bindBuilt w env name built = .ok w') :
    Calls w'.names := by
  obtain ⟨-, key, v, rfl⟩ := bindBuilt_cases h
  exact hc.define env key v

theorem Calls.assignName (hc : Calls w.names) {guard isSymbol : Bool} {env : ℕ} {key : CStr} {v : V}
    (h : Binding.assignName guard isSymbol w env key v = .ok w') : Calls w'.names := by
  obtain ⟨heap, ha, rfl⟩ := assignName_cases h
  rcases Heap.assignStoreSymbol_cases ha with ⟨found, -, rfl⟩ | ⟨-, rfl⟩
  · exact hc.of_slots (Heap.sameSlots_write _ key v found)
  · exact hc.of_slots (Heap.sameSlots_define _ env key v)

/-- **A form, under the guard or not, binds no slot.** -/
theorem Calls.evalForm (hc : Calls w.names) {guard : Bool} {env : ℕ} {f : Form V}
    (h : Binding.evalForm guard w env f = .ok w') : Calls w'.names := by
  cases f with
  | defcmd name built =>
    rw [Binding.evalForm, defcmd] at h
    split at h
    · cases h
    · exact hc.bindBuilt h
  | defncmd name built =>
    rw [Binding.evalForm, defncmd] at h
    split at h
    · cases h
    · exact hc.bindBuilt h
  | defccmd name built =>
    rw [Binding.evalForm, defcmd] at h
    split at h
    · cases h
    · exact hc.bindBuilt h
  | defmacrocmd name built =>
    rw [Binding.evalForm, defcmd] at h
    split at h
    · cases h
    · exact hc.bindBuilt h
  | assign isSymbol key v => exact hc.assignName h
  | assignPlace =>
    obtain rfl := Except.ok.inj h
    exact hc
  | storeFree key v => exact hc.assignName h
  | setq key v =>
    rw [Binding.evalForm, setqcmd] at h
    split at h
    · cases h
    · obtain rfl := Except.ok.inj h
      refine hc.of_slots ?_
      rw [setqStoreSymbol]
      split
      · exact Heap.sameSlots_write _ _ _ _
      · exact Heap.sameSlots_define _ _ _ _
  | persist key now =>
    rw [Binding.evalForm] at h
    split at h
    · cases h
    · obtain rfl := Except.ok.inj h
      rw [World.mark]
      split <;> exact hc
  | unpersist key =>
    rw [Binding.evalForm] at h
    split at h
    · cases h
    · obtain rfl := Except.ok.inj h
      rw [World.mark]
      split <;> exact hc
  | forget key =>
    rw [Binding.evalForm, forgetcmd] at h
    split at h
    · cases h
    · obtain rfl := Except.ok.inj h
      exact hc.of_slots (Heap.sameSlots_forget _ _ key)
  | ns name =>
    rw [Binding.evalForm] at h
    split at h
    · cases h
    · obtain rfl := Except.ok.inj h
      exact hc
  | require refers =>
    rw [Binding.evalForm] at h
    split at h
    · cases h
    · obtain rfl := Except.ok.inj h
      clear h
      induction refers generalizing w with
      | nil => exact hc
      | cons kv rest ih => exact ih (hc.define 0 kv.1 kv.2)

/-! ## What is refused under the guard -/

theorem sameGlobals_of_heap {heap : Heap V} (h : w.names.heap.SameGlobals heap) :
    SameGlobals w { w with names := { w.names with heap := heap } } := ⟨h, rfl, rfl⟩

theorem bindBuilt_sameGlobals {env : ℕ} {name : CStr} {built : Except (List UInt8) V}
    (henv : w.names.heap.isRoot env = false) (h : bindBuilt w env name built = .ok w') :
    SameGlobals w w' := by
  obtain ⟨-, key, v, rfl⟩ := bindBuilt_cases h
  exact sameGlobals_of_heap (Heap.sameGlobals_modify henv)

/-- **Under the guard `=` writes to a frame or is refused.** -/
theorem assignName_sameGlobals (hc : Calls w.names) {isSymbol : Bool} {env : ℕ} {key : CStr} {v : V}
    (h : assignName true isSymbol w env key v = .ok w') : SameGlobals w w' := by
  obtain ⟨heap, ha, rfl⟩ := assignName_cases h
  refine sameGlobals_of_heap ?_
  rw [assignStoreSymbol] at ha
  split at ha
  · rename_i i j hw
    obtain rfl := Except.ok.inj ha
    exact Heap.sameGlobals_modify (hc.slot_not_root hw)
  · rename_i i hw
    split at ha
    · cases ha
    · rename_i hi
      obtain rfl := Except.ok.inj ha
      exact Heap.sameGlobals_modify (by simpa using hi)
  · split at ha
    · cases ha
    · rename_i henv
      obtain rfl := Except.ok.inj ha
      exact Heap.sameGlobals_modify (by simpa using henv)

/-- **A form that meets the condition changes nothing global.** -/
theorem evalForm_sameGlobals (hc : Calls w.names) {guard : Bool} {env : ℕ} {f : Form V}
    (hk : keepsGlobals w (.form guard env f) = true) (h : evalForm guard w env f = .ok w') :
    SameGlobals w w' := by
  rw [keepsGlobals, Bool.and_eq_true] at hk
  obtain ⟨rfl, hk⟩ := hk
  cases f with
  | defcmd name built => cases h
  | defccmd name built => cases h
  | defmacrocmd name built => cases h
  | persist key now => cases h
  | unpersist key => cases h
  | forget key => cases h
  | ns name => cases h
  | require refers => cases h
  | assign isSymbol key v => exact assignName_sameGlobals hc h
  | storeFree key v => exact assignName_sameGlobals hc h
  | assignPlace =>
    obtain rfl := Except.ok.inj h
    exact ⟨Heap.SameGlobals.refl _, rfl, rfl⟩
  | defncmd name built =>
    rw [evalForm, defncmd] at h
    split at h
    · cases h
    · rename_i hname
      refine bindBuilt_sameGlobals ?_ h
      simpa [staysLocal, hname, (bindBuilt_cases h).1] using hk
  | setq key v =>
    rw [evalForm, setqcmd] at h
    split at h
    · cases h
    · rename_i hname
      obtain rfl := Except.ok.inj h
      refine sameGlobals_of_heap ?_
      rw [setqStoreSymbol]
      cases hw : w.names.heap.walk scanUp (some env) key with
      | none => simp [staysLocal, hname, hw] at hk
      | some found =>
        refine Heap.sameGlobals_modify ?_
        simpa [staysLocal, hname, hw] using hk

/-! ## Runs -/

/-- **A step keeps the invariant**, under the guard or not. -/
theorem Calls.evalStep {l : Eval V} (hc : Calls w.names) (hs : Binding.evalStep w l = some w') :
    Calls w'.names := by
  cases l with
  | form guard env f =>
    rw [Binding.evalStep] at hs
    split at hs
    · obtain rfl := Option.some.inj hs
      split
      · rename_i w₁ h
        exact hc.evalForm h
      · exact hc
    · cases hs
  | frame s =>
    rw [Binding.evalStep] at hs
    split at hs
    · rename_i hok
      obtain ⟨names, hn, rfl⟩ := Option.map_eq_some_iff.mp hs
      exact (hc.ofCall hok hn).1
    · cases hs

/-- **A step that meets the condition changes nothing global.** -/
theorem evalStep_sameGlobals {l : Eval V} (hc : Calls w.names) (hk : keepsGlobals w l = true)
    (hs : evalStep w l = some w') : SameGlobals w w' := by
  cases l with
  | form guard env f =>
    rw [evalStep] at hs
    split at hs
    · obtain rfl := Option.some.inj hs
      split
      · rename_i w₁ h
        exact evalForm_sameGlobals hc hk h
      · exact ⟨Heap.SameGlobals.refl _, rfl, rfl⟩
    · cases hs
  | frame s =>
    rw [evalStep] at hs
    split at hs
    · rename_i hok
      obtain ⟨names, hn, rfl⟩ := Option.map_eq_some_iff.mp hs
      exact ⟨(hc.ofCall hok hn).2, rfl, rfl⟩
    · cases hs

theorem SameGlobals.trans {w₀ w₁ w₂ : World V} (h : SameGlobals w₀ w₁) (h' : SameGlobals w₁ w₂) :
    SameGlobals w₀ w₂ :=
  ⟨h.envs.trans h'.envs, h'.marks.trans h.marks, h'.ns.trans h.ns⟩

/-- **Whatever ran before, a run whose steps meet the condition changes nothing global.** -/
theorem callback_keeps_globals {stale : Stale V} {reserved : Scope V} {before during : List (Eval V)}
    {w₀ w₁ : World V} (hbefore : Path evalStep anyStep (World.init stale reserved) before w₀)
    (hduring : Path evalStep (fun w l => keepsGlobals w l = true) w₀ during w₁) :
    SameGlobals w₀ w₁ := by
  have hc₀ : Calls w₀.names :=
    hbefore.invariant (I := fun w => Calls w.names) (fun _ _ _ hc _ hs => hc.evalStep hs)
      (Calls.init stale reserved)
  have hrun : Calls w₁.names ∧ SameGlobals w₀ w₁ :=
    hduring.invariant (I := fun w => Calls w.names ∧ SameGlobals w₀ w)
      (fun _ _ _ hI hk hs =>
        ⟨hI.1.evalStep hs, hI.2.trans (evalStep_sameGlobals hI.1 hk hs)⟩)
      ⟨hc₀, Heap.SameGlobals.refl _, rfl, rfl⟩
  exact hrun.2

end Steps

/-! ## A callback that assigns to a global name -/

/-- `n` -/
def nameN : CStr := CStr.ofBytes [110]

/-- `a` -/
def nameA : CStr := CStr.ofBytes [97]

/-- Arrays that hold nothing. -/
def blank : Stale ℕ := ⟨fun _ => none, fun _ => none⟩

/-- `(= n 1)` at the top level, and the frame of a callback with the parameter `a`. -/
def startCallback : List (Eval ℕ) :=
  [.form false 0 (.assign true nameN 1), .frame (.makeEnv (some 0) blank),
    .frame (.bindVar 1 nameA 5)]

/-- **`setq` in a callback writes the global environment**, where `=` is refused. -/
theorem setq_writes_global :
    ∃ w₀ w₁, run evalStep (World.init blank Scope.create) startCallback = some w₀ ∧
      run evalStep w₀ [.form true 1 (.setq nameN 2)] = some w₁ ∧
      evalForm true w₀ 1 (.assign true nameN 2) = .error (.assign .readOnlyCallback) ∧
      ((w₁.names.heap.envs[0]?).bind fun e => e.entry nameN) = some 2 ∧ ¬ SameGlobals w₀ w₁ := by
  refine ⟨_, _, rfl, rfl, rfl, by decide, fun h => ?_⟩
  have hglobal := h.envs 0 _ rfl rfl
  have hentry := congrArg (fun e : Option (Env ℕ) => e.bind fun e => e.entry nameN) hglobal
  revert hentry
  decide

/-- A callback that assigns to its parameter with `setq`, defines a function with `defn` and is
refused an assignment to `n`. -/
theorem callback_keeps_globals_local :
    ∃ w₀ w₁, run evalStep (World.init blank Scope.create) startCallback = some w₀ ∧
      run evalStep w₀ [.form true 1 (.setq nameA 6),
        .form true 1 (.defncmd (CStr.ofBytes [102]) (.ok 7)),
        .form true 1 (.assign true nameN 2)] = some w₁ ∧ SameGlobals w₀ w₁ := by
  obtain ⟨w₀, h₀⟩ : ∃ w₀, run evalStep (World.init blank Scope.create) startCallback = some w₀ :=
    ⟨_, rfl⟩
  obtain ⟨w₁, h₁⟩ : ∃ w₁, run (guarded evalStep keepsGlobals) w₀
      [.form true 1 (.setq nameA 6),
        .form true 1 (.defncmd (CStr.ofBytes [102]) (.ok 7)),
        .form true 1 (.assign true nameN 2)] = some w₁ := by
    obtain rfl := Option.some.inj h₀
    exact Option.isSome_iff_exists.mp (by decide)
  have hpath := path_of_run_guarded h₁
  exact ⟨w₀, w₁, h₀, hpath.run, callback_keeps_globals (path_of_run h₀) hpath⟩

end Alcove.Binding
