import Alcove.Binding.FrameReuse

/-!
# A call in tail position

`OP_CALL` goes through `vm_invoke_values`: a new environment whose `root` is the one that the callee
captured. `OP_TAIL_CALL` does the same for a callee that is not compiled, or that captured an
environment other than the global one. For the others it empties the caller's frame, binds the
arguments in it, and runs the callee's code there: the `root` of that frame is the environment that
the *caller* captured.

**Main result:** `opTailCall_same_iff`. Whatever the callee's code does, and whatever the caches hold,
the two calls return the same and leave the other environments alike if and only if the frame is not
reused, or no closure captured it and each free name of the callee has the same binder from the
caller's `root` as from the callee's.
-/

namespace Alcove.Binding

variable {V : Type}

/-! ## Callees -/

/-- A compiled lambda: `next->meta`, the parameters, `meta`, and the free names of its code. The
compiler refuses more parameters than there are inline slots. -/
structure Lambda where
  captured : Option ℕ
  params : List CStr
  name : Option CStr
  free : List CStr
  few : params.length ≤ envInlineSlots
  free_params : ∀ key ∈ free, key ∉ params

/-- Why a call fails before the callee runs. -/
inductive CallError where
  | arity (few : Bool) (name : Option CStr)
  | noClause (nargs : ℕ)

/-- The text of the error. -/
def CallError.message : CallError → List UInt8
  | .arity few name => "too ".toUTF8.toList ++ (if few then "few" else "many").toUTF8.toList ++
      " arguments to ".toUTF8.toList ++ (name.map CStr.bytes).getD "function".toUTF8.toList
  | .noClause n => "no matching clause for ".toUTF8.toList ++ (toString n).toUTF8.toList ++
      " argument(s)".toUTF8.toList

/-- What a call returns; `stuck` where the code does what no code can. -/
inductive Outcome (V : Type) where
  | value (v : Option V)
  | error (e : CallError)
  | stuck

/-- A callee: a compiled lambda, or another one, for which `vm_invoke_values` does something from the
environment of the call. -/
inductive Target (V : Type) where
  | compiled (f : Lambda)
  | other (invoke : List V → ℕ → Vm V → Outcome V × Vm V)

/-- A clause of a `defn`. -/
structure Clause (V : Type) where
  fixed : ℕ
  variadic : Bool
  target : Target V

/-- `FLAG_MULTI` and the clauses, or a callee of one arity. -/
inductive Callee (V : Type) where
  | single (t : Target V)
  | multi (clauses : List (Clause V))

/-- `multi_pick` -/
def multiPick (clauses : List (Clause V)) (n : ℕ) : Option (Target V) :=
  (clauses.find? fun c => if c.variadic then c.fixed ≤ n else n = c.fixed).map Clause.target

/-- The callee for this number of arguments. -/
def Callee.pick (n : ℕ) : Callee V → Option (Target V)
  | .single t => some t
  | .multi clauses => multiPick clauses n

/-! ## The two calls -/

/-- The arguments are bound one by one. -/
def Frame.bindParams (e : Frame V) (params : List CStr) (args : List V) : Frame V :=
  (params.zip args).foldl (fun e b => e.bindVar b.1 b.2) e

/-- `vm_run` of a lambda with this code, where closures captured the environments `held`. -/
def vmRun (held : List ℕ) (code : Code V) (f : Lambda) (env : ℕ) (p : Vm V) : Outcome V × Vm V :=
  match code.exec ⟨env, p.heap.envs.length, f.free, held⟩ ⟨p, []⟩ with
  | some (v, p) => (.value v, p)
  | none => (.stuck, p)

section Calls

variable (held : List ℕ) (stale : Stale V) (code : Code V) (args : List V) (env : ℕ) (p : Vm V)

/-- `if (n != bc->nparams)` -/
def arityError (f : Lambda) : Outcome V :=
  .error (.arity (args.length < f.params.length) f.name)

/-- `bind_lambda` in `vm_invoke_values`: `make_env(captured ? captured : env)` -/
def bindLambda (f : Lambda) : Outcome V × Vm V :=
  if args.length ≠ f.params.length then (arityError args f, p)
  else
    let newenv : Env V := ⟨(Frame.fresh stale).bindParams f.params args, some (f.captured.getD env)⟩
    if hr : ∀ r ∈ newenv.root, r < p.heap.envs.length then
      vmRun held code f p.heap.envs.length { p with heap := p.heap.push newenv hr }
    else (.stuck, p)

/-- `vm_invoke_values` of a callee of one arity -/
def invokeTarget : Target V → Outcome V × Vm V
  | .compiled f => bindLambda held stale code args env p f
  | .other invoke => invoke args env p

/-- `vm_invoke_values`, where the code is that of the lambda that is picked -/
def vmInvokeValues (callee : Callee V) : Outcome V × Vm V :=
  match callee.pick args.length with
  | some t => invokeTarget held stale code args env p t
  | none => (.error (.noClause args.length), p)

/-- `OP_CALL` -/
def opCall (callee : Callee V) : Outcome V × Vm V :=
  vmInvokeValues held stale code args env p callee

/-- `OP_TAIL_CALL`, where `global` is `g_global_env` -/
def opTailCall (global : ℕ) (callee : Callee V) : Outcome V × Vm V :=
  match callee.pick args.length with
  | none => vmInvokeValues held stale code args env p callee
  | some (.other invoke) => invokeTarget held stale code args env p (.other invoke)
  | some (.compiled f) =>
    if ∃ c ∈ f.captured, c ≠ global then invokeTarget held stale code args env p (.compiled f)
    else if args.length ≠ f.params.length then (arityError args f, p)
    else
      let heap := p.heap.modify env fun e => e.release.bindParams f.params args
      vmRun held code f env { p with heap := heap }

end Calls

/-! ## When the two calls are the same -/

/-- The lambda for which `OP_TAIL_CALL` reuses the caller's frame. -/
def reused (global nargs : ℕ) (callee : Callee V) : Option Lambda :=
  match callee.pick nargs with
  | some (.compiled f) =>
    if (∃ c ∈ f.captured, c ≠ global) ∨ nargs ≠ f.params.length then none else some f
  | _ => none

/-- The same result and the same state, but for the caller's frame and environments made since. -/
structure SameEffect (env count : ℕ) (o o' : Outcome V × Vm V) : Prop where
  outcome : o.1 = o'.1
  vm : o'.2 = { o.2 with heap := o'.2.heap }
  envs : ∀ i < count, i ≠ env → o.2.heap.envs[i]? = o'.2.heap.envs[i]?

/-- A call in the frame `env` of a closure that captured `root`: there is one global environment, and
the environments that closures captured are there, with their roots. -/
structure CallState (p : Vm V) (env root global : ℕ) (held : List ℕ) : Prop where
  frame : ∃ e, p.heap.envs[env]? = some e ∧ e.root = some root
  global_root : ∃ e, p.heap.envs[global]? = some e ∧ e.root = none
  single : p.heap.SingleRoot global
  held_old : ∀ i ∈ held, i < p.heap.envs.length
  held_root : ∀ i ∈ held, ∀ e r, p.heap.envs[i]? = some e → e.root = some r → r ∈ held

/-! ## Frames of arguments -/

namespace Frame

variable {e e' : Frame V} {key : CStr}

theorem Alike.bindParams (h : e.Alike e') (params : List CStr) (args : List V) :
    (e.bindParams params args).Alike (e'.bindParams params args) := by
  rw [Frame.bindParams, Frame.bindParams]
  induction params.zip args generalizing e e' with
  | nil => exact h
  | cons b rest ih => exact ih (h.bindVar b.1 b.2)

theorem alike_release_fresh (e : Frame V) (stale : Stale V) : e.release.Alike (fresh stale) :=
  ⟨rfl, fun i hi => absurd hi (Nat.not_lt_zero i), fun i hi => absurd hi (Nat.not_lt_zero i), rfl⟩

theorem binds_iff : e.binds key = true ↔ key ∈ e.names ∨ (e.entry key).isSome = true := by
  rw [binds, isSome_find, Bool.or_eq_true, scanUp_isSome]

theorem entry_define {name : CStr} {v : V} (hne : key ≠ name) :
    (e.define name v).entry key = e.entry key := by
  show ((e.d.getD Scope.create).set name v).find key = _
  rw [Scope.find_set, if_neg hne, entry]
  cases e.d with
  | none => rfl
  | some d => rfl

theorem binds_bindVar {name : CStr} {v : V} (hne : key ≠ name) :
    (e.bindVar name v).binds key = true → e.binds key = true := by
  rw [binds_iff, binds_iff, bindVar]
  split
  · rintro (hmem | hentry)
    · obtain ⟨i, hi, hk⟩ := mem_names.mp hmem
      dsimp only at hi hk
      rw [Function.update_apply] at hk
      split at hk
      · exact absurd (Option.some.inj hk).symm hne
      · exact .inl (mem_names.mpr ⟨i, by omega, hk⟩)
    · exact .inr hentry
  · rintro (hmem | hentry)
    · exact .inl hmem
    · rw [entry_define hne] at hentry
      exact .inr hentry

/-- A frame of arguments binds the parameters only. -/
theorem binds_bindParams {params : List CStr} {args : List V} (hkey : key ∉ params) :
    (e.bindParams params args).binds key = true → e.binds key = true := by
  have hnames : ∀ b ∈ params.zip args, key ≠ b.1 := by
    rintro ⟨name, v⟩ hb rfl
    exact hkey (List.of_mem_zip hb).1
  rw [bindParams]
  revert hnames
  induction params.zip args generalizing e with
  | nil => exact fun _ => id
  | cons b rest ih =>
    intro hnames hbinds
    exact binds_bindVar (hnames b (List.mem_cons_self))
      (ih (fun c hc => hnames c (List.mem_cons_of_mem b hc)) hbinds)

theorem not_binds_fresh (stale : Stale V) : (fresh stale).binds key = false := by
  rw [Bool.eq_false_iff, ne_eq, binds_iff]
  rintro (hmem | hentry)
  · obtain ⟨i, hi, -⟩ := mem_names.mp hmem
    exact Nat.not_lt_zero i hi
  · cases hentry

end Frame

/-! ## The two frames -/

section Reuse

variable {p : Vm V} {env root global : ℕ} {held : List ℕ} {f : Lambda} {callee : Callee V}
  {args : List V} {stale : Stale V} {code : Code V}

/-- The numbers of the call of `f`. -/
def Lambda.site (f : Lambda) (p : Vm V) (env root global : ℕ) (held : List ℕ) : Site :=
  ⟨env, p.heap.envs.length, root, f.captured.getD env, global, f.free, held⟩

/-- The heap once the caller's frame has the arguments. -/
def tailHeap (h : Heap V) (env : ℕ) (f : Lambda) (args : List V) : Heap V :=
  h.modify env fun e => e.release.bindParams f.params args

/-- The environment that `OP_CALL` makes. -/
def newEnv (env : ℕ) (f : Lambda) (args : List V) (stale : Stale V) : Env V :=
  ⟨(Frame.fresh stale).bindParams f.params args, some (f.captured.getD env)⟩

theorem CallState.env_lt (h : CallState p env root global held) : env < p.heap.envs.length := by
  obtain ⟨e, he, -⟩ := h.frame
  exact (List.getElem?_eq_some_iff.mp he).1

theorem CallState.global_lt (h : CallState p env root global held) :
    global < p.heap.envs.length := by
  obtain ⟨e, he, -⟩ := h.global_root
  exact (List.getElem?_eq_some_iff.mp he).1

theorem CallState.root_lt (h : CallState p env root global held) : root < env := by
  obtain ⟨e, he, hr⟩ := h.frame
  exact p.heap.rooted env e root he hr

theorem CallState.global_ne (h : CallState p env root global held) : global ≠ env := by
  rintro rfl
  obtain ⟨e, he, hr⟩ := h.frame
  obtain ⟨e', he', hr'⟩ := h.global_root
  obtain rfl : e = e' := Option.some.inj (he.symm.trans he')
  rw [hr] at hr'
  cases hr'

/-- What is known of a lambda for which the frame is reused. -/
theorem reused_eq (hf : reused global args.length callee = some f) :
    callee.pick args.length = some (.compiled f) ∧ (¬ ∃ c ∈ f.captured, c ≠ global) ∧
      args.length = f.params.length := by
  rw [reused] at hf
  split at hf
  · rename_i g hpick
    split at hf
    · cases hf
    · rename_i hno
      obtain rfl := Option.some.inj hf
      rw [not_or, not_not] at hno
      exact ⟨hpick, hno.1, hno.2⟩
  · cases hf

theorem captured_lt (h : CallState p env root global held)
    (hf : reused global args.length callee = some f) :
    f.captured.getD env < p.heap.envs.length := by
  obtain ⟨-, hno, -⟩ := reused_eq hf
  cases hc : f.captured with
  | none => exact h.env_lt
  | some c =>
    have hglobal : c = global := by
      by_contra hne
      exact hno ⟨c, hc, hne⟩
    rw [Option.getD_some, hglobal]
    exact h.global_lt

theorem newEnv_lt (h : CallState p env root global held)
    (hf : reused global args.length callee = some f) :
    ∀ r ∈ (newEnv env f args stale).root, r < p.heap.envs.length := by
  rintro r ⟨⟩
  exact captured_lt h hf

theorem opTailCall_reused (hf : reused global args.length callee = some f) :
    opTailCall held stale code args env p global callee =
      vmRun held code f env { p with heap := tailHeap p.heap env f args } := by
  obtain ⟨hpick, hno, hargs⟩ := reused_eq hf
  rw [opTailCall, hpick]
  dsimp only
  rw [if_neg hno, if_neg (not_not.mpr hargs)]
  rfl

theorem opCall_reused (h : CallState p env root global held)
    (hf : reused global args.length callee = some f) :
    opCall held stale code args env p callee = vmRun held code f p.heap.envs.length
      { p with heap := p.heap.push (newEnv env f args stale) (newEnv_lt h hf) } := by
  obtain ⟨hpick, -, hargs⟩ := reused_eq hf
  rw [opCall, vmInvokeValues, hpick]
  dsimp only
  rw [invokeTarget, bindLambda, if_neg (not_not.mpr hargs)]
  exact dif_pos (newEnv_lt h hf)

/-- Where the frame is not reused, the calls are one call. -/
theorem opTailCall_not_reused (hf : reused global args.length callee = none) :
    opTailCall held stale code args env p global callee =
      opCall held stale code args env p callee := by
  rw [opTailCall, opCall, vmInvokeValues]
  rw [reused] at hf
  cases hpick : callee.pick args.length with
  | none => rfl
  | some t =>
    cases t with
    | other invoke => rfl
    | compiled f =>
      rw [hpick] at hf
      dsimp only at hf ⊢
      by_cases hlocal : ∃ c ∈ f.captured, c ≠ global
      · rw [if_pos hlocal]
      · rw [if_neg hlocal]
        have hargs : args.length ≠ f.params.length := by
          intro hargs
          rw [if_neg (by rw [not_or, not_not]; exact ⟨hlocal, hargs⟩)] at hf
          cases hf
        rw [if_pos hargs, invokeTarget, bindLambda, if_pos hargs]

/-- **The frames of the two calls are alike.** -/
theorem heapSim (h : CallState p env root global held)
    (hf : reused global args.length callee = some f) (hheld : env ∉ held)
    (hfree : ∀ key ∈ f.free, p.heap.binder (some root) key =
      p.heap.binder (some (f.captured.getD env)) key) :
    HeapSim (f.site p env root global held) [] (tailHeap p.heap env f args)
      (p.heap.push (newEnv env f args stale) (newEnv_lt h hf)) where
  env_lt := h.env_lt
  count := by rw [tailHeap, Heap.modify, List.length_modify]; rfl
  count' := by rw [Heap.push, List.length_append]; rfl
  old := by
    intro i hi hne
    rw [tailHeap, Heap.getElem?_modify, Heap.push, List.getElem?_append_left hi]
    cases p.heap.envs[i]? with
    | none => rfl
    | some e =>
      have hne' : env ≠ i := Ne.symm hne
      rw [Option.map_some, if_neg hne']
  frame := by
    obtain ⟨e, he, hr⟩ := h.frame
    refine ⟨{ e with toFrame := e.release.bindParams f.params args }, newEnv env f args stale,
      ?_, ?_, (e.alike_release_fresh stale).bindParams f.params args, hr, rfl⟩
    · show (tailHeap p.heap env f args).envs[env]? = _
      rw [tailHeap, Heap.getElem?_modify, he, Option.map_some, if_pos rfl]
    · exact List.getElem?_concat_length
  made := by
    intro k b hk
    cases hk
  held_old := by
    intro i hi
    refine ⟨h.held_old i hi, ?_⟩
    rintro rfl
    exact hheld hi
  held_root := by
    intro i hi e r he hr
    rw [tailHeap, Heap.getElem?_modify, Option.map_eq_some_iff] at he
    obtain ⟨old, hold, rfl⟩ := he
    refine h.held_root i hi old r hold ?_
    split at hr <;> exact hr
  global_old := ⟨h.global_lt, h.global_ne⟩
  global_root := by
    obtain ⟨e, he, hr⟩ := h.global_root
    refine ⟨e, ?_, hr⟩
    show (tailHeap p.heap env f args).envs[global]? = _
    rw [tailHeap, Heap.getElem?_modify, he, Option.map_some, if_neg (Ne.symm h.global_ne)]
  single := h.single.modify
  single' := h.single.push (Option.some_ne_none _)
  agree := by
    intro key hkey
    show (tailHeap p.heap env f args).binder (some root) key =
      (p.heap.push (newEnv env f args stale) _).binder (some (f.captured.getD env)) key
    rw [tailHeap, Heap.binder_modify_of_lt h.root_lt, Heap.binder_push (captured_lt h hf),
      hfree key hkey]

theorem SameEffect.refl {count : ℕ} (o : Outcome V × Vm V) : SameEffect env count o o :=
  ⟨rfl, rfl, fun _ _ _ => rfl⟩

/-- **Code does the same in both frames.** -/
theorem vmRun_same (h : CallState p env root global held)
    (hf : reused global args.length callee = some f) (hheld : env ∉ held)
    (hfree : ∀ key ∈ f.free, p.heap.binder (some root) key =
      p.heap.binder (some (f.captured.getD env)) key) :
    SameEffect env p.heap.envs.length (opTailCall held stale code args env p global callee)
      (opCall held stale code args env p callee) := by
  have sim : HeapSim (f.site p env root global held) [] (tailHeap p.heap env f args)
    (p.heap.push (newEnv env f args stale) (newEnv_lt h hf)) := heapSim h hf hheld hfree
  rw [opTailCall_reused hf, opCall_reused h hf, vmRun, vmRun]
  have hcount : (tailHeap p.heap env f args).envs.length = p.heap.envs.length := sim.count
  have hcount' : (p.heap.push (newEnv env f args stale) (newEnv_lt h hf)).envs.length =
      p.heap.envs.length + 1 := sim.count'
  dsimp only
  rw [hcount, hcount']
  obtain ⟨hleft, hright⟩ | ⟨v, vm, inner, h₁, hleft, hright, hsim⟩ :=
    code.exec_sim (s := ⟨{ p with heap := tailHeap p.heap env f args }, []⟩) sim
  · have hleft' : code.exec ⟨env, p.heap.envs.length, f.free, held⟩
      ⟨{ p with heap := tailHeap p.heap env f args }, []⟩ = none := hleft
    have hright' : code.exec ⟨p.heap.envs.length, p.heap.envs.length + 1, f.free, held⟩
      ⟨{ p with heap := p.heap.push (newEnv env f args stale) (newEnv_lt h hf) }, []⟩ = none :=
      hright
    rw [hleft', hright']
    exact ⟨rfl, rfl, sim.old⟩
  · have hleft' : code.exec ⟨env, p.heap.envs.length, f.free, held⟩
      ⟨{ p with heap := tailHeap p.heap env f args }, []⟩ = some (v, vm) := hleft
    have hright' : code.exec ⟨p.heap.envs.length, p.heap.envs.length + 1, f.free, held⟩
      ⟨{ p with heap := p.heap.push (newEnv env f args stale) (newEnv_lt h hf) }, []⟩ =
        some (v, { vm with heap := h₁ }) := hright
    rw [hleft', hright']
    exact ⟨rfl, rfl, hsim.old⟩

/-! ## Code that tells the two frames apart -/

/-- What a frame binds the name to. -/
def View.of (key : CStr) : View V where
  read e := (e.find scanUp key).bind (e.read key)
  alike := by
    intro e e' halike
    rw [← halike.find (halike.scanUp key)]
    cases hp : e.find scanUp key with
    | none => rfl
    | some p =>
      refine halike.read fun i hi => ?_
      subst hi
      exact Frame.lt_of_find (.inl rfl) hp

/-- A new entry in the dict of a frame. -/
def Change.define (key : CStr) (v : V) : Change V :=
  ⟨fun e => e.define key v, fun _ _ halike => halike.define key v⟩

/-- An assignment in the frame, and what the frame then binds the name to. -/
def assignProbe (key : CStr) (v : V) : Code V :=
  .op (.assign false false key .frame v) fun _ => .op (.view .frame (View.of key)) fun r =>
    .ret (r.toOption.bind id)

/-- The name is bound in the frame, and then a closure that captured `env` assigns to it. -/
def captureProbe (env : ℕ) (key : CStr) (v w : V) (stale : Stale V) : Code V :=
  .op (.change .frame (Change.define key v)) fun _ => .op (.make (.held env) stale) fun _ =>
    .op (.assign false false key (.made 0) w) fun _ => .op (.view .frame (View.of key)) fun r =>
      .ret (r.toOption.bind id)

theorem Process.storeFound_heap {p : Process V} {key : CStr} {v : V} (found : ℕ × Place) :
    (p.storeFound false key v found).1.heap = p.heap.write key v found := by
  obtain ⟨i, place⟩ := found
  cases place with
  | slot j => rfl
  | dict => rfl

/-- An assignment to a string stores where the search ends. -/
theorem Process.assign_found {p : Process V} {key : CStr} {i k : ℕ} {v : V} {e : Env V}
    (hb : p.heap.binder (some i) key = some k) (he : p.heap.envs[k]? = some e) :
    ∃ place, e.find scanUp key = some place ∧
      (p.assignStoreSymbol false key i v).1.heap.envs[k]? =
        some { e with toFrame := e.write key v place } := by
  obtain ⟨e', he', hbinds⟩ := Heap.exists_of_binder hb
  obtain rfl : e = e' := Option.some.inj (he.symm.trans he')
  obtain ⟨place, hplace⟩ := Option.isSome_iff_exists.mp hbinds
  have hwalk : p.heap.walk scanUp (some i) key = some (k, place) := by
    rw [Heap.walk_eq_binder fun _ => rfl, hb, Option.bind_some, he, Option.bind_some, hplace]
    rfl
  refine ⟨place, hplace, ?_⟩
  rw [assignStoreSymbol_eq, hwalk]
  dsimp only
  rw [storeFound_heap, Heap.write, Heap.getElem?_modify, he, Option.map_some, if_pos rfl]

theorem Process.assign_none {p : Process V} {key : CStr} {i : ℕ} {v : V}
    (hb : p.heap.binder (some i) key = none) :
    (p.assignStoreSymbol false key i v).1.heap = p.heap.define i key v := by
  have hwalk : p.heap.walk scanUp (some i) key = none := by
    rw [Heap.walk_eq_binder fun _ => rfl, hb]
    rfl
  rw [assignStoreSymbol_eq, hwalk]
  rfl

theorem Process.assign_other {p : Process V} {key : CStr} {i k : ℕ} {v : V}
    (hb : p.heap.binder (some i) key ≠ some k)
    (hi : p.heap.binder (some i) key = none → i ≠ k) :
    (p.assignStoreSymbol false key i v).1.heap.envs[k]? = p.heap.envs[k]? := by
  have hmodify : ∀ (j : ℕ) (f : Frame V → Frame V), j ≠ k →
      (p.heap.modify j f).envs[k]? = p.heap.envs[k]? := by
    intro j f hjk
    rw [Heap.getElem?_modify]
    cases p.heap.envs[k]? with
    | none => rfl
    | some e => rw [Option.map_some, if_neg hjk]
  have hwalk : p.heap.walk scanUp (some i) key = (p.heap.binder (some i) key).bind fun k =>
      (p.heap.envs[k]?).bind fun e => (e.find scanUp key).map fun place => (k, place) :=
    Heap.walk_eq_binder fun _ => rfl
  rw [assignStoreSymbol_eq]
  cases hfound : p.heap.binder (some i) key with
  | none =>
    rw [hwalk, hfound]
    exact hmodify i _ (hi hfound)
  | some j =>
    have hjk : j ≠ k := by
      rintro rfl
      exact hb hfound
    obtain ⟨e, he, hbinds⟩ := Heap.exists_of_binder hfound
    obtain ⟨place, hplace⟩ := Option.isSome_iff_exists.mp hbinds
    rw [hwalk, hfound, Option.bind_some, he, Option.bind_some, hplace, Option.map_some]
    dsimp only
    rw [storeFound_heap]
    exact hmodify j _ hjk

/-- A binding that was assigned to is read back. -/
theorem Frame.read_write {e : Frame V} {key : CStr} {v : V} {place : Place}
    (hplace : e.find scanUp key = some place) :
    (View.of key).read (e.write key v place) = some v := by
  cases place with
  | slot i =>
    have hfind : (e.write key v (.slot i)).find scanUp key = some (.slot i) := hplace
    show ((e.write key v (.slot i)).find scanUp key).bind _ = some v
    rw [hfind]
    exact Function.update_self i (some v) e.inlineVals
  | dict =>
    have hscan : scanUp e key = none := by
      rw [find] at hplace
      split at hplace
      · cases hplace
      · assumption
    have hentry : (e.entry key).isSome := by
      rw [find, hscan] at hplace
      dsimp only at hplace
      split at hplace
      · assumption
      · cases hplace
    obtain ⟨d, hd⟩ : ∃ d, e.d = some d := by
      cases hd : e.d with
      | none => rw [entry, hd] at hentry; cases hentry
      | some d => exact ⟨d, rfl⟩
    have hnew : (e.write key v .dict).entry key = some v := by
      rw [entry, write, hd]
      show (d.assign key v).find key = some v
      rw [Scope.find_assign, if_pos rfl]
    have hfind : (e.write key v .dict).find scanUp key = some .dict := by
      have hscan' : scanUp (e.write key v .dict) key = none := hscan
      rw [find, hscan', hnew]
      rfl
    show ((e.write key v .dict).find scanUp key).bind _ = some v
    rw [hfind]
    exact hnew

theorem Frame.read_of_not_binds {e : Frame V} {key : CStr} (h : e.binds key = false) :
    (View.of key).read e = none := by
  have hnone : e.find scanUp key = none :=
    Option.not_isSome_iff_eq_none.mp (by rw [← binds, h]; exact Bool.false_ne_true)
  show (e.find scanUp key).bind _ = none
  rw [hnone]
  rfl

theorem Frame.read_define {e : Frame V} {key : CStr} {v : V} (h : e.binds key = false) :
    (View.of key).read (e.define key v) = some v := by
  have hentry : (e.define key v).entry key = some v := by
    show ((e.d.getD Scope.create).set key v).find key = some v
    rw [Scope.find_set, if_pos rfl]
  have hscan : scanUp (e.define key v) key = none := by
    have hold : key ∉ e.names := by
      intro hmem
      rw [binds_iff.mpr (.inl hmem)] at h
      cases h
    exact scanUp_eq_none.mpr hold
  show ((e.define key v).find scanUp key).bind ((e.define key v).read key) = some v
  rw [find, hscan]
  dsimp only
  rw [hentry]
  exact hentry

/-- What the code sees in its frame when it returns. -/
def seen (h : Heap V) (frame : ℕ) (key : CStr) : Option V :=
  (h.envs[frame]?).bind fun e => (View.of key).read e.toFrame

theorem assignProbe_exec {a : Activation} {key : CStr} {v : V} (hkey : key ∈ a.free) :
    ∃ vm, (assignProbe key v).exec a ⟨p, []⟩ = some (seen vm.heap a.frame key, vm) ∧
      vm.heap = (p.toProcess.assignStoreSymbol false key a.frame v).1.heap := by
  refine ⟨{ p with toProcess := (p.toProcess.assignStoreSymbol false key a.frame v).1 }, ?_, rfl⟩
  have hsees : a.sees ⟨p, []⟩ (a.frame, true) key = true := by
    simp [Activation.sees, hkey]
  simp only [assignProbe, Code.exec, Op.exec, Activation.runsIn, Activation.refer, Option.bind_some,
    hsees, if_true, Bool.false_and, Bool.false_eq_true, if_false, Option.map_some]
  rfl

theorem captureProbe_exec {a : Activation} {key : CStr} {v w : V}
    (hheld : env ∈ a.held) (henv : env < p.heap.envs.length) :
    ∃ vm q : Vm V, (captureProbe env key v w stale).exec a ⟨p, []⟩ =
        some (seen vm.heap a.frame key, vm) ∧
      vm.heap = (q.toProcess.assignStoreSymbol false key a.first w).1.heap ∧
      q.heap.envs = (p.heap.modify a.frame fun e => e.define key v).envs ++
        [⟨Frame.fresh stale, some env⟩] := by
  have hr : ∀ r ∈ some env, r < (p.heap.modify a.frame fun e => e.define key v).envs.length := by
    rintro r ⟨⟩
    rw [Heap.modify, List.length_modify]
    exact henv
  let h : Heap V := (p.heap.modify a.frame fun e => e.define key v).push ⟨Frame.fresh stale, some env⟩ hr
  let q : Vm V := { p with heap := h }
  refine ⟨{ q with toProcess := (q.toProcess.assignStoreSymbol false key a.first w).1 }, q, ?_, rfl,
    rfl⟩
  have hpush : Run.push ⟨{ p with heap := p.heap.modify a.frame fun e => e.define key v }, []⟩
      ⟨Frame.fresh stale, some env⟩ false = some (⟨q, [false]⟩, .ok none) := dif_pos hr
  have hchange : (Change.define key v).apply = fun e => e.define key v := rfl
  have hsees : ∀ s : Run V, a.sees s (a.first, false) key = true := fun _ => rfl
  simp only [captureProbe, Code.exec, Op.exec, Activation.runsIn, Activation.refer, Option.map_some,
    Option.bind_some, hchange, if_pos hheld, hpush, List.getElem?_cons_zero, Nat.add_zero, hsees,
    if_true, Bool.false_and, Bool.false_eq_true, if_false]
  rfl

theorem vmRun_exec {vm : Vm V} {i : ℕ} {v : Option V}
    (hexec : code.exec ⟨i, p.heap.envs.length, f.free, held⟩ ⟨p, []⟩ = some (v, vm)) :
    vmRun held code f i p = (.value v, vm) := by
  rw [vmRun, hexec]

theorem Frame.binds_define {e : Frame V} {key : CStr} {v : V} : (e.define key v).binds key = true := by
  rw [binds_iff]
  refine .inr ?_
  show (((e.d.getD Scope.create).set key v).find key).isSome = true
  rw [Scope.find_set, if_pos rfl]
  rfl

/-- The frame of a new environment is not met by the search that follows its `root`. -/
theorem binder_fresh {h : Heap V} {i r : ℕ} {key : CStr}
    (he : h.envs[i]? = some ⟨Frame.fresh stale, some r⟩) :
    h.binder (some i) key = h.binder (some r) key :=
  Heap.binder_skip he (Frame.not_binds_fresh stale)

theorem exists_some_ne [Nontrivial V] (o : Option V) : ∃ v : V, some v ≠ o := by
  cases o with
  | none => exact ⟨Classical.arbitrary V, Option.some_ne_none _⟩
  | some u =>
    obtain ⟨v, hv⟩ := exists_ne u
    exact ⟨v, fun heq => hv (Option.some.inj heq)⟩

/-- The closure captured the frame of the code: it assigns to the code's binding. -/
theorem captureProbe_own {a : Activation} {key : CStr} {v w : V} (hheld : a.frame ∈ a.held)
    (hframe : a.frame < p.heap.envs.length) (hfirst : a.first = p.heap.envs.length) :
    ∃ vm, (captureProbe a.frame key v w stale).exec a ⟨p, []⟩ = some (some w, vm) := by
  obtain ⟨vm, q, hexec, hvm, hq⟩ := captureProbe_exec hheld hframe
  refine ⟨vm, ?_⟩
  rw [hexec]
  have he : p.heap.envs[a.frame]? = some p.heap.envs[a.frame] := List.getElem?_eq_getElem hframe
  have hlen : (p.heap.modify a.frame fun e => e.define key v).envs.length = p.heap.envs.length := by
    rw [Heap.modify, List.length_modify]
  have hown : q.heap.envs[a.frame]? =
      some { p.heap.envs[a.frame] with toFrame := p.heap.envs[a.frame].define key v } := by
    rw [hq, List.getElem?_append_left (by omega), Heap.getElem?_modify, he, Option.map_some, if_pos rfl]
  have hmade : q.heap.envs[a.first]? = some ⟨Frame.fresh stale, some a.frame⟩ := by
    rw [hq, hfirst, ← hlen, List.getElem?_concat_length]
  have hbinder : q.heap.binder (some a.first) key = some a.frame := by
    rw [binder_fresh hmade, Heap.binder_some hown]
    dsimp only
    rw [Frame.binds_define, if_pos rfl]
  obtain ⟨place, hplace, hwritten⟩ := Process.assign_found (v := w) hbinder hown
  rw [seen, hvm, hwritten, Option.bind_some]
  dsimp only
  rw [Frame.read_write hplace]

/-- The closure captured an older environment: the code's binding stays. -/
theorem captureProbe_older {a : Activation} {key : CStr} {v w : V} {e : Env V} (hheld : env ∈ a.held)
    (henv : env < a.frame) (hfirst : a.first = p.heap.envs.length)
    (he : p.heap.envs[a.frame]? = some e) :
    ∃ vm, (captureProbe env key v w stale).exec a ⟨p, []⟩ =
      some ((View.of key).read (e.define key v), vm) := by
  have hframe : a.frame < p.heap.envs.length := (List.getElem?_eq_some_iff.mp he).1
  obtain ⟨vm, q, hexec, hvm, hq⟩ := captureProbe_exec hheld (Nat.lt_trans henv hframe)
  refine ⟨vm, ?_⟩
  rw [hexec]
  have hlen : (p.heap.modify a.frame fun e => e.define key v).envs.length = p.heap.envs.length := by
    rw [Heap.modify, List.length_modify]
  have hown : q.heap.envs[a.frame]? = some { e with toFrame := e.define key v } := by
    rw [hq, List.getElem?_append_left (by omega), Heap.getElem?_modify, he, Option.map_some, if_pos rfl]
  have hmade : q.heap.envs[a.first]? = some ⟨Frame.fresh stale, some env⟩ := by
    rw [hq, hfirst, ← hlen, List.getElem?_concat_length]
  have hbinder : q.heap.binder (some a.first) key ≠ some a.frame := by
    rw [binder_fresh hmade]
    intro hb
    have := Heap.binder_le hb
    omega
  rw [seen, hvm, Process.assign_other hbinder (fun _ => by omega), hown, Option.bind_some]

variable [Nontrivial V]

/-- **A closure that captured the caller's frame sees what the callee binds in it.** -/
theorem not_held_of_same (h : CallState p env root global held)
    (hf : reused global args.length callee = some f)
    (hsame : ∀ code, SameEffect env p.heap.envs.length
      (opTailCall held stale code args env p global callee)
      (opCall held stale code args env p callee)) : env ∉ held := by
  intro hheld
  let key : CStr := .ofBytes []
  let v : V := Classical.arbitrary V
  have henv := h.env_lt
  let tail : Vm V := { p with heap := tailHeap p.heap env f args }
  let call : Vm V := { p with heap := p.heap.push (newEnv env f args stale) (newEnv_lt h hf) }
  have htail : env < tail.heap.envs.length := by
    show env < (tailHeap p.heap env f args).envs.length
    rw [tailHeap, Heap.modify, List.length_modify]
    exact henv
  have hcall : call.heap.envs[p.heap.envs.length]? = some (newEnv env f args stale) :=
    List.getElem?_concat_length
  -- `OP_CALL` leaves what the code bound in the new frame, and `OP_TAIL_CALL` what the closure stored
  obtain ⟨w, hw⟩ := exists_some_ne ((View.of key).read ((newEnv env f args stale).define key v))
  let code := captureProbe env key v w stale
  obtain ⟨vm, hexec⟩ : ∃ vm, code.exec ⟨env, tail.heap.envs.length, f.free, held⟩ ⟨tail, []⟩ =
      some (some w, vm) := captureProbe_own hheld htail rfl
  obtain ⟨vm', hexec'⟩ : ∃ vm,
      code.exec ⟨p.heap.envs.length, call.heap.envs.length, f.free, held⟩ ⟨call, []⟩ =
        some ((View.of key).read ((newEnv env f args stale).define key v), vm) :=
    captureProbe_older hheld henv rfl hcall
  have hout := (hsame code).outcome
  rw [opTailCall_reused hf, opCall_reused h hf, vmRun_exec hexec, vmRun_exec hexec'] at hout
  exact hw (Outcome.value.inj hout)

/-- **The callee assigns to what its free name is bound to from the caller's `root`.** -/
theorem binder_eq_of_same (h : CallState p env root global held)
    (hf : reused global args.length callee = some f)
    (hsame : ∀ code, SameEffect env p.heap.envs.length
      (opTailCall held stale code args env p global callee)
      (opCall held stale code args env p callee)) {key : CStr} (hkey : key ∈ f.free) :
    p.heap.binder (some root) key = p.heap.binder (some (f.captured.getD env)) key := by
  by_contra hne
  have hparam := f.free_params key hkey
  have hroot := h.root_lt
  have henv := h.env_lt
  have hcaptured := captured_lt h hf
  let tail : Vm V := { p with heap := tailHeap p.heap env f args }
  let call : Vm V := { p with heap := p.heap.push (newEnv env f args stale) (newEnv_lt h hf) }
  -- neither frame binds the name, so the searches go on from the two roots
  obtain ⟨e, he, her⟩ := h.frame
  have htail : tail.heap.envs[env]? =
      some { e with toFrame := e.release.bindParams f.params args } := by
    show (tailHeap p.heap env f args).envs[env]? = _
    rw [tailHeap, Heap.getElem?_modify, he, Option.map_some, if_pos rfl]
  have hcall : call.heap.envs[p.heap.envs.length]? = some (newEnv env f args stale) :=
    List.getElem?_concat_length
  have hnot (e : Frame V) (he : e.Alike (Frame.fresh stale)) :
      (e.bindParams f.params args).binds key = false := by
    rw [Bool.eq_false_iff]
    intro hbinds
    have hold := Frame.binds_bindParams hparam hbinds
    rw [he.binds, Frame.not_binds_fresh] at hold
    cases hold
  have hbt : tail.heap.binder (some env) key = p.heap.binder (some root) key := by
    rw [Heap.binder_skip htail (hnot _ (e.alike_release_fresh stale)), her]
    exact Heap.binder_modify_of_lt hroot
  have hbc : call.heap.binder (some p.heap.envs.length) key =
      p.heap.binder (some (f.captured.getD env)) key := by
    rw [Heap.binder_skip hcall (hnot _ (Frame.Alike.refl _))]
    show (p.heap.push _ (newEnv_lt h hf)).binder (some (f.captured.getD env)) key = _
    exact Heap.binder_push hcaptured
  have hrun (v : V) : ∃ vm vm' : Vm V,
      vm.heap = (tail.toProcess.assignStoreSymbol false key env v).1.heap ∧
      vm'.heap = (call.toProcess.assignStoreSymbol false key p.heap.envs.length v).1.heap ∧
      SameEffect env p.heap.envs.length (.value (seen vm.heap env key), vm)
        (.value (seen vm'.heap p.heap.envs.length key), vm') := by
    obtain ⟨vm, hexec, hvm⟩ := assignProbe_exec (p := tail) (v := v)
      (a := ⟨env, tail.heap.envs.length, f.free, held⟩) hkey
    obtain ⟨vm', hexec', hvm'⟩ := assignProbe_exec (p := call) (v := v)
      (a := ⟨p.heap.envs.length, call.heap.envs.length, f.free, held⟩) hkey
    refine ⟨vm, vm', hvm, hvm', ?_⟩
    have hout := hsame (assignProbe key v)
    rwa [opTailCall_reused hf, opCall_reused h hf, vmRun_exec hexec, vmRun_exec hexec'] at hout
  cases hb : p.heap.binder (some root) key with
  | none =>
    -- the caller's root has no binding: the frame that is reused gets one, and the new frame does not
    let v : V := Classical.arbitrary V
    obtain ⟨vm, vm', hvm, hvm', hout⟩ := hrun v
    have hseen : seen vm.heap env key = some v := by
      rw [seen, hvm, Process.assign_none (hbt.trans hb), Heap.define, Heap.getElem?_modify, htail,
        Option.map_some, if_pos rfl, Option.bind_some]
      exact Frame.read_define (hnot _ (e.alike_release_fresh stale))
    have hother : call.heap.binder (some p.heap.envs.length) key ≠ some p.heap.envs.length := by
      rw [hbc]
      intro hb'
      have := Heap.binder_le hb'
      omega
    have hsome : call.heap.binder (some p.heap.envs.length) key = none →
        p.heap.envs.length ≠ p.heap.envs.length := by
      rw [hbc, ← hb]
      exact fun hnone => absurd hnone.symm hne
    have hseen' : seen vm'.heap p.heap.envs.length key = none := by
      rw [seen, hvm', Process.assign_other hother hsome, hcall, Option.bind_some]
      exact Frame.read_of_not_binds (hnot _ (Frame.Alike.refl _))
    have hvalue := Outcome.value.inj hout.outcome
    rw [hseen, hseen'] at hvalue
    cases hvalue
  | some i =>
    -- the binding of the caller's root is assigned to, and the new frame leaves it as it is
    have hi : i ≤ root := Heap.binder_le hb
    obtain ⟨ei, hei, -⟩ := Heap.exists_of_binder hb
    obtain ⟨v, hv⟩ := exists_some_ne ((View.of key).read ei.toFrame)
    obtain ⟨vm, vm', hvm, hvm', hout⟩ := hrun v
    have hold : tail.heap.envs[i]? = some ei := by
      show (tailHeap p.heap env f args).envs[i]? = _
      rw [tailHeap, Heap.getElem?_modify, hei, Option.map_some, if_neg (by omega)]
    have hold' : call.heap.envs[i]? = some ei := by
      show (p.heap.push _ (newEnv_lt h hf)).envs[i]? = _
      rw [Heap.push, List.getElem?_append_left (by omega), hei]
    obtain ⟨place, hplace, hwritten⟩ := Process.assign_found (v := v) (hbt.trans hb) hold
    have hother : call.heap.binder (some p.heap.envs.length) key ≠ some i := by
      rw [hbc, ← hb]
      exact Ne.symm hne
    have henvs := hout.envs i (by omega) (by omega)
    dsimp only at henvs
    rw [hvm, hvm', hwritten, Process.assign_other hother (fun _ => by omega), hold'] at henvs
    have hframe : ei.write key v place = ei.toFrame := congrArg Env.toFrame (Option.some.inj henvs)
    have hread := Frame.read_write (v := v) hplace
    rw [hframe] at hread
    exact hv hread.symm

end Reuse

/-- **A call in tail position has the same effect as another call**, whatever the code of the callee
does, if and only if the caller's frame is not reused, or no closure captured it and each free name of
the callee has the same binding from the caller's `root` as from the callee's. -/
theorem opTailCall_same_iff [Nontrivial V] {p : Vm V} {env root global : ℕ} {held : List ℕ}
    (h : CallState p env root global held) (callee : Callee V) (args : List V) (stale : Stale V) :
    (∀ code, SameEffect env p.heap.envs.length
      (opTailCall held stale code args env p global callee)
      (opCall held stale code args env p callee)) ↔
    ∀ f, reused global args.length callee = some f → env ∉ held ∧ ∀ key ∈ f.free,
      p.heap.binder (some root) key = p.heap.binder (some (f.captured.getD env)) key := by
  constructor
  · intro hsame f hf
    exact ⟨not_held_of_same h hf hsame, fun key hkey => binder_eq_of_same h hf hsame hkey⟩
  · intro hcond code
    cases hf : reused global args.length callee with
    | none =>
      rw [opTailCall_not_reused hf]
      exact SameEffect.refl _
    | some f => exact vmRun_same h hf (hcond f hf).1 (hcond f hf).2

/-! ## A closure that calls a function in tail position -/

section Closure

def emptyStale : Stale ℕ := ⟨fun _ => none, fun _ => none⟩

def freeName : CStr := .ofBytes [0x78]

/-- The global environment, a scope with `x = 2`, and the frame of a closure that captured it. -/
def closureHeap : Heap ℕ where
  envs := [⟨Frame.fresh emptyStale, none⟩, ⟨(Frame.fresh emptyStale).bindVar freeName 2, some 0⟩,
    ⟨Frame.fresh emptyStale, some 1⟩]
  rooted := by
    rintro (_ | _ | _ | i) e r he hr
    · cases he; cases hr
    · cases he; cases hr; exact Nat.zero_lt_one
    · cases he; cases hr; exact Nat.one_lt_two
    · cases he

/-- The symbol `x` is there. -/
def closureVm : Vm ℕ where
  heap := closureHeap
  reserved := Scope.create
  userTypes := []
  symbols := [⟨freeName, none⟩]
  handlers := []
  lambdaName := fun _ => none
  globalGen := 1
  gcache := fun _ _ => none

/-- `(def g () x)` -/
def topLevel : Callee ℕ := .single (.compiled ⟨some 0, [], none, [freeName], by decide, fun _ _ => List.not_mem_nil⟩)

/-- The code of `g`: `OP_LOAD_GLOBAL` of `x` -/
def readX : Code ℕ := .op (.loadGlobal 0 0 false 0 .frame) fun r => .ret (r.toOption.bind id)

theorem closureState : CallState closureVm 2 1 0 [1, 0] where
  frame := ⟨_, rfl, rfl⟩
  global_root := ⟨_, rfl, rfl⟩
  single := by
    rintro (_ | _ | _ | i) e he hr
    · rfl
    · cases he; cases hr
    · cases he; cases hr
    · cases he
  held_old := by decide
  held_root := by
    rintro (_ | _ | i) hi e r he hr
    · cases he; cases hr
    · cases he; cases hr; decide
    · exact absurd hi (by simp)

theorem opTailCall_same_iff_closure :
    (∀ code, SameEffect 2 3 (opTailCall [1, 0] emptyStale code [] 2 closureVm 0 topLevel)
      (opCall [1, 0] emptyStale code [] 2 closureVm topLevel)) ↔
    ∀ f, reused 0 0 topLevel = some f → 2 ∉ [1, 0] ∧ ∀ key ∈ f.free,
      closureHeap.binder (some 1) key = closureHeap.binder (some (f.captured.getD 2)) key :=
  opTailCall_same_iff closureState topLevel [] emptyStale

/-- The closure `(fn () (g))` that captured `x`, where `x` is not bound globally: the tail call reads
the closure's `x`. -/
theorem opTailCall_ne_opCall : (opTailCall [1, 0] emptyStale readX [] 2 closureVm 0 topLevel).1 ≠
    (opCall [1, 0] emptyStale readX [] 2 closureVm topLevel).1 := by
  have htail : (opTailCall [1, 0] emptyStale readX [] 2 closureVm 0 topLevel).1 = .value (some 2) := rfl
  have hcall : (opCall [1, 0] emptyStale readX [] 2 closureVm topLevel).1 = .value none := rfl
  rw [htail, hcall]
  intro heq
  cases heq

end Closure

end Alcove.Binding
