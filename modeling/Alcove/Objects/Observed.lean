import Alcove.Objects.Mutators

/-!
# What the hooks of a container see

The law of the hooks (`Law`): the validator is called once and first, with the key and the value that
are proposed; where it rejects, nothing follows and its error is returned; otherwise the change of the
builtin (`Mutation.prepare`) is written and the watchers are called, newest first, each once until one
errors (`Notified`). It is a law of mutations made outside the hooks of the container (`Armed`).
-/

namespace Alcove.Objects

/-! ## The law -/

/-- What a builtin changes: the object, the event of the change, the value returned, and the world
after the write. -/
structure Effect where
  content : Object
  key : Ptr
  old : Ptr
  new : Ptr
  ret : Ptr
  written : World

/-- The event that the watchers get. -/
def Effect.event (e : Effect) (i : ℕ) (op : Op) : Call :=
  .notify i op (orNil e.key) (orNil e.old) (orNil e.new)

/-- A container with hooks has its `FLAG_WATCHED`: no hook of it is running. -/
def Armed (w : World) (i : ℕ) : Prop := (w.watchFind i).isSome → w.watched i

variable (call : Callback)

/-- The functions of a list are called in order, each once, until one errors. -/
inductive Notified (c : Call) : List (ℕ × Ptr) → World → List Event → Option Ptr → World → Prop
  | done (w : World) : Notified c [] w [] none w
  | failed {a fn r w w'} {next : List (ℕ × Ptr)} (hcall : call fn c w = (r, w'))
      (herr : w'.isError r) : Notified c ((a, fn) :: next) w [.called fn c r] (some r) w'
  | called {a fn r w w' w''} {next : List (ℕ × Ptr)} {notes : List Event} {err : Option Ptr}
      (hcall : call fn c w = (r, w')) (hok : ¬ w'.isError r)
      (hnext : Notified c next w' notes err w'') :
      Notified c ((a, fn) :: next) w (.called fn c r :: notes) err w''

/-- After the events `pre`, the change is written and the watchers are called. -/
def Written (i : ℕ) (op : Op) (eff : World → Option Effect) (w : World) (pre : List Event)
    (r : Run) : Prop :=
  ∃ e notes err w', eff w = some e ∧ r.events = pre ++ .wrote i e.content :: notes ∧
    Notified call (e.event i op) (e.written.fns i) (e.written.setWatched i false) notes err w' ∧
    ∀ p, err = some p → r.ret = .ptr p

/-- **The law of the hooks.** -/
def Law (i : ℕ) (op : Op) (key new : Ptr) (eff : World → Option Effect) (w : World)
    (r : Option Run) : Prop :=
  ∃ run, r = some run ∧
    match (w.watchFind i).bind Hooks.validator with
    | none => Written call i op eff w [] run
    | some fn =>
      let c := .validate i op (orNil key) (orNil new)
      let reply := call fn c (w.setWatched i false)
      match rejection reply.2 reply.1 with
      | some err => run = ⟨[.called fn c reply.1], err, reply.2.rehook i⟩
      | none => Written call i op eff (reply.2.rehook i) [.called fn c reply.1] run

/-! ## The mutations -/

/-- The caller runs interpreted or compiled. -/
inductive Tier
  | interpreted
  | compiled
  deriving DecidableEq

/-- A mutation of a container, with its operands; `conj` stands for one element of `conj` and
`into`. -/
inductive Mutation
  | assoc (k v : Ptr)
  | dissoc (k : Ptr)
  | push (s : Side) (v : Ptr)
  | pop (s : Side)
  | vecSet (idx x : Ptr)
  | vecPush (s : Side) (x : Ptr)
  | vecPop (s : Side)
  | setAdd (v : Ptr)
  | setDel (v : Ptr)
  | conj (x : Ptr)

/-- `vec-push!` and `vec-unshift!` -/
def Side.vecPushOp : Side → Op
  | left => .vecUnshift
  | right => .vecPush

/-- `vec-pop!` and `vec-shift!` -/
def Side.vecPopOp : Side → Op
  | left => .vecShift
  | right => .vecPop

namespace Mutation

/-- The builtin, or the opcode of compiled code. -/
def run : Tier → Mutation → ℕ → World → Option Run
  | _, assoc k v, i => assocBang call (.ref i) k v
  | _, dissoc k, i => dissocBang call (.ref i) k
  | _, push s v, i => dequePush call s (.ref i) v
  | _, pop s, i => dequePop call s (.ref i)
  | .interpreted, vecSet idx x, i => Objects.vecSet call (.ref i) idx x
  | .compiled, vecSet idx x, i => lVecSet (.ref i) idx x
  | _, vecPush s x, i => vecPushAt call s s.vecPushOp (.ref i) x
  | _, vecPop s, i => vecPopAt call s s.vecPopOp (.ref i)
  | _, setAdd v, i => setAddBang call (.ref i) v
  | _, setDel v, i => setDelBang call (.ref i) v
  | _, conj x, i => conjOne call (.ref i) x

/-- The mutation that `conj_one` makes of an element. -/
def resolve (m : Mutation) (i : ℕ) (w : World) : Mutation :=
  match m, w.objAt i with
  | conj x, some (.vector _ _) => vecPush .right x
  | conj x, some (.set _) => setAdd x
  | conj x, some (.deque _) => push .right x
  | conj x, some (.dict _) =>
    if (w.pairOf x).isNone ∨ w.car x = .null ∨ w.car (w.cdr x) = .null then conj x
    else assoc (w.car x) (w.car (w.cdr x))
  | m, _ => m

/-- The operation that the hooks are told of. -/
def op : Mutation → Op
  | assoc _ _ => .assoc
  | dissoc _ => .dissoc
  | push s _ => s.pushOp
  | pop s => s.popOp
  | vecSet _ _ => .vecSet
  | vecPush s _ => s.vecPushOp
  | vecPop s => s.vecPopOp
  | setAdd _ => .setAdd
  | setDel _ => .setDel
  | conj _ => .vecPush

/-- The key that is proposed. -/
def key : Mutation → Ptr
  | assoc k _ => k
  | dissoc k => k
  | vecSet idx _ => idx
  | _ => .null

/-- The value that is proposed; a set tells of the member to delete. -/
def new : Mutation → Ptr
  | assoc _ v => v
  | push _ v => v
  | vecSet _ x => x
  | vecPush _ x => x
  | setAdd v => v
  | setDel v => v
  | _ => .null

/-- The change of a mutation whose operands the builtin accepts: what it changes in the world after
the validation, and the world that the validation starts from. -/
def prepare (m : Mutation) (i : ℕ) (w : World) : Option ((World → Option Effect) × World) :=
  match m, w.objAt i with
  | assoc k v, some (.dict _) =>
    if w.isError k ∨ w.isError v then none
    else (w.keyToCstr k).map fun ks => (fun w => some (assocEffect i k v ks w), w)
  | dissoc k, some (.dict _) =>
    if w.isError k then none
    else (w.keyToCstr k).map fun ks => (fun w => some (dissocEffect i k ks w), w)
  | push s v, some (.deque _) =>
    if w.isError v then none else some (fun w => some (pushEffect i s v w), w)
  | pop s, some (.deque vals) => if vals = [] then none else some (popEffect i s, w)
  | vecSet idx x, some (.vector _ _) =>
    if w.isError idx ∨ w.isError x then none
    else match vecSetOperands (.ref i) idx w with
      | some (.ok (_, n)) => some (vecSetEffect (w.watched i) i idx x n, w)
      | _ => none
  | vecPush s x, some (.vector cells shared) =>
    if w.isError x ∨ shared then none
    else some (fun w => some (vecPushEffect i s x cells shared w), w)
  | vecPop s, some (.vector cells shared) =>
    if shared ∨ cells.length = 0 then none
    else some (fun w => some (vecPopEffect i s cells shared w), w)
  | setAdd v, some (.set _) =>
    if w.isError v then none
    else match setKeyForValue (w.scalar v), w.clone v with
      | some ks, some (stored, w) => some (fun w => some (setAddEffect i v ks stored w), w)
      | _, _ => none
  | setDel v, some (.set _) =>
    if w.isError v then none
    else (setKeyForValue (w.scalar v)).map fun ks => (fun w => some (setDelEffect i v ks w), w)
  | _, _ => none
where
  assocEffect (i : ℕ) (k v : Ptr) (ks : CStr) (w : World) : Effect :=
    let content := .dict ((w.tableAt i).set ks v)
    ⟨content, k, ((w.tableAt i).find ks).getD .null, v, .ref i, w.store i content⟩
  dissocEffect (i : ℕ) (k : Ptr) (ks : CStr) (w : World) : Effect :=
    let content := .dict ((w.tableAt i).erase ks).1
    ⟨content, k, ((w.tableAt i).find ks).getD .null, .null, .ref i, w.store i content⟩
  pushEffect (i : ℕ) (s : Side) (v : Ptr) (w : World) : Effect :=
    let content := .deque (s.push v (w.dequeAt i))
    ⟨content, .null, .null, v, .ref i, w.store i content⟩
  popEffect (i : ℕ) (s : Side) (w : World) : Option Effect :=
    let content := .deque (s.pop (w.dequeAt i))
    (s.peek (w.dequeAt i)).map fun ret => ⟨content, .null, ret, .null, ret, w.store i content⟩
  /-- The old value is boxed only for watchers. -/
  vecSetEffect (watched : Bool) (i : ℕ) (idx x : Ptr) (n : ℕ) (w : World) : Option Effect :=
    if (w.cellsAt i).length ≤ n then none
    else (w.vecSetBoxed (w.cellsAt i) (w.sharedAt i) n x).map fun (cells, w') =>
      let content := .vector cells (w.sharedAt i)
      let (old, w') := if watched then (w'.store i content).vecGetBoxed (w.cellsAt i) n
        else (.null, w'.store i content)
      ⟨content, idx, old, x, x, w'⟩
  vecPushEffect (i : ℕ) (s : Side) (x : Ptr) (cells : Cells) (shared : Bool) (w : World) : Effect :=
    let (cells, w) := s.pushCells w cells x
    let content := .vector cells shared
    ⟨content, .null, .null, x, x, w.store i content⟩
  vecPopEffect (i : ℕ) (s : Side) (cells : Cells) (shared : Bool) (w : World) : Effect :=
    let (ret, w) := w.vecGetBoxed cells (s.index cells)
    let content := .vector (s.popCells cells) shared
    ⟨content, .null, ret, .null, ret, w.store i content⟩
  setAddEffect (i : ℕ) (v : Ptr) (ks : CStr) (stored : Ptr) (w : World) : Effect :=
    let content := .set ((w.tableAt i).set ks stored)
    ⟨content, .null, .null, v, .ref i, w.store i content⟩
  setDelEffect (i : ℕ) (v : Ptr) (ks : CStr) (w : World) : Effect :=
    let content := .set ((w.tableAt i).erase ks).1
    ⟨content, .null, v, .null, .ref i, w.store i content⟩

/-- The builtin calls the validator. -/
def validates : Tier → Mutation → Bool
  | .compiled, vecSet _ _ => false
  | _, vecPush _ _ => false
  | _, vecPop _ => false
  | _, _ => true

/-- The builtin calls the watchers. -/
def notifies : Tier → Mutation → Bool
  | .compiled, vecSet _ _ => false
  | _, _ => true

end Mutation

/-! ## Watchers that leave the list alone -/

/-- No watcher drops the list while others wait, and none makes the registry grow. -/
def Uninterrupted (i tab : ℕ) (c : Call) : List (ℕ × Ptr) → World → Prop
  | [], _ => True
  | (_, fn) :: next, w =>
    (call fn c w).2.isError (call fn c w).1 ∨
      (call fn c w).2.watchTab = tab ∧
        (next = [] ∨ next <:+ (call fn c w).2.fns i ∧
          Uninterrupted i tab c next (call fn c w).2)

/-- The change can be made, and the watchers let each other run. -/
def Settles (i : ℕ) (op : Op) (eff : World → Option Effect) (w : World) : Prop :=
  ∃ e, eff w = some e ∧ Uninterrupted call i e.written.watchTab (e.event i op) (e.written.fns i)
    (e.written.setWatched i false)

variable {call}

theorem Notified.isError {c : Call} {fns : List (ℕ × Ptr)} {w w' : World} {notes : List Event}
    {err : Option Ptr} (h : Notified call c fns w notes err w') {p : Ptr} (hp : err = some p) :
    w'.isError p := by
  induction h with
  | done w => cases hp
  | failed hcall herr => cases hp; exact herr
  | called hcall hok hnext ih => exact ih hp

theorem notifyLoop_of_uninterrupted {i tab : ℕ} {c : Call} {fns : List (ℕ × Ptr)} {w : World}
    (h : Uninterrupted call i tab c fns w) :
    ∃ notes err w', notifyLoop call i tab c fns w = some (notes, err, w') ∧
      Notified call c fns w notes err w' := by
  induction fns generalizing w with
  | nil => exact ⟨[], none, w, rfl, .done w⟩
  | cons cell next ih =>
    obtain ⟨a, fn⟩ := cell
    rw [notifyLoop]
    rcases h with herr | ⟨htab, h⟩
    · exact ⟨_, _, _, if_pos herr, .failed rfl herr⟩
    by_cases herr : (call fn c w).2.isError (call fn c w).1
    · exact ⟨_, _, _, if_pos herr, .failed rfl herr⟩
    have herr' : ¬ ((call fn c w).2.errorOf (call fn c w).1).isSome := herr
    simp only [herr', htab, ne_eq, not_true_eq_false, if_false]
    rcases h with rfl | ⟨hsuffix, hnext⟩
    · exact ⟨_, _, _, if_pos (Or.inr rfl), .called rfl herr (.done _)⟩
    by_cases hend : (call fn c w).2.fns i = [] ∨ next = []
    · have hnil : next = [] := by
        rcases hend with hnil | hnil
        · rw [hnil] at hsuffix
          exact List.suffix_nil.mp hsuffix
        · exact hnil
      subst hnil
      exact ⟨_, _, _, if_pos hend, .called rfl herr (.done _)⟩
    · obtain ⟨notes, err, w', hloop, hnotes⟩ := ih hnext
      rw [if_neg hend, if_pos hsuffix, hloop]
      exact ⟨_, _, _, rfl, .called rfl herr hnotes⟩

theorem uninterrupted_of_notified {i tab : ℕ} {c : Call} {fns : List (ℕ × Ptr)}
    {w w₁ w₂ : World} {notes : List Event} {err err' : Option Ptr}
    (hloop : notifyLoop call i tab c fns w = some (notes, err', w₁))
    (h : Notified call c fns w notes err w₂) : Uninterrupted call i tab c fns w := by
  induction h generalizing w₁ err' with
  | done w => trivial
  | failed hcall herr =>
    left
    rw [hcall]
    exact herr
  | @called a fn r w w' w'' next notes err hcall hok hnext ih =>
    right
    have hok' : ¬ (w'.errorOf r).isSome := hok
    simp only [notifyLoop, hcall] at hloop
    rw [if_neg hok'] at hloop
    rw [hcall]
    split at hloop
    · cases hloop
    rename_i htab
    refine ⟨not_not.mp htab, ?_⟩
    split at hloop
    · -- the loop ends here, so that no watcher is left
      left
      simp only [Option.some.injEq, Prod.mk.injEq, List.cons.injEq, true_and] at hloop
      rw [← hloop.1] at hnext
      cases hnext
      rfl
    split at hloop
    · rename_i hsuffix
      obtain ⟨⟨ev, err₁, w₃⟩, heq, hev⟩ := Option.map_eq_some_iff.mp hloop
      simp only [Prod.mk.injEq, List.cons.injEq, true_and] at hev
      rw [hev.1] at heq
      exact Or.inr ⟨hsuffix, ih heq⟩
    · cases hloop

/-! ## The bit and the registry -/

theorem Armed.store {w : World} {i : ℕ} (h : Armed w i) (j : ℕ) (o : Object) :
    Armed (w.store j o) i := by
  simpa [Armed] using h

theorem Armed.grows {w w' : World} {i : ℕ} (h : Armed w i) (hw : w.Grows w') : Armed w' i := by
  rw [Armed, hw.watchFind, hw.watched]
  exact h

theorem armed_rehook (w : World) (i : ℕ) : Armed (w.rehook i) i := by
  intro h
  by_cases hs : (w.watchFind i).isSome
  · rw [World.rehook, if_pos hs]
    exact World.watched_setWatched hs
  · rw [World.rehook, if_neg hs] at h
    exact absurd h hs

@[simp]
theorem isError_rehook (w : World) (i : ℕ) (p : Ptr) : (w.rehook i).isError p = w.isError p := by
  rw [World.rehook]
  split
  · simp [World.isError, World.errorOf]
  · rfl

/-- Without a slot there is nobody to call. -/
theorem fns_of_not_watched {w : World} {i : ℕ} (ha : Armed w i) (h : ¬ w.watched i) :
    w.watchFind i = none := by
  cases hs : w.watchFind i with
  | none => rfl
  | some h' => exact absurd (ha (by rw [hs]; rfl)) h

theorem notifying_of_fns {w : World} {i : ℕ} (h : w.fns i = []) (op : Op) (k old nw : Ptr)
    (ret : Ret) : notifying call i op k old nw ret w = done ret w := by
  rw [notifying, watchNotify, if_pos h]
  rfl

/-- The test of the bit before `watch_notify` makes no difference. -/
theorem notifying_if {w : World} {i : ℕ} (ha : Armed w i) (op : Op) (k old nw : Ptr) (ret : Ret) :
    (if w.watched i then notifying call i op k old nw ret w else done ret w) =
      notifying call i op k old nw ret w := by
  split
  · rfl
  · rename_i h
    rw [notifying_of_fns (by rw [World.fns, fns_of_not_watched ha h]; rfl)]

theorem validating_of_not_watched {w : World} {i : ℕ} (ha : Armed w i) (h : ¬ w.watched i) (op : Op)
    (k nw : Ptr) (next : World → Option Run) :
    validating call i op k nw next w = next w := by
  rw [validating, watchValidate, fns_of_not_watched ha h]
  simp only [Option.bind_none]
  cases next w with
  | none => rfl
  | some r => rfl

/-- The test of the bit before `watch_validate` makes no difference. -/
theorem validating_if {w : World} {i : ℕ} (ha : Armed w i) (op : Op) (k nw : Ptr)
    (next : World → Option Run) :
    (if w.watched i then validating call i op k nw next w else next w) =
      validating call i op k nw next w := by
  split
  · rfl
  · rename_i h
    rw [validating_of_not_watched ha h]

/-! ## Each mutation is validation, write and notification -/

variable (call) in
/-- The write, and the call of the watchers. -/
def commit (i : ℕ) (op : Op) (e : Effect) : Option Run :=
  (notifying call i op e.key e.old e.new (.ptr e.ret) e.written).map
    (Run.after [.wrote i e.content])

/-- What follows the validation commits the effect. -/
def Commits (call : Callback) (i : ℕ) (op : Op) (eff : World → Option Effect)
    (next : World → Option Run) : Prop :=
  ∀ w e, Armed w i → eff w = some e → next w = commit call i op e

section Primitive

attribute [local simp] Mutation.prepare

variable {w w₀ : World} {i : ℕ} {eff : World → Option Effect}

/-- A write that skips the watchers is one where nobody watches. -/
theorem writing_done {w : World} (ha : Armed w i) (h : ¬ w.watched i) (o : Object) (op : Op)
    (k old nw : Ptr) (ret : Ret) :
    writing i o (done ret) w = writing i o (notifying call i op k old nw ret) w := by
  have hnone : (w.store i o).fns i = [] := by
    rw [World.fns_store, World.fns, fns_of_not_watched ha h]
    rfl
  rw [writing, writing, notifying_of_fns hnone]

/-- A write before which the bit is tested again. -/
theorem writing_if {w : World} (ha : Armed w i) (o : Object) (op : Op) (k old nw : Ptr) (ret : Ret) :
    writing i o (fun w => if w.watched i then notifying call i op k old nw ret w else done ret w) w =
      writing i o (notifying call i op k old nw ret) w := by
  rw [writing, writing, notifying_if (ha.store i o)]

variable (call)

theorem assoc_run {k v : Ptr} (ha : Armed w i)
    (hp : (Mutation.assoc k v).prepare i w = some (eff, w₀)) :
    ∃ next, assocBang call (.ref i) k v w = validating call i .assoc k v next w₀ ∧
      Commits call i .assoc eff next := by
  cases ho : w.objAt i with
  | none => simp [ho] at hp
  | some o =>
    cases o with
    | dict d =>
      simp only [Mutation.prepare, ho] at hp
      split at hp
      · cases hp
      rename_i herr
      obtain ⟨hk, hv⟩ := not_or.mp herr
      obtain ⟨ks, hks, heq⟩ := Option.map_eq_some_iff.mp hp
      cases heq
      have hd : w.isError (.ref i) = false := by simp [World.isError, World.errorOf, World.look, ho]
      refine ⟨assocBang.assoc call (.ref i) k v i ks, ?_, fun w₁ e _ he => by cases he; rfl⟩
      simp only [assocBang, hd, World.dictOf, World.look, ho, hk, hv, hks, Bool.false_eq_true,
        if_false]
      by_cases hw : w.watched i
      · rw [if_pos hw]
      · rw [if_neg hw, validating_of_not_watched ha hw]
        exact writing_done ha hw _ _ _ _ _ _
    | _ => simp [ho] at hp

theorem dissoc_run {k : Ptr} (ha : Armed w i)
    (hp : (Mutation.dissoc k).prepare i w = some (eff, w₀)) :
    ∃ next, dissocBang call (.ref i) k w = validating call i .dissoc k .null next w₀ ∧
      Commits call i .dissoc eff next := by
  cases ho : w.objAt i with
  | none => simp [ho] at hp
  | some o =>
    cases o with
    | dict d =>
      simp only [Mutation.prepare, ho] at hp
      split at hp
      · cases hp
      rename_i hk
      obtain ⟨ks, hks, heq⟩ := Option.map_eq_some_iff.mp hp
      cases heq
      have hd : w.isError (.ref i) = false := by simp [World.isError, World.errorOf, World.look, ho]
      refine ⟨dissocBang.dissoc call (.ref i) k i ks, ?_, fun w₁ e _ he => by cases he; rfl⟩
      simp only [dissocBang, hd, World.dictOf, World.look, ho, hk, hks, Bool.false_eq_true, if_false]
      by_cases hw : w.watched i
      · rw [if_pos hw]
      · rw [if_neg hw, validating_of_not_watched ha hw]
        exact writing_done ha hw _ _ _ _ _ _
    | _ => simp [ho] at hp

theorem push_run {s : Side} {v : Ptr} (ha : Armed w i)
    (hp : (Mutation.push s v).prepare i w = some (eff, w₀)) :
    ∃ next, dequePush call s (.ref i) v w = validating call i s.pushOp .null v next w₀ ∧
      Commits call i s.pushOp eff next := by
  cases ho : w.objAt i with
  | none => simp [ho] at hp
  | some o =>
    cases o with
    | deque vals =>
      simp only [Mutation.prepare, ho] at hp
      split at hp
      · cases hp
      rename_i hv
      cases hp
      have hd : w.isError (.ref i) = false := by simp [World.isError, World.errorOf, World.look, ho]
      refine ⟨dequePush.push call s (.ref i) v i, ?_, fun w₁ e ha₁ he => ?_⟩
      · simp only [dequePush, hd, World.dequeOf, World.look, ho, hv, Bool.false_eq_true, if_false]
        exact validating_if ha _ _ _ _
      · cases he
        exact writing_if ha₁ _ _ _ _ _ _
    | _ => simp [ho] at hp

theorem pop_run {s : Side} (ha : Armed w i)
    (hp : (Mutation.pop s).prepare i w = some (eff, w₀)) :
    ∃ next, dequePop call s (.ref i) w = validating call i s.popOp .null .null next w₀ ∧
      Commits call i s.popOp eff next := by
  cases ho : w.objAt i with
  | none => simp [ho] at hp
  | some o =>
    cases o with
    | deque vals =>
      simp only [Mutation.prepare, ho] at hp
      split at hp
      · cases hp
      rename_i hvals
      cases hp
      have hd : w.isError (.ref i) = false := by simp [World.isError, World.errorOf, World.look, ho]
      have hvals' : w.dequeAt i ≠ [] := by simpa [World.dequeAt, ho] using hvals
      refine ⟨dequePop.pop call s i, ?_, fun w₁ e ha₁ he => ?_⟩
      · simp only [dequePop, hd, World.dequeOf, World.look, ho, hvals', ne_eq, not_false_eq_true,
          and_true, Bool.false_eq_true, if_false]
        exact validating_if ha _ _ _ _
      · obtain ⟨ret, hret, heq⟩ := Option.map_eq_some_iff.mp he
        cases heq
        rw [dequePop.pop, hret]
        exact writing_if ha₁ _ _ _ _ _ _
    | _ => simp [ho] at hp

theorem vecSetOperands_place {idx : Ptr} {j n : ℕ}
    (h : vecSetOperands (.ref i) idx w = some (.ok (j, n))) : j = i := by
  unfold vecSetOperands at h
  split at h
  · rename_i k cells shared idx' hv _
    have hk : k = i := by
      unfold World.vectorOf at hv
      split at hv
      · rename_i hp _
        cases hp
        cases hv
        rfl
      · cases hv
    obtain ⟨idx, -, hidx⟩ := Option.map_eq_some_iff.mp h
    split at hidx
    · cases hidx
      exact hk
    · cases hidx
  · cases h

/-- The steps of `vec-set!` after the validation. -/
theorem storeCell_commits (watched : Bool) (idx x : Ptr) (n : ℕ) :
    Commits call i .vecSet (Mutation.prepare.vecSetEffect watched i idx x n)
      (storeCell i n x (if watched then vecSet.notify call idx x i n
        else fun _ => notifying call i .vecSet idx .null x (.ptr x))) := by
  intro w e _ he
  unfold Mutation.prepare.vecSetEffect at he
  split at he
  · cases he
  rename_i hn
  obtain ⟨⟨cells, w'⟩, hset, rfl⟩ := Option.map_eq_some_iff.mp he
  rw [storeCell, if_neg hn, hset]
  cases watched <;> rfl

theorem storeCell_done (ha : Armed w i) (hw : ¬ w.watched i) (idx x : Ptr) (n : ℕ) :
    storeCell i n x (fun _ => done (.ptr x)) w =
      storeCell i n x (fun _ => notifying call i .vecSet idx .null x (.ptr x)) w := by
  rw [storeCell, storeCell]
  split
  · rfl
  cases hset : w.vecSetBoxed (w.cellsAt i) (w.sharedAt i) n x with
  | none => rfl
  | some p =>
    have hgrows := World.grows_vecSetBoxed hset
    exact writing_done (ha.grows hgrows) (by rw [hgrows.watched]; exact hw) _ _ _ _ _ _

theorem vecSet_run {idx x : Ptr} (ha : Armed w i)
    (hp : (Mutation.vecSet idx x).prepare i w = some (eff, w₀)) :
    ∃ next, vecSet call (.ref i) idx x w = validating call i .vecSet idx x next w₀ ∧
      Commits call i .vecSet eff next := by
  cases ho : w.objAt i with
  | none => simp [ho] at hp
  | some o =>
    cases o with
    | vector cells shared =>
      simp only [Mutation.prepare, ho] at hp
      split at hp
      · cases hp
      rename_i herr
      obtain ⟨hidx, hx⟩ := not_or.mp herr
      split at hp
      · rename_i j n hops
        cases hp
        have hd : w.isError (.ref i) = false := by
          simp [World.isError, World.errorOf, World.look, ho]
        obtain rfl := vecSetOperands_place hops
        simp only [vecSet, hd, hidx, hx, hops, Option.bind_some, Bool.false_eq_true, if_false]
        refine ⟨_, ?_, storeCell_commits call (w.watched j) idx x n⟩
        by_cases hw : w.watched j
        · rw [if_pos hw, if_pos hw]
        · rw [if_neg hw, if_neg hw, validating_of_not_watched ha hw]
          exact storeCell_done call ha hw idx x n
      · cases hp
    | _ => simp [ho] at hp

theorem setAdd_run {v : Ptr} (ha : Armed w i)
    (hp : (Mutation.setAdd v).prepare i w = some (eff, w₀)) :
    ∃ next, setAddBang call (.ref i) v w = validating call i .setAdd .null v next w₀ ∧
      Commits call i .setAdd eff next := by
  cases ho : w.objAt i with
  | none => simp [ho] at hp
  | some o =>
    cases o with
    | set d =>
      simp only [Mutation.prepare, ho] at hp
      split at hp
      · cases hp
      rename_i hv
      split at hp
      · rename_i ks stored w' hks hstored
        cases hp
        have hd : w.isError (.ref i) = false := by
          simp [World.isError, World.errorOf, World.look, ho]
        refine ⟨setAddBang.add call (.ref i) v i ks stored, ?_, fun w₁ e ha₁ he => ?_⟩
        · simp only [setAddBang, hd, World.setOf, World.look, ho, hv, hks, hstored,
            Bool.false_eq_true, if_false]
          exact validating_if (ha.grows (World.grows_clone hstored)) _ _ _ _
        · cases he
          exact writing_if ha₁ _ _ _ _ _ _
      · cases hp
    | _ => simp [ho] at hp

theorem setDel_run {v : Ptr} (ha : Armed w i)
    (hp : (Mutation.setDel v).prepare i w = some (eff, w₀)) :
    ∃ next, setDelBang call (.ref i) v w = validating call i .setDel .null v next w₀ ∧
      Commits call i .setDel eff next := by
  cases ho : w.objAt i with
  | none => simp [ho] at hp
  | some o =>
    cases o with
    | set d =>
      simp only [Mutation.prepare, ho] at hp
      split at hp
      · cases hp
      rename_i hv
      obtain ⟨ks, hks, heq⟩ := Option.map_eq_some_iff.mp hp
      cases heq
      have hd : w.isError (.ref i) = false := by simp [World.isError, World.errorOf, World.look, ho]
      refine ⟨setDelBang.del call (.ref i) v i ks, ?_, fun w₁ e ha₁ he => ?_⟩
      · simp only [setDelBang, hd, World.setOf, World.look, ho, hv, hks, Bool.false_eq_true, if_false]
        exact validating_if ha _ _ _ _
      · cases he
        exact writing_if ha₁ _ _ _ _ _ _
    | _ => simp [ho] at hp

theorem vecPush_run {s : Side} {x : Ptr} (ha : Armed w i)
    (hp : (Mutation.vecPush s x).prepare i w = some (eff, w₀)) :
    w₀ = w ∧ ∃ e, eff w = some e ∧
      vecPushAt call s s.vecPushOp (.ref i) x w = commit call i s.vecPushOp e := by
  cases ho : w.objAt i with
  | none => simp [ho] at hp
  | some o =>
    cases o with
    | vector cells shared =>
      simp only [Mutation.prepare, ho] at hp
      split at hp
      · cases hp
      rename_i herr
      obtain ⟨hx, hshared⟩ := not_or.mp herr
      cases hp
      have hd : w.isError (.ref i) = false := by simp [World.isError, World.errorOf, World.look, ho]
      refine ⟨rfl, _, rfl, ?_⟩
      simp only [vecPushAt, hd, hx, World.vectorOf, World.look, ho, hshared, Bool.false_eq_true,
        if_false]
      exact writing_if (ha.grows (s.grows_pushCells w cells x)) _ _ _ _ _ _
    | _ => simp [ho] at hp

theorem vecPop_run {s : Side} (ha : Armed w i)
    (hp : (Mutation.vecPop s).prepare i w = some (eff, w₀)) :
    w₀ = w ∧ ∃ e, eff w = some e ∧
      vecPopAt call s s.vecPopOp (.ref i) w = commit call i s.vecPopOp e := by
  cases ho : w.objAt i with
  | none => simp [ho] at hp
  | some o =>
    cases o with
    | vector cells shared =>
      simp only [Mutation.prepare, ho] at hp
      split at hp
      · cases hp
      rename_i herr
      obtain ⟨hshared, hn⟩ := not_or.mp herr
      cases hp
      have hd : w.isError (.ref i) = false := by simp [World.isError, World.errorOf, World.look, ho]
      refine ⟨rfl, _, rfl, ?_⟩
      simp only [vecPopAt, hd, World.vectorOf, World.look, ho, hshared, hn, Bool.false_eq_true,
        if_false]
      exact writing_if (ha.grows (World.grows_vecGetBoxed w cells _)) _ _ _ _ _ _
    | _ => simp [ho] at hp

/-- The opcode writes, and calls nobody. -/
theorem lVecSet_run {idx x : Ptr} (hp : (Mutation.vecSet idx x).prepare i w = some (eff, w₀)) :
    w₀ = w ∧ ∀ e, eff w = some e → e.written.fns i = w.fns i ∧
      ∃ w', lVecSet (.ref i) idx x w = some ⟨[.wrote i e.content], .ptr x, w'⟩ := by
  cases ho : w.objAt i with
  | none => simp [ho] at hp
  | some o =>
    cases o with
    | vector cells shared =>
      simp only [Mutation.prepare, ho] at hp
      split at hp
      · cases hp
      split at hp
      · rename_i j n hops
        cases hp
        obtain rfl := vecSetOperands_place hops
        refine ⟨rfl, fun e he => ?_⟩
        unfold Mutation.prepare.vecSetEffect at he
        split at he
        · cases he
        rename_i hn
        obtain ⟨⟨cells, w'⟩, hset, rfl⟩ := Option.map_eq_some_iff.mp he
        have hgrows := World.grows_vecSetBoxed hset
        constructor
        · dsimp only
          split
          · rw [(World.grows_vecGetBoxed _ _ _).fns, World.fns_store, hgrows.fns]
          · rw [World.fns_store, hgrows.fns]
        · simp only [lVecSet, hops, Option.bind_some, storeCell, if_neg hn, hset]
          exact ⟨_, rfl⟩
      · cases hp
    | _ => simp [ho] at hp

end Primitive

/-! ## When the law holds -/

/-- The last step of a builtin, that changes nothing but the value returned without an error. -/
def Finishes (fin : Run → Run) : Prop :=
  ∀ r, (fin r).events = r.events ∧
    ((∀ p, r.ret = .ptr p → r.world.isError p) → fin r = r)

theorem finishes_id : Finishes id := fun _ => ⟨rfl, fun _ => rfl⟩

section Criterion

variable {w : World} {i : ℕ} {op : Op} {key new : Ptr} {eff : World → Option Effect}
  {next : World → Option Run} {fin : Run → Run}

theorem isError_of_rejection {reply p : Ptr} (h : rejection w reply = some (.ptr p)) :
    w.isError p := by
  unfold rejection at h
  split at h
  · rename_i herr
    cases h
    exact herr
  · split at h <;> cases h

/-- What a committed change runs to. -/
theorem commit_eq_some {e : Effect} {pre : List Event} {r : Run} :
    (commit call i op e).map (Run.after pre) = some r ↔
      ∃ notes err w', watchNotify call i op e.key e.old e.new e.written = some (notes, err, w') ∧
        r = ⟨pre ++ .wrote i e.content :: notes, (err.map Ret.ptr).getD (.ptr e.ret), w'⟩ := by
  rw [commit, notifying]
  cases watchNotify call i op e.key e.old e.new e.written with
  | none => simp
  | some q =>
    obtain ⟨notes, err, w'⟩ := q
    simp only [Option.map_some, Option.some.injEq, Prod.mk.injEq, Run.after]
    constructor
    · rintro rfl
      exact ⟨notes, err, w', ⟨rfl, rfl, rfl⟩, rfl⟩
    · rintro ⟨notes, err, w', ⟨rfl, rfl, rfl⟩, rfl⟩
      rfl

/-- After a change, the law holds exactly when the watchers let each other run. -/
theorem written_iff (hfin : Finishes fin) {e : Effect} (he : eff w = some e) (pre : List Event) :
    (∃ run, ((commit call i op e).map (Run.after pre)).map fin = some run ∧
      Written call i op eff w pre run) ↔
    Uninterrupted call i e.written.watchTab (e.event i op) (e.written.fns i)
      (e.written.setWatched i false) := by
  constructor
  · rintro ⟨run, hrun, e', notes, err, w', he', hevents, hnotes, -⟩
    obtain rfl : e = e' := Option.some.inj (he.symm.trans he')
    obtain ⟨r, hr, rfl⟩ := Option.map_eq_some_iff.mp hrun
    obtain ⟨notes', err', w₁, hloop, rfl⟩ := commit_eq_some.mp hr
    rw [(hfin _).1] at hevents
    obtain rfl : notes' = notes := by simpa using hevents
    rw [watchNotify] at hloop
    split at hloop
    · rename_i hfns
      rw [hfns]
      trivial
    · obtain ⟨⟨ev, err₁, w₂⟩, heq, hev⟩ := Option.map_eq_some_iff.mp hloop
      cases hev
      exact uninterrupted_of_notified heq hnotes
  · intro h
    obtain ⟨notes, err, w', hloop, hnotes⟩ := notifyLoop_of_uninterrupted h
    have hnotify : ∃ w₁, watchNotify call i op e.key e.old e.new e.written = some (notes, err, w₁) ∧
        ∀ p, err = some p → w₁.isError p := by
      rw [watchNotify]
      split
      · rename_i hfns
        rw [hfns] at hnotes
        cases hnotes
        exact ⟨_, rfl, fun p hp => by cases hp⟩
      · refine ⟨w'.rehook i, ?_, fun p hp => ?_⟩
        · rw [← Effect.event, hloop]
          rfl
        · rw [isError_rehook]
          exact hnotes.isError hp
    obtain ⟨w₁, hw₁, herr⟩ := hnotify
    refine ⟨_, Option.map_eq_some_iff.mpr ⟨_, commit_eq_some.mpr ⟨notes, err, w₁, hw₁, rfl⟩, rfl⟩,
      e, notes, err, w', he, (hfin _).1, hnotes, fun p hp => ?_⟩
    subst hp
    rw [(hfin _).2 fun q hq => by cases hq; exact herr p rfl]
    rfl

/-- What follows an accepted change meets the law exactly when it settles. -/
theorem settles_iff (hfin : Finishes fin) (hnext : Commits call i op eff next) (ha : Armed w i)
    (pre : List Event) :
    (∃ run, ((next w).map (Run.after pre)).map fin = some run ∧
      Written call i op eff w pre run) ↔ Settles call i op eff w := by
  cases he : eff w with
  | none =>
    constructor
    · rintro ⟨run, -, e, notes, err, w', he', -⟩
      rw [he] at he'
      cases he'
    · rintro ⟨e, he', -⟩
      rw [he] at he'
      cases he'
  | some e =>
    rw [hnext w e ha he, written_iff hfin he]
    constructor
    · exact fun h => ⟨e, he, h⟩
    · rintro ⟨e', he', h⟩
      rw [he] at he'
      cases he'
      exact h

variable (call) in
/-- The validator rejects the change, or accepts one that settles. -/
def Decided (i : ℕ) (op : Op) (key new : Ptr) (eff : World → Option Effect) (w : World) (fn : Ptr) :
    Prop :=
  let reply := call fn (.validate i op (orNil key) (orNil new)) (w.setWatched i false)
  (rejection reply.2 reply.1).isSome ∨ Settles call i op eff (reply.2.rehook i)

theorem law_of_validating (hfin : Finishes fin) (hnext : Commits call i op eff next)
    (ha : Armed w i) :
    Law call i op key new eff w ((validating call i op key new next w).map fin) ↔
      match (w.watchFind i).bind Hooks.validator with
      | none => Settles call i op eff w
      | some fn => Decided call i op key new eff w fn := by
  rw [Law, validating, watchValidate]
  cases hv : (w.watchFind i).bind Hooks.validator with
  | none => exact settles_iff hfin hnext ha []
  | some fn =>
    dsimp only
    rw [Decided]
    cases hrej : rejection (call fn (.validate i op (orNil key) (orNil new)) (w.setWatched i false)).2
        (call fn (.validate i op (orNil key) (orNil new)) (w.setWatched i false)).1 with
    | some err =>
      dsimp only
      rw [Option.map_some, (hfin _).2 fun p hp => ?_]
      · exact ⟨fun _ => Or.inl rfl, fun _ => ⟨_, rfl, rfl⟩⟩
      · rw [isError_rehook]
        exact isError_of_rejection (hrej.trans (congrArg some hp))
    | none =>
      dsimp only
      simp only [Option.isSome_none, Bool.false_eq_true, false_or]
      exact settles_iff hfin hnext (armed_rehook _ i) _

/-- Under the law, a validator is called before anything else. -/
theorem Law.head {r : Option Run} {fn : Ptr} (h : Law call i op key new eff w r)
    (hv : (w.watchFind i).bind Hooks.validator = some fn) :
    ∃ run c reply rest, r = some run ∧ run.events = .called fn c reply :: rest := by
  obtain ⟨run, hr, h⟩ := h
  rw [hv] at h
  dsimp only at h
  split at h
  · exact ⟨run, _, _, _, hr, by rw [h]⟩
  · obtain ⟨e, notes, err, w', -, hevents, -⟩ := h
    exact ⟨run, _, _, _, hr, hevents⟩

theorem map_after_nil (r : Option Run) : r.map (Run.after []) = r := by
  cases r <;> rfl

/-- A builtin that writes at once meets the law where there is no validator. -/
theorem law_of_commit (hfin : Finishes fin) {e : Effect} (he : eff w = some e) :
    Law call i op key new eff w ((commit call i op e).map fin) ↔
      (w.watchFind i).bind Hooks.validator = none ∧ Settles call i op eff w := by
  cases hv : (w.watchFind i).bind Hooks.validator with
  | none =>
    have hsettles : Settles call i op eff w ↔ Uninterrupted call i e.written.watchTab
        (e.event i op) (e.written.fns i) (e.written.setWatched i false) := by
      constructor
      · rintro ⟨e', he', h⟩
        rw [he] at he'
        cases he'
        exact h
      · exact fun h => ⟨e, he, h⟩
    rw [Law, hv, hsettles, ← written_iff hfin he [], map_after_nil]
    simp
  | some fn =>
    refine iff_of_false (fun h => ?_) fun h => by cases h.1
    obtain ⟨run, c, reply, rest, hrun, hevents⟩ := h.head hv
    obtain ⟨r, hr, rfl⟩ := Option.map_eq_some_iff.mp hrun
    rw [← map_after_nil (commit call i op e)] at hr
    obtain ⟨notes, err, w', -, rfl⟩ := commit_eq_some.mp hr
    rw [(hfin _).1] at hevents
    cases hevents

end Criterion

/-- **The hooks see a mutation as they should**: without a validator its watchers are called and let
each other run; a validator is asked, and rejects the change or accepts one that settles. -/
def Observes (call : Callback) (tier : Tier) (m : Mutation) (i : ℕ) (eff : World → Option Effect)
    (w : World) : Prop :=
  match (w.watchFind i).bind Hooks.validator with
  | none => (m.notifies tier ∨ w.fns i = []) ∧ Settles call i m.op eff w
  | some fn => m.validates tier ∧ Decided call i m.op m.key m.new eff w fn

section Main

variable {tier : Tier} {w w₀ : World} {i : ℕ} {eff : World → Option Effect} {fin : Run → Run}

theorem lVecSet_events {v idx x : Ptr} {r : Run} (h : lVecSet v idx x w = some r) :
    r.events = [] ∨ ∃ i o, r.events = [.wrote i o] := by
  obtain ⟨ops, -, hops⟩ := Option.bind_eq_some_iff.mp h
  cases ops with
  | error e =>
    cases hops
    exact Or.inl rfl
  | ok p =>
    simp only [storeCell] at hops
    split at hops
    · cases hops
    split at hops
    · cases hops
      exact Or.inl rfl
    · cases hops
      exact Or.inr ⟨_, _, rfl⟩

/-- The opcode meets the law where there is nobody to call. -/
theorem law_lVecSet {idx x : Ptr} (hp : (Mutation.vecSet idx x).prepare i w = some (eff, w₀))
    (hfin : Finishes fin) :
    Law call i .vecSet idx x eff w₀ ((lVecSet (.ref i) idx x w).map fin) ↔
      Observes call .compiled (.vecSet idx x) i eff w₀ := by
  obtain ⟨rfl, hrun⟩ := lVecSet_run hp
  rw [Observes]
  cases hv : (w₀.watchFind i).bind Hooks.validator with
  | none =>
    simp only [Mutation.notifies, Bool.false_eq_true, false_or, Mutation.op]
    rw [Law, hv]
    constructor
    · rintro ⟨run, hr, e, notes, err, w', he, hevents, hnotes, -⟩
      obtain ⟨hfns, w'', hlvs⟩ := hrun e he
      rw [hlvs] at hr
      cases hr
      rw [(hfin _).1] at hevents
      simp only [List.nil_append, List.cons.injEq, true_and] at hevents
      subst hevents
      generalize hl : e.written.fns i = l at hnotes
      cases hnotes
      exact ⟨hfns.symm.trans hl, e, he, by rw [hl]; trivial⟩
    · rintro ⟨hfns, e, he, -⟩
      obtain ⟨hfns', w'', hlvs⟩ := hrun e he
      rw [hlvs]
      have hnotes : Notified call (e.event i .vecSet) (e.written.fns i) (e.written.setWatched i false)
          [] none (e.written.setWatched i false) := by
        rw [hfns', hfns]
        exact .done _
      exact ⟨_, rfl, e, [], none, _, he, (hfin _).1, hnotes, fun p hp => by cases hp⟩
  | some fn =>
    refine iff_of_false (fun h => ?_) fun h => by cases h.1
    obtain ⟨run, c, reply, rest, hr, hevents⟩ := h.head hv
    obtain ⟨r, hlvs, rfl⟩ := Option.map_eq_some_iff.mp hr
    rw [(hfin _).1] at hevents
    rcases lVecSet_events hlvs with h0 | ⟨j, o, h1⟩
    · rw [h0] at hevents
      cases hevents
    · rw [h1] at hevents
      cases hevents

/-- Before the validation, only the copy of a member is allocated. -/
theorem grows_of_prepare {m : Mutation} (hp : m.prepare i w = some (eff, w₀)) : w.Grows w₀ := by
  -- in the other branches the world is the one before
  have hmap {α : Type} {x : Option α} {f : α → World → Option Effect}
      (h : x.map (fun a => (f a, w)) = some (eff, w₀)) : w.Grows w₀ := by
    obtain ⟨a, -, heq⟩ := Option.map_eq_some_iff.mp h
    cases heq
    exact .refl w
  cases ho : w.objAt i with
  | none => cases m <;> simp [Mutation.prepare, ho] at hp
  | some o =>
    cases m with
    | assoc k v =>
      cases o <;> simp only [Mutation.prepare, ho, reduceCtorEq] at hp
      split at hp
      · cases hp
      · exact hmap hp
    | dissoc k =>
      cases o <;> simp only [Mutation.prepare, ho, reduceCtorEq] at hp
      split at hp
      · cases hp
      · exact hmap hp
    | push s v =>
      cases o <;> simp only [Mutation.prepare, ho, reduceCtorEq] at hp
      split at hp <;> cases hp
      exact .refl w
    | pop s =>
      cases o <;> simp only [Mutation.prepare, ho, reduceCtorEq] at hp
      split at hp <;> cases hp
      exact .refl w
    | vecSet idx x =>
      cases o <;> simp only [Mutation.prepare, ho, reduceCtorEq] at hp
      split at hp
      · cases hp
      split at hp <;> cases hp
      exact .refl w
    | vecPush s x =>
      cases o <;> simp only [Mutation.prepare, ho, reduceCtorEq] at hp
      split at hp <;> cases hp
      exact .refl w
    | vecPop s =>
      cases o <;> simp only [Mutation.prepare, ho, reduceCtorEq] at hp
      split at hp <;> cases hp
      exact .refl w
    | setAdd v =>
      cases o <;> simp only [Mutation.prepare, ho, reduceCtorEq] at hp
      split at hp
      · cases hp
      split at hp
      · rename_i hclone
        cases hp
        exact World.grows_clone hclone
      · cases hp
    | setDel v =>
      cases o <;> simp only [Mutation.prepare, ho, reduceCtorEq] at hp
      split at hp
      · cases hp
      · exact hmap hp
    | conj x => simp [Mutation.prepare] at hp

/-- **A mutation that is not made through `conj` or `into`.** -/
theorem law_iff_observes {m : Mutation} (hp : m.prepare i w = some (eff, w₀)) (ha : Armed w i)
    (hfin : Finishes fin) :
    Law call i m.op m.key m.new eff w₀ ((m.run call tier i w).map fin) ↔
      Observes call tier m i eff w₀ := by
  have hw₀ : Armed w₀ i := ha.grows (grows_of_prepare hp)
  have hvalid (hv : m.validates tier) (hn : m.notifies tier)
      {next : World → Option Run}
      (hrun : m.run call tier i w = validating call i m.op m.key m.new next w₀)
      (hnext : Commits call i m.op eff next) :
      Law call i m.op m.key m.new eff w₀ ((m.run call tier i w).map fin) ↔
        Observes call tier m i eff w₀ := by
    rw [hrun, law_of_validating hfin hnext hw₀, Observes]
    cases (w₀.watchFind i).bind Hooks.validator <;> simp [hv, hn]
  have hcommit (hv : ¬ m.validates tier) (hn : m.notifies tier) {e : Effect} (he : eff w₀ = some e)
      (hrun : m.run call tier i w = commit call i m.op e) :
      Law call i m.op m.key m.new eff w₀ ((m.run call tier i w).map fin) ↔
        Observes call tier m i eff w₀ := by
    rw [hrun, law_of_commit hfin he, Observes]
    cases (w₀.watchFind i).bind Hooks.validator <;> simp [hv, hn]
  cases m with
  | assoc k v =>
    obtain ⟨next, hrun, hnext⟩ := assoc_run call ha hp
    exact hvalid (by cases tier <;> rfl) (by cases tier <;> rfl) (by cases tier <;> exact hrun) hnext
  | dissoc k =>
    obtain ⟨next, hrun, hnext⟩ := dissoc_run call ha hp
    exact hvalid (by cases tier <;> rfl) (by cases tier <;> rfl) (by cases tier <;> exact hrun) hnext
  | push s v =>
    obtain ⟨next, hrun, hnext⟩ := push_run call ha hp
    exact hvalid (by cases tier <;> rfl) (by cases tier <;> rfl) (by cases tier <;> exact hrun) hnext
  | pop s =>
    obtain ⟨next, hrun, hnext⟩ := pop_run call ha hp
    exact hvalid (by cases tier <;> rfl) (by cases tier <;> rfl) (by cases tier <;> exact hrun) hnext
  | vecSet idx x =>
    cases tier with
    | interpreted =>
      obtain ⟨next, hrun, hnext⟩ := vecSet_run call ha hp
      exact hvalid rfl rfl hrun hnext
    | compiled => exact law_lVecSet hp hfin
  | vecPush s x =>
    obtain ⟨hw, e, he, hrun⟩ := vecPush_run call ha hp
    rw [← hw] at he
    exact hcommit (by cases tier <;> exact Bool.false_ne_true) (by cases tier <;> rfl) he
      (by cases tier <;> exact hrun)
  | vecPop s =>
    obtain ⟨hw, e, he, hrun⟩ := vecPop_run call ha hp
    rw [← hw] at he
    exact hcommit (by cases tier <;> exact Bool.false_ne_true) (by cases tier <;> rfl) he
      (by cases tier <;> exact hrun)
  | setAdd v =>
    obtain ⟨next, hrun, hnext⟩ := setAdd_run call ha hp
    exact hvalid (by cases tier <;> rfl) (by cases tier <;> rfl) (by cases tier <;> exact hrun) hnext
  | setDel v =>
    obtain ⟨next, hrun, hnext⟩ := setDel_run call ha hp
    exact hvalid (by cases tier <;> rfl) (by cases tier <;> rfl) (by cases tier <;> exact hrun) hnext
  | conj x => simp [Mutation.prepare] at hp

theorem finishes_keepColl (coll : Ptr) : Finishes (keepColl coll) := by
  intro r
  rw [keepColl]
  constructor
  · split <;> rfl
  · intro h
    refine if_pos ?_
    obtain ⟨events, ret, w⟩ := r
    cases ret with
    | raise c => rfl
    | ptr p => exact h p rfl

theorem map_id_run (r : Option Run) : r.map id = r := by
  cases r <;> rfl

/-- **`conj` and `into` follow the builtin that they apply.** -/
theorem conj_run {x : Ptr} (hp : ((Mutation.conj x).resolve i w).prepare i w = some (eff, w₀)) :
    conjOne call (.ref i) x w =
      (((Mutation.conj x).resolve i w).run call tier i w).map (keepColl (.ref i)) := by
  cases ho : w.objAt i with
  | none => simp [Mutation.resolve, Mutation.prepare, ho] at hp
  | some o =>
    cases o with
    | dict d =>
      simp only [Mutation.resolve, ho] at hp ⊢
      split at hp
      · simp [Mutation.prepare] at hp
      · rename_i hx
        rw [if_neg hx, conjOne, if_neg hx]
        cases tier <;> simp [World.vectorOf, World.setOf, World.dequeOf, World.look, ho,
          Mutation.run]
    | vector cells shared =>
      cases tier <;> simp [conjOne, Mutation.resolve, Mutation.run, World.vectorOf, World.look, ho,
        vecPush, Side.vecPushOp]
    | set d =>
      cases tier <;> simp [conjOne, Mutation.resolve, Mutation.run, World.vectorOf, World.setOf,
        World.look, ho]
    | deque vals =>
      cases tier <;> simp [conjOne, Mutation.resolve, Mutation.run, World.vectorOf, World.setOf,
        World.dequeOf, World.look, ho, pushRightBang]
    | _ => simp [Mutation.resolve, Mutation.prepare, ho] at hp

end Main

/-! ## Main result -/

section Law

variable {i : ℕ} {w w₀ : World} {eff : World → Option Effect}

end Law

/-- A validator that rejects every change. -/
def rejecting : Callback := fun _ _ w => (.nil, w)

/-- A vector of one cell with a validator, a function object at the next place. -/
def guarded : World :=
  ⟨[⟨.vector (.i64 [1]) false, true, some ⟨[], some (.ref 1)⟩⟩, ⟨.other, false, none⟩], 0⟩

end Alcove.Objects
