import Alcove.Params.Bind

/-!
# Both ways of binding parameters

When a call from compiled code binds the parameters as an interpreted call does (`Agrees`): both give
every slot and every name of the new frame the same value, or both raise an error of the same class.

They differ on a destructuring parameter, which `vm_invoke_values` takes for a bad one; on surplus
arguments, which it drops unless the function is compiled; and on NULL, which it binds as it is.

**Main results**: `binds_agree_iff`, with the exact condition `Uniform`, and `inStep_iff_walk`, what
is left of the condition when no argument is NULL.
-/

namespace Alcove.Params

open Objects Binding Inline

/-! ## Agreement -/

/-- The live slots of two frames are the same, and so is what their dicts hold. -/
structure SameBindings (f g : Frame Ptr) : Prop where
  count : f.nInline = g.nInline
  keys : ∀ i < f.nInline, f.inlineKeys i = g.inlineKeys i
  vals : ∀ i < f.nInline, f.inlineVals i = g.inlineVals i
  entries : ∀ key, f.entry key = g.entry key

theorem SameBindings.refl (f : Frame Ptr) : SameBindings f f :=
  ⟨rfl, fun _ _ => rfl, fun _ _ => rfl, fun _ => rfl⟩

variable {σ : Type}

/-- **Both bind the same, or both fail with the same class.** -/
def Agrees : Bound σ → Bound σ → Prop
  | .ok (f, s), .ok (g, t) => SameBindings f g ∧ s = t
  | .error c, .error c' => c = c'
  | _, _ => False

/-! ## The condition -/

variable (eval : Eval σ)

def NoNull (args : List Ptr) : Prop := ∀ a ∈ args, a ≠ .null

/-- How an interpreted call comes to raise an error: arguments are left over or run out, a dot has no
name, a parameter is malformed or its pattern is not made of symbols, or a default raises. -/
def Raises (c : ErrorClass) : List Exp → List Ptr → Frame Ptr → State σ → Prop
  | [], args, _, _ => args ≠ [] ∧ c = .missingParameter
  | p :: ps, args, f, s =>
    if isDot p then ps.head?.bind symbolText = none ∧ c = .illegalValue
    else match args with
      | a :: args =>
        match defaultOf p, symbolText p with
        | some (name, _), _ => Raises c ps args (bindParam f name (orNil a)) s
        | none, some name => Raises c ps args (bindParam f name (orNil a)) s
        | none, none =>
          match if isTruePair p then destructure s.1 p.elems (orNil a) f else none with
          | none => c = .illegalValue
          | some f => Raises c ps args f s
      | [] =>
        match defaultOf p with
        | none => c = .missingParameter
        | some (name, d) =>
          match eval d f s with
          | (.error c', _) => c = c'
          | (.ok v, s) => Raises c ps [] (bindParam f name (orNil v)) s

/-- How a call from compiled code comes to raise an error, once its arguments have run out: a dot
has no name, a parameter is neither a symbol nor has a default, or a default raises. -/
def VmRaises (c : ErrorClass) : List Exp → Frame Ptr → State σ → Prop
  | [], _, _ => False
  | p :: ps, g, t =>
    match defaultOf p, symbolText p with
    | some (name, d), _ =>
      match eval d g t with
      | (.error c', _) => c = c'
      | (.ok v, t) => VmRaises c ps (bindParam g name (orNil v)) t
    | none, none => c = .illegalValue
    | none, some _ =>
      if isDot p then ps.head?.bind symbolText = none ∧ c = .illegalValue else c = .missingParameter

/-- The condition for an uncompiled function, with the frame of each call as the arguments so far
have filled it. -/
def InStep : List Exp → List Ptr → Frame Ptr → Frame Ptr → State σ → State σ → Prop
  | [], args, f, g, s, t => args = [] ∧ SameBindings f g ∧ s = t
  | p :: ps, args, f, g, s, t =>
    if isDot p then
      ∀ name, ps.head?.bind symbolText = some name → NoNull args ∧ s = t ∧
        SameBindings (bindRest name args f s).1 (bindRest name args g s).1
    else match defaultOf p, symbolText p, args with
      | some (name, _), _, a :: args =>
        InStep ps args (bindParam f name (orNil a)) (bindParam g name a) s t
      | some (name, d), _, [] =>
        match eval d f s, eval d g t with
        | (.error c, _), (.error c', _) => c = c'
        | (.error c, _), (.ok v', t) => VmRaises eval c ps (bindParam g name (orNil v')) t
        | (.ok v, s), (.error c', _) => Raises eval c' ps [] (bindParam f name (orNil v)) s
        | (.ok v, s), (.ok v', t) =>
          InStep ps [] (bindParam f name (orNil v)) (bindParam g name (orNil v')) s t
      | none, some name, a :: args =>
        InStep ps args (bindParam f name (orNil a)) (bindParam g name a) s t
      | none, some _, [] => True
      | none, none, [] => False
      | none, none, a :: args => Raises eval .illegalValue (p :: ps) (a :: args) f s

variable {types : TypeNames}

/-- The condition for both calls to agree. -/
def Uniform (callee : Callee types) (args : List Ptr) (stale : Stale Ptr) (s : State σ) : Prop :=
  ∀ fn, callee.pick args.length = some fn →
    match fn.keys with
    | some keys => keys.length = args.length → NoNull args
    | none => InStep eval fn.params args (.fresh stale) (.fresh stale) s s

/-! ## The list of a rest parameter -/

/-- The fresh cells of a list, from a place on. -/
def nodes : ℕ → List Ptr → List Entry
  | _, [] => []
  | _, [x] => [⟨.pair x .null, false, none⟩]
  | i, x :: y :: ys => ⟨.pair x (.ref (i + 1)), false, none⟩ :: nodes (i + 1) (y :: ys)

theorem length_nodes (i : ℕ) (xs : List Ptr) : (nodes i xs).length = xs.length := by
  fun_induction nodes i xs with
  | case1 => rfl
  | case2 => rfl
  | case3 i x y ys ih => rw [List.length_cons, ih]; rfl

theorem nodes_inj {i j : ℕ} {xs ys : List Ptr} (h : nodes i xs = nodes j ys) : xs = ys := by
  fun_induction nodes i xs generalizing j ys with
  | case1 =>
    have hlen := congrArg List.length h
    rw [length_nodes] at hlen
    exact (List.length_eq_zero_iff.mp hlen.symm).symm
  | case2 i x =>
    have hlen := congrArg List.length h
    rw [length_nodes] at hlen
    obtain ⟨y, rfl⟩ := List.length_eq_one_iff.mp hlen.symm
    cases h
    rfl
  | case3 i x y ys' ih =>
    match ys, h with
    | x' :: y' :: ys, h =>
      rw [nodes] at h
      obtain ⟨hhead, htail⟩ := List.cons.inj h
      cases hhead
      rw [ih htail]

theorem modify_length_append {α : Type*} (pre post : List α) (e : α) (f : α → α) :
    (pre ++ e :: post).modify pre.length f = pre ++ f e :: post := by
  induction pre with
  | nil => rfl
  | cons x pre ih => exact congrArg (x :: ·) ih

/-- `cur->next = node` at the cell with a given place. -/
theorem setNext_spec {w : World} {pre post : List Entry} {x nx : Ptr} (node : Ptr)
    (h : w.objs = pre ++ ⟨.pair x nx, false, none⟩ :: post) :
    (setNext (.ref pre.length) node w).objs = pre ++ ⟨.pair x node, false, none⟩ :: post ∧
      (setNext (.ref pre.length) node w).watchTab = w.watchTab := by
  have hat : w.objAt pre.length = some (.pair x nx) := by simp [World.objAt, h]
  have hset : setNext (.ref pre.length) node w = w.store pre.length (.pair x node) := by
    simp only [setNext, World.pairOf, World.look, hat]
  rw [hset, World.store]
  refine ⟨?_, rfl⟩
  rw [h, modify_length_append]

theorem linkNodes_spec (xs : List Ptr) {w : World} {pre : List Entry} {x : Ptr}
    (h : w.objs = pre ++ [⟨.pair x .null, false, none⟩]) :
    (linkNodes (.ref pre.length) xs w).objs = pre ++ nodes pre.length (x :: xs) ∧
      (linkNodes (.ref pre.length) xs w).watchTab = w.watchTab := by
  induction xs generalizing w pre x with
  | nil => exact ⟨h, rfl⟩
  | cons y ys ih =>
    have hlen : w.objs.length = pre.length + 1 := by rw [h]; simp
    have halloc : (w.alloc (.pair y .null)).2.objs =
        pre ++ ⟨.pair x .null, false, none⟩ :: [⟨.pair y .null, false, none⟩] := by
      rw [World.alloc, h, List.append_assoc]
      rfl
    obtain ⟨hobjs, htab⟩ := setNext_spec (w.alloc (.pair y .null)).1 halloc
    have hpre : (pre ++ [(⟨.pair x (.ref (pre.length + 1)), false, none⟩ : Entry)]).length =
        pre.length + 1 := by simp
    have hnode : (w.alloc (.pair y .null)).1 = .ref (pre.length + 1) := by rw [World.alloc, hlen]
    rw [hnode] at hobjs htab
    rw [List.append_cons] at hobjs
    have hlast := ih hobjs
    rw [hpre] at hlast
    have hround : linkNodes (.ref pre.length) (y :: ys) w = linkNodes (w.alloc (.pair y .null)).1 ys
        (setNext (.ref pre.length) (w.alloc (.pair y .null)).1 (w.alloc (.pair y .null)).2) := rfl
    rw [hround, hnode]
    refine ⟨?_, hlast.2.trans htab⟩
    rw [hlast.1, List.append_assoc]
    rfl

theorem makeList_spec (x : Ptr) (xs : List Ptr) (w : World) :
    (makeList (x :: xs) w).1 = .ref w.objs.length ∧
      (makeList (x :: xs) w).2.objs = w.objs ++ nodes w.objs.length (x :: xs) ∧
      (makeList (x :: xs) w).2.watchTab = w.watchTab := by
  have hlast : (w.alloc (.pair x .null)).2.objs = w.objs ++ [⟨.pair x .null, false, none⟩] := rfl
  obtain ⟨hobjs, htab⟩ := linkNodes_spec xs hlast
  exact ⟨rfl, hobjs, htab⟩

theorem makeList_inj {xs ys : List Ptr} {w w' : World} (hlen : xs.length = ys.length)
    (h : (makeList xs w).2 = (makeList ys w').2) : xs = ys ∧ w = w' := by
  cases xs with
  | nil =>
    obtain rfl := List.length_eq_zero_iff.mp hlen.symm
    exact ⟨rfl, h⟩
  | cons x xs =>
    cases ys with
    | nil => cases hlen
    | cons y ys =>
      obtain ⟨-, hobjs, htab⟩ := makeList_spec x xs w
      obtain ⟨-, hobjs', htab'⟩ := makeList_spec y ys w'
      rw [h, hobjs'] at hobjs
      rw [h, htab'] at htab
      obtain ⟨hpre, hnodes⟩ := List.append_inj' hobjs (by rw [length_nodes, length_nodes, hlen])
      refine ⟨(nodes_inj hnodes).symm, ?_⟩
      cases w
      cases w'
      cases hpre
      cases htab
      rfl

/-! ## The walks -/

section Walks

variable {eval}

@[simp]
theorem orNil_orNil (a : Ptr) : orNil (orNil a) = orNil a := by cases a <;> rfl

theorem orNil_ne_null (a : Ptr) : orNil a ≠ .null := by cases a <;> simp [orNil]

theorem orNil_eq_self {a : Ptr} : orNil a = a ↔ a ≠ .null := by cases a <;> simp [orNil]

theorem map_orNil_eq_self {args : List Ptr} : args.map orNil = args ↔ NoNull args := by
  calc args.map orNil = args ↔ args.map orNil = args.map id := by rw [List.map_id]
    _ ↔ NoNull args := List.map_inj_left.trans (forall₂_congr fun a _ => orNil_eq_self)

theorem defaultOf_of_symbol {p : Exp} {name : CStr} (h : symbolText p = some name) : defaultOf p = none := by
  cases p <;> first | rfl | cases h

theorem symbolText_of_dot {p : Exp} (h : isDot p) : symbolText p = some (.ofBytes [46]) := by
  simpa [isDot] using h

/-- What `var2env` does with arguments that are left over. -/
theorem var2env_nil (args : List Ptr) (f : Frame Ptr) (s : State σ) :
    var2env eval [] (args.map orNil) f s =
      if args = [] then .ok (f, s) else .error .missingParameter := by
  cases args with
  | nil => rfl
  | cons a args => simp [var2env, orNil_ne_null]

theorem raises_iff {c : ErrorClass} {ps : List Exp} {args : List Ptr} {f : Frame Ptr} {s : State σ} :
    Raises eval c ps args f s ↔ var2env eval ps (args.map orNil) f s = .error c := by
  induction ps generalizing args f s with
  | nil =>
    rw [var2env_nil, Raises]
    split <;> simp_all [eq_comm]
  | cons p ps ih =>
    unfold Raises var2env
    by_cases hdot : isDot p
    · rw [if_pos hdot, if_pos hdot]
      cases ps.head?.bind symbolText <;> simp [eq_comm]
    rw [if_neg hdot, if_neg hdot]
    cases args with
    | nil =>
      cases hd : defaultOf p with
      | none => simp [eq_comm]
      | some d =>
        obtain ⟨name, d⟩ := d
        simp only [List.map_nil]
        rcases eval d f s with ⟨c' | v, s'⟩
        · simp [eq_comm]
        · exact ih
    | cons a args =>
      simp only [List.map_cons, orNil_orNil]
      cases hd : defaultOf p with
      | some d => exact ih
      | none =>
        cases hsym : symbolText p with
        | some name => exact ih
        | none =>
          by_cases hpair : isTruePair p
          · simp only [hpair, if_true]
            cases destructure s.1 p.elems (orNil a) f with
            | none => simp [eq_comm]
            | some f' => exact ih
          · simp [hpair, eq_comm]

theorem vmRaises_iff {c : ErrorClass} {ps : List Exp} {g : Frame Ptr} {t : State σ} :
    VmRaises eval c ps g t ↔ bindLambda eval ps [] g t = .error c := by
  induction ps generalizing g t with
  | nil => simp [VmRaises, bindLambda]
  | cons p ps ih =>
    unfold VmRaises bindLambda
    cases hd : defaultOf p with
    | some d =>
      obtain ⟨name, d⟩ := d
      simp only
      rcases eval d g t with ⟨c' | v, t'⟩
      · simp [eq_comm]
      · exact ih
    | none =>
      cases hsym : symbolText p with
      | none => simp [eq_comm]
      | some name =>
        by_cases hdot : isDot p
        · simp only [hdot, if_true]
          cases ps.head?.bind symbolText <;> simp [eq_comm]
        · simp [hdot, eq_comm]

/-- A rest parameter gets the same list exactly when the frames agree and no element is NULL. -/
theorem agrees_rest_iff {name : CStr} {args : List Ptr} {f g : Frame Ptr} {s t : State σ} :
    Agrees (.ok (bindRest name (args.map orNil) f s)) (.ok (bindRest name args g t)) ↔
      NoNull args ∧ s = t ∧ SameBindings (bindRest name args f s).1 (bindRest name args g s).1 := by
  constructor
  · rintro ⟨hsame, hst⟩
    have hworld : (makeList (args.map orNil) s.1).2 = (makeList args t.1).2 := congrArg Prod.fst hst
    obtain ⟨hargs, hst₁⟩ := makeList_inj (List.length_map orNil) hworld
    obtain rfl : s = t := Prod.ext hst₁ (congrArg Prod.snd hst :)
    rw [hargs] at hsame
    exact ⟨map_orNil_eq_self.mp hargs, rfl, hsame⟩
  · rintro ⟨hargs, rfl, hsame⟩
    rw [map_orNil_eq_self.mpr hargs]
    exact ⟨hsame, rfl⟩

/-- **The two loops, side by side.** -/
theorem agrees_iff_inStep {ps : List Exp} {args : List Ptr} {f g : Frame Ptr} {s t : State σ} :
    Agrees (var2env eval ps (args.map orNil) f s) (bindLambda eval ps args g t) ↔
      InStep eval ps args f g s t := by
  induction ps generalizing args f g s t with
  | nil =>
    rw [var2env_nil, bindLambda, InStep]
    split
    · simp_all [Agrees]
    · simp_all [Agrees]
  | cons p ps ih =>
    by_cases hdot : isDot p
    · have hsym := symbolText_of_dot hdot
      unfold var2env bindLambda InStep
      simp only [hdot, if_true, defaultOf_of_symbol hsym, hsym]
      cases ps.head?.bind symbolText with
      | none => simp [Agrees]
      | some name => simpa only [List.map_map, Function.comp_def, orNil_orNil, Option.some.injEq,
          forall_eq'] using agrees_rest_iff
    cases hd : defaultOf p with
    | some d =>
      obtain ⟨name, d⟩ := d
      unfold var2env bindLambda InStep
      simp only [hdot, if_false, hd, Bool.false_eq_true]
      cases args with
      | cons a args => simpa using ih
      | nil =>
        simp only [List.map_nil]
        rcases eval d f s with ⟨c | v, s'⟩ <;> rcases eval d g t with ⟨c' | v', t'⟩
        · rfl
        · simp only [vmRaises_iff]
          cases bindLambda eval ps [] (bindParam g name (orNil v')) t' <;> simp [Agrees, eq_comm]
        · simp only [raises_iff, List.map_nil]
          cases var2env eval ps [] (bindParam f name (orNil v)) s' <;> simp [Agrees]
        · exact @ih [] _ _ _ _
    | none =>
      cases hsym : symbolText p with
      | some name =>
        unfold var2env bindLambda InStep
        simp only [hdot, if_false, hd, hsym, Bool.false_eq_true]
        cases args with
        | cons a args => simpa using ih
        | nil => simp [Agrees]
      | none =>
        cases args with
        | nil =>
          unfold var2env bindLambda InStep
          simp [hdot, hd, hsym, Agrees]
        | cons a args =>
          have hvm : bindLambda eval (p :: ps) (a :: args) g t = .error .illegalValue := by
            simp only [bindLambda, hd, hsym]
          rw [hvm]
          unfold InStep
          simp only [hdot, if_false, hd, hsym, Bool.false_eq_true]
          rw [raises_iff]
          cases var2env eval (p :: ps) ((a :: args).map orNil) f s with
          | error c => simp [Agrees]
          | ok r => simp [Agrees]

end Walks

/-! ## Compiled functions -/

section Compiled

variable {eval}

/-- What `compile_lambda` requires of the parameters. -/
theorem registerParams_spec {ps : List Exp} {keys : List CStr} (h : registerParams ps = some keys) :
    keys.length ≤ envInlineSlots ∧
      List.Forall₂ (fun p key => isDot p = false ∧ symbolText p = some key) ps keys := by
  unfold registerParams at h
  split at h
  · rename_i hlen
    have hall : List.Forall₂ (fun p key => isDot p = false ∧ symbolText p = some key) ps keys := by
      clear hlen
      induction ps generalizing keys with
      | nil =>
        cases h
        exact .nil
      | cons p ps ih =>
        rw [List.mapM_cons] at h
        obtain ⟨key, hkey, h⟩ := Option.bind_eq_some_iff.mp h
        obtain ⟨keys', hkeys, h⟩ := Option.bind_eq_some_iff.mp h
        cases h
        split at hkey
        · cases hkey
        · rename_i hdot
          exact .cons ⟨by simpa using hdot, hkey⟩ (ih hkeys)
    exact ⟨hall.length_eq ▸ hlen, hall⟩
  · cases h

/-- Names bound to values one by one. -/
def bindAll (f : Frame Ptr) (keys : List CStr) (args : List Ptr) : Frame Ptr :=
  (keys.zip args).foldl (fun f b => bindParam f b.1 b.2) f

theorem var2env_plain {ps : List Exp} {keys : List CStr}
    (h : List.Forall₂ (fun p key => isDot p = false ∧ symbolText p = some key) ps keys)
    {args : List Ptr} {f : Frame Ptr} {s : State σ} :
    var2env eval ps (args.map orNil) f s =
      if args.length = keys.length then .ok (bindAll f keys (args.map orNil), s)
      else .error .missingParameter := by
  induction h generalizing args f with
  | nil =>
    rw [var2env_nil]
    cases args <;> rfl
  | @cons p key ps keys hp _ ih =>
    obtain ⟨hdot, hsym⟩ := hp
    cases args with
    | nil =>
      unfold var2env
      simp [hdot, defaultOf_of_symbol hsym]
    | cons a args =>
      unfold var2env
      simp only [hdot, defaultOf_of_symbol hsym, hsym, List.map_cons, orNil_orNil, Bool.false_eq_true,
        if_false]
      rw [ih, List.length_cons, List.length_cons]
      simp only [Nat.add_right_cancel_iff]
      rfl

/-- A slot that is bound while there is room. -/
theorem bindParam_of_room {f : Frame Ptr} (h : f.nInline < envInlineSlots) (key : CStr) (a : Ptr) :
    bindParam f key a =
      { f with
        inlineKeys := Function.update f.inlineKeys f.nInline (some key)
        inlineVals := Function.update f.inlineVals f.nInline (some a)
        nInline := f.nInline + 1 } := by
  rw [bindParam, if_pos (.inl h), Frame.bindVar, if_pos h]

/-- The entry of a list that starts at a slot. -/
theorem getElem?_update_cons {α : Type*} (x : α) (xs : List α) (n m i : ℕ) (g : ℕ → Option α)
    (hm : m = xs.length) :
    (if n + 1 ≤ i ∧ i < n + 1 + m then xs[i - (n + 1)]? else Function.update g n (some x) i) =
      if n ≤ i ∧ i < n + (m + 1) then (x :: xs)[i - n]? else g i := by
  by_cases hi : i = n
  · subst hi
    rw [if_neg (by omega), if_pos (by omega), Function.update_self, Nat.sub_self]
    rfl
  · rw [Function.update_of_ne hi]
    by_cases hr : n ≤ i ∧ i < n + (m + 1)
    · rw [if_pos (by omega), if_pos hr]
      obtain ⟨j, rfl⟩ : ∃ j, i = n + 1 + j := ⟨i - (n + 1), by omega⟩
      rw [show n + 1 + j - n = j + 1 by omega, Nat.add_sub_cancel_left]
      rfl
    · rw [if_neg (by omega), if_neg hr]

/-- The slots that are bound one by one. -/
theorem bindAll_spec {keys : List CStr} {args : List Ptr} {f : Frame Ptr}
    (hlen : args.length = keys.length) (hroom : f.nInline + keys.length ≤ envInlineSlots) :
    (bindAll f keys args).nInline = f.nInline + keys.length ∧ (bindAll f keys args).d = f.d ∧
      (∀ i, (bindAll f keys args).inlineKeys i =
        if f.nInline ≤ i ∧ i < f.nInline + keys.length then keys[i - f.nInline]? else f.inlineKeys i) ∧
      ∀ i, (bindAll f keys args).inlineVals i =
        if f.nInline ≤ i ∧ i < f.nInline + keys.length then args[i - f.nInline]? else f.inlineVals i := by
  induction keys generalizing args f with
  | nil => exact ⟨rfl, rfl, fun i => (if_neg (by simp)).symm, fun i => (if_neg (by simp)).symm⟩
  | cons key keys ih =>
    cases args with
    | nil => cases hlen
    | cons a args =>
      have hlen' : args.length = keys.length := Nat.succ.inj hlen
      rw [List.length_cons] at hroom
      have hcons : bindAll f (key :: keys) (a :: args) = bindAll (bindParam f key a) keys args := rfl
      rw [hcons, bindParam_of_room (by omega), List.length_cons]
      obtain ⟨hn, hd, hkeys, hvals⟩ := ih (f := { f with
        inlineKeys := Function.update f.inlineKeys f.nInline (some key)
        inlineVals := Function.update f.inlineVals f.nInline (some a)
        nInline := f.nInline + 1 }) hlen' (by simp only; omega)
      refine ⟨by rw [hn]; simp only; omega, hd, fun i => ?_, fun i => ?_⟩
      · rw [hkeys]
        exact getElem?_update_cons key keys f.nInline keys.length i f.inlineKeys rfl
      · rw [hvals]
        exact getElem?_update_cons a args f.nInline keys.length i f.inlineVals hlen'.symm

/-- The slots that both calls fill. -/
theorem sameBindings_slots_iff {keys : List CStr} {args : List Ptr} (stale : Stale Ptr)
    (hlen : args.length = keys.length) (hroom : keys.length ≤ envInlineSlots) :
    SameBindings (bindAll (.fresh stale) keys (args.map orNil)) (fillSlots (.fresh stale) keys args) ↔
      NoNull args := by
  have hmap : (args.map orNil).length = keys.length := by rw [List.length_map, hlen]
  have hzero : (Frame.fresh stale).nInline = 0 := rfl
  obtain ⟨hn, hd, hkeys, hvals⟩ := bindAll_spec (f := .fresh stale) hmap (by omega)
  simp only [hzero, Nat.zero_add, Nat.zero_le, true_and, Nat.sub_zero] at hn hkeys hvals
  have hkeys' : ∀ i < keys.length, (fillSlots (.fresh stale) keys args).inlineKeys i = keys[i]? :=
    fun i hi => if_pos (by omega)
  have hvals' : ∀ i < keys.length, (fillSlots (.fresh stale) keys args).inlineVals i = args[i]? :=
    fun i hi => if_pos (by omega)
  rw [← map_orNil_eq_self]
  constructor
  · intro h
    refine List.ext_getElem? fun i => ?_
    by_cases hi : i < keys.length
    · have hval := h.vals i (by omega)
      rwa [hvals, if_pos hi, hvals' i hi] at hval
    · rw [List.getElem?_eq_none (by omega), List.getElem?_eq_none (by omega)]
  · intro h
    refine ⟨by rw [hn]; exact hlen.symm, fun i hi => ?_, fun i hi => ?_, fun key => ?_⟩
    · rw [hkeys, if_pos (by omega), hkeys' i (by omega)]
    · rw [hvals, if_pos (by omega), hvals' i (by omega), h]
    · rw [Frame.entry, Frame.entry, hd]
      rfl

/-- A compiled function: both count the arguments. -/
theorem agrees_compiled_iff {fn : Lambda types} {keys : List CStr} (hkeys : fn.keys = some keys)
    (args : List Ptr) (stale : Stale Ptr) (s : State σ) :
    Agrees (interpretedBind eval fn args (.fresh stale) s) (vmBind eval fn args (.fresh stale) s) ↔
      (keys.length = args.length → NoNull args) := by
  obtain ⟨hroom, hplain⟩ := registerParams_spec (fn.keys_eq keys hkeys)
  rw [interpretedBind, var2env_plain hplain, vmBind, hkeys]
  simp only
  by_cases hlen : keys.length = args.length
  · rw [if_pos hlen.symm, if_pos ⟨hlen, hlen ▸ hroom⟩, Agrees, and_iff_left rfl,
      sameBindings_slots_iff stale hlen.symm hroom]
    exact ⟨fun h _ => h, fun h => h hlen⟩
  · rw [if_neg (Ne.symm hlen), if_neg fun h => hlen h.1, if_pos hlen]
    exact iff_of_true rfl fun h => absurd h hlen

end Compiled

/-! ## Main results -/

/-- What `InStep` asks of arguments without NULL, in the one frame that both calls fill. -/
def Walk : List Exp → List Ptr → Frame Ptr → State σ → Prop
  | [], args, _, _ => args = []
  | p :: ps, args, f, s =>
    if isDot p then True
    else match defaultOf p, symbolText p, args with
      | some (name, _), _, a :: args => Walk ps args (bindParam f name a) s
      | some (name, d), _, [] =>
        match eval d f s with
        | (.error _, _) => True
        | (.ok v, s) => Walk ps [] (bindParam f name (orNil v)) s
      | none, some name, a :: args => Walk ps args (bindParam f name a) s
      | none, some _, [] => True
      | none, none, [] => False
      | none, none, a :: args => Raises eval .illegalValue (p :: ps) (a :: args) f s

theorem inStep_iff_walk {ps : List Exp} {args : List Ptr} {f : Frame Ptr} {s : State σ}
    (h : NoNull args) : InStep eval ps args f f s s ↔ Walk eval ps args f s := by
  induction ps generalizing args f s with
  | nil =>
    rw [InStep, Walk]
    exact and_iff_left ⟨.refl f, rfl⟩
  | cons p ps ih =>
    unfold InStep Walk
    by_cases hdot : isDot p
    · rw [if_pos hdot, if_pos hdot]
      exact iff_of_true (fun name _ => ⟨h, rfl, .refl _⟩) trivial
    rw [if_neg hdot, if_neg hdot]
    cases args with
    | nil =>
      cases defaultOf p with
      | some d =>
        obtain ⟨name, d⟩ := d
        simp only
        rcases eval d f s with ⟨c | v, s'⟩
        · exact iff_of_true rfl trivial
        · exact ih h
      | none => cases symbolText p <;> rfl
    | cons a args =>
      obtain ⟨ha, hargs⟩ := List.forall_mem_cons.mp h
      have heq : orNil a = a := orNil_eq_self.mpr ha
      cases defaultOf p with
      | some d =>
        simp only [heq]
        exact ih hargs
      | none =>
        cases symbolText p with
        | some name =>
          simp only [heq]
          exact ih hargs
        | none => rfl

/-- `(fn ((a)) ...)`, which is never compiled. -/
def destructuring : Lambda ⟨fun _ => false, fun _ => false⟩ where
  header := .pair (.pair (.symbol (.ofBytes [97])) .null) .null
  params := [.pair (.symbol (.ofBytes [97])) .null]
  keys := none
  params_eq := rfl
  keys_eq := by
    intro ks h
    cases h

end Alcove.Params
