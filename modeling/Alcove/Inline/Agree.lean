import Alcove.Inline.Loops

/-!
# Both copies of the inline builtins

When the opcode of a builtin gives what the builtin gives (`Agrees`): both return, the same value or
an error of the same class, after the same calls of hooks and the same writes, in the same world. The
interpreter may have boxed an old value for watchers, which is garbage then.

The copies differ on an operand that is an error, which the builtins return and the opcodes only
reject by its type; on a number of cells and on an operand of `sqrt-int` that is no fixnum, and on
`abs` of NULL, where the classes differ; on `sqrt-int` of a negative fixnum; and on `vec-set!` of a
vector with hooks.

**Main result**: `agrees_iff_uniform`, with the exact condition `Uniform`.
-/

namespace Alcove.Inline

open Objects Lib

/-! ## Agreement -/

/-- What the caller is given. -/
inductive Outcome
  | value (p : Ptr)
  | error (c : ErrorClass)
  deriving DecidableEq

/-- A new error, or one that is returned, or a value. -/
def outcome (r : Run) : Outcome :=
  match r.ret with
  | .raise c => .error c
  | .ptr p =>
    match r.world.errorOf p with
    | some c => .error c
    | none => .value p

/-- The run `r` of the interpreter is one of compiled code, up to new objects. -/
structure SameRun (r r' : Run) : Prop where
  outcome : outcome r = outcome r'
  events : r.events = r'.events
  world : r'.world.Grows r.world

variable (call : Callback) (form : Form) (w : World)

/-- **Both copies return the same.** -/
def Agrees : Prop :=
  ∃ fuel r r', builtin call fuel form w = some r ∧ opcode fuel form w = some r' ∧ SameRun r r'

/-! ## The condition -/

/-- No operand is an error. -/
def NoError (w : World) (ps : List Ptr) : Prop := ps.find? w.isError = none

/-- The first operand that is an error, if there is one, is of a given class. -/
def FirstError (w : World) (ps : List Ptr) (c : ErrorClass) : Prop :=
  ∀ e, ps.find? w.isError = some e → w.errorOf e = some c

/-- The condition for `vec-set!`. -/
def UniformSet (w : World) (v i x : Ptr) : Prop :=
  match vecSetOperands v i w with
  | none => False
  | some (.error (.ptr _)) => False
  | some (.error (.raise c)) => FirstError w [v, i, x] c
  | some (.ok (j, n)) =>
    let storable := (w.vecSetBoxed (w.cellsAt j) (w.sharedAt j) n x).isSome
    if w.isError x then ¬ storable ∧ w.errorOf x = some .illegalValue
    else w.watched j → (w.watchFind j).bind Hooks.validator = none ∧ (storable → w.fns j = [])

/-- The condition for both copies to agree. -/
def Uniform (w : World) : Form → Prop
  | .cons a b => NoError w [a, b]
  | .car a => NoError w [a]
  | .cdr a => NoError w [a]
  | .list args => NoError w args
  | .vecRef v i => FirstError w [v, i] .illegalValue ∧
    ((w.vectorOf v).isSome → indexOf w i ≠ some none)
  | .vecSet v i x => UniformSet w v i x
  | .vecLen v => FirstError w [v] .illegalValue
  | .vec (.fix k) fill => w.isError fill → 2 ^ 31 ≤ k.1 ∧ w.errorOf fill = some .illegalValue
  | .vec n fill => ¬ NoError w [n, fill] ∧ FirstError w [n, fill] .illegalValue
  | .sqrtInt (.fix k) => 0 ≤ k.1
  | .sqrtInt n => w.errorOf n = some .illegalValue
  | .abs a => a ≠ .null ∧ FirstError w [a] .illegalValue
  | .max a b => FirstError w [a, b] .illegalValue
  | .min a b => FirstError w [a, b] .illegalValue
  | .length a => FirstError w [a] .illegalValue ∧ Ends w a

/-! ## Operands that are errors -/

section Operands

variable {call form w} {ps : List Ptr}

theorem SameRun.refl (r : Run) : SameRun r r := ⟨rfl, rfl, .refl _⟩

theorem evalArgs_of_noError {body : World → Option Run} (h : NoError w ps) :
    evalArgs ps body w = body w := by
  rw [evalArgs, h]

theorem evalArgs_of_error {body : World → Option Run} {e : Ptr} (h : ps.find? w.isError = some e) :
    evalArgs ps body w = done (.ptr e) w := by
  rw [evalArgs, h]

/-- An error that is returned, beside one that is raised. -/
theorem sameRun_error_iff {e : Ptr} {c : ErrorClass} :
    SameRun ⟨[], .ptr e, w⟩ ⟨[], .raise c, w⟩ ↔ w.errorOf e = some c := by
  constructor
  · intro h
    have hout := h.outcome
    simp only [outcome] at hout
    split at hout
    · rename_i c' hc
      cases hout
      exact hc
    · cases hout
  · intro h
    exact ⟨by simp [outcome, h], rfl, .refl w⟩

/-- Copies that differ in the test of the operands for errors only, where the common rest rejects
an error as it does any other type. -/
theorem agrees_iff_of_rejecting (ps : List Ptr) (body : ℕ → World → Option Run)
    (hb : ∀ fuel, builtin call fuel form = evalArgs ps (body fuel))
    (ho : ∀ fuel, opcode fuel form = body fuel)
    (hbody : ∀ fuel, ¬ NoError w ps → body fuel w = done (.raise .illegalValue) w) :
    Agrees call form w ↔ FirstError w ps .illegalValue ∧ (NoError w ps → ∃ fuel r, body fuel w = some r) := by
  cases hfind : ps.find? w.isError with
  | none =>
    constructor
    · rintro ⟨fuel, r, r', hr, hr', -⟩
      rw [ho] at hr'
      exact ⟨fun e he => by simp [hfind] at he, fun _ => ⟨fuel, r', hr'⟩⟩
    · rintro ⟨-, h⟩
      obtain ⟨fuel, r, hr⟩ := h hfind
      exact ⟨fuel, r, r, by rw [hb, evalArgs_of_noError hfind, hr], by rw [ho, hr], .refl r⟩
  | some e =>
    have hne : ¬ NoError w ps := by simp [NoError, hfind]
    constructor
    · rintro ⟨fuel, r, r', hr, hr', hsame⟩
      rw [hb, evalArgs_of_error hfind] at hr
      rw [ho, hbody fuel hne] at hr'
      cases hr
      cases hr'
      refine ⟨fun e' he' => ?_, fun h => absurd h hne⟩
      obtain rfl := Option.some.inj (hfind.symm.trans he')
      exact sameRun_error_iff.mp hsame
    · rintro ⟨h, -⟩
      exact ⟨0, _, _, by rw [hb, evalArgs_of_error hfind]; rfl, by rw [ho, hbody 0 hne]; rfl,
        sameRun_error_iff.mpr (h e hfind)⟩

/-- Copies that differ in the test of the operands for errors only, where the common rest makes a
value of any operands. -/
theorem agrees_iff_of_accepting (ps : List Ptr) (body : World → Option Run)
    (hb : ∀ fuel, builtin call fuel form = evalArgs ps body) (ho : ∀ fuel, opcode fuel form = body)
    {r : Run} (hr : body w = some r) (hbody : ∀ e, ps.find? w.isError = some e → ¬ SameRun ⟨[], .ptr e, w⟩ r) :
    Agrees call form w ↔ NoError w ps := by
  constructor
  · rintro ⟨fuel, r₁, r₂, hr₁, hr₂, hsame⟩
    cases hfind : ps.find? w.isError with
    | none => exact hfind
    | some e =>
      rw [hb, evalArgs_of_error hfind] at hr₁
      rw [ho, hr] at hr₂
      cases hr₁
      cases hr₂
      exact absurd hsame (hbody e hfind)
  · intro h
    exact ⟨0, r, r, by rw [hb, evalArgs_of_noError h, hr], by rw [ho, hr], .refl r⟩

theorem noError_iff : NoError w ps ↔ ∀ p ∈ ps, ¬ w.isError p := List.find?_eq_none

/-- An error is an object, of no other type. -/
theorem objAt_of_isError {p : Ptr} (h : w.isError p) : ∃ i c, p = .ref i ∧ w.objAt i = some (.error c) := by
  obtain ⟨c, hc⟩ := Option.isSome_iff_exists.mp h
  unfold World.errorOf at hc
  split at hc
  · rename_i c' hlook
    cases p with
    | ref i => exact ⟨i, c', rfl, hlook⟩
    | nil => cases hlook
    | t => cases hlook
    | _ => cases hlook
  · cases hc

theorem not_noError_singleton {a : Ptr} : ¬ NoError w [a] ↔ w.isError a := by
  simp [noError_iff]

theorem not_noError_pair {a b : Ptr} : ¬ NoError w [a, b] ↔ w.isError a ∨ w.isError b := by
  simp only [noError_iff, List.mem_cons, List.not_mem_nil, or_false, forall_eq_or_imp, forall_eq]
  exact not_and_or.trans (or_congr not_not not_not)

theorem vecGet_of_isError {v i : Ptr} (h : w.isError v ∨ w.isError i) :
    vecSetOperands v i w = some (.error (.raise .illegalValue)) := by
  unfold vecSetOperands
  rcases h with h | h <;> obtain ⟨j, c, rfl, hj⟩ := objAt_of_isError h
  · simp [World.vectorOf, World.look, hj]
  · cases w.vectorOf v <;> simp [indexOf, World.look, hj]

theorem alcNumlt_of_isError {a b : Ptr} (h : w.isError a ∨ w.isError b) : alcNumlt a b w = none := by
  rcases h with h | h <;> obtain ⟨j, c, rfl, hj⟩ := objAt_of_isError h
  · simp [alcNumlt, World.doubleOf, World.look, hj]
  · cases a <;> simp [alcNumlt, World.doubleOf, World.look, hj]

end Operands

/-! ## Lists -/

section Lists

variable {call w}

theorem length_store (i : ℕ) (o : Object) : (w.store i o).objs.length = w.objs.length := by
  simp [World.store]

theorem length_alloc (o : Object) : (w.alloc o).2.objs.length = w.objs.length + 1 := by
  simp [World.alloc]

theorem length_setNext (cur node : Ptr) : (setNext cur node w).objs.length = w.objs.length := by
  unfold setNext
  split
  · exact length_store _ _
  · rfl

theorem length_linkNodes (xs : List Ptr) (cur : Ptr) :
    (linkNodes cur xs w).objs.length = w.objs.length + xs.length := by
  induction xs generalizing cur w with
  | nil => rfl
  | cons x xs ih =>
    simp only [linkNodes]
    rw [ih, length_setNext, length_alloc, List.length_cons]
    omega

/-- The interpreter makes no object when it returns an error. -/
theorem not_sameRun_of_length {e : Ptr} {r : Run} (h : w.objs.length < r.world.objs.length) :
    ¬ SameRun ⟨[], .ptr e, w⟩ r := by
  intro hsame
  obtain ⟨-, es, hes, -⟩ := hsame.world
  have hlen : w.objs.length = (r.world.objs ++ es).length := congrArg List.length hes
  rw [List.length_append] at hlen
  omega

/-- A part of a pair is no error when the operand was one. -/
theorem not_sameRun_of_null {e : Ptr} (he : w.isError e) : ¬ SameRun ⟨[], .ptr e, w⟩ ⟨[], .ptr .null, w⟩ := by
  intro hsame
  obtain ⟨c, hc⟩ := Option.isSome_iff_exists.mp he
  have hnull : w.errorOf .null = none := rfl
  have hout := hsame.outcome
  simp [outcome, hc, hnull] at hout

theorem pairOf_of_isError {e : Ptr} (he : w.isError e) : w.pairOf e = none := by
  obtain ⟨j, c, rfl, hj⟩ := objAt_of_isError he
  simp [World.pairOf, World.look, hj]

theorem agrees_cons_iff (a b : Ptr) : Agrees call (.cons a b) w ↔ NoError w [a, b] := by
  refine agrees_iff_of_accepting _ (fun w => returning (consPair a b w)) (fun _ => rfl)
    (fun _ => rfl) rfl fun e _ => not_sameRun_of_length ?_
  rw [consPair, length_alloc]
  exact Nat.lt_succ_self _

theorem agrees_car_iff (a : Ptr) : Agrees call (.car a) w ↔ NoError w [a] := by
  refine agrees_iff_of_accepting _ (fun w => done (.ptr (w.car a)) w) (fun _ => rfl)
    (fun _ => rfl) rfl fun e he => ?_
  obtain rfl : e = a := List.mem_singleton.mp (List.mem_of_find?_eq_some he)
  have herr : w.isError e := List.find?_some he
  rw [World.car, pairOf_of_isError herr]
  exact not_sameRun_of_null herr

theorem agrees_cdr_iff (a : Ptr) : Agrees call (.cdr a) w ↔ NoError w [a] := by
  refine agrees_iff_of_accepting _ (fun w => done (.ptr (w.cdr a)) w) (fun _ => rfl)
    (fun _ => rfl) rfl fun e he => ?_
  obtain rfl : e = a := List.mem_singleton.mp (List.mem_of_find?_eq_some he)
  have herr : w.isError e := List.find?_some he
  rw [World.cdr, pairOf_of_isError herr]
  exact not_sameRun_of_null herr

theorem agrees_list_iff (args : List Ptr) : Agrees call (.list args) w ↔ NoError w args := by
  refine agrees_iff_of_accepting _ (fun w => returning (makeList args w)) (fun _ => rfl)
    (fun _ => rfl) rfl fun e he => ?_
  cases args with
  | nil => cases he
  | cons x xs =>
    refine not_sameRun_of_length ?_
    simp only [makeList]
    rw [length_linkNodes, length_alloc]
    omega

/-- The loop of `length` is the only part of it that may not end. -/
theorem lengthOf_isSome_iff (a : Ptr) : (∃ fuel r, lengthOf fuel a w = some r) ↔ Ends w a := by
  by_cases hnil : a = .null ∨ a = .nil
  · refine ⟨fun _ => ?_, fun _ => ⟨0, _, by rw [lengthOf, if_pos hnil]; rfl⟩⟩
    rcases hnil with rfl | rfl
    · exact .stop rfl
    · exact .next (show w.pairOf .nil = some (.null, .null) from rfl) (.stop rfl)
  · cases hp : w.pairOf a with
    | none =>
      refine ⟨fun _ => .stop hp, fun _ => ?_⟩
      rw [World.pairOf] at hp
      simp only [lengthOf, if_neg hnil]
      split
      case h_2 content next hlook => simp [hlook] at hp
      all_goals exact ⟨0, _, rfl⟩
    | some p =>
      have hlook : w.look a = some (.pair p.1 p.2) := by
        unfold World.pairOf at hp
        split at hp
        · rename_i hlook
          cases hp
          exact hlook
        · cases hp
      rw [← countPairs_iff]
      simp only [lengthOf, if_neg hnil, hlook]
      constructor
      · rintro ⟨fuel, r, hr⟩
        obtain ⟨n, hn, -⟩ := Option.bind_eq_some_iff.mp hr
        exact ⟨fuel, n, hn⟩
      · rintro ⟨fuel, n, hn⟩
        exact ⟨fuel, _, by rw [hn]; rfl⟩

theorem agrees_length_iff (a : Ptr) :
    Agrees call (.length a) w ↔ FirstError w [a] .illegalValue ∧ Ends w a := by
  rw [agrees_iff_of_rejecting [a] (fun fuel => lengthOf fuel a) (fun _ => rfl)
    (fun _ => rfl), lengthOf_isSome_iff]
  · refine and_congr_right fun _ => ⟨fun h => ?_, fun h _ => h⟩
    by_cases herr : NoError w [a]
    · exact h herr
    · exact .stop (pairOf_of_isError (not_noError_singleton.mp herr))
  · intro fuel hne
    obtain ⟨j, c, rfl, hj⟩ := objAt_of_isError (not_noError_singleton.mp hne)
    simp [lengthOf, World.look, hj]

end Lists

/-! ## Vectors and numbers -/

section Numbers

variable {call w} {form : Form} {ps : List Ptr}

theorem agrees_vecRef_iff (v i : Ptr) :
    Agrees call (.vecRef v i) w ↔
      FirstError w [v, i] .illegalValue ∧ ((w.vectorOf v).isSome → indexOf w i ≠ some none) := by
  rw [agrees_iff_of_rejecting [v, i] (fun _ => vecGet v i) (fun _ => rfl) (fun _ => rfl)
    fun _ hne => by rw [vecGet, vecGet_of_isError (not_noError_pair.mp hne)]; rfl]
  refine and_congr_right fun _ => ⟨fun h hv hi => ?_, fun h _ => ?_⟩
  · have hne : NoError w [v, i] := by
      by_contra hne
      rcases not_noError_pair.mp hne with herr | herr <;>
        obtain ⟨j, c, rfl, hj⟩ := objAt_of_isError herr
      · simp [World.vectorOf, World.look, hj] at hv
      · simp [indexOf, World.look, hj] at hi
    obtain ⟨-, r, hr⟩ := h hne
    obtain ⟨p, hp⟩ := Option.isSome_iff_exists.mp hv
    simp [vecGet, vecSetOperands, hp, hi] at hr
  · cases hops : vecSetOperands v i w with
    | none =>
      unfold vecSetOperands at hops
      split at hops
      · rename_i hv hi
        exact absurd (hi.trans (congrArg some (Option.map_eq_none_iff.mp hops))) (h (by simp [hv]))
      · cases hops
    | some o =>
      cases o with
      | error e => exact ⟨0, _, by rw [vecGet, hops]; rfl⟩
      | ok p => exact ⟨0, _, by rw [vecGet, hops]; rfl⟩

theorem agrees_vecLen_iff (v : Ptr) :
    Agrees call (.vecLen v) w ↔ FirstError w [v] .illegalValue := by
  rw [agrees_iff_of_rejecting [v] (fun _ => vecLength v) (fun _ => rfl) (fun _ => rfl)]
  · refine and_iff_left fun _ => ⟨0, ?_⟩
    unfold vecLength
    split <;> exact ⟨_, rfl⟩
  · intro _ hne
    obtain ⟨j, c, rfl, hj⟩ := objAt_of_isError (not_noError_singleton.mp hne)
    simp [vecLength, World.vectorOf, World.look, hj]

theorem agrees_max_iff (a b : Ptr) :
    Agrees call (.max a b) w ↔ FirstError w [a, b] .illegalValue := by
  rw [agrees_iff_of_rejecting [a, b] (fun _ => maxOf a b) (fun _ => rfl) (fun _ => rfl)]
  · refine and_iff_left fun _ => ⟨0, ?_⟩
    unfold maxOf
    split <;> exact ⟨_, rfl⟩
  · intro _ hne
    rw [maxOf, alcNumlt_of_isError (not_noError_pair.mp hne)]

theorem agrees_min_iff (a b : Ptr) :
    Agrees call (.min a b) w ↔ FirstError w [a, b] .illegalValue := by
  rw [agrees_iff_of_rejecting [a, b] (fun _ => minOf a b) (fun _ => rfl) (fun _ => rfl)]
  · refine and_iff_left fun _ => ⟨0, ?_⟩
    unfold minOf
    split <;> exact ⟨_, rfl⟩
  · intro _ hne
    rw [minOf, alcNumlt_of_isError (not_noError_pair.mp hne).symm]

theorem absOf_isSome (a : Ptr) : ∃ r, absOf a w = some r := by
  unfold absOf
  split
  · rename_i k
    by_cases hfit : k.1 < 0 ∧ !fixFits (if k.1 < 0 then -k.1 else k.1)
    · exact ⟨_, if_pos hfit⟩
    · exact ⟨_, if_neg hfit⟩
  · exact ⟨_, rfl⟩
  · exact ⟨_, rfl⟩

theorem agrees_abs_iff (a : Ptr) :
    Agrees call (.abs a) w ↔ a ≠ .null ∧ FirstError w [a] .illegalValue := by
  by_cases hnull : a = .null
  · subst hnull
    refine iff_of_false ?_ fun h => h.1 rfl
    rintro ⟨fuel, r, r', hr, hr', hsame⟩
    cases hr
    cases hr'
    exact absurd hsame.outcome (by simp [outcome])
  · rw [agrees_iff_of_rejecting [a] (fun _ => absOf a)
      (fun _ => by simp only [builtin, if_neg hnull]) (fun _ => rfl)]
    · exact ⟨fun h => ⟨hnull, h.1⟩, fun h => ⟨h.2, fun _ => ⟨0, absOf_isSome a⟩⟩⟩
    · intro _ hne
      obtain ⟨j, c, rfl, hj⟩ := objAt_of_isError (not_noError_singleton.mp hne)
      simp [absOf, World.look, hj]

/-! ### `sqrt-int` and `vec` -/

theorem outcome_value_fix {ev : List Event} (n : Fixnum) : outcome ⟨ev, .ptr (.fix n), w⟩ = .value (.fix n) := rfl

theorem noError_fix (k : Fixnum) : NoError w [.fix k] := rfl

theorem agrees_sqrtInt_fix_iff (k : Fixnum) : Agrees call (.sqrtInt (.fix k)) w ↔ 0 ≤ k.1 := by
  obtain ⟨hlo, hhi⟩ := k.2
  norm_num at hlo hhi
  constructor
  · rintro ⟨fuel, r, r', hr, hr', hsame⟩
    by_contra hneg
    rw [not_le] at hneg
    simp only [builtin, evalArgs_of_noError (noError_fix k), if_pos hneg] at hr
    simp only [opcode, if_pos hneg] at hr'
    obtain ⟨s, hs, hr'⟩ := Option.bind_eq_some_iff.mp hr'
    cases hr
    cases hr'
    have hout := hsame.outcome
    rw [outcome_value_fix, outcome_value_fix] at hout
    have heq : makeFix 0 = makeFix s := Ptr.fix.inj (Outcome.value.inj hout)
    exact sqrtLoops_neg hneg (by omega) hs heq.symm
  · intro h
    obtain ⟨fuel, hroot⟩ := sqrtLoops_eq h (by omega) (Int.natCast_nonneg _) (sqrtEstimate_lt k.1)
    have hneg : ¬ k.1 < 0 := not_lt.mpr h
    let r : Run := ⟨[], .ptr (.fix (makeFix (k.1.toNat.sqrt : ℤ))), w⟩
    refine ⟨fuel, r, r, ?_, ?_, .refl r⟩
    · simp only [builtin, evalArgs_of_noError (noError_fix k), if_neg hneg, hroot]
      rfl
    · simp only [opcode, if_neg hneg, hroot]
      rfl

/-- Copies of which one only returns errors and the other raises one. -/
theorem agrees_iff_of_raising {c : ErrorClass}
    (hb : ∀ fuel, builtin call fuel form = evalArgs ps (done (.raise c)))
    (ho : ∀ fuel, opcode fuel form w = done (.raise .illegalValue) w) (hc : c ≠ .illegalValue) :
    Agrees call form w ↔ ¬ NoError w ps ∧ FirstError w ps .illegalValue := by
  cases hfind : ps.find? w.isError with
  | none =>
    refine iff_of_false ?_ fun h => h.1 hfind
    rintro ⟨fuel, r, r', hr, hr', hsame⟩
    rw [hb, evalArgs_of_noError hfind] at hr
    rw [ho] at hr'
    cases hr
    cases hr'
    exact hc (Outcome.error.inj hsame.outcome)
  | some e =>
    have hne : ¬ NoError w ps := by simp [NoError, hfind]
    constructor
    · rintro ⟨fuel, r, r', hr, hr', hsame⟩
      rw [hb, evalArgs_of_error hfind] at hr
      rw [ho] at hr'
      cases hr
      cases hr'
      refine ⟨hne, fun e' he' => ?_⟩
      obtain rfl := Option.some.inj (hfind.symm.trans he')
      exact sameRun_error_iff.mp hsame
    · rintro ⟨-, h⟩
      exact ⟨0, _, _, by rw [hb, evalArgs_of_error hfind]; rfl, by rw [ho]; rfl,
        sameRun_error_iff.mpr (h e hfind)⟩

theorem firstError_singleton {n : Ptr} {c : ErrorClass} :
    ¬ NoError w [n] ∧ FirstError w [n] c ↔ w.errorOf n = some c := by
  rw [not_noError_singleton]
  constructor
  · rintro ⟨herr, h⟩
    exact h n (by simp [herr])
  · intro h
    refine ⟨by simp [World.isError, h], fun e he => ?_⟩
    obtain rfl : e = n := List.mem_singleton.mp (List.mem_of_find?_eq_some he)
    exact h

theorem agrees_sqrtInt_iff (n : Ptr) : Agrees call (.sqrtInt n) w ↔ Uniform w (.sqrtInt n) := by
  cases n
  case fix k => exact agrees_sqrtInt_fix_iff k
  all_goals
    exact (agrees_iff_of_raising (fun _ => rfl) (fun _ => rfl) (by decide)).trans firstError_singleton

theorem vecNew_isSome (n : ℤ) (fill : Ptr) : ∃ r, vecNew n fill w = some r := by
  unfold vecNew
  split <;> exact ⟨_, rfl⟩

/-- A vector is made of an error, unless it has too many cells. -/
theorem vecNew_of_isError {n : ℤ} {fill : Ptr} (h : w.isError fill) :
    2 ^ 31 ≤ n ∧ vecNew n fill w = done (.raise .illegalValue) w ∨
      n < 2 ^ 31 ∧ ∃ r, vecNew n fill w = some r ∧ w.objs.length < r.world.objs.length := by
  obtain ⟨j, c, rfl, hj⟩ := objAt_of_isError h
  by_cases hn : 2 ^ 31 ≤ n
  · have hcells : (if n < 0 then 0 else n) < 0 ∨ 2 ^ 31 ≤ if n < 0 then 0 else n := by
      rw [if_neg (by omega)]
      exact .inr hn
    exact .inl ⟨hn, by simp only [vecNew, makeVector, if_pos hcells]⟩
  · have hcells : ¬ ((if n < 0 then 0 else n) < 0 ∨ 2 ^ 31 ≤ if n < 0 then 0 else n) := by
      split <;> omega
    obtain ⟨o, ho⟩ : ∃ o, makeVector (if n < 0 then 0 else n) (.ref j) w = some (w.alloc o) :=
      ⟨.vector (.gen (.replicate (if n < 0 then 0 else n).toNat (.ref j))) false,
        by simp only [makeVector, if_neg hcells, World.look, hj]⟩
    refine .inr ⟨by omega, ⟨[], .ptr (w.alloc o).1, (w.alloc o).2⟩, by rw [vecNew, ho]; rfl, ?_⟩
    rw [length_alloc]
    exact Nat.lt_succ_self _

theorem find_fix_pair {k : Fixnum} {fill e : Ptr} (h : [.fix k, fill].find? w.isError = some e) :
    w.isError fill ∧ e = fill := by
  have hbad : w.isError e := List.find?_some h
  rcases List.mem_cons.mp (List.mem_of_find?_eq_some h) with rfl | hmem
  · cases hbad
  · obtain rfl := List.mem_singleton.mp hmem
    exact ⟨hbad, rfl⟩

theorem noError_fix_pair {k : Fixnum} {fill : Ptr} : NoError w [.fix k, fill] ↔ ¬ w.isError fill := by
  constructor
  · exact fun h => noError_iff.mp h fill (by simp)
  · intro h
    by_contra hne
    rcases not_noError_pair.mp hne with herr | herr
    · cases herr
    · exact h herr

theorem agrees_vec_fix_iff (k : Fixnum) (fill : Ptr) :
    Agrees call (.vec (.fix k) fill) w ↔ Uniform w (.vec (.fix k) fill) := by
  by_cases hlarge : w.isError fill → 2 ^ 31 ≤ k.1
  · rw [agrees_iff_of_rejecting [.fix k, fill] (fun _ => vecNew k.1 fill)
      (fun _ => rfl) (fun _ => rfl)]
    · constructor
      · rintro ⟨h, -⟩ hfill
        obtain ⟨e, he⟩ := Option.ne_none_iff_exists'.mp fun h => noError_fix_pair.mp h hfill
        obtain ⟨-, rfl⟩ := find_fix_pair he
        exact ⟨hlarge hfill, h e he⟩
      · intro h
        refine ⟨fun e he => ?_, fun _ => ⟨0, vecNew_isSome k.1 fill⟩⟩
        obtain ⟨hfill, rfl⟩ := find_fix_pair he
        exact (h hfill).2
    · intro _ hne
      have hfill : w.isError fill := by simpa using mt noError_fix_pair.mpr hne
      obtain ⟨-, h⟩ | ⟨hlt, -⟩ := vecNew_of_isError (n := k.1) hfill
      · exact h
      · exact absurd (hlarge hfill) (not_le.mpr hlt)
  · obtain ⟨hfill, hk⟩ := Classical.not_imp.mp hlarge
    obtain ⟨hle, -⟩ | ⟨-, r, hr, hlen⟩ := vecNew_of_isError (n := k.1) hfill
    · exact absurd hle hk
    · rw [agrees_iff_of_accepting [.fix k, fill] (vecNew k.1 fill) (fun _ => rfl)
        (fun _ => rfl) hr fun e _ => not_sameRun_of_length hlen, noError_fix_pair]
      exact iff_of_false (fun h => h hfill) fun h => hk (h hfill).1

theorem agrees_vec_iff (n fill : Ptr) : Agrees call (.vec n fill) w ↔ Uniform w (.vec n fill) := by
  cases n
  case fix k => exact agrees_vec_fix_iff k fill
  all_goals exact agrees_iff_of_raising (fun _ => rfl) (fun _ => rfl) (by decide)

end Numbers

/-! ## `vec-set!` -/

section Set

variable {call w} {v i x : Ptr}

theorem vecSet_eq_evalArgs : vecSet call v i x w = evalArgs [v, i, x] (fun w =>
    (vecSetOperands v i w).bind fun
      | .error e => done e w
      | .ok (j, n) =>
        if w.watched j then validating call j .vecSet i x (storeCell j n x (vecSet.notify call i x j n)) w
        else storeCell j n x (fun _ => done (.ptr x)) w) w := by
  unfold vecSet evalArgs
  cases hv : w.isError v <;> cases hi : w.isError i <;> cases hx : w.isError x <;>
    simp only [hv, hi, hx, List.find?_cons, List.find?_nil, if_true, if_false, Bool.false_eq_true] <;>
    rfl

theorem vecSetOperands_error {e : Ret} (h : vecSetOperands v i w = some (.error e)) :
    ∃ c, e = .raise c := by
  unfold vecSetOperands at h
  split at h
  · obtain ⟨idx, -, hidx⟩ := Option.map_eq_some_iff.mp h
    split at hidx
    · cases hidx
    · cases hidx
      exact ⟨_, rfl⟩
  · cases h
    exact ⟨_, rfl⟩

theorem vecSetOperands_lt {j n : ℕ} (h : vecSetOperands v i w = some (.ok (j, n))) :
    n < (w.cellsAt j).length := by
  unfold vecSetOperands at h
  split at h
  · obtain ⟨idx, -, hidx⟩ := Option.map_eq_some_iff.mp h
    split at hidx
    · rename_i hrange
      cases hidx
      unfold inRange at hrange
      split at hrange
      · cases hrange
        omega
      · cases hrange
    · cases hidx
  · cases h

theorem vecSetOperands_noError {j n : ℕ} (h : vecSetOperands v i w = some (.ok (j, n))) :
    [v, i, x].find? w.isError = if w.isError x then some x else none := by
  have hne : ¬ (w.isError v ∨ w.isError i) := by
    intro herr
    rw [vecGet_of_isError herr] at h
    cases h
  obtain ⟨hv, hi⟩ := not_or.mp hne
  cases hx : w.isError x <;> simp [hv, hi, hx]

variable {j n : ℕ} {next : World → World → Option Run}

theorem storeCell_of_not_storable (hn : n < (w.cellsAt j).length)
    (h : ¬ (w.vecSetBoxed (w.cellsAt j) (w.sharedAt j) n x).isSome) :
    storeCell j n x next w = done (.raise .illegalValue) w := by
  rw [storeCell, if_neg (not_le.mpr hn), Option.not_isSome_iff_eq_none.mp h]

theorem storeCell_of_storable (hn : n < (w.cellsAt j).length) {cells : Cells} {w' : World}
    (h : w.vecSetBoxed (w.cellsAt j) (w.sharedAt j) n x = some (cells, w')) :
    storeCell j n x next w =
      (next w (w'.store j (.vector cells (w.sharedAt j)))).map
        (Run.after [.wrote j (.vector cells (w.sharedAt j))]) := by
  rw [storeCell, if_neg (not_le.mpr hn), h]
  rfl

/-- Hooks are called before anything else that the builtin does. -/
theorem notifyLoop_events {tab : ℕ} {c : Call} {fns : List (ℕ × Ptr)} {ev : List Event}
    {err : Option Ptr} {w' : World} (hfns : fns ≠ [])
    (h : notifyLoop call j tab c fns w = some (ev, err, w')) : ∃ fn r tail, ev = .called fn c r :: tail := by
  cases fns with
  | nil => exact absurd rfl hfns
  | cons p fns =>
    simp only [notifyLoop] at h
    split at h
    · cases h
      exact ⟨_, _, _, rfl⟩
    · split at h
      · cases h
      · split at h
        · cases h
          exact ⟨_, _, _, rfl⟩
        · split at h
          · obtain ⟨⟨ev', err', w''⟩, -, heq⟩ := Option.map_eq_some_iff.mp h
            cases heq
            exact ⟨_, _, _, rfl⟩
          · cases h

theorem notifying_of_no_fns (hfns : w.fns j = []) (op : Op) (k old nw : Ptr) (ret : Ret) :
    notifying call j op k old nw ret w = some ⟨[], ret, w⟩ := by
  rw [notifying, watchNotify, if_pos hfns]
  rfl

theorem notifying_events {op : Op} {k old nw : Ptr} {ret : Ret} {r : Run} (hfns : w.fns j ≠ [])
    (h : notifying call j op k old nw ret w = some r) : r.events ≠ [] := by
  rw [notifying, watchNotify, if_neg hfns] at h
  obtain ⟨⟨ev, err, w'⟩, hev, rfl⟩ := Option.map_eq_some_iff.mp h
  obtain ⟨⟨ev', err', w''⟩, hloop, heq⟩ := Option.map_eq_some_iff.mp hev
  cases heq
  obtain ⟨fn, r, tail, rfl⟩ := notifyLoop_events hfns hloop
  exact List.cons_ne_nil _ _

theorem validating_of_no_validator {next : World → Option Run} (op : Op) (k nw : Ptr)
    (h : (w.watchFind j).bind Hooks.validator = none) :
    validating call j op k nw next w = next w := by
  rw [validating, watchValidate, h]
  change (next w).map (Run.after []) = next w
  cases next w <;> rfl

theorem validating_events {next : World → Option Run} {op : Op} {k nw fn : Ptr} {r : Run}
    (hfn : (w.watchFind j).bind Hooks.validator = some fn)
    (h : validating call j op k nw next w = some r) : ∃ c reply tail, r.events = .called fn c reply :: tail := by
  rw [validating, watchValidate, hfn] at h
  simp only at h
  generalize rejection _ _ = rej at h
  cases rej with
  | some err =>
    cases h
    exact ⟨_, _, _, rfl⟩
  | none =>
    obtain ⟨r', -, rfl⟩ := Option.map_eq_some_iff.mp h
    exact ⟨_, _, _, rfl⟩

theorem errorOf_alloc {o : Object} (h : ∀ c, o ≠ .error c) (p : Ptr) :
    (w.alloc o).2.errorOf p = w.errorOf p := by
  cases p with
  | ref k =>
    simp only [World.errorOf, World.look, World.objAt, World.alloc]
    by_cases hk : k < w.objs.length
    · rw [List.getElem?_append_left hk]
    · rw [List.getElem?_append_right (by omega), List.getElem?_eq_none (l := w.objs) (by omega)]
      cases k - w.objs.length with
      | zero =>
        cases o <;> simp at h ⊢
      | succ m => rfl
  | _ => rfl

theorem errorOf_vecGetBoxed (cells : Cells) (p : Ptr) :
    (w.vecGetBoxed cells n).2.errorOf p = w.errorOf p := by
  cases cells with
  | gen cells => rfl
  | i64 cells =>
    simp only [World.vecGetBoxed]
    split
    · rfl
    · exact errorOf_alloc (fun c => by simp) p
  | f64 cells => exact errorOf_alloc (fun c => by simp) p

/-- A write with its notification, when there is nobody to notify. -/
theorem notify_of_no_fns (call : Callback) (i x : Ptr) (n : ℕ) (before : World) (hfns : w.fns j = []) :
    ∃ r, vecSet.notify call i x j n before w = some r ∧ SameRun r ⟨[], .ptr x, w⟩ := by
  have hgrows := World.grows_vecGetBoxed w (before.cellsAt j) n
  refine ⟨⟨[], .ptr x, (w.vecGetBoxed (before.cellsAt j) n).2⟩, ?_, ?_, rfl, hgrows⟩
  · have hfns' : (w.vecGetBoxed (before.cellsAt j) n).2.fns j = [] := (hgrows.fns j).trans hfns
    exact notifying_of_no_fns hfns' _ _ _ _ _
  · simp only [outcome, errorOf_vecGetBoxed]

theorem notify_events {before : World} {r : Run} (hfns : w.fns j ≠ [])
    (h : vecSet.notify call i x j n before w = some r) : r.events ≠ [] := by
  have hgrows := World.grows_vecGetBoxed w (before.cellsAt j) n
  have hfns' : (w.vecGetBoxed (before.cellsAt j) n).2.fns j ≠ [] := (hgrows.fns j).symm ▸ hfns
  exact notifying_events hfns' h

/-- A write that both make. -/
theorem SameRun.after {r r' : Run} (h : SameRun r r') (ev : List Event) :
    SameRun (r.after ev) (r'.after ev) :=
  ⟨h.outcome, congrArg (ev ++ ·) h.events, h.world⟩

/-- The opcode calls no hook. -/
theorem lVecSet_events {r : Run} (hops : vecSetOperands v i w = some (.ok (j, n)))
    (h : lVecSet v i x w = some r) : ∀ c reply fn tail, r.events ≠ .called fn c reply :: tail := by
  intro c reply fn tail hev
  have hn := vecSetOperands_lt hops
  rw [lVecSet, hops] at h
  change storeCell j n x (fun _ => done (.ptr x)) w = some r at h
  cases hset : w.vecSetBoxed (w.cellsAt j) (w.sharedAt j) n x with
  | none =>
    rw [storeCell_of_not_storable hn (by simp [hset])] at h
    cases h
    cases hev
  | some p =>
    rw [storeCell_of_storable hn hset] at h
    cases h
    cases hev

/-- The operands pass the tests, and none is an error. -/
theorem agrees_vecSet_ok_iff (hops : vecSetOperands v i w = some (.ok (j, n))) (hx : ¬ w.isError x) :
    Agrees call (.vecSet v i x) w ↔ (w.watched j →
      (w.watchFind j).bind Hooks.validator = none ∧
        ((w.vecSetBoxed (w.cellsAt j) (w.sharedAt j) n x).isSome → w.fns j = [])) := by
  have hn := vecSetOperands_lt hops
  have hfind : NoError w [v, i, x] := by
    rw [NoError, vecSetOperands_noError hops, if_neg hx]
  have hb : ∀ fuel, builtin call fuel (.vecSet v i x) w =
      if w.watched j then validating call j .vecSet i x (storeCell j n x (vecSet.notify call i x j n)) w
      else storeCell j n x (fun _ => done (.ptr x)) w := by
    intro fuel
    rw [builtin, vecSet_eq_evalArgs, evalArgs_of_noError hfind, hops]
    rfl
  have ho : ∀ fuel, opcode fuel (.vecSet v i x) w = storeCell j n x (fun _ => done (.ptr x)) w := by
    intro fuel
    rw [opcode, lVecSet, hops]
    rfl
  constructor
  · rintro ⟨fuel, r, r', hr, hr', hsame⟩ hw
    rw [hb, if_pos hw] at hr
    cases hval : (w.watchFind j).bind Hooks.validator with
    | some fn =>
      obtain ⟨c, reply, tail, hev⟩ := validating_events hval hr
      exact absurd (hsame.events.symm.trans hev) (lVecSet_events hops hr' c reply fn tail)
    | none =>
      refine ⟨rfl, fun hset => ?_⟩
      by_contra hfns
      obtain ⟨⟨cells, w'⟩, hset⟩ := Option.isSome_iff_exists.mp hset
      rw [validating_of_no_validator _ _ _ hval, storeCell_of_storable hn hset] at hr
      rw [ho, storeCell_of_storable hn hset] at hr'
      obtain ⟨r₁, hr₁, rfl⟩ := Option.map_eq_some_iff.mp hr
      cases hr'
      have hfns' : (w'.store j (.vector cells (w.sharedAt j))).fns j ≠ [] := by
        rw [World.fns_store, (World.grows_vecSetBoxed hset).fns]
        exact hfns
      have hev : r₁.events = [] := List.append_cancel_left hsame.events
      exact notify_events hfns' hr₁ hev
  · intro h
    cases hset : w.vecSetBoxed (w.cellsAt j) (w.sharedAt j) n x with
    | none =>
      have hstore : ∀ next, storeCell j n x next w = done (.raise .illegalValue) w := fun next =>
        storeCell_of_not_storable hn (by simp [hset])
      refine ⟨0, _, _, ?_, by rw [ho, hstore]; rfl, .refl _⟩
      rw [hb]
      split
      · rename_i hw
        rw [validating_of_no_validator _ _ _ (h hw).1, hstore]
        rfl
      · rw [hstore]
        rfl
    | some p =>
      obtain ⟨cells, w'⟩ := p
      by_cases hw : w.watched j
      · obtain ⟨hval, hfns⟩ := h hw
        have hfns' : (w'.store j (.vector cells (w.sharedAt j))).fns j = [] := by
          rw [World.fns_store, (World.grows_vecSetBoxed hset).fns]
          exact hfns (by simp [hset])
        obtain ⟨r, hr, hsame⟩ := notify_of_no_fns call i x n w hfns'
        refine ⟨0, _, _, ?_, ?_, hsame.after [.wrote j (.vector cells (w.sharedAt j))]⟩
        · rw [hb, if_pos hw, validating_of_no_validator _ _ _ hval, storeCell_of_storable hn hset, hr]
          rfl
        · rw [ho, storeCell_of_storable hn hset]
          rfl
      · refine ⟨0, _, _, ?_, ?_, .refl ((⟨[], .ptr x, w'.store j (.vector cells (w.sharedAt j))⟩ : Run).after
          [.wrote j (.vector cells (w.sharedAt j))])⟩
        · rw [hb, if_neg hw, storeCell_of_storable hn hset]
          rfl
        · rw [ho, storeCell_of_storable hn hset]
          rfl

/-- The opcode rejects the vector or the index. -/
theorem agrees_vecSet_error_iff {c : ErrorClass}
    (hops : vecSetOperands v i w = some (.error (.raise c))) :
    Agrees call (.vecSet v i x) w ↔ FirstError w [v, i, x] c := by
  have ho : ∀ fuel, opcode fuel (.vecSet v i x) w = some ⟨[], .raise c, w⟩ := by
    intro fuel
    rw [opcode, lVecSet, hops]
    rfl
  cases hfind : [v, i, x].find? w.isError with
  | none =>
    refine iff_of_true ⟨0, _, _, ?_, ho 0, .refl _⟩ fun e he => by simp [hfind] at he
    rw [builtin, vecSet_eq_evalArgs, evalArgs_of_noError hfind, hops]
    rfl
  | some e =>
    have hb : ∀ fuel, builtin call fuel (.vecSet v i x) w = some ⟨[], .ptr e, w⟩ := by
      intro fuel
      rw [builtin, vecSet_eq_evalArgs, evalArgs_of_error hfind]
      rfl
    constructor
    · rintro ⟨fuel, r, r', hr, hr', hsame⟩ e' he'
      obtain rfl := Option.some.inj (hfind.symm.trans he')
      obtain rfl := Option.some.inj ((hb fuel).symm.trans hr)
      obtain rfl := Option.some.inj ((ho fuel).symm.trans hr')
      exact sameRun_error_iff.mp hsame
    · exact fun h => ⟨0, _, _, hb 0, ho 0, sameRun_error_iff.mpr (h e hfind)⟩

/-- The value is an error, which the opcode stores. -/
theorem agrees_vecSet_value_iff (hops : vecSetOperands v i w = some (.ok (j, n))) (hx : w.isError x) :
    Agrees call (.vecSet v i x) w ↔
      ¬ (w.vecSetBoxed (w.cellsAt j) (w.sharedAt j) n x).isSome ∧ w.errorOf x = some .illegalValue := by
  have hn := vecSetOperands_lt hops
  have hfind : [v, i, x].find? w.isError = some x := by rw [vecSetOperands_noError hops, if_pos hx]
  have hb : ∀ fuel, builtin call fuel (.vecSet v i x) w = some ⟨[], .ptr x, w⟩ := by
    intro fuel
    rw [builtin, vecSet_eq_evalArgs, evalArgs_of_error hfind]
    rfl
  have ho : ∀ fuel, opcode fuel (.vecSet v i x) w = storeCell j n x (fun _ => done (.ptr x)) w := by
    intro fuel
    rw [opcode, lVecSet, hops]
    rfl
  cases hset : w.vecSetBoxed (w.cellsAt j) (w.sharedAt j) n x with
  | none =>
    have ho' : ∀ fuel, opcode fuel (.vecSet v i x) w = some ⟨[], .raise .illegalValue, w⟩ := by
      intro fuel
      rw [ho, storeCell_of_not_storable hn (by simp [hset])]
      rfl
    constructor
    · rintro ⟨fuel, r, r', hr, hr', hsame⟩
      obtain rfl := Option.some.inj ((hb fuel).symm.trans hr)
      obtain rfl := Option.some.inj ((ho' fuel).symm.trans hr')
      exact ⟨by simp, sameRun_error_iff.mp hsame⟩
    · exact fun h => ⟨0, _, _, hb 0, ho' 0, sameRun_error_iff.mpr h.2⟩
  | some p =>
    refine iff_of_false ?_ fun h => h.1 (by simp)
    rintro ⟨fuel, r, r', hr, hr', hsame⟩
    obtain rfl := Option.some.inj ((hb fuel).symm.trans hr)
    rw [ho, storeCell_of_storable hn hset] at hr'
    cases hr'
    cases hsame.events

theorem agrees_vecSet_iff : Agrees call (.vecSet v i x) w ↔ UniformSet w v i x := by
  rw [UniformSet]
  cases hops : vecSetOperands v i w with
  | none =>
    refine iff_of_false ?_ id
    rintro ⟨fuel, r, r', -, hr', -⟩
    rw [opcode, lVecSet, hops] at hr'
    cases hr'
  | some o =>
    cases o with
    | error e =>
      obtain ⟨c, rfl⟩ := vecSetOperands_error hops
      exact agrees_vecSet_error_iff hops
    | ok p =>
      obtain ⟨j, n⟩ := p
      by_cases hx : w.isError x
      · simp only [hx, if_true]
        exact agrees_vecSet_value_iff hops hx
      · simp only [hx, if_false, Bool.false_eq_true]
        exact agrees_vecSet_ok_iff hops hx

end Set

/-! ## Main result -/

/-- **The copies of an inline builtin agree on operands exactly when `Uniform` holds of them.** -/
theorem agrees_iff_uniform (call : Callback) (form : Form) (w : World) :
    Agrees call form w ↔ Uniform w form := by
  cases form with
  | cons a b => exact agrees_cons_iff a b
  | car a => exact agrees_car_iff a
  | cdr a => exact agrees_cdr_iff a
  | list args => exact agrees_list_iff args
  | vecRef v i => exact agrees_vecRef_iff v i
  | vecSet v i x => exact agrees_vecSet_iff
  | vecLen v => exact agrees_vecLen_iff v
  | vec n fill => exact agrees_vec_iff n fill
  | sqrtInt n => exact agrees_sqrtInt_iff n
  | abs a => exact agrees_abs_iff a
  | max a b => exact agrees_max_iff a b
  | min a b => exact agrees_min_iff a b
  | length a => exact agrees_length_iff a

/-- `(vec t nil)`: the interpreter expects a number, the opcode finds an illegal value. -/
theorem vec_not_uniform : ¬ ∀ call form w, Agrees call form w := by
  intro h
  obtain ⟨fuel, r, r', hr, hr', hsame⟩ :=
    h (fun _ _ w => (.nil, w)) (.vec .t .nil) ⟨[], 0⟩
  cases hr
  cases hr'
  cases hsame.outcome

end Alcove.Inline
