import Alcove.Codegen.Extends

/-!
# The rollback of an attempt

An attempt only adds to the code, the constants and the names above the slots in use, so cutting the code and
the constants back restores both (`within_plan`). The number of slots and the depth of a `let` are given back
by the functions that take them, and a `return` from inside keeps them.

**Main result:** `rollback_restores`. The compiler is as before the attempt exactly if no `return` left a
scope that the attempt opened.
-/

namespace Alcove.Codegen

open Params Template

variable {W : Type} {ctx : Context W}

/-! ## The places of a plan -/

namespace Plan

attribute [simp] Within

variable {b m : ℕ}

@[simp]
theorem within_emitI16 (v : ℤ) (k : Plan) : (emitI16 v k).Within b m ↔ k.Within b m := by simp [emitI16]

@[simp]
theorem within_hole (k : ℕ → Plan) : (hole k).Within b m ↔ ∀ n, b ≤ n → (k n).Within b m := by simp [hole]

@[simp]
theorem within_loadConst (v : Exp) (k : Plan) : (loadConst v k).Within b m ↔ k.Within b m := by
  simp [loadConst]

@[simp]
theorem within_bindNamed (slot : ℕ) (var : Exp) (k : Plan) :
    (bindNamed slot var k).Within b m ↔ k.Within b m := by simp [bindNamed]

@[simp]
theorem within_unbind (start n : ℕ) (k : Plan) : (unbind start n k).Within b m ↔ k.Within b m := by
  induction n with
  | zero => rfl
  | succ n ih => simp [unbind, ih]

theorem within_patchAll (target : ℕ) {patches : List ℕ} (h : ∀ pos ∈ patches, b ≤ pos) :
    (patchAll target patches).Within b m := by
  induction patches with
  | nil => trivial
  | cons pos rest ih => exact ⟨h pos List.mem_cons_self, ih fun p hp => h p (List.mem_cons_of_mem _ hp)⟩

@[simp]
theorem within_bodySeq (tail : Bool) (k : Plan) (es : List Exp) :
    (compileBodySeq tail k es).Within b m ↔ k.Within b m := by
  induction es with
  | nil => simp [compileBodySeq]
  | cons e rest ih => cases rest <;> simp_all [compileBodySeq]

@[simp]
theorem within_args (k : Plan) (es : List Exp) : (compileArgs k es).Within b m ↔ k.Within b m := by
  induction es with
  | nil => rfl
  | cons e rest ih => simp [compileArgs, ih]

@[simp]
theorem within_unless {P : Prop} [Decidable P] (k : Plan) :
    (if P then .fail else k).Within b m ↔ ¬P → k.Within b m := by
  split_ifs with hp <;> simp [hp]

theorem within_ite {P : Prop} [Decidable P] {p k : Plan} (hp : p.Within b m) (hk : k.Within b m) :
    (if P then p else k).Within b m := by
  split_ifs
  · exact hp
  · exact hk

theorem within_if (form : Exp) (tail : Bool) : (compileIf form tail).Within b m := by
  unfold compileIf
  dsimp only
  split_ifs
  · trivial
  · simp +contextual
  · simp +contextual

theorem within_whenUnless (form : Exp) (tail negate : Bool) :
    (compileWhenUnless form tail negate).Within b m := by
  unfold compileWhenUnless
  dsimp only
  split_ifs <;> simp +contextual

theorem mem_append_hole {patches : List ℕ} (h : ∀ pos ∈ patches, b ≤ pos) {n : ℕ} (hn : b ≤ n) :
    ∀ pos ∈ patches ++ [n], b ≤ pos := by
  simpa [or_imp, forall_and] using ⟨h, hn⟩

theorem within_operands (isOr tail : Bool) {patches : List ℕ} (h : ∀ pos ∈ patches, b ≤ pos) (es : List Exp) :
    (compileOperands isOr tail patches es).Within b m := by
  fun_induction compileOperands isOr tail patches es with
  | case1 => trivial
  | case2 patches e => simpa using fun _ _ => within_patchAll _ h
  | case3 patches e rest hne ih => simpa using fun _ n hn => ih n (mem_append_hole h hn)

theorem within_clauses (tail : Bool) {patches : List ℕ} (h : ∀ pos ∈ patches, b ≤ pos) (es : List Exp) :
    (compileClauses tail patches es).Within b m := by
  fun_induction compileClauses tail patches es with
  | case1 patches => simpa using fun _ _ => within_patchAll _ h
  | case2 patches e => simpa using fun _ _ => within_patchAll _ h
  | case3 patches test e rest ih =>
    simpa using fun _ hb _ n hn _ _ => ⟨hb, ih n (mem_append_hole h hn)⟩

theorem within_values (tail : Bool) {patches : List ℕ} (h : ∀ pos ∈ patches, b ≤ pos) (es : List Exp) :
    (compileValues tail patches es).Within b m := by
  fun_induction compileValues tail patches es with
  | case1 patches => simpa using fun _ _ => within_patchAll _ h
  | case2 patches e => simpa using fun _ _ => within_patchAll _ h
  | case3 patches v e rest ih =>
    simpa using fun _ hb _ n hn _ _ => ⟨hb, ih n (mem_append_hole h hn)⟩

theorem within_andOr (form : Exp) (tail isOr : Bool) : (compileAndOr form tail isOr).Within b m := by
  unfold compileAndOr
  split
  · simp
  · exact within_operands isOr tail (List.forall_mem_nil _) _

theorem within_cond (form : Exp) (tail : Bool) : (compileCond form tail).Within b m := by
  unfold compileCond
  split_ifs
  · simp
  · exact within_clauses tail (List.forall_mem_nil _) _

theorem within_case (form : Exp) (tail : Bool) : (compileCase form tail).Within b m := by
  unfold compileCase
  split_ifs
  · trivial
  · exact within_values tail (List.forall_mem_nil _) _

/-! ## The places of the forms that bind -/

theorem within_vals {k : Plan} (hk : k.Within b m) (pairs : List (Exp × Exp)) :
    (compileVals k pairs).Within b m := by
  induction pairs with
  | nil => exact hk
  | cons pair rest ih =>
    rw [compileVals]
    split_ifs
    · exact ih
    · trivial

theorem within_bindAll {start : ℕ} (hstart : m ≤ start) (pairs : List (Exp × Exp)) {k : Plan}
    (hk : k.Within b m) : (bindAll start pairs k).Within b m := by
  induction pairs generalizing start k with
  | nil => exact hk
  | cons pair rest ih =>
    refine ih (hstart.trans (Nat.le_succ start)) ?_
    simp [hstart, hk]

theorem within_parallelLet (pairs : List (Exp × Exp)) (body : List Exp) (tail : Bool) :
    (compileParallelLet pairs body tail).Within b m := by
  intro start hstart
  dsimp only
  split_ifs
  · trivial
  · exact ⟨within_vals (within_bindAll hstart pairs (by trivial)) pairs, by simp⟩

theorem within_letSingle (var val : Exp) (body : List Exp) (tail : Bool) :
    (compileLetSingle var val body tail).Within b m := by
  intro slot hslot
  dsimp only
  split_ifs
  · trivial
  · simp [hslot]

theorem within_letPairs (pairs : Option (List (Exp × Exp))) (body : Exp) (tail : Bool) :
    (compileLetPairs pairs body tail).Within b m := by
  cases pairs with
  | none => trivial
  | some pairs => exact within_ite trivial (within_parallelLet _ _ _)

theorem within_let (form : Exp) (tail : Bool) : (compileLet form tail).Within b m := by
  unfold compileLet
  dsimp only
  split
  · exact within_letSingle _ _ _ _
  · exact within_letPairs _ _ _
  · exact within_letPairs _ _ _
  · trivial
  · trivial

theorem within_with (form : Exp) (tail : Bool) : (compileWith form tail).Within b m := by
  unfold compileWith
  split_ifs
  · trivial
  · split
    · trivial
    · split_ifs
      · trivial
      · exact within_parallelLet _ _ _

theorem within_bindings (start n : ℕ) (body : List Exp) (tail : Bool) (es : List Exp) :
    (compileBindings start n body tail es).Within b m := by
  fun_induction compileBindings start n body tail es with
  | case1 n var val rest => simp
  | case2 n var val rest => trivial
  | case3 n var val rest hnull hname ih => simpa using fun _ _ _ _ h => ⟨h, ih⟩
  | case4 n var => simp
  | case5 n var => trivial
  | case6 n => simp

@[simp]
theorem within_forBody (k : Plan) (es : List Exp) : (compileForBody k es).Within b m ↔ k.Within b m := by
  fun_induction compileForBody k es with
  | case1 => rfl
  | case2 e => simp
  | case3 e rest hne ih => simpa using ih

@[simp]
theorem within_forLoop (counter : ℕ) (body : List Exp) : (compileForLoop counter body).Within b m := by
  unfold compileForLoop
  dsimp only
  split_ifs <;> simp +contextual

theorem within_for (form : Exp) : (compileFor form).Within b m := by
  unfold compileFor
  split
  · simpa using fun _ n hn _ => ⟨hn, hn.trans (Nat.le_succ n)⟩
  · trivial

/-! ## The places of the other forms -/

theorem within_assign (form : Exp) : (compileAssign form).Within b m := by
  unfold compileAssign
  split
  · trivial
  · rintro (_ | slot) <;> simp

theorem within_setq (es : List Exp) : (compileSetq es).Within b m := by
  fun_induction compileSetq es with
  | case1 var val rest hname => trivial
  | case2 var val rest name hname k ih =>
    have hk : k.Within b m := by
      unfold k
      split_ifs
      · trivial
      · exact ih
    rintro (_ | slot) <;> simp [hk]
  | case3 => trivial
  | case4 => trivial

theorem within_call (form : Exp) (tail : Bool) : (compileCall ctx form tail).Within b m := by
  intro depth
  refine within_ite (by simp) (within_ite (by simp) ?_)
  split
  · simp
  · rintro (_ | slot) <;> simp

@[simp]
theorem within_foldArgs (o : Opcode) (es : List Exp) : (foldArgs o es).Within b m := by
  induction es with
  | nil => trivial
  | cons e rest ih => exact ih

@[simp]
theorem within_fold (o : Opcode) (arg1 arg2 : Exp) (rest : List Exp) :
    (compileFold o arg1 arg2 rest).Within b m := within_foldArgs o rest

theorem within_arith (form : Exp) (o : Opcode) : (compileArith form o).Within b m := by
  unfold compileArith
  split
  · refine within_ite trivial ?_
    dsimp only
    split
    · rintro (_ | slot)
      · simp
      · exact within_ite (by simp) (by simp)
    · simp
  · trivial

theorem within_native (form : Exp) (n : ℕ) (o : Opcode) : (compileNative form n o).Within b m := by
  simp [compileNative]

theorem within_list (n : ℕ) (es : List Exp) : (compileList n es).Within b m := by
  induction es generalizing n with
  | nil => trivial
  | cons e rest ih => simpa [compileList] using fun _ => ih (n + 1)

theorem within_vec (form : Exp) : (compileVec form).Within b m := by
  unfold compileVec
  dsimp only
  split_ifs <;> simp

theorem within_try (form : Exp) (tail : Bool) {k : Plan} (hk : k.Within b m) :
    (compileTry form tail k).Within b m := by
  refine within_ite hk fun h => within_ite hk (within_ite (by simp) fun f => within_ite hk (by simp))

theorem within_evalAst (e : Exp) : (compileEvalAst e).Within b m := by simp [compileEvalAst]

theorem within_other (s : CStr) (e : Exp) (tail : Bool) : (compileOther ctx s e tail).Within b m := by
  unfold compileOther
  split_ifs
  · split <;> trivial
  · split
    · exact within_arith _ _
    · split_ifs
      · exact ⟨within_call _ _, within_evalAst _⟩
      · trivial
      · exact within_evalAst _
    · rintro (_ | slot)
      · rintro (_ | _ | expanded)
        · exact within_call _ _
        · trivial
        · trivial
      · exact within_call _ _

theorem within_letstar (form : Exp) (tail : Bool) : (compileLetstar form tail).Within b m :=
  within_ite trivial fun _ _ => within_bindings _ _ _ _ _

theorem within_head (s : CStr) (e : Exp) (tail : Bool) : (compileHead ctx s e tail).Within b m := by
  have other : (compileOther ctx s e tail).Within b m := within_other s e tail
  unfold compileHead
  cases lookup sformTable s with
  | none => exact other
  | some form =>
    cases form with
    | ifForm => exact within_if e tail
    | tryForm => exact within_try e tail other
    | letForm => exact within_let e tail
    | letstar => exact within_letstar e tail
    | withForm => exact within_with e tail
    | whenForm => exact within_whenUnless e tail false
    | unlessForm => exact within_whenUnless e tail true
    | and => exact within_andOr e tail false
    | or => exact within_andOr e tail true
    | cond => exact within_cond e tail
    | case => exact within_case e tail
    | forForm => exact within_for e
    | assign => exact within_assign e
    | setq => exact within_ite trivial (within_setq _)
    | doForm => exact (within_bodySeq tail .done _).mpr trivial
    | list => exact within_list 0 _
    | vec => exact within_vec e
    | abs => exact within_ite other (within_native e 1 .abs)
    | maxmin => exact within_ite other (within_native e 2 _)
    | quote => exact (within_loadConst _ _).mpr trivial
    | cons | vecRef => exact within_native e 2 _
    | vecSet => exact within_native e 3 _
    | car | cdr | vecLen | sqrtInt | length => exact within_native e 1 _

theorem within_form (e : Exp) (tail : Bool) : (compileForm ctx e tail).Within b m := by
  unfold compileForm
  split
  · exact within_head _ _ _
  · trivial

theorem within_rewritten (e : Exp) (tail : Bool) (slot : Option ℕ) :
    (compileRewritten ctx e tail slot).Within b m := by
  unfold compileRewritten
  split
  · trivial
  · exact within_form _ _

theorem within_pair (e : Exp) (tail : Bool) : (compilePair ctx e tail).Within b m := by
  unfold compilePair
  split
  · exact within_rewritten e tail
  · exact within_rewritten e tail none

/-- The functions of the compiler patch code of their own and name slots of their own. -/
theorem within_plan (e : Exp) (tail : Bool) : (plan ctx e tail).Within b m := by
  cases e with
  | fix n => exact within_ite (by simp) (by simp)
  | symbol text =>
    refine within_ite (by simp) ?_
    rintro (_ | slot) <;> simp
  | pair content next => exact within_pair _ _
  | null | char | type | string | float | nil | t => exact (within_loadConst _ _).mpr trivial
  | _ => trivial

end Plan

/-! ## `compile_expr` -/

variable (ctx) in
theorem count_le_compileExpr (n : ℕ) (path : List Exp) (e : Exp) (tail : Bool) (c : Compiler W)
    (kind : Plan.Count) : c.count kind ≤ (compileExpr ctx n path e tail c).count kind := by
  induction n generalizing path e tail c kind with
  | zero => cases kind <;> exact le_rfl
  | succ n ih =>
    rw [compileExpr]
    split_ifs
    · exact le_rfl
    · cases kind <;> exact le_rfl
    · exact count_le_run ctx (ih _) _ _ _

variable (ctx) in
theorem extends_compileExpr (n : ℕ) (path : List Exp) (e : Exp) (tail : Bool) (c : Compiler W) :
    Extends c (compileExpr ctx n path e tail c) := by
  induction n generalizing path e tail c with
  | zero => exact ⟨List.prefix_rfl, List.prefix_rfl, fun _ _ => rfl, le_rfl⟩
  | succ n ih =>
    rw [compileExpr]
    split_ifs
    · exact .refl c
    · exact ⟨List.prefix_rfl, List.prefix_rfl, fun _ _ => rfl, le_rfl⟩
    · exact extends_run ctx (count_le_compileExpr ctx n _) (ih _) (Plan.within_plan e tail) (.refl c)

variable (ctx) in
theorem leftExpr_iff (kind : Plan.Count) (n : ℕ) (path : List Exp) (e : Exp) (tail : Bool)
    (c : Compiler W) :
    leftExpr ctx kind n path e tail c = true ↔
      c.count kind < (compileExpr ctx n path e tail c).count kind := by
  induction n generalizing path e tail c with
  | zero => cases kind <;> exact iff_of_false Bool.false_ne_true (lt_irrefl _)
  | succ n ih =>
    rw [leftExpr, compileExpr]
    cases c.failed with
    | true => exact iff_of_false Bool.false_ne_true (lt_irrefl _)
    | false =>
      cases ctx.exhausted (e :: path) with
      | true => cases kind <;> exact iff_of_false Bool.false_ne_true (lt_irrefl _)
      | false => exact left_iff (count_le_compileExpr ctx n _) (ih _) _ _

/-! ## The rollback -/

/-- `c'` is, for the code that comes, as `c`: the names of the slots that are not in use are not read. -/
structure Restored (c c' : Compiler W) : Prop where
  code : c'.code = c.code
  consts : c'.consts = c.consts
  nslots : c'.nslots = c.nslots
  names : ∀ i < c.nslots, c'.slotNames i = c.slotNames i
  nletDepth : c'.nletDepth = c.nletDepth
  failed : c'.failed = c.failed

/-- Every variable is in the slot it was in. -/
theorem Restored.findSlot {c c' : Compiler W} (h : Restored c c') (name : CStr) :
    c'.findSlot name = c.findSlot name := by
  have hnames : ∀ i ∈ (List.range c.nslots).reverse,
      decide (c'.slotNames i = some name) = decide (c.slotNames i = some name) := by
    intro i hi
    rw [h.names i (List.mem_range.mp (List.mem_reverse.mp hi))]
  rw [Compiler.findSlot, Compiler.findSlot, h.nslots]
  exact List.find?_congr hnames

variable (ctx) in
/-- After a failed attempt and its rollback the compiler is as before, except where a `return` inside of the
attempt left the slots, or the depth, of a scope that the attempt had opened. -/
theorem rollback_restores (n : ℕ) (path : List Exp) (e : Exp) (c : Compiler W) (hc : c.failed = false)
    (hfail : ((compileCall ctx e false).run ctx (compileExpr ctx n path) c).1.failed = true) :
    let c' := c.rollback ((compileCall ctx e false).run ctx (compileExpr ctx n path) c).1
    (Plan.attempt (compileCall ctx e false) (compileEvalAst e)).run ctx (compileExpr ctx n path) c =
      (compileEvalAst e).run ctx (compileExpr ctx n path) c' ∧
    (Restored c c' ↔
      ∀ kind, (compileCall ctx e false).left ctx (compileExpr ctx n path) (leftExpr ctx kind n path) kind c =
        false) := by
  have hwithin : (compileCall ctx e false).Within c.code.length c.nslots := Plan.within_call e false
  have hext := extends_run ctx (count_le_compileExpr ctx n path) (extends_compileExpr ctx n path) hwithin
    (.refl c)
  have hle := count_le_run ctx (count_le_compileExpr ctx n path) (compileCall ctx e false) c
  have heq (kind : Plan.Count) :
      (compileCall ctx e false).left ctx (compileExpr ctx n path) (leftExpr ctx kind n path) kind c = false ↔
        ((compileCall ctx e false).run ctx (compileExpr ctx n path) c).1.count kind = c.count kind := by
    rw [← Bool.not_eq_true, left_iff (count_le_compileExpr ctx n path) (leftExpr_iff ctx kind n path)]
    have := hle kind
    omega
  refine ⟨by rw [Plan.run, if_pos hfail], fun h => ?_, fun h => ?_⟩
  · rintro (_ | _)
    · exact (heq .slots).mpr h.nslots
    · exact (heq .depth).mpr h.nletDepth
  · exact {
      code := (List.prefix_iff_eq_take.mp hext.code).symm
      consts := (List.prefix_iff_eq_take.mp hext.consts).symm
      nslots := (heq .slots).mp (h .slots)
      names := hext.names
      nletDepth := (heq .depth).mp (h .depth)
      failed := hc.symm }

/-- A compiler that knows `string-append` and `fn`. -/
def stringsOnly : Context Unit where
  selfName := none
  captureUnsafe := false
  reserved s :=
    if s = word "string-append" then some ⟨true, false⟩
    else if s = word "fn" then some ⟨false, false⟩
    else none
  samePtr _ _ := false
  exhausted _ := false
  expand _ _ w := (none, w)

/-- The compiler at the start of a body without parameters. -/
def fresh : Compiler Unit := ⟨[], [], fun _ => none, 0, 0, false, ()⟩

/-- `(fn () x)` -/
def closure : Exp := .cells .null [sym "fn", .nil, sym "x"]

/-- `(string-append (fn () x))` -/
theorem rollback_restores_fn :
    Restored fresh (fresh.rollback
      ((compileCall stringsOnly (.cells .null [sym "string-append", closure]) false).run stringsOnly
        (compileExpr stringsOnly 9 []) fresh).1) :=
  (rollback_restores stringsOnly 9 [] (.cells .null [sym "string-append", closure]) fresh rfl
    (by decide)).2.mpr fun kind => by cases kind <;> decide

/-- `(string-append (let x 1 (fn () x)))`: the slot of `x` is in use after the rollback. -/
theorem let_slot_leaks :
    let e := .cells .null [sym "string-append",
      .cells .null [sym "let", sym "x", .fix (makeFix 1), closure]]
    let c' := ((compileCall stringsOnly e false).run stringsOnly (compileExpr stringsOnly 9 []) fresh).1
    c'.failed = true ∧ ¬ Restored fresh (fresh.rollback c') ∧
      fresh.findSlot (word "x") = none ∧ (fresh.rollback c').findSlot (word "x") = some 0 := by
  refine ⟨by decide, fun h => ?_, by decide, by decide⟩
  exact absurd h.nslots (by decide)

end Alcove.Codegen
