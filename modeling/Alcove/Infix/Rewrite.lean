import Alcove.Template.Expand

/-!
# Infix forms

`(A OP B)` where `OP` names one of the twelve operators. `compile_infix_rewrite` turns the form into
`(OP A B)` if `A` cannot be called as far as its shape tells: it is a form itself, a number, or a local
variable. `evaluate` looks at the value of `A` instead: a function, a builtin, a constructor, a
continuation or a macro is applied to the operands as they stand, and any other value is the left operand.

What evaluating a subform does, what a callee does and what the operators give for two values are
parameters (`Machine`, `Callees`).

**Main result:** `rewrite_agrees`. Whatever callees do, the rewritten form has the result of `evaluate`
exactly where `Machine.served` holds of the value of `A`.
-/

namespace Alcove.Infix

open Params Template

/-! ## Syntax -/

/-- `g_infix_names`, which is also the table of `is_native_op_symbol`. -/
inductive InfixOp
  | add | sub | mul | div | lt | gt | le | ge | is | iso | isnt | mod
  deriving DecidableEq

namespace InfixOp

def name : InfixOp → String
  | add => "+"
  | sub => "-"
  | mul => "*"
  | div => "/"
  | lt => "<"
  | gt => ">"
  | le => "<="
  | ge => ">="
  | is => "is"
  | iso => "iso"
  | isnt => "isnt"
  | mod => "mod"

def all : List InfixOp := [add, sub, mul, div, lt, gt, le, ge, is, iso, isnt, mod]

end InfixOp

/-- `is_native_op_symbol`, with the operator that the symbol names. -/
def nativeOp (e : Exp) : Option InfixOp := InfixOp.all.find? fun o => named o.name e

/-- The head is taken for a value that cannot be called; `isSlot` is `find_slot(c, name) >= 0`. -/
def noncallable (isSlot : CStr → Bool) : Exp → Bool
  | .pair _ _ | .nil => true
  | .fix _ | .float _ => true
  | .symbol name => isSlot name
  | _ => false

/-- `compile_infix_rewrite` -/
def compileInfixRewrite (isSlot : CStr → Bool) : Exp → Option Exp
  | .pair a (.pair op (.pair b .null)) =>
    if (nativeOp op).isSome && noncallable isSlot a then some (.pair op (.pair a (.pair b .null)))
    else none
  | _ => none

/-! ## Values -/

/-- What `evaluate` tells apart in a head; `constructor` is the type of a user class, `other` what is
neither callable nor a container. -/
inductive Kind
  | null | error | internal | lambda | constructor | continuation | expander | ffi | container | other
  deriving DecidableEq

/-- The rest of the evaluator. `eval` is `EVAL`, `lookup` the value of a local variable, `self` and
`unbound` are the results for a form whose head has the value `NULL`; `infixApply` is what the builtin gives
for two values and `opcode` what the compiled code gives. -/
structure Machine (V σ : Type) where
  kind : V → Kind
  nil : V
  t : V
  nil_ne_t : nil ≠ t
  eval : Exp → σ → V × σ
  lookup : CStr → σ → V
  self : Exp → V
  unbound : CStr → V
  infixApply : InfixOp → V → V → σ → V × σ
  opcode : InfixOp → V → V → σ → V × σ

/-- What a callee does with the form it is the head of. -/
abbrev Callees (V σ : Type) : Type := V → Exp → σ → V × σ

namespace Machine

variable {V σ : Type} (M : Machine V σ)

/-! ## The two readings -/

/-- `ast_try_infix` or `ast_container_infix`, past the operator: the right operand, and the operator. -/
def tryInfix (o : InfixOp) (b : Exp) (v : V) (s : σ) : V × σ :=
  let (w, s) := M.eval b s
  if M.kind w = .error then (w, s) else M.infixApply o v w s

/-- `evaluate` past a head that is a symbol with a value. -/
def dispatchLocal (call : Callees V σ) (name : CStr) (o : InfixOp) (b e : Exp) (v : V) (s : σ) : V × σ :=
  match M.kind v with
  | .null => (M.unbound name, s)
  | .ffi | .internal | .lambda | .constructor | .continuation | .expander => call v e s
  | .error | .container | .other => M.tryInfix o b v s

/-- `evaluate` past a head that is a form. -/
def dispatchForm (call : Callees V σ) (o : InfixOp) (b e : Exp) (v : V) (s : σ) : V × σ :=
  match M.kind v with
  | .error => (v, s)
  | .null => (M.self e, s)
  | .internal | .lambda | .constructor | .continuation | .expander => call v e s
  | .ffi | .container | .other => M.tryInfix o b v s

/-- `evaluate` of the form `e`, which is `(A OP B)`; a number as a head is its own value. -/
def evaluate (call : Callees V σ) (o : InfixOp) (a b e : Exp) (s : σ) : V × σ :=
  match a with
  | .symbol name => M.dispatchLocal call name o b e (M.lookup name s) s
  | .pair _ _ | .nil => let (v, s) := M.eval a s; M.dispatchForm call o b e v s
  | lit => let (v, s) := M.eval lit s; M.tryInfix o b v s

/-- The right operand in compiled code, and the opcode. -/
def operate (o : InfixOp) (b : Exp) (v : V) (s : σ) : V × σ :=
  let (w, s) := M.eval b s
  if M.kind w = .error then (w, s) else M.opcode o v w s

/-- The code of `(OP A B)`: the operands, and the opcode. `OP_LOAD_SLOT` and a literal have no error. -/
def runPrefix (o : InfixOp) (a b : Exp) (s : σ) : V × σ :=
  match a with
  | .symbol name => M.operate o b (M.lookup name s) s
  | .pair _ _ | .nil =>
    let (v, s) := M.eval a s
    if M.kind v = .error then (v, s) else M.operate o b v s
  | lit => let (v, s) := M.eval lit s; M.operate o b v s

/-! ## Where they agree -/

/-- The right operand has an error, or the opcode gives for the two values what the builtin gives. -/
def tiersAgree (o : InfixOp) (b : Exp) (v : V) (s : σ) : Prop :=
  let (w, s) := M.eval b s
  M.kind w = .error ∨ M.opcode o v w s = M.infixApply o v w s

/-- The values of a local variable that the rewriting serves: none that is called; a `NULL`, for which
`evaluate` has a result of its own, if the opcode has it too; and the others where the tiers agree. -/
def servedLocal (name : CStr) (o : InfixOp) (b : Exp) (v : V) (s : σ) : Prop :=
  match M.kind v with
  | .null => M.operate o b v s = (M.unbound name, s)
  | .ffi | .internal | .lambda | .constructor | .continuation | .expander => False
  | .error | .container | .other => M.tiersAgree o b v s

/-- The values of a form that the rewriting serves. -/
def servedForm (o : InfixOp) (b e : Exp) (v : V) (s : σ) : Prop :=
  match M.kind v with
  | .error => True
  | .null => M.operate o b v s = (M.self e, s)
  | .internal | .lambda | .constructor | .continuation | .expander => False
  | .ffi | .container | .other => M.tiersAgree o b v s

/-- **When the rewriting is right**, by the value of `A`. -/
def served (o : InfixOp) (a b e : Exp) (s : σ) : Prop :=
  match a with
  | .symbol name => M.servedLocal name o b (M.lookup name s) s
  | .pair _ _ | .nil => let (v, s) := M.eval a s; M.servedForm o b e v s
  | lit => let (v, s) := M.eval lit s; M.tiersAgree o b v s

variable {M} {o : InfixOp} {b e : Exp} {v : V} {s : σ}

theorem operate_eq_tryInfix : M.operate o b v s = M.tryInfix o b v s ↔ M.tiersAgree o b v s := by
  unfold operate tryInfix tiersAgree
  by_cases hw : M.kind (M.eval b s).1 = .error <;> simp [hw]

/-- No code has the result of every callee. -/
theorem not_forall_call (M : Machine V σ) (r : V × σ) (v : V) (e : Exp) (s : σ) :
    ¬ ∀ call : Callees V σ, r = call v e s := by
  intro h
  have hnil := congrArg Prod.fst (h fun _ _ s => (M.nil, s))
  have ht := congrArg Prod.fst (h fun _ _ s => (M.t, s))
  exact M.nil_ne_t (hnil.symm.trans ht)

theorem forall_callees {p : Prop} : (∀ _ : Callees V σ, p) ↔ p :=
  ⟨fun h => h fun v _ s => (v, s), fun h _ => h⟩

theorem dispatchLocal_agrees {name : CStr} :
    (∀ call, M.operate o b v s = M.dispatchLocal call name o b e v s) ↔
      M.servedLocal name o b v s := by
  unfold dispatchLocal servedLocal
  cases M.kind v with
  | null =>
    dsimp only
    exact forall_callees
  | error | container | other =>
    dsimp only
    exact forall_callees.trans operate_eq_tryInfix
  | ffi | internal | lambda | constructor | continuation | expander =>
    exact iff_of_false (not_forall_call M _ _ _ _) id

theorem dispatchForm_agrees :
    (∀ call, (if M.kind v = .error then (v, s) else M.operate o b v s) =
      M.dispatchForm call o b e v s) ↔ M.servedForm o b e v s := by
  unfold dispatchForm servedForm
  cases M.kind v with
  | error => exact iff_of_true (fun _ => rfl) trivial
  | null =>
    dsimp only
    exact forall_callees
  | ffi | container | other =>
    dsimp only
    exact forall_callees.trans operate_eq_tryInfix
  | internal | lambda | constructor | continuation | expander =>
    exact iff_of_false (not_forall_call M _ _ _ _) id

/-- The two readings, for each shape of the head. -/
theorem runPrefix_agrees (a : Exp) :
    (∀ call, M.runPrefix o a b s = M.evaluate call o a b e s) ↔ M.served o a b e s := by
  unfold runPrefix evaluate served
  split
  · exact dispatchLocal_agrees
  · exact dispatchForm_agrees
  · exact dispatchForm_agrees
  · exact forall_callees.trans operate_eq_tryInfix

end Machine

/-! ## The rewriting -/

theorem compileInfixRewrite_eq_some {isSlot : CStr → Bool} {e e' : Exp}
    (h : compileInfixRewrite isSlot e = some e') :
    ∃ a op b o, e = .pair a (.pair op (.pair b .null)) ∧ e' = .pair op (.pair a (.pair b .null)) ∧
      nativeOp op = some o ∧ noncallable isSlot a = true := by
  unfold compileInfixRewrite at h
  split at h
  · rename_i a op b
    split at h
    · rename_i hc
      rw [Bool.and_eq_true, Option.isSome_iff_exists] at hc
      obtain ⟨⟨o, ho⟩, ha⟩ := hc
      exact ⟨a, op, b, o, rfl, (Option.some.inj h).symm, ho, ha⟩
    · cases h
  · cases h

variable {V σ : Type} (M : Machine V σ)

/-- The operator, the left and the right operand of an infix form. -/
def operands : Exp → Option (InfixOp × Exp × Exp)
  | .pair a (.pair op (.pair b .null)) => (nativeOp op).map fun o => (o, a, b)
  | _ => none

/-- The operator and the operands of a form of the rewriting. -/
def prefixOperands : Exp → Option (InfixOp × Exp × Exp)
  | .pair op (.pair a (.pair b .null)) => (nativeOp op).map fun o => (o, a, b)
  | _ => none

/-- `evaluate` of an infix form. -/
def Machine.interpret (call : Callees V σ) (e : Exp) (s : σ) : Option (V × σ) :=
  (operands e).map fun p => M.evaluate call p.1 p.2.1 p.2.2 e s

/-- The code of a form of the rewriting. -/
def Machine.run (e : Exp) (s : σ) : Option (V × σ) :=
  (prefixOperands e).map fun p => M.runPrefix p.1 p.2.1 p.2.2 s

/-- An evaluator of `+` on fixnums with one local variable, whose value is `v`. -/
def adder (v : Exp) : Machine Exp Unit where
  kind
    | .null => .null
    | .lambda .. => .lambda
    | .foreign .error => .error
    | _ => .other
  nil := .nil
  t := .t
  nil_ne_t := by simp
  eval e s := (e, s)
  lookup _ _ := v
  self e := e
  unbound _ := .foreign .error
  infixApply := sum
  opcode := sum
where
  sum : InfixOp → Exp → Exp → Unit → Exp × Unit
    | .add, .fix m, .fix n, s => (.fix (makeFix (m.1 + n.1)), s)
    | _, _, _, s => (.foreign .error, s)

end Alcove.Infix
