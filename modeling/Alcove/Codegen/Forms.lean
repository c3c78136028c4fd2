import Alcove.Codegen.Plan

/-!
# The functions of the compiler

`compile_expr` and the functions for the special forms, as plans. A form is the list of the contents of its
cells (`contents`); a body that is missing is the empty list.

* `plan`: the cases of `compile_expr`.
* `compileExpr`: `compile_expr`, where the stack has room for a given number of calls.
-/

namespace Alcove.Codegen

open Params Template

/-! ## Forms -/

/-- `car` -/
def car : Exp → Exp
  | .pair content _ => content
  | _ => .null

/-- `cdr` -/
def cdr : Exp → Exp
  | .pair _ next => next
  | _ => .null

/-- The contents of the cells up to `NULL`; `nil_singleton` is a cell without content. -/
def contents : Exp → List Exp
  | .pair content next => content :: contents next
  | .nil => [.null]
  | _ => []

/-- `exp_text(e)[0] == ':'` -/
def isKeywordText (text : CStr) : Bool := text.bytes.head? = some 58

/-- `let_shape_t` -/
inductive LetShape
  | single
  | destructure
  | flat
  | clojure
  | bad
  deriving DecidableEq

/-- `IS_LET_NAME` -/
def isLetName (e : Exp) : Bool := (symbolText e).any fun text => !isKeywordText text

/-- A `(name value)` pair. -/
def isNamePair : Exp → Bool
  | .pair name (.pair value _) => isLetName name && !value.isNull
  | _ => false

/-- The elements up to the first that is `NULL`. -/
def listed (first : Exp) : List Exp := (contents first).takeWhile fun e => !e.isNull

/-- The names are in the even places. -/
def evenNames : List Exp → Bool
  | name :: _ :: rest => isLetName name && evenNames rest
  | [name] => isLetName name
  | [] => true

/-- `let_classify` -/
def letClassify (first : Exp) : LetShape :=
  match first with
  | .symbol text => if isKeywordText text then .bad else .single
  | .nil => .flat
  | .pair content _ =>
    if content.isNull then .flat
    else if (listed first).all isNamePair then .clojure
    else if (listed first).all isLetName then .destructure
    else if (listed first).length % 2 = 0 ∧ evenNames (listed first) = true then .flat
    else .bad
  | _ => .bad

/-- Names and values in turn; `compile_with` (`strict`) has no value that is missing. -/
def flatPairs (strict : Bool) : List Exp → Option (List (Exp × Exp))
  | name :: value :: rest =>
    if name.isNull then some []
    else if strict && value.isNull then none
    else (flatPairs strict rest).map ((name, value) :: ·)
  | [name] => if name.isNull then some [] else none
  | [] => some []

/-! ## Emission -/

namespace Plan

/-- `emit_i16` -/
def emitI16 (v : ℤ) (k : Plan) : Plan :=
  .emit (.u8 (v % 256).toNat) (.emit (.u8 (v / 256 % 256).toNat) k)

/-- `int patch = c->ncode; emit_i16(c, 0);` -/
def hole (k : ℕ → Plan) : Plan := .here fun pos => emitI16 0 (k pos)

/-- `emit_load_const`, and the same two lines without a test in between: a compiler that has failed emits
nothing. -/
def loadConst (v : Exp) (k : Plan) : Plan := .const v fun i => .emit (.op .loadConst) (.emit (.u8 i) k)

/-- `emit_bind_named` -/
def bindNamed (slot : ℕ) (var : Exp) (k : Plan) : Plan :=
  .const var fun i => .emit (.op .bindSlotNamed) (.emit (.u8 slot) (.emit (.u8 i) k))

/-- `OP_UNBIND_SLOT` for `n` slots from `start` on, the last one first. -/
def unbind (start : ℕ) : ℕ → Plan → Plan
  | 0, k => k
  | n + 1, k => .emit (.op .unbindSlot) (.emit (.u8 (start + n)) (unbind start n k))

/-- `patch_i16` for each position. -/
def patchAll (target : ℕ) : List ℕ → Plan
  | [] => .done
  | pos :: rest => .patch pos target (patchAll target rest)

end Plan

open Plan

/-- `compile_body_seq`, and the test for a failure behind it. -/
def compileBodySeq (tail : Bool) (k : Plan) : List Exp → Plan
  | [] => loadConst .nil (.check k)
  | [e] => .expr e tail (.check k)
  | e :: rest => .expr e false (.check (.emit (.op .pop) (compileBodySeq tail k rest)))

/-- Operands, each with a test for a failure. -/
def compileArgs (k : Plan) : List Exp → Plan
  | [] => k
  | e :: rest => .expr e false (.check (compileArgs k rest))

variable {W : Type} (ctx : Context W)

/-! ## Conditionals -/

def compileIf (form : Exp) (tail : Bool) : Plan :=
  let els := car (cdr (cdr (cdr form)))
  if !(cdr (cdr (cdr (cdr form)))).isNull then .fail
  else
    .expr (cadr form) false <| .check <| .emit (.op .brIfFalse) <| hole fun patchFalse =>
    .expr (car (cdr (cdr form))) tail <| .check <| .emit (.op .jump) <| hole fun patchEnd =>
    .here fun falseTarget =>
    let k := .check <| .here fun endTarget => .patch patchFalse falseTarget <| .patch patchEnd endTarget .done
    if els.isNull then loadConst .nil k else .expr els tail k

def compileWhenUnless (form : Exp) (tail negate : Bool) : Plan :=
  let body := contents (cdr (cdr form))
  if (cadr form).isNull then .fail
  else
    .expr (cadr form) false <| .check <| .emit (.op .brIfFalse) <| hole fun patchFalse =>
    let skip := .emit (.op .jump) <| hole fun patchEnd => .here fun falseTarget =>
      let k := .here fun endTarget => .patch patchFalse falseTarget <| .patch patchEnd endTarget .done
      compileBodySeq tail k (if negate then body else [])
    compileBodySeq tail skip (if negate then [] else body)

/-- `COND_MAX_PATCHES` -/
def condMaxPatches : ℕ := 64

/-- The operands of `compile_and_or`. -/
def compileOperands (isOr tail : Bool) (patches : List ℕ) : List Exp → Plan
  | [] => .done
  | [e] => .expr e tail <| .check <| .here fun endTarget => patchAll endTarget patches
  | e :: rest =>
    .expr e false <| .check <|
    if condMaxPatches ≤ patches.length then .fail
    else
      .emit (.op .dup) <| .emit (.op (if isOr then .brIfTrue else .brIfFalse)) <| hole fun pos =>
      .emit (.op .pop) <| compileOperands isOr tail (patches ++ [pos]) rest

def compileAndOr (form : Exp) (tail isOr : Bool) : Plan :=
  if (cdr form).isNull then loadConst (if isOr then .nil else .t) .done
  else compileOperands isOr tail [] (contents (cdr form))

/-- The clauses of `compile_cond`. -/
def compileClauses (tail : Bool) (patches : List ℕ) : List Exp → Plan
  | [] => loadConst .nil <| .here fun endTarget => patchAll endTarget patches
  | [e] => .expr e tail <| .check <| .here fun endTarget => patchAll endTarget patches
  | test :: e :: rest =>
    .expr test false <| .check <| .emit (.op .brIfFalse) <| hole fun patchNext =>
    .expr e tail <| .check <|
    if condMaxPatches ≤ patches.length then .fail
    else
      .emit (.op .jump) <| hole fun pos => .here fun next => .patch patchNext next <|
      compileClauses tail (patches ++ [pos]) rest

def compileCond (form : Exp) (tail : Bool) : Plan :=
  if (cdr form).isNull then loadConst .nil .done else compileClauses tail [] (contents (cdr form))

/-- The values of `compile_case`. -/
def compileValues (tail : Bool) (patches : List ℕ) : List Exp → Plan
  | [] => .emit (.op .pop) <| loadConst .nil <| .here fun endTarget => patchAll endTarget patches
  | [e] => .emit (.op .pop) <| .expr e tail <| .check <| .here fun endTarget => patchAll endTarget patches
  | v :: e :: rest =>
    .emit (.op .dup) <| .const v fun i => .check <| .emit (.op .loadConst) <| .emit (.u8 i) <|
    .emit (.op .is) <| .emit (.op .brIfFalse) <| hole fun patchNext => .emit (.op .pop) <|
    .expr e tail <| .check <|
    if condMaxPatches ≤ patches.length then .fail
    else
      .emit (.op .jump) <| hole fun pos => .here fun next => .patch patchNext next <|
      compileValues tail (patches ++ [pos]) rest

def compileCase (form : Exp) (tail : Bool) : Plan :=
  if (cadr form).isNull then .fail
  else .expr (cadr form) false <| .check <| compileValues tail [] (contents (cdr (cdr form)))

/-! ## Bindings -/

/-- The values of `compile_parallel_let`. -/
def compileVals (k : Plan) : List (Exp × Exp) → Plan
  | [] => k
  | (var, val) :: rest =>
    if (symbolText var).isSome then .expr val false <| .check <| compileVals k rest else .fail

/-- Its bindings, the last one first. -/
def bindAll (start : ℕ) : List (Exp × Exp) → Plan → Plan
  | [], k => k
  | (var, _) :: rest, k =>
    bindAll (start + 1) rest <| .setName start (symbolText var) <| bindNamed start var <| .check k

def compileParallelLet (pairs : List (Exp × Exp)) (body : List Exp) (tail : Bool) : Plan :=
  .numSlots fun start =>
  if envInlineSlots < start + pairs.length then .fail
  else
    .reset (compileVals (bindAll start pairs .done) pairs) <|
    .slots pairs.length
      (.deeper (compileBodySeq tail .done body) <| unbind start pairs.length .done) .done

/-- `compile_let` for one name. -/
def compileLetSingle (var val : Exp) (body : List Exp) (tail : Bool) : Plan :=
  .numSlots fun slot =>
  if body.isEmpty || envInlineSlots ≤ slot then .fail
  else
    .expr val false <| .check <| bindNamed slot var <| .check <| .setName slot (symbolText var) <|
    .slots 1 (.deeper (compileBodySeq tail .done body) .done) <|
    .emit (.op .unbindSlot) <| .emit (.u8 slot) .done

/-- `compile_let` for several names, whose values are in `pairs`. -/
def compileLetPairs (pairs : Option (List (Exp × Exp))) (body : Exp) (tail : Bool) : Plan :=
  match pairs with
  | none => .fail
  | some pairs =>
    if body.isNull || envInlineSlots < pairs.length then .fail
    else compileParallelLet pairs (contents body) tail

def compileLet (form : Exp) (tail : Bool) : Plan :=
  let first := cadr form
  let body := cdr (cdr form)
  match letClassify first with
  | .single => compileLetSingle first (car body) (contents (cdr body)) tail
  | .flat => compileLetPairs (flatPairs false (contents first)) body tail
  | .clojure => compileLetPairs (some ((listed first).map fun e => (car e, cadr e))) body tail
  | .destructure => .fail
  | .bad => .fail

/-- `ispair` -/
def isPair : Exp → Bool
  | .pair .. | .nil => true
  | _ => false

def compileWith (form : Exp) (tail : Bool) : Plan :=
  if !isPair (cadr form) || (cdr (cdr form)).isNull then .fail
  else
    match flatPairs true (contents (cadr form)) with
    | none => .fail
    | some pairs =>
      if envInlineSlots < pairs.length then .fail
      else compileParallelLet pairs (contents (cdr (cdr form))) tail

/-- The bindings of `compile_letstar`, of which `n` are made, and its body. -/
def compileBindings (start n : ℕ) (body : List Exp) (tail : Bool) : List Exp → Plan
  | var :: val :: rest =>
    if var.isNull then .deeper (compileBodySeq tail .done body) (unbind start n .done)
    else if (symbolText var).isNone then .fail
    else
      .numSlots fun slots =>
      if envInlineSlots ≤ slots then .fail
      else
        .expr val false <| .check <| .numSlots fun slot => bindNamed slot var <| .check <|
        .setName slot (symbolText var) <| .slots 1 (compileBindings start (n + 1) body tail rest) .done
  | [var] =>
    if var.isNull then .deeper (compileBodySeq tail .done body) (unbind start n .done) else .fail
  | [] => .deeper (compileBodySeq tail .done body) (unbind start n .done)

def compileLetstar (form : Exp) (tail : Bool) : Plan :=
  if !isPair (cadr form) || (cdr (cdr form)).isNull then .fail
  else
    .numSlots fun start =>
    compileBindings start 0 (contents (cdr (cdr form))) tail (contents (cadr form))

/-- The body of `compile_for`. -/
def compileForBody (k : Plan) : List Exp → Plan
  | [] => k
  | [e] => .expr e false <| .check k
  | e :: rest => .expr e false <| .check <| .emit (.op .pop) <| compileForBody k rest

/-- The loop of `compile_for`. -/
def compileForLoop (counter : ℕ) (body : List Exp) : Plan :=
  .here fun loopTop =>
  .emit (.op .slotLeSlot) <| .emit (.u8 counter) <| .emit (.u8 (counter + 1)) <|
  .emit (.op .brIfFalse) <| hole fun patchExit =>
  let k := .emit (.op .loadSlot) <| .emit (.u8 counter) <| .emit (.op .loadFix) <| emitI16 1 <|
    .emit (.op .add) <| .emit (.op .storeSlot) <| .emit (.u8 counter) <| .emit (.op .pop) <|
    .emit (.op .jump) <| hole fun patchJump => .here fun loopEnd =>
    .patch patchExit loopEnd <| .patch patchJump loopTop .done
  if body.isEmpty then k else .emit (.op .pop) <| compileForBody k body

def compileFor (form : Exp) : Plan :=
  match contents (cdr form) with
  | var :: start :: end' :: body =>
    if (symbolText var).isNone then .fail
    else
      .numSlots fun counter =>
      if envInlineSlots < counter + 2 then .fail
      else
        .expr start false <| .check <| bindNamed counter var <| .check <|
        .setName counter (symbolText var) <|
        .slots 1
          (.expr end' false <| .check <| .emit (.op .bindSlot) <| .emit (.u8 (counter + 1)) <|
            .setName (counter + 1) none <|
            .slots 1
              (loadConst .nil <| .deeper (compileForLoop counter body) <|
                .emit (.op .unbindSlot) <| .emit (.u8 (counter + 1)) <|
                .emit (.op .unbindSlot) <| .emit (.u8 counter) .done)
              .done)
          .done
  | _ => .fail

/-! ## Assignments and calls -/

def compileAssign (form : Exp) : Plan :=
  match symbolText (cadr form) with
  | none => .fail
  | some name =>
    .findSlot name fun slot => .expr (car (cdr (cdr form))) false <| .check <|
    match slot with
    | some slot => .emit (.op .storeSlot) <| .emit (.u8 slot) .done
    | none => .const (cadr form) fun i => .check <| .emit (.op .storeFree) <| .emit (.u8 i) .done

/-- The pairs of `setq`. -/
def compileSetq : List Exp → Plan
  | var :: val :: rest =>
    match symbolText var with
    | none => .fail
    | some name =>
      let k := if rest.isEmpty then .done else .emit (.op .pop) <| compileSetq rest
      .expr val false <| .check <| .findSlot name fun
        | some slot => .emit (.op .storeSlot) <| .emit (.u8 slot) k
        | none => .const var fun i => .check <| .emit (.op .setqDyn) <| .emit (.u8 i) k
  | [_] => .fail
  | [] => .done

def compileCall (form : Exp) (tail : Bool) : Plan :=
  let head := car form
  let args := contents (cdr form)
  let finish (k : Plan) := compileArgs (if 255 < args.length then .fail else k) args
  let call (o : Opcode) := .emit (.op o) <| .emit (.u8 args.length) .done
  let viaHead (o : Opcode) := .expr head false <| .check <| finish (call o)
  .letDepth fun depth =>
  let isSelfTail := tail && ctx.selfName.isSome && (depth = 0 || !ctx.captureUnsafe) &&
    symbolText head = ctx.selfName
  if isSelfTail then finish (call .tailSelf)
  else if tail then viaHead .tailCall
  else
    match symbolText head with
    | none => viaHead .call
    | some name =>
      .findSlot name fun
        | some _ => viaHead .call
        | none =>
          .const head fun i => .check <| finish <|
          .emit (.op .callGlobal) <| .emit (.u8 i) <| .emit (.u8 args.length) .done

/-! ## Operators -/

/-- `op_for_head`, without `no`. -/
def opForHead : List (String × Opcode) :=
  [("+", .add), ("-", .sub), ("*", .mul), ("/", .div), ("mod", .mod), ("<", .lt), (">", .gt), ("<=", .le),
    (">=", .ge), ("is", .is), ("iso", .iso)]

/-- `fuse_slot_fix` -/
def fuseSlotFix : Opcode → Option Opcode
  | .add => some .slotAddFix
  | .sub => some .slotSubFix
  | .lt => some .slotLtFix
  | .le => some .slotLeFix
  | .gt => some .slotGtFix
  | .ge => some .slotGeFix
  | .is => some .slotIsFix
  | _ => none

def isFix : Exp → Bool
  | .fix _ => true
  | _ => false

/-- The operands from the third on. -/
def foldArgs (o : Opcode) : List Exp → Plan
  | [] => .done
  | e :: rest => .expr e false <| .check <| .emit (.op o) <| foldArgs o rest

/-- `compile_arith` without the fused opcodes. -/
def compileFold (o : Opcode) (arg1 arg2 : Exp) (rest : List Exp) : Plan :=
  .expr arg1 false <| .check <| .expr arg2 false <| .check <| .emit (.op o) <| foldArgs o rest

def compileArith (form : Exp) (o : Opcode) : Plan :=
  match contents (cdr form) with
  | a :: b :: rest =>
    if o ∈ [Opcode.lt, .gt, .le, .ge, .is, .iso, .mod] ∧ rest ≠ [] then .fail
    else
      let swap := rest.isEmpty && o ∈ [Opcode.add, .mul, .is] && isFix a && (symbolText b).isSome
      let arg1 := if swap then b else a
      let arg2 := if swap then a else b
      match rest, fuseSlotFix o, symbolText arg1, arg2 with
      | [], some fused, some name, .fix n =>
        .findSlot name fun slot =>
        match slot with
        | some slot =>
          if -2 ^ 15 ≤ n.1 ∧ n.1 < 2 ^ 15 then
            .emit (.op fused) <| .emit (.u8 slot) <| emitI16 n.1 .done
          else compileFold o arg1 arg2 rest
        | none => compileFold o arg1 arg2 rest
      | _, _, _, _ => compileFold o arg1 arg2 rest
  | _ => .fail

/-- A native opcode of `n` operands, where none is missing. -/
def compileNative (form : Exp) (n : ℕ) (o : Opcode) : Plan :=
  let args := ((contents (cdr form)).take n)
  if args.length < n ∨ args.any Exp.isNull then .fail
  else compileArgs (.emit (.op o) .done) args

/-- `list`, with `n` elements so far. -/
def compileList (n : ℕ) : List Exp → Plan
  | [] => .emit (.op .list) <| .emit (.u8 n) .done
  | e :: rest => .expr e false <| .check <| if 255 < n + 1 then .fail else compileList (n + 1) rest

def compileVec (form : Exp) : Plan :=
  let init := car (cdr (cdr form))
  if (cadr form).isNull then .fail
  else
    .expr (cadr form) false <| .check <|
    let k := .check <| .emit (.op .vecNew) .done
    if init.isNull then loadConst .nil k else .expr init false k

/-! ## `compile_try` -/

/-- `HANDLER_NONE` -/
def handlerNone : ℕ := 255

/-- `compile_try`; `k` is what `compile_expr` does where it returns 0. -/
def compileTry (form : Exp) (tail : Bool) (k : Plan) : Plan :=
  let handler := car (cdr (cdr form))
  let final := car (cdr (cdr (cdr form)))
  let push (h f : ℕ) :=
    .emit (.op .pushHandler) <| .emit (.u8 h) <| .emit (.u8 f) <| .expr (cadr form) true .done
  if !tail || (cdr (cdr form)).isNull || !(cdr (cdr (cdr (cdr form)))).isNull then k
  else
    .const (if handler.isNull then .nil else handler) fun h =>
    if handlerNone ≤ h then k
    else if final.isNull then push h handlerNone
    else .const final fun f => if handlerNone ≤ f then k else push h f

/-! ## `compile_expr` -/

/-- `enum sform_id` -/
inductive SForm
  | ifForm | tryForm | letForm | letstar | withForm | whenForm | unlessForm | and | or | cond | case | forForm
  | assign | setq | doForm | cons | car | cdr | list | vecRef | vecSet | vecLen | vec | sqrtInt | length
  | abs | maxmin | quote
  deriving DecidableEq

/-- `sform_table` -/
def sformTable : List (String × SForm) :=
  [("=", .assign), ("abs", .abs), ("and", .and), ("car", .car), ("case", .case), ("cdr", .cdr),
    ("cond", .cond), ("cons", .cons), ("do", .doForm), ("for", .forForm), ("if", .ifForm),
    ("length", .length), ("let", .letForm), ("let*", .letstar), ("list", .list), ("max", .maxmin),
    ("min", .maxmin), ("or", .or), ("quote", .quote), ("setf", .assign), ("setq", .setq),
    ("sqrt-int", .sqrtInt), ("try", .tryForm), ("unless", .unlessForm), ("vec", .vec), ("vec-len", .vecLen),
    ("vec-ref", .vecRef), ("vec-set!", .vecSet), ("when", .whenForm), ("with", .withForm)]

/-- A table looked up by the text of a symbol. -/
def lookup {α : Type} (table : List (String × α)) (s : CStr) : Option α :=
  (table.find? fun p => word p.1 = s).map Prod.snd

/-- The forms that make a closure or a definition. -/
def closureForms : List String := ["fn", "lambda", "def", "defn", "defc", "defmacro", "macro"]

/-- `OP_EVAL_AST` for the form. -/
def compileEvalAst (e : Exp) : Plan :=
  .const e fun i => .check <| .emit (.op .evalAst) <| .emit (.u8 i) .done

/-- A head that is no special form. -/
def compileOther (s : CStr) (e : Exp) (tail : Bool) : Plan :=
  if s = word "no" then
    match contents (Codegen.cdr e) with
    | [] => .fail
    | x :: _ => .expr x false <| .check <| .emit (.op .not) .done
  else
    match lookup opForHead s, ctx.reserved s with
    | some o, _ => compileArith e o
    | none, some flags =>
      if flags.applicative then .attempt (compileCall ctx e false) (compileEvalAst e)
      else if flags.tailAware || closureForms.any fun f => s = word f then .fail
      else compileEvalAst e
    | none, none =>
      .findSlot s fun
        | some _ => compileCall ctx e tail
        | none =>
          .expand s e fun
            | none => compileCall ctx e tail
            | some none => .fail
            | some (some expanded) => .expr expanded tail .done

/-- A form whose head is a symbol. -/
def compileHead (s : CStr) (e : Exp) (tail : Bool) : Plan :=
  match lookup sformTable s with
  | some .ifForm => compileIf e tail
  | some .tryForm => compileTry e tail (compileOther ctx s e tail)
  | some .letForm => compileLet e tail
  | some .letstar => compileLetstar e tail
  | some .withForm => compileWith e tail
  | some .whenForm => compileWhenUnless e tail false
  | some .unlessForm => compileWhenUnless e tail true
  | some .and => compileAndOr e tail false
  | some .or => compileAndOr e tail true
  | some .cond => compileCond e tail
  | some .case => compileCase e tail
  | some .forForm => compileFor e
  | some .assign => compileAssign e
  | some .setq => if (Codegen.cdr e).isNull then .fail else compileSetq (contents (Codegen.cdr e))
  | some .doForm => compileBodySeq tail .done (contents (Codegen.cdr e))
  | some .cons => compileNative e 2 .cons
  | some .car => compileNative e 1 .car
  | some .cdr => compileNative e 1 .cdr
  | some .list => compileList 0 (contents (Codegen.cdr e))
  | some .vecRef => compileNative e 2 .vecRef
  | some .vecSet => compileNative e 3 .vecSet
  | some .vecLen => compileNative e 1 .vecLen
  | some .vec => compileVec e
  | some .sqrtInt => compileNative e 1 .sqrtInt
  | some .length => compileNative e 1 .length
  | some .abs =>
    if (cadr e).isNull || !(Codegen.cdr (Codegen.cdr e)).isNull then compileOther ctx s e tail
    else compileNative e 1 .abs
  | some .maxmin =>
    let rest := Codegen.cdr (Codegen.cdr e)
    if (cadr e).isNull || (Codegen.car rest).isNull || !(Codegen.cdr rest).isNull then
      compileOther ctx s e tail
    else compileNative e 2 (if s = word "max" then .nmax else .nmin)
  | some .quote => loadConst (if (cadr e).isNull then .nil else cadr e) .done
  | none => compileOther ctx s e tail

/-- A form, by its head. -/
def compileForm (e : Exp) (tail : Bool) : Plan :=
  match symbolText (car e) with
  | some s => compileHead ctx s e tail
  | none => .fail

/-- `compile_infix_rewrite`, and the form as it stands where it does not apply. -/
def compileRewritten (e : Exp) (tail : Bool) (slot : Option ℕ) : Plan :=
  match Infix.compileInfixRewrite (fun _ => slot.isSome) e with
  | some pfx => .expr pfx tail .done
  | none => compileForm ctx e tail

/-- A list. -/
def compilePair (e : Exp) (tail : Bool) : Plan :=
  match symbolText (car e) with
  | some name => .findSlot name (compileRewritten ctx e tail)
  | none => compileRewritten ctx e tail none

/-- The cases of `compile_expr`. -/
def plan (e : Exp) (tail : Bool) : Plan :=
  match e with
  | .fix n =>
    if -2 ^ 15 ≤ n.1 ∧ n.1 < 2 ^ 15 then .emit (.op .loadFix) <| emitI16 n.1 .done
    else loadConst e .done
  | .null | .char _ | .type _ | .string _ | .float _ | .nil | .t => loadConst e .done
  | .symbol text =>
    if isKeywordText text then loadConst e .done
    else
      .findSlot text fun
        | some slot => .emit (.op .loadSlot) <| .emit (.u8 slot) .done
        | none => .const e fun i => .emit (.op .loadGlobal) <| .emit (.u8 i) .done
  | .pair .. => compilePair ctx e tail
  | _ => .fail

/-- `compile_expr` inside the forms `path`, for a stack that takes `n` more calls at the most. -/
def compileExpr : ℕ → List Exp → Exp → Bool → Compiler W → Compiler W
  | 0, _, _, _, c => { c with failed := true }
  | n + 1, path, e, tail, c =>
    if c.failed then c
    else if ctx.exhausted (e :: path) then { c with failed := true }
    else ((plan ctx e tail).run ctx (compileExpr n (e :: path)) c).1

/-- `Plan.left` of an expression. -/
def leftExpr (kind : Plan.Count) : ℕ → List Exp → Exp → Bool → Compiler W → Bool
  | 0, _, _, _, _ => false
  | n + 1, path, e, tail, c =>
    !c.failed && !ctx.exhausted (e :: path) &&
      (plan ctx e tail).left ctx (compileExpr ctx n (e :: path)) (leftExpr kind n (e :: path)) kind c

end Alcove.Codegen
