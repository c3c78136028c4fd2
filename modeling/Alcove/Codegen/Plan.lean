import Alcove.Infix.Rewrite
import Mathlib.Logic.Function.Basic

/-!
# The state of the compiler

`compiler_t`, and the statements that the functions of the compiler are made of (`Plan`). A plan runs
from one compiler to the next and says whether it got to its end or left by a `return` (`run`). The slots
and the depth of a `let` are taken and given back by one statement each, `slots` and `deeper`, around what
is compiled in between; a `return` in there does not give them back.

* `run`: the statements of the source.
* `left`: whether a `return` left the slots, or the depth, of a scope as they were inside.
-/

namespace Alcove.Codegen

/-! ## The compiler -/

/-- The opcodes. -/
inductive Opcode
  | loadConst | loadFix | loadSlot | loadGlobal | storeSlot | storeFree | setqDyn
  | bindSlot | bindSlotNamed | unbindSlot
  | brIfFalse | brIfTrue | jump | pop | dup
  | call | callGlobal | tailCall | tailSelf | pushHandler | evalAst
  | add | sub | mul | div | mod | lt | gt | le | ge | is | iso | not
  | slotAddFix | slotSubFix | slotLtFix | slotLeFix | slotGtFix | slotGeFix | slotIsFix | slotLeSlot
  | cons | car | cdr | list | vecRef | vecSet | vecLen | vecNew | sqrtInt | length | abs | nmax | nmin
  deriving DecidableEq

/-- A byte of code. -/
inductive Byte
  | op (o : Opcode)
  | u8 (v : ℕ)
  deriving DecidableEq

/-- `ENV_INLINE_SLOTS` -/
def envInlineSlots : ℕ := 6

/-- `compiler_t`, and what is outside of it (`world`), which the expansion of a macro may change. The names
at `nslots` and above are what earlier scopes left there. -/
structure Compiler (W : Type) where
  code : List Byte
  consts : List Exp
  slotNames : ℕ → Option CStr
  nslots : ℕ
  nletDepth : ℕ
  failed : Bool
  world : W

namespace Compiler

variable {W : Type} (c : Compiler W)

/-- `emit_u8` -/
def emit (b : Byte) : Compiler W := if c.failed then c else { c with code := c.code ++ [b] }

/-- `add_const`; the index is `(uint8_t)-1` where the pool is full. `same` is equality of pointers. -/
def addConst (same : Exp → Exp → Bool) (v : Exp) : ℕ × Compiler W :=
  match c.consts.findIdx? (same v) with
  | some i => (i, c)
  | none =>
    if 256 ≤ c.consts.length then (255, { c with failed := true })
    else (c.consts.length, { c with consts := c.consts ++ [v] })

/-- `find_slot` -/
def findSlot (name : CStr) : Option ℕ :=
  (List.range c.nslots).reverse.find? fun i => c.slotNames i = some name

/-- `patch_i16` -/
def patch (pos target : ℕ) : Compiler W :=
  let off : ℤ := target - (pos + 2)
  { c with code := (c.code.set pos (.u8 (off % 256).toNat)).set (pos + 1) (.u8 (off / 256 % 256).toNat) }

/-- What `compile_expr` does to the compiler after a failed attempt that began at `c`. -/
def rollback (c' : Compiler W) : Compiler W :=
  { c' with failed := false, consts := c'.consts.take c.consts.length, code := c'.code.take c.code.length }

end Compiler

/-! ## Plans -/

/-- The statements of the compiler's functions. -/
inductive Plan
  /-- The end. -/
  | done
  /-- `return;` -/
  | ret
  /-- `c->failed = 1; return;` -/
  | fail
  /-- `if (c->failed) return;` -/
  | check (k : Plan)
  /-- `emit_u8(c, b);` -/
  | emit (b : Byte) (k : Plan)
  /-- `int k = add_const(c, v);` -/
  | const (v : Exp) (k : ℕ → Plan)
  /-- `compile_expr(c, e, tail);` -/
  | expr (e : Exp) (tail : Bool) (k : Plan)
  /-- `int n = c->ncode;` -/
  | here (k : ℕ → Plan)
  /-- `patch_i16(c, pos, target);` -/
  | patch (pos target : ℕ) (k : Plan)
  /-- `int slot = find_slot(c, name);` -/
  | findSlot (name : CStr) (k : Option ℕ → Plan)
  /-- `int n = c->nslots;` -/
  | numSlots (k : ℕ → Plan)
  /-- `int n = c->nlet_depth;` -/
  | letDepth (k : ℕ → Plan)
  /-- `c->slot_names[slot] = name;` -/
  | setName (slot : ℕ) (name : Option CStr) (k : Plan)
  /-- `c->nslots += n; body; c->nslots -= n;` -/
  | slots (n : ℕ) (body k : Plan)
  /-- `int start = c->nslots; values; c->nslots = start;` -/
  | reset (values k : Plan)
  /-- `c->nlet_depth++; body; c->nlet_depth--;` -/
  | deeper (body k : Plan)
  /-- The expansion of the macro that `name` is, if it is one; `some none` is an error. -/
  | expand (name : CStr) (e : Exp) (k : Option (Option Exp) → Plan)
  /-- The attempt `p`, and `k` after its rollback. -/
  | attempt (p k : Plan)

/-- The flags of a builtin. -/
structure Flags where
  applicative : Bool
  tailAware : Bool

/-- What compiled code depends on beside the state. `reserved` is the lookup of builtins, `samePtr` compares
pointers, `exhausted` is the stack guard below the forms that are being compiled, `expand` the lookup and the
expansion of macros. -/
structure Context (W : Type) where
  selfName : Option CStr
  captureUnsafe : Bool
  reserved : CStr → Option Flags
  samePtr : Exp → Exp → Bool
  exhausted : List Exp → Bool
  expand : CStr → Exp → W → Option (Option Exp) × W

variable {W : Type} (ctx : Context W)

namespace Plan

variable (compileExpr : Exp → Bool → Compiler W → Compiler W)

/-- The compiler after the statements, and whether they got to the end. -/
def run : Plan → Compiler W → Compiler W × Bool
  | done, c => (c, true)
  | ret, c => (c, false)
  | fail, c => ({ c with failed := true }, false)
  | check k, c => if c.failed then (c, false) else run k c
  | emit b k, c => run k (c.emit b)
  | const v k, c => run (k (c.addConst ctx.samePtr v).1) (c.addConst ctx.samePtr v).2
  | expr e tail k, c => run k (compileExpr e tail c)
  | here k, c => run (k c.code.length) c
  | patch pos target k, c => run k (c.patch pos target)
  | findSlot name k, c => run (k (c.findSlot name)) c
  | numSlots k, c => run (k c.nslots) c
  | letDepth k, c => run (k c.nletDepth) c
  | setName slot name k, c => run k { c with slotNames := Function.update c.slotNames slot name }
  | slots n body k, c =>
    let r := run body { c with nslots := c.nslots + n }
    if r.2 then run k { r.1 with nslots := r.1.nslots - n } else r
  | reset values k, c =>
    let r := run values c
    if r.2 then run k { r.1 with nslots := c.nslots } else r
  | deeper body k, c =>
    let r := run body { c with nletDepth := c.nletDepth + 1 }
    if r.2 then run k { r.1 with nletDepth := r.1.nletDepth - 1 } else r
  | expand name e k, c =>
    run (k (ctx.expand name e c.world).1) { c with world := (ctx.expand name e c.world).2 }
  | attempt p k, c =>
    let c' := (run p c).1
    if c'.failed then run k (c.rollback c') else (c', false)

/-- What a scope takes: slots, or a level of depth. -/
inductive Count
  | slots
  | depth
  deriving DecidableEq

/-- A `return` has left a scope that takes slots, or depth, and no `reset` has set the slots back since.
`left` of an expression is `leftExpr`. -/
def left (leftExpr : Exp → Bool → Compiler W → Bool) (kind : Count) : Plan → Compiler W → Bool
  | done, _ => false
  | ret, _ => false
  | fail, _ => false
  | check k, c => !c.failed && left leftExpr kind k c
  | emit b k, c => left leftExpr kind k (c.emit b)
  | const v k, c =>
    left leftExpr kind (k (c.addConst ctx.samePtr v).1) (c.addConst ctx.samePtr v).2
  | expr e tail k, c => leftExpr e tail c || left leftExpr kind k (compileExpr e tail c)
  | here k, c => left leftExpr kind (k c.code.length) c
  | patch pos target k, c => left leftExpr kind k (c.patch pos target)
  | findSlot name k, c => left leftExpr kind (k (c.findSlot name)) c
  | numSlots k, c => left leftExpr kind (k c.nslots) c
  | letDepth k, c => left leftExpr kind (k c.nletDepth) c
  | setName slot name k, c =>
    left leftExpr kind k { c with slotNames := Function.update c.slotNames slot name }
  | slots n body k, c =>
    let r := run ctx compileExpr body { c with nslots := c.nslots + n }
    left leftExpr kind body { c with nslots := c.nslots + n } ||
      if r.2 then left leftExpr kind k { r.1 with nslots := r.1.nslots - n }
      else kind = .slots ∧ n ≠ 0
  | reset values k, c =>
    let r := run ctx compileExpr values c
    if r.2 then
      kind = .depth && left leftExpr kind values c ||
        left leftExpr kind k { r.1 with nslots := c.nslots }
    else left leftExpr kind values c
  | deeper body k, c =>
    let r := run ctx compileExpr body { c with nletDepth := c.nletDepth + 1 }
    left leftExpr kind body { c with nletDepth := c.nletDepth + 1 } ||
      if r.2 then left leftExpr kind k { r.1 with nletDepth := r.1.nletDepth - 1 }
      else kind = .depth
  | expand name e k, c =>
    left leftExpr kind (k (ctx.expand name e c.world).1)
      { c with world := (ctx.expand name e c.world).2 }
  | attempt p k, c =>
    let c' := (run ctx compileExpr p c).1
    left leftExpr kind p c || if c'.failed then left leftExpr kind k (c.rollback c') else false

end Plan

end Alcove.Codegen
