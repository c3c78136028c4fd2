import Alcove.Control.Forms
import Mathlib.Data.Int.Init
import Mathlib.Logic.Function.Iterate

/-!
# The compiled forms

The code that `compile_if`, `compile_when_unless`, `compile_and_or`, `compile_cond`, `compile_case` and
`compile_body_seq` emit, and the instructions of the VM that it consists of. A branch is patched with
the number of bytes from behind it to its target, which is the size of the code between; `patch_i16`
keeps 16 bits of it (`i16`), so the compiler takes the encoding of a distance as a parameter. The
program counter counts bytes, and a jump may lead anywhere.

**Main results:** `suffixAt_append` and `Reaches.trans`. Code in the middle of a program is fetched as
it was emitted, and runs compose.
-/

namespace Alcove.Control

variable {V σ : Type} {ops : Values V}

/-! ## Code -/

/-- The opcodes of control flow, and the code of a leaf as a whole, whose call may be a tail call. -/
inductive Instr (V : Type)
  | leaf (k : ℕ)
  | tailLeaf (k : ℕ)
  | loadConst (v : V)
  | pop
  | dup
  | is
  | jump (off : ℤ)
  | brIfFalse (off : ℤ)
  | brIfTrue (off : ℤ)

abbrev Code (V : Type) : Type := List (Instr V)

variable (L : Leaves ops σ)

/-- The number of bytes of an instruction -/
def Instr.size : Instr V → ℕ
  | .leaf k => L.extra k + 1
  | .tailLeaf k => L.extra k + 1
  | .loadConst _ => 2
  | .pop => 1
  | .dup => 1
  | .is => 1
  | .jump _ => 3
  | .brIfFalse _ => 3
  | .brIfTrue _ => 3

def codeSize : Code V → ℕ
  | [] => 0
  | i :: code => i.size L + codeSize code

/-- `(int16_t)d` -/
def i16 (d : ℕ) : ℤ := (d : ℤ).bmod 65536

/-- `COND_MAX_PATCHES` -/
def condMaxPatches : ℕ := 64

def Form.isMissing : Form V → Bool
  | .missing => true
  | _ => false

def Forms.length : Forms V → ℕ
  | .nil => 0
  | .cons _ rest => rest.length + 1

def Conds.length : Conds V → ℕ
  | .none => 0
  | .default _ => 0
  | .clause _ _ rest => rest.length + 1

def Cases.length : Cases V → ℕ
  | .none => 0
  | .default _ => 0
  | .clause _ _ rest => rest.length + 1

/-! ## The compiler -/

section Compile

variable (enc : ℕ → ℤ)

mutual

/-- `compile_expr` of a form; none where the compiler gives up. -/
def compile (tail : Bool) : Form V → Option (Code V)
  | .leaf k => some [if tail && L.isCall k then .tailLeaf k else .leaf k]
  | .missing => some [.loadConst ops.null]
  -- compile_if
  | .ifForm test thn rest => do
    let c ← compile false test
    let t ← compile tail thn
    let e ← compileElse tail rest
    some (c ++ [.brIfFalse (enc (codeSize L t + 3))] ++ t ++ [.jump (enc (codeSize L e))] ++ e)
  -- compile_when_unless
  | .whenForm negate test body =>
    if test.isMissing then none
    else do
      let c ← compile false test
      let b ← compileSeq tail body
      let run := if negate then [.loadConst ops.nil] else b
      let skip := if negate then b else [.loadConst ops.nil]
      some (c ++ [.brIfFalse (enc (codeSize L run + 3))] ++ run ++
        [.jump (enc (codeSize L skip))] ++ skip)
  | .andForm args =>
    if condMaxPatches < args.length - 1 then none else compileAndOr false tail args
  | .orForm args =>
    if condMaxPatches < args.length - 1 then none else compileAndOr true tail args
  | .condForm clauses =>
    if condMaxPatches < clauses.length then none else compileCond tail clauses
  -- compile_case
  | .caseForm key clauses =>
    if key.isMissing || condMaxPatches < clauses.length then none
    else do
      let k ← compile false key
      let b ← compileCase tail clauses
      some (k ++ b)
  | .doForm body => compileSeq tail body

/-- The else branch of `compile_if`, which takes no more pairs. -/
def compileElse (tail : Bool) : Conds V → Option (Code V)
  | .none => some [.loadConst ops.nil]
  | .default f => compile tail f
  | .clause _ _ _ => none

/-- `compile_body_seq` -/
def compileSeq (tail : Bool) : Forms V → Option (Code V)
  | .nil => some [.loadConst ops.nil]
  | .cons f .nil => compile tail f
  | .cons f rest => do
    let c ← compile false f
    let r ← compileSeq tail rest
    some (c ++ [.pop] ++ r)

/-- `compile_and_or`: the branch takes one copy of the value, the other is the result or popped. -/
def compileAndOr (isOr tail : Bool) : Forms V → Option (Code V)
  | .nil => some [.loadConst (if isOr then ops.nil else ops.t)]
  | .cons f .nil => compile tail f
  | .cons f rest => do
    let c ← compile false f
    let r ← compileAndOr isOr tail rest
    let d := enc (codeSize L r + 1)
    some (c ++ [.dup, if isOr then .brIfTrue d else .brIfFalse d, .pop] ++ r)

/-- `compile_cond` -/
def compileCond (tail : Bool) : Conds V → Option (Code V)
  | .none => some [.loadConst ops.nil]
  | .default f => compile tail f
  | .clause test f rest => do
    let c ← compile false test
    let e ← compile tail f
    let r ← compileCond tail rest
    some (c ++ [.brIfFalse (enc (codeSize L e + 3))] ++ e ++ [.jump (enc (codeSize L r))] ++ r)

/-- The clauses of `compile_case`, with the key on the stack. -/
def compileCase (tail : Bool) : Cases V → Option (Code V)
  | .none => some [.pop, .loadConst ops.nil]
  | .default f => do
    let e ← compile tail f
    some (.pop :: e)
  | .clause literal f rest => do
    let e ← compile tail f
    let r ← compileCase tail rest
    some ([.dup, .loadConst literal, .is, .brIfFalse (enc (codeSize L e + 4)), .pop] ++ e ++
      [.jump (enc (codeSize L r))] ++ r)

end

end Compile

/-! ## The VM -/

/-- The VM in a body: it runs at a byte of the code, has left with an error or with a tail call, or is
at no instruction. -/
inductive Config (V σ : Type)
  | at' (pc : ℕ) (stack : List V) (w : World σ)
  | raised (e : V) (w : World σ)
  | tailCall (k : ℕ) (w : World σ)
  | stuck

/-- The code from a byte on, when an instruction starts there. -/
def suffixAt : Code V → ℕ → Option (Code V)
  | code, 0 => some code
  | [], _ => none
  | i :: code, pc => if pc < i.size L then none else suffixAt code (pc - i.size L)

/-- `pc += off` behind an instruction -/
def goto (pc : ℕ) (off : ℤ) (stack : List V) (w : World σ) : Config V σ :=
  if 0 ≤ (pc : ℤ) + off then .at' ((pc : ℤ) + off).toNat stack w else .stuck

/-- One instruction, with the program counter behind it. -/
def execInstr (pc : ℕ) : Instr V → List V → World σ → Config V σ
  | .leaf k, stack, w => match L.run k w with
    | (.ok v, w) => .at' pc (v :: stack) w
    | (.error e, w) => .raised e w
  | .tailLeaf k, _, w => .tailCall k w
  | .loadConst v, stack, w => .at' pc (v :: stack) w
  | .pop, _ :: stack, w => .at' pc stack w
  | .dup, v :: stack, w => .at' pc (v :: v :: stack) w
  | .is, b :: a :: stack, w => .at' pc ((if ops.isequal a b then ops.t else ops.nil) :: stack) w
  | .jump off, stack, w => goto pc off stack w
  | .brIfFalse off, v :: stack, w => if ops.istrue v then .at' pc stack w else goto pc off stack w
  | .brIfTrue off, v :: stack, w => if ops.istrue v then goto pc off stack w else .at' pc stack w
  | _, _, _ => .stuck

/-- The dispatch loop, once. -/
def vmStep (prog : Code V) : Config V σ → Config V σ
  | .at' pc stack w => match suffixAt L prog pc with
    | some (i :: _) => execInstr L (pc + i.size L) i stack w
    | _ => .stuck
  | c => c

/-- The VM gets from one configuration to another. -/
def Reaches (prog : Code V) (c c' : Config V σ) : Prop := ∃ n, (vmStep L prog)^[n] c = c'

variable {L} {prog pre code post : Code V} {c c' c'' : Config V σ}

theorem Reaches.refl (c : Config V σ) : Reaches L prog c c := ⟨0, rfl⟩

theorem Reaches.trans (h : Reaches L prog c c') (h' : Reaches L prog c' c'') : Reaches L prog c c'' := by
  obtain ⟨n, rfl⟩ := h
  obtain ⟨m, rfl⟩ := h'
  exact ⟨m + n, Function.iterate_add_apply _ m n c⟩

theorem Instr.size_pos (i : Instr V) : 0 < i.size L := by
  cases i <;> simp [Instr.size]

theorem codeSize_append (a b : Code V) : codeSize L (a ++ b) = codeSize L a + codeSize L b := by
  induction a with
  | nil => simp [codeSize]
  | cons i a ih => rw [List.cons_append, codeSize, codeSize, ih, Nat.add_assoc]

theorem suffixAt_append (pre code : Code V) :
    suffixAt L (pre ++ code) (codeSize L pre) = some code := by
  induction pre with
  | nil => rw [List.nil_append, codeSize]; cases code <;> rfl
  | cons i pre ih =>
    obtain ⟨n, hn⟩ : ∃ n, codeSize L (i :: pre) = n + 1 :=
      ⟨codeSize L (i :: pre) - 1, by rw [codeSize]; have := i.size_pos (L := L); omega⟩
    rw [List.cons_append, hn, suffixAt, ← hn, codeSize, if_neg (by omega), Nat.add_sub_cancel_left, ih]
    exact Nat.succ_ne_zero n

/-- The instruction at a place in the program is executed. -/
theorem Reaches.instr {i : Instr V} {stack : List V} {w : World σ}
    (hprog : prog = pre ++ i :: post) :
    Reaches L prog (.at' (codeSize L pre) stack w)
      (execInstr L (codeSize L (pre ++ [i])) i stack w) := by
  refine ⟨1, ?_⟩
  rw [Function.iterate_one, vmStep, hprog, suffixAt_append]
  simp only [codeSize_append, codeSize, Nat.add_zero]

end Alcove.Control
