import Alcove.Numeric.Unrounded

/-!
# Fused opcodes

The opcodes that stand for two loads and an operator: `OP_SLOT_ADD_FIX` and its siblings for a local
variable and a small literal, `OP_SLOT_IS_FIX`, and `OP_SLOT_LE_SLOT` in the loop of `for`. Here they run
against the frame and the stack, next to the three opcodes that each of them replaces.

**Main result:** `fused_outcome`. A fused opcode has the outcome of the three opcodes exactly where
`Fused.ok` holds of the slots, and a body runs alike with and without them as long as it holds of those
that the run gets to.
-/

namespace Alcove.Numeric

open Lib Double Opcode

/-! ## The frame and the stack -/

/-- `env->inline_vals` and the stack of `vm_run`, its top first. -/
structure Frame (D : Type) where
  inlineVals : ℕ → Value D
  stack : List (Value D)

/-- `PUSH` -/
def Frame.push {D : Type} (f : Frame D) (v : Value D) : Frame D := { f with stack := v :: f.stack }

/-- The opcodes that a fused one replaces: `OP_LOAD_SLOT`, `OP_LOAD_FIX`, an operator of two numbers, and
`OP_IS`. -/
inductive Plain
  | loadSlot (idx : ℕ)
  | loadFix (imm : ℤ)
  | op (h : Head)
  | is
  deriving DecidableEq

/-- The fused opcodes. The immediate of an instruction is an `int16_t`. -/
inductive Fused
  | slotFix (h : Head) (hh : fuses h = true) (idx : ℕ) (imm : ℤ) (himm : Fits 16 imm)
  | slotIsFix (idx : ℕ) (imm : ℤ) (himm : Fits 16 imm)
  | slotLeSlot (idxA idxB : ℕ)

variable {D : Type} [Double D]

/-! ## The opcodes -/

/-- `isequal`; `alike` is its answer for two objects that are told apart by no constructor. -/
def isequal (alike : Value D → Value D → Bool) : Value D → Value D → Bool
  | .num (.exact (.fix m)), .num (.exact (.fix n)) => m = n
  | .char c, .char d => c = d
  | .null, .null => true
  | .null, .truth b => !b
  | .truth b, .null => !b
  | .truth b, .truth b' => b = b'
  | .float x, .float y => alike (.float x) (.float y) || le x y && le y x
  | .str s, .str s' => s = s'
  | .num (.exact (.rat m n)), .num (.exact (.rat m' n')) => m = m' ∧ n = n'
  | .num (.dec c s), .num (.dec c' s') => c = c' ∧ s = s'
  | .nonNumber .other, .nonNumber .other => alike (.nonNumber .other) (.nonNumber .other)
  | .nonNumber .other, .truth true => alike (.nonNumber .other) (.truth true)
  | .truth true, .nonNumber .other => alike (.truth true) (.nonNumber .other)
  | _, _ => false

/-- `a == MAKE_FIX(imm)` -/
def sameWord : Value D → ℤ → Bool
  | .num (.exact (.fix m)), imm => m = imm
  | _, _ => false

/-- `l_slot_le_slot` -/
def slotLeSlot (a b : Value D) : Outcome (Value D) :=
  match a, b with
  | .num (.exact (.fix m)), .num (.exact (.fix n)) => some (.ok (.truth (m ≤ n)))
  | _, _ =>
    match coerce a, coerce b with
    | some x, some y => some (.ok (.truth (le x y)))
    | _, _ => some (.error (.illegalIn "<="))

variable (alike : Value D → Value D → Bool)

/-- What an opcode does to the frame. -/
def Plain.run (i : Plain) (f : Frame D) : Outcome (Frame D) :=
  match i, f.stack with
  | .loadSlot idx, _ => some (.ok (f.push (f.inlineVals idx)))
  | .loadFix imm, _ => some (.ok (f.push (.fix imm)))
  | .op h, b :: a :: rest =>
    (Opcode.binary h a b).andThen fun r => some (.ok { f with stack := r :: rest })
  | .is, b :: a :: rest => some (.ok { f with stack := .truth (isequal alike a b) :: rest })
  | _, _ => none

/-- One opcode after the other. -/
def Plain.runAll : List Plain → Frame D → Outcome (Frame D)
  | [], f => some (.ok f)
  | i :: code, f => (i.run alike f).andThen fun f => runAll code f

namespace Fused

/-- What a fused opcode pushes. -/
def value (inlineVals : ℕ → Value D) : Fused → Outcome (Value D)
  | .slotFix h _ idx imm _ => Opcode.slotFix h (inlineVals idx) imm
  | .slotIsFix idx imm _ => some (.ok (.truth (sameWord (inlineVals idx) imm)))
  | .slotLeSlot idxA idxB => Numeric.slotLeSlot (inlineVals idxA) (inlineVals idxB)

def run (i : Fused) (f : Frame D) : Outcome (Frame D) :=
  (i.value f.inlineVals).andThen fun v => some (.ok (f.push v))

/-- The opcodes that it stands for. -/
def unfused : Fused → List Plain
  | .slotFix h _ idx imm _ => [.loadSlot idx, .loadFix imm, .op h]
  | .slotIsFix idx imm _ => [.loadSlot idx, .loadFix imm, .is]
  | .slotLeSlot idxA idxB => [.loadSlot idxA, .loadSlot idxB, .op (.cmp .le)]

/-- The types that `alc_pair_cmp` compares. -/
def comparable : Value D → Value D → Bool
  | .num _, .num _ | .num _, .float _ | .float _, .num _ | .float _, .float _ => true
  | .str _, .str _ | .char _, .char _ => true
  | _, _ => false

/-- A fixnum or a float. -/
def isFixOrFloat : Value D → Bool
  | .num (.exact (.fix _)) | .float _ => true
  | _ => false

/-- **When a fused opcode does what the three do.** With a literal: where it agrees with the builtin
(`Form.slotOk`). In `for`: both are a fixnum or a float, or they do not compare at all. -/
def ok (inlineVals : ℕ → Value D) : Fused → Prop
  | .slotFix h _ idx imm _ => Form.slotOk h (inlineVals idx) imm
  | .slotIsFix .. => True
  | .slotLeSlot idxA idxB =>
    (isFixOrFloat (inlineVals idxA) && isFixOrFloat (inlineVals idxB)) = true ∨
      comparable (inlineVals idxA) (inlineVals idxB) = false

end Fused

/-- An instruction of a body: a fused opcode, or any other, which says where the run goes on. -/
inductive Code (D : Type)
  | fused (i : Fused)
  | other (run : Frame D → Outcome (ℕ × Frame D))

/-- The numbers in the slots are as the source builds them. -/
def Frame.WellFormed (f : Frame D) : Prop := ∀ idx, (f.inlineVals idx).WellFormed

/-- The instructions of a body by their place. -/
abbrev Body (D : Type) : Type := ℕ → Code D

namespace Body

variable (body : Body D)

/-- `n` instructions of a body as the compiler emits it. -/
def exec : ℕ → ℕ × Frame D → Outcome (ℕ × Frame D)
  | 0, s => some (.ok s)
  | n + 1, (pc, f) =>
    match body pc with
    | .fused i => (i.run f).andThen fun f => exec n (pc + 1, f)
    | .other run => (run f).andThen fun s => exec n s

/-- The same instructions where the compiler has no fused opcodes. -/
def execUnfused : ℕ → ℕ × Frame D → Outcome (ℕ × Frame D)
  | 0, s => some (.ok s)
  | n + 1, (pc, f) =>
    match body pc with
    | .fused i => (Plain.runAll alike i.unfused f).andThen fun f => execUnfused n (pc + 1, f)
    | .other run => (run f).andThen fun s => execUnfused n s

/-- The condition holds of each fused opcode that the run gets to. -/
def met : ℕ → ℕ × Frame D → Prop
  | 0, _ => True
  | n + 1, (pc, f) =>
    match body pc with
    | .fused i =>
      f.WellFormed ∧ i.ok f.inlineVals ∧ ∀ f', i.run f = some (.ok f') → met n (pc + 1, f')
    | .other run => ∀ s, run f = some (.ok s) → met n s

end Body

/-! ## One fused opcode -/

section One

omit [Double D] in
theorem classed_push {r r' : Outcome (Value D)} (f : Frame D) :
    (r.andThen fun v => some (.ok (f.push v))).classed =
        (r'.andThen fun v => some (.ok (f.push v))).classed ↔ r.classed = r'.classed := by
  rcases r with _ | e | v <;> rcases r' with _ | e' | v' <;>
    simp [Outcome.classed, Except.mapError, Frame.push, Outcome.andThen]

/-- What the three opcodes push. -/
def Fused.plainValue (inlineVals : ℕ → Value D) : Fused → Outcome (Value D)
  | .slotFix h _ idx imm _ => Opcode.binary h (inlineVals idx) (.fix imm)
  | .slotIsFix idx imm _ => some (.ok (.truth (isequal alike (inlineVals idx) (.fix imm))))
  | .slotLeSlot idxA idxB => cmpOp .le (inlineVals idxA) (inlineVals idxB)

theorem runAll_unfused (i : Fused) (f : Frame D) :
    Plain.runAll alike i.unfused f =
      (i.plainValue alike f.inlineVals).andThen fun v => some (.ok (f.push v)) := by
  cases i with
  | slotIsFix idx imm himm => rfl
  | slotFix h hh idx imm himm =>
    show ((Opcode.binary h (f.inlineVals idx) (.fix imm)).andThen _).andThen _ = _
    rw [Outcome.andThen_assoc]
    rfl
  | slotLeSlot idxA idxB =>
    show ((cmpOp .le (f.inlineVals idxA) (f.inlineVals idxB)).andThen _).andThen _ = _
    rw [Outcome.andThen_assoc]
    rfl

/-- Only the same fixnum is equal to a fixnum. -/
theorem isequal_fix (v : Value D) (n : ℤ) : isequal alike v (.fix n) = sameWord v n := by
  rcases v with ((m | ⟨num, den⟩) | ⟨c, s⟩) | f | x
  · rfl
  · rfl
  · rfl
  · rfl
  · cases x with
    | truth b => cases b <;> rfl
    | _ => rfl

theorem coerce_isSome (v : Value D) : (coerce v).isSome = Fused.isFixOrFloat v := by
  rcases v with ((m | ⟨num, den⟩) | ⟨c, s⟩) | f | x <;> rfl

omit [Double D] in
theorem map_some_ne {α : Type} (f : α → D) (r : Option α) : (r.map fun n => some (f n)) ≠ some none := by
  rcases r with _ | n <;> simp

/-- Every value but a number is refused where doubles are compared. -/
theorem numberToDouble_wellFormed {v : Value D} (hv : v.WellFormed) :
    ∃ x, Builtin.numberToDouble v = some x ∧ (x = none ↔ ∃ y, v = .nonNumber y) := by
  rcases v with (e | ⟨c, s⟩) | f | y
  · exact ⟨_, rfl, by simp⟩
  · have hd : DecimalNormal c s := hv
    refine ⟨some (arith .div (ofInt c) (ofInt (10 ^ s.toNat))), ?_, by simp⟩
    simp only [Builtin.numberToDouble, decToDouble, decPow10_scale hd.le]
    rfl
  · exact ⟨_, rfl, by simp⟩
  · exact ⟨none, rfl, by simp⟩

theorem differenceOf_eq_refused {a b : Value D} (ha : a.WellFormed) (hb : b.WellFormed) :
    Builtin.differenceOf a b = some none ↔ (∃ y, a = .nonNumber y) ∨ ∃ y, b = .nonNumber y := by
  obtain ⟨x, hx, hxn⟩ := numberToDouble_wellFormed ha
  obtain ⟨y, hy, hyn⟩ := numberToDouble_wellFormed hb
  rw [← hxn, ← hyn, Builtin.differenceOf, hx, hy]
  cases x <;> cases y <;> simp

/-- `alc_pair_cmp` refuses what does not compare, and nothing else. -/
theorem pairCmp_eq_refused {a b : Value D} (ha : a.WellFormed) (hb : b.WellFormed) :
    Builtin.pairCmp a b = some none ↔ Fused.comparable a b = false := by
  have hdiff := differenceOf_eq_refused ha hb
  unfold Builtin.pairCmp
  split
  · exact iff_of_false (map_some_ne _ _) (by simp [Fused.comparable])
  · exact iff_of_false (map_some_ne _ _) (by simp [Fused.comparable])
  · exact iff_of_false (by simp) (by simp [Fused.comparable])
  · exact iff_of_false (by simp) (by simp [Fused.comparable])
  · rename_i hstr hchar
    rw [hdiff]
    cases a <;> cases b <;> simp_all [Fused.comparable]

/-- The comparison in `for`. -/
theorem slotLeSlot_agrees {a b : Value D} (ha : a.WellFormed) (hb : b.WellFormed) :
    (slotLeSlot a b).classed = (cmpOp .le a b).classed ↔
      (Fused.isFixOrFloat a && Fused.isFixOrFloat b) = true ∨ Fused.comparable a b = false := by
  rw [← coerce_isSome, ← coerce_isSome, ← pairCmp_eq_refused ha hb]
  by_cases h : (coerce a).isSome = true ∧ (coerce b).isSome = true
  · obtain ⟨hx, hy⟩ := h
    refine iff_of_true ?_ (.inl (by rw [hx, hy]; rfl))
    obtain ⟨x, hx⟩ := Option.isSome_iff_exists.mp hx
    obtain ⟨y, hy⟩ := Option.isSome_iff_exists.mp hy
    match a, b, hx, hy with
    | .num (.exact (.fix _)), .num (.exact (.fix _)), _, _ => rfl
    | .num (.exact (.fix _)), .float _, _, _ => rfl
    | .float _, .num (.exact (.fix _)), _, _ => rfl
    | .float _, .float _, _, _ => rfl
  · have hnone : coerce a = none ∨ coerce b = none := by
      rw [not_and_or, Option.not_isSome_iff_eq_none, Option.not_isSome_iff_eq_none] at h
      exact h
    have hfused : slotLeSlot a b = some (.error (.illegalIn "<=")) := by
      unfold slotLeSlot
      split
      · rcases hnone with h | h <;> cases h
      · split
        · rename_i hx hy
          rcases hnone with h | h
          · rw [h] at hx
            cases hx
          · rw [h] at hy
            cases hy
        · rfl
    rw [hfused, cmpOp_of_not_coerce hnone, Bool.and_eq_true]
    rcases Builtin.pairCmp a b with _ | _ | d
    · exact iff_of_false (by simp) (by simp [h])
    · exact iff_of_true rfl (.inr rfl)
    · exact iff_of_false (by simp) (by simp [h])

variable [LawfulDouble D]

/-- An opcode with a literal. -/
theorem slotFix_agrees {h : Head} (hh : fuses h = true) {v : Value D} {n : ℤ} (hn : Fits 16 n)
    (hv : v.WellFormed) :
    (Opcode.slotFix h v n).classed = (Opcode.binary h v (.fix n)).classed ↔ Form.slotOk h v n := by
  have hfix : FixFits n := by
    obtain ⟨hlo, hhi⟩ := hn
    constructor <;> omega
  match h, hh with
  | .arith o, hh =>
    have ho : o = .add ∨ o = .sub := by
      cases o
      · exact .inl rfl
      · exact .inr rfl
      · cases hh
      · cases hh
    have hdiv : o ≠ .div := by rcases ho with rfl | rfl <;> decide
    have hwf : ∀ u ∈ [v, .fix n], u.WellFormed := by
      intro u hu
      rcases List.mem_cons.mp hu with rfl | hu
      · exact hv
      · rw [List.mem_singleton.mp hu]
        exact hfix
    have hfold := fold_agrees hwf (plainOk_pair fun h => absurd h hdiv)
    rw [foldFrom_pair] at hfold
    rw [hfold]
    exact slotFix_arith ho hn hv
  | .cmp c, _ =>
    have hplain : Form.plainOk (.cmp c) [v, .fix n] := by
      cases v <;> cases c <;> trivial
    have hcmp : (Opcode.binary (.cmp c) v (.fix n)).classed = (Builtin.cmpCmd c [v, .fix n]).classed :=
      (@cmp_agrees D _ c v (.fix n) _ hv hfix).mpr hplain
    rw [hcmp]
    exact slotFix_cmp c hn hv

/-- The outcome of one fused opcode. -/
theorem Fused.run_agrees (i : Fused) {f : Frame D} (hf : f.WellFormed) :
    (i.run f).classed = (Plain.runAll alike i.unfused f).classed ↔ i.ok f.inlineVals := by
  rw [runAll_unfused, Fused.run, classed_push]
  cases i with
  | slotFix h hh idx imm himm => exact slotFix_agrees hh himm (hf idx)
  | slotIsFix idx imm himm =>
    refine iff_of_true ?_ trivial
    rw [Fused.value, Fused.plainValue, isequal_fix]
  | slotLeSlot idxA idxB => exact slotLeSlot_agrees (hf idxA) (hf idxB)

end One

/-! ## A run -/

omit [Double D] in
theorem classed_andThen {α β : Type} {r r' : Outcome α} {k k' : α → Outcome β}
    (h : r.classed = r'.classed) (hk : ∀ a, r = some (.ok a) → (k a).classed = (k' a).classed) :
    (r.andThen k).classed = (r'.andThen k').classed := by
  rcases r with _ | e | a <;> rcases r' with _ | e' | a' <;>
    simp_all [Outcome.classed, Except.mapError, Outcome.andThen]

variable [LawfulDouble D]

theorem Body.exec_agrees (body : Body D) (n : ℕ) (s : ℕ × Frame D) (h : body.met n s) :
    (body.exec n s).classed = (body.execUnfused alike n s).classed := by
  induction n generalizing s with
  | zero => rfl
  | succ n ih =>
    obtain ⟨pc, f⟩ := s
    rw [met] at h
    rw [exec, execUnfused]
    cases hi : body pc with
    | fused i =>
      rw [hi] at h
      obtain ⟨hf, hok, hrest⟩ := h
      exact classed_andThen ((i.run_agrees alike hf).mpr hok) fun f' hf' => ih _ (hrest f' hf')
    | other run =>
      rw [hi] at h
      exact classed_andThen rfl fun s hs => ih s (h s hs)

end Alcove.Numeric
