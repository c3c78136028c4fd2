import Alcove.Codegen.Forms
import Mathlib.Data.List.Find

/-!
# What a plan leaves

The number of slots and the depth of a `let` never fall below where they were, and `left` tells whether they
are raised in the end (`left_iff`). Code, constants and the names of the slots in use are only added to, as
long as a plan patches code of its own and names slots of its own (`extends_run`).
-/

namespace Alcove.Codegen

open Params Template

variable {W : Type}

/-! ## Counts -/

/-- The slots in use, or the depth. -/
def Compiler.count (c : Compiler W) : Plan.Count → ℕ
  | .slots => c.nslots
  | .depth => c.nletDepth

variable {ctx : Context W} {f : Exp → Bool → Compiler W → Compiler W}

theorem addConst_count (same : Exp → Exp → Bool) (v : Exp) (c : Compiler W) (kind : Plan.Count) :
    (c.addConst same v).2.count kind = c.count kind := by
  unfold Compiler.addConst
  split
  · rfl
  · split_ifs <;> cases kind <;> rfl

theorem emit_count (b : Byte) (c : Compiler W) (kind : Plan.Count) : (c.emit b).count kind = c.count kind := by
  unfold Compiler.emit
  split_ifs <;> cases kind <;> rfl

variable (ctx) in
/-- Nothing takes a count below where it was. -/
theorem count_le_run (hf : ∀ e tail c kind, c.count kind ≤ (f e tail c).count kind) (p : Plan)
    (c : Compiler W) (kind : Plan.Count) : c.count kind ≤ (p.run ctx f c).1.count kind := by
  induction p generalizing c with
  | done => exact le_rfl
  | ret => exact le_rfl
  | fail => cases kind <;> exact le_rfl
  | check k ih =>
    rw [Plan.run]
    split_ifs
    · exact le_rfl
    · exact ih c
  | emit b k ih => exact (emit_count b c kind).ge.trans (ih _)
  | const v k ih => exact (addConst_count ctx.samePtr v c kind).ge.trans (ih _ _)
  | expr e tail k ih => exact (hf e tail c kind).trans (ih _)
  | here k ih => exact ih _ c
  | patch pos target k ih =>
    have h := ih (c.patch pos target)
    cases kind <;> exact h
  | findSlot name k ih => exact ih _ c
  | numSlots k ih => exact ih _ c
  | letDepth k ih => exact ih _ c
  | setName slot name k ih =>
    have h := ih { c with slotNames := Function.update c.slotNames slot name }
    cases kind <;> exact h
  | slots n body k ihb ihk =>
    have hb := ihb { c with nslots := c.nslots + n }
    rw [Plan.run]
    generalize body.run ctx f { c with nslots := c.nslots + n } = r at hb
    split_ifs
    · refine le_trans ?_ (ihk _)
      cases kind
      · exact Nat.le_sub_of_add_le hb
      · exact hb
    · cases kind
      · exact (Nat.le_add_right _ n).trans hb
      · exact hb
  | reset values k ihv ihk =>
    have hv := ihv c
    rw [Plan.run]
    generalize values.run ctx f c = r at hv
    split_ifs
    · refine le_trans ?_ (ihk _)
      cases kind
      · exact le_rfl
      · exact hv
    · exact hv
  | deeper body k ihb ihk =>
    have hb := ihb { c with nletDepth := c.nletDepth + 1 }
    rw [Plan.run]
    generalize body.run ctx f { c with nletDepth := c.nletDepth + 1 } = r at hb
    split_ifs
    · refine le_trans ?_ (ihk _)
      cases kind
      · exact hb
      · exact Nat.le_sub_of_add_le hb
    · cases kind
      · exact hb
      · exact (Nat.le_add_right _ 1).trans hb
  | expand name e k ih =>
    have h := ih (ctx.expand name e c.world).1 { c with world := (ctx.expand name e c.world).2 }
    cases kind <;> exact h
  | attempt p k ihp ihk =>
    have hp := ihp c
    rw [Plan.run]
    generalize (p.run ctx f c).1 = c' at hp
    split_ifs
    · refine le_trans ?_ (ihk _)
      cases kind <;> exact hp
    · exact hp

/-- `left` tells whether a count is raised in the end. -/
theorem left_iff {g : Exp → Bool → Compiler W → Bool} {kind : Plan.Count}
    (hf : ∀ e tail c kind, c.count kind ≤ (f e tail c).count kind)
    (hg : ∀ e tail c, g e tail c = true ↔ c.count kind < (f e tail c).count kind) (p : Plan)
    (c : Compiler W) :
    p.left ctx f g kind c = true ↔ c.count kind < (p.run ctx f c).1.count kind := by
  induction p generalizing c with
  | done => exact iff_of_false Bool.false_ne_true (lt_irrefl _)
  | ret => exact iff_of_false Bool.false_ne_true (lt_irrefl _)
  | fail => cases kind <;> exact iff_of_false Bool.false_ne_true (lt_irrefl _)
  | check k ih =>
    rw [Plan.left, Plan.run]
    cases c.failed with
    | true => exact iff_of_false Bool.false_ne_true (lt_irrefl _)
    | false => exact ih c
  | emit b k ih => rw [Plan.left, Plan.run, ih, emit_count]
  | const v k ih => rw [Plan.left, Plan.run, ih, addConst_count]
  | expr e tail k ih =>
    have h1 := hf e tail c kind
    have h2 := count_le_run ctx hf k (f e tail c) kind
    rw [Plan.left, Plan.run, Bool.or_eq_true, hg, ih]
    omega
  | here k ih => exact ih _ c
  | patch pos target k ih =>
    have h := ih (c.patch pos target)
    cases kind <;> exact h
  | findSlot name k ih => exact ih _ c
  | numSlots k ih => exact ih _ c
  | letDepth k ih => exact ih _ c
  | setName slot name k ih =>
    have h := ih { c with slotNames := Function.update c.slotNames slot name }
    cases kind <;> exact h
  | slots n body k ihb ihk =>
    have hb := ihb { c with nslots := c.nslots + n }
    have hle := count_le_run ctx hf body { c with nslots := c.nslots + n } kind
    rw [Plan.left, Plan.run, Bool.or_eq_true, hb]
    generalize body.run ctx f { c with nslots := c.nslots + n } = r at hle
    obtain ⟨c', fell⟩ := r
    cases fell with
    | true =>
      have hk := ihk { c' with nslots := c'.nslots - n }
      have hle' := count_le_run ctx hf k { c' with nslots := c'.nslots - n } kind
      simp only [if_true, hk]
      cases kind <;> simp only [Compiler.count] at * <;> omega
    | false =>
      cases kind with
      | slots =>
        have hle : c.nslots + n ≤ c'.nslots := hle
        simp only [Compiler.count, Bool.false_eq_true, if_false, decide_eq_true_eq, true_and]
        omega
      | depth => simp [Compiler.count]
  | reset values k ihv ihk =>
    have hv := ihv c
    have hle := count_le_run ctx hf values c kind
    rw [Plan.left, Plan.run]
    generalize values.run ctx f c = r at hv hle
    obtain ⟨c', fell⟩ := r
    cases fell with
    | true =>
      have hk := ihk { c' with nslots := c.nslots }
      have hle' := count_le_run ctx hf k { c' with nslots := c.nslots } kind
      simp only [if_true, Bool.or_eq_true, Bool.and_eq_true, decide_eq_true_eq, hv, hk]
      cases kind with
      | slots => simp [Compiler.count]
      | depth =>
        have hle : c.nletDepth ≤ c'.nletDepth := hle
        simp only [Compiler.count, true_and] at hle' ⊢
        omega
    | false => exact hv
  | deeper body k ihb ihk =>
    have hb := ihb { c with nletDepth := c.nletDepth + 1 }
    have hle := count_le_run ctx hf body { c with nletDepth := c.nletDepth + 1 } kind
    rw [Plan.left, Plan.run, Bool.or_eq_true, hb]
    generalize body.run ctx f { c with nletDepth := c.nletDepth + 1 } = r at hle
    obtain ⟨c', fell⟩ := r
    cases fell with
    | true =>
      have hk := ihk { c' with nletDepth := c'.nletDepth - 1 }
      have hle' := count_le_run ctx hf k { c' with nletDepth := c'.nletDepth - 1 } kind
      simp only [if_true, hk]
      cases kind <;> simp only [Compiler.count] at * <;> omega
    | false =>
      cases kind with
      | slots => simp [Compiler.count]
      | depth =>
        have hle : c.nletDepth + 1 ≤ c'.nletDepth := hle
        exact iff_of_true (.inr rfl) hle
  | expand name e k ih =>
    have h := ih (ctx.expand name e c.world).1 { c with world := (ctx.expand name e c.world).2 }
    cases kind <;> exact h
  | attempt p k ihp ihk =>
    have hp := ihp c
    have hle := count_le_run ctx hf p c kind
    rw [Plan.left, Plan.run, Bool.or_eq_true, hp]
    generalize (p.run ctx f c).1 = c' at hle
    cases hfail : c'.failed with
    | true =>
      have hk := ihk (c.rollback c')
      have hle' := count_le_run ctx hf k (c.rollback c') kind
      have hroll : (c.rollback c').count kind = c'.count kind := by cases kind <;> rfl
      simp only [if_true, hk]
      omega
    | false => simp

/-! ## Code, constants and names -/

/-- `c'` has what `c` had, and more behind it. -/
structure Extends (c c' : Compiler W) : Prop where
  code : c.code <+: c'.code
  consts : c.consts <+: c'.consts
  names : ∀ i < c.nslots, c'.slotNames i = c.slotNames i
  nslots : c.nslots ≤ c'.nslots

theorem Extends.refl (c : Compiler W) : Extends c c := ⟨List.prefix_rfl, List.prefix_rfl, fun _ _ => rfl, le_rfl⟩

theorem Extends.trans {c c' c'' : Compiler W} (h : Extends c c') (h' : Extends c' c'') : Extends c c'' :=
  ⟨h.code.trans h'.code, h.consts.trans h'.consts,
    fun i hi => (h'.names i (hi.trans_le h.nslots)).trans (h.names i hi), h.nslots.trans h'.nslots⟩

/-- The plan patches code from `b` on and names slots from `m` on. -/
def Plan.Within (b m : ℕ) : Plan → Prop
  | .done | .ret | .fail => True
  | .check k | .emit _ k | .expr _ _ k => Within b m k
  | .const _ k => ∀ i, Within b m (k i)
  | .here k => ∀ n, b ≤ n → Within b m (k n)
  | .patch pos _ k => b ≤ pos ∧ Within b m k
  | .findSlot _ k => ∀ slot, Within b m (k slot)
  | .numSlots k => ∀ n, m ≤ n → Within b m (k n)
  | .letDepth k => ∀ n, Within b m (k n)
  | .setName slot _ k => m ≤ slot ∧ Within b m k
  | .slots _ body k => Within b m body ∧ Within b m k
  | .reset values k => Within b m values ∧ Within b m k
  | .deeper body k => Within b m body ∧ Within b m k
  | .expand _ _ k => ∀ r, Within b m (k r)
  | .attempt p k => Within b m p ∧ Within b m k

theorem Extends.emit {c c' : Compiler W} (h : Extends c c') (b : Byte) : Extends c (c'.emit b) := by
  unfold Compiler.emit
  split_ifs
  · exact h
  · exact ⟨h.code.trans (List.prefix_append _ _), h.consts, h.names, h.nslots⟩

theorem Extends.addConst {c c' : Compiler W} (h : Extends c c') (same : Exp → Exp → Bool) (v : Exp) :
    Extends c (c'.addConst same v).2 := by
  unfold Compiler.addConst
  split
  · exact h
  · split_ifs
    · exact ⟨h.code, h.consts, h.names, h.nslots⟩
    · exact ⟨h.code, h.consts.trans (List.prefix_append _ _), h.names, h.nslots⟩

theorem prefix_set {l l' : List Byte} (h : l <+: l') {pos : ℕ} (hpos : l.length ≤ pos) (b : Byte) :
    l <+: l'.set pos b := by
  obtain ⟨t, rfl⟩ := h
  rw [List.set_append_right _ _ hpos]
  exact List.prefix_append _ _

theorem Extends.patch {c c' : Compiler W} (h : Extends c c') {pos : ℕ} (hpos : c.code.length ≤ pos)
    (target : ℕ) : Extends c (c'.patch pos target) :=
  ⟨prefix_set (prefix_set h.code hpos _) (by omega) _, h.consts, h.names, h.nslots⟩

theorem Extends.setName {c c' : Compiler W} (h : Extends c c') {slot : ℕ} (hslot : c.nslots ≤ slot)
    (name : Option CStr) :
    Extends c { c' with slotNames := Function.update c'.slotNames slot name } := by
  refine ⟨h.code, h.consts, fun i hi => ?_, h.nslots⟩
  have hne : i ≠ slot := by omega
  exact (Function.update_of_ne hne _ _).trans (h.names i hi)

theorem Extends.withSlots {c c' : Compiler W} (h : Extends c c') {n : ℕ} (hn : c.nslots ≤ n) :
    Extends c { c' with nslots := n } := ⟨h.code, h.consts, h.names, hn⟩

/-- A rollback to a later point. -/
theorem Extends.rollback {c c₁ c₂ : Compiler W} (h₁ : Extends c c₁) (h₂ : Extends c c₂) :
    Extends c (c₁.rollback c₂) :=
  ⟨List.prefix_take_iff.mpr ⟨h₂.code, h₁.code.length_le⟩,
    List.prefix_take_iff.mpr ⟨h₂.consts, h₁.consts.length_le⟩, h₂.names, h₂.nslots⟩

variable (ctx) in
theorem extends_run (hcount : ∀ e tail c kind, c.count kind ≤ (f e tail c).count kind)
    (hf : ∀ e tail c, Extends c (f e tail c)) {c₀ : Compiler W} {p : Plan}
    (hp : p.Within c₀.code.length c₀.nslots) {c : Compiler W} (h : Extends c₀ c) :
    Extends c₀ (p.run ctx f c).1 := by
  have hslots (p : Plan) (c : Compiler W) : c.nslots ≤ (p.run ctx f c).1.nslots :=
    count_le_run ctx hcount p c .slots
  induction p generalizing c with
  | done => exact h
  | ret => exact h
  | fail => exact ⟨h.code, h.consts, h.names, h.nslots⟩
  | check k ih =>
    rw [Plan.run]
    split_ifs
    · exact h
    · exact ih hp h
  | emit b k ih => exact ih hp (h.emit b)
  | const v k ih => exact ih _ (hp _) (h.addConst _ v)
  | expr e tail k ih => exact ih hp (h.trans (hf e tail c))
  | here k ih => exact ih _ (hp _ h.code.length_le) h
  | patch pos target k ih => exact ih hp.2 (h.patch hp.1 target)
  | findSlot name k ih => exact ih _ (hp _) h
  | numSlots k ih => exact ih _ (hp _ h.nslots) h
  | letDepth k ih => exact ih _ (hp _) h
  | setName slot name k ih => exact ih hp.2 (h.setName hp.1 name)
  | slots n body k ihb ihk =>
    have hle := hslots body { c with nslots := c.nslots + n }
    have hb := ihb hp.1 (h.withSlots (h.nslots.trans (Nat.le_add_right _ n)))
    rw [Plan.run]
    generalize body.run ctx f { c with nslots := c.nslots + n } = r at hle hb
    split_ifs
    · exact ihk hp.2 (hb.withSlots (h.nslots.trans (Nat.le_sub_of_add_le hle)))
    · exact hb
  | reset values k ihv ihk =>
    have hv := ihv hp.1 h
    rw [Plan.run]
    generalize values.run ctx f c = r at hv
    split_ifs
    · exact ihk hp.2 (hv.withSlots h.nslots)
    · exact hv
  | deeper body k ihb ihk =>
    have hb := ihb hp.1 (⟨h.code, h.consts, h.names, h.nslots⟩ :
      Extends c₀ { c with nletDepth := c.nletDepth + 1 })
    rw [Plan.run]
    generalize body.run ctx f { c with nletDepth := c.nletDepth + 1 } = r at hb
    split_ifs
    · exact ihk hp.2 ⟨hb.code, hb.consts, hb.names, hb.nslots⟩
    · exact hb
  | expand name e k ih => exact ih _ (hp _) ⟨h.code, h.consts, h.names, h.nslots⟩
  | attempt p k ihp ihk =>
    have hp' := ihp hp.1 h
    rw [Plan.run]
    generalize (p.run ctx f c).1 = c' at hp'
    split_ifs
    · exact ihk hp.2 (h.rollback hp')
    · exact hp'

end Alcove.Codegen
