import Alcove.Vector.Closed

/-!
# Arguments that are the same object

An in-place operation is free of aliasing when its target ends with the same numbers as in a call where the
other arguments are copies. The pattern of a call is the call without its scalar; whether it is free of aliasing
depends on the pattern, the kinds and the lengths. The row products of `mat-vec!` and `mat-vec-t!` are not, and
the arithmetic that shows it only tells what depends on one number (`Taint`).

**Main result:** `alias_free_iff`.
-/

namespace Alcove.Vector

open Lib

variable {ι D : Type}

namespace TensorCall

/-- A pattern with its scalar. -/
def withScalar {α β : Type} (a : β) : TensorCall ι α → TensorCall ι β
  | dot x y => dot x y
  | sum v => sum v
  | argmax v => argmax v
  | axpy y _ x => axpy y a x
  | scale v _ => scale v a
  | add y x => add y x
  | sub y x => sub y x
  | mul y x => mul y x
  | countLe c s _ => countLe c s a
  | copy d s => copy d s
  | relu v => relu v
  | softmax v => softmax v
  | matVec b x => matVec b x
  | matVecTo out b x bias => matVecTo out b x bias
  | matVecTTo out b v bias => matVecTTo out b v bias
  | ger b _ u v => ger b a u v
  | matMul b c _ => matMul b c a

/-- The call on the targets `(true, t)` and copies `(false, v)` of the other arguments. -/
def copies {α : Type} : TensorCall ι α → TensorCall (Bool × ι) α
  | dot a b => dot (false, a) (false, b)
  | sum v => sum (false, v)
  | argmax v => argmax (false, v)
  | axpy y a x => axpy (true, y) a (false, x)
  | scale v a => scale (true, v) a
  | add y x => add (true, y) (false, x)
  | sub y x => sub (true, y) (false, x)
  | mul y x => mul (true, y) (false, x)
  | countLe c s lim => countLe (true, c) (false, s) lim
  | copy d s => copy (true, d) (false, s)
  | relu v => relu (true, v)
  | softmax v => softmax (true, v)
  | matVec a x => matVec (false, a) (false, x)
  | matVecTo out a x bias => matVecTo (true, out) (false, a) (false, x) (bias.map (Prod.mk false))
  | matVecTTo out a v bias => matVecTTo (true, out) (false, a) (false, v) (bias.map (Prod.mk false))
  | ger a alpha u v => ger (true, a) alpha (false, u) (false, v)
  | matMul a b k => matMul (false, a) (false, b) k

variable [DecidableEq ι]

/-- For all doubles, all scalars and all numbers in vectors of the kinds `κ` and the lengths `L`, an accepted call
leaves in its target what it leaves there when the other arguments are copies. -/
def AliasFree (κ : ι → Kind) (L : ι → ℕ) (c : TensorCall ι Unit) (t : ι) : Prop :=
  ∀ (D : Type) [Arith D] (a : Boxed D) (σ : ι → Tensor D), (∀ v, (σ v).Intact ∧ (σ v).kind = κ v ∧ (σ v).len = L v) →
    (∀ v ∈ c.operands, (σ v).Numeric) → (c.withScalar a).check L = none →
    ∃ r τ r' τ', (c.withScalar a).exec σ = some (.ok r, τ) ∧
      (c.withScalar a).copies.exec (fun v => σ v.2) = some (.ok r', τ') ∧
      (τ t).len = (τ' (true, t)).len ∧ ∀ i < (τ t).len, (τ t).number i = (τ' (true, t)).number i

/-- Some call of this pattern is accepted on vectors of the lengths `L`. -/
def Accepts (L : ι → ℕ) (c : TensorCall ι Unit) : Prop :=
  ∃ (D : Type) (_ : Arith D) (a : Boxed D), (c.withScalar a).check L = none

/-! ## Calls on copies -/

section copies

variable [Arith D] {L : ι → ℕ} {c : TensorCall ι (Boxed D)} {t : ι}

omit [DecidableEq ι] in
theorem check_copies : c.copies.check (fun v => L v.2) = c.check L := by
  cases c with
  | matVecTo out a x bias => cases bias <;> rfl
  | matVecTTo out a v bias => cases bias <;> rfl
  | matMul a b k => cases k <;> rfl
  | _ => rfl

omit [DecidableEq ι] [Arith D] in
theorem target_copies (h : c.target = some t) : c.copies.target = some (true, t) := by
  cases c <;> cases h <;> rfl

omit [DecidableEq ι] [Arith D] in
theorem rawTarget_copies {u : Bool × ι} (h : c.copies.rawTarget = some u) : c.rawTarget = some u.2 := by
  cases c <;> cases h <;> rfl

omit [DecidableEq ι] [Arith D] in
theorem operands_copies : c.copies.operands.map Prod.snd = c.operands := by
  cases c with
  | matVecTo out a x bias => cases bias <;> rfl
  | matVecTTo out a v bias => cases bias <;> rfl
  | _ => rfl

omit [DecidableEq ι] [Arith D] in
theorem aliasSafe_copies : c.copies.AliasSafe fun v => L v.2 := by
  cases c <;> simp [copies, AliasSafe]

omit [DecidableEq ι] in
theorem spec_copies (w : ι → ℕ → D) (k : ℕ) : c.copies.spec (fun v => L v.2) (fun v => w v.2) k = c.spec L w k := by
  cases c with
  | matVecTo out a x bias => cases bias <;> rfl
  | matVecTTo out a v bias => cases bias <;> rfl
  | _ => rfl

/-- An accepted in-place operation on numbers and what it leaves in its target. -/
theorem exec_spec (σ : ι → Tensor D) (h : ∀ v, (σ v).Intact) (hn : ∀ v ∈ c.operands, (σ v).Numeric)
    (hok : c.check (fun v => (σ v).len) = none) (ht : c.target = some t)
    (hraw : ∀ u, c.rawTarget = some u → (σ u).kind ≠ .gen) (hs : c.AliasSafe fun v => (σ v).len) :
    ∃ τ, c.exec σ = some (.ok (.vector t), τ) ∧ (τ t).len = (σ t).len ∧ ∀ k < (σ t).len, (τ t).number k =
      some (c.spec (fun v => (σ v).len) (fun v i => ((σ v).number i).getD zero) k) := by
  obtain ⟨τ, hτ, hv⟩ := exec_of_rel (rel_viewOf h) fun _ => hraw
  obtain ⟨W', hW, he, hnum⟩ := loops_spec (w := fun v i => ((σ v).number i).getD zero) (W := viewOf σ) hok ht hs rfl
    fun v hv i hi => by
      obtain ⟨x, hx⟩ := Option.isSome_iff_exists.mp (hn v hv i hi)
      simp [viewOf, hx]
  have heval : (c.eval fun v => (σ v).len).run (viewOf σ) = (.ok (.vector t), W') := by
    rw [eval_ok hok, View.run_bind hW, View.finish, Rel.run_failed he]
    rfl
  rw [heval] at hτ hv
  exact ⟨τ, hτ, (hv t).1, fun k hk => ((hv t).2 k hk).trans (hnum k hk)⟩

end copies

section scalar

variable {α β : Type} {c : TensorCall ι α} (a : β)

omit [DecidableEq ι] in
@[simp] theorem operands_withScalar : (c.withScalar a).operands = c.operands := by cases c <;> rfl

omit [DecidableEq ι] in
@[simp] theorem target_withScalar : (c.withScalar a).target = c.target := by cases c <;> rfl

omit [DecidableEq ι] in
@[simp] theorem rawTarget_withScalar : (c.withScalar a).rawTarget = c.rawTarget := by cases c <;> rfl

omit [DecidableEq ι] in
@[simp] theorem aliasSafe_withScalar {L : ι → ℕ} : (c.withScalar a).AliasSafe L ↔ c.AliasSafe L := by
  cases c <;> rfl

end scalar

/-- Both calls leave the closed form in their targets. -/
theorem AliasFree.of_safe {κ : ι → Kind} {L : ι → ℕ} {c : TensorCall ι Unit} {t : ι} (ht : c.target = some t)
    (hraw : ∀ u, c.rawTarget = some u → κ u ≠ .gen) (hs : c.AliasSafe L) : c.AliasFree κ L t := by
  intro D _ a σ hσ hn hok
  obtain rfl : L = fun v => (σ v).len := funext fun v => (hσ v).2.2.symm
  have hraw' (u : ι) (hu : (c.withScalar a).rawTarget = some u) : (σ u).kind ≠ .gen := by
    rw [(hσ u).2.1]
    exact hraw u (by simpa using hu)
  obtain ⟨τ, hτ, hlen, hnum⟩ := exec_spec σ (fun v => (hσ v).1) (by simpa using hn) hok (by simpa using ht) hraw'
    (by simpa using hs)
  obtain ⟨τ', hτ', hlen', hnum'⟩ := exec_spec (c := (c.withScalar a).copies) (t := (true, t)) (fun v => σ v.2) (fun v => (hσ v.2).1)
    (fun v hv => hn v.2 (by
      rw [← operands_withScalar a, ← operands_copies]
      exact List.mem_map_of_mem hv))
    (check_copies.trans hok) (target_copies (by simpa using ht)) (fun u hu => hraw' u.2 (rawTarget_copies hu))
    (aliasSafe_copies (L := fun v => (σ v).len))
  refine ⟨_, τ, _, τ', hτ, hτ', hlen.trans hlen'.symm, fun i hi => ?_⟩
  rw [hlen] at hi
  rw [hnum i hi, hnum' i hi]
  exact congrArg some (spec_copies (L := fun v => (σ v).len) (fun v i => ((σ v).number i).getD zero) i).symm

end TensorCall

/-! ## Taint -/

/-- A number of which only is known whether it depends on a certain one. -/
structure Taint where
  dirty : Bool
  deriving DecidableEq

namespace Taint

/-- Everything that depends on something dirty is dirty; the integers other than 0 are. -/
instance : Arith Taint where
  ofInt n := ⟨n ≠ 0⟩
  toInt x := if x.dirty then 1 else 0
  isNaN _ := false
  add x y := ⟨x.dirty || y.dirty⟩
  sub x y := ⟨x.dirty || y.dirty⟩
  mul x y := ⟨x.dirty || y.dirty⟩
  div x y := ⟨x.dirty || y.dirty⟩
  exp x := x
  lt x y := x.dirty < y.dirty
  le x y := x.dirty ≤ y.dirty
  fits _ := true

@[simp] theorem add_dirty (x y : Taint) : (x + y).dirty = (x.dirty || y.dirty) := rfl

@[simp] theorem mul_dirty (x y : Taint) : (x * y).dirty = (x.dirty || y.dirty) := rfl

@[simp] theorem zero_dirty : (zero : Taint).dirty = false := rfl

theorem dotSum_dirty {f g : ℕ → Taint} {s : Taint} {n : ℕ} :
    (dotSum f g s n).dirty = true ↔ s.dirty = true ∨ ∃ j < n, (f j).dirty = true ∨ (g j).dirty = true := by
  induction n with
  | zero => simp [dotSum]
  | succ n ih =>
    simp only [dotSum, add_dirty, mul_dirty, Bool.or_eq_true, ih, Nat.lt_succ_iff_lt_or_eq, or_and_right, exists_or,
      exists_eq_left, or_assoc]

/-- A cell that holds a number. -/
def cell (x : Taint) : Kind → Cell Taint
  | .i64 => .int (Doubles.toInt x)
  | .f64 => .double x
  | .gen => .box (.float x)

theorem cell_num (x : Taint) (k : Kind) : (x.cell k).num k = some (some x) := by
  obtain ⟨b⟩ := x
  cases k <;> cases b <;> rfl

/-- Vectors of the kinds `κ` and the lengths `L` with the numbers `w`. -/
def vectors (κ : ι → Kind) (L : ι → ℕ) (w : ι → ℕ → Taint) (v : ι) : Tensor Taint :=
  ⟨κ v, 0, L v, (List.range (L v)).map fun i => (w v i).cell (κ v)⟩

/-- The view with the numbers `w`. -/
def view (w : ι → ℕ → Taint) : View ι Taint := ⟨fun v i => some (w v i), false⟩

variable {κ : ι → Kind} {L : ι → ℕ} {w : ι → ℕ → Taint}

theorem rel_vectors : Rel L κ True ⟨vectors κ L w, false⟩ (view w) := by
  refine ⟨rfl, fun _ => rfl, fun _ => rfl, fun v i hi => ⟨(w v i).cell (κ v), ?_, cell_num _ _⟩, fun _ => rfl⟩
  simp [vectors, hi]

end Taint

namespace TensorCall

open Taint

variable [DecidableEq ι] {κ : ι → Kind} {L : ι → ℕ} {c : TensorCall ι Unit} {t : ι}

/-- The scalar does not matter here. -/
abbrev tainted (c : TensorCall ι Unit) : TensorCall ι (Boxed Taint) := c.withScalar (.float zero)

/-- A pattern that is free of aliasing does not fault, and leaves the closed form in its target. -/
theorem AliasFree.num (h : c.AliasFree κ L t) (ht : c.target = some t) (hok : c.tainted.check L = none)
    (w : ι → ℕ → Taint) :
    (∀ u, c.rawTarget = some u → κ u ≠ .gen) ∧
      ∀ k < L t, ((c.tainted.eval L).run (view w)).2.num t k = some (c.tainted.spec L w k) := by
  have hσ (v : ι) : (vectors κ L w v).Intact ∧ (vectors κ L w v).kind = κ v ∧ (vectors κ L w v).len = L v := by
    refine ⟨fun i hi => ⟨(w v i).cell (κ v), ?_, ?_⟩, rfl, rfl⟩
    · simp [vectors, show i < L v from hi]
    · rw [show (vectors κ L w v).kind = κ v from rfl, cell_num]
      rfl
  obtain ⟨r, τ, r', τ', hτ, hτ', -, hnum⟩ := h Taint (.float zero) (vectors κ L w) hσ (fun v _ i hi => by
    rw [rel_vectors.number (show i < L v from hi)]
    rfl) hok
  have hraw (u : ι) (hu : c.rawTarget = some u) : κ u ≠ .gen := by
    intro hk
    rw [exec, faults hok (by simpa using hu) hk _ _ rel_vectors] at hτ
    cases hτ
  refine ⟨hraw, fun k hk => ?_⟩
  have hR : Rel L κ True ⟨vectors κ L w, false⟩ (view w) := rel_vectors
  obtain ⟨τ₁, hτ₁, hv⟩ := exec_of_rel (c := c.tainted) hR fun _ u hu => hraw u (by simpa using hu)
  obtain rfl : τ₁ = τ := congrArg Prod.snd (Option.some.inj (hτ₁.symm.trans hτ))
  have hR' : Rel (fun v : Bool × ι => L v.2) (fun v => κ v.2) True ⟨fun v => vectors κ L w v.2, false⟩
      (view fun v => w v.2) := rel_vectors
  obtain ⟨τ₂, hτ₂, hv'⟩ := exec_of_rel (c := c.tainted.copies) hR'
    fun _ u hu => hraw u.2 (by simpa using rawTarget_copies hu)
  obtain rfl : τ₂ = τ' := congrArg Prod.snd (Option.some.inj (hτ₂.symm.trans hτ'))
  obtain ⟨W', hW, he, hspec⟩ := loops_spec (w := fun v : Bool × ι => w v.2) (W := view fun v : Bool × ι => w v.2)
    (check_copies.trans hok) (target_copies (by simpa using ht)) (aliasSafe_copies (L := L)) rfl fun _ _ _ _ => rfl
  rw [← (hv t).2 k hk, hnum k (by rw [(hv t).1]; exact hk), (hv' (true, t)).2 k hk, eval_ok (check_copies.trans hok),
    View.run_bind hW, View.finish, Rel.run_failed he]
  exact (hspec k hk).trans (congrArg some (spec_copies w k))

end TensorCall

/-! ## The row products -/

namespace Taint

open View

variable [DecidableEq ι] {w : ι → ℕ → Taint} {v t : ι} {i j k n : ℕ} {x : Taint}

/-- A number that is written. -/
def upd (w : ι → ℕ → Taint) (t : ι) (i : ℕ) (x : Taint) : ι → ℕ → Taint :=
  Function.update w t (Function.update (w t) i x)

theorem upd_self : upd w t i x t i = x := by simp [upd]

theorem upd_of_ne (h : v = t → k ≠ i) : upd w t i x v k = w v k := by
  obtain rfl | hv := eq_or_ne v t
  · rw [upd, Function.update_self, Function.update_of_ne (h rfl)]
  · rw [upd, Function.update_of_ne hv]

theorem view_upd : (view w).set t i (some x) = view (upd w t i x) := by
  have h : Function.update (view w).num t (Function.update ((view w).num t) i (some x)) = (view (upd w t i x)).num := by
    funext v k
    obtain rfl | hv := eq_or_ne v t
    · obtain rfl | hk := eq_or_ne k i
      · simp [view, upd]
      · simp [view, upd, hk]
    · simp [view, upd, hv]
  rw [View.set, h]
  rfl

omit [DecidableEq ι] in
/-- What each turn of a loop keeps. -/
theorem loop_keeps {body : ℕ → Unit → StateM (View ι Taint) Unit} {I : ℕ → (ι → ℕ → Taint) → Prop}
    (h : ∀ i < n, ∀ w, I i w → ∃ w', (body i ()).run (view w) = ((), view w') ∧ I (i + 1) w') (h0 : I 0 w) :
    ∃ w', (loop n body ()).run (view w) = ((), view w') ∧ I n w' := by
  induction n with
  | zero => exact ⟨w, rfl, h0⟩
  | succ n ih =>
    obtain ⟨w₁, h₁, hI⟩ := ih fun i hi => h i (by omega)
    obtain ⟨w₂, h₂, hI'⟩ := h n (by omega) w₁ hI
    exact ⟨w₂, (run_bind h₁).trans h₂, hI'⟩

omit [DecidableEq ι] in
theorem loopUnless_keeps {body : ℕ → Unit → StateM (View ι Taint) Unit} {I : ℕ → (ι → ℕ → Taint) → Prop}
    (h : ∀ i < n, ∀ w, I i w → ∃ w', (body i ()).run (view w) = ((), view w') ∧ I (i + 1) w') (h0 : I 0 w) :
    ∃ w', (loopUnless failed n body ()).run (view w) = ((), view w') ∧ I n w' :=
  loop_keeps (fun i hi w hw => by
    obtain ⟨w', hr, hI⟩ := h i hi w hw
    exact ⟨w', (Rel.run_failed (W := view w) rfl _).trans hr, hI⟩) h0

variable {m : ℕ} {out a u : ι} {bias : Option ι}

/-- When the target of `mat-vec!` is its vector, every row depends on the first element of the matrix. -/
theorem matvecbang_dirty (bias : Option ι) (hn : 0 < n) (ha : a ≠ out) (h0 : (w a 0).dirty = true) :
    ∃ w', (matvecbangLoops m n out a out bias).run (view w) = ((), view w') ∧
      (w' a 0).dirty = true ∧ ∀ k < m, (w' out k).dirty = true := by
  refine loopUnless_keeps (I := fun i w => (w a 0).dirty = true ∧ ∀ k < i, (w out k).dirty = true)
    (fun i _ w hw => ?_) ⟨h0, by simp⟩
  obtain ⟨h0, hk⟩ := hw
  have hs : (dotSum (fun j => w a (i * n + j)) (w out) (biasNum w i bias) n).dirty = true := by
    refine Taint.dotSum_dirty.mpr (.inr ⟨0, hn, ?_⟩)
    obtain rfl | hi := Nat.eq_zero_or_pos i
    · exact .inl (by simpa using h0)
    · exact .inr (hk 0 hi)
  refine ⟨upd w out i (dotSum (fun j => w a (i * n + j)) (w out) (biasNum w i bias) n), ?_,
    by rwa [upd_of_ne fun e => absurd e ha], fun k hk' => ?_⟩
  · rw [run_bind (run_readBias (w := w) fun _ _ => rfl), run_bind (run_dotLoop (F := fun j => w a (i * n + j)) (G := w out)
      (fun _ _ => run_read rfl) fun _ _ => run_read rfl), ← view_upd]
    rfl
  · obtain rfl | hne := eq_or_ne k i
    · rwa [upd_self]
    · rw [upd_of_ne fun _ => hne]
      exact hk k (by omega)

/-- The turn of a row of `mat-vec-t!`. -/
theorem run_rowTurn (vi : Taint) : (do write out j ((← read out j) + vi * (← read a k)) :
    StateM (View ι Taint) Unit).run (view w) = ((), view (upd w out j (w out j + vi * w a k))) := by
  rw [run_bind (run_read rfl), run_bind (run_read rfl), ← view_upd]
  rfl

theorem run_biasTurn : (do write out j (← readBias j bias) : StateM (View ι Taint) Unit).run (view w) =
    ((), view (upd w out j (biasNum w j bias))) := by
  rw [run_bind (run_readBias (w := w) fun _ _ => rfl), ← view_upd]
  rfl

/-- Nothing in the vectors is dirty. -/
def AllClean (L : ι → ℕ) (w : ι → ℕ → Taint) : Prop := ∀ v, ∀ i < L v, (w v i).dirty = false

variable {L : ι → ℕ}

theorem AllClean.upd (h : AllClean L w) (hx : x.dirty = false) : AllClean L (upd w t i x) := by
  intro v k hk
  by_cases e : v = t ∧ k = i
  · obtain ⟨rfl, rfl⟩ := e
    rwa [upd_self]
  · rw [upd_of_ne fun hv hki => e ⟨hv, hki⟩]
    exact h v k hk

/-- When only the target of `mat-vec-t!` is dirty and it is not the bias, it is overwritten before it is read. -/
theorem matvectbang_clean (bias : Option ι) (ha : L a = m * n) (hu : L u = m) (hout : L out = n)
    (hb : ∀ b, bias = some b → b ≠ out ∧ L b = n) (h : ∀ v, ∀ i < L v, v ≠ out → (w v i).dirty = false) :
    ∃ w', (matvectbangLoops m n out a u bias).run (view w) = ((), view w') ∧ AllClean L w' := by
  obtain ⟨w₁, h₁, hI⟩ : ∃ w₁, (loop n (fun j _ => do write out j (← readBias j bias)) () :
      StateM (View ι Taint) Unit).run (view w) = ((), view w₁) ∧
        ∀ v, ∀ i < L v, (v = out → i < n) → (w₁ v i).dirty = false := by
    refine loop_keeps (I := fun j w => ∀ v, ∀ i < L v, (v = out → i < j) → (w v i).dirty = false)
      (fun j hj w hw => ⟨_, run_biasTurn, fun v i hi hlt => ?_⟩) fun v i hi h0 => h v i hi fun e => by
        have := h0 e
        omega
    by_cases e : v = out ∧ i = j
    · obtain ⟨rfl, rfl⟩ := e
      rw [upd_self]
      cases bias with
      | none => rfl
      | some b =>
        obtain ⟨hne, hlen⟩ := hb b rfl
        exact hw b i (hlen ▸ hj) fun e => absurd e hne
    · rw [upd_of_ne fun hv hij => e ⟨hv, hij⟩]
      exact hw v i hi fun hv => by
        have := hlt hv
        have : i ≠ j := fun hij => e ⟨hv, hij⟩
        omega
  rw [matvectbangLoops, run_bind h₁]
  refine loopUnless_keeps (I := fun _ w => AllClean L w) (fun i hi w hw => ?_) fun v i hi => hI v i hi fun e => by
    rw [← hout, ← e]
    exact hi
  rw [matvectRow, run_bind (run_read (x := w u i) rfl)]
  have hvi : (w u i).dirty = false := hw u i (hu ▸ hi)
  refine loop_keeps (I := fun _ w => AllClean L w) (fun j hj w hw => ⟨_, run_rowTurn _, hw.upd ?_⟩) hw
  rw [add_dirty, mul_dirty, hvi, hw out j (hout ▸ hj), hw a _ (ha ▸ Rel.index_lt hi hj)]
  rfl

/-- A turn of a row keeps what is dirty. -/
theorem rowTurn_keeps {vi y : Taint} (h : (w v k).dirty = true) : (upd w out j (w out j + vi * y) v k).dirty = true := by
  by_cases e : v = out ∧ k = j
  · obtain ⟨rfl, rfl⟩ := e
    rw [upd_self, add_dirty, h, Bool.true_or]
  · rwa [upd_of_ne fun hv hk => e ⟨hv, hk⟩]

/-- When the target of `mat-vec-t!` is its vector and its bias, element 1 of the matrix reaches element 1 of the
target in the first row, and every element in the second. -/
theorem matvectbang_dirty (hm : 2 ≤ m) (hn : 2 ≤ n) (ha : a ≠ out) (h1 : (w a 1).dirty = true) :
    ∃ w', (matvectbangLoops m n out a out (some out)).run (view w) = ((), view w') ∧ (w' out 0).dirty = true := by
  obtain ⟨w₁, h₁, hI⟩ : ∃ w₁, (loop n (fun j _ => do write out j (← readBias j (some out))) () :
      StateM (View ι Taint) Unit).run (view w) = ((), view w₁) ∧ (w₁ a 1).dirty = true :=
    loop_keeps (I := fun _ w => (w a 1).dirty = true)
      (fun j _ w hw => ⟨_, run_biasTurn, by rwa [upd_of_ne fun e => absurd e ha]⟩) h1
  rw [matvectbangLoops, run_bind h₁]
  obtain ⟨w', hr, -, -, h0⟩ : ∃ w', (loopUnless failed m (fun i _ => matvectRow n i out a out) () :
      StateM (View ι Taint) Unit).run (view w₁) = ((), view w') ∧ (w' a 1).dirty = true ∧
        (1 ≤ m → (w' out 1).dirty = true) ∧ (2 ≤ m → (w' out 0).dirty = true) := by
    refine loopUnless_keeps (I := fun i w => (w a 1).dirty = true ∧ (1 ≤ i → (w out 1).dirty = true) ∧
      (2 ≤ i → (w out 0).dirty = true)) (fun i _ w hw => ?_) ⟨hI, by omega, by omega⟩
    obtain ⟨h1, hi1, hi0⟩ := hw
    rw [matvectRow, run_bind (run_read (x := w out i) rfl)]
    obtain ⟨w', hr, ha1, h1', h0'⟩ : ∃ w', (loop n (fun j _ => do
        write out j ((← read out j) + w out i * (← read a (i * n + j)))) () : StateM (View ι Taint) Unit).run (view w) =
          ((), view w') ∧ (w' a 1).dirty = true ∧ (1 ≤ i ∨ 2 ≤ n → (w' out 1).dirty = true) ∧
            (1 ≤ i ∧ (2 ≤ i ∨ 1 ≤ n) → (w' out 0).dirty = true) := by
      refine loop_keeps (I := fun j w' => (w' a 1).dirty = true ∧ (1 ≤ i ∨ 2 ≤ j → (w' out 1).dirty = true) ∧
        (1 ≤ i ∧ (2 ≤ i ∨ 1 ≤ j) → (w' out 0).dirty = true)) (fun j _ w' hw' => ?_)
        ⟨h1, fun h => hi1 (by omega), fun h => hi0 (by omega)⟩
      obtain ⟨ha1, h1', h0'⟩ := hw'
      refine ⟨_, run_rowTurn _, rowTurn_keeps ha1, fun hj => ?_, fun hj => ?_⟩
      · obtain rfl | hne := eq_or_ne j 1
        · rw [upd_self, add_dirty, mul_dirty]
          obtain rfl | hi := Nat.eq_zero_or_pos i
          · simp [ha1]
          · simp [h1' (.inl hi)]
        · exact rowTurn_keeps (h1' (by omega))
      · obtain rfl | hne := Nat.eq_zero_or_pos j
        · obtain rfl | hi := eq_or_ne i 1
          · rw [upd_self, add_dirty, mul_dirty, hi1 le_rfl]
            simp
          · exact rowTurn_keeps (h0' (by omega))
        · exact rowTurn_keeps (h0' (by omega))
    exact ⟨w', hr, ha1, fun _ => h1' (by omega), fun _ => h0' (by omega)⟩
  exact ⟨w', hr, h0 hm⟩

end Taint

namespace TensorCall

open Taint

variable [DecidableEq ι] {κ : ι → Kind} {L : ι → ℕ} {c : TensorCall ι Unit} {t : ι}

omit [DecidableEq ι] in
/-- What is accepted does not depend on the scalar, as long as it is a number. -/
theorem Accepts.tainted (h : c.Accepts L) (ht : c.target = some t) : c.tainted.check L = none := by
  obtain ⟨D, _, a, h⟩ := h
  cases c with
  | axpy y _ x =>
    have := (passed (passed h).2).1
    simp_all [TensorCall.tainted, withScalar, check, Boxed.toDouble]
  | countLe y x _ =>
    have := (passed (passed h).2).1
    simp_all [TensorCall.tainted, withScalar, check, Boxed.toDouble]
  | ger b _ u v =>
    have := (passed (passed h).2).1
    simp_all [TensorCall.tainted, withScalar, check, Boxed.toDouble]
  | scale v _ => rfl
  | dot | sum | argmax | relu | softmax | matVec | matMul => cases ht
  | _ => exact h

/-- The view after an accepted in-place operation. -/
theorem eval_view {c : TensorCall ι (Boxed Taint)} {w w' : ι → ℕ → Taint} {r : Result ι Taint} (hok : c.check L = none)
    (h : (c.loops L).run (view w) = (r, view w')) : ((c.eval L).run (view w)).2 = view w' := by
  rw [eval_ok hok, View.run_bind h, View.finish, Rel.run_failed (W := view w') rfl]
  rfl

theorem AliasFree.safe_matVecTo {out a x : ι} {bias : Option ι}
    (h : AliasFree κ L (.matVecTo out a x bias) out) (hL : Accepts L (.matVecTo out a x bias)) :
    out ≠ x ∨ L out = 1 := by
  by_contra hne
  obtain ⟨rfl, hm1⟩ : out = x ∧ L out ≠ 1 := by tauto
  have hok := hL.tainted rfl
  obtain ⟨-, hm, ha, hb⟩ : L out ≠ 0 ∧ L out ≠ 0 ∧ L a = L out * L out ∧ ¬ misfit L (L out) bias = true := by
    simpa using (passed hok).1
  have haout : a ≠ out := by
    rintro rfl
    exact hm1 (Nat.eq_of_mul_eq_mul_left (Nat.pos_of_ne_zero hm) (by omega))
  obtain ⟨w', hr, -, hdirty⟩ := matvecbang_dirty bias (m := L out) (w := fun v i => ⟨v = a ∧ i = 0⟩)
    (Nat.pos_of_ne_zero hm) haout (by simp)
  have hnum := (h.num rfl hok fun v i => ⟨v = a ∧ i = 0⟩).2 1 (by omega)
  rw [eval_view hok (View.run_bind hr)] at hnum
  have hd := (congrArg Taint.dirty (Option.some.inj hnum)).symm.trans (hdirty 1 (by omega))
  rcases Taint.dotSum_dirty.mp hd with hd | ⟨j, hj, hd | hd⟩
  · cases bias <;> simp [View.biasNum] at hd
  · simp at hd
    omega
  · simp [haout.symm] at hd

theorem AliasFree.safe_matVecTTo {out a v : ι} {bias : Option ι}
    (h : AliasFree κ L (.matVecTTo out a v bias) out) (hL : Accepts L (.matVecTTo out a v bias)) :
    (out ≠ v ∧ out ≠ a) ∨ (bias = some out ∧ L v = 1) := by
  by_contra hne
  have hok := hL.tainted rfl
  obtain ⟨hm, hn, ha, hb⟩ : L v ≠ 0 ∧ L out ≠ 0 ∧ L a = L v * L out ∧ ¬ misfit L (L out) bias = true := by
    simpa using (passed hok).1
  have hone : a = out → L v = 1 := by
    rintro rfl
    exact Nat.eq_of_mul_eq_mul_right (Nat.pos_of_ne_zero hn) (by omega)
  by_cases hbias : bias = some out
  · -- the target is the vector and the bias, and there is a second row
    subst hbias
    have hm2 : L v ≠ 1 := fun h1 => hne (.inr ⟨rfl, h1⟩)
    have haout : a ≠ out := fun e => hm2 (hone e)
    obtain rfl : out = v := by
      by_contra hv
      exact hne (.inl ⟨hv, haout.symm⟩)
    obtain ⟨w', hr, hdirty⟩ := matvectbang_dirty (m := L out) (n := L out) (w := fun v i => ⟨v = a ∧ i = 1⟩) (by omega)
      (by omega) haout (by simp)
    have hnum := (h.num rfl hok fun v i => ⟨v = a ∧ i = 1⟩).2 0 (by omega)
    rw [eval_view hok (View.run_bind hr)] at hnum
    have hd := (congrArg Taint.dirty (Option.some.inj hnum)).symm.trans hdirty
    rcases Taint.dotSum_dirty.mp hd with hd | ⟨i, hi, hd | hd⟩
    · simp [View.biasNum] at hd
    · simp [haout.symm] at hd
    · simp only [decide_eq_true_eq, true_and, Nat.add_zero] at hd
      have := Nat.eq_one_of_mul_eq_one_left hd
      omega
  · -- the target is overwritten before it is read as the vector or the matrix
    obtain ⟨w', hr, hclean⟩ := matvectbang_clean bias (u := v) (w := fun v _ => ⟨v = out⟩) ha rfl rfl
      (fun b e => ⟨fun hb' => hbias (hb' ▸ e), by
        subst e
        exact Rel.length_of_fits hb⟩)
      fun v _ _ hv => by simp [hv]
    have hnum := (h.num rfl hok fun v _ => ⟨v = out⟩).2 0 (by omega)
    rw [eval_view hok (View.run_bind hr)] at hnum
    have hd := (congrArg Taint.dirty (Option.some.inj hnum)).symm.trans (hclean out 0 (by omega))
    have hdirty : (TensorCall.spec L (fun v _ => (⟨v = out⟩ : Taint)) (tainted (.matVecTTo out a v bias)) 0).dirty = true := by
      refine Taint.dotSum_dirty.mpr (.inr ⟨0, by omega, ?_⟩)
      have : out = v ∨ out = a := by tauto
      simpa [eq_comm] using this
    rw [hdirty] at hd
    cases hd

end TensorCall

/-- An in-place operation is free of aliasing exactly when its raw target is not boxed and its row products do not
read what they have written. -/
theorem alias_free_iff [DecidableEq ι] {κ : ι → Kind} {L : ι → ℕ} {c : TensorCall ι Unit} {t : ι}
    (ht : c.target = some t) (hL : c.Accepts L) :
    c.AliasFree κ L t ↔ (∀ u, c.rawTarget = some u → κ u ≠ .gen) ∧ c.AliasSafe L := by
  refine ⟨fun h => ⟨(h.num ht (hL.tainted ht) fun _ _ => zero).1, ?_⟩, fun h => .of_safe ht h.1 h.2⟩
  cases c with
  | matVecTo out a x bias =>
    cases ht
    exact h.safe_matVecTo hL
  | matVecTTo out a v bias =>
    cases ht
    exact h.safe_matVecTTo hL
  | _ => trivial

/-- `(vec-axpy! v a v)` of integers. -/
theorem alias_free_axpy : (TensorCall.axpy () () ()).AliasFree (fun _ => .i64) (fun _ => 3) () :=
  (alias_free_iff rfl ⟨Taint, inferInstance, .float zero, rfl⟩).mpr ⟨fun _ h => (by cases h), trivial⟩

/-- `(mat-vec! v (vector 1.0 1.0 1.0 1.0) v)` with 1.0 and 1.0 in `v` ends with 2.0 and 3.0 in it, and with 2.0 and
2.0 when the vector that is multiplied is a copy. -/
theorem matvec_aliased :
    ¬ (TensorCall.matVecTo false true false none).AliasFree (fun _ => .f64) (fun v => if v then 4 else 2) false := by
  intro h
  have hcell (v : Bool) (i : ℕ) (hi : i < if v then 4 else 2) :
      ((List.range (if v then 4 else 2)).map fun _ => Cell.double (⟨1⟩ : Whole))[0 + i]? = some (.double ⟨1⟩) := by
    simp [hi]
  obtain ⟨r, τ, r', τ', hτ, hτ', -, hnum⟩ := h Whole (.float ⟨0⟩)
    (fun v => ⟨.f64, 0, if v then 4 else 2, (List.range (if v then 4 else 2)).map fun _ => .double ⟨1⟩⟩)
    (fun v => ⟨fun i hi => ⟨.double ⟨1⟩, hcell v i hi, rfl⟩, rfl, rfl⟩)
    (fun v _ i hi => by rw [Tensor.number, hcell v i hi]; rfl) rfl
  obtain rfl := congrArg Prod.snd (Option.some.inj hτ)
  obtain rfl := congrArg Prod.snd (Option.some.inj hτ')
  have h3 : some (⟨3⟩ : Whole) = some ⟨2⟩ := hnum 1 (by decide)
  cases h3

end Alcove.Vector
