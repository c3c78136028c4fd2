import Alcove.Vector.Errors

/-!
# Kinds that do not matter

A call on vectors of any kinds returns what it returns on vectors of doubles with the same numbers, and leaves
the same numbers; an element that is no number is an error. Two things break this. A boxed target of `mat-vec!`
or `mat-vec-t!` gets raw doubles stored over its pointers. And of a product with an empty matrix the other
operand is never read, so that its elements may be anything.

**Main result:** `kind_independent`.
-/

namespace Alcove.Vector

open Lib

variable {ι D : Type} [Arith D]

/-! ## Numbers of vectors -/

namespace Tensor

/-- The number at an index, if the element is one. -/
def number (t : Tensor D) (i : ℕ) : Option D := t.cells[t.start + i]?.bind fun c => (c.num t.kind).join

/-- The cells of the window are there, and are what the kind says. -/
def Intact (t : Tensor D) : Prop := ∀ i < t.len, ∃ c, t.cells[t.start + i]? = some c ∧ (c.num t.kind).isSome

/-- All elements are numbers. -/
def Numeric (t : Tensor D) : Prop := ∀ i < t.len, (t.number i).isSome

/-- The vector of doubles with the same numbers. -/
def doubles (t : Tensor D) : Tensor D :=
  ⟨.f64, 0, t.len, (List.range t.len).map fun i => .double ((t.number i).getD zero)⟩

end Tensor

/-- Vectors with the same numbers. -/
def SameNumbers (σ τ : ι → Tensor D) : Prop :=
  ∀ v, (σ v).len = (τ v).len ∧ ∀ i < (σ v).len, (σ v).number i = (τ v).number i

namespace TensorCall

/-- The vectors of a call. -/
def operands {α : Type} : TensorCall ι α → List ι
  | dot a b | copy a b | add a b | sub a b | mul a b | matVec a b => [a, b]
  | sum v | argmax v | relu v | softmax v | scale v _ => [v]
  | axpy y _ x => [y, x]
  | countLe c s _ => [c, s]
  | matVecTo out a x bias => out :: a :: x :: bias.toList
  | matVecTTo out a v bias => out :: a :: v :: bias.toList
  | ger a _ u v => [a, u, v]
  | matMul a b _ => [a, b]

/-- The operands of a call that returns a fresh product. -/
def product {α : Type} : TensorCall ι α → Option (ι × ι)
  | matVec a x => some (a, x)
  | matMul a b _ => some (a, b)
  | _ => none

variable [DecidableEq ι]

/-- The operands as vectors of doubles. -/
def asDoubles {α : Type} (c : TensorCall ι α) (σ : ι → Tensor D) : ι → Tensor D := fun v =>
  if v ∈ c.operands then (σ v).doubles else σ v

/-- With numbers in all operands, the call returns what it returns on doubles and leaves the same numbers; an
element that is no number is an error. -/
def Uniform (c : TensorCall ι (Boxed D)) (σ : ι → Tensor D) : Prop :=
  ((∀ v ∈ c.operands, (σ v).Numeric) →
    ∃ r τ τ', c.exec σ = some (r, τ) ∧ c.exec (c.asDoubles σ) = some (r, τ') ∧ SameNumbers τ τ') ∧
  ((∃ v ∈ c.operands, ¬ (σ v).Numeric) → ∃ e τ, c.exec σ = some (.error e, τ))

/-- In an accepted call, a raw target is not boxed, and when the matrix of a product is empty, the other operand
holds numbers only. -/
def UniformWhen (c : TensorCall ι (Boxed D)) (σ : ι → Tensor D) : Prop :=
  c.check (fun v => (σ v).len) = none →
    (∀ t, c.rawTarget = some t → (σ t).kind ≠ .gen) ∧
    ∀ a x, c.product = some (a, x) → (σ a).len = 0 → (σ x).Numeric

end TensorCall

/-! ## Vectors and their view -/

/-- The numbers of vectors, with the flag down. -/
def viewOf (σ : ι → Tensor D) : View ι D := ⟨fun v i => (σ v).number i, false⟩

variable {L : ι → ℕ} {κ : ι → Kind} {σ : ι → Tensor D}

theorem rel_viewOf (h : ∀ v, (σ v).Intact) :
    Rel (fun v => (σ v).len) (fun v => (σ v).kind) True ⟨σ, false⟩ (viewOf σ) := by
  refine ⟨rfl, fun _ => rfl, fun _ => rfl, fun v i hi => ?_, fun _ => rfl⟩
  obtain ⟨c, hc, hk⟩ := h v i hi
  obtain ⟨o, ho⟩ := Option.isSome_iff_exists.mp hk
  refine ⟨c, hc, ho.trans ?_⟩
  simp [viewOf, Tensor.number, hc, ho]

theorem Rel.number {clean : Prop} {m : Mem ι D} {W : View ι D} (h : Rel L κ clean m W) {v : ι} {i : ℕ}
    (hi : i < L v) : (m.vec v).number i = W.num v i := by
  obtain ⟨c, hc, hn⟩ := h.cell v i hi
  simp [Tensor.number, hc, h.kind, hn]

namespace TensorCall

variable [DecidableEq ι] {c : TensorCall ι (Boxed D)}

theorem rel_asDoubles (h : ∀ v, (σ v).Intact) (hn : ∀ v ∈ c.operands, (σ v).Numeric) :
    Rel (fun v => (σ v).len) (fun v => if v ∈ c.operands then .f64 else (σ v).kind) True ⟨c.asDoubles σ, false⟩
      (viewOf σ) := by
  refine ⟨rfl, fun v => ?_, fun v => ?_, fun v i hi => ?_, fun _ => rfl⟩
  · simp only [asDoubles]
    split <;> rfl
  · simp only [asDoubles]
    split <;> rfl
  · simp only [asDoubles]
    split
    case isTrue hv =>
      obtain ⟨x, hx⟩ := Option.isSome_iff_exists.mp (hn v hv i hi)
      refine ⟨.double x, by simp [Tensor.doubles, hi, hx], ?_⟩
      simp [Cell.num, viewOf, hx]
    case isFalse => exact (rel_viewOf h).cell v i hi

/-- A call on vectors and the same call on their numbers. -/
theorem exec_of_rel {W : View ι D} (hR : Rel L κ True ⟨σ, false⟩ W)
    (hc : c.check L = none → ∀ t, c.rawTarget = some t → κ t ≠ .gen) :
    ∃ τ, c.exec σ = some (((c.eval L).run W).1, τ) ∧
      ∀ v, (τ v).len = L v ∧ ∀ i < L v, (τ v).number i = ((c.eval L).run W).2.num v i := by
  obtain ⟨m, hm, κ', hR'⟩ := refines hc _ W hR
  refine ⟨m.vec, by rw [exec, hm]; rfl, fun v => ⟨hR'.len v, fun i hi => hR'.number hi⟩⟩

/-- The kinds do not matter for what a call returns on numbers. -/
theorem exec_asDoubles (h : ∀ v, (σ v).Intact) (hn : ∀ v ∈ c.operands, (σ v).Numeric)
    (hc : c.check (fun v => (σ v).len) = none → ∀ t, c.rawTarget = some t → (σ t).kind ≠ .gen)
    (hop : ∀ t, c.rawTarget = some t → t ∈ c.operands) :
    ∃ r τ τ', c.exec σ = some (r, τ) ∧ c.exec (c.asDoubles σ) = some (r, τ') ∧ SameNumbers τ τ' := by
  obtain ⟨τ, hτ, hv⟩ := exec_of_rel (rel_viewOf h) hc
  obtain ⟨τ', hτ', hv'⟩ := exec_of_rel (rel_asDoubles h hn) fun _ t ht => by simp [hop t ht]
  refine ⟨_, τ, τ', hτ, hτ', fun v => ⟨?_, fun i hi => ?_⟩⟩
  · rw [(hv v).1, (hv' v).1]
  · rw [(hv v).1] at hi
    rw [(hv v).2 i hi, (hv' v).2 i hi]

/-! ## Errors -/

/-- The row and the column of an index. -/
theorem row_col {m n i : ℕ} (h : i < m * n) : i / n < m ∧ i % n < n ∧ i = i / n * n + i % n := by
  have hn : 0 < n := by
    rcases Nat.eq_zero_or_pos n with rfl | hn
    · simp at h
    · exact hn
  refine ⟨(Nat.div_lt_iff_lt_mul hn).mpr h, Nat.mod_lt i hn, ?_⟩
  rw [Nat.mul_comm]
  exact (Nat.div_add_mod i n).symm

theorem passed {α : Type} {p : Prop} [Decidable p] {e : α} {o : Option α} (h : (if p then some e else o) = none) :
    ¬ p ∧ o = none := by
  split at h
  · cases h
  · exact ⟨‹_›, h⟩

/-- An element that is no number raises the flag in every accepted call that reads it. -/
theorem catches {v : ι} {i : ℕ} (hok : c.check L = none) (hcopy : ∀ d s, c ≠ .copy d s) (hv : v ∈ c.operands)
    (hi : i < L v) (hraw : ∀ t, c.rawTarget = some t → v ≠ t)
    (hprod : ∀ a x, c.product = some (a, x) → L a ≠ 0) : View.Catches v i (c.loops L) := by
  have hret {q : StateM (View ι D) Unit} {r : Result ι D} (h : View.Catches v i q) :
      View.Catches v i (do q; return r : StateM (View ι D) (Result ι D)) := h.bind fun _ => View.stays_pure _
  have hbin {op : D → D → D} {y x : ι} {r : Result ι D} (hyx : L y = L x) (hv : v = y ∨ v = x) :
      View.Catches v i (do View.binaryLoop op (L y) y x; return r : StateM (View ι D) (Result ι D)) := by
    refine hret (View.catches_binaryLoop hv ?_)
    obtain rfl | rfl := hv
    · exact hi
    · exact hyx ▸ hi
  cases c with
  | dot a b =>
    have hab : L a = L b := by simpa [check] using hok
    refine (View.catches_dotLoop (p := id) (q := id) (k := i) ?_ ?_).bind fun _ => View.stays_pure _
    · simp only [operands, List.mem_cons, List.not_mem_nil, or_false] at hv
      obtain rfl | rfl := hv
      · exact hi
      · rw [hab]
        exact hi
    · simpa [operands] using hv
  | sum a =>
    obtain rfl : v = a := by simpa [operands] using hv
    exact (View.catches_sumLoop hi).bind fun _ => View.stays_pure _
  | argmax a =>
    obtain rfl : v = a := by simpa [operands] using hv
    exact (View.catches_argmaxLoop hi).bind fun _ => View.stays_pure _
  | axpy y a x => exact hbin (not_not.mp (passed (passed hok).2).1) (by simpa [operands] using hv)
  | scale w a =>
    obtain rfl : v = w := by simpa [operands] using hv
    exact hret (View.catches_unaryLoop hi)
  | add y x => exact hbin (not_not.mp (passed hok).1) (by simpa [operands] using hv)
  | sub y x => exact hbin (not_not.mp (passed hok).1) (by simpa [operands] using hv)
  | mul y x => exact hbin (not_not.mp (passed hok).1) (by simpa [operands] using hv)
  | countLe a b lim => exact hbin (not_not.mp (passed (passed hok).2).1) (by simpa [operands] using hv)
  | copy d s => exact absurd rfl (hcopy d s)
  | relu w =>
    obtain rfl : v = w := by simpa [operands] using hv
    exact hret (View.catches_unaryLoop hi)
  | softmax w =>
    obtain rfl : v = w := by simpa [operands] using hv
    rw [loops, if_neg (by omega)]
    exact hret (View.catches_softmaxLoops hi)
  | matVec a x =>
    have hx : L x ≠ 0 ∧ L a % L x = 0 := by simpa [check] using hok
    have ha : L a ≠ 0 := hprod a x rfl
    have hm : L a / L x * L x = L a := Nat.div_mul_cancel (Nat.dvd_of_mod_eq_zero hx.2)
    refine (?_ : View.Catches v i (View.matvecLoops _ _ a x)).bind fun _ => View.stays_pure _
    obtain rfl | rfl : v = a ∨ v = x := by simpa [operands] using hv
    · obtain ⟨hr, hc, e⟩ := row_col (hm ▸ hi)
      exact View.catches_matvecLoops hr hc (.inl ⟨rfl, e⟩)
    · exact View.catches_matvecLoops (Nat.pos_of_ne_zero fun h => by simp [h] at hm; omega) hi (.inr ⟨rfl, rfl⟩)
  | matVecTo out a x bias =>
    obtain ⟨hx, hm, ha, hb⟩ : L x ≠ 0 ∧ L out ≠ 0 ∧ L a = L out * L x ∧ ¬ misfit L (L out) bias = true := by
      simpa [check] using hok
    have hne : v ≠ out := hraw out rfl
    have h : v = a ∨ v = x ∨ bias = some v := by simpa [operands, hne] using hv
    refine hret ?_
    obtain rfl | rfl | rfl := h
    · obtain ⟨hr, hc, e⟩ := row_col (ha ▸ hi)
      exact View.catches_matvecbangLoops hne hr hc (.inl ⟨rfl, e⟩)
    · exact View.catches_matvecbangLoops hne (Nat.pos_of_ne_zero hm) hi (.inr (.inl ⟨rfl, rfl⟩))
    · refine View.catches_matvecbangLoops hne ?_ (Nat.pos_of_ne_zero hx) (.inr (.inr ⟨rfl, rfl⟩))
      exact Rel.length_of_fits hb ▸ hi
  | matVecTTo out a u bias =>
    obtain ⟨hm, hn, ha, hb⟩ : L u ≠ 0 ∧ L out ≠ 0 ∧ L a = L u * L out ∧ ¬ misfit L (L out) bias = true := by
      simpa [check] using hok
    have hne : v ≠ out := hraw out rfl
    have h : v = a ∨ v = u ∨ bias = some v := by simpa [operands, hne] using hv
    refine hret ?_
    obtain rfl | rfl | rfl := h
    · obtain ⟨hr, hc, e⟩ := row_col (ha ▸ hi)
      exact View.catches_matvectbangLoops hne hr hc (.inl ⟨rfl, e⟩)
    · exact View.catches_matvectbangLoops hne hi (Nat.pos_of_ne_zero hn) (.inr (.inl ⟨rfl, rfl⟩))
    · refine View.catches_matvectbangLoops hne (Nat.pos_of_ne_zero hm) ?_ (.inr (.inr ⟨rfl, rfl⟩))
      exact Rel.length_of_fits hb ▸ hi
  | ger a alpha u w =>
    obtain ⟨hm, hn, ha⟩ : L u ≠ 0 ∧ L w ≠ 0 ∧ L a = L u * L w := by simpa using (passed (passed hok).2).1
    have hu : u = a → L w = 1 := by
      rintro rfl
      exact Nat.eq_of_mul_eq_mul_left (Nat.pos_of_ne_zero hm) (by omega)
    refine hret ?_
    obtain rfl | rfl | rfl : v = a ∨ v = u ∨ v = w := by simpa [operands] using hv
    · obtain ⟨hr, hc, e⟩ := row_col (ha ▸ hi)
      exact View.catches_vecgerLoops hr hc hu (.inl ⟨rfl, e⟩)
    · exact View.catches_vecgerLoops hi (Nat.pos_of_ne_zero hn) hu (.inr (.inl ⟨rfl, rfl, rfl⟩))
    · exact View.catches_vecgerLoops (Nat.pos_of_ne_zero hm) hi hu (.inr (.inr ⟨rfl, rfl, rfl⟩))
  | matMul a b k =>
    cases k with
    | float x => cases hok
    | other => cases hok
    | fix k =>
      obtain ⟨hk, ha, hb⟩ : 0 < k.1.toNat ∧ L a % k.1.toNat = 0 ∧ L b % k.1.toNat = 0 := by
        have h := (passed hok).1
        omega
      have hm : L a / k.1.toNat * k.1.toNat = L a := Nat.div_mul_cancel (Nat.dvd_of_mod_eq_zero ha)
      have hn : k.1.toNat * (L b / k.1.toNat) = L b := Nat.mul_div_cancel' (Nat.dvd_of_mod_eq_zero hb)
      refine (?_ : View.Catches v i (View.matmulLoops _ _ _ a b)).bind fun _ => View.stays_pure _
      obtain rfl | rfl : v = a ∨ v = b := by simpa [operands] using hv
      · obtain ⟨hr, hc, e⟩ := row_col (hm ▸ hi)
        exact View.catches_matmulLoops (c := 0) hr hc (.inl ⟨rfl, e⟩)
      · have hpos : L a ≠ 0 := hprod a v rfl
        obtain ⟨hr, hc, e⟩ := row_col (hn ▸ hi)
        refine View.catches_matmulLoops (Nat.pos_of_ne_zero fun h => ?_) hr (.inr ⟨rfl, e, hc⟩)
        simp only [innerDim] at h
        rw [h] at hm
        omega

omit [DecidableEq ι] in
theorem rawTarget_mem {α : Type} {c : TensorCall ι α} {t : ι} (h : c.rawTarget = some t) : t ∈ c.operands := by
  cases c <;> cases h <;> simp [operands]

omit [DecidableEq ι] in
theorem product_operands {α : Type} {c : TensorCall ι α} {a x : ι} (h : c.product = some (a, x)) :
    c.operands = [a, x] ∧ c.rawTarget = none := by
  cases c <;> cases h <;> exact ⟨rfl, rfl⟩

/-- Only boxes hold what is no number. -/
theorem numeric_of_typed {t : Tensor D} (h : t.Intact) (hk : t.kind ≠ .gen) : t.Numeric := by
  intro i hi
  obtain ⟨c, hc, hn⟩ := h i hi
  rw [Tensor.number, hc]
  cases hk' : t.kind <;> rw [hk'] at hn hk <;> cases c <;> first | rfl | exact absurd rfl hk | cases hn

/-- An element that is no number is an error. -/
theorem exec_error (h : ∀ v, (σ v).Intact) (hcopy : ∀ d s, c ≠ .copy d s) (hw : c.UniformWhen σ)
    (hn : ∃ v ∈ c.operands, ¬ (σ v).Numeric) : ∃ e τ, c.exec σ = some (.error e, τ) := by
  obtain ⟨τ, hτ, -⟩ := exec_of_rel (rel_viewOf h) fun hok => (hw hok).1
  rw [hτ]
  cases hok : c.check fun v => (σ v).len with
  | some e =>
    rw [eval_error e hok]
    exact ⟨e, τ, rfl⟩
  | none =>
    obtain ⟨v, hv, hv'⟩ := hn
    obtain ⟨hraw, hprod⟩ := hw hok
    obtain ⟨i, hi, hnum⟩ : ∃ i < (σ v).len, (σ v).number i = none := by
      simpa [Tensor.Numeric, Option.isSome_iff_ne_none] using hv'
    have hcatch : View.Catches v i (c.loops fun v => (σ v).len) := by
      refine catches hok hcopy hv hi (fun t ht e => hv' (e ▸ numeric_of_typed (h t) (hraw t ht))) fun a x hax h0 => ?_
      rw [(product_operands hax).1] at hv
      obtain rfl | rfl : v = a ∨ v = x := by simpa using hv
      · omega
      · exact hv' (hprod a v hax h0)
    have hend := (hcatch.bind View.finish_failed) (viewOf σ) (.inr hnum)
    rw [eval_ok hok, hend]
    exact ⟨.nonNumeric, τ, rfl⟩

/-- The product of an empty matrix is empty, whatever the other operand holds. -/
theorem exec_empty (h : ∀ v, (σ v).Intact) {a x : ι} (hax : c.product = some (a, x)) (h0 : (σ a).len = 0)
    (hok : (c.check fun v => (σ v).len) = none) : ∃ τ, c.exec σ = some (.ok (.fresh []), τ) := by
  obtain ⟨τ, hτ, -⟩ := exec_of_rel (c := c) (rel_viewOf h) fun _ t ht => by
    rw [(product_operands hax).2] at ht
    cases ht
  refine ⟨τ, ?_⟩
  rw [hτ, eval_ok hok]
  cases c with
  | matVec b y =>
    cases hax
    simp only [loops, h0, Nat.zero_div]
    rfl
  | matMul b y k =>
    cases hax
    simp only [loops, h0, Nat.zero_div, View.matmulLoops, Nat.zero_mul]
    rfl
  | _ => cases hax

end TensorCall

/-- The kinds do not matter, exactly when no raw target is boxed and no operand of a product is left unread. -/
theorem kind_independent [DecidableEq ι] (c : TensorCall ι (Boxed D)) (hc : ∀ d s, c ≠ .copy d s)
    (h : ∀ v, (σ v).Intact) : c.Uniform σ ↔ c.UniformWhen σ := by
  constructor
  · rintro ⟨hnum, herr⟩ hok
    have hrun : ∃ r τ, c.exec σ = some (r, τ) := by
      by_cases hn : ∀ v ∈ c.operands, (σ v).Numeric
      · obtain ⟨r, τ, -, hr, -⟩ := hnum hn
        exact ⟨r, τ, hr⟩
      · push Not at hn
        obtain ⟨e, τ, he⟩ := herr hn
        exact ⟨_, τ, he⟩
    refine ⟨fun t ht hk => ?_, fun a x hax h0 => ?_⟩
    · obtain ⟨r, τ, hr⟩ := hrun
      rw [TensorCall.exec, TensorCall.faults hok ht hk _ _ (rel_viewOf h)] at hr
      cases hr
    · by_contra hx
      obtain ⟨e, τ, he⟩ := herr ⟨x, by simp [(TensorCall.product_operands hax).1], hx⟩
      obtain ⟨τ', hτ'⟩ := TensorCall.exec_empty h hax h0 hok
      rw [hτ'] at he
      cases he
  · intro hw
    exact ⟨fun hn => TensorCall.exec_asDoubles h hn (fun hok => (hw hok).1) fun t => TensorCall.rawTarget_mem,
      TensorCall.exec_error h hc hw⟩

/-! ## Whole numbers -/

/-- Doubles that are whole numbers. -/
structure Whole where
  val : ℤ
  deriving DecidableEq

instance : Arith Whole where
  ofInt n := ⟨n⟩
  toInt x := x.val
  isNaN _ := false
  add x y := ⟨x.val + y.val⟩
  sub x y := ⟨x.val - y.val⟩
  mul x y := ⟨x.val * y.val⟩
  div x y := ⟨x.val.tdiv y.val⟩
  exp x := ⟨if x.val = 0 then 1 else 0⟩
  lt x y := x.val < y.val
  le x y := x.val ≤ y.val
  fits _ := true

/-- The dot product of integers with boxed numbers. -/
theorem kind_independent_dot :
    (TensorCall.dot false true).Uniform (Bool.rec
      ⟨.i64, 1, 2, [.int 9, .int 1, .int 2]⟩ ⟨.gen, 0, 2, [.box (.fix (makeFix 3)), .box (.float ⟨4⟩)]⟩ :
      Bool → Tensor Whole) := by
  refine (kind_independent _ (fun d s h => by cases h) fun v i hi => ?_).mpr fun _ => ⟨fun t ht => ?_, fun a x hax => ?_⟩
  · cases v <;> (obtain rfl | rfl : i = 0 ∨ i = 1 := by simp only at hi; omega) <;> exact ⟨_, rfl, rfl⟩
  · cases ht
  · cases hax

/-- The target of `mat-vec!` is boxed: a raw double is stored over its pointer. -/
theorem matvec_boxed_target :
    ¬ (TensorCall.matVecTo 0 1 2 none).Uniform (fun v : Fin 3 =>
      if v = 0 then ⟨.gen, 0, 1, [.box (.float ⟨5⟩)]⟩ else ⟨.f64, 0, 1, [.double (⟨2⟩ : Whole)]⟩) := by
  rintro ⟨h, -⟩
  obtain ⟨r, τ, τ', hr, -⟩ := h fun v _ i hi => by
    by_cases hv : v = 0
    · simp only [hv] at hi ⊢
      obtain rfl : i = 0 := by simpa using hi
      rfl
    · simp only [hv] at hi ⊢
      obtain rfl : i = 0 := by simpa using hi
      rfl
  cases hr

end Alcove.Vector
