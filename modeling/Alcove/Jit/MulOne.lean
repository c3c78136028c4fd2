import Alcove.Jit.AddTwo
import Mathlib.Algebra.BigOperators.Intervals
import Mathlib.Algebra.Order.BigOperators.Ring.Finset

/-!
# One call folded into a product

The products that the bytecode and the loop of `try_jit_recurse_mul_one` compute. The bytecode multiplies
from the base case up, the loop from the argument down; the factors are `n`, `n + delta`, and so on
(`product`). Without the factor 0 both leave their range exactly when the whole product does
(`fits_suffix`).

**Main result:** `recursion_folded`. The native code of either shape has the outcome of the bytecode exactly
under `Condition`.
-/

namespace Alcove.Jit

open Lib Numeric

/-! ## Products -/

/-- The product of `k` factors from `n` on. -/
def product (s n : ℤ) (k : ℕ) : ℤ := ∏ i ∈ Finset.range k, (n + i * s)

section Product

variable {s n : ℤ}

@[simp]
theorem product_zero : product s n 0 = 1 := by simp [product]

theorem product_succ (k : ℕ) : product s n (k + 1) = n * product s (n + s) k := by
  rw [product, Finset.prod_range_succ', mul_comm]
  congr 1
  · simp
  · refine Finset.prod_congr rfl fun i _ => ?_
    push_cast
    ring

theorem product_succ_last (k : ℕ) : product s n (k + 1) = product s n k * (n + k * s) :=
  Finset.prod_range_succ _ _

theorem product_add (j k : ℕ) : product s n (j + k) = product s n j * product s (n + j * s) k := by
  rw [product, Finset.prod_range_add]
  congr 1
  refine Finset.prod_congr rfl fun i _ => ?_
  push_cast
  ring

theorem product_ne_zero {k : ℕ} (h : ∀ i < k, n + i * s ≠ 0) : product s n k ≠ 0 :=
  Finset.prod_ne_zero_iff.mpr fun i hi => h i (Finset.mem_range.mp hi)

theorem product_eq_zero {i k : ℕ} (hi : i < k) (h : n + i * s = 0) : product s n k = 0 :=
  Finset.prod_eq_zero (Finset.mem_range.mpr hi) h

/-- The multiples of a step. -/
theorem product_multiples (s : ℤ) (k : ℕ) : product s s k = s ^ k * k.factorial := by
  induction k with
  | zero => simp
  | succ k ih =>
    rw [product_succ_last, ih, Nat.factorial_succ]
    push_cast
    ring

/-- The product from the other end. -/
theorem product_reflect (k : ℕ) : product s n (k + 1) = product (-s) (n + k * s) (k + 1) := by
  rw [product, ← Finset.prod_range_reflect]
  refine Finset.prod_congr rfl fun i hi => ?_
  have hle : i ≤ k := Nat.lt_succ_iff.mp (Finset.mem_range.mp hi)
  rw [show k + 1 - 1 - i = k - i by omega]
  push_cast [hle]
  ring

/-- An odd number divides no power of two. -/
theorem unit_of_odd_dvd {x : ℤ} {m : ℕ} (hodd : x % 2 = 1) (h : x ∣ 2 ^ m) : x = 1 ∨ x = -1 := by
  have hcoprime : Nat.Coprime x.natAbs (2 ^ m) := by
    refine Nat.Coprime.pow_right m (Nat.Coprime.symm (Nat.coprime_two_left.mpr (Nat.odd_iff.mpr ?_)))
    omega
  have hdvd : x.natAbs ∣ 2 ^ m := by simpa using Int.natAbs_dvd_natAbs.mpr h
  have hone := Nat.Coprime.eq_one_of_dvd hcoprime hdvd
  omega

/-- No product behind a factor of 1 or -1 is the power of two at the end of the range. -/
theorem product_ne_pow {m : ℕ} {base x : ℤ} (hm : 33 ≤ m) (hbase : Fits 16 base)
    (hs : s.natAbs ≤ 2 ^ 15) (hs0 : s ≠ 0) (hx : x = 1 ∨ x = -1) {k : ℕ} (hne : k ≠ 0 → x + s ≠ 0) :
    base * product s (x + s) k ≠ 2 ^ m := by
  intro heq
  have hpow : (2 : ℤ) ^ 33 ≤ 2 ^ m := pow_le_pow_right₀ (by norm_num) hm
  obtain ⟨h1, h2⟩ := hbase
  norm_num at h1 h2 hpow
  match k with
  | 0 =>
    rw [product_zero] at heq
    omega
  | 1 =>
    rw [product_succ, product_zero] at heq
    have habs : (base * (x + s)).natAbs ≤ 2 ^ 15 * (2 ^ 15 + 1) := by
      rw [Int.natAbs_mul]
      exact Nat.mul_le_mul (by omega) (by omega)
    rw [mul_one] at heq
    omega
  | k + 2 =>
    -- The second factor is odd.
    have hdvd : x + s + s ∣ 2 ^ m := by
      rw [← heq, product_succ, product_succ]
      exact ⟨base * (x + s) * product s (x + s + s + s) k, by ring⟩
    have := unit_of_odd_dvd (by omega) hdvd
    have := hne (by omega)
    omega

/-- A factor of a number that fits, other than the power of two at the end of the range. -/
theorem fits_of_mul {w : ℕ} {a p : ℤ} (ha : a ≠ 0) (hlast : p ≠ 2 ^ (w - 1) ∨ a ≠ -1)
    (h : Fits w (a * p)) : Fits w p := by
  obtain ⟨h1, h2⟩ := h
  have habs : p.natAbs ≤ (a * p).natAbs := by
    rw [Int.natAbs_mul]
    exact Nat.le_mul_of_pos_left _ (Int.natAbs_pos.mpr ha)
  have hpos : (0 : ℤ) < 2 ^ (w - 1) := by positivity
  refine ⟨by omega, lt_of_le_of_ne (by omega) fun hp => ?_⟩
  -- The other factor is 1 or -1.
  have hone : a.natAbs ≤ 1 := by
    by_contra hlt
    have h2p : 2 * p.natAbs ≤ (a * p).natAbs := by
      rw [Int.natAbs_mul]
      exact Nat.mul_le_mul_right _ (by omega)
    omega
  have hcases : a = 1 ∨ a = -1 := by omega
  rcases hcases with rfl | rfl
  · rw [one_mul] at h2
    omega
  · rcases hlast with h | h
    · exact h hp
    · exact h rfl

/-- **Where the whole product fits, so do the products of the last factors**, with a small `base` and a
small step. -/
theorem fits_suffix {w : ℕ} {base : ℤ} (hw : 34 ≤ w) (hbase : Fits 16 base) (hs : s.natAbs ≤ 2 ^ 15)
    (hs0 : s ≠ 0) {L : ℕ} (hne : ∀ i < L, n + i * s ≠ 0) (h : Fits w (base * product s n L)) {k : ℕ}
    (hk : k ≤ L) : Fits w (base * product s (n + k * s) (L - k)) := by
  have hsplit : base * product s n L = product s n k * (base * product s (n + k * s) (L - k)) := by
    rw [show L = k + (L - k) by omega, product_add, Nat.add_sub_cancel_left]
    ring
  have hpos : (0 : ℤ) < 2 ^ (w - 1) := by positivity
  have hhead : product s n k ≠ 0 := product_ne_zero fun i hi => hne i (by omega)
  have hlast : base * product s (n + k * s) (L - k) ≠ 2 ^ (w - 1) ∨ product s n k ≠ -1 := by
    by_contra hboth
    rw [not_or, not_not, not_not] at hboth
    obtain ⟨hpow, hone⟩ := hboth
    match k with
    | 0 => simp at hone
    | k + 1 =>
      rw [product_succ_last] at hone
      have hx : n + k * s = 1 ∨ n + k * s = -1 :=
        Int.eq_one_or_neg_one_of_mul_eq_neg_one ((mul_comm _ _).trans hone)
      have hnext : n + ((k + 1 : ℕ) : ℤ) * s = n + k * s + s := by push_cast; ring
      rw [hnext] at hpow
      refine product_ne_pow (by omega) hbase hs hs0 hx (fun hL => ?_) hpow
      rw [← hnext]
      exact hne (k + 1) (by omega)
  exact fits_of_mul hhead hlast (hsplit ▸ h)

end Product

namespace RecurseMulOne

variable {m : RecurseMulOne} {n : ℤ}

/-! ## The way to the base case -/

theorem delta_le (m : RecurseMulOne) : m.delta.natAbs ≤ 2 ^ 15 := by
  obtain ⟨h1, h2⟩ := m.fits2
  norm_num at h1 h2
  unfold delta
  cases m.stepOp <;> rw [Step.delta] <;> omega

theorem First.unique {L L' : ℕ} (h : m.First n L) (h' : m.First n L') : L = L' := by
  rcases lt_trichotomy L L' with hlt | heq | hlt
  · exact absurd (h.1.symm.trans (h'.2 L hlt)) (by decide)
  · exact heq
  · exact absurd (h'.1.symm.trans (h.2 L' hlt)) (by decide)

theorem exists_first {k : ℕ} (h : m.cmpOp.int (n + k * m.delta) m.K1 = true) : ∃ L, m.First n L := by
  classical
  have hex : ∃ k : ℕ, m.cmpOp.int (n + k * m.delta) m.K1 = true := ⟨k, h⟩
  exact ⟨Nat.find hex, Nat.find_spec hex, fun k hk => by simpa using Nat.find_min hex hk⟩

/-- The rest of the way after `j` steps. -/
theorem First.drop {L : ℕ} (h : m.First n L) {j : ℕ} (hj : j ≤ L) :
    m.First (n + j * m.delta) (L - j) := by
  have hat (k : ℕ) : n + j * m.delta + k * m.delta = n + ((j + k : ℕ) : ℤ) * m.delta := by
    push_cast
    ring
  refine ⟨?_, fun k hk => ?_⟩
  · rw [hat, Nat.add_sub_cancel' hj]
    exact h.1
  · rw [hat]
    exact h.2 _ (by omega)

/-- The base case is near `K1`. -/
theorem near_of_first {L : ℕ} (h : m.First n (L + 1)) : (n + ((L + 1 : ℕ) : ℤ) * m.delta).natAbs ≤ 2 ^ 17 := by
  have hlast := h.2 L (Nat.lt_succ_self L)
  have hfirst := h.1
  obtain ⟨h1, h2⟩ := m.fits1
  norm_num at h1 h2
  have hs := m.delta_le
  have hnext : n + ((L + 1 : ℕ) : ℤ) * m.delta = n + L * m.delta + m.delta := by push_cast; ring
  rw [hnext] at hfirst ⊢
  generalize n + L * m.delta = x at *
  cases hc : m.cmpOp <;>
  · simp only [hc, Builtin.Cmp.int, decide_eq_true_eq, decide_eq_false_iff_not] at hlast hfirst
    omega

/-- Every number on the way is a fixnum. -/
theorem First.fits {L : ℕ} (h : m.First n L) (hn : Fits 61 n) {k : ℕ} (hk : k ≤ L) :
    Fits 61 (n + k * m.delta) := by
  obtain ⟨h1, h2⟩ := hn
  norm_num at h1 h2
  match L with
  | 0 =>
    obtain rfl : k = 0 := by omega
    rw [Nat.cast_zero, zero_mul, add_zero]
    exact ⟨by norm_num; omega, by norm_num; omega⟩
  | L + 1 =>
    have hnear := near_of_first h
    have hk' : (k : ℤ) ≤ ((L + 1 : ℕ) : ℤ) := by exact_mod_cast hk
    -- `k` steps lead to a number between `n` and the base case.
    rcases le_total 0 m.delta with hs | hs
    · have hle := mul_le_mul_of_nonneg_right hk' hs
      have h0 := mul_nonneg (Int.natCast_nonneg k) hs
      constructor <;> norm_num <;> omega
    · have hle := mul_le_mul_of_nonpos_right hk' hs
      have h0 := mul_nonpos_of_nonneg_of_nonpos (Int.natCast_nonneg k) hs
      constructor <;> norm_num <;> omega

theorem First.delta_ne_zero {L : ℕ} (h : m.First n L) (hL : L ≠ 0) : m.delta ≠ 0 := by
  intro h0
  have h1 := h.1
  have h2 := h.2 0 (Nat.pos_of_ne_zero hL)
  rw [h0, mul_zero, add_zero] at h1 h2
  rw [h1] at h2
  cases h2

/-! ## The bytecode -/

section Bytecode

variable {D : Type} [Double D]

theorem run_base (h : m.cmpOp.int n m.K1 = true) (depth : ℕ) :
    m.run (D := D) (depth + 1) (.fix n) = some (.ok (.fix m.BASE)) := by
  rw [run, test_fix, Test.int, h]
  rfl

theorem run_step (h : m.cmpOp.int n m.K1 = false) (depth : ℕ) :
    m.run (D := D) (depth + 1) (.fix n) =
      Outcome.andThen (some (fixnum (n + m.delta))) fun a =>
        (m.run depth a).andThen fun x => Opcode.binary (.arith .mul) (.fix n) x := by
  rw [run, test_fix, Test.int, h, slotFix_step]
  rfl

theorem run_call (h : m.cmpOp.int n m.K1 = false) (hfits : Fits 61 (n + m.delta)) (depth : ℕ) :
    m.run (D := D) (depth + 1) (.fix n) =
      (m.run depth (.fix (n + m.delta))).andThen fun x => Opcode.binary (.arith .mul) (.fix n) x := by
  rw [run_step h, fixnum_of_fits hfits]
  rfl

theorem run_over (h : m.cmpOp.int n m.K1 = false) (hfits : ¬ Fits 61 (n + m.delta)) (depth : ℕ) :
    m.run (D := D) (depth + 1) (.fix n) = some (.error .overflow) := by
  rw [run_step h, fixnum_of_not_fits hfits]
  rfl

/-- Every product on the way back is a fixnum. -/
def Upward (m : RecurseMulOne) (n : ℤ) (L : ℕ) : Prop :=
  ∀ k < L, Fits 61 (m.BASE * product m.delta (n + k * m.delta) (L - k))

theorem upward_succ {L : ℕ} :
    m.Upward n (L + 1) ↔
      Fits 61 (m.BASE * product m.delta n (L + 1)) ∧ m.Upward (n + m.delta) L := by
  have hat (k : ℕ) : n + m.delta + k * m.delta = n + ((k + 1 : ℕ) : ℤ) * m.delta := by
    push_cast
    ring
  constructor
  · intro h
    refine ⟨by simpa using h 0 (Nat.succ_pos L), fun k hk => ?_⟩
    rw [hat]
    have := h (k + 1) (by omega)
    rwa [Nat.add_sub_add_right] at this
  · rintro ⟨h0, h⟩ k hk
    match k with
    | 0 => simpa using h0
    | k + 1 =>
      rw [← hat, Nat.add_sub_add_right]
      exact h k (by omega)

/-- Without the factor 0 all of them are if the last one is. -/
theorem upward_iff {L : ℕ} (hs : m.delta ≠ 0) (hne : ∀ i < L, n + i * m.delta ≠ 0) :
    m.Upward n L ↔ Fits 61 (m.BASE * product m.delta n L) := by
  constructor
  · intro h
    match L with
    | 0 => simpa using fits_of_fits (by decide : 16 ≤ 61) m.fitsBase
    | L + 1 => simpa using h 0 (Nat.succ_pos L)
  · exact fun h k hk => fits_suffix (by decide) m.fitsBase m.delta_le hs hne h hk.le

open Classical in
/-- The result where the base case is reached. -/
theorem run_first {L : ℕ} (hfirst : m.First n L) (hn : Fits 61 n) :
    m.run (D := D) (L + 1) (.fix n) = some
      (if m.Upward n L then .ok (.fix (m.BASE * product m.delta n L)) else .error .overflow) := by
  induction L generalizing n with
  | zero =>
    have hbase := hfirst.1
    rw [Nat.cast_zero, zero_mul, add_zero] at hbase
    have hup : m.Upward n 0 := fun k hk => absurd hk (Nat.not_lt_zero k)
    rw [run_base hbase, product_zero, mul_one, if_pos hup]
  | succ L ih =>
    have hstep := hfirst.2 0 (Nat.succ_pos L)
    have hnext := hfirst.fits hn (k := 1) (by omega)
    have hrest := hfirst.drop (j := 1) (by omega)
    rw [Nat.cast_zero, zero_mul, add_zero] at hstep
    rw [Nat.cast_one, one_mul] at hnext hrest
    rw [run_call hstep hnext, ih hrest hnext, upward_succ]
    have hprod : n * (m.BASE * product m.delta (n + m.delta) L) =
        m.BASE * product m.delta n (L + 1) := by
      rw [product_succ]
      ring
    by_cases hup : m.Upward (n + m.delta) L
    · rw [if_pos hup]
      show Opcode.binary (.arith .mul) (.fix n) (.fix (m.BASE * product m.delta (n + m.delta) L)) = _
      rw [binary_mul, hprod]
      by_cases hfits : Fits 61 (m.BASE * product m.delta n (L + 1))
      · rw [fixnum_of_fits hfits, if_pos ⟨hfits, hup⟩]
      · rw [fixnum_of_not_fits hfits, if_neg fun h => hfits h.1]
    · rw [if_neg hup, if_neg fun h => hup h.2]
      rfl

/-- Without a base case the steps leave the range. -/
theorem run_never (hnever : ∀ k : ℕ, m.cmpOp.int (n + k * m.delta) m.K1 = false) (hn : Fits 61 n)
    {depth : ℕ} {r : Except ArithError (Value D)} (h : m.run depth (.fix n) = some r) :
    r = .error .overflow ∧
      ∃ K : ℕ, (∀ k ≤ K, Fits 61 (n + k * m.delta)) ∧ ¬ Fits 61 (n + ((K + 1 : ℕ) : ℤ) * m.delta) := by
  induction depth generalizing n r with
  | zero => cases h
  | succ depth ih =>
    have hstep := hnever 0
    rw [Nat.cast_zero, zero_mul, add_zero] at hstep
    by_cases hnext : Fits 61 (n + m.delta)
    · have hat (k : ℕ) : n + m.delta + k * m.delta = n + ((k + 1 : ℕ) : ℤ) * m.delta := by
        push_cast
        ring
      rw [run_call hstep hnext] at h
      obtain ⟨e, he, hr⟩ := Option.bind_eq_some_iff.mp h
      obtain ⟨rfl, K, hK, hK'⟩ := ih (fun k => by rw [hat]; exact hnever _) hnext he
      refine ⟨(Option.some.inj hr).symm, K + 1, fun k hk => ?_, by rwa [hat] at hK'⟩
      match k with
      | 0 => simpa using hn
      | k + 1 =>
        rw [← hat]
        exact hK k (by omega)
    · rw [run_over hstep hnext] at h
      refine ⟨(Option.some.inj h).symm, 0, fun k hk => ?_, by simpa using hnext⟩
      obtain rfl : k = 0 := by omega
      simpa using hn

end Bytecode

/-! ## The loop -/

theorem loop_extends (m : RecurseMulOne) (rounds : ℕ) (acc n : ℤ) :
    Extends (m.loop rounds acc n) (m.loop (rounds + 1) acc n) := by
  induction rounds generalizing acc n with
  | zero => exact fun _ h => nomatch h
  | succ rounds ih =>
    rw [loop, loop]
    split_ifs
    · exact .refl _
    · exact ih _ _
    · exact .refl _

theorem native_extends {D : Type} (m : RecurseMulOne) (v : Value D) (rounds : ℕ) :
    Extends (m.native v rounds) (m.native v (rounds + 1)) := by
  unfold native
  split
  · exact m.loop_extends _ _ _
  · exact .refl _

/-- A product of 0 stays one. -/
theorem loop_zero_ne (m : RecurseMulOne) (rounds : ℕ) (n : ℤ) : m.loop rounds 0 n ≠ some none := by
  induction rounds generalizing n with
  | zero => exact nofun
  | succ rounds ih =>
    have hzero : Fits 64 0 := by decide
    rw [loop, zero_mul, if_pos hzero]
    split_ifs
    · decide
    · exact ih _

/-- Every product on the way down has 64 bits. -/
def Downward (m : RecurseMulOne) (acc n : ℤ) (j : ℕ) : Prop :=
  ∀ k < j, Fits 64 (acc * product m.delta n (k + 1))

theorem downward_succ {acc : ℤ} {j : ℕ} :
    m.Downward acc n (j + 1) ↔ Fits 64 (acc * n) ∧ m.Downward (acc * n) (n + m.delta) j := by
  constructor
  · intro h
    refine ⟨by simpa [product_succ] using h 0 (Nat.succ_pos j), fun k hk => ?_⟩
    have := h (k + 1) (by omega)
    rwa [product_succ, ← mul_assoc] at this
  · rintro ⟨h0, h⟩ k hk
    match k with
    | 0 => simpa [product_succ] using h0
    | k + 1 =>
      rw [product_succ, ← mul_assoc]
      exact h k (by omega)

open Classical in
/-- The first rounds of the loop. -/
theorem loop_rounds {j : ℕ} (hsteps : ∀ k < j, m.cmpOp.int (n + k * m.delta) m.K1 = false)
    (hfits : ∀ k < j, Fits 64 (n + ((k + 1 : ℕ) : ℤ) * m.delta)) (acc : ℤ) (rounds : ℕ) :
    m.loop (rounds + j) acc n =
      if m.Downward acc n j then m.loop rounds (acc * product m.delta n j) (n + j * m.delta)
      else some none := by
  induction j generalizing acc n with
  | zero =>
    have hdown : m.Downward acc n 0 := fun k hk => absurd hk (Nat.not_lt_zero k)
    rw [if_pos hdown, product_zero, mul_one, Nat.cast_zero, zero_mul, add_zero, add_zero]
  | succ j ih =>
    have hat (k : ℕ) : n + m.delta + k * m.delta = n + ((k + 1 : ℕ) : ℤ) * m.delta := by
      push_cast
      ring
    have hstep := hsteps 0 (Nat.succ_pos j)
    have hnext := hfits 0 (Nat.succ_pos j)
    rw [Nat.cast_zero, zero_mul, add_zero] at hstep
    rw [Nat.zero_add, Nat.cast_one, one_mul] at hnext
    rw [← Nat.add_assoc, loop, if_neg (by rw [hstep]; decide), wrap_eq hnext]
    by_cases hprod : Fits 64 (acc * n)
    · rw [if_pos hprod, ih (fun k hk => by rw [hat]; exact hsteps (k + 1) (by omega))
        (fun k hk => by rw [hat]; exact hfits (k + 1) (by omega)), hat, product_succ, mul_assoc]
      by_cases hdown : m.Downward (acc * n) (n + m.delta) j
      · rw [if_pos hdown, if_pos (downward_succ.mpr ⟨hprod, hdown⟩)]
      · rw [if_neg hdown, if_neg fun h => hdown (downward_succ.mp h).2]
    · rw [if_neg hprod, if_neg fun h => hprod (downward_succ.mp h).1]

open Classical in
/-- What the loop leaves where the base case is reached. -/
theorem loop_first {L : ℕ} (hfirst : m.First n L) (hn : Fits 61 n) :
    m.loop (1 + L) m.BASE n =
      some (if m.Downward m.BASE n L then retag (m.BASE * product m.delta n L) else none) := by
  rw [loop_rounds hfirst.2 fun k hk => fits_of_fits (by decide) (hfirst.fits hn hk)]
  split_ifs
  · rw [loop, if_pos hfirst.1]
  · rfl

/-! ## The factor 0 -/

theorem Passes.unique {z z' : ℕ} (h : m.Passes n z) (h' : m.Passes n z') (hs : m.delta ≠ 0) : z = z' := by
  have heq : ((z : ℤ) - z') * m.delta = 0 := by
    have h1 := h.1
    have h2 := h'.1
    linarith
  rcases mul_eq_zero.mp heq with h0 | h0
  · omega
  · exact absurd h0 hs

/-- The numbers before the factor 0 are multiples of the step. -/
theorem Passes.fits {z : ℕ} (h : m.Passes n z) (hn : Fits 61 n) {k : ℕ} (hk : k ≤ z) :
    Fits 61 (n + k * m.delta) := by
  obtain ⟨h1, h2⟩ := hn
  norm_num at h1 h2
  have h0 := h.1
  have hk' : (k : ℤ) ≤ z := by exact_mod_cast hk
  rcases le_total 0 m.delta with hs | hs
  · have hle := mul_le_mul_of_nonneg_right hk' hs
    have hnn := mul_nonneg (Int.natCast_nonneg k) hs
    constructor <;> norm_num <;> omega
  · have hle := mul_le_mul_of_nonpos_right hk' hs
    have hnp := mul_nonpos_of_nonneg_of_nonpos (Int.natCast_nonneg k) hs
    constructor <;> norm_num <;> omega

/-- The products down to the factor 0 have 64 bits if the last of them before it has. -/
theorem downward_passes_iff {z : ℕ} (h : m.Passes n z) (hs : m.delta ≠ 0) :
    m.Downward m.BASE n (z + 1) ↔ Fits 64 (m.BASE * ((-m.delta) ^ z * z.factorial)) := by
  have hne : ∀ i < z, -m.delta + i * -m.delta ≠ 0 := by
    intro i _ h0
    have hmul : ((i : ℤ) + 1) * m.delta = 0 := by linarith
    rcases mul_eq_zero.mp hmul with h | h
    · omega
    · exact hs h
  -- Seen from 0, the way goes through the multiples of the step.
  have hlast : product m.delta n z = (-m.delta) ^ z * z.factorial := by
    match z with
    | 0 => simp
    | z + 1 =>
      have hend : n + z * m.delta = -m.delta := by
        have h0 := h.1
        push_cast at h0
        linarith
      rw [product_reflect, hend, product_multiples]
  constructor
  · intro hdown
    match z with
    | 0 => simpa using fits_of_fits (by decide : 16 ≤ 64) m.fitsBase
    | z + 1 =>
      rw [← hlast]
      exact hdown z (by omega)
  · intro hfits k hk
    rcases Nat.lt_succ_iff_lt_or_eq.mp hk with hlt | rfl
    · have hsuffix := fits_suffix (by decide : 34 ≤ 64) m.fitsBase (by simpa using m.delta_le)
        (neg_ne_zero.mpr hs) hne (by rwa [product_multiples]) (by omega : z - 1 - k ≤ z)
      have hfrom : -m.delta + ((z - 1 - k : ℕ) : ℤ) * -m.delta = n + k * m.delta := by
        have h0 := h.1
        have hcast : ((z - 1 - k : ℕ) : ℤ) = z - 1 - k := by omega
        rw [hcast]
        linarith
      rw [hfrom, show z - (z - 1 - k) = k + 1 by omega, ← product_reflect] at hsuffix
      exact hsuffix
    · rw [product_eq_zero (Nat.lt_succ_self k) h.1, mul_zero]
      decide

/-- The products back up to the factor 0 are fixnums if that of all factors behind it is one. -/
theorem upward_multiples_iff {w : ℕ} (hs : m.delta ≠ 0) :
    m.Upward m.delta w ↔ Fits 61 (m.BASE * (m.delta ^ w * w.factorial)) := by
  have hne : ∀ i < w, m.delta + i * m.delta ≠ 0 := by
    intro i _ h0
    have hmul : ((i : ℤ) + 1) * m.delta = 0 := by linarith
    rcases mul_eq_zero.mp hmul with h | h
    · omega
    · exact hs h
  rw [← product_multiples]
  exact upward_iff hs hne

/-! ## The fold -/

section Fold

variable {D : Type}

/-- Behind the factor 0 the products on the way back count. -/
theorem upward_passes_iff {z L : ℕ} (h : m.Passes n z) (hfirst : m.First n L) (hs : m.delta ≠ 0) :
    m.Upward n L ↔ ∃ w, m.First m.delta w ∧ Fits 61 (m.BASE * (m.delta ^ w * w.factorial)) := by
  have hz : z < L := by
    by_contra hle
    exact absurd (hfirst.1.symm.trans (h.2 L (not_lt.mp hle))) (by decide)
  have hnext : n + ((z + 1 : ℕ) : ℤ) * m.delta = m.delta := by
    have h0 := h.1
    push_cast
    linarith
  have hrest : m.First m.delta (L - (z + 1)) := hnext ▸ hfirst.drop hz
  have hiff : m.Upward n L ↔ m.Upward m.delta (L - (z + 1)) := by
    constructor
    · intro hup k hk
      have := hup (z + 1 + k) (by omega)
      have hat : n + ((z + 1 + k : ℕ) : ℤ) * m.delta = m.delta + k * m.delta := by
        push_cast at hnext ⊢
        linarith
      rwa [hat, show L - (z + 1 + k) = L - (z + 1) - k by omega] at this
    · intro hup k hk
      rcases Nat.lt_or_ge z k with hlt | hle
      · obtain ⟨k, rfl⟩ : ∃ k', k = z + 1 + k' := ⟨k - (z + 1), by omega⟩
        have hat : n + ((z + 1 + k : ℕ) : ℤ) * m.delta = m.delta + k * m.delta := by
          push_cast at hnext ⊢
          linarith
        rw [hat, show L - (z + 1 + k) = L - (z + 1) - k by omega]
        exact hup k (by omega)
      · have hzero : n + k * m.delta + ((z - k : ℕ) : ℤ) * m.delta = 0 := by
          have h0 := h.1
          push_cast [hle]
          linarith
        rw [product_eq_zero (by omega : z - k < L - k) hzero, mul_zero]
        decide
  rw [hiff, upward_multiples_iff hs]
  refine ⟨fun hfits => ⟨_, hrest, hfits⟩, ?_⟩
  rintro ⟨w, hw, hfits⟩
  rwa [hrest.unique hw]

/-- The loop down to the base case. -/
theorem downward_iff_of_passes {z L : ℕ} (h : m.Passes n z) (hz : z < L) :
    m.Downward m.BASE n L ↔ m.Downward m.BASE n (z + 1) := by
  refine ⟨fun hdown k hk => hdown k (by omega), fun hdown k hk => ?_⟩
  rcases Nat.lt_or_ge k (z + 1) with hlt | hge
  · exact hdown k hlt
  · rw [product_eq_zero (by omega : z < k + 1) h.1, mul_zero]
    decide

/-- Without the factor 0 the products on the way down are smaller than the last of them. -/
theorem downward_of_fits {L : ℕ} (hne : ∀ i < L, n + i * m.delta ≠ 0)
    (h : Fits 61 (m.BASE * product m.delta n L)) : m.Downward m.BASE n L := by
  intro k hk
  have hsplit : m.BASE * product m.delta n L = m.BASE * product m.delta n (k + 1) *
      product m.delta (n + ((k + 1 : ℕ) : ℤ) * m.delta) (L - (k + 1)) := by
    conv_lhs => rw [show L = k + 1 + (L - (k + 1)) by omega, product_add]
    ring
  have hrest : product m.delta (n + ((k + 1 : ℕ) : ℤ) * m.delta) (L - (k + 1)) ≠ 0 := by
    refine product_ne_zero fun i hi => ?_
    have hat : n + ((k + 1 : ℕ) : ℤ) * m.delta + i * m.delta = n + ((k + 1 + i : ℕ) : ℤ) * m.delta := by
      push_cast
      ring
    rw [hat]
    exact hne _ (by omega)
  have hle : (m.BASE * product m.delta n (k + 1)).natAbs ≤ (m.BASE * product m.delta n L).natAbs := by
    rw [hsplit, Int.natAbs_mul (_ * _)]
    exact Nat.le_mul_of_pos_right _ (Int.natAbs_pos.mpr hrest)
  obtain ⟨h1, h2⟩ := h
  norm_num at h1 h2
  constructor <;> norm_num <;> omega

/-- What it takes to serve, where the base case is reached. -/
theorem serves_first_iff [Double D] {L : ℕ} (hfirst : m.First n L) (hn : Fits 61 n) {depth : ℕ}
    {r : Except ArithError (Value D)} (hrun : m.run depth (.fix n) = some r)
    (hup : m.Upward n L → Fits 61 (m.BASE * product m.delta n L)) :
    Serves (m.native (D := D) (.fix n)) r ↔
      m.Upward n L ∧ m.Downward m.BASE n L ∨ ¬ m.Upward n L ∧
        (¬ m.Downward m.BASE n L ∨ ¬ Fits 61 (m.BASE * product m.delta n L)) := by
  classical
  have hout : m.native (D := D) (.fix n) (1 + L) = some _ := loop_first hfirst hn
  rw [result_unique (fun k => run_extends m k _) hrun (run_first hfirst hn),
    serves_iff (native_extends m _) hout, retag_eq]
  by_cases hu : m.Upward n L <;> by_cases hd : m.Downward m.BASE n L <;>
    by_cases hfits : Fits 61 (m.BASE * product m.delta n L) <;> simp_all

/-- Without a base case and without the factor 0 the product leaves 64 bits before the factors do. -/
theorem loop_never {K : ℕ} (hnever : ∀ k : ℕ, m.cmpOp.int (n + k * m.delta) m.K1 = false)
    (hbase : m.BASE ≠ 0) (hne : ∀ k : ℕ, n + k * m.delta ≠ 0) (hin : ∀ k ≤ K, Fits 61 (n + k * m.delta))
    (hout : ¬ Fits 61 (n + ((K + 1 : ℕ) : ℤ) * m.delta)) :
    ∃ rounds, m.loop rounds m.BASE n = some none := by
  have hs := m.delta_le
  have hK := hin K le_rfl
  have hnext : n + ((K + 1 : ℕ) : ℤ) * m.delta = n + K * m.delta + m.delta := by push_cast; ring
  have hnext' : n + ((K + 2 : ℕ) : ℤ) * m.delta = n + K * m.delta + m.delta + m.delta := by push_cast; ring
  have hfits : ∀ k < K + 2, Fits 64 (n + ((k + 1 : ℕ) : ℤ) * m.delta) := by
    intro k hk
    obtain ⟨h1, h2⟩ := hK
    norm_num at h1 h2
    rcases Nat.lt_trichotomy k K with hlt | rfl | hlt
    · exact fits_of_fits (by decide) (hin (k + 1) hlt)
    · rw [hnext]
      constructor <;> norm_num <;> omega
    · obtain rfl : k = K + 1 := by omega
      rw [show K + 1 + 1 = K + 2 from rfl, hnext']
      constructor <;> norm_num <;> omega
  classical
  refine ⟨0 + (K + 2), ?_⟩
  rw [loop_rounds (fun k _ => hnever k) hfits, if_neg]
  intro hdown
  have hprod := hdown (K + 1) (by omega)
  rw [product_succ_last, product_succ_last, ← mul_assoc, ← mul_assoc] at hprod
  -- The last two factors are at the end of the range.
  have hhead : m.BASE * product m.delta n K ≠ 0 :=
    mul_ne_zero hbase (product_ne_zero fun i _ => hne i)
  have hbig : 2 ^ 59 * 2 ^ 60 ≤
      (m.BASE * product m.delta n K * (n + K * m.delta) * (n + ((K + 1 : ℕ) : ℤ) * m.delta)).natAbs := by
    rw [Int.natAbs_mul, Int.natAbs_mul]
    have hout' : ¬ (-2 ^ 60 ≤ n + ((K + 1 : ℕ) : ℤ) * m.delta ∧ n + ((K + 1 : ℕ) : ℤ) * m.delta < 2 ^ 60) :=
      hout
    norm_num only at hout'
    refine Nat.mul_le_mul ?_ (by omega)
    calc 2 ^ 59 ≤ (n + K * m.delta).natAbs := by omega
      _ ≤ _ := Nat.le_mul_of_pos_left _ (Int.natAbs_pos.mpr hhead)
  obtain ⟨h1, h2⟩ := hprod
  norm_num at h1 h2 hbig
  omega

/-- With the factor 0 the loop gives up before it or not at all. -/
theorem loop_passes_iff {z : ℕ} (h : m.Passes n z) (hn : Fits 61 n) :
    (∃ rounds, m.loop rounds m.BASE n = some none) ↔ ¬ m.Downward m.BASE n (z + 1) := by
  classical
  have hs := m.delta_le
  have hfits : ∀ k < z + 1, Fits 64 (n + ((k + 1 : ℕ) : ℤ) * m.delta) := by
    intro k hk
    rcases Nat.lt_succ_iff_lt_or_eq.mp hk with hlt | rfl
    · exact fits_of_fits (by decide) (h.fits hn hlt)
    · have hend : n + ((k + 1 : ℕ) : ℤ) * m.delta = m.delta := by
        have h0 := h.1
        push_cast
        linarith
      rw [hend]
      constructor <;> norm_num <;> omega
  have hrounds (rounds : ℕ) :=
    loop_rounds (fun k hk => h.2 k (Nat.lt_succ_iff.mp hk)) hfits m.BASE rounds
  constructor
  · rintro ⟨rounds, hnone⟩ hdown
    have hmore := extends_of_le (fun k => m.loop_extends k _ _) (Nat.le_add_right rounds (z + 1)) _ hnone
    rw [hrounds, if_pos hdown, product_eq_zero (Nat.lt_succ_self z) h.1, mul_zero] at hmore
    exact m.loop_zero_ne _ _ hmore
  · intro hdown
    exact ⟨0 + (z + 1), by rw [hrounds, if_neg hdown]⟩

/-- No factor is 0 before the base case. -/
theorem First.ne_zero {L : ℕ} (h : m.First n L) (hz : ¬ ∃ z, m.Passes n z) :
    ∀ i < L, n + i * m.delta ≠ 0 :=
  fun i hi h0 => hz ⟨i, h0, fun k hk => h.2 k (by omega)⟩

variable [Double D]

/-- Where the base case is reached. -/
theorem serves_iff_of_first {L : ℕ} (hfirst : m.First n L) (hn : Fits 61 n) {depth : ℕ}
    {r : Except ArithError (Value D)} (hrun : m.run depth (.fix n) = some r) :
    Serves (m.native (D := D) (.fix n)) r ↔ m.Condition n := by
  have hzero : Fits 61 0 ∧ Fits 64 0 := by decide
  unfold Condition
  by_cases hbase : m.BASE = 0
  · rw [if_pos hbase]
    have hup : m.Upward n L := fun k _ => by rw [hbase, zero_mul]; exact hzero.1
    have hdown : m.Downward m.BASE n L := fun k _ => by rw [hbase, zero_mul]; exact hzero.2
    rw [serves_first_iff hfirst hn hrun fun _ => by rw [hbase, zero_mul]; exact hzero.1]
    exact iff_of_true (.inl ⟨hup, hdown⟩) ⟨L, hfirst⟩
  rw [if_neg hbase]
  by_cases hpass : ∃ z, m.Passes n z
  · obtain ⟨z, hz⟩ := hpass
    have hlt : z < L := by
      by_contra hle
      exact absurd (hfirst.1.symm.trans (hz.2 L (not_lt.mp hle))) (by decide)
    have hs := hfirst.delta_ne_zero (by omega)
    have hprod : Fits 61 (m.BASE * product m.delta n L) := by
      rw [product_eq_zero hlt hz.1, mul_zero]
      exact hzero.1
    have honly : (∀ z', m.Passes n z' →
        ((∃ w, m.First m.delta w ∧ Fits 61 (m.BASE * (m.delta ^ w * w.factorial))) ↔
          Fits 64 (m.BASE * ((-m.delta) ^ z' * z'.factorial)))) ↔
        (m.Upward n L ↔ m.Downward m.BASE n L) := by
      rw [upward_passes_iff hz hfirst hs, downward_iff_of_passes hz hlt, downward_passes_iff hz hs]
      refine ⟨fun h => h z hz, fun h z' hz' => ?_⟩
      rwa [hz'.unique hz hs]
    rw [honly, serves_first_iff hfirst hn hrun fun _ => hprod]
    simp only [hprod, not_true, or_false]
    exact iff_iff_and_or_not_and_not.symm
  · have hne := hfirst.ne_zero hpass
    have hup : m.Upward n L ↔ Fits 61 (m.BASE * product m.delta n L) := by
      by_cases hL : L = 0
      · subst hL
        refine iff_of_true (fun k hk => absurd hk (Nat.not_lt_zero k)) ?_
        simpa using fits_of_fits (by decide : 16 ≤ 61) m.fitsBase
      · exact upward_iff (hfirst.delta_ne_zero hL) hne
    rw [serves_first_iff hfirst hn hrun hup.mp]
    refine iff_of_true ?_ fun z hz => absurd ⟨z, hz⟩ hpass
    by_cases hfits : Fits 61 (m.BASE * product m.delta n L)
    · exact .inl ⟨hup.mpr hfits, downward_of_fits hne hfits⟩
    · exact .inr ⟨fun h => hfits (hup.mp h), .inr hfits⟩

/-- **One call.** For a fixnum on which the bytecode ends, the loop serves it exactly under the condition. -/
theorem serves_iff_condition (hn : Fits 61 n) {depth : ℕ} {r : Except ArithError (Value D)}
    (hrun : m.run depth (.fix n) = some r) : Serves (m.native (D := D) (.fix n)) r ↔ m.Condition n := by
  by_cases hfirst : ∃ L, m.First n L
  · obtain ⟨L, hfirst⟩ := hfirst
    exact serves_iff_of_first hfirst hn hrun
  have hnever (k : ℕ) : m.cmpOp.int (n + k * m.delta) m.K1 = false :=
    Bool.eq_false_iff.mpr fun h => hfirst (exists_first h)
  have hnofirst {z : ℕ} (hz : m.Passes n z) (w : ℕ) : ¬ m.First m.delta w := by
    intro hw
    have hat : n + ((z + 1 + w : ℕ) : ℤ) * m.delta = m.delta + w * m.delta := by
      have h0 := hz.1
      push_cast
      linarith
    exact absurd (hw.1.symm.trans (hat ▸ hnever (z + 1 + w))) (by decide)
  obtain ⟨rfl, K, hin, hout⟩ := run_never hnever hn hrun
  rw [serves_overflow_iff, Condition]
  show (∃ rounds, m.loop rounds m.BASE n = some none) ↔ _
  by_cases hbase : m.BASE = 0
  · rw [if_pos hbase, hbase]
    exact iff_of_false (fun ⟨rounds, h⟩ => m.loop_zero_ne rounds n h) hfirst
  rw [if_neg hbase]
  by_cases hpass : ∃ z, m.Passes n z
  · obtain ⟨z, hz⟩ := hpass
    have hs : m.delta ≠ 0 := by
      intro h0
      rw [h0, mul_zero, add_zero] at hout
      exact hout hn
    rw [loop_passes_iff hz hn, downward_passes_iff hz hs]
    constructor
    · intro hover z' hz'
      rw [hz'.unique hz hs]
      exact iff_of_false (fun ⟨w, hw, _⟩ => hnofirst hz w hw) hover
    · intro h hfits
      obtain ⟨w, hw, -⟩ := (h z hz).mpr hfits
      exact hnofirst hz w hw
  · exact iff_of_true (loop_never hnever hbase (fun k h0 => hpass ⟨k, h0, fun j _ => hnever j⟩) hin hout)
      fun z hz => absurd ⟨z, hz⟩ hpass

end Fold

end RecurseMulOne

/-! ## Both shapes -/

/-- A function whose recursion the native code folds into a loop. -/
inductive Folded
  | addTwo (m : RecurseAddTwo) (h : m.isFibLike = true)
  | mulOne (m : RecurseMulOne)

namespace Folded

variable {D : Type} [Double D]

/-- The bytecode. -/
def run : Folded → ℕ → Value D → Outcome (Value D)
  | .addTwo m _ => m.run
  | .mulOne m => m.run

/-- The native code. -/
def native {D : Type} : Folded → Value D → ℕ → Option (Option ℤ)
  | .addTwo m _ => m.native
  | .mulOne m => m.native

/-- A fixnum, under the condition of its shape. -/
def Condition {D : Type} (m : Folded) : Value D → Prop
  | .num (.exact (.fix n)) =>
    match m with
    | .addTwo m _ => m.Condition n
    | .mulOne m => m.Condition n
  | _ => False

/-! ### Other arguments -/

theorem addTwo_float (m : RecurseAddTwo) (depth : ℕ) (x : D) {r : Except ArithError (Value D)}
    (h : m.run depth (.float x) = some r) : ∃ y, r = .ok (.float y) := by
  induction depth generalizing x r with
  | zero => cases h
  | succ depth ih =>
    obtain ⟨b, hb⟩ : ∃ b, m.cmpOp.run (.float x) m.K1 = some (.ok b) := by
      cases m.cmpOp <;> exact ⟨_, rfl⟩
    rw [RecurseAddTwo.run, hb] at h
    cases b with
    | true => exact ⟨x, (Option.some.inj h).symm⟩
    | false =>
      obtain ⟨e, he, h⟩ := Option.bind_eq_some_iff.mp (show (m.run depth _).bind _ = some r from h)
      obtain ⟨y, rfl⟩ := ih _ he
      obtain ⟨e', he', h⟩ := Option.bind_eq_some_iff.mp (show (m.run depth _).bind _ = some r from h)
      obtain ⟨y', rfl⟩ := ih _ he'
      exact ⟨_, (Option.some.inj h).symm⟩

theorem mulOne_float (m : RecurseMulOne) (depth : ℕ) (x : D) {r : Except ArithError (Value D)}
    (h : m.run depth (.float x) = some r) : r = .ok (.fix m.BASE) ∨ ∃ y, r = .ok (.float y) := by
  induction depth generalizing x r with
  | zero => cases h
  | succ depth ih =>
    obtain ⟨b, hb⟩ : ∃ b, (Test.cmp m.cmpOp).run (.float x) m.K1 = some (.ok b) := ⟨_, rfl⟩
    rw [RecurseMulOne.run, hb] at h
    cases b with
    | true => exact .inl (Option.some.inj h).symm
    | false =>
      obtain ⟨e, he, h⟩ := Option.bind_eq_some_iff.mp (show (m.run depth _).bind _ = some r from h)
      obtain rfl | ⟨y, rfl⟩ := ih _ he
      · exact .inr ⟨_, (Option.some.inj h).symm⟩
      · exact .inr ⟨_, (Option.some.inj h).symm⟩

/-- What is neither a fixnum nor a float is refused at the predicate. -/
theorem test_refuses {v : Value D} (hv : coerce v = none) (c : Builtin.Cmp) (K : ℤ) :
    ∃ name, (Test.cmp c).run v K = some (.error (.illegalIn name)) := by
  obtain ⟨name, hname⟩ := @slotFix_refuses D _ v K (.cmp c) hv rfl
  exact ⟨name, by rw [Test.run, hname]; rfl⟩

theorem float_of_coerce {v : Value D} {x : D} (h : coerce v = some x) (hv : ∀ n, v ≠ .fix n) :
    ∃ y, v = .float y := by
  cases v with
  | num n =>
    cases n with
    | exact n =>
      cases n with
      | fix n => exact absurd rfl (hv n)
      | _ => cases h
    | _ => cases h
  | float y => exact ⟨y, rfl⟩
  | nonNumber => cases h

/-- No other argument gets to the end of the range. -/
theorem run_other (m : Folded) {v : Value D} (hv : ∀ n, v ≠ .fix n) {depth : ℕ}
    {r : Except ArithError (Value D)} (h : m.run depth v = some r) : r ≠ .error .overflow := by
  cases depth with
  | zero => cases m <;> cases h
  | succ depth =>
    cases hcoerce : coerce v with
    | some x =>
      obtain ⟨y, rfl⟩ := float_of_coerce hcoerce hv
      cases m with
      | addTwo m _ =>
        obtain ⟨y, rfl⟩ := addTwo_float m _ _ h
        simp
      | mulOne m =>
        obtain rfl | ⟨y, rfl⟩ := mulOne_float m _ _ h <;> simp
    | none =>
      cases m with
      | addTwo m hfib =>
        obtain ⟨c, hc⟩ : ∃ c, m.cmpOp = .cmp c := by
          cases hc : m.cmpOp with
          | cmp c => exact ⟨c, rfl⟩
          | is => simp [RecurseAddTwo.isFibLike, hc] at hfib
        obtain ⟨name, hname⟩ := test_refuses hcoerce c m.K1
        have h : m.run (depth + 1) v = some r := h
        rw [RecurseAddTwo.run, hc, hname] at h
        cases Option.some.inj h
        simp
      | mulOne m =>
        obtain ⟨name, hname⟩ := test_refuses hcoerce m.cmpOp m.K1
        have h : m.run (depth + 1) v = some r := h
        rw [RecurseMulOne.run, hname] at h
        cases Option.some.inj h
        simp

theorem native_other {D : Type} (m : Folded) {v : Value D} (hv : ∀ n, v ≠ .fix n) (rounds : ℕ) :
    m.native v rounds = some none := by
  cases m with
  | addTwo m _ =>
    show m.native v rounds = _
    unfold RecurseAddTwo.native
    split
    · exact absurd rfl (hv _)
    · rfl
  | mulOne m =>
    show m.native v rounds = _
    unfold RecurseMulOne.native
    split
    · exact absurd rfl (hv _)
    · rfl

end Folded

/-- **Folded recursion.** For every function of the two shapes and every argument on which its bytecode ends,
the native code ends with the same fixnum, or with `NULL` for a result out of range and only then, exactly
under the condition of the shape. -/
theorem recursion_folded {D : Type} [Double D] (m : Folded) {v : Value D} (hv : v.WellFormed) {depth : ℕ}
    {r : Except ArithError (Value D)} (hrun : m.run depth v = some r) :
    Serves (m.native v) r ↔ m.Condition v := by
  by_cases hfix : ∃ n, v = .fix n
  · obtain ⟨n, rfl⟩ := hfix
    cases m with
    | addTwo m hfib => exact m.serves_iff_condition hfib hv hrun
    | mulOne m => exact m.serves_iff_condition hv hrun
  · have hother : ∀ n, v ≠ .fix n := fun n h => hfix ⟨n, h⟩
    have hcond : ¬ m.Condition v := by
      unfold Folded.Condition
      split
      · exact absurd rfl (hother _)
      · exact id
    refine iff_of_false ?_ hcond
    rintro ⟨rounds, out, hout, -, hnone⟩
    rw [m.native_other hother] at hout
    cases hout
    exact m.run_other hother hrun (hnone.mp rfl)

/-- `(def f (n) (if (< n 2) n (+ (f (- n 1)) (f (- n 2)))))`, and the same with another predicate. -/
def fib (c : Builtin.Cmp) (K1 : ℤ) (h : Fits 16 K1) : RecurseAddTwo :=
  ⟨.cmp c, .sub, .sub, K1, 1, 2, h, by decide, by decide⟩

/-- `(f 3)`, with `<`. -/
theorem recursion_folded_fib :
    Serves (D := Unrounded) ((Folded.addTwo (fib .lt 2 (by decide)) rfl).native (D := Unrounded) (.fix 3))
      (.ok (.fix 2)) := by
  have hrun : (Folded.addTwo (fib .lt 2 (by decide)) rfl).run (D := Unrounded) 4 (.fix 3) =
      some (.ok (.fix 2)) := rfl
  have hfits : (Value.fix 3 : Value Unrounded).WellFormed := (by decide : FixFits 3)
  exact (recursion_folded _ hfits hrun).mpr (.inr ⟨.inl rfl, (if_pos (by decide)).mpr (.inl rfl)⟩)

/-- `(f 2)`, with `(<= n 1)`: 1 in bytecode, and -1 in native code. -/
theorem fib_le_differs :
    (fib .le 1 (by decide)).run (D := Unrounded) 2 (.fix 2) = some (.ok (.fix 1)) ∧
      (fib .le 1 (by decide)).native (D := Unrounded) (.fix 2) 3 = some (some (-1)) ∧
      ¬ Serves (D := Unrounded) ((fib .le 1 (by decide)).native (D := Unrounded) (.fix 2))
        (.ok (.fix 1)) := by
  have hnative : (fib .le 1 (by decide)).native (D := Unrounded) (.fix 2) 3 = some (some (-1)) := by decide
  refine ⟨rfl, hnative, fun h => ?_⟩
  rw [serves_iff (RecurseAddTwo.native_extends _ _) hnative] at h
  have hk := h.1 (-1) rfl
  cases hk

end Alcove.Jit
