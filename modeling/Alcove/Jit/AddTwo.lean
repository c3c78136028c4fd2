import Alcove.Jit.Recurse
import Mathlib.Data.Nat.Prime.Basic

/-!
# Two calls folded into sums

The sums that the bytecode and the loop of `try_jit_recurse_add_two` compute. Both are sequences where each
number is the sum of the two before it (`sums`); they start with the numbers below the threshold, and with
those below `K1`.
-/

namespace Alcove.Jit

open Lib Numeric

namespace RecurseAddTwo

/-! ## Sequences of sums -/

variable {a b : ℤ}

@[simp]
theorem sums_zero : sums a b 0 = b := by simp [sums]

@[simp]
theorem sums_one : sums a b 1 = a + b := by simp [sums]

theorem sums_add_two (j : ℕ) : sums a b (j + 2) = sums a b (j + 1) + sums a b j := by
  have h1 : ((Nat.fib (j + 2) : ℕ) : ℤ) = Nat.fib j + Nat.fib (j + 1) := by exact_mod_cast Nat.fib_add_two
  have h2 : ((Nat.fib (j + 3) : ℕ) : ℤ) = Nat.fib (j + 1) + Nat.fib (j + 2) := by
    exact_mod_cast Nat.fib_add_two
  simp only [sums, h1, h2, show j + 2 + 1 = j + 3 from rfl, show j + 1 + 1 = j + 2 from rfl]
  ring

/-- The sequence from its second number on. -/
theorem sums_succ (j : ℕ) : sums a b (j + 1) = sums b (a + b) j := by
  have h : ((Nat.fib (j + 2) : ℕ) : ℤ) = Nat.fib j + Nat.fib (j + 1) := by exact_mod_cast Nat.fib_add_two
  simp only [sums, show j + 1 + 1 = j + 2 from rfl, h]
  ring

/-- From two consecutive numbers on no sum is closer to 0 than the numbers before it. -/
theorem fits_sums (w j : ℕ) (hb : b = a + 1) (h : Fits w (sums a b (j + 2))) :
    Fits w (sums a b (j + 1)) ∧ Fits w (sums a b j) := by
  rw [sums_add_two] at h
  obtain ⟨h1, h2⟩ := h
  have hpow : (0 : ℤ) < 2 ^ (w - 1) := by positivity
  rcases le_or_gt 0 a with ha | ha
  · have hnn (i : ℕ) : 0 ≤ sums a b i := by
      have hb' : 0 ≤ b := by omega
      unfold sums
      positivity
    have h0 := hnn j
    have h0' := hnn (j + 1)
    exact ⟨⟨by omega, by omega⟩, ⟨by omega, by omega⟩⟩
  · have hnp (i : ℕ) : sums a b i ≤ 0 := by
      have hb' : b ≤ 0 := by omega
      have h1 := mul_nonneg (neg_nonneg.mpr ha.le) (Int.natCast_nonneg (Nat.fib i))
      have h2 := mul_nonneg (neg_nonneg.mpr hb') (Int.natCast_nonneg (Nat.fib (i + 1)))
      rw [sums]
      linarith
    have h0 := hnp j
    have h0' := hnp (j + 1)
    exact ⟨⟨by omega, by omega⟩, ⟨by omega, by omega⟩⟩

/-! ## The loop -/

theorem loop_extends (n : ℤ) (rounds : ℕ) (a b i : ℤ) :
    Extends (loop n rounds a b i) (loop n (rounds + 1) a b i) := by
  induction rounds generalizing a b i with
  | zero => exact fun _ h => nomatch h
  | succ rounds ih =>
    rw [loop, loop]
    split_ifs
    · exact .refl _
    · exact ih _ _ _

theorem wrap_sums (a b : ℤ) (j : ℕ) : wrap 64 (sums a (wrap 64 b) j) = wrap 64 (sums a b j) := by
  unfold wrap sums
  rw [← Int.add_bmod_bmod, Int.bmod_mul_bmod, Int.add_bmod_bmod]

/-- The loop leaves its sum of `j` rounds in 64 bits. -/
theorem loop_eq {n i : ℤ} (hn : Fits 61 n) (hi : -2 ^ 60 ≤ i) (j : ℕ) (hj : n + 1 = i + j)
    (hb : Fits 64 b) : loop n (j + 1) a b i = some (wrap 64 (sums a b j)) := by
  obtain ⟨h1, h2⟩ := hn
  norm_num at h1 h2
  induction j generalizing a b i with
  | zero => rw [loop, if_pos (by omega), sums_zero, wrap_eq hb]
  | succ j ih =>
    have hi' : Fits 64 (i + 1) := by
      constructor <;> norm_num <;> omega
    have hwrap : Fits 64 (wrap 64 (a + b)) := by
      have hlo := Int.le_bmod (x := a + b) (m := 2 ^ 64) (by norm_num)
      have hhi := Int.bmod_lt (x := a + b) (m := 2 ^ 64) (by norm_num)
      unfold wrap
      constructor <;> norm_num at hlo hhi ⊢ <;> omega
    rw [loop, if_neg (by push_cast at hj; omega), wrap_eq hi',
      ih (by omega) (by push_cast at hj ⊢; omega) hwrap, wrap_sums, sums_succ]

theorem native_extends {D : Type} (m : RecurseAddTwo) (v : Value D) (rounds : ℕ) :
    Extends (m.native v rounds) (m.native v (rounds + 1)) := by
  unfold native
  split
  · split_ifs
    · exact .refl _
    · intro out hout
      obtain ⟨b, hb, hret⟩ := Option.map_eq_some_iff.mp hout
      rw [loop_extends _ _ _ _ _ b hb, Option.map_some, hret]
  · exact .refl _

/-! ## The calls -/

section Calls

variable {D : Type} [Double D] {m : RecurseAddTwo} {n : ℤ}

theorem steps (h : m.isFibLike = true) :
    m.opA = .sub ∧ m.opB = .sub ∧ (m.K2 = 1 ∧ m.K3 = 2 ∨ m.K2 = 2 ∧ m.K3 = 1) := by
  simp only [isFibLike, Bool.decide_and, Bool.and_eq_true, decide_eq_true_eq] at h
  exact ⟨h.2.1, h.2.2.1, h.2.2.2⟩

theorem run_base (h : m.cmpOp.int n m.K1 = true) (depth : ℕ) :
    m.run (D := D) (depth + 1) (.fix n) = some (.ok (.fix n)) := by
  rw [run, test_fix, h]
  rfl

/-- A call outside of the base case, from its two calls. -/
theorem run_calls (hfib : m.isFibLike = true) (hn : m.cmpOp.int n m.K1 = false) (h1 : Fits 61 (n - 1))
    (h2 : Fits 61 (n - 2)) {depth : ℕ} {x y : ℤ} (hx : m.run (D := D) depth (.fix (n - 1)) = some (fixnum x))
    (hy : m.run (D := D) depth (.fix (n - 2)) = some (fixnum y))
    (hxy : Fits 61 (x + y) → Fits 61 x ∧ Fits 61 y) :
    m.run (D := D) (depth + 1) (.fix n) = some (fixnum (x + y)) := by
  obtain ⟨hA, hB, hK⟩ := steps hfib
  -- One of the two results, `a` first, and then the sum.
  have hsum (a b : ℤ) (hab : a + b = x + y) (hor : a = x ∧ b = y ∨ a = y ∧ b = x) :
      (Outcome.andThen (some (fixnum (D := D) a)) fun a => Outcome.andThen (some (fixnum b)) fun b =>
        Opcode.binary (.arith .add) a b) = some (fixnum (x + y)) := by
    by_cases ha : Fits 61 a
    · by_cases hb : Fits 61 b
      · rw [fixnum_of_fits ha, fixnum_of_fits hb, ← hab]
        exact binary_add a b
      · have hnot : ¬ Fits 61 (x + y) := by
          rcases hor with ⟨rfl, rfl⟩ | ⟨rfl, rfl⟩
          · exact fun h => hb (hxy h).2
          · exact fun h => hb (hxy h).1
        rw [fixnum_of_fits ha, fixnum_of_not_fits hb, fixnum_of_not_fits hnot]
        rfl
    · have hnot : ¬ Fits 61 (x + y) := by
        rcases hor with ⟨rfl, rfl⟩ | ⟨rfl, rfl⟩
        · exact fun h => ha (hxy h).1
        · exact fun h => ha (hxy h).2
      rw [fixnum_of_not_fits ha, fixnum_of_not_fits hnot]
      rfl
  rw [run, test_fix, hn, hA, hB, slotFix_step, slotFix_step]
  rcases hK with ⟨h2', h3'⟩ | ⟨h2', h3'⟩
  · rw [h2', h3', Step.delta, Step.delta, ← Int.sub_eq_add_neg, ← Int.sub_eq_add_neg, fixnum_of_fits h1,
      fixnum_of_fits h2, ← hsum x y rfl (.inl ⟨rfl, rfl⟩), ← hx, ← hy]
    rfl
  · rw [h2', h3', Step.delta, Step.delta, ← Int.sub_eq_add_neg, ← Int.sub_eq_add_neg, fixnum_of_fits h1,
      fixnum_of_fits h2, ← hsum y x (add_comm y x) (.inr ⟨rfl, rfl⟩), ← hx, ← hy]
    rfl

theorem int_eq (h : m.cmpOp = .cmp .lt ∨ m.cmpOp = .cmp .le) (n : ℤ) :
    m.cmpOp.int n m.K1 = decide (n < m.threshold) := by
  rcases h with h | h
  · simp [h, threshold, Test.int, Builtin.Cmp.int]
  · simp [h, threshold, Test.int, Builtin.Cmp.int, Int.lt_add_one_iff]

theorem threshold_bounds (m : RecurseAddTwo) : -2 ^ 15 ≤ m.threshold ∧ m.threshold ≤ 2 ^ 15 := by
  obtain ⟨h1, h2⟩ := m.fits1
  norm_num at h1 h2
  unfold threshold
  split_ifs <;> norm_num <;> omega

/-- Every call up from the threshold has the sum of the sequence, or is out of range with it. -/
theorem run_sums (hfib : m.isFibLike = true) (hc : m.cmpOp = .cmp .lt ∨ m.cmpOp = .cmp .le) (j : ℕ)
    (hj : m.threshold - 1 + j < 2 ^ 60) :
    ∃ depth, m.run (D := D) depth (.fix (m.threshold - 1 + j)) =
      some (fixnum (sums (m.threshold - 2) (m.threshold - 1) j)) := by
  obtain ⟨hlo, hhi⟩ := threshold_bounds m
  norm_num at hlo hhi hj
  have hfits (k : ℤ) (h : -2 ^ 16 ≤ k) (h' : k < 2 ^ 60) : Fits 61 k := by
    norm_num at h h'
    constructor <;> norm_num <;> omega
  have hbase (k : ℤ) (h : -2 ^ 16 ≤ k) (hk : k < m.threshold) (depth : ℕ) :
      m.run (D := D) (depth + 1) (.fix k) = some (fixnum k) := by
    rw [fixnum_of_fits (hfits k h (by norm_num; omega))]
    exact run_base (by rw [int_eq hc]; exact decide_eq_true hk) depth
  have hstep (k : ℤ) (hk : m.threshold ≤ k) : m.cmpOp.int k m.K1 = false := by
    rw [int_eq hc]
    exact decide_eq_false (by omega)
  induction j using Nat.twoStepInduction with
  | zero =>
    refine ⟨1, ?_⟩
    rw [sums_zero, Nat.cast_zero, add_zero]
    exact hbase _ (by norm_num; omega) (by omega) 0
  | one =>
    refine ⟨2, ?_⟩
    rw [sums_one, Int.add_comm (m.threshold - 2)]
    have h1 : m.threshold - 1 + ((1 : ℕ) : ℤ) - 1 = m.threshold - 1 := by push_cast; ring
    have h2 : m.threshold - 1 + ((1 : ℕ) : ℤ) - 2 = m.threshold - 2 := by push_cast; ring
    refine run_calls hfib (hstep _ (by push_cast; omega)) ?_ ?_ ?_ ?_ fun _ => ⟨?_, ?_⟩
    · exact hfits _ (by norm_num; omega) (by norm_num; omega)
    · exact hfits _ (by norm_num; omega) (by norm_num; omega)
    · rw [h1]
      exact hbase _ (by norm_num; omega) (by omega) 0
    · rw [h2]
      exact hbase _ (by norm_num; omega) (by omega) 0
    · exact hfits _ (by norm_num; omega) (by norm_num; omega)
    · exact hfits _ (by norm_num; omega) (by norm_num; omega)
  | more j ih ih' =>
    push_cast at hj
    obtain ⟨d, hd⟩ := ih (by omega)
    obtain ⟨d', hd'⟩ := ih' (by push_cast; omega)
    refine ⟨max d' d + 1, ?_⟩
    have h1 : m.threshold - 1 + ((j + 2 : ℕ) : ℤ) - 1 = m.threshold - 1 + ((j + 1 : ℕ) : ℤ) := by
      push_cast; ring
    have h2 : m.threshold - 1 + ((j + 2 : ℕ) : ℤ) - 2 = m.threshold - 1 + (j : ℤ) := by push_cast; ring
    rw [sums_add_two]
    refine run_calls hfib (hstep _ (by push_cast; omega)) ?_ ?_ ?_ ?_ ?_
    · rw [h1]
      exact hfits _ (by push_cast; norm_num; omega) (by push_cast; norm_num; omega)
    · rw [h2]
      exact hfits _ (by norm_num; omega) (by norm_num; omega)
    · rw [h1]
      exact extends_of_le (fun n => run_extends m n _) (le_max_left d' d) _ hd'
    · rw [h2]
      exact extends_of_le (fun n => run_extends m n _) (le_max_right d' d) _ hd
    · rw [← sums_add_two]
      exact fits_sums 61 j (by ring)

/-- Where larger numbers are the base case, the calls go down to the end of the range. -/
theorem run_falls (hfib : m.isFibLike = true) (hc : m.cmpOp = .cmp .gt ∨ m.cmpOp = .cmp .ge)
    (hfits : Fits 61 n) (hn : m.cmpOp.int n m.K1 = false) :
    ∃ depth, m.run (D := D) depth (.fix n) = some (.error .overflow) := by
  obtain ⟨hA, -, hK⟩ := steps hfib
  obtain ⟨k, hk⟩ : ∃ k : ℕ, n = k - 2 ^ 60 := ⟨(n + 2 ^ 60).toNat, by have := hfits.1; omega⟩
  induction k using Nat.strong_induction_on generalizing n with
  | _ k ih =>
    have hdown : m.cmpOp.int (n - m.K2) m.K1 = false := by
      rcases hc with h | h <;>
      · simp only [h, Test.int, Builtin.Cmp.int, decide_eq_false_iff_not] at hn ⊢
        omega
    have hfirst : Opcode.slotFix (D := D) (.arith m.opA.op) (.fix n) m.K2 = some (fixnum (n - m.K2)) := by
      rw [hA, slotFix_step, Step.delta, Int.sub_eq_add_neg]
    by_cases hnext : Fits 61 (n - m.K2)
    · have hlo := hnext.1
      obtain ⟨depth, hdepth⟩ := ih (k - m.K2.toNat) (by omega) hnext hdown (by omega)
      refine ⟨depth + 1, ?_⟩
      rw [run, test_fix, hn, hfirst, fixnum_of_fits hnext]
      show Outcome.andThen (m.run depth (.fix (n - m.K2))) _ = _
      rw [hdepth]
      rfl
    · refine ⟨1, ?_⟩
      rw [run, test_fix, hn, hfirst, fixnum_of_not_fits hnext]
      rfl

end Calls

/-! ## The two sums -/

theorem not_dvd_fib {j : ℕ} (h : j < 90) : ¬ 2 ^ 10 ∣ Nat.fib (j + 1) := by
  have hall : ∀ j < 90, ¬ 2 ^ 10 ∣ Nat.fib (j + 1) := by decide
  exact hall j h

/-- Neither factor has enough of the power of two. -/
theorem not_dvd_mul {x : ℤ} {f : ℕ} (hx : x ≠ 0) (hlt : x.natAbs < 2 ^ 16) (hf : ¬ 2 ^ 10 ∣ f) :
    ¬ ((2 ^ 64 : ℕ) : ℤ) ∣ x * f := by
  intro h
  rw [← Int.natAbs_dvd_natAbs, Int.natAbs_mul, Int.natAbs_natCast, Int.natAbs_natCast, Nat.dvd_mul] at h
  obtain ⟨d, e, hd, he, hde⟩ := h
  obtain ⟨k, -, rfl⟩ := (Nat.dvd_prime_pow Nat.prime_two).mp ⟨e, hde.symm⟩
  obtain ⟨l, -, rfl⟩ := (Nat.dvd_prime_pow Nat.prime_two).mp ⟨_, (Nat.mul_comm _ _ ▸ hde).symm⟩
  have hkl : k + l = 64 := Nat.pow_right_injective (le_refl 2) (by simpa [pow_add] using hde)
  have hk : k < 16 := (Nat.pow_lt_pow_iff_right (by norm_num)).mp
    ((Nat.le_of_dvd (Int.natAbs_pos.mpr hx) hd).trans_lt hlt)
  exact hf ((pow_dvd_pow 2 (by omega)).trans he)

/-- How far the sum of the loop is from that of the calls, where the predicate is `<=`. -/
theorem sums_sub (K : ℤ) (j : ℕ) :
    sums (K - 2) (K - 1) (j + 1) - sums (K - 1) K j = (K - 3) * Nat.fib (j + 1) := by
  have h : ((Nat.fib (j + 2) : ℕ) : ℤ) = Nat.fib j + Nat.fib (j + 1) := by exact_mod_cast Nat.fib_add_two
  simp only [sums, show j + 1 + 1 = j + 2 from rfl, h]
  ring

/-- The sum grows with the sequence. -/
theorem fib_le_sums (K : ℤ) (j : ℕ) : Nat.fib j ≤ (sums (K - 1) K j).natAbs := by
  have h0 : (0 : ℤ) ≤ Nat.fib j := Int.natCast_nonneg _
  have hmono : ((Nat.fib j : ℕ) : ℤ) ≤ Nat.fib (j + 1) := by exact_mod_cast Nat.fib_le_fib_succ
  zify
  rcases lt_or_ge 0 K with hK | hK
  · have h1 : 0 ≤ (K - 1) * (Nat.fib j : ℤ) := mul_nonneg (by omega) h0
    have h2 : (Nat.fib (j + 1) : ℤ) ≤ K * Nat.fib (j + 1) := le_mul_of_one_le_left (h0.trans hmono) hK
    exact le_trans (by rw [sums]; linarith) (le_abs_self _)
  · have h1 : (Nat.fib j : ℤ) ≤ (1 - K) * Nat.fib j := le_mul_of_one_le_left h0 (by omega)
    have h2 : 0 ≤ (-K) * (Nat.fib (j + 1) : ℤ) := mul_nonneg (by omega) (h0.trans hmono)
    exact le_trans (by rw [sums]; linarith) (neg_le_abs _)

/-- With `<=` the loop has the sum of the calls only where it starts with the numbers that come next. -/
theorem wrap_eq_sums_iff {K : ℤ} (hK : Fits 16 K) {j : ℕ} (h : Fits 61 (sums (K - 1) K j)) :
    wrap 64 (sums (K - 2) (K - 1) (j + 1)) = sums (K - 1) K j ↔ K = 3 := by
  constructor
  · intro hwrap
    have hdvd : ((2 ^ 64 : ℕ) : ℤ) ∣ (K - 3) * Nat.fib (j + 1) := by
      rw [← sums_sub, ← hwrap]
      exact Int.dvd_self_sub_bmod
    by_contra hne
    have hj : j < 90 := by
      by_contra hge
      have hfib := (Nat.fib_mono (not_lt.mp hge)).trans (fib_le_sums K j)
      have h90 : Nat.fib 90 = 2880067194370816120 := by decide
      obtain ⟨h1, h2⟩ := h
      norm_num at h1 h2
      omega
    obtain ⟨h1, h2⟩ := hK
    norm_num at h1 h2
    exact not_dvd_mul (by omega) (by omega) (not_dvd_fib hj) hdvd
  · rintro rfl
    have heq := sums_sub 3 j
    rw [sub_self, zero_mul, sub_eq_zero] at heq
    rw [heq, wrap_eq (fits_of_fits (by decide) h)]

/-! ## The fold -/

section Fold

variable {D : Type} {m : RecurseAddTwo} {n : ℤ}

theorem native_base (h : m.cmpOp.int n m.K1 = true) (rounds : ℕ) :
    m.native (D := D) (.fix n) rounds = some (some n) := if_pos h

/-- What the loop leaves. -/
theorem native_loop (hfits : Fits 61 n) (h : m.cmpOp.int n m.K1 = false) (hn : m.K1 ≤ n + 1) :
    m.native (D := D) (.fix n) ((n - m.K1 + 1).toNat + 1) =
      some (retag (wrap 64 (sums (m.K1 - 2) (m.K1 - 1) (n - m.K1 + 1).toNat))) := by
  obtain ⟨h1, h2⟩ := m.fits1
  norm_num at h1 h2
  have hb : Fits 64 (m.K1 - 1) := by
    constructor <;> norm_num <;> omega
  show ite _ _ _ = _
  rw [if_neg (by rw [h]; decide), loop_eq hfits (by norm_num; omega) _ (by omega) hb, Option.map_some]

theorem serves_base (h : m.cmpOp.int n m.K1 = true) :
    Serves (D := D) (m.native (D := D) (.fix n)) (.ok (.fix n)) :=
  ⟨0, some n, native_base h 0, fun _ hk => by rw [Option.some.inj hk], by simp⟩

/-- Outside of the base case of `>` or `>=` the loop has a fixnum at once. -/
theorem not_serves_falls (hc : m.cmpOp = .cmp .gt ∨ m.cmpOp = .cmp .ge) (hfits : Fits 61 n)
    (h : m.cmpOp.int n m.K1 = false) :
    ¬ Serves (D := D) (m.native (D := D) (.fix n)) (.error .overflow) := by
  obtain ⟨h1, h2⟩ := m.fits1
  norm_num at h1 h2
  have hle : n ≤ m.K1 := by
    rcases hc with hc | hc <;>
    · simp only [hc, Test.int, Builtin.Cmp.int, decide_eq_false_iff_not] at h
      omega
  obtain ⟨rounds, k, hk⟩ : ∃ rounds k, m.native (D := D) (.fix n) rounds = some (some k) := by
    rcases hle.lt_or_eq with hlt | rfl
    · refine ⟨1, m.K1 - 1, ?_⟩
      show ite _ _ _ = _
      rw [if_neg (by rw [h]; decide), loop, if_pos hlt, Option.map_some, retag_eq,
        if_pos (by constructor <;> norm_num <;> omega)]
    · refine ⟨_, m.K1 - 2 + (m.K1 - 1), (native_loop hfits h (by omega)).trans ?_⟩
      rw [sub_self, zero_add, show (1 : ℤ).toNat = 1 from rfl, sums_one,
        wrap_eq (by constructor <;> norm_num <;> omega), retag_eq,
        if_pos (by constructor <;> norm_num <;> omega)]
  rw [serves_iff (native_extends m _) hk]
  intro hs
  cases hs.1 k rfl

variable [Double D]

/-- **Two calls.** For a fixnum on which the bytecode ends, the loop serves it exactly under the condition. -/
theorem serves_iff_condition (hfib : m.isFibLike = true) (hfits : Fits 61 n) {depth : ℕ}
    {r : Except ArithError (Value D)} (hrun : m.run depth (.fix n) = some r) :
    Serves (m.native (D := D) (.fix n)) r ↔ m.Condition n := by
  have hunique {depth' : ℕ} {r' : Except ArithError (Value D)} (h' : m.run depth' (.fix n) = some r') :
      r = r' := result_unique (fun k => run_extends m k _) hrun h'
  cases hbase : m.cmpOp.int n m.K1 with
  | true =>
    rw [hunique (run_base hbase 0)]
    exact iff_of_true (serves_base hbase) (.inl hbase)
  | false =>
    have hcond : m.Condition n ↔ (m.cmpOp = .cmp .lt ∨ m.cmpOp = .cmp .le) ∧
        if Fits 61 (sums (m.threshold - 2) (m.threshold - 1) (n - m.threshold + 1).toNat) then
          m.cmpOp = .cmp .lt ∨ m.K1 = 3
        else ¬ Fits 61 (wrap 64 (sums (m.K1 - 2) (m.K1 - 1) (n - m.K1 + 1).toNat)) := by
      simp [Condition, hbase]
    by_cases hc : m.cmpOp = .cmp .lt ∨ m.cmpOp = .cmp .le
    · have hge : m.threshold ≤ n := by
        rw [int_eq hc, decide_eq_false_iff_not] at hbase
        omega
      have hthr : m.K1 ≤ m.threshold := by
        unfold threshold
        split_ifs <;> omega
      have hj : m.threshold - 1 + (n - m.threshold + 1).toNat = n := by omega
      obtain ⟨depth', hsums⟩ := run_sums (D := D) hfib hc (n - m.threshold + 1).toNat (by
        rw [hj]
        exact hfits.2)
      rw [hj] at hsums
      rw [hunique hsums, serves_retag_iff (native_extends m _) (native_loop hfits hbase (by omega)), hcond,
        and_iff_right hc]
      by_cases hexact : Fits 61 (sums (m.threshold - 2) (m.threshold - 1) (n - m.threshold + 1).toNat)
      · rw [if_pos hexact, if_pos hexact]
        rcases hc with hc | hc
        · have ht : m.threshold = m.K1 := by simp [threshold, hc]
          rw [ht] at hexact ⊢
          exact iff_of_true (wrap_eq (fits_of_fits (by decide) hexact)) (.inl hc)
        · have ht : m.threshold = m.K1 + 1 := by simp [threshold, hc]
          rw [ht] at hexact hge ⊢
          have ha : m.K1 + 1 - 2 = m.K1 - 1 := by ring
          have hb : m.K1 + 1 - 1 = m.K1 := by ring
          have hsucc : (n - m.K1 + 1).toNat = (n - (m.K1 + 1) + 1).toNat + 1 := by omega
          rw [ha, hb] at hexact ⊢
          rw [hsucc, wrap_eq_sums_iff m.fits1 hexact]
          exact ⟨.inr, fun h => h.resolve_left (by rw [hc]; decide)⟩
      · rw [if_neg hexact, if_neg hexact]
    · have hfall : m.cmpOp = .cmp .gt ∨ m.cmpOp = .cmp .ge := by
        have his : m.cmpOp ≠ .is := by
          simp only [isFibLike, Bool.decide_and, Bool.and_eq_true, decide_eq_true_eq] at hfib
          exact hfib.1
        rcases hm : m.cmpOp with c | _
        · cases c <;> simp_all
        · exact absurd hm his
      obtain ⟨depth', hover⟩ := run_falls (D := D) hfib hfall hfits hbase
      rw [hunique hover, hcond]
      exact iff_of_false (not_serves_falls hfall hfits hbase) fun h => hc h.1

end Fold

end RecurseAddTwo

end Alcove.Jit
