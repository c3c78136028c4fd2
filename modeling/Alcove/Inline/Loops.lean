import Alcove.Inline.Builtins
import Mathlib.Tactic.IntervalCases

/-!
# The loops of the inline builtins

`sqrt-int` computes the integer square root of a fixnum that is not negative, from any estimate that
32 bits hold (`sqrtLoops_eq`); from the estimate 0 of the opcode, the loops never end with 0 for a
negative fixnum (`sqrtLoops_neg`). `length` ends exactly on the lists whose chain of tails does
(`countPairs_iff`).
-/

namespace Alcove.Inline

open Objects Lib

/-! ## Squares modulo 2^64 -/

theorem toUint64_of_nonneg {z : ℤ} (h0 : 0 ≤ z) (h : z < 2 ^ 64) : (toUint64 z : ℤ) = z := by
  rw [toUint64, Int.emod_eq_of_lt h0 h]
  exact Int.toNat_of_nonneg h0

theorem squareUint64_of_lt {z : ℤ} (h0 : 0 ≤ z) (h : z < 2 ^ 32) : (squareUint64 z : ℤ) = z * z := by
  have hz := toUint64_of_nonneg h0 (h.trans (by norm_num))
  have hlt : z * z < 2 ^ 64 := by nlinarith
  rw [squareUint64, Int.natCast_emod, Int.natCast_mul, hz]
  exact Int.emod_eq_of_lt (mul_nonneg h0 h0) hlt

theorem toUint64_neg {n : ℤ} (h : n < 0) (hlo : -2 ^ 60 ≤ n) : (toUint64 n : ℤ) = 2 ^ 64 + n := by
  have heq : n % 2 ^ 64 = 2 ^ 64 + n := by
    rw [← Int.add_emod_left]
    exact Int.emod_eq_of_lt (by omega) (by omega)
  rw [toUint64, heq]
  exact Int.toNat_of_nonneg (by omega)

/-! ## The estimate -/

theorem truncSqrt_le (m : ℕ) : truncSqrt m ≤ m.sqrt + 1 := by
  have hroot : (m * 4 ^ (52 - m.sqrt.log2)).sqrt < (m.sqrt + 1) * 2 ^ (52 - m.sqrt.log2) := by
    rw [Nat.sqrt_lt', mul_pow, ← pow_mul, mul_comm _ 2, pow_mul]
    exact Nat.mul_lt_mul_of_pos_right (Nat.lt_succ_sqrt' m) (by positivity)
  unfold truncSqrt
  apply Nat.div_le_of_le_mul
  rw [mul_comm _ (m.sqrt + 1)]
  split
  · exact hroot
  · exact hroot.le

theorem sqrtEstimate_lt (n : ℤ) : (sqrtEstimate n : ℤ) + 1 < 2 ^ 32 := by
  have hlt : ((floatToInt64 (doubleOfInt n)).getD 0).toNat < 2 ^ 63 := by
    cases h : floatToInt64 (doubleOfInt n) with
    | none => simp
    | some z =>
      unfold floatToInt64 at h
      simp only at h
      split at h
      · cases h
      · have hz := (of_checked h).2.2
        simp only [Option.getD_some]
        omega
  have hle := truncSqrt_le ((floatToInt64 (doubleOfInt n)).getD 0).toNat
  have hroot : ((floatToInt64 (doubleOfInt n)).getD 0).toNat.sqrt < 2 ^ 32 - 3 :=
    Nat.sqrt_lt.mpr (by omega)
  rw [sqrtEstimate]
  omega

/-! ## Fixnums that are not negative -/

section Root

variable {n : ℤ}

/-- The first loop ends above the root: no square below 2^64 is passed over. -/
theorem sqrtUp_eq (h0 : 0 ≤ n) (hn : n < 2 ^ 60) {r : ℤ} (hr0 : 0 ≤ r) (hr : r + 1 < 2 ^ 32) :
    ∃ fuel s, sqrtUp n fuel r = some s ∧ 0 ≤ s ∧ s + 1 < 2 ^ 32 ∧ n < (s + 1) * (s + 1) := by
  have htest : ∀ s : ℤ, 0 ≤ s → s + 1 < 2 ^ 32 →
      ((checked 64 (s + 1)).map fun s => decide (squareUint64 s ≤ toUint64 n)) =
        some (decide ((s + 1) * (s + 1) ≤ n)) := by
    intro s hs0 hs
    have hsq := squareUint64_of_lt (z := s + 1) (by omega) hs
    have hnn := toUint64_of_nonneg h0 (hn.trans (by norm_num))
    rw [checked_eq_some ⟨by omega, by omega⟩, Option.map_some]
    congr 1
    rw [decide_eq_decide, ← hsq]
    omega
  have hround : ∀ s : ℤ, 0 ≤ s ∧ s + 1 < 2 ^ 32 →
      ((checked 64 (s + 1)).map fun s => decide (squareUint64 s ≤ toUint64 n)) = some false ∨
      ((checked 64 (s + 1)).map fun s => decide (squareUint64 s ≤ toUint64 n)) = some true ∧
        ∃ s', checked 64 (s + 1) = some s' ∧ (0 ≤ s' ∧ s' + 1 < 2 ^ 32) ∧
          (2 ^ 32 - s').toNat < (2 ^ 32 - s).toNat := by
    rintro s ⟨hs0, hs⟩
    rw [htest s hs0 hs]
    by_cases hle : (s + 1) * (s + 1) ≤ n
    · have hlt : s + 1 < 2 ^ 30 := by nlinarith
      exact .inr ⟨by simpa using hle, s + 1, checked_eq_some ⟨by omega, by omega⟩,
        ⟨by omega, by omega⟩, by omega⟩
    · exact .inl (by simpa using hle)
  obtain ⟨fuel, s, hs, ⟨hs0, hs1⟩, hexit⟩ :=
    whileLoop_terminates (fun s : ℤ => (2 ^ 32 - s).toNat) hround ⟨hr0, hr⟩
  rw [htest s hs0 hs1, Option.some.injEq, decide_eq_false_iff_not, not_le] at hexit
  exact ⟨fuel, s, hs, hs0, hs1, hexit⟩

/-- The second loop ends at the root. -/
theorem sqrtDown_eq (h0 : 0 ≤ n) (hn : n < 2 ^ 60) {r : ℤ} (hr0 : 0 ≤ r) (hr : r + 1 < 2 ^ 32)
    (hup : n < (r + 1) * (r + 1)) :
    ∃ fuel s, sqrtDown n fuel r = some s ∧ 0 ≤ s ∧ s * s ≤ n ∧ n < (s + 1) * (s + 1) := by
  have htest : ∀ s : ℤ, 0 ≤ s → s + 1 < 2 ^ 32 →
      (decide (toUint64 n < squareUint64 s) = decide (n < s * s)) := by
    intro s hs0 hs
    have hsq := squareUint64_of_lt hs0 (by omega)
    have hnn := toUint64_of_nonneg h0 (hn.trans (by norm_num))
    rw [decide_eq_decide, ← hsq]
    omega
  have hpos : ∀ s : ℤ, 0 ≤ s → n < s * s → 0 < s := by
    intro s hs0 hlt
    by_contra hle
    obtain rfl : s = 0 := by omega
    omega
  have hround : ∀ s : ℤ, 0 ≤ s ∧ s + 1 < 2 ^ 32 ∧ n < (s + 1) * (s + 1) →
      some (decide (toUint64 n < squareUint64 s)) = some false ∨
      some (decide (toUint64 n < squareUint64 s)) = some true ∧ ∃ s', checked 64 (s - 1) = some s' ∧
        (0 ≤ s' ∧ s' + 1 < 2 ^ 32 ∧ n < (s' + 1) * (s' + 1)) ∧ s'.toNat < s.toNat := by
    rintro s ⟨hs0, hs, -⟩
    rw [htest s hs0 hs]
    by_cases hlt : n < s * s
    · have hs1 := hpos s hs0 hlt
      exact .inr ⟨by simpa using hlt, s - 1, checked_eq_some ⟨by omega, by omega⟩,
        ⟨by omega, by omega, by simpa using hlt⟩, by omega⟩
    · exact .inl (by simpa using hlt)
  obtain ⟨fuel, s, hs, ⟨hs0, hs1, hsn⟩, hexit⟩ :=
    whileLoop_terminates Int.toNat hround ⟨hr0, hr, hup⟩
  rw [htest s hs0 hs1, Option.some.injEq, decide_eq_false_iff_not, not_lt] at hexit
  exact ⟨fuel, s, hs, hs0, hexit, hsn⟩

/-- **The integer square root**, from any estimate that 32 bits hold. -/
theorem sqrtLoops_eq (h0 : 0 ≤ n) (hn : n < 2 ^ 60) {r : ℤ} (hr0 : 0 ≤ r) (hr : r + 1 < 2 ^ 32) :
    ∃ fuel, sqrtLoops n fuel r = some (n.toNat.sqrt : ℤ) := by
  obtain ⟨f₁, s, hs, hs0, hs1, hup⟩ := sqrtUp_eq h0 hn hr0 hr
  obtain ⟨f₂, t, ht, ht0, hlo, hhi⟩ := sqrtDown_eq h0 hn hs0 hs1 hup
  refine ⟨max f₁ f₂, ?_⟩
  have hroot : t.toNat = n.toNat.sqrt := by
    have hcast : (t.toNat : ℤ) = t := Int.toNat_of_nonneg ht0
    have hncast : (n.toNat : ℤ) = n := Int.toNat_of_nonneg h0
    refine Nat.eq_sqrt.mpr ⟨?_, ?_⟩
    · zify
      rwa [hcast, hncast]
    · zify
      rwa [hcast, hncast]
  have hup' : sqrtUp n (max f₁ f₂) r = some s := whileLoop_mono hs (Nat.le_max_left f₁ f₂)
  rw [sqrtLoops, hup', Option.bind_some, ← hroot, Int.toNat_of_nonneg ht0]
  exact whileLoop_mono ht (Nat.le_max_right f₁ f₂)

end Root

/-! ## Negative fixnums -/

/-- Where the first loop ends, it is not at a multiple of 2^61. -/
theorem sqrtLoops_neg {n : ℤ} (h : n < 0) (hlo : -2 ^ 60 ≤ n) {fuel : ℕ} {r : ℤ}
    (hr : sqrtLoops n fuel 0 = some r) : makeFix r ≠ makeFix 0 := by
  have hn := toUint64_neg h hlo
  obtain ⟨s, hs, hdown⟩ := Option.bind_eq_some_iff.mp hr
  obtain ⟨hinv, hexit⟩ := whileLoop_invariant
    (I := fun s => s = 0 ∨ 0 < s ∧ squareUint64 s ≤ toUint64 n) (by
      intro s s' hinv ht hstep
      obtain ⟨u, hu, ht⟩ := Option.map_eq_some_iff.mp ht
      obtain rfl := Option.some.inj (hstep.symm.trans hu)
      obtain ⟨rfl, -⟩ := of_checked hstep
      exact .inr ⟨by omega, of_decide_eq_true ht⟩) (.inl rfl) hs
  obtain ⟨u, hu, hexit⟩ := Option.map_eq_some_iff.mp hexit
  obtain ⟨rfl, hfit⟩ := of_checked hu
  have hexit := of_decide_eq_false hexit
  obtain rfl | ⟨hs0, hsq⟩ := hinv
  · have hone : squareUint64 (0 + 1) = 1 := rfl
    omega
  -- the second loop does nothing
  obtain ⟨m, -, ⟨-, rfl⟩ | ⟨ht, -⟩⟩ := whileLoop_cases hdown
  · intro heq
    have hmod : (2 ^ 61 : ℤ) ∣ r := Int.dvd_of_bmod_eq_zero (congrArg Subtype.val heq)
    obtain ⟨k, rfl⟩ := hmod
    have hk : 0 < k ∧ k < 4 := by
      have := hfit.2
      omega
    obtain ⟨hk0, hk4⟩ := hk
    have hsmall : squareUint64 (2 ^ 61 * k + 1) < 2 ^ 63 + 2 ^ 62 + 2 := by
      interval_cases k <;> decide
    omega
  · exact absurd hsq (by simpa using ht)

/-! ## Chains of pairs -/

/-- The chain of tails from a pointer reaches something that is no pair. -/
inductive Ends (w : World) : Ptr → Prop
  | stop {p : Ptr} (h : w.pairOf p = none) : Ends w p
  | next {p content next : Ptr} (h : w.pairOf p = some (content, next)) (hnext : Ends w next) :
      Ends w p

/-- The loop of `length` and the chain end together. -/
theorem countPairs_iff {w : World} {p : Ptr} : (∃ fuel n, countPairs w fuel p = some n) ↔ Ends w p := by
  constructor
  · rintro ⟨fuel, n, h⟩
    obtain ⟨⟨q, m⟩, hloop, -⟩ := Option.map_eq_some_iff.mp h
    clear h
    generalize 0 = k at hloop
    induction fuel generalizing p k with
    | zero => cases hloop
    | succ fuel ih =>
      obtain ⟨_, hm, ⟨ht, -⟩ | ⟨-, s, hs, hloop⟩⟩ := whileLoop_cases hloop
      · exact .stop (by simpa using ht)
      · cases hm
        obtain ⟨⟨content, nx⟩, hp, rfl⟩ := Option.map_eq_some_iff.mp hs
        exact .next hp (ih _ hloop)
  · intro h
    suffices hloop : ∀ k, ∃ fuel s, whileLoop (fun s : Ptr × ℕ => some (w.pairOf s.1).isSome)
        (fun s => (w.pairOf s.1).map fun p => (p.2, s.2 + 1)) fuel (p, k) = some s by
      obtain ⟨fuel, s, hs⟩ := hloop 0
      exact ⟨fuel, s.2, by rw [countPairs, hs, Option.map_some]⟩
    induction h with
    | stop h => exact fun k => ⟨1, _, whileLoop_exit 0 (by rw [h]; rfl)⟩
    | next h _ ih =>
      intro k
      obtain ⟨fuel, s, hs⟩ := ih (k + 1)
      exact ⟨fuel + 1, s, by rw [whileLoop_round fuel (by rw [h]; rfl) (by rw [h]; rfl), hs]⟩

end Alcove.Inline
