import Alcove.Numeric.Rounded
import Alcove.Numeric.Tiers

/-!
# The decimal operations

`dec_addsub`, `dec_mul` and `dec_div` on normalized decimals, against the operations on numbers. Sums and
differences are exact. A product is the nearest decimal, unless it is negative and rounded from
zero. The long division keeps the quotient and the remainder of the digits it has produced
(`decDigits_spec`); its last step, which rounds up, is the one addition that is not checked.

**Main result.** `decBinop_exact_iff`: the inputs at which an operation gives the right decimal and no
intermediate result leaves its type unnoticed.
-/

namespace Alcove.Numeric

open Lib

/-! ## What an operation should give -/

/-- The operation ends with defined results throughout, and a value that it returns is the exact one
rounded to 28 places, in normal form; a sum and a difference are not rounded at all. -/
def DecRight (o : Op) (a b : ℤ × ℤ) : Prop :=
  ∃ r, decBinop o a b = some r ∧ ∀ d, r = .ok d →
    MadeOf (o.apply (decValue a.1 a.2) (decValue b.1 b.2)) (some (some d)) ∧
    (o = .add ∨ o = .sub → decValue d.1 d.2 = o.apply (decValue a.1 a.2) (decValue b.1 b.2))

/-- The long division of `a` by `b` arrives at the largest value of 128 bits and a remainder that
rounds it up. -/
def DivSlips (a b : ℤ × ℤ) : Prop :=
  let n := |a.1| * 10 ^ b.2.toNat
  let d := |b.1| * 10 ^ a.2.toNat
  n < 2 ^ 127 ∧ d < 2 ^ 127 ∧ (∀ k < 28, n * 10 ^ k % d * 10 < 2 ^ 127) ∧
    n * 10 ^ 28 / d = 2 ^ 127 - 1 ∧ d ≤ 2 * (n * 10 ^ 28 % d)

/-- The operands at which the source goes wrong. -/
def DecSlips (o : Op) (a b : ℤ × ℤ) : Prop :=
  match o with
  | .add => False
  | .sub => False
  | .mul => a.1 * b.1 < 0 ∧ RoundsFromZero (decValue a.1 a.2 * decValue b.1 b.2)
  | .div => DivSlips a b

variable {a b : ℤ × ℤ} {x y : ℚ} {c s m : ℤ}

/-! ## Decimals that need no rounding -/

/-- Up to the last place, `make_decimal_raw` rounds nothing. -/
theorem makeDecimalRaw_places (hc : Fits 128 c) (hs : 0 ≤ s) (hle : s ≤ decMaxScale) :
    MadeOf (decValue c s) (makeDecimalRaw c s) :=
  makeDecimalRaw_made hc hs (hle.trans (by decide)) fun h =>
    not_roundsFromZero (decValue_places c hs hle) h.2

/-- Numbers with the same rounding have the same decimal. -/
theorem MadeOf.congr {r : Option (Option (ℤ × ℤ))} (h : MadeOf x r) (hx : HalfAway (x * 10 ^ 28) m)
    (hy : HalfAway (y * 10 ^ 28) m) : MadeOf y r := by
  obtain ⟨m', hm', hr⟩ := h
  obtain rfl := hm'.unique hx
  exact ⟨m', hy, hr⟩

/-- A number with at most 28 places is its own decimal. -/
theorem MadeOf.exact {d : ℤ × ℤ} (h : MadeOf x (some (some d))) (hx : x * 10 ^ 28 = m) :
    decValue d.1 d.2 = x := by
  obtain ⟨m', hm', ⟨c, s, heq, -, hv⟩ | ⟨heq, -⟩⟩ := h
  · rw [hx] at hm'
    obtain rfl := hm'.unique (HalfAway.intCast m)
    obtain rfl := Option.some.inj (Option.some.inj heq)
    rw [hv, ← hx, mul_div_cancel_right₀ _ (by norm_num)]
  · cases heq

/-- The value of an operation, from what `make_decimal_raw` makes. -/
theorem decRight_of_made {o : Op} {r : Option (Option (ℤ × ℤ))}
    (heq : decBinop o a b = decResult <$> r)
    (h : MadeOf (o.apply (decValue a.1 a.2) (decValue b.1 b.2)) r)
    (hexact : o = .add ∨ o = .sub →
      ∃ m : ℤ, o.apply (decValue a.1 a.2) (decValue b.1 b.2) * 10 ^ 28 = m) : DecRight o a b := by
  cases r with
  | none =>
    obtain ⟨m, -, ⟨c, s, hr, -⟩ | ⟨hr, -⟩⟩ := h <;> cases hr
  | some r =>
    refine ⟨decResult r, heq, fun d hd => ?_⟩
    cases r with
    | none => cases hd
    | some d' =>
      obtain rfl := Except.ok.inj hd
      refine ⟨h, fun ho => ?_⟩
      obtain ⟨m, hm⟩ := hexact ho
      exact h.exact hm

/-- An operation that reports an error is right. -/
theorem decRight_of_error {o : Op} {e : DecErr} (h : decBinop o a b = some (.error e)) :
    DecRight o a b := ⟨_, h, fun _ hd => nomatch hd⟩

/-! ## Sums, differences and products -/

/-- Two decimals at their common scale. -/
theorem decAlign_spec (ha : DecimalNormal a.1 a.2) (hb : DecimalNormal b.1 b.2) :
    decAlign a b = some none ∨ ∃ ca cb, decAlign a b = some (some (ca, cb, max a.2 b.2)) ∧
      decValue ca (max a.2 b.2) = decValue a.1 a.2 ∧
      decValue cb (max a.2 b.2) = decValue b.1 b.2 := by
  have hmax : max a.2 b.2 ≤ decMaxScale := max_le ha.le hb.le
  have hpa : decPow10 (max a.2 b.2 - a.2).toNat = some (10 ^ (max a.2 b.2 - a.2).toNat) :=
    decPow10_scale ((sub_le_self _ ha.nonneg).trans hmax)
  have hpb : decPow10 (max a.2 b.2 - b.2).toNat = some (10 ^ (max a.2 b.2 - b.2).toNat) :=
    decPow10_scale ((sub_le_self _ hb.nonneg).trans hmax)
  simp only [decAlign, hpa, hpb, Option.bind_eq_bind, Option.bind_some]
  cases hca : checked 128 (a.1 * 10 ^ (max a.2 b.2 - a.2).toNat) with
  | none => exact .inl rfl
  | some ca =>
    cases hcb : checked 128 (b.1 * 10 ^ (max a.2 b.2 - b.2).toNat) with
    | none => exact .inl rfl
    | some cb =>
      obtain ⟨rfl, -⟩ := of_checked hca
      obtain ⟨rfl, -⟩ := of_checked hcb
      exact .inr ⟨_, _, rfl, decValue_shift _ ha.nonneg (le_max_left ..),
        decValue_shift _ hb.nonneg (le_max_right ..)⟩

theorem decValue_add (c c' s : ℤ) : decValue (c + c') s = decValue c s + decValue c' s := by
  rw [decValue, decValue, decValue, Int.cast_add, add_div]

theorem decValue_sub (c c' s : ℤ) : decValue (c - c') s = decValue c s - decValue c' s := by
  rw [sub_eq_add_neg, decValue_add, decValue_neg, sub_eq_add_neg]

/-- Sums and differences are right. -/
theorem decRight_addsub (ha : DecimalNormal a.1 a.2) (hb : DecimalNormal b.1 b.2) {o : Op}
    (ho : o = .add ∨ o = .sub) : DecRight o a b := by
  have hbinop : decBinop o a b = decAddsub a b (o = .sub) := by
    obtain rfl | rfl := ho <;> rfl
  obtain halign | ⟨ca, cb, halign, hva, hvb⟩ := decAlign_spec ha hb
  · exact decRight_of_error (e := .overflow) (by rw [hbinop, decAddsub, halign]; rfl)
  have hnonneg : 0 ≤ max a.2 b.2 := ha.nonneg.trans (le_max_left ..)
  have hle : max a.2 b.2 ≤ decMaxScale := max_le ha.le hb.le
  have hvalue : decValue (if o = .sub then ca - cb else ca + cb) (max a.2 b.2) =
      o.apply (decValue a.1 a.2) (decValue b.1 b.2) := by
    obtain rfl | rfl := ho
    · rw [if_neg (by decide), decValue_add, hva, hvb]
      rfl
    · rw [if_pos rfl, decValue_sub, hva, hvb]
      rfl
  cases hr : checked 128 (if o = .sub then ca - cb else ca + cb) with
  | none =>
    have hrun : decAddsub a b (o = .sub) = some (.error .overflow) := by
      rw [decAddsub, halign]
      simp only [decide_eq_true_eq, Option.bind_eq_bind, Option.bind_some, hr]
      rfl
    exact decRight_of_error (hbinop.trans hrun)
  | some r =>
    have hrun : decAddsub a b (o = .sub) = decResult <$> makeDecimalRaw r (max a.2 b.2) := by
      rw [decAddsub, halign]
      simp only [decide_eq_true_eq, Option.bind_eq_bind, Option.bind_some, hr]
    obtain ⟨rfl, hfits⟩ := of_checked hr
    refine decRight_of_made (hbinop.trans hrun) ?_ fun _ => ?_
    · rw [← hvalue]
      exact makeDecimalRaw_places hfits hnonneg hle
    · rw [← hvalue]
      exact ⟨_, decValue_places _ hnonneg hle⟩

theorem decValue_mul (c c' : ℤ) {s s' : ℤ} (hs : 0 ≤ s) (hs' : 0 ≤ s') :
    decValue (c * c') (s + s') = decValue c s * decValue c' s' := by
  rw [decValue, decValue, decValue, Int.toNat_add hs hs', pow_add, Int.cast_mul,
    mul_div_mul_comm]

/-- The coefficient of a number that is rounded from zero is small. -/
theorem RoundsFromZero.fits (h : RoundsFromZero (decValue c s)) (hs : s ≤ 56) : Fits 128 c := by
  have hpow : (10 : ℚ) ^ s.toNat ≤ 10 ^ 56 := pow_le_pow_right₀ (by norm_num) (by omega)
  have hpos : (0 : ℚ) < 10 ^ s.toNat := by positivity
  have hlt := h.2
  rw [decValue, abs_mul, abs_div, abs_of_pos hpos, div_mul_eq_mul_div, div_lt_one hpos,
    abs_of_pos (by norm_num : (0 : ℚ) < 10 ^ 28)] at hlt
  have hc : |(c : ℚ)| < 2 ^ 127 := by
    have hbound : (10 : ℚ) ^ 56 = 10 ^ 28 * 10 ^ 28 := by norm_num
    have hsmall : |(c : ℚ)| < 10 ^ 28 := by
      rw [hbound] at hpow
      exact lt_of_mul_lt_mul_right (hlt.trans_le hpow) (by norm_num)
    exact hsmall.trans (by norm_num)
  have hc' : |c| < 2 ^ 127 := by exact_mod_cast hc
  obtain ⟨hlo, hhi⟩ := abs_lt.1 hc'
  exact ⟨hlo.le, hhi⟩

/-- **A product is right, unless it is negative and rounded from zero.** -/
theorem decRight_mul_iff (ha : DecimalNormal a.1 a.2) (hb : DecimalNormal b.1 b.2) :
    DecRight .mul a b ↔ ¬ DecSlips .mul a b := by
  have hscale : 0 ≤ a.2 + b.2 := add_nonneg ha.nonneg hb.nonneg
  have hscale' : a.2 + b.2 ≤ 56 := add_le_add ha.le hb.le
  have hvalue := decValue_mul a.1 b.1 ha.nonneg hb.nonneg
  cases hr : checked 128 (a.1 * b.1) with
  | none =>
    refine iff_of_true (decRight_of_error (e := .overflow) (by rw [decBinop, decMul, hr])) ?_
    rintro ⟨-, hslip⟩
    rw [← hvalue] at hslip
    rw [checked_eq_some (hslip.fits hscale')] at hr
    cases hr
  | some r =>
    obtain ⟨rfl, hfits⟩ := of_checked hr
    have hrun : decBinop .mul a b = decResult <$> makeDecimalRaw (a.1 * b.1) (a.2 + b.2) := by
      rw [decBinop, decMul, hr]
    constructor
    · rintro ⟨r, heq, hok⟩ ⟨hneg, hslip⟩
      rw [← hvalue] at hslip
      rw [hrun, makeDecimalRaw_slip hfits hscale hscale' hneg hslip] at heq
      refine hslip.not_madeOf (decValue_lt_zero.2 hneg) ?_
      rw [hvalue]
      exact (hok (1, 28) (Option.some.inj heq).symm).1
    · intro h
      refine decRight_of_made hrun ?_ (by rintro (h | h) <;> cases h)
      have hmade := makeDecimalRaw_made hfits hscale hscale' (hvalue ▸ h)
      rwa [hvalue] at hmade

/-! ## The long division -/

/-- Dividing on by ten: the digits so far and the remainder after one more place. -/
theorem digit_step {n d : ℤ} (hd : 0 < d) (k : ℕ) :
    n * 10 ^ k / d * 10 + (n * 10 ^ k % d * 10).tdiv d = n * 10 ^ (k + 1) / d ∧
      (n * 10 ^ k % d * 10).tmod d = n * 10 ^ (k + 1) % d := by
  have hrem : 0 ≤ n * 10 ^ k % d * 10 := mul_nonneg (Int.emod_nonneg _ hd.ne') (by norm_num)
  have hsplit : n * 10 ^ (k + 1) = n * 10 ^ k % d * 10 + d * (n * 10 ^ k / d * 10) := by
    have := Int.emod_add_mul_ediv (n * 10 ^ k) d
    calc n * 10 ^ (k + 1) = n * 10 ^ k * 10 := by rw [pow_succ, mul_assoc]
      _ = (n * 10 ^ k % d + d * (n * 10 ^ k / d)) * 10 := by rw [this]
      _ = _ := by ring
  rw [Int.tdiv_eq_ediv_of_nonneg hrem, Int.tmod_eq_emod_of_nonneg hrem, hsplit,
    Int.add_mul_ediv_left _ _ hd.ne', Int.add_mul_emod_self_left]
  exact ⟨add_comm _ _, rfl⟩

/-- **The loop of the long division.** Where it ends, the quotient and the remainder are those of the
digits produced so far; it ends early only without a remainder, and only after steps whose scaled
remainder fits. -/
theorem decDigits_spec {n d : ℤ} (hd : 0 < d) (i k : ℕ) :
    decDigits d i (n * 10 ^ k / d) (n * 10 ^ k % d) = none ∨
    ∃ j left, j + left = i ∧ decDigits d i (n * 10 ^ k / d) (n * 10 ^ k % d) =
        some (n * 10 ^ (k + j) / d, n * 10 ^ (k + j) % d, left) ∧
      (left = 0 ∨ n * 10 ^ (k + j) % d = 0) ∧
      (∀ l < j, Fits 128 (n * 10 ^ (k + l) % d * 10)) ∧
      (Fits 128 (n * 10 ^ k / d) → Fits 128 (n * 10 ^ (k + j) / d)) := by
  induction i generalizing k with
  | zero => exact .inr ⟨0, 0, rfl, rfl, .inl rfl, fun l hl => absurd hl (Nat.not_lt_zero l), id⟩
  | succ i ih =>
    by_cases hzero : n * 10 ^ k % d = 0
    · refine .inr ⟨0, i + 1, Nat.zero_add _, ?_, .inr hzero,
        fun l hl => absurd hl (Nat.not_lt_zero l), id⟩
      rw [decDigits, if_pos hzero]
      rfl
    · obtain ⟨hq, hr⟩ := digit_step (n := n) hd k
      rw [decDigits, if_neg hzero]
      cases h10 : checked 128 (n * 10 ^ k / d * 10) with
      | none => exact .inl rfl
      | some q10 =>
        obtain ⟨rfl, -⟩ := of_checked h10
        cases hr10 : checked 128 (n * 10 ^ k % d * 10) with
        | none => exact .inl rfl
        | some rem10 =>
          obtain ⟨rfl, hfits⟩ := of_checked hr10
          simp only [Option.bind_eq_bind, Option.bind_some, hq, hr]
          cases hnew : checked 128 (n * 10 ^ (k + 1) / d) with
          | none => exact .inl rfl
          | some q =>
            obtain ⟨rfl, hnewFits⟩ := of_checked hnew
            rw [Option.bind_some]
            obtain hnone | ⟨j, left, hj, hrun, hend, hall, hlast⟩ := ih (k + 1)
            · exact .inl hnone
            · rw [Nat.add_assoc, Nat.add_comm 1 j] at hrun hend hlast
              refine .inr ⟨j + 1, left, by omega, hrun, hend, ?_, fun _ => hlast hnewFits⟩
              · intro l hl
                cases l with
                | zero => exact hfits
                | succ l =>
                  have := hall l (by omega)
                  rwa [Nat.add_assoc, Nat.add_comm 1 l] at this

/-- More digits make no smaller a quotient. -/
theorem digits_mono {n d : ℤ} (hn : 0 ≤ n) (hd : 0 < d) {k l : ℕ} (h : k ≤ l) :
    n * 10 ^ k / d ≤ n * 10 ^ l / d :=
  Int.ediv_le_ediv hd (mul_le_mul_of_nonneg_left (pow_le_pow_right₀ (by norm_num) h) hn)

/-- Steps that all fit are all taken, unless the remainder vanishes. -/
theorem decDigits_eq {n d : ℤ} (hn : 0 ≤ n) (hd : 0 < d) (i k : ℕ)
    (hrem : ∀ l < i, n * 10 ^ (k + l) % d * 10 < 2 ^ 127) (hq : n * 10 ^ (k + i) / d < 2 ^ 127)
    (hne : n * 10 ^ (k + i) % d ≠ 0) : decDigits d i (n * 10 ^ k / d) (n * 10 ^ k % d) =
      some (n * 10 ^ (k + i) / d, n * 10 ^ (k + i) % d, 0) := by
  induction i generalizing k with
  | zero => rfl
  | succ i ih =>
    have hshift : k + (i + 1) = k + 1 + i := by omega
    have hzero : n * 10 ^ k % d ≠ 0 := by
      intro hzero
      refine hne (Int.emod_eq_zero_of_dvd ((Int.dvd_of_emod_eq_zero hzero).trans ?_))
      exact mul_dvd_mul_left n (pow_dvd_pow 10 (Nat.le_add_right ..))
    obtain ⟨hqs, hrs⟩ := digit_step (n := n) hd k
    have hrem0 : 0 ≤ n * 10 ^ k % d * 10 := mul_nonneg (Int.emod_nonneg _ hd.ne') (by norm_num)
    have hq0 : 0 ≤ n * 10 ^ k / d * 10 :=
      mul_nonneg (Int.ediv_nonneg (mul_nonneg hn (by positivity)) hd.le) (by norm_num)
    have hnext : n * 10 ^ (k + 1) / d < 2 ^ 127 := (digits_mono hn hd (by omega)).trans_lt hq
    have hq10 : n * 10 ^ k / d * 10 < 2 ^ 127 := by
      refine lt_of_le_of_lt ?_ hnext
      rw [← hqs]
      exact le_add_of_nonneg_right (Int.tdiv_nonneg hrem0 hd.le)
    have hnext0 : 0 ≤ n * 10 ^ (k + 1) / d := Int.ediv_nonneg (mul_nonneg hn (by positivity)) hd.le
    have hnew : checked 128 (n * 10 ^ (k + 1) / d) = some (n * 10 ^ (k + 1) / d) :=
      checked_eq_some (fits_of_nonneg hnext0 hnext)
    rw [decDigits, if_neg hzero, checked_eq_some (fits_of_nonneg hq0 hq10),
      checked_eq_some (fits_of_nonneg hrem0 (hrem 0 (Nat.succ_pos i)))]
    simp only [Option.bind_eq_bind, Option.bind_some, hqs, hrs, hnew]
    rw [hshift] at hq hne ⊢
    refine ih (k + 1) (fun l hl => ?_) hq hne
    have := hrem (l + 1) (by omega)
    rwa [Nat.add_comm l 1, ← Nat.add_assoc] at this

/-! ## Quotients -/

/-- A scaled coefficient is never the least value of its type. -/
theorem ne_least {k : ℕ} (h : (c.natAbs : ℤ) < 10 ^ 29) : c * 10 ^ k ≠ -2 ^ 127 := by
  intro heq
  cases k with
  | zero =>
    rw [pow_zero, mul_one] at heq
    rw [heq] at h
    exact absurd h (by decide)
  | succ k =>
    have hdvd : (10 : ℤ) ∣ -2 ^ 127 := ⟨c * 10 ^ k, by rw [← heq, pow_succ]; ring⟩
    exact absurd hdvd (by decide)

/-- The magnitude that `dec_div` takes. -/
theorem negIf_abs (h : Fits 128 c) (hmin : c ≠ -2 ^ 127) : negIf 128 (c < 0) c = some |c| := by
  rw [negIf]
  split
  · next hneg => rw [checked_eq_some (h.neg hmin), abs_of_neg hneg]
  · next hpos => rw [abs_of_nonneg (not_lt.1 hpos)]

theorem fits_abs (h : Fits 128 c) (hmin : c ≠ -2 ^ 127) : Fits 128 |c| := by
  obtain hc | hc := abs_choice c
  · rwa [hc]
  · rw [hc]
    exact h.neg hmin

/-- The steps of `dec_div` after the two magnitudes. -/
def decQuotient (n d : ℤ) (neg : Bool) : Option (Except DecErr (ℤ × ℤ)) :=
  match decDigits d 28 (n / d) (n % d) with
  | none => some (.error .overflow)
  | some (q, rem, left) =>
    (if rem ≠ 0 ∧ d - rem ≤ rem then checked 128 (q + 1) else some q).bind fun q =>
      (negIf 128 (neg = true) q).bind fun coef => decResult <$> makeDecimalRaw coef (28 - left)

theorem decDiv_run (ha : DecimalNormal a.1 a.2) (hb : DecimalNormal b.1 b.2) (hne : b.1 ≠ 0)
    (hN : Fits 128 (a.1 * 10 ^ b.2.toNat)) (hD : Fits 128 (b.1 * 10 ^ a.2.toNat)) :
    decDiv a b = decQuotient |a.1 * 10 ^ b.2.toNat| |b.1 * 10 ^ a.2.toNat|
      ((a.1 * 10 ^ b.2.toNat < 0) ≠ (b.1 * 10 ^ a.2.toNat < 0)) := by
  have hminN : a.1 * 10 ^ b.2.toNat ≠ -2 ^ 127 := ne_least ha.digits
  have hminD : b.1 * 10 ^ a.2.toNat ≠ -2 ^ 127 := ne_least hb.digits
  have hD0 : b.1 * 10 ^ a.2.toNat ≠ 0 := mul_ne_zero hne (by positivity)
  rw [decDiv, if_neg hne, decPow10_scale hb.le, decPow10_scale ha.le]
  simp only [Option.bind_eq_bind, Option.bind_some]
  rw [checked_eq_some hN]
  simp only [checked_eq_some hD]
  generalize a.1 * 10 ^ b.2.toNat = N at *
  generalize b.1 * 10 ^ a.2.toNat = D at *
  have hDpos : 0 < |D| := abs_pos.2 hD0
  rw [negIf_abs hN hminN, negIf_abs hD hminD]
  simp only [Option.bind_some]
  rw [checkedDiv_eq_some (fits_abs hN hminN) hDpos, checkedMod_eq_some (fits_abs hN hminN) hDpos]
  simp only [Option.bind_some]
  rw [Int.tdiv_eq_ediv_of_nonneg (abs_nonneg N), Int.tmod_eq_emod_of_nonneg (abs_nonneg N)]
  have hmax : decMaxScale.toNat = 28 := rfl
  rw [decQuotient, hmax]
  cases decDigits |D| 28 (|N| / |D|) (|N| % |D|) with
  | none => rfl
  | some p =>
    obtain ⟨q, rem, left⟩ := p
    have hneg (q : ℤ) : negIf 128 (decide ((N < 0) ≠ (D < 0)) = true) q =
        negIf 128 ((N < 0) ≠ (D < 0)) q := by simp only [negIf, decide_eq_true_eq]
    simp only [hneg]
    split <;> rfl

/-- The last step leaves the type. -/
def QuotSlips (n d : ℤ) : Prop :=
  (∀ k < 28, n * 10 ^ k % d * 10 < 2 ^ 127) ∧ n * 10 ^ 28 / d = 2 ^ 127 - 1 ∧
    d ≤ 2 * (n * 10 ^ 28 % d)

variable {n d : ℤ}

theorem decQuotient_slips (hn : 0 ≤ n) (hd : 0 < d) (neg : Bool) (h : QuotSlips n d) :
    decQuotient n d neg = none := by
  obtain ⟨hrem, hq, hhalf⟩ := h
  have hne : n * 10 ^ 28 % d ≠ 0 := by
    intro hzero
    rw [hzero, mul_zero] at hhalf
    exact absurd hhalf (not_le.2 hd)
  have hrun := decDigits_eq hn hd 28 0 (fun l hl => by rw [Nat.zero_add]; exact hrem l hl)
    (by rw [Nat.zero_add, hq]; norm_num) (by rwa [Nat.zero_add])
  rw [pow_zero, mul_one, Nat.zero_add, hq] at hrun
  have hover : checked 128 ((2 : ℤ) ^ 127 - 1 + 1) = none := by decide
  rw [decQuotient, hrun]
  dsimp only
  rw [if_pos ⟨hne, by linarith⟩, hover]
  rfl

/-- The magnitude that `dec_div` hands to `make_decimal_raw`: it fits, and it is the quotient rounded
to the places that were produced. -/
theorem decDigits_rounded (hn : 0 ≤ n) (hd : 0 < d) (hfits : Fits 128 n) (h : ¬ QuotSlips n d)
    {q rem : ℤ} {left : ℕ} (hrun : decDigits d 28 (n / d) (n % d) = some (q, rem, left)) :
    left ≤ 28 ∧ 0 ≤ q ∧ Fits 128 (if rem ≠ 0 ∧ d - rem ≤ rem then q + 1 else q) ∧
      HalfAway ((n : ℚ) / d * 10 ^ 28)
        ((if rem ≠ 0 ∧ d - rem ≤ rem then q + 1 else q) * 10 ^ left) := by
  have hspec := decDigits_spec (n := n) hd 28 0
  simp only [pow_zero, mul_one, Nat.zero_add] at hspec
  obtain hnone | ⟨j, l, hj, hrun', hend, hall, hlast⟩ := hspec
  · rw [hrun] at hnone
    cases hnone
  obtain ⟨rfl, rfl, rfl⟩ : q = _ ∧ rem = _ ∧ left = l := by
    rw [hrun] at hrun'
    simpa using hrun'
  have hnj : 0 ≤ n * 10 ^ j := mul_nonneg hn (by positivity)
  have hq0 : 0 ≤ n * 10 ^ j / d := Int.ediv_nonneg hnj hd.le
  have hqd : Fits 128 (n / d) := by
    rw [← Int.tdiv_eq_ediv_of_nonneg hn]
    exact hfits.tdiv hd
  have hqfits := hlast hqd
  refine ⟨by omega, hq0, ?_, ?_⟩
  · split
    · next hup =>
      obtain rfl := hend.resolve_right hup.1
      obtain rfl : j = 28 := hj
      have hlt : n * 10 ^ 28 / d + 1 < 2 ^ 127 := by
        by_contra hge
        have hle : n * 10 ^ 28 / d ≤ 2 ^ 127 - 1 := Int.le_sub_one_of_lt hqfits.2
        exact h ⟨fun k hk => (hall k hk).2, le_antisymm hle (by linarith), by linarith [hup.2]⟩
      exact fits_of_nonneg (by linarith) hlt
    · exact hqfits
  · have hdiv := Int.emod_add_mul_ediv (n * 10 ^ j) d
    have hd' : (d : ℚ) ≠ 0 := by exact_mod_cast hd.ne'
    by_cases hr : n * 10 ^ j % d = 0
    · have hx : (n : ℚ) / d * 10 ^ 28 = ((n * 10 ^ j / d * 10 ^ left : ℤ) : ℚ) := by
        rw [hr, zero_add] at hdiv
        have hdiv' : (d : ℚ) * (n * 10 ^ j / d : ℤ) = n * 10 ^ j := by exact_mod_cast hdiv
        push_cast
        rw [div_mul_eq_mul_div, div_eq_iff hd', ← hj, pow_add, ← mul_assoc, ← hdiv']
        ring
      rw [if_neg fun hup => hup.1 hr, hx]
      exact HalfAway.intCast _
    · obtain rfl := hend.resolve_right hr
      obtain rfl : j = 28 := hj
      have hx : (n : ℚ) / d * 10 ^ 28 =
          ((n * 10 ^ 28 / d * d + n * 10 ^ 28 % d : ℤ) : ℚ) / d := by
        rw [show n * 10 ^ 28 / d * d + n * 10 ^ 28 % d = n * 10 ^ 28 by linarith]
        push_cast
        ring
      have hiff : (n * 10 ^ 28 % d ≠ 0 ∧ d - n * 10 ^ 28 % d ≤ n * 10 ^ 28 % d) ↔
          d ≤ 2 * (n * 10 ^ 28 % d) := ⟨fun h => by linarith [h.2], fun h => ⟨hr, by linarith⟩⟩
      rw [pow_zero, mul_one, hx, if_congr hiff rfl rfl]
      exact HalfAway.of_remainder hq0 (Int.emod_nonneg _ hd.ne') (Int.emod_lt_of_pos _ hd)

/-- **The long division**: where the last step stays in its type, the quotient of the two magnitudes
with the sign is made, or an overflow is reported. -/
theorem decQuotient_made (hn : 0 ≤ n) (hd : 0 < d) (hfits : Fits 128 n) (h : ¬ QuotSlips n d)
    (neg : Bool) : decQuotient n d neg = some (.error .overflow) ∨
      ∃ r, decQuotient n d neg = decResult <$> r ∧ MadeOf ((if neg then -1 else 1) * (n / d)) r := by
  cases hrun : decDigits d 28 (n / d) (n % d) with
  | none =>
    rw [decQuotient, hrun]
    exact .inl rfl
  | some p =>
    obtain ⟨q, rem, left⟩ := p
    obtain ⟨hleft, hq0, hm, hround⟩ := decDigits_rounded hn hd hfits h hrun
    have hlast : (if rem ≠ 0 ∧ d - rem ≤ rem then checked 128 (q + 1) else some q) =
        some (if rem ≠ 0 ∧ d - rem ≤ rem then q + 1 else q) := by
      split
      · next hup =>
        rw [if_pos hup] at hm
        exact checked_eq_some hm
      · rfl
    have hm0 : 0 ≤ if rem ≠ 0 ∧ d - rem ≤ rem then q + 1 else q := by split <;> linarith
    rw [decQuotient, hrun]
    dsimp only
    rw [hlast, Option.bind_some]
    generalize (if rem ≠ 0 ∧ d - rem ≤ rem then q + 1 else q) = m at hm hm0 hround ⊢
    have hscale : (0 : ℤ) ≤ 28 - left := by omega
    have hscale' : (28 - left : ℤ) ≤ decMaxScale := by
      unfold decMaxScale
      omega
    have hplaces (c : ℤ) : HalfAway (decValue c (28 - left) * 10 ^ 28) (c * 10 ^ left) := by
      have hexp : (decMaxScale - (28 - left)).toNat = left := by
        unfold decMaxScale
        omega
      rw [decValue_places c hscale hscale', hexp]
      exact HalfAway.intCast _
    cases neg with
    | true =>
      have hmin : m ≠ -2 ^ 127 := by
        rintro rfl
        exact absurd hm0 (by decide)
      refine .inr ⟨makeDecimalRaw (-m) (28 - left), ?_, ?_⟩
      · rw [negIf, if_pos rfl, checked_eq_some (hm.neg hmin)]
        rfl
      · refine (makeDecimalRaw_places (hm.neg hmin) hscale hscale').congr (hplaces (-m)) ?_
        rw [if_pos rfl, neg_one_mul, neg_mul, neg_mul]
        exact hround.neg
    | false =>
      refine .inr ⟨makeDecimalRaw m (28 - left), rfl, ?_⟩
      refine (makeDecimalRaw_places hm hscale hscale').congr (hplaces m) ?_
      rwa [if_neg Bool.false_ne_true, one_mul]

theorem abs_scaled (c : ℤ) (k : ℕ) : |c * 10 ^ k| = |c| * 10 ^ k := by
  rw [abs_mul, abs_of_pos (by positivity : (0 : ℤ) < 10 ^ k)]

/-- A quotient of integers, from the magnitudes and the signs. -/
theorem intCast_div_abs (n d : ℤ) : (n : ℚ) / d =
    (if decide ((n < 0) ≠ (d < 0)) = true then -1 else 1) * ((|n| : ℤ) / (|d| : ℤ) : ℚ) := by
  by_cases hn : n < 0 <;> by_cases hd : d < 0
  · rw [abs_of_neg hn, abs_of_neg hd]
    simp [hn, hd]
  · rw [abs_of_neg hn, abs_of_nonneg (not_lt.1 hd)]
    simp [hn, hd, neg_div]
  · rw [abs_of_nonneg (not_lt.1 hn), abs_of_neg hd]
    simp [hn, hd, div_neg]
  · rw [abs_of_nonneg (not_lt.1 hn), abs_of_nonneg (not_lt.1 hd)]
    simp [hn, hd]

/-- A quotient of decimals, from the magnitudes and the signs. -/
theorem decValue_div (a b : ℤ × ℤ) :
    decValue a.1 a.2 / decValue b.1 b.2 =
      (if decide ((a.1 * 10 ^ b.2.toNat < 0) ≠ (b.1 * 10 ^ a.2.toNat < 0)) = true then -1 else 1) *
        ((|a.1 * 10 ^ b.2.toNat| : ℤ) / (|b.1 * 10 ^ a.2.toNat| : ℤ) : ℚ) := by
  rw [← intCast_div_abs, decValue, decValue, div_div_div_eq]
  push_cast
  rw [mul_comm (10 ^ a.2.toNat : ℚ)]

/-- **A quotient is right, unless the long division arrives at the largest value of its type and is
rounded up.** -/
theorem decRight_div_iff (ha : DecimalNormal a.1 a.2) (hb : DecimalNormal b.1 b.2) :
    DecRight .div a b ↔ ¬ DecSlips .div a b := by
  have hsmall {c : ℤ} (hc : |c| < 2 ^ 127) : Fits 128 c :=
    ⟨(abs_lt.1 hc).1.le, (abs_lt.1 hc).2⟩
  by_cases hne : b.1 = 0
  · refine iff_of_true (decRight_of_error (e := .divzero) ?_) fun hslips => ?_
    · rw [decBinop, decDiv, if_pos hne]
    · obtain ⟨_, _, _, hq, _⟩ := hslips
      rw [hne, abs_zero, zero_mul, Int.ediv_zero] at hq
      exact absurd hq (by decide)
  cases hN : checked 128 (a.1 * 10 ^ b.2.toNat) with
  | none =>
    refine iff_of_true (decRight_of_error (e := .overflow) ?_) fun hslips => ?_
    · rw [decBinop, decDiv, if_neg hne, decPow10_scale hb.le]
      simp only [Option.bind_eq_bind, Option.bind_some]
      rw [hN]
      rfl
    · have hlt := hslips.1
      rw [← abs_scaled] at hlt
      rw [checked_eq_some (hsmall hlt)] at hN
      cases hN
  | some N =>
    obtain ⟨rfl, hNfits⟩ := of_checked hN
    cases hD : checked 128 (b.1 * 10 ^ a.2.toNat) with
    | none =>
      refine iff_of_true (decRight_of_error (e := .overflow) ?_) fun hslips => ?_
      · rw [decBinop, decDiv, if_neg hne, decPow10_scale hb.le, decPow10_scale ha.le]
        simp only [Option.bind_eq_bind, Option.bind_some]
        rw [hN]
        simp only [hD]
        rfl
      · have hlt := hslips.2.1
        rw [← abs_scaled] at hlt
        rw [checked_eq_some (hsmall hlt)] at hD
        cases hD
    | some D =>
      obtain ⟨rfl, hDfits⟩ := of_checked hD
      have hrun : decBinop .div a b = _ := decDiv_run ha hb hne hNfits hDfits
      have hNabs := fits_abs hNfits (ne_least ha.digits)
      have hDabs := fits_abs hDfits (ne_least hb.digits)
      have hDpos : 0 < |b.1 * 10 ^ a.2.toNat| := abs_pos.2 (mul_ne_zero hne (by positivity))
      have hslips : DecSlips .div a b ↔ QuotSlips |a.1 * 10 ^ b.2.toNat| |b.1 * 10 ^ a.2.toNat| := by
        rw [abs_scaled, abs_scaled] at *
        exact ⟨fun h => h.2.2, fun h => ⟨hNabs.2, hDabs.2, h⟩⟩
      rw [hslips]
      constructor
      · rintro ⟨r, heq, -⟩ hslip
        rw [hrun, decQuotient_slips (abs_nonneg _) hDpos _ hslip] at heq
        cases heq
      · intro hslip
        obtain herr | ⟨r, hr, hmade⟩ := decQuotient_made (abs_nonneg _) hDpos hNabs hslip
          ((a.1 * 10 ^ b.2.toNat < 0) ≠ (b.1 * 10 ^ a.2.toNat < 0))
        · exact decRight_of_error (hrun.trans herr)
        · refine decRight_of_made (hrun.trans hr) ?_ (by rintro (h | h) <;> cases h)
          rw [← decValue_div] at hmade
          exact hmade

/-! ## Main result -/

/-- **The operations on normalized decimals are right exactly where a product is not a negative number
rounded from zero, and a long division does not step out of its type at its end.** -/
theorem decBinop_exact_iff (o : Op) (ha : DecimalNormal a.1 a.2) (hb : DecimalNormal b.1 b.2) :
    DecRight o a b ↔ ¬ DecSlips o a b := by
  cases o with
  | add => exact iff_of_true (decRight_addsub ha hb (.inl rfl)) id
  | sub => exact iff_of_true (decRight_addsub ha hb (.inr rfl)) id
  | mul => exact decRight_mul_iff ha hb
  | div => exact decRight_div_iff ha hb

/-- One by three. -/
theorem decBinop_exact_third : DecRight .div (1, 0) (3, 0) := by
  have hone : DecimalNormal 1 0 := ⟨by decide, by decide, by decide, by decide⟩
  have hthree : DecimalNormal 3 0 := ⟨by decide, by decide, by decide, by decide⟩
  refine (decBinop_exact_iff .div (a := (1, 0)) (b := (3, 0)) hone hthree).2 fun ⟨_, _, _, hq, _⟩ => ?_
  exact absurd hq (by decide)

/-- `-1 · 10 ^ -28` times one half is a positive number; and a quotient of 39 digits whose last step is
undefined. -/
theorem decBinop_wrong : ¬ DecRight .mul (-1, 28) (5, 1) ∧
    ¬ DecRight .div (539434582430397841822200391, 0) (317051152142556124906519048, 10) := by
  constructor
  · refine fun h => (decRight_mul_iff ?_ ?_).1 h ⟨by decide, ?_⟩
    · exact ⟨by decide, by decide, by decide, by decide⟩
    · exact ⟨by decide, by decide, by decide, by decide⟩
    · have hx : decValue (-1) 28 * decValue 5 1 * 10 ^ 28 = -1 / 2 := by
        rw [decValue, decValue, show (28 : ℤ).toNat = 28 from rfl, show (1 : ℤ).toNat = 1 from rfl]
        norm_num
      rw [RoundsFromZero, hx, abs_of_neg (by norm_num)]
      norm_num
  · refine fun h => (decRight_div_iff ?_ ?_).1 h ⟨by decide, by decide, ?_, by decide, by decide⟩
    · exact ⟨by decide, by decide, by decide, by decide⟩
    · exact ⟨by decide, by decide, by decide, by decide⟩
    · decide

end Alcove.Numeric
