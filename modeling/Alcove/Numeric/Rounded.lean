import Alcove.Lib.Rounding
import Alcove.Numeric.Decimal

/-!
# The rounding of decimals

What `make_decimal_raw` returns, as a number: the multiple of `10 ^ -28` that is nearest, halves away
from zero, in normal form. The sign of the rounding step is read off the quotient, so a negative
value that is truncated to zero and rounded from it is stepped in the other direction.

**Main result.** `makeDecimalRaw_rounds`: the value is right exactly where this does not happen, and
the function is odd exactly at the coefficients that are not rounded from zero.
-/

namespace Alcove.Numeric

open Lib

/-- The number that a coefficient and a scale stand for. -/
def decValue (coef scale : ℤ) : ℚ := coef / 10 ^ scale.toNat

/-- The decimal that is nearest to `x`, or the report that it has too many digits. -/
def MadeOf (x : ℚ) (r : Option (Option (ℤ × ℤ))) : Prop :=
  ∃ m : ℤ, HalfAway (x * 10 ^ 28) m ∧
    ((∃ c s, r = some (some (c, s)) ∧ DecimalNormal c s ∧ decValue c s = m / 10 ^ 28) ∨
      r = some none ∧ ∀ c s, DecimalNormal c s → decValue c s ≠ m / 10 ^ 28)

/-- The number lies between zero and the least decimal, and not nearer to zero. -/
def RoundsFromZero (x : ℚ) : Prop := 1 ≤ 2 * |x * 10 ^ 28| ∧ |x * 10 ^ 28| < 1

/-- The decimal of the other sign. -/
def negMade (r : Option (Option (ℤ × ℤ))) : Option (Option (ℤ × ℤ)) :=
  r.map (·.map fun d => (-d.1, d.2))

/-! ## Trimming -/

variable {c s : ℤ}

/-- Trimming takes zeros off the end of the fraction, and all of them. -/
theorem trimZeros_spec (c : ℤ) (hs : 0 ≤ s) :
    0 ≤ (trimZeros c s).2 ∧ (trimZeros c s).2 ≤ s ∧
      (0 < (trimZeros c s).2 → (trimZeros c s).1.tmod 10 ≠ 0) ∧
      c = (trimZeros c s).1 * 10 ^ (s - (trimZeros c s).2).toNat := by
  induction c, s using trimZeros.induct with
  | case1 c s h ih =>
    obtain ⟨ht0, hts, htrim, hval⟩ := ih (by omega)
    rw [trimZeros, if_pos h]
    refine ⟨ht0, by omega, htrim, ?_⟩
    generalize trimZeros (c.tdiv 10) (s - 1) = p at ht0 hts hval ⊢
    have hexp : (s - p.2).toNat = (s - 1 - p.2).toNat + 1 := by omega
    calc c = c.tdiv 10 * 10 := (Int.tdiv_mul_cancel (Int.dvd_of_tmod_eq_zero h.2)).symm
      _ = p.1 * 10 ^ (s - 1 - p.2).toNat * 10 := by rw [← hval]
      _ = p.1 * 10 ^ (s - p.2).toNat := by rw [hexp, pow_succ, mul_assoc]
  | case2 c s h =>
    rw [trimZeros, if_neg h]
    refine ⟨hs, le_refl _, fun hpos hzero => h ⟨hpos, hzero⟩, ?_⟩
    rw [sub_self, Int.toNat_zero, pow_zero, mul_one]

/-- A coefficient with more zeros at its end stands for the same number at the larger scale. -/
theorem decValue_shift (c : ℤ) {t : ℤ} (ht : 0 ≤ t) (hts : t ≤ s) :
    decValue (c * 10 ^ (s - t).toNat) s = decValue c t := by
  have hexp : s.toNat = (s - t).toNat + t.toNat := by omega
  have hpos : (0 : ℚ) < 10 ^ (s - t).toNat := by positivity
  unfold decValue
  rw [hexp, pow_add, Int.cast_mul, Int.cast_pow, mul_comm (c : ℚ)]
  exact mul_div_mul_left _ _ hpos.ne'

theorem decValue_trimZeros (c : ℤ) (hs : 0 ≤ s) :
    decValue (trimZeros c s).1 (trimZeros c s).2 = decValue c s := by
  obtain ⟨ht0, hts, -, hval⟩ := trimZeros_spec c hs
  rw [← decValue_shift _ ht0 hts, ← hval]

/-- Trimming does not take a value out of its type. -/
theorem fits_trimZeros {w : ℕ} (hc : Fits w c) : Fits w (trimZeros c s).1 := by
  induction c, s using trimZeros.induct with
  | case1 c s h ih =>
    rw [trimZeros, if_pos h]
    exact ih (hc.tdiv (by decide))
  | case2 c s h =>
    rw [trimZeros, if_neg h]
    exact hc

theorem decValue_inj {c' : ℤ} (h : decValue c s = decValue c' s) : c = c' := by
  have hpos : (0 : ℚ) < 10 ^ s.toNat := by positivity
  exact_mod_cast (div_left_inj' hpos.ne').1 h

/-- A trimmed form is at the least scale at which the number can be written. -/
theorem trimmed_least {c' s' : ℤ} (hs : 0 ≤ s) (ht' : 0 < s' → c'.tmod 10 ≠ 0)
    (h : decValue c s = decValue c' s') : s' ≤ s := by
  by_contra hlt
  have hexp : (s' - s).toNat = (s' - s - 1).toNat + 1 := by omega
  rw [← decValue_shift c hs (by omega : s ≤ s')] at h
  refine ht' (by omega) (Int.tmod_eq_zero_of_dvd ⟨c * 10 ^ (s' - s - 1).toNat, ?_⟩)
  rw [← decValue_inj h, hexp, pow_succ]
  ring

/-- A number has one trimmed form. -/
theorem trimmed_unique {c' s' : ℤ} (hs : 0 ≤ s) (hs' : 0 ≤ s') (ht : 0 < s → c.tmod 10 ≠ 0)
    (ht' : 0 < s' → c'.tmod 10 ≠ 0) (h : decValue c s = decValue c' s') : c = c' ∧ s = s' := by
  obtain rfl : s = s' := le_antisymm (trimmed_least hs' ht h.symm) (trimmed_least hs ht' h)
  exact ⟨decValue_inj h, rfl⟩

/-! ## A number and what is made of it -/

variable {x : ℚ} {r r' : Option (Option (ℤ × ℤ))}

theorem MadeOf.unique (h : MadeOf x r) (h' : MadeOf x r') : r = r' := by
  obtain ⟨m, hm, hr⟩ := h
  obtain ⟨m', hm', hr'⟩ := h'
  obtain rfl := hm.unique hm'
  obtain ⟨c, s, rfl, hn, hv⟩ | ⟨rfl, hnone⟩ := hr <;>
    obtain ⟨c', s', rfl, hn', hv'⟩ | ⟨rfl, hnone'⟩ := hr'
  · obtain ⟨rfl, rfl⟩ := trimmed_unique hn.nonneg hn'.nonneg hn.trimmed hn'.trimmed
      (hv.trans hv'.symm)
    rfl
  · exact absurd hv (hnone' c s hn)
  · exact absurd hv' (hnone c' s' hn')
  · rfl

theorem DecimalNormal.neg (h : DecimalNormal c s) : DecimalNormal (-c) s where
  nonneg := h.nonneg
  le := h.le
  digits := by
    rw [Int.natAbs_neg]
    exact h.digits
  trimmed hs hzero := by
    rw [Int.neg_tmod, neg_eq_zero] at hzero
    exact h.trimmed hs hzero

theorem decValue_neg (c s : ℤ) : decValue (-c) s = -decValue c s := by
  rw [decValue, decValue, Int.cast_neg, neg_div]

theorem MadeOf.neg (h : MadeOf x r) : MadeOf (-x) (negMade r) := by
  obtain ⟨m, hm, hr⟩ := h
  refine ⟨-m, by rw [neg_mul]; exact hm.neg, ?_⟩
  obtain ⟨c, s, rfl, hn, hv⟩ | ⟨rfl, hnone⟩ := hr
  · refine .inl ⟨-c, s, rfl, hn.neg, ?_⟩
    rw [decValue_neg, hv, Int.cast_neg, neg_div]
  · refine .inr ⟨rfl, fun c s hn hv => hnone (-c) s hn.neg ?_⟩
    rw [decValue_neg, hv, Int.cast_neg, neg_div, neg_neg]

/-- The last check: a trimmed coefficient at a scale in range is the decimal, or has too many
digits. -/
theorem madeOf_trimmed {m : ℤ} {q : ℤ × ℤ} (hm : HalfAway (x * 10 ^ 28) m) (hs : 0 ≤ q.2)
    (hle : q.2 ≤ decMaxScale) (ht : 0 < q.2 → q.1.tmod 10 ≠ 0)
    (hv : decValue q.1 q.2 = m / 10 ^ 28) :
    MadeOf x (some (if q.1 = -2 ^ 127 then none
      else if (10 : ℤ) ^ 29 ≤ q.1.natAbs then none else some q)) := by
  have hmany (hbig : (10 : ℤ) ^ 29 ≤ q.1.natAbs) (c s : ℤ) (hn : DecimalNormal c s) :
      decValue c s ≠ m / 10 ^ 28 := by
    intro hv'
    obtain ⟨heq, -⟩ := trimmed_unique hs hn.nonneg ht hn.trimmed (hv.trans hv'.symm)
    rw [heq] at hbig
    exact absurd hn.digits (not_lt.2 hbig)
  refine ⟨m, hm, ?_⟩
  split
  · next hmin => exact .inr ⟨rfl, hmany (by rw [hmin]; decide)⟩
  · split
    · next hbig => exact .inr ⟨rfl, hmany hbig⟩
    · next hsmall => exact .inl ⟨q.1, q.2, rfl, ⟨hs, hle, not_le.1 hsmall, ht⟩, hv⟩

/-! ## The digits beyond the last place -/

/-- The divisor of the digits that are dropped. -/
theorem decPow10_excess (hs : s ≤ 56) :
    decPow10 (s - decMaxScale).toNat = some (10 ^ (s - decMaxScale).toNat) ∧
      (10 : ℤ) ^ (s - decMaxScale).toNat ≤ 10 ^ 28 := by
  have hle : (s - decMaxScale).toNat ≤ 28 := by
    unfold decMaxScale
    omega
  have hpow : (10 : ℤ) ^ (s - decMaxScale).toNat ≤ 10 ^ 28 := pow_le_pow_right₀ (by norm_num) hle
  exact ⟨checked_eq_some (fits_of_nonneg (by positivity) (hpow.trans_lt (by norm_num))), hpow⟩

/-- The rounding step of the source: its direction is the sign of the quotient. -/
def roundQuot (c d : ℤ) : ℤ :=
  if d ≤ 2 * ((c.tmod d).natAbs : ℤ) then c.tdiv d + (if c.tdiv d < 0 then -1 else 1) else c.tdiv d

theorem roundScale_of {d : ℤ} (hc : Fits 128 c) (hdiv : decPow10 (s - decMaxScale).toNat = some d)
    (hpos : 0 < d) (hle : d ≤ 10 ^ 28) :
    roundScale c s = some (trimZeros (roundQuot c d) decMaxScale) := by
  have hrem : ((c.tmod d).natAbs : ℤ) < 10 ^ 28 := by
    refine lt_of_lt_of_le ?_ hle
    clear hle hdiv
    rw [Int.natAbs_tmod]
    have := Nat.mod_lt c.natAbs (Int.natAbs_pos.2 hpos.ne')
    omega
  have htwice : checked 128 ((c.tmod d).natAbs * 2) = some ((c.tmod d).natAbs * 2 : ℤ) := by
    have hbound : (10 : ℤ) ^ 28 * 2 < 2 ^ (128 - 1) := by norm_num
    refine checked_eq_some (fits_of_nonneg (by positivity) ?_)
    exact (mul_lt_mul_of_pos_right hrem zero_lt_two).trans hbound
  unfold roundScale
  rw [hdiv]
  refine (Option.bind_some ..).trans ?_
  rw [checkedMod_eq_some hc hpos]
  refine (Option.bind_some ..).trans ?_
  rw [checkedDiv_eq_some hc hpos]
  refine (Option.bind_some ..).trans ?_
  rw [htwice, roundQuot, mul_comm 2]
  exact Option.bind_some ..

theorem roundScale_eq (hc : Fits 128 c) (hs : s ≤ 56) : roundScale c s =
    some (trimZeros (roundQuot c (10 ^ (s - decMaxScale).toNat)) decMaxScale) :=
  roundScale_of hc (decPow10_excess hs).1 (by positivity) (decPow10_excess hs).2

/-- The step goes in the direction of the dividend, unless a negative one is truncated to zero. -/
theorem roundQuot_eq {d : ℤ} (hd : 0 < d) (h : ¬ (c < 0 ∧ d ≤ 2 * |c| ∧ |c| < d)) :
    roundQuot c d =
      if d ≤ 2 * ((c.tmod d).natAbs : ℤ) then c.tdiv d + c.sign else c.tdiv d := by
  unfold roundQuot
  split
  · next hround =>
    congr 1
    obtain hc | rfl | hc := lt_trichotomy c 0
    · have hneg : c.tdiv d < 0 := by
        have hle : c.tdiv d ≤ 0 := by
          have := Int.tdiv_nonneg (Int.neg_nonneg_of_nonpos hc.le) hd.le
          rw [Int.neg_tdiv] at this
          omega
        refine lt_of_le_of_ne hle fun hzero => h ⟨hc, ?_⟩
        have hrem : c.tmod d = c := by
          have := Int.mul_tdiv_add_tmod c d
          rwa [hzero, mul_zero, zero_add] at this
        have hlt : |c| < d := by
          rw [← hrem, Int.abs_eq_natAbs, Int.natAbs_tmod]
          have := Nat.mod_lt c.natAbs (Int.natAbs_pos.2 hd.ne')
          omega
        rw [hrem, ← Int.abs_eq_natAbs] at hround
        exact ⟨hround, hlt⟩
      rw [if_pos hneg, Int.sign_eq_neg_one_of_neg hc]
    · rw [Int.zero_tmod, Int.natAbs_zero] at hround
      omega
    · rw [if_neg (not_lt.2 (Int.tdiv_nonneg hc.le hd.le)), Int.sign_eq_one_of_pos hc]
  · rfl

/-- A negative dividend that is truncated to zero and rounded from it is stepped to one. -/
theorem roundQuot_slip {d : ℤ} (hc : c < 0) (hhalf : d ≤ 2 * |c|) (hlt : |c| < d) :
    roundQuot c d = 1 := by
  have hzero : c.tdiv d = 0 := by
    rw [abs_of_neg hc] at hlt
    have := Int.tdiv_eq_zero_of_lt (Int.neg_nonneg_of_nonpos hc.le) hlt
    rw [Int.neg_tdiv] at this
    omega
  have hrem : c.tmod d = c := by
    have := Int.mul_tdiv_add_tmod c d
    rwa [hzero, mul_zero, zero_add] at this
  rw [roundQuot, hrem, ← Int.abs_eq_natAbs, if_pos hhalf, hzero]
  rfl

/-! ## The function -/

theorem makeDecimalRaw_of {q : ℤ × ℤ} (h : (if decMaxScale < (trimZeros c s).2 then
      roundScale (trimZeros c s).1 (trimZeros c s).2 else some (trimZeros c s)) = some q) :
    makeDecimalRaw c s = some (if q.1 = -2 ^ 127 then none
      else if (10 : ℤ) ^ 29 ≤ q.1.natAbs then none else some q) := by
  have hlimit : decPow10 29 = some (10 ^ 29) := checked_eq_some (by decide)
  have hlast : (if q.1 = -2 ^ 127 then pure none
        else do
          let limit ← decPow10 29
          pure (if limit ≤ (q.1.natAbs : ℤ) then none else some q)) =
      some (if q.1 = -2 ^ 127 then none
        else if (10 : ℤ) ^ 29 ≤ q.1.natAbs then none else some q) := by
    rw [hlimit]
    generalize (10 : ℤ) ^ 29 = limit
    generalize (-2 : ℤ) ^ 127 = least
    split <;> rfl
  rw [makeDecimalRaw]
  split at h
  · next hgt =>
    dsimp only
    rw [if_pos hgt, h]
    exact hlast
  · next hle =>
    obtain rfl := Option.some.inj h
    dsimp only
    rw [if_neg hle]
    exact hlast

/-- The places of a number beyond the last one, as a quotient. -/
theorem decValue_excess (c : ℤ) (hs : decMaxScale ≤ s) :
    decValue c s * 10 ^ 28 = c / ((10 ^ (s - decMaxScale).toNat : ℤ) : ℚ) := by
  have hexp : s.toNat = (s - decMaxScale).toNat + 28 := by
    unfold decMaxScale at *
    omega
  rw [decValue, hexp, pow_add]
  push_cast
  field_simp

/-- The places of a number up to the last one, as an integer. -/
theorem decValue_places (c : ℤ) (hs : 0 ≤ s) (hle : s ≤ decMaxScale) :
    decValue c s * 10 ^ 28 = ((c * 10 ^ (decMaxScale - s).toNat : ℤ) : ℚ) := by
  rw [← decValue_shift c hs hle, decValue_excess _ le_rfl, sub_self, Int.toNat_zero, pow_zero,
    Int.cast_one, div_one]

/-- An integer number of places is not rounded from zero. -/
theorem not_roundsFromZero {m : ℤ} (h : x * 10 ^ 28 = m) : ¬ RoundsFromZero x := by
  rintro ⟨hhalf, hlt⟩
  rw [h] at hhalf hlt
  have hz : |m| < 1 := by exact_mod_cast hlt
  rw [Int.abs_lt_one_iff] at hz
  rw [hz, Int.cast_zero, abs_zero, mul_zero] at hhalf
  exact absurd hhalf (by norm_num)

theorem roundsFromZero_div {d : ℤ} (hd : 0 < d) (h : x * 10 ^ 28 = (c : ℚ) / d) :
    RoundsFromZero x ↔ d ≤ 2 * |c| ∧ |c| < d := by
  have hd' : (0 : ℚ) < d := by exact_mod_cast hd
  rw [RoundsFromZero, h, abs_div, abs_of_pos hd', ← mul_div_assoc, le_div_iff₀ hd', one_mul,
    div_lt_one hd', ← Int.cast_abs]
  norm_cast

/-- A number of places, trimmed and checked. -/
theorem madeOf_places {m : ℤ} (hm : HalfAway (x * 10 ^ 28) m) :
    MadeOf x (some (if (trimZeros m decMaxScale).1 = -2 ^ 127 then none
      else if (10 : ℤ) ^ 29 ≤ (trimZeros m decMaxScale).1.natAbs then none
      else some (trimZeros m decMaxScale))) := by
  have hmax : 0 ≤ decMaxScale := by decide
  obtain ⟨ht0, hts, htrim, -⟩ := trimZeros_spec m hmax
  exact madeOf_trimmed hm ht0 hts htrim (decValue_trimZeros m hmax)

/-- **What `make_decimal_raw` makes of a value that is not a negative one rounded from zero.** -/
theorem makeDecimalRaw_made (hc : Fits 128 c) (hs : 0 ≤ s) (hs' : s ≤ 56)
    (h : ¬ (c < 0 ∧ RoundsFromZero (decValue c s))) :
    MadeOf (decValue c s) (makeDecimalRaw c s) := by
  obtain ⟨ht0, hts, htrim, hval⟩ := trimZeros_spec c hs
  have hfits : Fits 128 (trimZeros c s).1 := fits_trimZeros hc
  rw [← decValue_trimZeros c hs] at h ⊢
  by_cases hgt : decMaxScale < (trimZeros c s).2
  · have hpos : (0 : ℤ) < 10 ^ ((trimZeros c s).2 - decMaxScale).toNat := by positivity
    have hplaces := decValue_excess (trimZeros c s).1 hgt.le
    have hquot := roundQuot_eq (c := (trimZeros c s).1) hpos fun ⟨hneg, hrounds⟩ => by
      refine h ⟨?_, (roundsFromZero_div hpos hplaces).2 hrounds⟩
      rw [hval]
      exact mul_neg_of_neg_of_pos hneg (by positivity)
    rw [makeDecimalRaw_of (if_pos hgt |>.trans (roundScale_eq hfits (hts.trans hs')))]
    refine madeOf_places ?_
    rw [hplaces, hquot]
    exact HalfAway.tdiv hpos
  · have hle := not_lt.1 hgt
    have hplaces := decValue_places (trimZeros c s).1 ht0 hle
    rw [makeDecimalRaw_of (if_neg hgt)]
    refine madeOf_trimmed (hplaces ▸ HalfAway.intCast _) ht0 hle htrim ?_
    rw [← hplaces, mul_div_cancel_right₀ _ (by norm_num)]

/-- A negative value that is rounded from zero becomes the least positive decimal. -/
theorem makeDecimalRaw_slip (hc : Fits 128 c) (hs : 0 ≤ s) (hs' : s ≤ 56) (hneg : c < 0)
    (h : RoundsFromZero (decValue c s)) : makeDecimalRaw c s = some (some (1, 28)) := by
  obtain ⟨ht0, hts, -, hval⟩ := trimZeros_spec c hs
  have hfits : Fits 128 (trimZeros c s).1 := fits_trimZeros hc
  have hneg' : (trimZeros c s).1 < 0 := by
    have hpow : (0 : ℤ) < 10 ^ (s - (trimZeros c s).2).toNat := by positivity
    by_contra hnn
    exact absurd (hval ▸ mul_nonneg (not_lt.1 hnn) hpow.le) (not_le.2 hneg)
  rw [← decValue_trimZeros c hs] at h
  by_cases hgt : decMaxScale < (trimZeros c s).2
  · have hpos : (0 : ℤ) < 10 ^ ((trimZeros c s).2 - decMaxScale).toNat := by positivity
    obtain ⟨hhalf, hlt⟩ := (roundsFromZero_div hpos (decValue_excess _ hgt.le)).1 h
    have hone : trimZeros 1 decMaxScale = (1, 28) := trimZeros_eq (by decide)
    rw [makeDecimalRaw_of (if_pos hgt |>.trans (roundScale_eq hfits (hts.trans hs'))),
      roundQuot_slip hneg' hhalf hlt, hone]
    rfl
  · exact absurd h (not_roundsFromZero (decValue_places _ ht0 (not_lt.1 hgt)))

/-! ## Rounded from zero -/

theorem roundsFromZero_neg : RoundsFromZero (-x) ↔ RoundsFromZero x := by
  rw [RoundsFromZero, RoundsFromZero, neg_mul, abs_neg]

/-- A positive number that is rounded from zero is made the least decimal. -/
theorem RoundsFromZero.madeOf (h : RoundsFromZero x) (hx : 0 < x) :
    MadeOf x (some (some (1, 28))) := by
  have hpos : 0 < x * 10 ^ 28 := by positivity
  obtain ⟨hhalf, hlt⟩ := h
  rw [abs_of_pos hpos] at hhalf hlt
  have habs : |x * 10 ^ 28 - (1 : ℤ)| = 1 - x * 10 ^ 28 := by
    rw [Int.cast_one, abs_of_neg (by linarith)]
    ring
  refine ⟨1, ⟨by rw [habs]; linarith, fun _ => ?_⟩, .inl ⟨1, 28, rfl, ?_, ?_⟩⟩
  · rw [abs_of_pos hpos, Int.cast_one, abs_one]
    exact hlt
  · exact ⟨by decide, by decide, by decide, fun _ => by decide⟩
  · rfl

/-- The least positive decimal is not made of a negative number that is rounded from zero. -/
theorem RoundsFromZero.not_madeOf (h : RoundsFromZero x) (hx : x < 0) :
    ¬ MadeOf x (some (some (1, 28))) := by
  intro hone
  have hmade := (roundsFromZero_neg.2 h).madeOf (neg_pos.2 hx)
  exact absurd (hone.neg.unique hmade) (by decide)

theorem decValue_lt_zero : decValue c s < 0 ↔ c < 0 := by
  rw [decValue, div_lt_iff₀ (by positivity), zero_mul, Int.cast_lt_zero]

/-- A number that is rounded from zero becomes the least positive decimal, whatever its sign. -/
theorem makeDecimalRaw_fromZero (hc : Fits 128 c) (hs : 0 ≤ s) (hs' : s ≤ 56)
    (h : RoundsFromZero (decValue c s)) : makeDecimalRaw c s = some (some (1, 28)) := by
  by_cases hneg : c < 0
  · exact makeDecimalRaw_slip hc hs hs' hneg h
  · have hzero : decValue c s ≠ 0 := by
      intro hz
      have hhalf := h.1
      rw [hz, zero_mul, abs_zero, mul_zero] at hhalf
      exact absurd hhalf (by norm_num)
    have hnonneg : 0 ≤ decValue c s := not_lt.1 (decValue_lt_zero.not.2 hneg)
    exact (makeDecimalRaw_made hc hs hs' fun hn => hneg hn.1).unique
      (h.madeOf (lt_of_le_of_ne hnonneg hzero.symm))

/-! ## Main result -/

/-- **The decimal is the nearest one, in normal form, exactly where a negative number is not rounded
from zero; and the function is odd exactly at the numbers that are not rounded from zero.** -/
theorem makeDecimalRaw_rounds (hc : |c| < 2 ^ 127) (hs : 0 ≤ s) (hs' : s ≤ 56) :
    (MadeOf (decValue c s) (makeDecimalRaw c s) ↔
      ¬ (c < 0 ∧ RoundsFromZero (decValue c s))) ∧
    (makeDecimalRaw (-c) s = negMade (makeDecimalRaw c s) ↔
      ¬ RoundsFromZero (decValue c s)) := by
  obtain ⟨hlo, hhi⟩ := abs_lt.1 hc
  have hfits : Fits 128 c := ⟨hlo.le, hhi⟩
  have hfits' : Fits 128 (-c) := ⟨neg_le_neg hhi.le, neg_lt.1 hlo⟩
  have hiff (c : ℤ) (hc : Fits 128 c) : MadeOf (decValue c s) (makeDecimalRaw c s) ↔
      ¬ (c < 0 ∧ RoundsFromZero (decValue c s)) := by
    refine ⟨fun hmade ⟨hneg, hr⟩ => ?_, makeDecimalRaw_made hc hs hs'⟩
    rw [makeDecimalRaw_slip hc hs hs' hneg hr] at hmade
    exact hr.not_madeOf (decValue_lt_zero.2 hneg) hmade
  refine ⟨hiff c hfits, fun hodd hr => ?_, fun hr => ?_⟩
  · have hr' : RoundsFromZero (decValue (-c) s) := by rwa [decValue_neg, roundsFromZero_neg]
    rw [makeDecimalRaw_fromZero hfits hs hs' hr, makeDecimalRaw_fromZero hfits' hs hs' hr'] at hodd
    exact absurd hodd (by decide)
  · have hr' : ¬ RoundsFromZero (decValue (-c) s) := by rwa [decValue_neg, roundsFromZero_neg]
    have hmade := (hiff c hfits).2 fun h => hr h.2
    have hmade' := (hiff (-c) hfits').2 fun h => hr' h.2
    rw [decValue_neg] at hmade'
    exact hmade'.unique hmade.neg

/-- `15 · 10 ^ -29` is a tie, and rounded away from zero. -/
theorem makeDecimalRaw_rounds_tie : MadeOf (decValue 15 29) (makeDecimalRaw 15 29) :=
  (makeDecimalRaw_rounds (c := 15) (s := 29) (by norm_num) (by norm_num) (by norm_num)).1.2
    fun h => absurd h.1 (by norm_num)

/-- `-5 · 10 ^ -29` becomes the least positive decimal. -/
theorem makeDecimalRaw_sign : ¬ (MadeOf (decValue (-5) 29) (makeDecimalRaw (-5) 29) ∧
    makeDecimalRaw (-(-5)) 29 = negMade (makeDecimalRaw (-5) 29)) := by
  have hr : RoundsFromZero (decValue (-5) 29) := by
    have hx : decValue (-5) 29 * 10 ^ 28 = -1 / 2 := by
      rw [decValue, show (29 : ℤ).toNat = 29 from rfl]
      norm_num
    rw [RoundsFromZero, hx, abs_of_neg (by norm_num)]
    norm_num
  rintro ⟨hmade, -⟩
  rw [makeDecimalRaw_slip (by decide) (by decide) (by decide) (by decide) hr] at hmade
  exact hr.not_madeOf (decValue_lt_zero.2 (by decide)) hmade

end Alcove.Numeric
