import Alcove.Numeric.DecimalExact
import Alcove.Numeric.Unrounded
import Mathlib.Data.Sign.Basic

/-!
# The comparison of decimals

`dec_cmp` compares coefficients at a common scale, and doubles where one of them does not fit there. It
does not fit only if its number is more than twice the other one (`Outweighs`), and doubles that are
anywhere near keep such a difference.

**Main result.** `decCmp_sign`: the comparison is the sign of the exact difference.
-/

namespace Alcove.Numeric

open Lib Double Builtin

/-! ## Doubles near the numbers -/

/-- `(double)coef * pow(10.0, -(double)scale)` -/
def decDouble (D : Type) [Double D] (c s : ℤ) : D :=
  arith .mul (ofInt c) (pow (ofInt 10) (neg (ofInt s)))

/-- The conversion of a coefficient and the scaling of a converted one are off by less than
`2 ^ -40` of their values, and scaled coefficients compare by their values. -/
structure NearDouble (D : Type) [Double D] (value : D → ℚ) : Prop where
  conversion {c s : ℤ} : DecimalNormal c s → |value (ofInt c) - c| ≤ |(c : ℚ)| / 2 ^ 40
  scaling {c s : ℤ} : DecimalNormal c s → |value (decDouble D c s) - value (ofInt c) / 10 ^ s.toNat| ≤
    |value (ofInt c) / 10 ^ s.toNat| / 2 ^ 40
  compare {c s c' s' : ℤ} : DecimalNormal c s → DecimalNormal c' s' →
    lt (decDouble D c s) (decDouble D c' s') =
      decide (value (decDouble D c s) < value (decDouble D c' s'))

variable {D : Type} [Double D] {value : D → ℚ} {a b : ℤ × ℤ} {c s : ℤ} {x y x' y' : ℚ}

/-- The double of a decimal is within a quarter of its number. -/
theorem NearDouble.near (hD : NearDouble D value) (h : DecimalNormal c s) :
    |value (decDouble D c s) - decValue c s| ≤ |decValue c s| / 4 := by
  have hpos : (0 : ℚ) < 10 ^ s.toNat := by positivity
  have hconv : |value (ofInt c) / 10 ^ s.toNat - decValue c s| ≤ |decValue c s| / 2 ^ 40 := by
    rw [decValue, ← sub_div, abs_div, abs_div, abs_of_pos hpos, div_right_comm]
    exact div_le_div_of_nonneg_right (hD.conversion h) hpos.le
  have hscale := hD.scaling h
  have htri := abs_sub_abs_le_abs_sub (value (ofInt c) / 10 ^ s.toNat) (decValue c s)
  have hsum := abs_add_le (value (decDouble D c s) - value (ofInt c) / 10 ^ s.toNat)
    (value (ofInt c) / 10 ^ s.toNat - decValue c s)
  rw [sub_add_sub_cancel] at hsum
  have hnonneg := abs_nonneg (decValue c s)
  linarith

/-! ## Numbers that outweigh others -/

/-- The first number is more than twice the second. -/
def Outweighs (x y : ℚ) : Prop := 2 * |y| < |x|

/-- What is within a quarter of two such numbers is in the same order, and not equal. -/
theorem Outweighs.lt_iff (h : Outweighs x y) (hx : |x' - x| ≤ |x| / 4) (hy : |y' - y| ≤ |y| / 4) :
    (x' < y' ↔ x < 0) ∧ (y' < x' ↔ 0 < x) := by
  unfold Outweighs at h
  have hx1 := abs_le.1 hx
  have hy1 := abs_le.1 hy
  have hylo := neg_abs_le y
  have hyhi := le_abs_self y
  have hnonneg := abs_nonneg y
  obtain hneg | rfl | hpos := lt_trichotomy x 0
  · rw [abs_of_neg hneg] at h hx1
    exact ⟨iff_of_true (by linarith) hneg, iff_of_false (by linarith) (by linarith)⟩
  · rw [abs_zero] at h
    linarith
  · rw [abs_of_pos hpos] at h hx1
    exact ⟨iff_of_false (by linarith) (by linarith), iff_of_true (by linarith) hpos⟩

/-- **Numbers near two of which one outweighs the other are in the same order.** -/
theorem order_of_outweighs (h : Outweighs x y ∨ Outweighs y x) (hx : |x' - x| ≤ |x| / 4)
    (hy : |y' - y| ≤ |y| / 4) : (x' < y' ↔ x < y) ∧ (y' < x' ↔ y < x) := by
  have hself (z : ℚ) : |z - z| ≤ |z| / 4 := by
    rw [sub_self, abs_zero]
    positivity
  obtain h | h := h
  · have hnear := h.lt_iff hx hy
    have hexact := h.lt_iff (hself x) (hself y)
    exact ⟨hnear.1.trans hexact.1.symm, hnear.2.trans hexact.2.symm⟩
  · have hnear := h.lt_iff hy hx
    have hexact := h.lt_iff (hself y) (hself x)
    exact ⟨hnear.2.trans hexact.2.symm, hnear.1.trans hexact.1.symm⟩

/-- A three-way comparison is a sign. -/
theorem ite_lt_eq_sign (x y : ℚ) :
    (if x < y then -1 else if y < x then 1 else 0 : ℤ) = SignType.sign (x - y) := by
  obtain h | rfl | h := lt_trichotomy x y
  · rw [if_pos h, sign_neg (sub_neg.2 h)]
    rfl
  · rw [if_neg (lt_irrefl x), if_neg (lt_irrefl x), sub_self, sign_zero]
    rfl
  · rw [if_neg h.not_gt, if_pos h, sign_pos (sub_pos.2 h)]
    rfl

/-- The comparison of doubles, where one number outweighs the other. -/
theorem decCmpDouble_sign (hD : NearDouble D value) (ha : DecimalNormal a.1 a.2)
    (hb : DecimalNormal b.1 b.2)
    (h : Outweighs (decValue a.1 a.2) (decValue b.1 b.2) ∨
      Outweighs (decValue b.1 b.2) (decValue a.1 a.2)) :
    decCmpDouble D a b = SignType.sign (decValue a.1 a.2 - decValue b.1 b.2) := by
  obtain ⟨hlt, hgt⟩ := order_of_outweighs h (hD.near ha) (hD.near hb)
  rw [← ite_lt_eq_sign]
  show (if lt (decDouble D a.1 a.2) (decDouble D b.1 b.2) = true then -1
    else if lt (decDouble D b.1 b.2) (decDouble D a.1 a.2) = true then 1 else 0 : ℤ) = _
  rw [hD.compare ha hb, hD.compare hb ha]
  simp only [decide_eq_true_eq, hlt, hgt]

/-! ## Alignment -/

theorem decValue_lt_iff {c' : ℤ} : decValue c s < decValue c' s ↔ c < c' := by
  rw [decValue, decValue, div_lt_div_iff_of_pos_right (by positivity), Int.cast_lt]

/-- Coefficients at a common scale compare as their numbers. -/
theorem threeWay_sign (c c' s : ℤ) :
    threeWay c c' = SignType.sign (decValue c s - decValue c' s) := by
  rw [← ite_lt_eq_sign]
  simp only [decValue_lt_iff]
  rfl

/-- A coefficient that does not fit at the common scale belongs to a number that outweighs the other. -/
theorem outweighs_of_unfit (ha : DecimalNormal a.1 a.2) (hb : DecimalNormal b.1 b.2)
    (h : checked 128 (a.1 * 10 ^ (max a.2 b.2 - a.2).toNat) = none) :
    Outweighs (decValue a.1 a.2) (decValue b.1 b.2) := by
  obtain hle | hle := le_total b.2 a.2
  · rw [max_eq_left hle, sub_self, Int.toNat_zero, pow_zero, mul_one, checked_digits ha] at h
    cases h
  · rw [max_eq_right hle] at h
    have hpos : (0 : ℚ) < 10 ^ b.2.toNat := by positivity
    rw [← decValue_shift a.1 ha.nonneg hle]
    generalize a.1 * 10 ^ (b.2 - a.2).toNat = A at h ⊢
    have hA : (2 : ℤ) ^ 127 ≤ |A| := by
      by_contra hlt
      have hfits := abs_lt.1 (not_le.1 hlt)
      rw [checked_eq_some ⟨hfits.1.le, hfits.2⟩] at h
      cases h
    have hdigits : 2 * |b.1| < |A| := by
      refine lt_of_lt_of_le ?_ hA
      rw [Int.abs_eq_natAbs]
      exact (mul_lt_mul_of_pos_left hb.digits two_pos).trans (by norm_num)
    rw [Outweighs, decValue, decValue, abs_div, abs_div, abs_of_pos hpos, ← mul_div_assoc,
      div_lt_div_iff_of_pos_right hpos]
    exact_mod_cast hdigits

/-- Of two decimals that do not align, one outweighs the other. -/
theorem decAlign_overflow (ha : DecimalNormal a.1 a.2) (hb : DecimalNormal b.1 b.2)
    (h : decAlign a b = some none) : Outweighs (decValue a.1 a.2) (decValue b.1 b.2) ∨
      Outweighs (decValue b.1 b.2) (decValue a.1 a.2) := by
  have hmax : max a.2 b.2 ≤ decMaxScale := max_le ha.le hb.le
  have hpa : decPow10 (max a.2 b.2 - a.2).toNat = some (10 ^ (max a.2 b.2 - a.2).toNat) :=
    decPow10_scale ((sub_le_self _ ha.nonneg).trans hmax)
  have hpb : decPow10 (max a.2 b.2 - b.2).toNat = some (10 ^ (max a.2 b.2 - b.2).toNat) :=
    decPow10_scale ((sub_le_self _ hb.nonneg).trans hmax)
  simp only [decAlign, hpa, hpb, Option.bind_eq_bind, Option.bind_some] at h
  cases hca : checked 128 (a.1 * 10 ^ (max a.2 b.2 - a.2).toNat) with
  | none => exact .inl (outweighs_of_unfit ha hb hca)
  | some ca =>
    cases hcb : checked 128 (b.1 * 10 ^ (max a.2 b.2 - b.2).toNat) with
    | none =>
      rw [max_comm] at hcb
      exact .inr (outweighs_of_unfit hb ha hcb)
    | some cb =>
      rw [hca, hcb] at h
      cases h

/-! ## Main result -/

/-- **The comparison is the sign of the exact difference**, in doubles too where the scales do not
align. -/
theorem decCmp_sign (hD : NearDouble D value) (ha : DecimalNormal a.1 a.2)
    (hb : DecimalNormal b.1 b.2) : decCmp D a b =
      some (SignType.sign (decValue a.1 a.2 - decValue b.1 b.2) : ℤ) := by
  rw [decCmp]
  split
  · next hs => rw [threeWay_sign a.1 b.1 b.2, hs]
  · obtain hnone | ⟨ca, cb, hsome, hva, hvb⟩ := decAlign_spec ha hb
    · rw [hnone, Option.map_some, decCmpDouble_sign hD ha hb (decAlign_overflow ha hb hnone)]
    · rw [hsome, Option.map_some]
      dsimp only
      rw [threeWay_sign ca cb (max a.2 b.2), hva, hvb]

/-- The number of a finite value without rounding. -/
def Unrounded.toRat : Unrounded → ℚ
  | fin q => q
  | _ => 0

theorem decDouble_unrounded (h : 0 ≤ s) : decDouble Unrounded c s = .fin (c / 10 ^ s.toNat) := by
  have hpow : pow (ofInt 10 : Unrounded) (neg (ofInt s)) = .fin (10 ^ (-s)) := by
    show (if (-(s : ℚ)).den = 1 then Unrounded.fin (((10 : ℤ) : ℚ) ^ (-(s : ℚ)).num) else .nan) = _
    rw [← Int.cast_neg, Rat.den_intCast, if_pos rfl, Rat.num_intCast]
    rfl
  have hexp : (s.toNat : ℤ) = s := Int.toNat_of_nonneg h
  rw [decDouble, hpow]
  show Unrounded.fin (c * 10 ^ (-s)) = _
  rw [zpow_neg, ← hexp, zpow_natCast, Int.toNat_natCast, div_eq_mul_inv]

/-- Doubles that do not round are near. -/
theorem nearDouble_unrounded : NearDouble Unrounded Unrounded.toRat where
  conversion {c s} _ := by
    show |(c : ℚ) - c| ≤ _
    rw [sub_self, abs_zero]
    positivity
  scaling {c s} h := by
    rw [decDouble_unrounded h.nonneg]
    show |(c : ℚ) / 10 ^ s.toNat - c / 10 ^ s.toNat| ≤ _
    rw [sub_self, abs_zero]
    positivity
  compare {c s c' s'} h h' := by
    rw [decDouble_unrounded h.nonneg, decDouble_unrounded h'.nonneg]
    rfl

/-- `2 ^ 94` against `2 ^ -10`, which do not align. -/
theorem decCmp_sign_unaligned : decCmp Unrounded (2 ^ 94, 0) (9765625, 10) =
    some (SignType.sign (decValue (2 ^ 94) 0 - decValue 9765625 10) : ℤ) :=
  decCmp_sign (a := (2 ^ 94, 0)) (b := (9765625, 10)) nearDouble_unrounded
    ⟨by decide, by decide, by decide, by decide⟩ ⟨by decide, by decide, by decide, by decide⟩

end Alcove.Numeric
