import Alcove.Lib.Checked
import Mathlib.Data.Nat.Digits.Defs

/-!
# Decimals of bounded size

The base-10 numbers of `numeric.h`: a coefficient and how many of its digits are fractional. Every
decimal is built by `makeDecimalRaw`, which trims the zeros at the end; what it builds it leaves as it
is (`makeDecimalRaw_eq`).
-/

namespace Alcove.Numeric

open Lib

/-- `DEC_MAX_SCALE` -/
def decMaxScale : ℤ := 28

/-- `dec_pow10` -/
def decPow10 (n : ℕ) : Option ℤ := checked 128 (10 ^ n)

/-- `while (scale > 0 && coef % 10 == 0) { coef /= 10; scale--; }` -/
def trimZeros (coef scale : ℤ) : ℤ × ℤ :=
  if 0 < scale ∧ coef.tmod 10 = 0 then trimZeros (coef.tdiv 10) (scale - 1) else (coef, scale)
termination_by scale.toNat
decreasing_by omega

/-- The digits beyond `decMaxScale` are rounded away. -/
def roundScale (coef scale : ℤ) : Option (ℤ × ℤ) := do
  let divisor ← decPow10 (scale - decMaxScale).toNat
  let rem ← checkedMod 128 coef divisor
  let quot ← checkedDiv 128 coef divisor
  let twice ← checked 128 (rem.natAbs * 2)
  return trimZeros (if divisor ≤ twice then quot + (if quot < 0 then -1 else 1) else quot)
    decMaxScale

/-- `make_decimal_raw`; the inner `none` is `NULL`. -/
def makeDecimalRaw (coef scale : ℤ) : Option (Option (ℤ × ℤ)) := do
  let p := trimZeros coef scale
  let q ← if decMaxScale < p.2 then roundScale p.1 p.2 else some p
  if q.1 = -2 ^ 127 then return none
  let limit ← decPow10 29
  return if limit ≤ (q.1.natAbs : ℤ) then none else some q

/-- What `makeDecimalRaw` builds: at most 29 digits, and no zero at the end of the fraction. -/
structure DecimalNormal (coef scale : ℤ) : Prop where
  nonneg : 0 ≤ scale
  le : scale ≤ decMaxScale
  digits : (coef.natAbs : ℤ) < 10 ^ 29
  trimmed : 0 < scale → coef.tmod 10 ≠ 0

theorem trimZeros_eq {coef scale : ℤ} (h : 0 < scale → coef.tmod 10 ≠ 0) :
    trimZeros coef scale = (coef, scale) := by
  rw [trimZeros, if_neg]
  rintro ⟨hpos, hzero⟩
  exact h hpos hzero

/-- **A decimal is built back from its parts.** -/
theorem makeDecimalRaw_eq {coef scale : ℤ} (h : DecimalNormal coef scale) :
    makeDecimalRaw coef scale = some (some (coef, scale)) := by
  obtain ⟨-, hle, hcoef, htrim⟩ := h
  have hlimit : decPow10 29 = some (10 ^ 29) := checked_eq_some (by decide)
  have hmin : coef ≠ -2 ^ 127 := by
    rintro rfl
    omega
  simp only [makeDecimalRaw, trimZeros_eq htrim, if_neg (not_lt.mpr hle), if_neg hmin, hlimit,
    if_neg (not_le.mpr hcoef), Option.bind_eq_bind, Option.bind_some, Option.pure_def]

/-- `dec_to_str` -/
def decToStr (coef scale : ℤ) : List UInt8 :=
  let ds := if coef = 0 then [0] else Nat.digits 10 coef.natAbs
  let padded := ds ++ List.replicate (scale.toNat + 1 - ds.length) 0
  let text := padded.reverse.map fun d => UInt8.ofNat (0x30 + d)
  (if coef < 0 then [0x2d] else []) ++
    if 0 < scale then
      text.take (text.length - scale.toNat) ++ 0x2e :: text.drop (text.length - scale.toNat)
    else text

end Alcove.Numeric
