import Mathlib.Data.Int.GCD
import Mathlib.Algebra.Order.Group.Unbundled.Int
import Mathlib.Algebra.Order.Ring.Int
import Mathlib.Tactic.Linarith

/-!
# Signed machine arithmetic

Two's complement integers of `w` bits as integers in range (`Fits`). A signed operation whose exact
result does not fit has no defined result, so the operations return an `Option` (`checked`,
`checkedDiv`, `checkedMod`) and a computation is free of overflow when it returns `some`. Division
rounds toward zero. `gcdLoop` is Euclid's loop on such integers, and `gcdLoop_eq` its value.
-/

namespace Alcove.Lib

/-- `z` is a value of the signed type of `w` bits. -/
def Fits (w : ℕ) (z : ℤ) : Prop := -2 ^ (w - 1) ≤ z ∧ z < 2 ^ (w - 1)

instance (w : ℕ) (z : ℤ) : Decidable (Fits w z) := inferInstanceAs (Decidable (_ ∧ _))

/-- The exact result `z` as a value of `w` bits. -/
def checked (w : ℕ) (z : ℤ) : Option ℤ := if Fits w z then some z else none

/-- `a / b`. -/
def checkedDiv (w : ℕ) (a b : ℤ) : Option ℤ := if b = 0 then none else checked w (a.tdiv b)

/-- `a % b`; it is undefined where the quotient is. -/
def checkedMod (w : ℕ) (a b : ℤ) : Option ℤ := (checkedDiv w a b).map fun _ => a.tmod b

/-- `z` converted to the signed type of `w` bits, modulo `2 ^ w`. -/
def wrap (w : ℕ) (z : ℤ) : ℤ := z.bmod (2 ^ w)

section Fits

variable {w : ℕ} {a b z : ℤ}

theorem checked_eq_some (h : Fits w z) : checked w z = some z := if_pos h

theorem of_checked {r : ℤ} (h : checked w z = some r) : z = r ∧ Fits w r := by
  unfold checked at h
  split at h
  · rename_i hfit
    obtain rfl := Option.some.inj h
    exact ⟨rfl, hfit⟩
  · cases h

theorem fits_of_nonneg (h0 : 0 ≤ z) (h : z < 2 ^ (w - 1)) : Fits w z := by
  constructor <;> omega

/-- The negation of a value fits, except for the least one. -/
theorem Fits.neg (h : Fits w z) (hmin : z ≠ -2 ^ (w - 1)) : Fits w (-z) := by
  obtain ⟨h1, h2⟩ := h
  constructor <;> omega

/-- The truncated quotient by a positive number fits. -/
theorem Fits.tdiv (ha : Fits w a) (hb : 0 < b) : Fits w (a.tdiv b) := by
  obtain ⟨h1, h2⟩ := ha
  have hle := Int.natAbs_tdiv_le_natAbs a b
  rcases le_total 0 a with h0 | h0
  · have hq := Int.tdiv_nonneg h0 hb.le
    constructor <;> omega
  · have hq := Int.tdiv_nonneg (Int.neg_nonneg_of_nonpos h0) hb.le
    rw [Int.neg_tdiv] at hq
    constructor <;> omega

/-- A division by a positive number does not overflow. -/
theorem checkedDiv_eq_some (ha : Fits w a) (hb : 0 < b) :
    checkedDiv w a b = some (a.tdiv b) := by
  rw [checkedDiv, if_neg hb.ne', checked_eq_some (ha.tdiv hb)]

theorem checkedMod_eq_some (ha : Fits w a) (hb : 0 < b) :
    checkedMod w a b = some (a.tmod b) := by
  rw [checkedMod, checkedDiv_eq_some ha hb, Option.map_some]

end Fits

/-! ## Euclid's loop -/

/-- `while (b) { t = a % b; a = b; b = t; }`, with the final `a`. -/
def gcdLoop (w : ℕ) (a b : ℤ) : Option ℤ :=
  if h : b = 0 then some a
  else (checkedMod w a b).bind fun _ => gcdLoop w b (a.tmod b)
termination_by b.natAbs
decreasing_by
  rw [Int.natAbs_tmod]
  exact Nat.mod_lt _ (Int.natAbs_pos.mpr h)

/-- **On values that are not negative the loop computes the greatest common divisor.** -/
theorem gcdLoop_eq {w : ℕ} {a b : ℤ} (ha : Fits w a) (hb : Fits w b) (ha0 : 0 ≤ a)
    (hb0 : 0 ≤ b) : gcdLoop w a b = some (Int.gcd a b : ℤ) := by
  induction a, b using gcdLoop.induct with
  | case1 a =>
    rw [gcdLoop, dif_pos rfl, Int.gcd_zero_right, Int.natAbs_of_nonneg ha0]
  | case2 a b h ih =>
    have hbpos : 0 < b := by omega
    have hmod : a.tmod b = a % b := Int.tmod_eq_emod_of_nonneg ha0
    have hlt := Int.emod_lt_of_pos a hbpos
    have hnn := Int.emod_nonneg a h
    have hmodFits : Fits w (a.tmod b) := by
      rw [hmod]
      exact fits_of_nonneg hnn (by linarith [hb.2])
    rw [gcdLoop, dif_neg h, checkedMod_eq_some ha hbpos, Option.bind_some,
      ih hb hmodFits hb0 (by rw [hmod]; exact hnn), hmod, Int.gcd_comm b, Int.gcd_emod]

end Alcove.Lib
