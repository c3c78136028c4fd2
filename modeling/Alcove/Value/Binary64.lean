import Alcove.Persist.RoundTrip
import Mathlib.Algebra.Order.Ring.Abs
import Mathlib.Data.Nat.Log
import Mathlib.Tactic.Positivity
import Mathlib.Tactic.Ring

/-!
# The order of doubles

A double that is no NaN is a number of units of `2 ^ -1074` (`units`), an infinity more of them than any
other; `<` and `==` compare these numbers. The conversion of an integer keeps the order (`units_mono`), and
gives back an integer that some double has (`units_doubleOfInt_of`).
-/

namespace Alcove.Binary64

open Lib

/-- The absolute value of a double, in units of `2 ^ -1074`. -/
def magnitude (bits : UInt64) : ℕ :=
  let e := bits.toNat % 2 ^ 63 / 2 ^ 52
  let f := bits.toNat % 2 ^ 52
  if e = 0 then f else (2 ^ 52 + f) * 2 ^ (e - 1)

/-- The value of a double, in units of `2 ^ -1074`. -/
def units (bits : UInt64) : ℤ :=
  if bits.toNat < 2 ^ 63 then magnitude bits else -magnitude bits

/-- The number 1, in units of `2 ^ -1074`. -/
def one : ℕ := 2 ^ 1074

theorem one_pos : 0 < one := by
  unfold one
  positivity

/-- `x < y` -/
def lt (x y : UInt64) : Bool := !Hamt.isNaN x && !Hamt.isNaN y && decide (units x < units y)

/-- The integer that a double is. -/
def toInt? (bits : UInt64) : Option ℤ :=
  if Json.isFinite bits ∧ (one : ℤ) ∣ units bits then some (units bits / one) else none

/-- A natural number rounded to 53 bits, ties to even. -/
def roundNat (m : ℕ) : ℕ :=
  if m.log2 ≤ 52 then m
  else
    let q := m / 2 ^ (m.log2 - 52)
    let r := m % 2 ^ (m.log2 - 52)
    let half := 2 ^ (m.log2 - 53)
    (if half < r ∨ r = half ∧ q % 2 = 1 then q + 1 else q) * 2 ^ (m.log2 - 52)

/-! ## Rounding -/

variable {m m' : ℕ}

theorem two_pow_log2_le (h : m ≠ 0) : 2 ^ m.log2 ≤ m := Nat.log2_self_le h

/-- The leading 53 bits of a number. -/
theorem quotient_bounds (h : 52 < m.log2) :
    2 ^ 52 ≤ m / 2 ^ (m.log2 - 52) ∧ m / 2 ^ (m.log2 - 52) < 2 ^ 53 := by
  have hm : m ≠ 0 := by
    rintro rfl
    simp at h
  constructor
  · rw [Nat.le_div_iff_mul_le (Nat.two_pow_pos _), ← Nat.pow_add, show 52 + (m.log2 - 52) = m.log2 by omega]
    exact two_pow_log2_le hm
  · rw [Nat.div_lt_iff_lt_mul (Nat.two_pow_pos _), ← Nat.pow_add,
      show 53 + (m.log2 - 52) = m.log2 + 1 by omega]
    exact Nat.lt_log2_self

theorem roundNat_small (h : m.log2 ≤ 52) : roundNat m = m := if_pos h

theorem le_roundNat (h : 52 < m.log2) : 2 ^ m.log2 ≤ roundNat m := by
  have hq := (quotient_bounds h).1
  rw [roundNat, if_neg (by omega)]
  calc 2 ^ m.log2 = 2 ^ 52 * 2 ^ (m.log2 - 52) := by rw [← Nat.pow_add]; congr 1; omega
    _ ≤ _ := Nat.mul_le_mul_right _ (by split <;> omega)

theorem roundNat_le (m : ℕ) : roundNat m ≤ 2 ^ (m.log2 + 1) := by
  rcases le_or_gt m.log2 52 with h | h
  · rw [roundNat_small h]
    exact Nat.lt_log2_self.le
  · have hq := (quotient_bounds h).2
    rw [roundNat, if_neg (by omega)]
    calc _ ≤ 2 ^ 53 * 2 ^ (m.log2 - 52) := Nat.mul_le_mul_right _ (by split <;> omega)
      _ = 2 ^ (m.log2 + 1) := by rw [← Nat.pow_add]; congr 1; omega

theorem roundNat_mono (h : m ≤ m') : roundNat m ≤ roundNat m' := by
  rcases eq_or_ne m 0 with rfl | hm
  · simp [roundNat]
  have hm' : m' ≠ 0 := by omega
  have hlog : m.log2 ≤ m'.log2 := by
    rw [Nat.log2_eq_log_two, Nat.log2_eq_log_two]
    exact Nat.log_mono_right h
  rcases hlog.lt_or_eq with hlt | heq
  · -- a power of two is in between
    calc roundNat m ≤ 2 ^ (m.log2 + 1) := roundNat_le m
      _ ≤ 2 ^ m'.log2 := Nat.pow_le_pow_right (by norm_num) hlt
      _ ≤ roundNat m' := by
        rcases le_or_gt m'.log2 52 with h' | h'
        · rw [roundNat_small h']
          exact two_pow_log2_le hm'
        · exact le_roundNat h'
  · rcases le_or_gt m.log2 52 with h' | h'
    · rw [roundNat_small h', roundNat_small (heq ▸ h')]
      exact h
    · -- the same number of bits is cut off
      have hdm := Nat.div_add_mod m (2 ^ (m.log2 - 52))
      have hdm' := Nat.div_add_mod m' (2 ^ (m.log2 - 52))
      have hdiv : m / 2 ^ (m.log2 - 52) ≤ m' / 2 ^ (m.log2 - 52) := Nat.div_le_div_right h
      rw [roundNat, roundNat, if_neg (by omega), if_neg (by omega), ← heq]
      refine Nat.mul_le_mul_right _ ?_
      rcases hdiv.lt_or_eq with hq | hq
      · split <;> split <;> omega
      · rw [← hq] at hdm' ⊢
        split <;> split <;> omega

/-- A number with 53 significant bits is not rounded. -/
theorem roundNat_of_dvd (h : 2 ^ (m.log2 - 52) ∣ m) : roundNat m = m := by
  rcases le_or_gt m.log2 52 with hlog | hlog
  · exact roundNat_small hlog
  · have hr : m % 2 ^ (m.log2 - 52) = 0 := Nat.mod_eq_zero_of_dvd h
    have hhalf : 0 < 2 ^ (m.log2 - 53) := Nat.two_pow_pos _
    rw [roundNat, if_neg (by omega)]
    simp only [hr]
    rw [if_neg (by omega), Nat.div_mul_cancel h]

/-! ## The conversion of an integer -/

theorem magnitude_of {e f : ℕ} {bits : UInt64} (hf : f < 2 ^ 52)
    (h : bits.toNat % 2 ^ 63 = (e + 1) * 2 ^ 52 + f) : magnitude bits = (2 ^ 52 + f) * 2 ^ e := by
  have h1 : bits.toNat % 2 ^ 63 / 2 ^ 52 = e + 1 := by omega
  have h2 : bits.toNat % 2 ^ 52 = f := by omega
  rw [magnitude]
  simp only [h1, h2]
  rw [if_neg (Nat.succ_ne_zero e), Nat.add_sub_cancel]

theorem pow_add_eq {a b c : ℕ} (h : a + b = c) : 2 ^ a * 2 ^ b = 2 ^ c := by
  rw [← Nat.pow_add, h]

/-- The double of a natural number is the rounded number. -/
theorem magnitude_doubleOfNat (hm : m < 2 ^ 64) :
    magnitude (doubleOfNat m) = roundNat m * one ∧ (doubleOfNat m).toNat < 2 ^ 63 := by
  rcases eq_or_ne m 0 with rfl | h0
  · refine ⟨?_, by decide⟩
    rw [show magnitude (doubleOfNat 0) = 0 by decide, show roundNat 0 = 0 by decide, Nat.zero_mul]
  have hlog : m.log2 < 64 := (Nat.log2_lt h0).mpr hm
  rcases le_or_gt m.log2 52 with h | h
  · have hlo : 2 ^ 52 ≤ m * 2 ^ (52 - m.log2) := by
      calc 2 ^ 52 = 2 ^ m.log2 * 2 ^ (52 - m.log2) := (pow_add_eq (by omega)).symm
        _ ≤ _ := Nat.mul_le_mul_right _ (two_pow_log2_le h0)
    have hhi : m * 2 ^ (52 - m.log2) < 2 ^ 53 := by
      calc m * 2 ^ (52 - m.log2) < 2 ^ (m.log2 + 1) * 2 ^ (52 - m.log2) :=
            Nat.mul_lt_mul_of_pos_right Nat.lt_log2_self (Nat.two_pow_pos _)
        _ = 2 ^ 53 := pow_add_eq (by omega)
    have hbits : (doubleOfNat m).toNat = (m.log2 + 1022 + 1) * 2 ^ 52 + (m * 2 ^ (52 - m.log2) - 2 ^ 52) := by
      rw [doubleOfNat, if_neg h0]
      simp only [if_pos h]
      rw [UInt64.toNat_ofNat', Nat.mod_eq_of_lt (by omega)]
    have hbound : (doubleOfNat m).toNat < 2 ^ 63 := by omega
    refine ⟨?_, hbound⟩
    rw [magnitude_of (e := m.log2 + 1022) (f := m * 2 ^ (52 - m.log2) - 2 ^ 52) (by omega)
      (by rw [Nat.mod_eq_of_lt hbound, hbits]), roundNat_small h]
    calc (2 ^ 52 + (m * 2 ^ (52 - m.log2) - 2 ^ 52)) * 2 ^ (m.log2 + 1022)
        = m * 2 ^ (52 - m.log2) * 2 ^ (m.log2 + 1022) := by rw [Nat.add_sub_cancel' hlo]
      _ = m * one := by
        rw [Nat.mul_assoc, pow_add_eq (show 52 - m.log2 + (m.log2 + 1022) = 1074 by omega), one]
  · obtain ⟨hq1, hq2⟩ := quotient_bounds h
    obtain ⟨s, hs, hs1, hs2, hround⟩ : ∃ s, (doubleOfNat m).toNat = (m.log2 + 1022 + 1) * 2 ^ 52 + (s - 2 ^ 52) ∧
        2 ^ 52 ≤ s ∧ s ≤ 2 ^ 53 ∧ roundNat m = s * 2 ^ (m.log2 - 52) := by
      rw [doubleOfNat, if_neg h0, roundNat]
      simp only [if_neg (show ¬ m.log2 ≤ 52 by omega)]
      refine ⟨_, ?_, ?_, ?_, rfl⟩
      · rw [UInt64.toNat_ofNat', Nat.mod_eq_of_lt (by split <;> omega)]
      · split <;> omega
      · split <;> omega
    have hbound : (doubleOfNat m).toNat < 2 ^ 63 := by omega
    refine ⟨?_, hbound⟩
    rw [hround, one, Nat.mul_assoc, pow_add_eq (show m.log2 - 52 + 1074 = m.log2 + 1022 by omega)]
    rcases hs2.lt_or_eq with hlt | heq
    · rw [magnitude_of (e := m.log2 + 1022) (f := s - 2 ^ 52) (by omega)
        (by rw [Nat.mod_eq_of_lt hbound, hs]), Nat.add_sub_cancel' hs1]
    · -- the carry of the rounding goes into the exponent
      rw [magnitude_of (e := m.log2 + 1022 + 1) (f := 0) (by omega)
        (by rw [Nat.mod_eq_of_lt hbound, hs]; omega), heq]
      rw [Nat.pow_succ 2 (m.log2 + 1022)]
      omega

/-- An integer rounded to 53 bits. -/
def roundInt (n : ℤ) : ℤ := if n < 0 then -roundNat n.natAbs else roundNat n.natAbs

theorem units_doubleOfInt {n : ℤ} (hn : Fits 61 n) : units (doubleOfInt n) = roundInt n * one := by
  obtain ⟨hlo, hhi⟩ := hn
  obtain ⟨hmag, hlt⟩ := magnitude_doubleOfNat (m := n.natAbs) (by omega)
  unfold doubleOfInt roundInt
  split
  · have hbits : (doubleOfNat n.natAbs + 0x8000000000000000).toNat = (doubleOfNat n.natAbs).toNat + 2 ^ 63 := by
      rw [UInt64.toNat_add, show (0x8000000000000000 : UInt64).toNat = 2 ^ 63 from rfl]
      omega
    have hsame : magnitude (doubleOfNat n.natAbs + 0x8000000000000000) = magnitude (doubleOfNat n.natAbs) := by
      unfold magnitude
      rw [hbits, Nat.add_mod_right, show ((doubleOfNat n.natAbs).toNat + 2 ^ 63) % 2 ^ 52 =
        (doubleOfNat n.natAbs).toNat % 2 ^ 52 by omega]
    rw [units, if_neg (by omega), hsame, hmag, Nat.cast_mul, neg_mul]
  · rw [units, if_pos hlt, hmag, Nat.cast_mul]

theorem roundInt_mono {m n : ℤ} (h : m ≤ n) : roundInt m ≤ roundInt n := by
  unfold roundInt
  split <;> split
  · have := roundNat_mono (show n.natAbs ≤ m.natAbs by omega)
    omega
  · omega
  · omega
  · have := roundNat_mono (show m.natAbs ≤ n.natAbs by omega)
    omega

/-- The conversion keeps the order. -/
theorem units_mono {m n : ℤ} (hm : Fits 61 m) (hn : Fits 61 n) (h : m ≤ n) :
    units (doubleOfInt m) ≤ units (doubleOfInt n) := by
  rw [units_doubleOfInt hm, units_doubleOfInt hn]
  exact Int.mul_le_mul_of_nonneg_right (roundInt_mono h) (Int.natCast_nonneg _)

/-- A number of units with 53 significant bits that is an integer is not rounded. -/
theorem roundNat_of_magnitude {bits : UInt64} (h : magnitude bits = m * one) : roundNat m = m := by
  rcases le_or_gt m.log2 52 with hlog | hlog
  · exact roundNat_small hlog
  have hm : m ≠ 0 := by
    rintro rfl
    simp at hlog
  have hbig : 2 ^ (m.log2 + 1074) ≤ magnitude bits := by
    calc 2 ^ (m.log2 + 1074) = 2 ^ m.log2 * one := Nat.pow_add 2 m.log2 1074
      _ ≤ m * one := Nat.mul_le_mul_right _ (two_pow_log2_le hm)
      _ = magnitude bits := h.symm
  refine roundNat_of_dvd ?_
  have hdvd : 2 ^ (m.log2 - 52) * one ∣ magnitude bits := by
    rw [one, ← Nat.pow_add]
    unfold magnitude at hbig ⊢
    simp only at hbig ⊢
    split at hbig
    · -- there are fewer units than in 1
      exfalso
      have hf : bits.toNat % 2 ^ 52 < 2 ^ 52 := Nat.mod_lt _ (by norm_num)
      have hle : 2 ^ 52 ≤ 2 ^ (m.log2 + 1074) := Nat.pow_le_pow_right (by norm_num) (by omega)
      omega
    · rename_i he
      rw [if_neg he]
      refine Nat.dvd_mul_left_of_dvd (Nat.pow_dvd_pow 2 ?_) _
      have hf : 2 ^ 52 + bits.toNat % 2 ^ 52 < 2 ^ 53 := by
        have := Nat.mod_lt bits.toNat (show 2 ^ 52 > 0 by norm_num)
        omega
      have hlt : 2 ^ (m.log2 + 1074) < 2 ^ (53 + (bits.toNat % 2 ^ 63 / 2 ^ 52 - 1)) := by
        rw [Nat.pow_add 2 53]
        exact lt_of_le_of_lt hbig (Nat.mul_lt_mul_of_pos_right hf (Nat.two_pow_pos _))
      have := (Nat.pow_lt_pow_iff_right (by norm_num)).mp hlt
      omega
  rw [h] at hdvd
  exact Nat.dvd_of_mul_dvd_mul_right one_pos hdvd

theorem natAbs_units (bits : UInt64) : (units bits).natAbs = magnitude bits := by
  unfold units
  split <;> simp

/-- An integer that some double has is not rounded. -/
theorem roundInt_of_units {n : ℤ} {bits : UInt64} (h : units bits = n * one) : roundInt n = n := by
  have hmag : magnitude bits = n.natAbs * one := by
    rw [← natAbs_units, h, Int.natAbs_mul, Int.natAbs_natCast]
  rw [roundInt, roundNat_of_magnitude hmag]
  split <;> omega

/-- An integer and an integral double are in the order of their values, unless the rounding makes them
equal. -/
theorem units_lt_iff {n z : ℤ} (hn : Fits 61 n) {bits : UInt64} (h : units bits = z * one)
    (hexact : units (doubleOfInt n) = units bits → n = z) :
    (units (doubleOfInt n) < units bits ↔ n < z) ∧ (units bits < units (doubleOfInt n) ↔ z < n) := by
  have hone : (0 : ℤ) < one := by exact_mod_cast one_pos
  rw [units_doubleOfInt hn, h] at hexact ⊢
  rw [mul_lt_mul_iff_of_pos_right hone, mul_lt_mul_iff_of_pos_right hone]
  have hz := roundInt_of_units h
  rcases lt_trichotomy n z with hlt | heq | hlt
  · have hle := roundInt_mono hlt.le
    have hne : roundInt n ≠ z := fun he => hlt.ne (hexact (by rw [he]))
    omega
  · rw [heq, hz]
    omega
  · have hle := roundInt_mono hlt.le
    have hne : roundInt n ≠ z := fun he => hlt.ne' (hexact (by rw [he]))
    omega

theorem toInt?_eq_some {bits : UInt64} {z : ℤ} :
    toInt? bits = some z ↔ Json.isFinite bits = true ∧ units bits = z * one := by
  have hone : (one : ℤ) ≠ 0 := by exact_mod_cast one_pos.ne'
  unfold toInt?
  split
  · rename_i h
    rw [Option.some.injEq, Int.ediv_eq_iff_eq_mul_left hone h.2]
    exact ⟨fun he => ⟨h.1, he⟩, And.right⟩
  · rename_i h
    refine ⟨fun he => (Option.some_ne_none _ he.symm).elim, fun he => absurd ⟨he.1, ?_⟩ h⟩
    exact he.2 ▸ Int.dvd_mul_left _ _

/-- An infinity, or a NaN, has more units than the double of an integer. -/
theorem isFinite_of_units {n : ℤ} (hn : Fits 61 n) {bits : UInt64}
    (h : units (doubleOfInt n) = units bits) : Json.isFinite bits = true := by
  by_contra hinf
  have hround : (roundInt n).natAbs ≤ 2 ^ 64 := by
    obtain ⟨hlo, hhi⟩ := hn
    have hlog : n.natAbs.log2 < 63 := by
      rcases eq_or_ne n.natAbs 0 with h0 | h0
      · simp [h0]
      · exact (Nat.log2_lt h0).mpr (by omega)
    have hle : roundNat n.natAbs ≤ 2 ^ 64 :=
      (roundNat_le _).trans (Nat.pow_le_pow_right (by norm_num) (by omega))
    unfold roundInt
    split <;> simpa using hle
  have hmag : magnitude bits ≤ 2 ^ 64 * one := by
    rw [← natAbs_units, ← h, units_doubleOfInt hn, Int.natAbs_mul, Int.natAbs_natCast]
    exact Nat.mul_le_mul_right _ hround
  have hexp : bits.toNat % 2 ^ 63 / 2 ^ 52 = 2047 := by
    unfold Json.isFinite at hinf
    rw [decide_eq_true_iff, not_not] at hinf
    omega
  have hbig : 2 ^ 2046 ≤ magnitude bits := by
    rw [magnitude]
    simp only [hexp]
    rw [if_neg (by norm_num)]
    exact Nat.le_mul_of_pos_left _ (by omega)
  have hlt : 2 ^ 64 * one < 2 ^ 2046 := by
    rw [one, ← Nat.pow_add]
    exact Nat.pow_lt_pow_right (by norm_num) (by norm_num)
  omega

/-- The double of an integer is no NaN. -/
theorem isNaN_doubleOfInt {n : ℤ} (hn : Fits 61 n) : Hamt.isNaN (doubleOfInt n) = false := by
  obtain ⟨hlo, hhi⟩ := hn
  exact Persist.isNaN_of_isFinite (Json.isFinite_doubleOfInt ⟨by omega, by omega⟩)

end Alcove.Binary64
