import Alcove.Hamt.Node

/-!
# The persistent map: bitmaps and hash indices

What the bit operations of `hamt.h` do to a bitmap, as a set of indices below 32, and to the hash:
the index at a level is the next five bits, so that the low bits of a hash say which path it takes.
-/

namespace Alcove.Hamt

open Lib

variable {bm : UInt32} {i j : ℕ}

theorem toNat_bitOf (hi : i < 32) : (bitOf i).toNat = 2 ^ i := by
  have hmod : i % 2 ^ 32 % 32 = i := by omega
  have hpow : 2 ^ i < 2 ^ 32 := Nat.pow_lt_pow_right (by omega) hi
  rw [bitOf, UInt32.toNat_shiftLeft, UInt32.toNat_ofNat', hmod, UInt32.toNat_one, Nat.one_shiftLeft,
    Nat.mod_eq_of_lt hpow]

theorem bitSet_bitOf (hi : i < 32) (j : ℕ) : bitSet (bitOf i) j = decide (i = j) := by
  rw [bitSet, toNat_bitOf hi, Nat.testBit_two_pow]

theorem bitSet_and (x y : UInt32) (j : ℕ) : bitSet (x &&& y) j = (bitSet x j && bitSet y j) := by
  rw [bitSet, UInt32.toNat_and, Nat.testBit_and, bitSet, bitSet]

theorem bitSet_or (x y : UInt32) (j : ℕ) : bitSet (x ||| y) j = (bitSet x j || bitSet y j) := by
  rw [bitSet, UInt32.toNat_or, Nat.testBit_or, bitSet, bitSet]

theorem bitSet_not (x : UInt32) (hj : j < 32) : bitSet (~~~x) j = !bitSet x j := by
  rw [bitSet, UInt32.toNat_not, bitSet, UInt32.size, Nat.sub_sub, Nat.add_comm 1,
    show (4294967296 : ℕ) = 2 ^ 32 from rfl, Nat.testBit_two_pow_sub_succ x.toNat_lt]
  simp [hj]

theorem bitSet_ge (x : UInt32) (hj : 32 ≤ j) : bitSet x j = false :=
  Nat.testBit_lt_two_pow (lt_of_lt_of_le x.toNat_lt (Nat.pow_le_pow_right (by omega) hj))

/-- A bitmap is zero when it has no bit. -/
theorem eq_zero_iff_bits : bm = 0 ↔ bits (bitSet bm) 32 = [] := by
  rw [bits_eq_nil_iff]
  constructor
  · rintro rfl i -
    exact Nat.zero_testBit i
  · intro h
    apply UInt32.toNat_inj.mp
    apply Nat.eq_of_testBit_eq
    intro i
    rw [UInt32.toNat_zero, Nat.zero_testBit]
    rcases Nat.lt_or_ge i 32 with hi | hi
    · exact h i hi
    · exact bitSet_ge bm hi

theorem and_bitOf_eq_zero_iff (hi : i < 32) : bm &&& bitOf i = 0 ↔ bitSet bm i = false := by
  rw [eq_zero_iff_bits, bits_eq_nil_iff]
  constructor
  · intro h
    have hbit := h i hi
    rw [bitSet_and, bitSet_bitOf hi] at hbit
    simpa using hbit
  · intro h j _
    rw [bitSet_and, bitSet_bitOf hi]
    by_cases hij : i = j
    · subst hij
      simp [h]
    · simp [hij]

/-- The position of an index among the slots is its rank. -/
theorem slotPos_bitOf (bm : UInt32) (hi : i < 32) : slotPos bm (bitOf i) = rank (bitSet bm) i := by
  have hone : (1 : UInt32) ≤ bitOf i := by
    rw [UInt32.le_iff_toNat_le, toNat_bitOf hi, UInt32.toNat_one]
    exact Nat.one_le_two_pow
  have hset : ∀ j, bitSet (bm &&& (bitOf i - 1)) j = (decide (j < i) && bitSet bm j) := by
    intro j
    rw [bitSet_and, bitSet, bitSet, UInt32.toNat_sub_of_le _ _ hone, toNat_bitOf hi,
      UInt32.toNat_one, Nat.testBit_two_pow_sub_one, Bool.and_comm]
  rw [slotPos, popcount, ← length_bits, ← length_bits, bits_cut _ (Nat.le_of_lt hi),
    List.length_append]
  have hlow : bits (bitSet (bm &&& (bitOf i - 1))) i = bits (bitSet bm) i :=
    bits_congr fun j hj => by rw [hset j, decide_eq_true hj, Bool.true_and]
  have hhigh : bitsFrom (bitSet (bm &&& (bitOf i - 1))) i 32 = [] := by
    rw [bitsFrom, List.filter_eq_nil_iff]
    intro j hj
    have hbit := (mem_bits.mp hj).2
    rw [hset j, Bool.and_eq_true, decide_eq_true_eq] at hbit
    simp only [decide_eq_true_eq]
    omega
  rw [hlow, hhigh, List.length_nil, Nat.add_zero]

theorem agreeOff_or (bm : UInt32) (hi : i < 32) :
    AgreeOff (bitSet bm) (bitSet (bm ||| bitOf i)) i 32 := by
  intro j _ hji
  rw [bitSet_or, bitSet_bitOf hi, decide_eq_false hji.symm, Bool.or_false]

theorem agreeOff_clear (bm : UInt32) (hi : i < 32) :
    AgreeOff (bitSet bm) (bitSet (bm &&& ~~~bitOf i)) i 32 := by
  intro j hj hji
  rw [bitSet_and, bitSet_not _ hj, bitSet_bitOf hi, decide_eq_false hji.symm, Bool.not_false,
    Bool.and_true]

theorem bitSet_or_self (bm : UInt32) (hi : i < 32) : bitSet (bm ||| bitOf i) i = true := by
  rw [bitSet_or, bitSet_bitOf hi]
  simp

theorem bitSet_clear_self (bm : UInt32) (hi : i < 32) :
    bitSet (bm &&& ~~~bitOf i) i = false := by
  rw [bitSet_and, bitSet_not _ hi, bitSet_bitOf hi]
  simp

theorem bits_bitOf {w : ℕ} (hi : i < 32) (hw : i < w) : bits (bitSet (bitOf i)) w = [i] := by
  have hnone : ∀ j, bitSet 0 j = false := Nat.zero_testBit
  have hempty : ∀ w, bits (bitSet 0) w = [] := fun w =>
    bits_eq_nil_iff.mpr fun j _ => hnone j
  have hoff : AgreeOff (bitSet 0) (bitSet (bitOf i)) i w := by
    intro j _ hji
    rw [bitSet_bitOf hi, hnone, decide_eq_false hji.symm]
  rw [hoff.insert hw (by simp [bitSet_bitOf hi]), hempty, bitsFrom, hempty]
  rfl

/-- The indices of a bitmap with two of them. -/
theorem bits_pair (hij : i < j) (hj : j < 32) : bits (bitSet (bitOf i ||| bitOf j)) 32 = [i, j] := by
  have hi : i < 32 := by omega
  have hhigh : bitsFrom (bitSet (bitOf i)) (j + 1) 32 = [] := by
    rw [bitsFrom, bits_bitOf hi hi]
    simp only [List.filter_cons, List.filter_nil, decide_eq_true_eq]
    rw [if_neg (by omega)]
  rw [(agreeOff_or (bitOf i) hj).insert hj (bitSet_or_self _ hj), bits_bitOf hi hij, hhigh]
  rfl

/-! ## The path of a hash -/

theorem hashIndex_eq {shift : ℕ} (h : UInt32) (hs : shift < 32) :
    hashIndex h shift = some (h.toNat / 2 ^ shift % 32) := by
  rw [hashIndex, if_pos hs, Nat.shiftRight_eq_div_pow]
  congr 1
  exact Nat.and_two_pow_sub_one_eq_mod _ 5

/-- The low bits of a hash, extended by the index at the next level. -/
theorem mod_two_pow_add (x shift : ℕ) :
    x % 2 ^ (shift + 5) = x % 2 ^ shift + 2 ^ shift * (x / 2 ^ shift % 32) := by
  rw [Nat.pow_add, Nat.mod_mul]

end Alcove.Hamt
