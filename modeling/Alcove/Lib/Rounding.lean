import Mathlib.Algebra.Order.Field.Basic
import Mathlib.Algebra.Order.Ring.Abs
import Mathlib.Tactic.FieldSimp
import Mathlib.Tactic.Linarith
import Mathlib.Tactic.Ring

/-!
# Rounding half away from zero

The integer nearest to an element of an ordered field; of two that are equally near, the one that is
further from zero (`HalfAway`). There is at most one (`HalfAway.unique`), it changes its sign with
the element, and the quotient of two integers has it from its truncated quotient and remainder
(`halfAway_tdiv`).
-/

namespace Alcove.Lib

variable {α : Type*} [Field α] [LinearOrder α] [IsStrictOrderedRing α] {x : α} {m n : ℤ}

/-- The integer `m` is `x` rounded, halves away from zero. -/
structure HalfAway (x : α) (m : ℤ) : Prop where
  near : 2 * |x - m| ≤ 1
  away : 2 * |x - m| = 1 → |x| < |(m : α)|

namespace HalfAway

/-- An integer is its own rounding. -/
theorem intCast (m : ℤ) : HalfAway (m : α) m := by
  have hzero : 2 * |(m : α) - m| = 0 := by rw [sub_self, abs_zero, mul_zero]
  exact ⟨by rw [hzero]; exact zero_le_one, fun h => by rw [hzero] at h; exact absurd h zero_ne_one⟩

omit [IsStrictOrderedRing α] in
theorem neg (h : HalfAway x m) : HalfAway (-x) (-m) := by
  have habs : |-x - ((-m : ℤ) : α)| = |x - m| := by
    rw [Int.cast_neg, ← abs_neg]
    congr 1
    ring
  refine ⟨by rw [habs]; exact h.near, fun he => ?_⟩
  rw [habs] at he
  rw [Int.cast_neg, abs_neg, abs_neg]
  exact h.away he

omit [IsStrictOrderedRing α] in
theorem neg_iff : HalfAway (-x) (-m) ↔ HalfAway x m :=
  ⟨fun h => by simpa using h.neg, neg⟩

/-- Two integers that are both nearest do not differ by one. -/
private theorem not_succ (h : HalfAway x m) (h' : HalfAway x (m + 1)) : False := by
  have hm := h.near
  have hm' := h'.near
  have e1 := neg_abs_le (x - m)
  have e2 := le_abs_self (x - m)
  have e3 := neg_abs_le (x - ((m + 1 : ℤ) : α))
  have e4 := le_abs_self (x - ((m + 1 : ℤ) : α))
  push_cast at *
  have hx : x = m + 1 / 2 := by linarith
  have ha := h.away (by linarith)
  have ha' := h'.away (by push_cast; linarith)
  push_cast at ha'
  rcases le_or_gt 0 m with hpos | hneg
  · have hpos' : (0 : α) ≤ m := by exact_mod_cast hpos
    rw [abs_of_nonneg (by linarith), abs_of_nonneg hpos'] at ha
    linarith
  · have hneg' : (m : α) + 1 ≤ 0 := by exact_mod_cast hneg
    rw [abs_of_nonpos (by linarith), abs_of_nonpos hneg'] at ha'
    linarith

/-- **There is at most one rounding.** -/
theorem unique (h : HalfAway x m) (h' : HalfAway x n) : m = n := by
  have hdist : |((m - n : ℤ) : α)| ≤ 1 := by
    have e1 := abs_sub_abs_le_abs_sub (x - n) (x - m)
    have htri : |(m : α) - n| ≤ |x - n| + |x - m| := by
      have := abs_sub (x - n) (x - m)
      rwa [sub_sub_sub_cancel_left] at this
    push_cast
    linarith [h.near, h'.near]
  have hle : |m - n| ≤ 1 := by exact_mod_cast hdist
  obtain ⟨hlo, hhi⟩ := abs_le.1 hle
  obtain hlt | rfl | hgt := lt_trichotomy m n
  · obtain rfl : n = m + 1 := by omega
    exact (not_succ h h').elim
  · rfl
  · obtain rfl : m = n + 1 := by omega
    exact (not_succ h' h).elim

/-- The rounding from a quotient and a remainder that are not negative. -/
theorem of_remainder {q r d : ℤ} (hq : 0 ≤ q) (hr : 0 ≤ r) (hrd : r < d) :
    HalfAway (((q * d + r : ℤ) : α) / d) (if d ≤ 2 * r then q + 1 else q) := by
  have hd : (0 : α) < d := by exact_mod_cast hr.trans_lt hrd
  have hq' : (0 : α) ≤ q := by exact_mod_cast hq
  have hr' : (0 : α) ≤ r := by exact_mod_cast hr
  have hx : ((q * d + r : ℤ) : α) / d = q + r / d := by
    push_cast
    field_simp
  have hf : (0 : α) ≤ r / d := div_nonneg hr' hd.le
  have hf1 : (r : α) / d < 1 := by
    rw [div_lt_one hd]
    exact_mod_cast hrd
  rw [hx]
  split
  · next h =>
    have hhalf : (1 : α) ≤ 2 * (r / d) := by
      rw [← mul_div_assoc, le_div_iff₀ hd, one_mul]
      exact_mod_cast h
    have habs : |(q : α) + r / d - ((q + 1 : ℤ) : α)| = 1 - r / d := by
      push_cast
      rw [abs_of_nonpos (by linarith)]
      ring
    refine ⟨by rw [habs]; linarith, fun _ => ?_⟩
    push_cast
    rw [abs_of_nonneg (by linarith), abs_of_nonneg (by linarith)]
    linarith
  · next h =>
    have hhalf : 2 * ((r : α) / d) < 1 := by
      rw [← mul_div_assoc, div_lt_one hd]
      exact_mod_cast not_le.1 h
    have habs : |(q : α) + r / d - q| = r / d := by
      rw [add_sub_cancel_left, abs_of_nonneg hf]
    exact ⟨by rw [habs]; exact hhalf.le, fun he => by rw [habs] at he; exact absurd he hhalf.ne⟩

/-- The rounding of a positive quotient, from the truncated one. -/
private theorem tdiv_pos {c d : ℤ} (hc : 0 < c) (hd : 0 < d) : HalfAway ((c : α) / d)
    (if d ≤ 2 * ((c.tmod d).natAbs : ℤ) then c.tdiv d + 1 else c.tdiv d) := by
  have hr := Int.tmod_nonneg d hc.le
  have hmod := Int.tmod_eq_emod_of_nonneg (b := d) hc.le
  have hlt := Int.emod_lt_of_pos c hd
  rw [← hmod] at hlt
  have h : HalfAway (_ : α) _ := of_remainder (Int.tdiv_nonneg hc.le hd.le) hr hlt
  rwa [Int.mul_comm, Int.mul_tdiv_add_tmod, ← Int.natAbs_of_nonneg hr] at h

/-- **The rounding of a quotient**, from the truncated one and the size of the remainder: a step in
the direction of the dividend where the remainder is at least half. -/
theorem tdiv {c d : ℤ} (hd : 0 < d) : HalfAway ((c : α) / d)
    (if d ≤ 2 * ((c.tmod d).natAbs : ℤ) then c.tdiv d + c.sign else c.tdiv d) := by
  obtain hc | rfl | hc := lt_trichotomy c 0
  · have h : HalfAway (_ : α) _ := tdiv_pos (Int.neg_pos_of_neg hc) hd
    rw [Int.neg_tmod, Int.natAbs_neg, Int.neg_tdiv, Int.cast_neg, neg_div] at h
    rw [Int.sign_eq_neg_one_of_neg hc, ← neg_iff]
    convert h using 1
    split <;> ring
  · rw [Int.zero_tmod, Int.zero_tdiv, Int.sign_zero, add_zero, ite_self, Int.cast_zero, zero_div]
    exact Int.cast_zero (R := α) ▸ intCast 0
  · rw [Int.sign_eq_one_of_pos hc]
    exact tdiv_pos hc hd

end HalfAway

end Alcove.Lib
