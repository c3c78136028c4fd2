import Mathlib.Data.List.Basic
import Mathlib.Data.List.Forall2
import Mathlib.Data.List.Nodup
import Mathlib.Data.Nat.Bitwise

/-!
# Bitsets and the ranks of their elements

A set of small numbers given by a predicate `b : ℕ → Bool`. `bits b w` lists its elements below `w`
in order and `rank b i` counts those below `i`, so that an element `i` stands at the position
`rank b i` of the list (`bits_split`). Adding a number inserts it there (`AgreeOff.insert`), removing one
takes it out (`AgreeOff.erase`). An array packed by a bitmap is a list that runs along `bits`, and
`forall₂_split` cuts both at one position.
-/

namespace Alcove.Lib

variable {b b' : ℕ → Bool} {i w : ℕ}

/-- The elements below `w`, in order. -/
def bits (b : ℕ → Bool) (w : ℕ) : List ℕ := (List.range w).filter b

/-- The number of elements below `i`. -/
def rank (b : ℕ → Bool) (i : ℕ) : ℕ := (List.range i).countP b

theorem length_bits (b : ℕ → Bool) (w : ℕ) : (bits b w).length = rank b w :=
  List.countP_eq_length_filter.symm

theorem mem_bits : i ∈ bits b w ↔ i < w ∧ b i = true := by
  rw [bits, List.mem_filter, List.mem_range]

theorem bits_congr (h : ∀ j < w, b j = b' j) : bits b w = bits b' w :=
  List.filter_congr fun j hj => h j (List.mem_range.mp hj)

theorem nodup_bits (b : ℕ → Bool) (w : ℕ) : (bits b w).Nodup :=
  List.nodup_range.filter _

theorem bits_succ (b : ℕ → Bool) (w : ℕ) :
    bits b (w + 1) = bits b w ++ if b w then [w] else [] := by
  rw [bits, List.range_succ, List.filter_append, ← bits]
  congr 1
  cases hw : b w <;> simp [hw]

theorem bits_eq_nil_iff : bits b w = [] ↔ ∀ i < w, b i = false := by
  simp [bits, List.filter_eq_nil_iff]

/-- The elements from `i` on. -/
def bitsFrom (b : ℕ → Bool) (i w : ℕ) : List ℕ := (bits b w).filter (i ≤ ·)

/-- The list of the elements, cut before `i`. -/
theorem bits_cut (b : ℕ → Bool) (hi : i ≤ w) : bits b w = bits b i ++ bitsFrom b i w := by
  induction w with
  | zero =>
    obtain rfl : i = 0 := by omega
    rfl
  | succ w ih =>
    rcases Nat.lt_or_eq_of_le hi with hlt | rfl
    · have hle : i ≤ w := by omega
      rw [bitsFrom, bits_succ, List.filter_append, ← bitsFrom, ← List.append_assoc, ← ih hle]
      congr 1
      cases b w <;> simp [hle]
    · have hnone : bitsFrom b (w + 1) (w + 1) = [] := by
        rw [bitsFrom, List.filter_eq_nil_iff]
        intro j hj
        have := (mem_bits.mp hj).1
        simp only [decide_eq_true_eq]
        omega
      rw [hnone, List.append_nil]

theorem bitsFrom_eq_cons (hi : i < w) (hb : b i = true) :
    bitsFrom b i w = i :: bitsFrom b (i + 1) w := by
  have h := bits_cut b (Nat.le_of_lt hi)
  rw [bits_cut b hi, bits_succ, if_pos hb, List.append_assoc] at h
  exact (List.append_cancel_left h).symm

theorem bitsFrom_eq_succ (hi : i < w) (hb : b i = false) :
    bitsFrom b i w = bitsFrom b (i + 1) w := by
  have h := bits_cut b (Nat.le_of_lt hi)
  rw [bits_cut b hi, bits_succ, if_neg (by simp [hb]), List.append_nil] at h
  exact (List.append_cancel_left h).symm

theorem bitsFrom_congr (h : ∀ j, i ≤ j → j < w → b j = b' j) : bitsFrom b i w = bitsFrom b' i w := by
  rw [bitsFrom, bitsFrom, bits, bits, List.filter_filter, List.filter_filter]
  apply List.filter_congr
  intro j hj
  by_cases hij : i ≤ j
  · rw [h j hij (List.mem_range.mp hj)]
  · simp [hij]

/-- **An element stands at the position of its rank.** -/
theorem bits_split (hi : i < w) (hb : b i = true) :
    bits b w = bits b i ++ i :: bitsFrom b (i + 1) w := by
  rw [bits_cut b (Nat.le_of_lt hi), bitsFrom_eq_cons hi hb]

/-- A number that is not an element leaves no gap. -/
theorem bits_split_absent (hi : i < w) (hb : b i = false) :
    bits b w = bits b i ++ bitsFrom b (i + 1) w := by
  rw [bits_cut b (Nat.le_of_lt hi), bitsFrom_eq_succ hi hb]

/-- A set that agrees with another one except at `i`. -/
def AgreeOff (b b' : ℕ → Bool) (i w : ℕ) : Prop := ∀ j < w, j ≠ i → b' j = b j

theorem AgreeOff.below (h : AgreeOff b b' i w) (hi : i < w) : bits b' i = bits b i :=
  bits_congr fun j hj => h j (by omega) (by omega)

theorem AgreeOff.above (h : AgreeOff b b' i w) : bitsFrom b' (i + 1) w = bitsFrom b (i + 1) w :=
  bitsFrom_congr fun j hj hjw => h j hjw (by omega)

/-- Adding a number puts it at the position of its rank. -/
theorem AgreeOff.insert (h : AgreeOff b b' i w) (hi : i < w) (hb' : b' i = true) :
    bits b' w = bits b i ++ i :: bitsFrom b (i + 1) w := by
  rw [bits_split hi hb', h.below hi, h.above]

/-- Removing a number takes it out of the list. -/
theorem AgreeOff.erase (h : AgreeOff b b' i w) (hi : i < w) (hb' : b' i = false) :
    bits b' w = bits b i ++ bitsFrom b (i + 1) w := by
  rw [bits_split_absent hi hb', h.below hi, h.above]

/-! ## Lists that run along a bitset -/

section Packed

variable {α β : Type*} {R : α → β → Prop} {xs ys : List α} {zs : List β}

/-- A packed list, cut at a position. -/
theorem forall₂_split (h : List.Forall₂ R (xs ++ ys) zs) :
    ∃ zs₁ zs₂, zs = zs₁ ++ zs₂ ∧ zs₁.length = xs.length ∧ List.Forall₂ R xs zs₁ ∧
      List.Forall₂ R ys zs₂ := by
  induction xs generalizing zs with
  | nil => exact ⟨[], zs, rfl, rfl, .nil, h⟩
  | cons x xs ih =>
    cases h with
    | @cons _ z _ zs hR hrest =>
      obtain ⟨zs₁, zs₂, rfl, hlen, h₁, h₂⟩ := ih hrest
      exact ⟨z :: zs₁, zs₂, rfl, by simp [hlen], .cons hR h₁, h₂⟩

/-- A packed list, cut around one of its elements. -/
theorem forall₂_split_cons {x : α} (h : List.Forall₂ R (xs ++ x :: ys) zs) :
    ∃ zs₁ z zs₂, zs = zs₁ ++ z :: zs₂ ∧ zs₁.length = xs.length ∧ List.Forall₂ R xs zs₁ ∧ R x z ∧
      List.Forall₂ R ys zs₂ := by
  obtain ⟨zs₁, zs', rfl, hlen, h₁, h'⟩ := forall₂_split h
  cases h' with
  | cons hR h₂ => exact ⟨zs₁, _, _, rfl, hlen, h₁, hR, h₂⟩

theorem forall₂_mem_right (h : List.Forall₂ R xs zs) {z : β} (hz : z ∈ zs) :
    ∃ x ∈ xs, R x z := by
  induction h with
  | nil => cases hz
  | @cons x z' xs zs hR _ ih =>
    rcases List.mem_cons.mp hz with rfl | hz
    · exact ⟨x, List.mem_cons_self, hR⟩
    · obtain ⟨y, hy, hRy⟩ := ih hz
      exact ⟨y, List.mem_cons_of_mem x hy, hRy⟩

end Packed

end Alcove.Lib
