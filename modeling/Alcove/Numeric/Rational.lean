import Alcove.Lib.Checked
import Mathlib.Data.Rat.Lemmas
import Mathlib.Tactic.FieldSimp
import Mathlib.Tactic.Ring

/-!
# Exact rationals of bounded size

The rational tower of `numeric.h`: fixnums of 61 bits and reduced fractions of two `int64`. The
arithmetic of the source goes through `__int128`; each signed operation is checked, so a function
that returns `some` has no overflow. `alcGcd64`, `makeRational`, `ratFromI128` and `ratBinop` are the
source's functions, `exactResult` says what an operation should give over `ℚ`.

**Main result:** `rational_exact`. The arithmetic never overflows, gives the exact result whenever
its reduced components fit, and every value it builds is in lowest terms.
-/

namespace Alcove.Numeric

open Lib

/-- An exact value: a tagged fixnum, or a pointer to an `alc_rat_t`. -/
inductive Exact
  | fix (n : ℤ)
  | rat (num den : ℤ)
  deriving DecidableEq

/-- The static reasons `rat_binop` reports. -/
inductive RatErr
  | overflow
  | divzero
  deriving DecidableEq

/-- `FIX_FITS`: three bits of the 64 hold the tag. -/
def FixFits (n : ℤ) : Prop := Fits 61 n

instance (n : ℤ) : Decidable (FixFits n) := inferInstanceAs (Decidable (Fits 61 n))

/-! ## The functions of the source -/

/-- The magnitude of an `int64`, computed in `uint64_t`. -/
def magnitude (a : ℤ) : Option ℕ :=
  if a < 0 then do
    let a₁ ← checked 64 (a + 1)
    let m ← checked 64 (-a₁)
    pure ((m.toNat + 1) % 2 ^ 64)
  else pure a.toNat

/-- `while (ub) { t = ua % ub; ua = ub; ub = t; }` -/
def gcdLoopU (ua ub : ℕ) : ℕ :=
  if h : ub = 0 then ua else gcdLoopU ub (ua % ub)
termination_by ub
decreasing_by exact Nat.mod_lt _ (Nat.pos_of_ne_zero h)

/-- `alc_gcd64` -/
def alcGcd64 (a b : ℤ) : Option ℤ := do
  let ua ← magnitude a
  let ub ← magnitude b
  pure (wrap 64 (gcdLoopU ua ub))

/-- `if (g > 1) a /= g;` -/
def reduceBy (w : ℕ) (g a : ℤ) : Option ℤ := if 1 < g then checkedDiv w a g else some a

/-- `p ? -a : a` -/
def negIf (w : ℕ) (p : Prop) [Decidable p] (a : ℤ) : Option ℤ :=
  if p then checked w (-a) else some a

/-- The part of `make_rational` after the sign is in `num`. -/
def makeReduced (num den : ℤ) : Option Exact := do
  let g ← alcGcd64 num den
  let num ← reduceBy 64 g num
  let den ← reduceBy 64 g den
  if den = 1 ∧ FixFits num then pure (.fix num) else pure (.rat num den)

/-- `make_rational`; the inner `none` is `NULL`. -/
def makeRational (num den : ℤ) : Option (Option Exact) :=
  if den = 0 then pure none
  else if den < 0 then
    if den = -2 ^ 63 then pure none
    else if num = -2 ^ 63 then pure none
    else do
      let num ← checked 64 (-num)
      let den ← checked 64 (-den)
      some <$> makeReduced num den
  else some <$> makeReduced num den

/-- `rat_from_i128` -/
def ratFromI128 (num den : ℤ) : Option (Except RatErr (Option Exact)) := do
  let num' ← negIf 128 (den < 0) num
  let den' ← negIf 128 (den < 0) den
  let a ← negIf 128 (num' < 0) num'
  let a ← gcdLoop 128 a den'
  let num ← reduceBy 128 a num'
  let den ← reduceBy 128 a den'
  if num < -2 ^ 63 ∨ num > 2 ^ 63 - 1 ∨ den > 2 ^ 63 - 1 then pure (.error .overflow)
  else .ok <$> makeRational num den

/-- `exact_parts` -/
def Exact.parts : Exact → ℤ × ℤ
  | fix n => (n, 1)
  | rat num den => (num, den)

/-- The numerator and denominator that `rat_binop` hands to `rat_from_i128`. -/
def crossParts (op : Char) (an ad bn bd : ℤ) : Option (Except RatErr (ℤ × ℤ)) :=
  match op with
  | '+' => do
    let x ← checked 128 (an * bd)
    let y ← checked 128 (bn * ad)
    let num ← checked 128 (x + y)
    let den ← checked 128 (ad * bd)
    pure (.ok (num, den))
  | '-' => do
    let x ← checked 128 (an * bd)
    let y ← checked 128 (bn * ad)
    let num ← checked 128 (x - y)
    let den ← checked 128 (ad * bd)
    pure (.ok (num, den))
  | '*' => do
    let num ← checked 128 (an * bn)
    let den ← checked 128 (ad * bd)
    pure (.ok (num, den))
  | '/' =>
    if bn = 0 then pure (.error .divzero)
    else do
      let num ← checked 128 (an * bd)
      let den ← checked 128 (ad * bn)
      pure (.ok (num, den))
  | _ => pure (.error .overflow)

/-- `rat_binop` -/
def ratBinop (op : Char) (a b : Exact) : Option (Except RatErr (Option Exact)) :=
  (crossParts op a.parts.1 a.parts.2 b.parts.1 b.parts.2).bind fun
    | .error e => some (.error e)
    | .ok (num, den) => ratFromI128 num den

/-! ## What the operations are for -/

/-- The rational number a value stands for. -/
def Exact.value (v : Exact) : ℚ := (v.parts.1 : ℚ) / v.parts.2

/-- The four operations. -/
inductive Op
  | add | sub | mul | div
  deriving DecidableEq

namespace Op

def char : Op → Char
  | add => '+'
  | sub => '-'
  | mul => '*'
  | div => '/'

def apply : Op → ℚ → ℚ → ℚ
  | add => (· + ·)
  | sub => (· - ·)
  | mul => (· * ·)
  | div => (· / ·)

end Op

/-- The value in lowest terms that stands for `q`. -/
def Exact.ofRat (q : ℚ) : Exact :=
  if (q.den : ℤ) = 1 ∧ FixFits q.num then .fix q.num else .rat q.num q.den

/-- What an operation on two rational numbers should give. -/
def exactResult (o : Op) (p q : ℚ) : Except RatErr (Option Exact) :=
  if o = .div ∧ q = 0 then .error .divzero
  else if Fits 64 (o.apply p q).num ∧ Fits 64 (o.apply p q).den then
    .ok (some (.ofRat (o.apply p q)))
  else .error .overflow

/-- The components of an operand are `int64`, and the denominator is positive. -/
structure Exact.InRange (v : Exact) : Prop where
  num : Fits 64 v.parts.1
  den : Fits 64 v.parts.2
  pos : 0 < v.parts.2

/-- A value in lowest terms; integers that fit the tag are fixnums. -/
def Exact.WellFormed : Exact → Prop
  | fix n => FixFits n
  | rat num den => Fits 64 num ∧ Fits 64 den ∧ 0 < den ∧ Int.gcd num den = 1 ∧
      ¬ (den = 1 ∧ FixFits num)

/-- The values that any sequence of operations can build. -/
inductive Built : Exact → Prop
  | fix {n : ℤ} (h : FixFits n) : Built (.fix n)
  | makeRational {num den : ℤ} {v : Exact} (hn : Fits 64 num) (hd : Fits 64 den)
      (h : makeRational num den = some (some v)) : Built v
  | ratFromI128 {num den : ℤ} {v : Exact} (hn : Fits 128 num) (hd : Fits 128 den) (h0 : den ≠ 0)
      (h : ratFromI128 num den = some (.ok (some v))) : Built v
  | ratBinop {op : Char} {a b v : Exact} (ha : Built a) (hb : Built b)
      (h : ratBinop op a b = some (.ok (some v))) : Built v

/-! ## Reduction -/

theorem gcdLoopU_eq (ua ub : ℕ) : gcdLoopU ua ub = Nat.gcd ua ub := by
  induction ua, ub using gcdLoopU.induct with
  | case1 ua => rw [gcdLoopU, dif_pos rfl, Nat.gcd_zero_right]
  | case2 ua ub h ih =>
    rw [gcdLoopU, dif_neg h, ih, Nat.gcd_comm ub, ← Nat.gcd_rec, Nat.gcd_comm]

theorem magnitude_eq {a : ℤ} (ha : Fits 64 a) : magnitude a = some a.natAbs := by
  obtain ⟨h1, h2⟩ := ha
  unfold magnitude
  split
  · have hfits : Fits 64 (a + 1) := by constructor <;> omega
    have hneg : Fits 64 (-(a + 1)) := by constructor <;> omega
    rw [checked_eq_some hfits]
    simp only [Option.bind_eq_bind, Option.bind_some, checked_eq_some hneg]
    show some _ = some _
    congr 1
    omega
  · show some _ = some _
    congr 1
    omega

/-- The greatest common divisor with a positive `int64` is one. -/
theorem alcGcd64_eq {a b : ℤ} (ha : Fits 64 a) (hb : Fits 64 b) (hpos : 0 < b) :
    alcGcd64 a b = some (Int.gcd a b : ℤ) := by
  have hle : Int.gcd a b ≤ b.natAbs := Nat.gcd_le_right _ (by omega)
  have hlt : (Int.gcd a b : ℤ) < 2 ^ 63 := by
    have := hb.2
    omega
  simp only [alcGcd64, magnitude_eq ha, magnitude_eq hb, Option.bind_eq_bind, Option.bind_some,
    gcdLoopU_eq]
  show some (wrap 64 (Int.gcd a b : ℤ)) = _
  rw [wrap, Int.bmod_eq_of_le (by omega) (by omega)]

section Reduced

variable {num den : ℤ}

theorem gcd_pos (num : ℤ) (hpos : 0 < den) : 0 < (Int.gcd num den : ℤ) := by
  exact_mod_cast Int.gcd_pos_of_ne_zero_right num hpos.ne'

/-- The components divided by their greatest common divisor are those of the rational number. -/
theorem div_gcd (num : ℤ) (hpos : 0 < den) :
    num.tdiv (Int.gcd num den) = ((num : ℚ) / den).num ∧
      den.tdiv (Int.gcd num den) = ((num : ℚ) / den).den := by
  have hg := gcd_pos num hpos
  have hcop := Int.gcd_div_gcd_div_gcd (i := num) (j := den) (by exact_mod_cast hg)
  obtain ⟨x, hx⟩ := Int.gcd_dvd_left num den
  obtain ⟨y, hy⟩ := Int.gcd_dvd_right num den
  generalize (Int.gcd num den : ℤ) = g at *
  subst hx hy
  have hy0 : 0 < y := pos_of_mul_pos_right hpos hg.le
  rw [Int.mul_ediv_cancel_left x hg.ne', Int.mul_ediv_cancel_left y hg.ne'] at hcop
  have hq : ((g * x : ℤ) : ℚ) / (g * y : ℤ) = x / y := by
    push_cast
    rw [mul_div_mul_left]
    exact_mod_cast hg.ne'
  rw [Int.mul_tdiv_cancel_left x hg.ne', Int.mul_tdiv_cancel_left y hg.ne', hq]
  exact ⟨(Rat.num_div_eq_of_coprime hy0 hcop).symm, (Rat.den_div_eq_of_coprime hy0 hcop).symm⟩

/-- Where the divisor is one, nothing is divided. -/
theorem reduceBy_eq {w : ℕ} {a g : ℤ} (ha : Fits w a) (hg : 0 < g) :
    reduceBy w g a = some (a.tdiv g) := by
  unfold reduceBy
  split
  · exact checkedDiv_eq_some ha hg
  · obtain rfl : g = 1 := by omega
    rw [Int.tdiv_one]

theorem makeReduced_eq (hn : Fits 64 num) (hd : Fits 64 den) (hpos : 0 < den) :
    makeReduced num den = some (.ofRat (num / den)) := by
  have hg := gcd_pos num hpos
  obtain ⟨hnum, hden⟩ := div_gcd num hpos
  simp only [makeReduced, alcGcd64_eq hn hd hpos, Option.bind_eq_bind, Option.bind_some,
    reduceBy_eq hn hg, reduceBy_eq hd hg, hnum, hden]
  rw [Exact.ofRat]
  split <;> rfl

/-- `make_rational` builds the value that stands for the quotient, when it builds one. -/
theorem makeRational_eq (hn : Fits 64 num) (hd : Fits 64 den) (h0 : den ≠ 0) :
    makeRational num den = if den < 0 ∧ (den = -2 ^ 63 ∨ num = -2 ^ 63) then some none
      else some (some (.ofRat (num / den))) := by
  unfold makeRational
  rw [if_neg h0]
  rcases lt_or_ge den 0 with hneg | hnn
  · rw [if_pos hneg]
    by_cases hdmin : den = -2 ^ 63
    · rw [if_pos hdmin, if_pos ⟨hneg, .inl hdmin⟩]
      rfl
    by_cases hnmin : num = -2 ^ 63
    · rw [if_neg hdmin, if_pos hnmin, if_pos ⟨hneg, .inr hnmin⟩]
      rfl
    have hn' := hn.neg hnmin
    have hd' := hd.neg hdmin
    rw [if_neg hdmin, if_neg hnmin, if_neg (by tauto), checked_eq_some hn', checked_eq_some hd']
    simp only [Option.bind_eq_bind, Option.bind_some, makeReduced_eq hn' hd' (by omega)]
    show some (some _) = _
    push_cast
    rw [neg_div_neg_eq]
  · rw [if_neg (by omega), if_neg (by omega), makeReduced_eq hn hd (by omega)]
    rfl

/-- The reduction of `rat_from_i128`, with a positive denominator. -/
theorem reduce128_eq (hn : Fits 128 num) (hmin : num ≠ -2 ^ 127) (hd : Fits 128 den)
    (hpos : 0 < den) :
    ∃ a g, negIf 128 (num < 0) num = some a ∧ gcdLoop 128 a den = some g ∧
      reduceBy 128 g num = some ((num : ℚ) / den).num ∧
      reduceBy 128 g den = some (((num : ℚ) / den).den : ℤ) := by
  have hg := gcd_pos num hpos
  obtain ⟨hnum, hden⟩ := div_gcd num hpos
  have habs : negIf 128 (num < 0) num = some (num.natAbs : ℤ) := by
    unfold negIf
    split
    · rw [checked_eq_some (hn.neg hmin)]
      congr 1
      omega
    · congr 1
      omega
  have habsFits : Fits 128 (num.natAbs : ℤ) := by
    obtain ⟨h1, h2⟩ := hn
    constructor <;> omega
  refine ⟨_, Int.gcd num den, habs, ?_, ?_, ?_⟩
  · rw [gcdLoop_eq habsFits hd (by omega) hpos.le]
    rfl
  · rw [reduceBy_eq hn hg, hnum]
  · rw [reduceBy_eq hd hg, hden]

/-- The exact value `q`, where its reduced components fit. -/
def bounded (q : ℚ) : Except RatErr (Option Exact) :=
  if Fits 64 q.num ∧ Fits 64 q.den then .ok (some (.ofRat q)) else .error .overflow

/-- `rat_from_i128` reduces exactly, and reports an overflow exactly when the reduced components
do not fit. -/
theorem ratFromI128_eq (hn : Fits 128 num) (hd : Fits 128 den) (hnmin : num ≠ -2 ^ 127)
    (hdmin : den ≠ -2 ^ 127) (h0 : den ≠ 0) :
    ratFromI128 num den = some (bounded (num / den)) := by
  obtain ⟨n, d, hneg, hneg', hq, hnF, hdF, hnm, hdpos⟩ : ∃ n d, negIf 128 (den < 0) num = some n ∧
      negIf 128 (den < 0) den = some d ∧ (num : ℚ) / den = n / d ∧ Fits 128 n ∧ Fits 128 d ∧
      n ≠ -2 ^ 127 ∧ 0 < d := by
    unfold negIf
    have hnF := hn.neg hnmin
    have hdF := hd.neg hdmin
    rcases lt_or_ge den 0 with hlt | hge
    · refine ⟨-num, -den, ?_, ?_, ?_, hnF, hdF, ?_, by omega⟩
      · rw [if_pos hlt, checked_eq_some hnF]
      · rw [if_pos hlt, checked_eq_some hdF]
      · push_cast
        rw [neg_div_neg_eq]
      · have := hn.2
        omega
    · refine ⟨num, den, if_neg (by omega), if_neg (by omega), rfl, hn, hd, hnmin, by omega⟩
  obtain ⟨a, g, ha, hgcd, hnum, hden⟩ := reduce128_eq hnF hnm hdF hdpos
  simp only [ratFromI128, hneg, hneg', ha, hgcd, hnum, hden, Option.bind_eq_bind,
    Option.bind_some, hq, bounded]
  have hden0 : 0 < ((n : ℚ) / d).den := Rat.den_pos _
  by_cases hfit : Fits 64 ((n : ℚ) / d).num ∧ Fits 64 (((n : ℚ) / d).den : ℤ)
  · have hin := hfit
    obtain ⟨⟨h1, h2⟩, -, h3⟩ := hin
    rw [if_neg (by omega), if_pos hfit, makeRational_eq hfit.1 hfit.2 (by omega),
      if_neg (by omega)]
    rw [Int.cast_natCast, Rat.num_div_den]
    rfl
  · rw [if_neg hfit, if_pos]
    · rfl
    · by_contra hin
      apply hfit
      constructor <;> constructor <;> omega

end Reduced

/-! ## The operations -/

/-- Products of two `int64` stay below half of the range of `__int128`. -/
theorem natAbs_mul_le {a b : ℤ} (ha : Fits 64 a) (hb : Fits 64 b) :
    (a * b).natAbs ≤ 2 ^ 126 := by
  obtain ⟨ha1, ha2⟩ := ha
  obtain ⟨hb1, hb2⟩ := hb
  rw [Int.natAbs_mul]
  calc a.natAbs * b.natAbs ≤ 2 ^ 63 * 2 ^ 63 := Nat.mul_le_mul (by omega) (by omega)
    _ = 2 ^ 126 := by norm_num

/-- With a positive factor the bound is not reached. -/
theorem natAbs_mul_lt {a b : ℤ} (ha : Fits 64 a) (hb : Fits 64 b) (hpos : 0 < b) :
    (a * b).natAbs < 2 ^ 126 := by
  obtain ⟨ha1, ha2⟩ := ha
  obtain ⟨hb1, hb2⟩ := hb
  rw [Int.natAbs_mul]
  calc a.natAbs * b.natAbs ≤ 2 ^ 63 * (2 ^ 63 - 1) := Nat.mul_le_mul (by omega) (by omega)
    _ < 2 ^ 126 := by norm_num

theorem fits128_of_natAbs_lt {z : ℤ} (h : z.natAbs < 2 ^ 127) : Fits 128 z := by
  constructor <;> omega

section Binop

variable {a b : Exact}

/-- **No operation overflows on the way to `rat_from_i128`**, and the fraction it hands over is the
exact result. -/
theorem crossParts_eq (ha : a.InRange) (hb : b.InRange) (o : Op)
    (hdiv : ¬ (o = .div ∧ b.value = 0)) :
    ∃ num den, crossParts o.char a.parts.1 a.parts.2 b.parts.1 b.parts.2 = some (.ok (num, den)) ∧
      num.natAbs < 2 ^ 127 ∧ den.natAbs < 2 ^ 127 ∧ den ≠ 0 ∧
      (num : ℚ) / den = o.apply a.value b.value := by
  obtain ⟨han, had, hapos⟩ := ha
  obtain ⟨hbn, hbd, hbpos⟩ := hb
  have hx := natAbs_mul_lt han hbd hbpos
  have hy := natAbs_mul_lt hbn had hapos
  have hz := natAbs_mul_lt had hbd hbpos
  have hw := natAbs_mul_le han hbn
  have hv := natAbs_mul_le had hbn
  have ha0 : (a.parts.2 : ℚ) ≠ 0 := by exact_mod_cast hapos.ne'
  have hb0 : (b.parts.2 : ℚ) ≠ 0 := by exact_mod_cast hbpos.ne'
  have hden : a.parts.2 * b.parts.2 ≠ 0 := (mul_pos hapos hbpos).ne'
  simp only [Exact.value] at hdiv ⊢
  generalize a.parts.1 = an at *
  generalize a.parts.2 = ad at *
  generalize b.parts.1 = bn at *
  generalize b.parts.2 = bd at *
  have hxc := checked_eq_some (fits128_of_natAbs_lt (hx.trans (by norm_num)))
  have hyc := checked_eq_some (fits128_of_natAbs_lt (hy.trans (by norm_num)))
  have hzc := checked_eq_some (fits128_of_natAbs_lt (hz.trans (by norm_num)))
  cases o with
  | add =>
    have hsum : (an * bd + bn * ad).natAbs < 2 ^ 127 := by omega
    refine ⟨an * bd + bn * ad, ad * bd, ?_, hsum, hz.trans (by norm_num), hden, ?_⟩
    · simp only [crossParts, Op.char, hxc, hyc, hzc, Option.bind_eq_bind, Option.bind_some,
        checked_eq_some (fits128_of_natAbs_lt hsum)]
      rfl
    · push_cast
      simp only [Op.apply]
      field_simp
  | sub =>
    have hsum : (an * bd - bn * ad).natAbs < 2 ^ 127 := by omega
    refine ⟨an * bd - bn * ad, ad * bd, ?_, hsum, hz.trans (by norm_num), hden, ?_⟩
    · simp only [crossParts, Op.char, hxc, hyc, hzc, Option.bind_eq_bind, Option.bind_some,
        checked_eq_some (fits128_of_natAbs_lt hsum)]
      rfl
    · push_cast
      simp only [Op.apply]
      field_simp
  | mul =>
    have hprod : (an * bn).natAbs < 2 ^ 127 := by omega
    refine ⟨an * bn, ad * bd, ?_, hprod, hz.trans (by norm_num), hden, ?_⟩
    · simp only [crossParts, Op.char, hzc, Option.bind_eq_bind, Option.bind_some,
        checked_eq_some (fits128_of_natAbs_lt hprod)]
      rfl
    · push_cast
      simp only [Op.apply]
      field_simp
  | div =>
    have hbn0 : bn ≠ 0 := by
      rintro rfl
      exact hdiv ⟨rfl, by simp⟩
    have hbnq : (bn : ℚ) ≠ 0 := by exact_mod_cast hbn0
    have hprod : (ad * bn).natAbs < 2 ^ 127 := by omega
    refine ⟨an * bd, ad * bn, ?_, hx.trans (by norm_num), hprod,
      mul_ne_zero hapos.ne' hbn0, ?_⟩
    · simp only [crossParts, Op.char, if_neg hbn0, hxc, Option.bind_eq_bind, Option.bind_some,
        checked_eq_some (fits128_of_natAbs_lt hprod)]
      rfl
    · push_cast
      simp only [Op.apply]
      field_simp

/-- `rat_binop` gives the exact result. -/
theorem ratBinop_eq (ha : a.InRange) (hb : b.InRange) (o : Op) :
    ratBinop o.char a b = some (exactResult o a.value b.value) := by
  rw [exactResult]
  by_cases hdiv : o = .div ∧ b.value = 0
  · obtain ⟨rfl, hzero⟩ := hdiv
    have hbn : b.parts.1 = 0 := by
      have hpos : (b.parts.2 : ℚ) ≠ 0 := by exact_mod_cast hb.pos.ne'
      simpa [Exact.value, hpos] using hzero
    rw [if_pos ⟨rfl, hzero⟩, ratBinop, hbn]
    rfl
  · obtain ⟨num, den, hparts, hn, hd, h0, hq⟩ := crossParts_eq ha hb o hdiv
    have hmin : ∀ z : ℤ, z.natAbs < 2 ^ 127 → z ≠ -2 ^ 127 := by
      rintro z hz rfl
      exact absurd hz (by decide)
    rw [if_neg hdiv, ratBinop, hparts, Option.bind_some, ← bounded, ← hq]
    exact ratFromI128_eq (fits128_of_natAbs_lt hn) (fits128_of_natAbs_lt hd) (hmin num hn)
      (hmin den hd) h0

end Binop

/-! ## What can be built -/

theorem wellFormed_ofRat {q : ℚ} (hn : Fits 64 q.num) (hd : Fits 64 q.den) :
    (Exact.ofRat q).WellFormed := by
  unfold Exact.ofRat
  split
  · rename_i h
    exact h.2
  · rename_i h
    exact ⟨hn, hd, by exact_mod_cast q.den_pos, q.reduced, h⟩

/-- Reducing a fraction of `int64` gives one. -/
theorem fits_reduced {num den : ℤ} (hn : Fits 64 num) (hd : Fits 64 den)
    (hmin : ¬ (den < 0 ∧ (den = -2 ^ 63 ∨ num = -2 ^ 63))) (h0 : den ≠ 0) :
    Fits 64 ((num : ℚ) / den).num ∧ Fits 64 (((num : ℚ) / den).den : ℤ) := by
  have hpos : ∀ {n d : ℤ}, Fits 64 n → Fits 64 d → 0 < d →
      Fits 64 ((n : ℚ) / d).num ∧ Fits 64 (((n : ℚ) / d).den : ℤ) := by
    intro n d hn hd hpos
    obtain ⟨hnum, hden⟩ := div_gcd n hpos
    rw [← hnum, ← hden]
    exact ⟨hn.tdiv (gcd_pos n hpos), hd.tdiv (gcd_pos n hpos)⟩
  rcases lt_or_ge den 0 with hlt | hge
  · have hq : (num : ℚ) / den = (-num : ℤ) / (-den : ℤ) := by
      push_cast
      rw [neg_div_neg_eq]
    rw [hq]
    exact hpos (hn.neg fun h => hmin ⟨hlt, .inr h⟩) (hd.neg fun h => hmin ⟨hlt, .inl h⟩) (by omega)
  · exact hpos hn hd (by omega)

theorem wellFormed_makeRational {num den : ℤ} {v : Exact} (hn : Fits 64 num) (hd : Fits 64 den)
    (h : makeRational num den = some (some v)) : v.WellFormed := by
  have h0 : den ≠ 0 := by
    rintro rfl
    cases h
  rw [makeRational_eq hn hd h0] at h
  split at h
  · cases h
  · rename_i hmin
    obtain ⟨hqn, hqd⟩ := fits_reduced hn hd hmin h0
    obtain rfl := Option.some.inj (Option.some.inj h)
    exact wellFormed_ofRat hqn hqd

theorem wellFormed_bounded {q : ℚ} {v : Exact} (h : bounded q = .ok (some v)) : v.WellFormed := by
  unfold bounded at h
  split at h
  · rename_i hfit
    obtain rfl := Option.some.inj (Except.ok.inj h)
    exact wellFormed_ofRat hfit.1 hfit.2
  · cases h

theorem checked_neg_min : checked 128 (-(-2 ^ 127)) = none := if_neg (by decide)

/-- A run of `rat_from_i128` with a defined result negates no least value. -/
theorem wellFormed_ratFromI128 {num den : ℤ} {v : Exact} (hn : Fits 128 num) (hd : Fits 128 den)
    (h0 : den ≠ 0) (h : ratFromI128 num den = some (.ok (some v))) : v.WellFormed := by
  have hdmin : den ≠ -2 ^ 127 := by
    rintro rfl
    have hnone : negIf 128 ((-2 ^ 127 : ℤ) < 0) (-2 ^ 127) = none := checked_neg_min
    simp only [ratFromI128, hnone, Option.bind_eq_bind, Option.bind_none] at h
    cases hx : negIf 128 ((-2 ^ 127 : ℤ) < 0) num <;> rw [hx] at h <;> cases h
  have hnmin : num ≠ -2 ^ 127 := by
    rintro rfl
    by_cases hlt : den < 0
    · have hnone : negIf 128 (den < 0) (-2 ^ 127) = none := by
        rw [negIf, if_pos hlt, checked_neg_min]
      simp only [ratFromI128, hnone, Option.bind_eq_bind, Option.bind_none] at h
      cases h
    · have hsame : ∀ z, negIf 128 (den < 0) z = some z := fun z => if_neg hlt
      have hnone : negIf 128 ((-2 ^ 127 : ℤ) < 0) (-2 ^ 127) = none := checked_neg_min
      simp only [ratFromI128, hsame, hnone, Option.bind_eq_bind, Option.bind_some,
        Option.bind_none] at h
      cases h
  rw [ratFromI128_eq hn hd hnmin hdmin h0] at h
  exact wellFormed_bounded (Option.some.inj h)

theorem Exact.WellFormed.inRange {v : Exact} (h : v.WellFormed) : v.InRange := by
  cases v with
  | fix n =>
    obtain ⟨h1, h2⟩ := h
    have hone : Fits 64 1 := by decide
    have hn : Fits 64 n := by constructor <;> omega
    exact ⟨hn, hone, Int.one_pos⟩
  | rat num den => exact ⟨h.1, h.2.1, h.2.2.1⟩

theorem wellFormed_ratBinop {op : Char} {a b v : Exact} (ha : a.InRange) (hb : b.InRange)
    (h : ratBinop op a b = some (.ok (some v))) : v.WellFormed := by
  by_cases hop : ∃ o : Op, o.char = op
  · obtain ⟨o, rfl⟩ := hop
    rw [ratBinop_eq ha hb, exactResult] at h
    split at h
    · cases h
    · exact wellFormed_bounded (Option.some.inj h)
  · -- any other character is reported as an overflow
    have hcross : ∀ an ad bn bd, crossParts op an ad bn bd = some (.error .overflow) := by
      intro an ad bn bd
      unfold crossParts
      split
      · exact absurd ⟨.add, rfl⟩ hop
      · exact absurd ⟨.sub, rfl⟩ hop
      · exact absurd ⟨.mul, rfl⟩ hop
      · exact absurd ⟨.div, rfl⟩ hop
      · rfl
    rw [ratBinop, hcross] at h
    cases h

/-- **Every value that the operations build is in lowest terms.** -/
theorem Built.wellFormed {v : Exact} (h : Built v) : v.WellFormed := by
  induction h with
  | fix h => exact h
  | makeRational hn hd h => exact wellFormed_makeRational hn hd h
  | ratFromI128 hn hd h0 h => exact wellFormed_ratFromI128 hn hd h0 h
  | ratBinop _ _ h iha ihb => exact wellFormed_ratBinop iha.inRange ihb.inRange h

/-- **The rational tower is exact.** Whatever sequence of operations built it, a value is in lowest
terms and an integer that fits the tag is a fixnum; and `rat_binop`, on any components with positive
denominators, computes without overflow and gives the exact result, or reports `divzero` for a
zero divisor, or `overflow` when the reduced result does not fit. -/
theorem rational_exact :
    (∀ v, Built v → v.WellFormed) ∧
      ∀ (o : Op) (a b : Exact), a.InRange → b.InRange →
        ratBinop o.char a b = some (exactResult o a.value b.value) :=
  ⟨fun _ h => h.wellFormed, fun o _ _ ha hb => ratBinop_eq ha hb o⟩

/-- One half and one third make five sixths. -/
theorem rational_exact_halves :
    ratBinop '+' (.rat 1 2) (.rat 1 3) = some (.ok (some (.rat 5 6))) := by
  have ha : Exact.InRange (.rat 1 2) := ⟨by decide, by decide, by decide⟩
  have hb : Exact.InRange (.rat 1 3) := ⟨by decide, by decide, by decide⟩
  have hres : exactResult .add (Exact.rat 1 2).value (Exact.rat 1 3).value =
      .ok (some (.rat 5 6)) := by decide +kernel
  rw [← hres]
  exact rational_exact.2 .add _ _ ha hb

end Alcove.Numeric
