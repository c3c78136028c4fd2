import Alcove.Numeric.Decimal
import Alcove.Numeric.Rational
import Mathlib.Algebra.Order.Field.Basic

/-!
# The folds of `+`, `-`, `*` and `/`

The builtins that `MATH_CMD` defines, on evaluated fixnums, rationals and decimals. A fold keeps its
total in an `int64` as long as the operands are fixnums; the first rational or decimal hands the
total over to `tower_fold` or `decimal_fold`, which take the operands that are left. `mathCmd` is
translated from `alcove.c` and `numeric.h`; `leftFold` applies the binary operation one operand at
a time.

**Main result:** `fold_exact_iff`. A value that a fold returns is the one of the left fold if and only
if the total that is handed over to `tower_fold` fits the tag of a fixnum, and no division after
that leaves a remainder between two fixnums. Otherwise it is another one (`fold_differs`): `MAKE_FIX`
drops the upper bits of the total, and `tower_fold` divides a total that is a fixnum exactly.
-/

namespace Alcove.Numeric

open Lib

/-! ## Decimal operations -/

/-- What `over` reports. -/
inductive DecErr
  | overflow
  | divzero
  deriving DecidableEq

/-- `dec_align`; the inner `none` is the overflow it reports. -/
def decAlign (a b : ℤ × ℤ) : Option (Option (ℤ × ℤ × ℤ)) := do
  let s := max a.2 b.2
  let pa ← decPow10 (s - a.2).toNat
  match checked 128 (a.1 * pa) with
  | none => return none
  | some ca =>
    let pb ← decPow10 (s - b.2).toNat
    return (checked 128 (b.1 * pb)).map fun cb => (ca, cb, s)

/-- A decimal that `make_decimal_raw` built, or the overflow it reported. -/
def decResult : Option (ℤ × ℤ) → Except DecErr (ℤ × ℤ)
  | some d => .ok d
  | none => .error .overflow

/-- `dec_addsub` -/
def decAddsub (a b : ℤ × ℤ) (sub : Bool) : Option (Except DecErr (ℤ × ℤ)) := do
  match ← decAlign a b with
  | none => return .error .overflow
  | some (ca, cb, s) =>
    match checked 128 (if sub then ca - cb else ca + cb) with
    | none => return .error .overflow
    | some r => decResult <$> makeDecimalRaw r s

/-- `dec_mul` -/
def decMul (a b : ℤ × ℤ) : Option (Except DecErr (ℤ × ℤ)) :=
  match checked 128 (a.1 * b.1) with
  | none => some (.error .overflow)
  | some r => decResult <$> makeDecimalRaw r (a.2 + b.2)

/-- The long division of `dec_div`, for at most so many further digits; `none` is an overflow that is
noticed. -/
def decDigits (d : ℤ) : ℕ → ℤ → ℤ → Option (ℤ × ℤ × ℕ)
  | 0, q, rem => some (q, rem, 0)
  | n + 1, q, rem =>
    if rem = 0 then some (q, rem, n + 1)
    else do
      let q10 ← checked 128 (q * 10)
      let rem10 ← checked 128 (rem * 10)
      let qNew ← checked 128 (q10 + rem10.tdiv d)
      decDigits d n qNew (rem10.tmod d)

/-- `dec_div` -/
def decDiv (a b : ℤ × ℤ) : Option (Except DecErr (ℤ × ℤ)) :=
  if b.1 = 0 then some (.error .divzero)
  else do
    let pb ← decPow10 b.2.toNat
    match checked 128 (a.1 * pb) with
    | none => return .error .overflow
    | some N =>
      let pa ← decPow10 a.2.toNat
      match checked 128 (b.1 * pa) with
      | none => return .error .overflow
      | some D =>
        let n ← negIf 128 (N < 0) N
        let d ← negIf 128 (D < 0) D
        let q ← checkedDiv 128 n d
        let rem ← checkedMod 128 n d
        match decDigits d decMaxScale.toNat q rem with
        | none => return .error .overflow
        | some (q, rem, left) =>
          let q ← if rem ≠ 0 ∧ d - rem ≤ rem then checked 128 (q + 1) else some q
          let coef ← negIf 128 ((N < 0) ≠ (D < 0)) q
          decResult <$> makeDecimalRaw coef (decMaxScale - left)

/-- `dec_binop` -/
def decBinop (o : Op) (a b : ℤ × ℤ) : Option (Except DecErr (ℤ × ℤ)) :=
  match o with
  | .add => decAddsub a b false
  | .sub => decAddsub a b true
  | .mul => decMul a b
  | .div => decDiv a b

/-! ## The folds of the source -/

/-- A number that is no float. -/
inductive Number
  | exact (e : Exact)
  | dec (coef scale : ℤ)
  deriving DecidableEq

/-- The errors of the folds. -/
inductive FoldError
  | divBy0
  | integerOverflow
  | exactOverflow
  | exactOverflowNoBignum
  | decimalOverflow
  | decimalMix
  | illegalValue
  | missingParameter (isSub : Bool)
  deriving DecidableEq

/-- The text of the error. -/
def FoldError.message : FoldError → String
  | divBy0 => "Illegal division by 0"
  | integerOverflow => "integer overflow (no implicit float; use a float, rational, or decimal)"
  | exactOverflow => "exact arithmetic overflow"
  | exactOverflowNoBignum => "exact arithmetic overflow (no bignum; use float for inexact)"
  | decimalOverflow => "decimal overflow (exceeds 28 significant digits)"
  | decimalMix => "decimal does not combine with float or rational (convert explicitly)"
  | illegalValue => "Illegal value in operation"
  | missingParameter isSub =>
    if isSub then "(- a ...): needs at least one argument"
    else "(/ a ...): needs at least one argument"

/-- `dec_err` -/
def decErr : DecErr → FoldError
  | .divzero => .divBy0
  | .overflow => .decimalOverflow

/-- `fix_op_ovf`; the inner `none` is the overflow it reports. -/
def fixOpOvf (o : Op) (acc b : ℤ) : Option (Option ℤ) :=
  match o with
  | .add => some (checked 64 (acc + b))
  | .sub => some (checked 64 (acc - b))
  | .mul => some (checked 64 (acc * b))
  | .div => if acc = -2 ^ 63 ∧ b = -1 then some none else some <$> checkedDiv 64 acc b

/-- `FIX_VAL (MAKE_FIX (v))`: the tag takes three of the 64 bits. -/
def makeFixnum (v : ℤ) : Exact := .fix (wrap 61 v)

/-- A call of `rat_binop`, with the error that its reason stands for. A `NULL` without a reason would
be dereferenced. -/
def exactStep (o : Op) (overflow : FoldError) (a b : Exact) : Option (Except FoldError Exact) :=
  (ratBinop o.char a b).bind fun
    | .error .divzero => some (.error .divBy0)
    | .error .overflow => some (.error overflow)
    | .ok (some r) => some (.ok r)
    | .ok none => none

/-- A call of `dec_binop`. -/
def decStep (o : Op) (a b : ℤ × ℤ) : Option (Except FoldError (ℤ × ℤ)) :=
  (decBinop o a b).map fun r => r.mapError decErr

/-- One operand is negated or inverted at the end of `tower_fold`. -/
def unaryExact (acc : Exact) : Op → Option (Except FoldError Number)
  | .sub => (exactStep .sub .exactOverflow (.fix 0) acc).map fun r => r.map .exact
  | .div => (exactStep .div .exactOverflow (.fix 1) acc).map fun r => r.map .exact
  | .add => some (.ok (.exact acc))
  | .mul => some (.ok (.exact acc))

/-- `tower_fold`, on operands that are no floats -/
def towerFold (o : Op) : ℕ → Exact → List Number → Option (Except FoldError Number)
  | count, acc, [] => if count = 1 then unaryExact acc o else some (.ok (.exact acc))
  | count, acc, .exact w :: rest =>
    (exactStep o .exactOverflowNoBignum acc w).bind fun
      | .error e => some (.error e)
      | .ok r => towerFold o (count + 1) r rest
  | _, _, .dec _ _ :: _ => some (.error .illegalValue)

/-- `make_decimal_raw` of an integer. -/
def decOfInt (n : ℤ) : Option (ℤ × ℤ) := (makeDecimalRaw n 0).bind id

/-- One operand is negated or inverted at the end of `decimal_fold`. -/
def unaryDecimal (acc : ℤ × ℤ) : Op → Option (Except FoldError Number)
  | .sub => do
    let neg ← checked 128 (-acc.1)
    let r ← makeDecimalRaw neg acc.2
    return match r with
      | some d => .ok (.dec d.1 d.2)
      | none => .error .decimalOverflow
  | .div => do
    let one ← decOfInt 1
    let r ← decStep .div one acc
    return r.map fun d => .dec d.1 d.2
  | .add => some (.ok (.dec acc.1 acc.2))
  | .mul => some (.ok (.dec acc.1 acc.2))

/-- `decimal_fold`, on operands that are no floats -/
def decimalFold (o : Op) : ℕ → ℤ × ℤ → List Number → Option (Except FoldError Number)
  | count, acc, [] => if count = 1 then unaryDecimal acc o else some (.ok (.dec acc.1 acc.2))
  | _, _, .exact (.rat _ _) :: _ => some (.error .decimalMix)
  | count, acc, .exact (.fix n) :: rest =>
    (decOfInt n).bind fun wd => (decStep o acc wd).bind fun
      | .error e => some (.error e)
      | .ok r => decimalFold o (count + 1) r rest
  | count, acc, .dec c s :: rest =>
    (decStep o acc (c, s)).bind fun
      | .error e => some (.error e)
      | .ok r => decimalFold o (count + 1) r rest

/-- The end of the loop of `MATH_CMD`, after `i` fixnums. -/
def mathEnd (o : Op) (i : ℕ) (sum : ℤ) : Except FoldError Number :=
  let fitting (n : ℤ) : Except FoldError Number :=
    if FixFits n then .ok (.exact (.fix n)) else .error .integerOverflow
  if i = 0 ∧ (o = .sub ∨ o = .div) then .error (.missingParameter (o = .sub))
  else if i = 1 ∧ o = .sub then
    if Fits 64 (-sum) then fitting (-sum) else .error .integerOverflow
  else if i = 1 ∧ o = .div then
    if sum = 0 then .error .divBy0 else fitting ((1 : ℤ).tdiv sum)
  else fitting sum

/-- The loop of `MATH_CMD`, before any float: `i` operands are in `sum`. -/
def mathLoop (o : Op) : ℕ → ℤ → List Number → Option (Except FoldError Number)
  | i, sum, [] => some (mathEnd o i sum)
  | i, sum, .exact (.fix n) :: rest =>
    if o = .div ∧ 0 < i ∧ n = 0 then some (.error .divBy0)
    -- `i > 1 || init_i != 0`, where `i` counts this operand
    else if 0 < i ∨ o = .mul then
      (fixOpOvf o sum n).bind fun
        | none => some (.error .integerOverflow)
        | some sum => mathLoop o (i + 1) sum rest
    else mathLoop o (i + 1) n rest
  | i, sum, .exact (.rat num den) :: rest =>
    if i = 0 then towerFold o 1 (.rat num den) rest
    else
      (exactStep o .exactOverflow (makeFixnum sum) (.rat num den)).bind fun
        | .error e => some (.error e)
        | .ok acc => towerFold o (i + 1) acc rest
  | i, sum, .dec c s :: rest =>
    if i = 0 then decimalFold o 1 (c, s) rest
    else
      (decOfInt sum).bind fun si => (decStep o si (c, s)).bind fun
        | .error e => some (.error e)
        | .ok acc => decimalFold o (i + 1) acc rest

/-- `pluscmd`, `minuscmd`, `multiplycmd` and `dividecmd` -/
def mathCmd (o : Op) (args : List Number) : Option (Except FoldError Number) :=
  mathLoop o 0 (if o = .mul then 1 else 0) args

/-! ## The left fold -/

/-- An operation on two whole numbers; division truncates. -/
def wholeOp (o : Op) (m n : ℤ) : Option ℤ :=
  match o with
  | .add => some (m + n)
  | .sub => some (m - n)
  | .mul => some (m * n)
  | .div => if n = 0 then none else some (m.tdiv n)

/-- The binary operation: exact, but for the quotient of two fixnums, which truncates, and for
decimals. The outer `none` is where `dec_binop` is undefined, the inner one where there is no
result. -/
def binary (o : Op) : Number → Number → Option (Option Number)
  | .exact (.fix m), .exact (.fix n) => some ((wholeOp o m n).map fun r => .exact (.fix r))
  | .exact a, .exact b =>
    some (if o = .div ∧ b.value = 0 then none
      else some (.exact (.ofRat (o.apply a.value b.value))))
  | .exact (.fix n), .dec c s => dec (n, 0) (c, s)
  | .dec c s, .exact (.fix n) => dec (c, s) (n, 0)
  | .dec c s, .dec c' s' => dec (c, s) (c', s')
  | _, _ => some none
where
  dec (a b : ℤ × ℤ) : Option (Option Number) :=
    (decBinop o a b).map fun r => r.toOption.map fun d => .dec d.1 d.2

/-- The operands are combined with a total one by one. -/
def foldFrom (o : Op) : Number → List Number → Option (Option Number)
  | total, [] => some (some total)
  | total, v :: rest => (binary o total v).bind fun
    | none => some none
    | some total => foldFrom o total rest

/-- One operand is subtracted from zero or divides one. -/
def unary (v : Number) : Op → Option (Option Number)
  | .sub => binary .sub (.exact (.fix 0)) v
  | .div => binary .div (.exact (.fix 1)) v
  | .add => some (some v)
  | .mul => some (some v)

/-- The left fold. -/
def leftFold (o : Op) : List Number → Option (Option Number)
  | [] => some none
  | [v] => unary v o
  | v :: w :: rest => foldFrom o v (w :: rest)

/-- Two numbers of one kind with the same value. -/
def Number.Same : Number → Number → Prop
  | .exact a, .exact b => a.value = b.value
  | .dec c s, .dec c' s' => c = c' ∧ s = s'
  | _, _ => False

/-- The value is the one of the left fold. -/
def IsFold (o : Op) (args : List Number) (v : Number) : Prop :=
  ∃ total, leftFold o args = some (some total) ∧ v.Same total

/-- No fixnum is divided by a fixnum with a remainder. -/
def NoRemainder : Number → List Number → Prop
  | _, [] => True
  | total, v :: rest =>
    (∀ m n, total = .exact (.fix m) → v = .exact (.fix n) → n ∣ m) ∧
      ∀ total', binary .div total v = some (some total') → NoRemainder total' rest

/-- The operands combined from the left, one at least. -/
def foldAll (o : Op) : List Number → Option (Option Number)
  | [] => some none
  | v :: rest => foldFrom o v rest

/-- Fixnums as operands. -/
def fixnums (ns : List ℤ) : List Number := ns.map fun n => .exact (.fix n)

/-- Of the fixnums before the first rational the total fits the tag, or a factor zero follows; and
from this rational on no division leaves a remainder between two fixnums. -/
def HandsOver (o : Op) (args : List Number) : Prop :=
  ∀ (first : List ℤ) (num den : ℤ) (rest : List Number),
    args = fixnums first ++ .exact (.rat num den) :: rest →
      ((∀ n, foldAll o (fixnums first) = some (some (.exact (.fix n))) → FixFits n) ∨
          (o = .mul ∧ .exact (.fix 0) ∈ rest)) ∧
        (o = .div → ∀ t, foldAll o (fixnums first ++ [.exact (.rat num den)]) = some (some t) →
          NoRemainder t rest)

/-- A well-formed operand. -/
def Number.WellFormed : Number → Prop
  | .exact e => e.WellFormed
  | .dec c s => DecimalNormal c s

/-! ## One exact step -/

@[simp]
theorem value_fix (n : ℤ) : (Exact.fix n).value = n := by simp [Exact.value, Exact.parts]

@[simp]
theorem value_ofRat (q : ℚ) : (Exact.ofRat q).value = q := by
  rw [Exact.ofRat]
  split
  · rename_i h
    have hden : q.den = 1 := by exact_mod_cast h.1
    rw [value_fix]
    exact Rat.coe_int_num_of_den_eq_one hden
  · show (q.num : ℚ) / ((q.den : ℤ) : ℚ) = q
    rw [Int.cast_natCast, Rat.num_div_den]

theorem inRange_ofRat {q : ℚ} (hn : Fits 64 q.num) (hd : Fits 64 q.den) :
    (Exact.ofRat q).InRange := (wellFormed_ofRat hn hd).inRange

section Step

variable {o : Op} {overflow : FoldError} {a b r : Exact}

/-- What a call of `rat_binop` gives. -/
theorem exactStep_eq (ha : a.InRange) (hb : b.InRange) (o : Op) (overflow : FoldError) :
    exactStep o overflow a b = some (
      if o = .div ∧ b.value = 0 then .error .divBy0
      else if Fits 64 (o.apply a.value b.value).num ∧ Fits 64 (o.apply a.value b.value).den then
        .ok (.ofRat (o.apply a.value b.value))
      else .error overflow) := by
  rw [exactStep, ratBinop_eq ha hb, exactResult]
  split
  · rfl
  · split <;> rfl

theorem exactStep_ok (ha : a.InRange) (hb : b.InRange)
    (h : exactStep o overflow a b = some (.ok r)) :
    r.InRange ∧ r = .ofRat (o.apply a.value b.value) ∧ (o = .div → b.value ≠ 0) := by
  rw [exactStep_eq ha hb] at h
  split at h
  · cases h
  · rename_i hdiv
    split at h
    · rename_i hfit
      cases h
      exact ⟨inRange_ofRat hfit.1 hfit.2, rfl, fun ho hb => hdiv ⟨ho, hb⟩⟩
    · cases h

theorem exactStep_ne_none (ha : a.InRange) (hb : b.InRange) : exactStep o overflow a b ≠ none := by
  rw [exactStep_eq ha hb]
  exact Option.some_ne_none _

end Step

/-! ## The rational fold -/

/-- The rational number that a number stands for. -/
def Number.value : Number → ℚ
  | .exact e => e.value
  | .dec c s => c / 10 ^ s.toNat

/-- The fold over the rational numbers. -/
def ratFold (o : Op) (q : ℚ) (rest : List Number) : ℚ :=
  rest.foldl (fun q v => o.apply q v.value) q

/-- Operands that the rational fold accepts. -/
def Accepted (o : Op) (rest : List Number) : Prop :=
  ∀ v ∈ rest, ∃ b, v = .exact b ∧ b.WellFormed ∧ (o = .div → b.value ≠ 0)

section Tower

variable {o : Op} {rest : List Number} {acc : Exact} {count : ℕ} {v : Number}

theorem Accepted.tail (h : Accepted o (v :: rest)) : Accepted o rest :=
  fun w hw => h w (List.mem_cons_of_mem v hw)

/-- **`tower_fold` folds over the rational numbers**, where it returns a value. -/
theorem towerFold_ok (hacc : acc.InRange) (hwf : ∀ w ∈ rest, w.WellFormed)
    (hcount : 2 ≤ count + rest.length) (h : towerFold o count acc rest = some (.ok v)) :
    Accepted o rest ∧ ∃ e, v = .exact e ∧ e.value = ratFold o acc.value rest := by
  induction rest generalizing acc count with
  | nil =>
    have hne : count ≠ 1 := by
      rw [List.length_nil] at hcount
      omega
    rw [towerFold, if_neg hne] at h
    cases h
    exact ⟨by simp [Accepted], acc, rfl, rfl⟩
  | cons w rest ih =>
    cases w with
    | dec c s => cases h
    | exact b =>
      have hb : b.WellFormed := hwf _ List.mem_cons_self
      rw [towerFold, Option.bind_eq_some_iff] at h
      obtain ⟨r, hr, hrest⟩ := h
      cases r with
      | error e => cases hrest
      | ok r =>
        obtain ⟨hrange, rfl, hdiv⟩ := exactStep_ok hacc hb.inRange hr
        rw [List.length_cons] at hcount
        obtain ⟨hacc', e, rfl, he⟩ := ih hrange (fun w hw => hwf w (List.mem_cons_of_mem _ hw))
          (by omega) hrest
        refine ⟨fun w hw => ?_, e, rfl, ?_⟩
        · rcases List.mem_cons.mp hw with rfl | hw
          · exact ⟨b, rfl, hb, hdiv⟩
          · exact hacc' w hw
        · rw [he, value_ofRat]
          rfl

/-- `tower_fold` is defined. -/
theorem towerFold_ne_none (hacc : acc.InRange) (hwf : ∀ w ∈ rest, w.WellFormed) :
    towerFold o count acc rest ≠ none := by
  induction rest generalizing acc count with
  | nil =>
    have h0 : Exact.InRange (.fix 0) := ⟨by decide, by decide, by decide⟩
    have h1 : Exact.InRange (.fix 1) := ⟨by decide, by decide, by decide⟩
    rw [towerFold]
    split
    · cases o with
      | sub =>
        rw [unaryExact, exactStep_eq h0 hacc]
        exact Option.some_ne_none _
      | div =>
        rw [unaryExact, exactStep_eq h1 hacc]
        exact Option.some_ne_none _
      | add => exact Option.some_ne_none _
      | mul => exact Option.some_ne_none _
    · exact Option.some_ne_none _
  | cons w rest ih =>
    cases w with
    | dec c s => exact Option.some_ne_none _
    | exact b =>
      have hb : b.WellFormed := hwf _ List.mem_cons_self
      intro h
      rw [towerFold, Option.bind_eq_none_iff] at h
      cases hr : exactStep o .exactOverflowNoBignum acc b with
      | none => exact exactStep_ne_none hacc hb.inRange hr
      | some r =>
        cases r with
        | error e => cases h _ hr
        | ok r =>
          exact ih (exactStep_ok hacc hb.inRange hr).1
            (fun w hw => hwf w (List.mem_cons_of_mem _ hw)) (h _ hr)

end Tower

/-! ## The binary operation and the rational numbers -/

section Quotient

variable {m n : ℤ}

/-- A truncated quotient is at most as far from zero as the exact one. -/
theorem abs_tdiv_le (m : ℤ) (hn : n ≠ 0) : |((m.tdiv n : ℤ) : ℚ)| ≤ |(m : ℚ) / n| := by
  have hpos : (0 : ℚ) < |(n : ℚ)| := abs_pos.mpr (by exact_mod_cast hn)
  have hle : |m.tdiv n| * |n| ≤ |m| := by
    rw [Int.abs_eq_natAbs, Int.abs_eq_natAbs, Int.abs_eq_natAbs, Int.natAbs_tdiv]
    exact_mod_cast Nat.div_mul_le_self _ _
  rw [abs_div, le_div_iff₀ hpos]
  exact_mod_cast hle

/-- It is nearer to zero when there is a remainder. -/
theorem abs_tdiv_lt (hn : n ≠ 0) (hm : ¬ n ∣ m) : |((m.tdiv n : ℤ) : ℚ)| < |(m : ℚ) / n| := by
  refine lt_of_le_of_ne (abs_tdiv_le m hn) fun heq => hm ?_
  have hn' : (n : ℚ) ≠ 0 := by exact_mod_cast hn
  have habs : (|m.tdiv n| * |n| : ℤ) = |m| := by
    rw [abs_div, eq_div_iff (abs_ne_zero.mpr hn')] at heq
    exact_mod_cast heq
  rw [← abs_dvd_abs, ← habs]
  exact dvd_mul_left _ _

theorem cast_tdiv (hm : n ∣ m) (hn : n ≠ 0) : ((m.tdiv n : ℤ) : ℚ) = m / n := by
  have hn' : (n : ℚ) ≠ 0 := by exact_mod_cast hn
  rw [eq_div_iff hn']
  exact_mod_cast Int.tdiv_mul_cancel hm

end Quotient

/-- What there is between the result of the binary operation on exact numbers and the operation on
rational numbers. -/
structure Approximates (o : Op) (a b c : Exact) : Prop where
  eq : (o = .div → ∀ m n, a = .fix m → b = .fix n → n ∣ m) → c.value = o.apply a.value b.value
  le : o = .div → |c.value| ≤ |a.value / b.value|
  lt : ∀ m n, o = .div → a = .fix m → b = .fix n → ¬ n ∣ m → |c.value| < |a.value / b.value|

theorem Approximates.of_eq {o : Op} {a b c : Exact} (h : c.value = o.apply a.value b.value)
    (hfix : ∀ m n, o = .div → a = .fix m → b = .fix n → n ∣ m) : Approximates o a b c where
  eq := fun _ => h
  le := by
    rintro rfl
    exact (congrArg abs h).le
  lt := fun m n ho ha hb hdvd => absurd (hfix m n ho ha hb) hdvd

/-- **The binary operation on exact numbers.** -/
theorem binary_exact (o : Op) (a : Exact) {b : Exact} (hb : o = .div → b.value ≠ 0) :
    ∃ c, binary o (.exact a) (.exact b) = some (some (.exact c)) ∧ Approximates o a b c := by
  have hrat : ¬ (o = .div ∧ b.value = 0) := fun h => hb h.1 h.2
  cases a with
  | rat num den =>
    refine ⟨_, ?_, .of_eq (value_ofRat _) (by rintro m n - ⟨⟩)⟩
    rw [binary, if_neg hrat]
    all_goals simp
  | fix m =>
    cases b with
    | rat num den =>
      refine ⟨_, ?_, .of_eq (value_ofRat _) (by rintro m n - - ⟨⟩)⟩
      rw [binary, if_neg hrat]
      all_goals simp
    | fix n =>
      cases o with
      | add => exact ⟨.fix (m + n), rfl, .of_eq (by simp [Op.apply]) (by simp)⟩
      | sub => exact ⟨.fix (m - n), rfl, .of_eq (by simp [Op.apply]) (by simp)⟩
      | mul => exact ⟨.fix (m * n), rfl, .of_eq (by simp [Op.apply]) (by simp)⟩
      | div =>
        have hn : n ≠ 0 := by simpa using hb rfl
        refine ⟨.fix (m.tdiv n), by simp [binary, wholeOp, hn], fun h => ?_, fun _ => ?_, ?_⟩
        · simpa [Op.apply] using cast_tdiv (h rfl m n rfl rfl) hn
        · simpa using abs_tdiv_le m hn
        · rintro m' n' - ⟨⟩ ⟨⟩ hdvd
          simpa using abs_tdiv_lt hn hdvd

section Folds

variable {o : Op} {rest : List Number} {a : Exact} {q : ℚ}

/-- A step of the left fold on an operand that is accepted. -/
theorem foldFrom_cons {t v : Number} {t' : Number} (h : binary o t v = some (some t')) :
    foldFrom o t (v :: rest) = foldFrom o t' rest := by
  rw [foldFrom, h, Option.bind_some]

/-- **A left fold that does not divide is the one over the rational numbers.** -/
theorem foldFrom_value (ho : o ≠ .div) (hrest : Accepted o rest) (a : Exact) :
    ∃ c, foldFrom o (.exact a) rest = some (some (.exact c)) ∧ c.value = ratFold o a.value rest := by
  induction rest generalizing a with
  | nil => exact ⟨a, rfl, rfl⟩
  | cons v rest ih =>
    obtain ⟨b, rfl, -, hb⟩ := hrest v List.mem_cons_self
    obtain ⟨c, hc, happrox⟩ := binary_exact o a hb
    obtain ⟨d, hd, hvalue⟩ := ih hrest.tail c
    refine ⟨d, by rw [foldFrom_cons hc, hd], ?_⟩
    rw [hvalue, happrox.eq fun h => absurd h ho]
    rfl

/-- A total of quotients that has fallen behind the exact one stays behind it. -/
theorem foldFrom_behind (hrest : Accepted .div rest) (hle : |a.value| ≤ |q|) (hne : a.value ≠ q) :
    ∃ c, foldFrom .div (.exact a) rest = some (some (.exact c)) ∧ c.value ≠ ratFold .div q rest := by
  induction rest generalizing a q with
  | nil => exact ⟨a, rfl, hne⟩
  | cons v rest ih =>
    obtain ⟨b, rfl, -, hb⟩ := hrest v List.mem_cons_self
    obtain ⟨c, hc, happrox⟩ := binary_exact .div a hb
    have hb0 : b.value ≠ 0 := hb rfl
    have hquot : |a.value / b.value| ≤ |q / b.value| := by
      rw [abs_div, abs_div]
      exact div_le_div_of_nonneg_right hle (abs_nonneg _)
    have hcne : c.value ≠ q / b.value := by
      by_cases hex : ∀ m n, a = .fix m → b = .fix n → n ∣ m
      · rw [happrox.eq fun _ => hex]
        exact fun h => hne ((div_left_inj' hb0).mp h)
      · push Not at hex
        obtain ⟨m, n, ham, hbn, hdvd⟩ := hex
        intro h
        have hlt := happrox.lt m n rfl ham hbn hdvd
        rw [h] at hlt
        exact absurd hquot (not_le.mpr hlt)
    obtain ⟨d, hd, hvalue⟩ := ih hrest.tail ((happrox.le rfl).trans hquot) hcne
    exact ⟨d, by rw [foldFrom_cons hc, hd], hvalue⟩

/-- **The left fold of quotients is the one over the rational numbers if and only if no remainder is
lost.** -/
theorem foldFrom_div (hrest : Accepted .div rest) (a : Exact) :
    ∃ c, foldFrom .div (.exact a) rest = some (some (.exact c)) ∧
      (c.value = ratFold .div a.value rest ↔ NoRemainder (.exact a) rest) := by
  induction rest generalizing a with
  | nil => exact ⟨a, rfl, iff_of_true rfl trivial⟩
  | cons v rest ih =>
    obtain ⟨b, rfl, -, hb⟩ := hrest v List.mem_cons_self
    obtain ⟨c, hc, happrox⟩ := binary_exact .div a hb
    by_cases hex : ∀ m n, a = .fix m → b = .fix n → n ∣ m
    · obtain ⟨d, hd, hiff⟩ := ih hrest.tail c
      refine ⟨d, by rw [foldFrom_cons hc, hd], ?_⟩
      rw [happrox.eq fun _ => hex] at hiff
      refine hiff.trans ⟨fun h => ⟨?_, ?_⟩, fun h => h.2 _ hc⟩
      · rintro m n ⟨⟩ ⟨⟩
        exact hex m n rfl rfl
      · intro t ht
        rw [hc] at ht
        cases ht
        exact h
    · push Not at hex
      obtain ⟨m, n, rfl, rfl, hdvd⟩ := hex
      have hlt := happrox.lt m n rfl rfl rfl hdvd
      obtain ⟨d, hd, hne⟩ := foldFrom_behind hrest.tail (happrox.le rfl)
        (fun h => absurd (congrArg abs h) (ne_of_lt hlt))
      exact ⟨d, by rw [foldFrom_cons hc, hd],
        iff_of_false hne fun h => hdvd (h.1 m n rfl rfl)⟩

/-- Two totals are told apart by an operand, but by a factor zero. -/
theorem apply_eq_iff {p q x : ℚ} (hx : o = .div → x ≠ 0) :
    o.apply p x = o.apply q x ↔ p = q ∨ (o = .mul ∧ x = 0) := by
  cases o with
  | add => simp [Op.apply]
  | sub => simp [Op.apply]
  | mul => simp [Op.apply]
  | div => simp [Op.apply, div_left_inj' (hx rfl)]

/-- Zero is a fixnum. -/
theorem value_eq_zero {b : Exact} (hb : b.WellFormed) : b.value = 0 ↔ b = .fix 0 := by
  cases b with
  | fix n => simp
  | rat num den =>
    obtain ⟨-, -, hpos, hgcd, hfix⟩ := hb
    have hden : (den : ℚ) ≠ 0 := by exact_mod_cast hpos.ne'
    refine iff_of_false ?_ (by rintro ⟨⟩)
    rw [Exact.value, Exact.parts, div_eq_zero_iff, not_or]
    refine ⟨fun hzero => hfix ?_, hden⟩
    obtain rfl : num = 0 := by exact_mod_cast hzero
    rw [Int.gcd_zero_left] at hgcd
    exact ⟨by omega, by decide⟩

/-- Two totals are told apart by a fold, but by a factor zero. -/
theorem ratFold_eq_iff {p : ℚ} (hrest : Accepted o rest) :
    ratFold o p rest = ratFold o q rest ↔ p = q ∨ (o = .mul ∧ .exact (.fix 0) ∈ rest) := by
  induction rest generalizing p q with
  | nil => simp [ratFold]
  | cons v rest ih =>
    obtain ⟨b, rfl, hwf, hb⟩ := hrest v List.mem_cons_self
    have hstep : ratFold o (o.apply p b.value) rest = ratFold o (o.apply q b.value) rest ↔ _ :=
      ih hrest.tail
    rw [show ratFold o p (.exact b :: rest) = ratFold o (o.apply p b.value) rest from rfl,
      show ratFold o q (.exact b :: rest) = ratFold o (o.apply q b.value) rest from rfl, hstep,
      apply_eq_iff hb, value_eq_zero hwf, List.mem_cons, Number.exact.injEq]
    tauto

end Folds

/-! ## The total that is handed over -/

/-- The tag keeps a total that fits it, and no other. -/
theorem wrap_eq_self {n : ℤ} : wrap 61 n = n ↔ FixFits n := by
  constructor
  · intro h
    rw [← h]
    have hlo := Int.le_bmod (x := n) (m := 2 ^ 61) (by norm_num)
    have hhi := Int.bmod_lt (x := n) (m := 2 ^ 61) (by norm_num)
    constructor <;> rw [wrap] <;> omega
  · rintro ⟨hlo, hhi⟩
    rw [wrap, Int.bmod_eq_of_le (by omega) (by omega)]

theorem wellFormed_makeFixnum (n : ℤ) : (makeFixnum n).WellFormed :=
  wrap_eq_self.mp (by simp only [wrap, Int.bmod_bmod])

section HandOver

variable {o : Op} {sum num den : ℤ} {rest : List Number} {acc : Exact} {count : ℕ} {v : Number}
  {overflow : FoldError}

/-- **What becomes of a total that is handed over to `tower_fold`.** -/
theorem handOver_iff (hsum : o = .div → |sum| ≤ 2 ^ 60) (hr : (Exact.rat num den).WellFormed)
    (hwf : ∀ w ∈ rest, w.WellFormed) (hcount : 2 ≤ count)
    (hstep : exactStep o overflow (makeFixnum sum) (.rat num den) = some (.ok acc))
    (h : towerFold o count acc rest = some (.ok v)) :
    (∃ t, foldFrom o (.exact (.fix sum)) (.exact (.rat num den) :: rest) = some (some t) ∧
        v.Same t) ↔
      (FixFits sum ∨ (o = .mul ∧ .exact (.fix 0) ∈ rest)) ∧
        (o = .div → ∀ t, binary o (.exact (.fix sum)) (.exact (.rat num den)) = some (some t) →
          NoRemainder t rest) := by
  obtain ⟨hacc, rfl, hdiv⟩ := exactStep_ok (wellFormed_makeFixnum sum).inRange hr.inRange hstep
  obtain ⟨hrest, e, rfl, he⟩ := towerFold_ok hacc hwf (by omega) h
  obtain ⟨c, hc, happrox⟩ := binary_exact o (.fix sum) hdiv
  have hr0 : (Exact.rat num den).value ≠ 0 := by
    rw [Ne, value_eq_zero hr]
    rintro ⟨⟩
  have hcv : c.value = o.apply sum (Exact.rat num den).value := by
    rw [happrox.eq (by rintro - m n - ⟨⟩), value_fix]
  rw [value_ofRat, makeFixnum, value_fix] at he
  have hsame : ∀ d : Exact, foldFrom o (.exact c) rest = some (some (.exact d)) →
      ((∃ t, foldFrom o (.exact (.fix sum)) (.exact (.rat num den) :: rest) = some (some t) ∧
        (Number.exact e).Same t) ↔ e.value = d.value) := by
    intro d hd
    rw [foldFrom_cons hc, hd]
    constructor
    · rintro ⟨t, ht, hs⟩
      cases ht
      exact hs
    · exact fun hs => ⟨_, rfl, hs⟩
  by_cases ho : o = .div
  · subst ho
    by_cases hfits : FixFits sum
    · -- the total is the exact one, and what is lost are remainders
      obtain ⟨d, hd, hiff⟩ := foldFrom_div hrest c
      rw [hsame d hd, he, wrap_eq_self.mpr hfits, ← hcv, eq_comm, hiff]
      refine ⟨fun hno => ⟨.inl hfits, fun _ t ht => ?_⟩, fun hno => hno.2 rfl _ hc⟩
      rw [hc] at ht
      cases ht
      exact hno
    · -- the only quotient of fixnums that does not fit changes its sign
      have hmin : sum = 2 ^ 60 := by
        have hle := abs_le.mp (hsum rfl)
        by_contra hne
        exact hfits (by constructor <;> omega)
      have hwrap : wrap 61 (2 ^ 60) = -2 ^ 60 := by decide
      have habs : |c.value| ≤ |((wrap 61 sum : ℤ) : ℚ) / (Exact.rat num den).value| := by
        rw [hcv, hmin, hwrap, Op.apply, abs_div, abs_div]
        norm_num
      have hne : c.value ≠ ((wrap 61 sum : ℤ) : ℚ) / (Exact.rat num den).value := by
        rw [hcv, hmin, hwrap, Op.apply, Ne, div_left_inj' hr0]
        norm_num
      obtain ⟨d, hd, hdne⟩ := foldFrom_behind hrest habs hne
      rw [hsame d hd, he]
      refine iff_of_false (fun h => hdne h.symm) fun h => ?_
      rcases h.1 with hfix | ⟨hmul, -⟩
      · exact hfits hfix
      · cases hmul
  · obtain ⟨d, hd, hdv⟩ := foldFrom_value ho hrest c
    rw [hsame d hd, he, hdv, hcv, ratFold_eq_iff hrest, apply_eq_iff (fun h => absurd h ho),
      Int.cast_inj, wrap_eq_self]
    constructor
    · rintro ((h | ⟨-, hzero⟩) | h)
      · exact ⟨.inl h, fun h => absurd h ho⟩
      · exact absurd hzero hr0
      · exact ⟨.inr h, fun h => absurd h ho⟩
    · rintro ⟨h | h, -⟩
      · exact .inl (.inl h)
      · exact .inr h

end HandOver

/-! ## The decimal fold -/

theorem decOfInt_eq {n : ℤ} (h : Fits 64 n) : decOfInt n = some (n, 0) := by
  have hnormal : DecimalNormal n 0 := by
    refine ⟨le_rfl, by decide, ?_, fun h => absurd h (lt_irrefl 0)⟩
    obtain ⟨hlo, hhi⟩ := h
    omega
  rw [decOfInt, makeDecimalRaw_eq hnormal]
  rfl

theorem fits_of_fixFits {n : ℤ} (h : FixFits n) : Fits 64 n := by
  obtain ⟨hlo, hhi⟩ := h
  constructor <;> omega

/-- **`decimal_fold` is the left fold.** -/
theorem foldFrom_dec {o : Op} {count : ℕ} {acc : ℤ × ℤ} {rest : List Number}
    (hwf : ∀ w ∈ rest, w.WellFormed) (hcount : 2 ≤ count + rest.length) :
    foldFrom o (.dec acc.1 acc.2) rest = (decimalFold o count acc rest).map Except.toOption := by
  induction rest generalizing acc count with
  | nil =>
    have hne : count ≠ 1 := by
      rw [List.length_nil] at hcount
      omega
    rw [decimalFold, if_neg hne]
    rfl
  | cons w rest ih =>
    have hrest : ∀ w ∈ rest, w.WellFormed := fun w hw => hwf w (List.mem_cons_of_mem _ hw)
    rw [List.length_cons] at hcount
    -- what both do with the result of `dec_binop`
    have hstep : ∀ d : ℤ × ℤ, ((binary.dec o acc d).bind fun
          | none => some none
          | some total => foldFrom o total rest) =
        ((decStep o acc d).bind fun
          | .error e => some (.error e)
          | .ok r => decimalFold o (count + 1) r rest).map Except.toOption := by
      intro d
      rw [binary.dec, decStep]
      cases decBinop o acc d with
      | none => rfl
      | some r =>
        cases r with
        | error e => rfl
        | ok r => exact ih hrest (by omega)
    cases w with
    | dec c s => exact hstep (c, s)
    | exact e =>
      cases e with
      | rat num den => rfl
      | fix n =>
        have hn : Fits 64 n := fits_of_fixFits (hwf (.exact (.fix n)) List.mem_cons_self)
        rw [decimalFold, decOfInt_eq hn, Option.bind_some]
        exact hstep (n, 0)

/-- A decimal is negated as it is subtracted from zero. -/
theorem unary_dec {o : Op} {c s : ℤ} (h : DecimalNormal c s) :
    unary (.dec c s) o = (unaryDecimal (c, s) o).map Except.toOption := by
  cases o with
  | add => rfl
  | mul => rfl
  | div =>
    rw [unaryDecimal, decOfInt_eq (by decide)]
    simp only [unary, binary, binary.dec, decStep, Option.bind_eq_bind, Option.bind_some]
    cases decBinop .div (1, 0) (c, s) with
    | none => rfl
    | some r => cases r <;> rfl
  | sub =>
    obtain ⟨hs, hle, hdigits, -⟩ := h
    have hc : Fits 128 c := by constructor <;> omega
    have hneg : Fits 128 (-c) := by constructor <;> omega
    have hpow : ∃ p, decPow10 s.toNat = some p := by
      have hsmall : s.toNat ≤ 28 := by
        rw [decMaxScale] at hle
        omega
      refine ⟨_, checked_eq_some (fits_of_nonneg (by positivity) ?_)⟩
      calc (10 : ℤ) ^ s.toNat ≤ 10 ^ 28 := pow_le_pow_right₀ (by norm_num) hsmall
        _ < 2 ^ (128 - 1) := by norm_num
    obtain ⟨p, hp⟩ := hpow
    have hone : decPow10 0 = some 1 := checked_eq_some (by decide)
    have hzero : checked 128 (0 : ℤ) = some 0 := checked_eq_some (by decide)
    have halign : decAlign (0, 0) (c, s) = some (some (0, c, s)) := by
      simp [decAlign, max_eq_right hs, hp, hone, hzero, checked_eq_some hc]
    have hsub : decAddsub (0, 0) (c, s) true = decResult <$> makeDecimalRaw (-c) s := by
      simp [decAddsub, halign, checked_eq_some hneg]
    simp only [unary, binary, binary.dec, decBinop, hsub, unaryDecimal, checked_eq_some hneg,
      Option.bind_eq_bind, Option.bind_some]
    cases makeDecimalRaw (-c) s with
    | none => rfl
    | some r => cases r <;> rfl

/-! ## Operands before the first rational -/

section HandsOver

variable {o : Op} {m n num den : ℤ} {rest rest' : List Number} {first : List ℤ}

theorem fix_cons_eq : .exact (.fix m) :: rest = fixnums first ++ .exact (.rat num den) :: rest' ↔
    ∃ first', first = m :: first' ∧ rest = fixnums first' ++ .exact (.rat num den) :: rest' := by
  cases first with
  | nil => simp [fixnums]
  | cons k first => simp [fixnums, eq_comm]

/-- Operands that hold no rational after fixnums hand nothing over. -/
theorem handsOver_of_ne {args : List Number}
    (h : ∀ first num den rest, args ≠ fixnums first ++ .exact (.rat num den) :: rest) :
    HandsOver o args := fun first num den rest hargs => absurd hargs (h first num den rest)

theorem handsOver_fix_nil : HandsOver o [.exact (.fix m)] := by
  refine handsOver_of_ne fun first num den rest h => ?_
  obtain ⟨first', -, h⟩ := fix_cons_eq.mp h
  simp at h

theorem handsOver_dec (c s : ℤ) : HandsOver o (.dec c s :: rest) := by
  refine handsOver_of_ne fun first num den rest h => ?_
  cases first <;> simp [fixnums] at h

theorem handsOver_fix_dec (c s : ℤ) : HandsOver o (.exact (.fix m) :: .dec c s :: rest) := by
  refine handsOver_of_ne fun first num den rest h => ?_
  obtain ⟨first', -, h⟩ := fix_cons_eq.mp h
  cases first' <;> simp [fixnums] at h

theorem handsOver_rat : HandsOver o (.exact (.rat num den) :: rest) ↔
    (o = .div → NoRemainder (.exact (.rat num den)) rest) := by
  constructor
  · intro h ho
    exact (h [] num den rest rfl).2 ho _ rfl
  · intro h first num' den' rest' hargs
    cases first with
    | cons k first => simp [fixnums] at hargs
    | nil =>
      simp only [fixnums, List.map_nil, List.nil_append, List.cons.injEq, Number.exact.injEq,
        Exact.rat.injEq] at hargs
      obtain ⟨⟨rfl, rfl⟩, rfl⟩ := hargs
      refine ⟨.inl (by rintro n ⟨⟩), fun ho t ht => ?_⟩
      cases ht
      exact h ho

theorem handsOver_fix_rat : HandsOver o (.exact (.fix m) :: .exact (.rat num den) :: rest) ↔
    (FixFits m ∨ (o = .mul ∧ .exact (.fix 0) ∈ rest)) ∧
      (o = .div → ∀ t, binary o (.exact (.fix m)) (.exact (.rat num den)) = some (some t) →
        NoRemainder t rest) := by
  have hone : ∀ t, foldAll o (fixnums [m] ++ [.exact (.rat num den)]) = some (some t) ↔
      binary o (.exact (.fix m)) (.exact (.rat num den)) = some (some t) := by
    intro t
    show foldFrom o _ [_] = _ ↔ _
    rw [foldFrom]
    cases binary o (.exact (.fix m)) (.exact (.rat num den)) with
    | none => simp
    | some r => cases r <;> simp [foldFrom]
  constructor
  · intro h
    obtain ⟨hfit, hrem⟩ := h [m] num den rest rfl
    refine ⟨hfit.imp_left fun h => h m rfl, fun ho t ht => hrem ho t ((hone t).mpr ht)⟩
  · intro h first num' den' rest' hargs
    obtain ⟨first', rfl, htail⟩ := fix_cons_eq.mp hargs
    cases first' with
    | cons k first => simp [fixnums] at htail
    | nil =>
      simp only [fixnums, List.map_nil, List.nil_append, List.cons.injEq, Number.exact.injEq,
        Exact.rat.injEq] at htail
      obtain ⟨⟨rfl, rfl⟩, rfl⟩ := htail
      refine ⟨h.1.imp_left fun h n hn => ?_, fun ho t ht => h.2 ho t ((hone t).mp ht)⟩
      cases hn
      exact h

/-- Two fixnums are one total. -/
theorem handsOver_fix_fix {r : ℤ} (hr : wholeOp o m n = some r) :
    HandsOver o (.exact (.fix m) :: .exact (.fix n) :: rest) ↔
      HandsOver o (.exact (.fix r) :: rest) := by
  have hfold : ∀ vs, foldAll o (.exact (.fix m) :: .exact (.fix n) :: vs) =
      foldAll o (.exact (.fix r) :: vs) := fun vs => foldFrom_cons (by rw [binary, hr]; rfl)
  constructor
  · intro h first num den rest' hargs
    obtain ⟨first', rfl, rfl⟩ := fix_cons_eq.mp hargs
    have hm := h (m :: n :: first') num den rest' rfl
    simp only [fixnums, List.map_cons, List.cons_append, hfold] at hm ⊢
    exact hm
  · intro h first num den rest' hargs
    obtain ⟨first₁, rfl, htail⟩ := fix_cons_eq.mp hargs
    obtain ⟨first', rfl, rfl⟩ := fix_cons_eq.mp htail
    have hm := h (r :: first') num den rest' rfl
    simp only [fixnums, List.map_cons, List.cons_append, hfold] at hm ⊢
    exact hm

end HandsOver

/-! ## The loop -/

section Loop

variable {o : Op} {sum n r : ℤ}

/-- `fix_op_ovf` computes the operation, where it reports no overflow. -/
theorem fixOpOvf_some (hdiv : ¬ (o = .div ∧ n = 0)) (h : fixOpOvf o sum n = some (some r)) :
    wholeOp o sum n = some r ∧ Fits 64 r := by
  cases o with
  | add =>
    obtain ⟨rfl, hfit⟩ := of_checked (Option.some.inj h)
    exact ⟨rfl, hfit⟩
  | sub =>
    obtain ⟨rfl, hfit⟩ := of_checked (Option.some.inj h)
    exact ⟨rfl, hfit⟩
  | mul =>
    obtain ⟨rfl, hfit⟩ := of_checked (Option.some.inj h)
    exact ⟨rfl, hfit⟩
  | div =>
    have hn : n ≠ 0 := fun hn => hdiv ⟨rfl, hn⟩
    rw [fixOpOvf] at h
    split at h
    · cases h
    · simp only [checkedDiv, if_neg hn, Option.map_eq_map, Option.map_eq_some_iff] at h
      obtain ⟨r', hr, heq⟩ := h
      obtain rfl := Option.some.inj heq
      obtain ⟨rfl, hfit⟩ := of_checked hr
      exact ⟨by rw [wholeOp, if_neg hn], hfit⟩

/-- `fix_op_ovf` is defined. -/
theorem fixOpOvf_ne_none (hsum : Fits 64 sum) (hdiv : ¬ (o = .div ∧ n = 0)) :
    fixOpOvf o sum n ≠ none := by
  cases o with
  | add => exact Option.some_ne_none _
  | sub => exact Option.some_ne_none _
  | mul => exact Option.some_ne_none _
  | div =>
    have hn : n ≠ 0 := fun hn => hdiv ⟨rfl, hn⟩
    rw [fixOpOvf]
    split
    · exact Option.some_ne_none _
    · rename_i hmin
      have hfit : Fits 64 (sum.tdiv n) := by
        rcases lt_or_gt_of_ne hn with hneg | hpos
        · rw [← neg_neg n, Int.tdiv_neg]
          refine (hsum.tdiv (by omega)).neg fun hedge => hmin ?_
          have hle := Int.natAbs_tdiv_le_natAbs sum (-n)
          obtain ⟨hlo, hhi⟩ := hsum
          by_cases hone : n = -1
          · subst hone
            rw [neg_neg, Int.tdiv_one] at hedge
            exact ⟨hedge, rfl⟩
          · have habs : (sum.tdiv (-n)).natAbs * (-n).natAbs ≤ sum.natAbs := by
              rw [Int.natAbs_tdiv]
              exact Nat.div_mul_le_self _ _
            rw [hedge] at habs
            have htwo : 2 ≤ (-n).natAbs := by omega
            have hbig : 2 ^ 63 * 2 ≤ (-2 ^ (64 - 1) : ℤ).natAbs * (-n).natAbs :=
              Nat.mul_le_mul (by decide) htwo
            omega
        · exact hsum.tdiv hpos
      rw [checkedDiv, if_neg hn, checked_eq_some hfit]
      exact Option.some_ne_none _

/-- A quotient stays as small as the total was. -/
theorem abs_wholeOp_div (h : wholeOp .div sum n = some r) : |r| ≤ |sum| := by
  rw [wholeOp] at h
  split at h
  · cases h
  · obtain rfl := Option.some.inj h
    rw [Int.abs_eq_natAbs, Int.abs_eq_natAbs]
    exact_mod_cast Int.natAbs_tdiv_le_natAbs sum n

theorem mathEnd_ok {i : ℕ} {v : Number} (hi : 2 ≤ i) (h : mathEnd o i sum = .ok v) :
    v = .exact (.fix sum) := by
  rw [mathEnd] at h
  simp only [show i ≠ 0 by omega, show i ≠ 1 by omega, false_and, if_false] at h
  split at h
  · exact (Except.ok.inj h).symm
  · cases h

theorem same_self (v : Number) : v.Same v := by
  cases v with
  | exact e => exact rfl
  | dec c s => exact ⟨rfl, rfl⟩

/-- **The loop on a total of fixnums**, of which there was one at least. -/
theorem mathLoop_iff {i : ℕ} {rest : List Number} (hwf : ∀ w ∈ rest, w.WellFormed) (hi : 1 ≤ i)
    (hcount : 2 ≤ i + rest.length) (hsum : Fits 64 sum) (hdiv : o = .div → |sum| ≤ 2 ^ 60) :
    (mathLoop o i sum rest = none → foldFrom o (.exact (.fix sum)) rest = none) ∧
      ∀ v, mathLoop o i sum rest = some (.ok v) →
        ((∃ t, foldFrom o (.exact (.fix sum)) rest = some (some t) ∧ v.Same t) ↔
          HandsOver o (.exact (.fix sum) :: rest)) := by
  induction rest generalizing i sum with
  | nil =>
    rw [List.length_nil] at hcount
    rw [mathLoop]
    refine ⟨fun h => absurd h (Option.some_ne_none _), fun v hv => ?_⟩
    refine iff_of_true ?_ handsOver_fix_nil
    rw [Option.some.injEq] at hv
    rw [mathEnd_ok (by omega) hv]
    exact ⟨_, rfl, same_self _⟩
  | cons w rest ih =>
    have hrest : ∀ w ∈ rest, w.WellFormed := fun w hw => hwf w (List.mem_cons_of_mem _ hw)
    have hw := hwf w List.mem_cons_self
    cases w with
    | dec c s =>
      have hfold : foldFrom o (.exact (.fix sum)) (.dec c s :: rest) =
          (mathLoop o i sum (.dec c s :: rest)).map Except.toOption := by
        rw [mathLoop, if_neg (by omega), decOfInt_eq hsum, Option.bind_some, decStep, foldFrom]
        simp only [binary, binary.dec]
        cases decBinop o (sum, 0) (c, s) with
        | none => rfl
        | some r =>
          cases r with
          | error e => rfl
          | ok r => exact foldFrom_dec hrest (by omega)
      rw [hfold]
      refine ⟨fun h => by rw [h]; rfl, fun v hv => iff_of_true ?_ (handsOver_fix_dec c s)⟩
      rw [hv]
      exact ⟨v, rfl, same_self v⟩
    | exact e =>
      cases e with
      | rat num den =>
        have hw : (Exact.rat num den).WellFormed := hw
        rw [mathLoop, if_neg (by omega)]
        constructor
        · intro h
          rw [Option.bind_eq_none_iff] at h
          cases hr : exactStep o .exactOverflow (makeFixnum sum) (.rat num den) with
          | none => exact absurd hr (exactStep_ne_none (wellFormed_makeFixnum sum).inRange hw.inRange)
          | some r =>
            cases r with
            | error e => cases h _ hr
            | ok acc =>
              have hacc := (exactStep_ok (wellFormed_makeFixnum sum).inRange hw.inRange hr).1
              exact absurd (h _ hr) (towerFold_ne_none hacc hrest)
        · intro v hv
          rw [Option.bind_eq_some_iff] at hv
          obtain ⟨r, hr, hv⟩ := hv
          cases r with
          | error e => cases hv
          | ok acc =>
            rw [handOver_iff hdiv hw hrest (by omega) hr hv, handsOver_fix_rat]
      | fix n =>
        rw [mathLoop]
        split
        · exact ⟨fun h => (by cases h), fun v hv => (by cases hv)⟩
        · rename_i hzero
          have hzero' : ¬ (o = .div ∧ n = 0) := fun h => hzero ⟨h.1, by omega, h.2⟩
          rw [if_pos (.inl (by omega))]
          cases hr : fixOpOvf o sum n with
          | none => exact absurd hr (fixOpOvf_ne_none hsum hzero')
          | some r =>
            cases r with
            | none => exact ⟨fun h => (by cases h), fun v hv => (by cases hv)⟩
            | some r =>
              obtain ⟨hop, hfit⟩ := fixOpOvf_some hzero' hr
              have hbound : o = .div → |r| ≤ 2 ^ 60 := by
                rintro rfl
                exact (abs_wholeOp_div hop).trans (hdiv rfl)
              rw [List.length_cons] at hcount
              have hbin : binary o (.exact (.fix sum)) (.exact (.fix n)) =
                  some (some (.exact (.fix r))) := by
                rw [binary, hop]
                rfl
              rw [foldFrom_cons hbin, handsOver_fix_fix hop]
              exact ih hrest (by omega) (by omega) hfit hbound

/-! ## The folds -/

/-- One operand. -/
theorem mathCmd_unary {v : Number} (hv : v.WellFormed) :
    (mathCmd o [v] = none → unary v o = none) ∧
      ∀ r, mathCmd o [v] = some (.ok r) → ∃ t, unary v o = some (some t) ∧ r.Same t := by
  have hof : unary v o = (mathCmd o [v]).map Except.toOption →
      (mathCmd o [v] = none → unary v o = none) ∧
        ∀ r, mathCmd o [v] = some (.ok r) → ∃ t, unary v o = some (some t) ∧ r.Same t := by
    intro h
    rw [h]
    exact ⟨fun hr => by rw [hr]; rfl, fun r hr => ⟨r, by rw [hr]; rfl, same_self r⟩⟩
  cases v with
  | dec c s => exact hof (unary_dec hv)
  | exact e =>
    cases e with
    | fix n =>
      have hn : Fits 64 n := fits_of_fixFits hv
      have hone : mathCmd o [.exact (.fix n)] = some (mathEnd o 1 n) := by
        cases o <;> simp [mathCmd, mathLoop, fixOpOvf, checked_eq_some hn]
      have hfit : ∀ {z : ℤ} {r : Number},
          (if FixFits z then Except.ok (.exact (.fix z)) else .error FoldError.integerOverflow) =
            Except.ok r → r = .exact (.fix z) := by
        intro z r h
        split at h
        · exact (Except.ok.inj h).symm
        · cases h
      rw [hone]
      refine ⟨fun h => absurd h (Option.some_ne_none _), fun r hr => ?_⟩
      rw [Option.some.injEq] at hr
      refine ⟨r, ?_, same_self r⟩
      cases o with
      | add => rw [hfit hr]; rfl
      | mul => rw [hfit hr]; rfl
      | sub =>
        simp only [mathEnd, one_ne_zero, false_and, if_false, and_self, if_true] at hr
        split at hr
        · rw [hfit hr, ← zero_sub]
          rfl
        · cases hr
      | div =>
        simp only [mathEnd, one_ne_zero, false_and, if_false, and_self, if_true, reduceCtorEq,
          and_false] at hr
        split at hr
        · cases hr
        · rename_i hzero
          rw [hfit hr, unary, binary, wholeOp, if_neg hzero]
          rfl
    | rat num den =>
      have hr : (Exact.rat num den).WellFormed := hv
      have h0 : Exact.InRange (.fix 0) := ⟨by decide, by decide, by decide⟩
      have h1 : Exact.InRange (.fix 1) := ⟨by decide, by decide, by decide⟩
      -- both signs of the operation go through `rat_binop`
      have hstep : ∀ {a : Exact} {o : Op}, a.InRange →
          ((exactStep o .exactOverflow a (.rat num den)).map fun r => r.map Number.exact) ≠ none ∧
            ∀ v, ((exactStep o .exactOverflow a (.rat num den)).map fun r => r.map Number.exact) =
                some (.ok v) →
              ∃ t, binary o (.exact a) (.exact (.rat num den)) = some (some t) ∧ v.Same t := by
        intro a o ha
        constructor
        · rw [exactStep_eq ha hr.inRange]
          exact Option.some_ne_none _
        · intro v hv
          obtain ⟨r, hstep, hmap⟩ := Option.map_eq_some_iff.mp hv
          cases r with
          | error e => cases hmap
          | ok r =>
            obtain rfl := Except.ok.inj hmap
            obtain ⟨-, rfl, hdiv⟩ := exactStep_ok ha hr.inRange hstep
            obtain ⟨c, hc, happrox⟩ := binary_exact o a hdiv
            refine ⟨_, hc, ?_⟩
            rw [Number.Same, value_ofRat, happrox.eq (by rintro - m n - ⟨⟩)]
      cases o with
      | add => exact hof rfl
      | mul => exact hof rfl
      | sub => exact ⟨fun h => absurd h (hstep h0).1, fun v hv => (hstep h0).2 v hv⟩
      | div => exact ⟨fun h => absurd h (hstep h1).1, fun v hv => (hstep h1).2 v hv⟩

/-- **When the folds are the left fold.** They are defined where `dec_binop` is. A value that a fold
returns is the one of the left fold if and only if the total of the fixnums before the first rational
fits the tag, or a factor zero follows, and from this rational on no division leaves a remainder
between two fixnums. -/
theorem fold_exact_iff (o : Op) {args : List Number} (hne : args ≠ [])
    (hwf : ∀ v ∈ args, v.WellFormed) :
    (mathCmd o args = none → leftFold o args = none) ∧
      ∀ v, mathCmd o args = some (.ok v) → (IsFold o args v ↔ HandsOver o args) := by
  match args, hne with
  | [v], _ =>
    obtain ⟨hnone, hok⟩ := mathCmd_unary (o := o) (hwf v List.mem_cons_self)
    refine ⟨hnone, fun r hr => iff_of_true (hok r hr) ?_⟩
    cases v with
    | dec c s => exact handsOver_dec c s
    | exact e =>
      cases e with
      | fix n => exact handsOver_fix_nil
      | rat num den => exact handsOver_rat.mpr fun _ => trivial
  | v :: w :: rest, _ =>
    have hv := hwf v List.mem_cons_self
    have hrest : ∀ u ∈ w :: rest, u.WellFormed := fun u hu => hwf u (List.mem_cons_of_mem _ hu)
    have hcount : 2 ≤ 1 + (w :: rest).length := by
      rw [List.length_cons]
      omega
    cases v with
    | dec c s =>
      have hfold : leftFold o (.dec c s :: w :: rest) =
          (mathCmd o (.dec c s :: w :: rest)).map Except.toOption := by
        rw [mathCmd, mathLoop, if_pos rfl]
        exact @foldFrom_dec o 1 (c, s) (w :: rest) hrest hcount
      refine ⟨fun h => by rw [hfold, h]; rfl, fun v hv => iff_of_true ?_ (handsOver_dec c s)⟩
      exact ⟨v, by rw [hfold, hv]; rfl, same_self v⟩
    | exact e =>
      cases e with
      | fix n =>
        have hfix : FixFits n := hv
        have hn : Fits 64 n := fits_of_fixFits hfix
        have hloop : mathCmd o (.exact (.fix n) :: w :: rest) = mathLoop o 1 n (w :: rest) := by
          cases o <;> simp [mathCmd, mathLoop, fixOpOvf, checked_eq_some hn]
        rw [hloop]
        refine mathLoop_iff hrest le_rfl hcount hn fun _ => ?_
        obtain ⟨hlo, hhi⟩ := hfix
        exact abs_le.mpr ⟨by omega, by omega⟩
      | rat num den =>
        have hr : (Exact.rat num den).WellFormed := hv
        have htower : mathCmd o (.exact (.rat num den) :: w :: rest) =
            towerFold o 1 (.rat num den) (w :: rest) := by
          rw [mathCmd, mathLoop, if_pos rfl]
        rw [htower, handsOver_rat]
        refine ⟨fun h => absurd h (towerFold_ne_none hr.inRange hrest), fun v hv => ?_⟩
        obtain ⟨haccepted, e, rfl, he⟩ := towerFold_ok hr.inRange hrest hcount hv
        by_cases ho : o = .div
        · subst ho
          obtain ⟨d, hd, hiff⟩ := foldFrom_div haccepted (.rat num den)
          rw [← he, eq_comm] at hiff
          constructor
          · rintro ⟨t, ht, hs⟩ -
            rw [leftFold, hd] at ht
            cases ht
            exact hiff.mp hs
          · exact fun h => ⟨_, hd, hiff.mpr (h rfl)⟩
        · obtain ⟨d, hd, hdv⟩ := foldFrom_value ho haccepted (.rat num den)
          exact iff_of_true ⟨_, hd, he.trans hdv.symm⟩ fun h => absurd h ho

end Loop

/-- One third and two thirds make one. -/
theorem fold_exact_iff_thirds :
    IsFold .add [.exact (.rat 1 3), .exact (.rat 2 3)] (.exact (.fix 1)) := by
  have hone : (Exact.rat 1 3).WellFormed := ⟨by decide, by decide, by decide, rfl, by decide⟩
  have htwo : (Exact.rat 2 3).WellFormed := ⟨by decide, by decide, by decide, rfl, by decide⟩
  have hwf : ∀ v ∈ [Number.exact (.rat 1 3), .exact (.rat 2 3)], v.WellFormed := by
    simpa using ⟨hone, htwo⟩
  have hresult : mathCmd .add [.exact (.rat 1 3), .exact (.rat 2 3)] =
      some (.ok (.exact (.fix 1))) := by decide +kernel
  refine ((fold_exact_iff .add (by simp) hwf).2 _ hresult).mpr (handsOver_rat.mpr ?_)
  rintro ⟨⟩

/-- **Where a fold is another one.** The total `2 ^ 60` is handed over as `-2 ^ 60`; and three divided
by one half is six, which `tower_fold` divides exactly by four. -/
theorem fold_differs :
    (mathCmd .add [.exact (.fix (2 ^ 60 - 1)), .exact (.fix 1), .exact (.rat 1 2)] =
        some (.ok (.exact (.rat (-2 ^ 61 + 1) 2))) ∧
      ¬ IsFold .add [.exact (.fix (2 ^ 60 - 1)), .exact (.fix 1), .exact (.rat 1 2)]
        (.exact (.rat (-2 ^ 61 + 1) 2))) ∧
      mathCmd .div [.exact (.fix 3), .exact (.rat 1 2), .exact (.fix 4)] =
        some (.ok (.exact (.rat 3 2))) ∧
      ¬ IsFold .div [.exact (.fix 3), .exact (.rat 1 2), .exact (.fix 4)] (.exact (.rat 3 2)) := by
  have hsum : leftFold .add [.exact (.fix (2 ^ 60 - 1)), .exact (.fix 1), .exact (.rat 1 2)] =
      some (some (.exact (.rat (2 ^ 61 + 1) 2))) := by decide +kernel
  have hquot : leftFold .div [.exact (.fix 3), .exact (.rat 1 2), .exact (.fix 4)] =
      some (some (.exact (.fix 1))) := by decide +kernel
  refine ⟨⟨by decide +kernel, ?_⟩, by decide +kernel, ?_⟩
  · rintro ⟨t, ht, hs⟩
    rw [hsum] at ht
    cases ht
    norm_num [Number.Same, Exact.value, Exact.parts] at hs
  · rintro ⟨t, ht, hs⟩
    rw [hquot] at ht
    cases ht
    norm_num [Number.Same, Exact.value, Exact.parts] at hs

end Alcove.Numeric
