import Alcove.Numeric.TierStep

/-!
# Compiled arithmetic and the builtins

**Main result:** `compiled_agrees`. A compiled form of `+ - * / mod < > <= >= abs max min` gives the
value of the builtin, or an error of the same class, where `Form.ok` holds; a form of at most two
operands only there. The opcodes for a local variable and a literal know fixnums and floats only;
`<=` and `>=` compare equal infinities where the builtin compares their difference, that is no
number; `abs` of an empty list that is a `NULL` is a missing parameter for the builtin; and a fold is
as in `Total.ok`.
-/

namespace Alcove.Numeric

open Lib Double Opcode

/-- An arithmetic form. -/
structure Form (D : Type) where
  head : Head
  args : List (Arg D)

namespace Form

variable {D : Type}

/-- The values of the operands. -/
def values (f : Form D) : List (Value D) := f.args.map Arg.value

/-- The numbers among the operands are as the source builds them. -/
def WellFormed (f : Form D) : Prop := ∀ v ∈ f.values, v.WellFormed

variable [Double D]

/-- The code of the form gives what the builtin gives. -/
def Agrees (f : Form D) : Prop :=
  ∀ code, compile f.head f.args = some code →
    (exec code []).classed = (f.head.builtin f.values).classed

/-- **When an opcode for a variable and a literal does what the builtin does.** A rational or a
decimal is refused by the opcode, and by the builtin if the exact result does not fit. -/
def slotOk : Head → Value D → ℤ → Prop
  | .arith o, .num (.exact (.rat num den)), n =>
    ¬ Fits 64 (if o = .sub then num - n * den else num + n * den)
  | .arith o, .num (.dec c s), n =>
    makeDecimalRaw (if o = .sub then c - n * 10 ^ s.toNat else c + n * 10 ^ s.toNat) s = some none
  | .cmp _, .num (.exact (.rat _ _)), _ => False
  | .cmp _, .num (.dec _ _), _ => False
  | _, _, _ => True

/-- Equal infinities. -/
def sameInf (x y : D) : Prop := isInf x = true ∧ isInf y = true ∧ le x y = true ∧ le y x = true

/-- **When other code does what the builtin does.** -/
def plainOk : Head → List (Value D) → Prop
  | .arith o, v :: w :: rest => ∀ t, Total.first v = .ok t → okRun o t (w :: rest)
  | .cmp .le, [.float x, .float y] => ¬ sameInf x y
  | .cmp .ge, [.float x, .float y] => ¬ sameInf x y
  | .abs, [v] => v ≠ .null
  | _, _ => True

/-- **When a compiled form does what the builtin does.** -/
def ok (f : Form D) : Prop :=
  match fused f.head (canonical f.head f.args) with
  | some (v, n) => slotOk f.head v n
  | none => plainOk f.head f.values

end Form

/-! ## Comparisons -/

section Comparisons

variable {D : Type} [Double D] {c : Builtin.Cmp} {v w : Value D}

open Builtin

theorem cmpCmd_pair (c : Cmp) (v w : Value D) :
    cmpCmd c [v, w] = (pairCmp v w).map fun
      | none => .error .compareIncompat
      | some d => .ok (.truth (c.double d (ofInt 0))) := by
  rw [cmpCmd, cmpFrom]
  rcases pairCmp v w with _ | _ | d
  · rfl
  · rfl
  · rw [Option.bind_some, Option.map_some]
    dsimp only
    cases c.double d (ofInt 0) <;> rfl

theorem threeWay_int (c : Cmp) (m n : ℤ) : c.int (threeWay m n) 0 = c.int m n := by
  rw [threeWay]
  cases c <;> simp only [Cmp.int, decide_eq_decide] <;> split_ifs <;> omega

theorem natAbs_threeWay (m n : ℤ) : (threeWay m n).natAbs ≤ 2 ^ 53 := by
  rw [threeWay]
  split_ifs <;> norm_num

variable [LawfulDouble D]

theorem double_ofInt (c : Cmp) {m n : ℤ} (hm : m.natAbs ≤ 2 ^ 53) (hn : n.natAbs ≤ 2 ^ 53) :
    c.double (ofInt m : D) (ofInt n) = c.int m n := by
  cases c with
  | lt => exact LawfulDouble.lt_ofInt m n hm hn
  | gt => exact LawfulDouble.lt_ofInt n m hn hm
  | le => exact LawfulDouble.le_ofInt m n hm hn
  | ge => exact LawfulDouble.le_ofInt n m hn hm

omit [LawfulDouble D] in
/-- Two fixnums compare in the builtin as integers. -/
theorem pairCmp_fix {m n : ℤ} (hm : FixFits m) (hn : FixFits n) :
    pairCmp (.fix m) (.fix n) = some (some (ofInt (threeWay m n) : D)) := by
  have hfits : ∀ {z : ℤ}, FixFits z → checked 128 (z * 1) = some z := by
    intro z hz
    rw [mul_one]
    refine checked_eq_some ?_
    obtain ⟨hlo, hhi⟩ := hz
    constructor <;> omega
  show (ratCmp (.fix m) (.fix n)).map _ = _
  simp only [ratCmp, Exact.parts, hfits hm, hfits hn]
  rfl

/-- **A difference compares to zero as its operands do**, but for equal infinities. -/
theorem double_sub (c : Cmp) (x y : D) :
    c.double (arith .sub x y) (ofInt 0) = c.double x y ↔
      ¬ ((c = .le ∨ c = .ge) ∧ Form.sameInf x y) := by
  cases c with
  | lt => simp [Cmp.double, LawfulDouble.sub_lt_zero]
  | gt => simp [Cmp.double, LawfulDouble.zero_lt_sub]
  | le =>
    rw [Cmp.double, Cmp.double, LawfulDouble.sub_le_zero, Form.sameInf]
    cases isInf x <;> cases isInf y <;> cases le x y <;> cases le y x <;> simp
  | ge =>
    rw [Cmp.double, Cmp.double, LawfulDouble.zero_le_sub, Form.sameInf]
    cases isInf x <;> cases isInf y <;> cases le x y <;> cases le y x <;> simp

omit [LawfulDouble D] in
/-- Where the opcode and the builtin compare doubles. -/
theorem cmp_doubles {x y : D} (hpair : pairCmp v w = some (some (arith .sub x y)))
    (hop : cmpOp c v w = some (.ok (.truth (c.double x y)))) :
    (cmpOp c v w).classed = (cmpCmd c [v, w]).classed ↔
      c.double (arith .sub x y) (ofInt 0) = c.double x y := by
  rw [hop, cmpCmd_pair, hpair]
  simp only [Option.map_some, Outcome.classed_ok, Option.some.injEq, Except.ok.injEq,
    Value.nonNumber.injEq, NonNumber.truth.injEq]
  exact eq_comm

omit [LawfulDouble D] in
/-- Where the opcode compares as the builtin does. -/
theorem cmpOp_of_not_coerce (h : coerce v = none ∨ coerce w = none) :
    cmpOp c v w = (pairCmp v w).map fun
      | none => .error .compareIncompat
      | some d => .ok (.truth (c.double d (ofInt 0))) := by
  unfold cmpOp
  split
  · rcases h with h | h <;> cases h
  · rcases h with h | h
    · rw [h] <;> rfl
    · cases coerce v <;> rw [h] <;> rfl

omit [LawfulDouble D] in
theorem plainOk_of_not_coerce (h : coerce v = none ∨ coerce w = none) :
    Form.plainOk (.cmp c) [v, w] := by
  cases v with
  | num n => cases c <;> trivial
  | nonNumber x => cases c <;> trivial
  | float x =>
    cases w with
    | num n => cases c <;> trivial
    | nonNumber x => cases c <;> trivial
    | float y => rcases h with h | h <;> cases h

/-- **A comparison is the one of the builtin unless `<=` or `>=` compares equal infinities.** -/
theorem cmp_agrees (hv : v.WellFormed) (hw : w.WellFormed) :
    (cmpOp c v w).classed = (cmpCmd c [v, w]).classed ↔ Form.plainOk (.cmp c) [v, w] := by
  have hfinite : ∀ {n : ℤ}, (Value.fix n : Value D).WellFormed → isInf (ofInt n : D) = false :=
    fun hn => LawfulDouble.isInf_ofInt _ (fits_of_fixFits hn)
  cases hx : coerce v with
  | none =>
    refine iff_of_true ?_ (plainOk_of_not_coerce (.inl hx))
    rw [cmpOp_of_not_coerce (.inl hx), cmpCmd_pair]
  | some x =>
    cases hy : coerce w with
    | none =>
      refine iff_of_true ?_ (plainOk_of_not_coerce (.inr hy))
      rw [cmpOp_of_not_coerce (.inr hy), cmpCmd_pair]
    | some y =>
      match v, w, hx, hy with
      | .num (.exact (.fix m)), .num (.exact (.fix n)), _, _ =>
        refine iff_of_true ?_ (by cases c <;> trivial)
        rw [cmpCmd_pair, pairCmp_fix hv hw, Option.map_some, cmpOp]
        dsimp only
        rw [double_ofInt c (natAbs_threeWay m n) (by norm_num), threeWay_int]
      | .num (.exact (.fix m)), .float y, _, _ =>
        rw [@cmp_doubles D _ c (.fix m) (.float y) (ofInt m) y rfl rfl, double_sub]
        refine iff_of_true ?_ (by cases c <;> trivial)
        rintro ⟨-, hinf, -⟩
        rw [hfinite hv] at hinf
        cases hinf
      | .float x, .num (.exact (.fix n)), _, _ =>
        rw [@cmp_doubles D _ c (.float x) (.fix n) x (ofInt n) rfl rfl, double_sub]
        refine iff_of_true ?_ (by cases c <;> trivial)
        rintro ⟨-, -, hinf, -⟩
        rw [hfinite hw] at hinf
        cases hinf
      | .float x, .float y, _, _ =>
        rw [@cmp_doubles D _ c (.float x) (.float y) x y rfl rfl, double_sub]
        cases c <;> simp [Form.plainOk]

end Comparisons

/-! ## `mod`, `abs`, `max` and `min` -/

section Others

variable {D : Type} [Double D]

theorem mod_doubles (v w : Value D) :
    Outcome.classed (doubles "mod" v w fun x y =>
      if isZero y then some (.error .moduloByZero) else some (.ok (.float (fmod x y)))) =
      (Builtin.modCmd.doubles v w).classed := by
  rw [doubles, Builtin.modCmd.doubles]
  rcases coerce v with _ | x
  · rfl
  · rcases coerce w with _ | y
    · rfl
    · rfl

theorem mod_agrees [LawfulDouble D] (v w : Value D) :
    (Opcode.mod v w).classed = (Builtin.modCmd [v, w]).classed := by
  unfold Opcode.mod
  split
  · rename_i m n
    rw [Builtin.modCmd]
    by_cases hn : n = 0
    · have hzero : isZero (ofInt n : D) = true := by
        rw [LawfulDouble.isZero_ofInt]
        exact decide_eq_true hn
      simp only [Builtin.modCmd.doubles, coerce, hn ▸ hzero, hn, if_true, ne_eq, not_true, if_false]
    · simp only [ne_eq, hn, not_false_eq_true, if_true, if_false]
  · rename_i hfix
    rw [mod_doubles, Builtin.modCmd]
    exact hfix

/-- **`abs` is the one of the builtin except on `NULL`.** -/
theorem abs_agrees (v : Value D) :
    (Opcode.abs v).classed = (Builtin.absCmd [v]).classed ↔ v ≠ .null := by
  match v with
  | .num (.exact (.fix n)) => exact iff_of_true rfl (by simp)
  | .num (.exact (.rat _ _)) => exact iff_of_true rfl (by simp)
  | .num (.dec _ _) => exact iff_of_true rfl (by simp)
  | .float f => exact iff_of_true rfl (by simp)
  | .null => simp [Opcode.abs, Builtin.absCmd, ArithError.errorClass]
  | .str _ => exact iff_of_true rfl (by simp)
  | .char _ => exact iff_of_true rfl (by simp)
  | .truth _ => exact iff_of_true rfl (by simp)
  | .nonNumber .other => exact iff_of_true rfl (by simp)

theorem max_agrees (v w : Value D) : Opcode.max v w = Builtin.maxCmd [v, w] := by
  rw [Opcode.max, Builtin.maxCmd, Builtin.minMaxCmd, Builtin.minMaxFrom, if_pos rfl]
  rcases Builtin.numLt v w with _ | _ | _ <;> rfl

theorem min_agrees (v w : Value D) : Opcode.min v w = Builtin.minCmd [v, w] := by
  rw [Opcode.min, Builtin.minCmd, Builtin.minMaxCmd, Builtin.minMaxFrom]
  simp only [Bool.false_eq_true, if_false]
  rcases Builtin.numLt w v with _ | _ | _ <;> rfl

end Others

/-! ## Folds -/

section Folds

variable {D : Type} [Double D] [LawfulDouble D] {o : Op} {v w : Value D}

/-- A fold of values as compiled code does it. -/
theorem fold_agrees {rest : List (Value D)} (hwf : ∀ u ∈ v :: w :: rest, u.WellFormed)
    (hok : Form.plainOk (.arith o) (v :: w :: rest)) :
    (Opcode.foldFrom (.arith o) v (w :: rest)).classed =
      (Builtin.mathCmd o (v :: w :: rest)).classed := by
  have hv := hwf v List.mem_cons_self
  have hrest : ∀ u ∈ w :: rest, u.WellFormed := fun u hu => hwf u (List.mem_cons_of_mem _ hu)
  have hfix : ∀ n, v = .fix n → FixFits n := by
    rintro n rfl
    exact hv
  rw [Builtin.mathCmd_eq o hfix rest]
  cases v with
  | num n =>
    match n, hv, hok with
    | .exact (.fix n), hv, hok => exact @runs_agree D _ o _ (.int n) _ hv hrest (hok _ rfl)
    | .exact (.rat num den), hv, hok =>
      exact @runs_agree D _ o _ (.tower (.rat num den)) _ hv hrest (hok _ rfl)
    | .dec c s, _, hok => exact @runs_agree D _ o _ (.dec c s) _ trivial hrest (hok _ rfl)
  | float f => exact @runs_agree D _ o _ (.float f) _ trivial hrest (hok _ rfl)
  | nonNumber x =>
    have hbin : ∃ e, Opcode.binary (.arith o) (.nonNumber x : Value D) w = some (.error e) ∧
        e.errorClass = .illegalValue := by
      by_cases ht : isTower w = true
      · refine ⟨.illegalValue, ?_, rfl⟩
        rw [binary_of_tower (.inr ht), Builtin.mathCmd_eq o (by rintro n ⟨⟩)]
        rfl
      · refine ⟨.illegalIn o.name, ?_, rfl⟩
        rw [binary_of_doubles (by rintro m n ⟨⟩) rfl (by simpa using ht)]
        rfl
    obtain ⟨e, he, hclass⟩ := hbin
    rw [Opcode.foldFrom, he]
    simp [Total.first, hclass]

end Folds

/-! ## A fixnum and a decimal -/

section Decimals

variable {c s n : ℤ}

theorem pow_scale_le (hs : s ≤ decMaxScale) : (10 : ℤ) ^ s.toNat ≤ 10 ^ 28 := by
  have hle : s.toNat ≤ 28 := Int.toNat_le.mpr hs
  exact pow_le_pow_right₀ (by norm_num) hle

theorem decPow10_scale (hs : s ≤ decMaxScale) : decPow10 s.toNat = some (10 ^ s.toNat) := by
  refine checked_eq_some (fits_of_nonneg (by positivity) ?_)
  exact (pow_scale_le hs).trans_lt (by norm_num)

theorem checked_digits (h : DecimalNormal c s) : checked 128 c = some c := by
  have hd := h.digits
  refine checked_eq_some ?_
  constructor <;> omega

theorem decAlign_left (h : DecimalNormal c s) :
    decAlign (n, 0) (c, s) = some ((checked 128 (n * 10 ^ s.toNat)).map fun x => (x, c, s)) := by
  have hmax : max 0 s = s := max_eq_right h.nonneg
  have hone : decPow10 (s - s).toNat = some 1 := by
    rw [sub_self]
    rfl
  simp only [decAlign, hmax, sub_zero, decPow10_scale h.le, Option.bind_eq_bind, Option.bind_some]
  cases checked 128 (n * 10 ^ s.toNat) with
  | none => rfl
  | some x =>
    dsimp only
    rw [hone, Option.bind_some, mul_one, checked_digits h]
    rfl

theorem decAlign_right (h : DecimalNormal c s) :
    decAlign (c, s) (n, 0) = some ((checked 128 (n * 10 ^ s.toNat)).map fun x => (c, x, s)) := by
  have hmax : max s 0 = s := max_eq_left h.nonneg
  have hone : decPow10 (s - s).toNat = some 1 := by
    rw [sub_self]
    rfl
  simp only [decAlign, hmax, sub_zero, hone, mul_one, checked_digits h, decPow10_scale h.le,
    Option.bind_eq_bind, Option.bind_some]
  rfl

theorem trimZeros_scale_le (c s : ℤ) : (trimZeros c s).2 ≤ s := by
  induction c, s using trimZeros.induct with
  | case1 c s h ih =>
    rw [trimZeros, if_pos h]
    exact ih.trans (by omega)
  | case2 c s h => rw [trimZeros, if_neg h]

/-- A decimal is built, or it has too many digits. -/
theorem makeDecimalRaw_ne_none (hs : s ≤ decMaxScale) (z : ℤ) : makeDecimalRaw z s ≠ none := by
  have hle : ¬ decMaxScale < (trimZeros z s).2 := not_lt.mpr ((trimZeros_scale_le z s).trans hs)
  have hlimit : decPow10 29 = some (10 ^ 29) := checked_eq_some (by decide)
  simp only [makeDecimalRaw, if_neg hle, hlimit, Option.bind_eq_bind, Option.bind_some]
  split <;> exact Option.some_ne_none _

/-- A sum or a difference of a decimal and a small fixnum. -/
theorem decStep_small {o : Op} (ho : o = .add ∨ o = .sub) (h : DecimalNormal c s) (hn : Fits 16 n) :
    decStep o (c, s) (n, 0) =
      (makeDecimalRaw (if o = .sub then c - n * 10 ^ s.toNat else c + n * 10 ^ s.toNat) s).map
        fun r => (decResult r).mapError decErr := by
  have hpos : (0 : ℤ) ≤ 10 ^ s.toNat := by positivity
  have hpow := pow_scale_le h.le
  have hc := h.digits
  obtain ⟨hlo, hhi⟩ := hn
  have hnlo : -2 ^ 15 * 10 ^ 28 ≤ n * 10 ^ s.toNat := by
    have hmul := mul_le_mul_of_nonneg_right hlo hpos
    omega
  have hnhi : n * 10 ^ s.toNat ≤ 2 ^ 15 * 10 ^ 28 := by
    have hmul := mul_le_mul_of_nonneg_right hhi.le hpos
    omega
  have hfits : Fits 128 (n * 10 ^ s.toNat) := by constructor <;> omega
  have hadd : Fits 128 (c + n * 10 ^ s.toNat) := by constructor <;> omega
  have hsub : Fits 128 (c - n * 10 ^ s.toNat) := by constructor <;> omega
  rw [decStep]
  rcases ho with rfl | rfl
  · rw [decBinop, decAddsub, decAlign_right h, checked_eq_some hfits]
    simp only [Option.map_some, Option.bind_eq_bind, Option.bind_some, Bool.false_eq_true, if_false,
      checked_eq_some hadd, reduceCtorEq]
    cases makeDecimalRaw (c + n * 10 ^ s.toNat) s <;> rfl
  · rw [decBinop, decAddsub, decAlign_right h, checked_eq_some hfits]
    simp only [Option.map_some, Option.bind_eq_bind, Option.bind_some, if_true,
      checked_eq_some hsub]
    cases makeDecimalRaw (c - n * 10 ^ s.toNat) s <;> rfl

/-- A sum or a product of a fixnum and a decimal is the same in either order. -/
theorem decStep_comm {o : Op} (ho : o = .add ∨ o = .mul) (h : DecimalNormal c s) :
    decStep o (n, 0) (c, s) = decStep o (c, s) (n, 0) := by
  rw [decStep, decStep]
  rcases ho with rfl | rfl
  · rw [decBinop, decBinop, decAddsub, decAddsub, decAlign_left h, decAlign_right h]
    cases checked 128 (n * 10 ^ s.toNat) with
    | none => rfl
    | some x =>
      simp only [Option.map_some, Option.bind_eq_bind, Option.bind_some, Bool.false_eq_true, if_false]
      rw [add_comm x c]
  · rw [decBinop, decBinop, decMul, decMul]
    simp only [mul_comm n c, add_comm 0 s]

end Decimals

/-! ## A fused instruction -/

section Fused

variable {D : Type} [Double D] [LawfulDouble D] {o : Op} {v w : Value D} {n : ℤ}

/-- Two operands of which the first is a fixnum change places in a sum or a product. -/
theorem mathCmd_swap (ho : o = .add ∨ o = .mul) (hn : FixFits n) (hv : v.WellFormed) :
    (Builtin.mathCmd o [.fix n, v]).classed = (Builtin.mathCmd o [v, .fix n]).classed := by
  have hdiv : o ≠ .div := by rcases ho with rfl | rfl <;> decide
  have hfix : ∀ m, (.fix n : Value D) = .fix m → FixFits m := by
    rintro m ⟨⟩
    exact hn
  have hfix' : ∀ m, v = .fix m → FixFits m := by
    rintro m rfl
    exact hv
  have hn' : (Exact.fix n).WellFormed := hn
  rw [Builtin.mathCmd_eq o hfix, Builtin.mathCmd_eq o hfix']
  simp only [Total.first, Outcome.some_ok_andThen, Total.runs, step_int, hdiv, false_and, if_false]
  rcases v with ((m | ⟨num, den⟩) | ⟨c, s⟩) | f | x
  · simp only [Outcome.some_ok_andThen, step_int, hdiv, false_and, if_false,
      Total.stepInt]
    rcases ho with rfl | rfl
    · rw [fixOpOvf, fixOpOvf, add_comm]
    · rw [fixOpOvf, fixOpOvf, mul_comm]
  · have hr : (Exact.rat num den).WellFormed := hv
    have hcomm : o.apply (Exact.fix n).value (Exact.rat num den).value =
        o.apply (Exact.rat num den).value (Exact.fix n).value := by
      rcases ho with rfl | rfl
      · exact add_comm _ _
      · exact mul_comm _ _
    simp only [Outcome.some_ok_andThen, Total.step, Total.stepInt, Total.stepTower,
      makeFixnum_of_fits hn, exactStep_eq hn'.inRange hr.inRange, exactStep_eq hr.inRange hn'.inRange,
      hdiv, false_and, if_false, hcomm]
    split <;> rfl
  · have hd : DecimalNormal c s := hv
    simp only [Outcome.some_ok_andThen, Total.step, Total.stepInt, Total.stepDec,
      decOfInt_eq (fits_of_fixFits hn), Option.bind_some, decStep_comm ho hd]
  · simp only [Outcome.some_ok_andThen, step_float, hdiv, false_and, if_false,
      Total.stepInt, Total.stepFloat, exactToDouble]
    rcases ho with rfl | rfl
    · rw [LawfulDouble.add_comm_ofInt]
    · rw [LawfulDouble.mul_comm_ofInt]
  · rfl

omit [LawfulDouble D] in
/-- Two operands meet the condition, but for one division. -/
theorem plainOk_pair (hne : o = .div → ¬ (v = .fix fixMin ∧ w = .fix (-1))) :
    Form.plainOk (.arith o) [v, w] := by
  intro t ht
  refine ⟨?_, fun _ _ => trivial⟩
  match v, ht with
  | .num (.exact (.fix m)), ht =>
    cases ht
    cases w with
    | num x =>
      match x with
      | .exact (.fix n) =>
        refine ⟨fun ho hmin => hne ho ⟨?_, ?_⟩, fun _ => .inl rfl⟩
        · rw [hmin.1]
        · rw [hmin.2]
      | .exact (.rat _ _) => trivial
      | .dec _ _ => trivial
    | float f => trivial
    | nonNumber x => trivial
  | .num (.exact (.rat num den)), ht =>
    cases ht
    trivial
  | .num (.dec c s), ht =>
    cases ht
    trivial
  | .float f, ht =>
    cases ht
    trivial

/-- The builtin on a rational and a fixnum, without a division. -/
theorem mathCmd_rat {num den : ℤ} (ho : o = .add ∨ o = .sub) (hr : (Exact.rat num den).WellFormed)
    (hn : FixFits n) :
    Builtin.mathCmd o [(.rat num den : Value D), .fix n] =
      if Fits 64 (if o = .sub then num - n * den else num + n * den) then
        some (.ok (.num (.exact (.ofRat (o.apply (Exact.rat num den).value n)))))
      else some (.error (.fold .exactOverflowNoBignum)) := by
  obtain ⟨-, hden, hpos, hgcd, -⟩ := id hr
  have hn' : (Exact.fix n).WellFormed := hn
  set z := if o = .sub then num - n * den else num + n * den with hz
  have hq : o.apply (Exact.rat num den).value n = (z : ℚ) / den := by
    have hden0 : (den : ℚ) ≠ 0 := by exact_mod_cast hpos.ne'
    rw [hz]
    rcases ho with rfl | rfl
    · simp only [Op.apply, Exact.value, Exact.parts, reduceCtorEq, if_false]
      push_cast
      field_simp
    · simp only [Op.apply, Exact.value, Exact.parts, if_true]
      push_cast
      field_simp
  have hcop : Nat.Coprime z.natAbs den.natAbs := by
    have hdvd : Int.gcd z den = Int.gcd num den := by
      rw [hz]
      split
      · exact Int.gcd_sub_mul_right_left ..
      · exact Int.gcd_add_mul_right_left ..
    exact hdvd.trans hgcd
  have hdiv : o ≠ .div := by rcases ho with rfl | rfl <;> decide
  rw [Builtin.mathCmd_eq o (by rintro m ⟨⟩), Total.first, Outcome.some_ok_andThen, Total.runs,
    Total.step, Total.stepTower, exactStep_eq hr.inRange hn'.inRange, value_fix,
    if_neg (fun h => hdiv h.1), hq, Rat.num_div_eq_of_coprime hpos hcop,
    Rat.den_div_eq_of_coprime hpos hcop]
  simp only [hden, and_true]
  split <;> rfl

omit [LawfulDouble D] in
theorem foldFrom_pair (h : Head) (v w : Value D) :
    Opcode.foldFrom h v [w] = Opcode.binary h v w := by
  rw [Opcode.foldFrom]
  exact Outcome.andThen_ok _

omit [LawfulDouble D] in
/-- The fused opcodes refuse what is neither a fixnum nor a float. -/
theorem slotFix_refuses {h : Head} (hv : coerce v = none) (hh : fuses h = true) :
    ∃ name, slotFix h v n = some (.error (.illegalIn name)) := by
  match h, hh with
  | .arith o, _ =>
    match v, hv with
    | .num (.exact (.rat _ _)), _ => exact ⟨o.name, rfl⟩
    | .num (.dec _ _), _ => exact ⟨o.name, rfl⟩
    | .nonNumber _, _ => exact ⟨o.name, rfl⟩
  | .cmp c, _ =>
    match v, hv with
    | .num (.exact (.rat _ _)), _ => exact ⟨c.name, rfl⟩
    | .num (.dec _ _), _ => exact ⟨c.name, rfl⟩
    | .nonNumber _, _ => exact ⟨c.name, rfl⟩

/-- A fused addition or subtraction. -/
theorem slotFix_arith (ho : o = .add ∨ o = .sub) (hn : Fits 16 n) (hv : v.WellFormed) :
    (slotFix (.arith o) v n).classed = (Builtin.mathCmd o [v, .fix n]).classed ↔
      Form.slotOk (.arith o) v n := by
  have hdiv : o ≠ .div := by rcases ho with rfl | rfl <;> decide
  have hfuses : fuses (.arith o) = true := by rcases ho with rfl | rfl <;> rfl
  have hfix : FixFits n := by
    obtain ⟨hlo, hhi⟩ := hn
    constructor <;> omega
  have hagrees : (Opcode.binary (.arith o) v (.fix n)).classed =
      (Builtin.mathCmd o [v, .fix n]).classed := by
    have hwf : ∀ u ∈ [v, .fix n], u.WellFormed := by
      intro u hu
      rcases List.mem_cons.mp hu with rfl | hu
      · exact hv
      · rw [List.mem_singleton.mp hu]
        exact hfix
    have hfold := fold_agrees hwf (plainOk_pair fun h => absurd h hdiv)
    rwa [foldFrom_pair] at hfold
  rw [← hagrees]
  rcases v with ((m | ⟨num, den⟩) | ⟨c, s⟩) | f | x
  · refine iff_of_true ?_ trivial
    rw [binary_fix hdiv]
    rfl
  · obtain ⟨name, hname⟩ := @slotFix_refuses D _ (.rat num den) n (.arith o) rfl hfuses
    rw [binary_of_tower (.inl rfl), mathCmd_rat ho hv hfix, Form.slotOk, hname]
    by_cases hfits : Fits 64 (if o = .sub then num - n * den else num + n * den)
    · rw [if_pos hfits]
      exact iff_of_false (by simp) (not_not.mpr hfits)
    · rw [if_neg hfits]
      exact iff_of_true rfl hfits
  · have hd : DecimalNormal c s := hv
    obtain ⟨name, hname⟩ := @slotFix_refuses D _ (.dec c s) n (.arith o) rfl hfuses
    rw [binary_of_tower (.inl rfl), Builtin.mathCmd_eq o (by rintro m ⟨⟩), Total.first,
      Outcome.some_ok_andThen, Total.runs, Total.step, Total.stepDec,
      decOfInt_eq (fits_of_fixFits hfix), Option.bind_some, decStep_small ho hd hn, Form.slotOk, hname]
    have hne := makeDecimalRaw_ne_none hd.le
      (if o = .sub then c - n * 10 ^ s.toNat else c + n * 10 ^ s.toNat)
    rcases h : makeDecimalRaw (if o = .sub then c - n * 10 ^ s.toNat else c + n * 10 ^ s.toNat) s with
      _ | _ | d
    · exact absurd h hne
    · exact iff_of_true rfl rfl
    · exact iff_of_false (by simp [decResult, Outcome.ofFold, Except.mapError, Total.runs,
        Total.finish]) (by simp)
  · refine iff_of_true ?_ trivial
    rw [binary_of_coerce (by rintro m - ⟨⟩) rfl rfl, if_neg fun h => hdiv h.1]
    rfl
  · refine iff_of_true ?_ trivial
    rw [binary_of_doubles (by rintro m - ⟨⟩) rfl rfl]
    rfl

/-- A fused comparison. -/
theorem slotFix_cmp (c : Builtin.Cmp) (hn : Fits 16 n) (hv : v.WellFormed) :
    (slotFix (.cmp c) v n).classed = (Builtin.cmpCmd c [v, .fix n]).classed ↔
      Form.slotOk (.cmp c) v n := by
  have hfix : FixFits n := by
    obtain ⟨hlo, hhi⟩ := hn
    constructor <;> omega
  have hagrees := fun hok => (@cmp_agrees D _ c v (.fix n) _ hv hfix).mpr hok
  rcases v with ((m | ⟨num, den⟩) | ⟨c', s⟩) | f | x
  · exact iff_of_true (hagrees (by cases c <;> trivial)) trivial
  · refine iff_of_false ?_ id
    have hr : (Exact.rat num den).WellFormed := hv
    have hn' : (Exact.fix n).WellFormed := hfix
    have hmul : ∀ {a b : ℤ}, Fits 64 a → Fits 64 b → checked 128 (a * b) = some (a * b) :=
      fun ha hb => checked_eq_some (fits128_of_natAbs_lt ((natAbs_mul_le ha hb).trans_lt (by norm_num)))
    have hcmp : Builtin.pairCmp (.rat num den) (.fix n) =
        some (some (ofInt (Builtin.threeWay (num * 1) (n * den)) : D)) := by
      show (Builtin.ratCmp (.rat num den) (.fix n)).map _ = _
      have hnum : checked 128 (num * 1) = some (num * 1) := hmul hr.inRange.num (by decide)
      have hden : checked 128 (n * den) = some (n * den) :=
        hmul (fits_of_fixFits hfix) hr.inRange.den
      simp only [Builtin.ratCmp, Exact.parts, hnum, hden]
      rfl
    obtain ⟨name, hname⟩ := @slotFix_refuses D _ (.rat num den) n (.cmp c) rfl rfl
    rw [cmpCmd_pair, hcmp, hname]
    simp
  · refine iff_of_false ?_ id
    have hd : DecimalNormal c' s := hv
    have hcmp : ∃ d : D, Builtin.pairCmp (.dec c' s) (.fix n) = some (some d) := by
      refine ⟨arith .sub (arith .div (ofInt c') (ofInt (10 ^ s.toNat))) (ofInt n), ?_⟩
      show Builtin.differenceOf (.dec c' s) (.fix n) = _
      simp only [Builtin.differenceOf, Builtin.numberToDouble, decToDouble, decPow10_scale hd.le]
      rfl
    obtain ⟨d, hd⟩ := hcmp
    obtain ⟨name, hname⟩ := @slotFix_refuses D _ (.dec c' s) n (.cmp c) rfl rfl
    rw [cmpCmd_pair, hd, hname]
    simp
  · exact iff_of_true (hagrees (by cases c <;> trivial)) trivial
  · refine iff_of_true ?_ trivial
    rw [cmpCmd_pair]
    cases x <;> rfl

end Fused

/-! ## Forms -/

section Forms

variable {D : Type} [Double D] {h : Head} {args : List (Arg D)} {v w : Value D} {n : ℤ}

omit [Double D] in
theorem canonical_cases (h : Head) (args : List (Arg D)) :
    canonical h args = args ∨ ∃ n a, args = [.literal n, a] ∧ canonical h args = [a, .literal n] ∧
      (h = .arith .add ∨ h = .arith .mul) := by
  unfold canonical
  split
  · rename_i n a
    split
    · rename_i hswap
      exact .inr ⟨n, a, rfl, rfl, hswap.1⟩
    · exact .inl rfl
  · exact .inl rfl

omit [Double D] in
theorem fused_eq_some (hf : fused h args = some (v, n)) :
    args = [.slot v, .literal n] ∧ fuses h = true ∧ Fits 16 n := by
  unfold fused at hf
  split at hf
  · rename_i v' n'
    split at hf
    · rename_i hfuses
      cases hf
      exact ⟨rfl, hfuses⟩
    · cases hf
  · cases hf

theorem agrees_iff {f : Form D} {code : List (Instr D)} (hc : compile f.head f.args = some code) :
    f.Agrees ↔ (exec code []).classed = (f.head.builtin f.values).classed := by
  rw [Form.Agrees, hc]
  exact ⟨fun h => h code rfl, fun h code' hcode => Option.some.inj hcode ▸ h⟩

/-- A form without code of its own. -/
theorem agrees_of_none {f : Form D} (hc : compile f.head f.args = none) : f.Agrees := by
  intro code hcode
  rw [hc] at hcode
  cases hcode

variable [LawfulDouble D]

/-- The least fixnum divided by `-1`: the opcode wraps. -/
theorem div_differs :
    (Opcode.binary (.arith .div) (.fix fixMin : Value D) (.fix (-1))).classed ≠
      (Builtin.mathCmd .div [(.fix fixMin : Value D), .fix (-1)]).classed := by
  have hmin : FixFits fixMin := by decide
  have hfix : ∀ n, (.fix fixMin : Value D) = .fix n → FixFits n := by
    rintro n ⟨⟩
    exact hmin
  have hstep : (Total.int fixMin : Total D).step .div (.fix (-1)) = some (.ok (.int (2 ^ 60))) := by
    simp only [step_int, Builtin.isZeroOperand, Total.stepInt, fixOpOvf_div hmin (by decide : (-1 : ℤ) ≠ 0)]
    rfl
  have hover : ¬ FixFits (2 ^ 60) := by decide
  rw [Builtin.mathCmd_eq .div hfix, Total.first, Outcome.some_ok_andThen, Total.runs, hstep,
    Outcome.some_ok_andThen, Total.runs, Total.finish, if_neg hover]
  show (Opcode.div (.fix fixMin : Value D) (.fix (-1))).classed ≠ _
  rw [Opcode.div]
  simp

/-- A fold of two operands agrees only where the condition holds. -/
theorem plainOk_of_agrees {o : Op}
    (hagrees : (Opcode.binary (.arith o) v w).classed = (Builtin.mathCmd o [v, w]).classed) :
    Form.plainOk (.arith o) [v, w] := by
  refine plainOk_pair ?_
  rintro rfl ⟨rfl, rfl⟩
  exact div_differs hagrees

omit [LawfulDouble D] in
/-- The code of operands that are not fused. -/
theorem exec_plain (hh : h ≠ .abs) (a b : Arg D) (rest : List (Arg D)) :
    exec (.operand a.value :: .operand b.value :: .op h :: foldCode h rest) [] =
      Opcode.foldFrom h a.value ((b :: rest).map Arg.value) := by
  rw [exec, exec, exec_op hh, List.map_cons, Opcode.foldFrom]
  congr 1
  funext r
  exact exec_foldCode hh rest r

/-- A fused form. -/
theorem fused_agrees {f : Form D} (hwf : f.WellFormed) (hh : compile f.head f.args =
      compileArith f.head f.args) (hbin : ¬ (binaryOnly f.head = true ∧ 2 < f.args.length))
    (hf : fused f.head (canonical f.head f.args) = some (v, n)) :
    f.Agrees ↔ Form.slotOk f.head v n := by
  obtain ⟨head, args⟩ := f
  obtain ⟨hcanon, hfuses, hn⟩ := fused_eq_some hf
  have hcode : compile head args = some [.slotFix head v n] := by
    rw [hh, compileArith, if_neg hbin, hf]
  have hexec : exec [.slotFix head v n] [] = slotFix head v n := Outcome.andThen_ok _
  rw [agrees_iff hcode, hexec]
  rcases canonical_cases head args with heq | ⟨n', a, hargs, heq, hswap⟩
  · rw [heq] at hcanon
    subst hcanon
    have hv : v.WellFormed := hwf v List.mem_cons_self
    match head, hfuses with
    | .arith .add, _ => exact slotFix_arith (.inl rfl) hn hv
    | .arith .sub, _ => exact slotFix_arith (.inr rfl) hn hv
    | .cmp c, _ => exact slotFix_cmp c hn hv
  · rw [heq] at hcanon
    cases hcanon
    subst hargs
    have hv : v.WellFormed := hwf v (List.mem_cons_of_mem _ List.mem_cons_self)
    have hfix : FixFits n := hwf (.fix n) List.mem_cons_self
    rcases hswap with rfl | rfl
    · show _ = (Builtin.mathCmd .add [.fix n, v]).classed ↔ _
      rw [mathCmd_swap (.inl rfl) hfix hv]
      exact slotFix_arith (.inl rfl) hn hv
    · cases hfuses

/-- A form of `+`, `-`, `*` or `/` that is not fused. -/
theorem arith_agrees {o : Op} {args : List (Arg D)} (hwf : (⟨.arith o, args⟩ : Form D).WellFormed)
    (hf : fused (.arith o) (canonical (.arith o) args) = none) :
    (Form.plainOk (.arith o) (args.map Arg.value) → (⟨.arith o, args⟩ : Form D).Agrees) ∧
      (args.length ≤ 2 → (⟨.arith o, args⟩ : Form D).Agrees →
        Form.plainOk (.arith o) (args.map Arg.value)) := by
  have hbin : ¬ (binaryOnly (.arith o) = true ∧ 2 < args.length) := by simp [binaryOnly]
  have hcompile : compile (.arith o) args = compileArith (.arith o) args := rfl
  rcases canonical_cases (.arith o) args with heq | ⟨n, a, rfl, heq, hswap⟩
  · match args, heq with
    | [], heq =>
      refine ⟨fun _ => agrees_of_none ?_, fun _ _ => trivial⟩
      rw [hcompile, compileArith, if_neg hbin, hf, heq]
    | [a], heq =>
      refine ⟨fun _ => agrees_of_none ?_, fun _ _ => trivial⟩
      rw [hcompile, compileArith, if_neg hbin, hf, heq]
    | a :: b :: rest, heq =>
      have hcode : compile (.arith o) (a :: b :: rest) =
          some (.operand a.value :: .operand b.value :: .op (.arith o) :: foldCode (.arith o) rest) := by
        rw [hcompile, compileArith, if_neg hbin, hf, heq]
      rw [@agrees_iff D _ ⟨.arith o, a :: b :: rest⟩ _ hcode, exec_plain (by simp)]
      refine ⟨fun hok => fold_agrees hwf hok, fun hlen hagrees => ?_⟩
      obtain rfl : rest = [] := by
        rw [List.length_cons, List.length_cons] at hlen
        exact List.eq_nil_of_length_eq_zero (by omega)
      rw [List.map_singleton, foldFrom_pair] at hagrees
      exact plainOk_of_agrees hagrees
  · have hdiv : o ≠ .div := by
      rintro rfl
      rcases hswap with h | h <;> cases h
    have ho : o = .add ∨ o = .mul := by
      rcases hswap with h | h <;> cases h
      · exact .inl rfl
      · exact .inr rfl
    have hn : FixFits n := hwf (.fix n) List.mem_cons_self
    have ha : a.value.WellFormed := hwf a.value (List.mem_cons_of_mem _ List.mem_cons_self)
    have hwf' : ∀ u ∈ [a.value, .fix n], u.WellFormed := by
      intro u hu
      rcases List.mem_cons.mp hu with rfl | hu
      · exact ha
      · rw [List.mem_singleton.mp hu]
        exact hn
    have hcode : compile (.arith o) [.literal n, a] =
        some (.operand a.value :: .operand (.fix n) :: .op (.arith o) :: foldCode (.arith o) []) := by
      rw [hcompile, compileArith, if_neg hbin, hf, heq]
      rfl
    have hagrees : (⟨.arith o, [.literal n, a]⟩ : Form D).Agrees := by
      rw [agrees_iff hcode]
      show (exec (.operand a.value :: .operand (Arg.literal n).value :: _) []).classed = _
      rw [exec_plain (by simp)]
      show _ = (Builtin.mathCmd o [.fix n, a.value]).classed
      rw [mathCmd_swap ho hn ha]
      exact fold_agrees hwf' (plainOk_pair fun h => absurd h hdiv)
    exact ⟨fun _ => hagrees, fun _ _ => plainOk_pair fun h => absurd h hdiv⟩

omit [Double D] [LawfulDouble D] in
/-- A form of `mod` or a comparison that is not fused. -/
theorem binaryOnly_code {h : Head} (hh : binaryOnly h = true) (args : List (Arg D))
    (hf : fused h (canonical h args) = none) :
    compileArith h args = none ∨ ∃ a b, args = [a, b] ∧
      compileArith h args = some (.operand a.value :: .operand b.value :: .op h :: foldCode h []) := by
  have hcanon : canonical h args = args := by
    rcases canonical_cases h args with heq | ⟨n, a, -, -, rfl | rfl⟩
    · exact heq
    · cases hh
    · cases hh
  rw [hcanon] at hf
  match args, hf, hcanon with
  | [], hf, hcanon => exact .inl (by rw [compileArith, if_neg (by simp), hcanon, hf])
  | [a], hf, hcanon => exact .inl (by rw [compileArith, if_neg (by simp), hcanon, hf])
  | [a, b], hf, hcanon =>
    exact .inr ⟨a, b, rfl, by rw [compileArith, if_neg (by simp), hcanon, hf]⟩
  | a :: b :: c :: rest, _, _ => exact .inl (if_pos ⟨hh, by simp⟩)

omit [LawfulDouble D] in
theorem plainOk_cmp_of_length {c : Builtin.Cmp} {vs : List (Value D)} (hlen : vs.length ≠ 2) :
    Form.plainOk (.cmp c) vs := by
  unfold Form.plainOk
  split
  · rename_i heq
    cases heq
  · exact absurd rfl hlen
  · exact absurd rfl hlen
  · rename_i heq
    cases heq
  · trivial

omit [LawfulDouble D] in
/-- A form of `mod` or a comparison. -/
theorem binaryOnly_agrees {f : Form D} (hh : binaryOnly f.head = true)
    (hc : compile f.head f.args = compileArith f.head f.args)
    (hf : fused f.head (canonical f.head f.args) = none)
    (hpair : ∀ a b, f.args = [a, b] → ((Opcode.binary f.head a.value b.value).classed =
      (f.head.builtin [a.value, b.value]).classed ↔ Form.plainOk f.head [a.value, b.value]))
    (hother : f.args.length ≠ 2 → Form.plainOk f.head f.values) :
    f.Agrees ↔ Form.plainOk f.head f.values := by
  rcases binaryOnly_code hh f.args hf with hnone | ⟨a, b, hargs, hcode⟩
  · refine iff_of_true (agrees_of_none (hc.trans hnone)) (hother fun hlen => ?_)
    obtain ⟨a, b, hargs⟩ := List.length_eq_two.mp hlen
    have hcanon := canonical_cases f.head f.args
    rw [hargs] at hnone hcanon hf
    rcases hcanon with heq | ⟨n, x, -, -, h | h⟩
    · rw [compileArith, if_neg (by simp), hf, heq] at hnone
      cases hnone
    · rw [h] at hh
      cases hh
    · rw [h] at hh
      cases hh
  · have habs : f.head ≠ .abs := by
      intro h
      rw [h] at hh
      cases hh
    have hvalues : f.values = [a.value, b.value] := by rw [Form.values, hargs]; rfl
    rw [agrees_iff (hc.trans hcode), exec_plain habs, List.map_singleton, foldFrom_pair, hvalues]
    exact hpair a b hargs

omit [LawfulDouble D] in
/-- `max` and `min`. -/
theorem minMax_agrees {f : Form D} (hh : f.head = .max ∨ f.head = .min) : f.Agrees := by
  obtain ⟨head, args⟩ := f
  intro code hcode
  rcases hh with rfl | rfl
  · match args, hcode with
    | [a, b], hcode =>
      cases hcode
      show (Outcome.andThen (Opcode.max a.value b.value) fun r => exec [] [r]).classed = _
      rw [max_agrees]
      exact congrArg Outcome.classed (Outcome.andThen_ok _)
  · match args, hcode with
    | [a, b], hcode =>
      cases hcode
      show (Outcome.andThen (Opcode.min a.value b.value) fun r => exec [] [r]).classed = _
      rw [min_agrees]
      exact congrArg Outcome.classed (Outcome.andThen_ok _)

omit [LawfulDouble D] in
/-- `abs`. -/
theorem absForm_agrees {args : List (Arg D)} :
    (⟨.abs, args⟩ : Form D).Agrees ↔ Form.plainOk .abs (args.map Arg.value) := by
  match args with
  | [] => exact iff_of_true (agrees_of_none rfl) trivial
  | a :: b :: rest => exact iff_of_true (agrees_of_none rfl) trivial
  | [a] =>
    have hcode : compile .abs [a] = some [.operand a.value, .op .abs] := rfl
    rw [@agrees_iff D _ ⟨.abs, [a]⟩ _ hcode]
    show (Outcome.andThen (Opcode.abs a.value) fun r => exec [] [r]).classed = _ ↔ _
    rw [show (fun r : Value D => exec [] [r]) = fun r => some (.ok r) from rfl, Outcome.andThen_ok]
    exact abs_agrees a.value

end Forms

end Alcove.Numeric
