import Alcove.Numeric.FoldRun

/-!
# One operand in both tiers

The interpreter's fold and the compiled one stay together as long as each operand meets `Total.ok`
(`step_agrees`, `runs_agree`). They part where the total leaves the 61 bits of a fixnum, which the
opcodes check at once and the builtins at the end; where the least fixnum is divided by `-1`, which
the opcode wraps; and where `tower_fold` has a total that is a fixnum or a float, from which the
opcodes go on as with any fixnum or float.
-/

namespace Alcove.Numeric

open Lib Double

/-- The least fixnum. -/
def fixMin : ℤ := -2 ^ 60

namespace Total

variable {D : Type} [Double D]

/-- A total that the opcodes have as well. -/
def WellFormed : Total D → Prop
  | .int n => FixFits n
  | .tower e => e.WellFormed
  | _ => True

/-- The result is a fixnum, or it does not even fit an `int64`. -/
def Bounded (o : Op) (m n : ℤ) : Prop :=
  ∀ r, wholeOp o m n = some r → FixFits r ∨ ¬ Fits 64 r

/-- **When an operand has the same effect in both tiers.** `last` tells that it is the last one. -/
def ok (o : Op) (last : Prop) : Total D → Value D → Prop
  | .int m, .num (.exact (.fix n)) =>
    (o = .div → ¬ (m = fixMin ∧ n = -1)) ∧ (o ≠ .div → last ∨ Bounded o m n)
  | .tower (.fix m), .num (.exact (.fix n)) =>
    (o = .div → n = 0 ∨ n ∣ m ∧ FixFits (m.tdiv n)) ∧ (o ≠ .div → Bounded o m n)
  | .tower (.fix _), .float f => o = .div → isZero f = false
  | .tower (.fix m), .num (.dec c s) =>
    ∃ si, decOfInt m = some si ∧ decStep o si (c, s) = some (.error .decimalOverflow)
  | .towerFloat _, v => o = .div → Builtin.isZeroOperand v = false
  | _, _ => True

end Total

/-! ## Fixnums -/

section Fixnums

variable {m n : ℤ} {o : Op}

theorem makeFixnum_of_fits (h : FixFits n) : makeFixnum n = .fix n := by
  rw [makeFixnum, wrap_eq_self.mpr h]

/-- Of the quotients of two fixnums one does not fit. -/
theorem fixFits_tdiv (hm : FixFits m) (hmin : ¬ (m = fixMin ∧ n = -1)) : FixFits (m.tdiv n) := by
  obtain ⟨hlo, hhi⟩ := hm
  by_cases hunit : n.natAbs = 1
  · rcases Int.natAbs_eq_iff.mp hunit with rfl | rfl
    · rw [Nat.cast_one, Int.tdiv_one]
      exact ⟨hlo, hhi⟩
    · have hne : m ≠ -2 ^ 60 := fun h => hmin ⟨h, rfl⟩
      rw [Nat.cast_one, Int.tdiv_neg, Int.tdiv_one]
      constructor <;> omega
  · have habs : (m.tdiv n).natAbs ≤ 2 ^ 59 := by
      rw [Int.natAbs_tdiv]
      rcases Nat.eq_zero_or_pos n.natAbs with hzero | hpos
      · have hdiv : m.natAbs / n.natAbs = 0 := by rw [hzero, Nat.div_zero]
        exact hdiv.le.trans (Nat.zero_le _)
      · calc m.natAbs / n.natAbs ≤ m.natAbs / 2 := Nat.div_le_div_left (by omega) (by omega)
          _ ≤ 2 ^ 59 := by omega
    constructor <;> omega

theorem fixOpOvf_div (hm : FixFits m) (hn : n ≠ 0) : fixOpOvf .div m n = some (some (m.tdiv n)) := by
  have hle := Int.natAbs_tdiv_le_natAbs m n
  obtain ⟨hlo, hhi⟩ := hm
  have hne : ¬ (m = -2 ^ 63 ∧ n = -1) := by
    rintro ⟨rfl, -⟩
    omega
  have hfits : Fits 64 (m.tdiv n) := by constructor <;> omega
  rw [fixOpOvf, if_neg hne, checkedDiv, if_neg hn, checked_eq_some hfits]
  rfl

/-- Without a division, `fix_op_ovf` checks the exact result. -/
theorem fixOpOvf_eq (ho : o ≠ .div) :
    ∃ r, wholeOp o m n = some r ∧ fixOpOvf o m n = some (checked 64 r) := by
  cases o with
  | add => exact ⟨_, rfl, rfl⟩
  | sub => exact ⟨_, rfl, rfl⟩
  | mul => exact ⟨_, rfl, rfl⟩
  | div => exact absurd rfl ho

theorem checked_eq_none {w : ℕ} {z : ℤ} (h : ¬ Fits w z) : checked w z = none := if_neg h

theorem ofRat_intCast (h : FixFits n) : Exact.ofRat (n : ℚ) = .fix n := by
  rw [Exact.ofRat, Rat.num_intCast, Rat.den_intCast]
  exact if_pos ⟨rfl, h⟩

/-- An exact operation on two fixnums whose result is whole. -/
theorem exactStep_fix {r : ℤ} (hm : FixFits m) (hn : FixFits n) (overflow : FoldError)
    (h0 : ¬ (o = .div ∧ n = 0)) (hr : o.apply m n = r) :
    exactStep o overflow (.fix m) (.fix n) =
      some (if Fits 64 r then .ok (.ofRat r) else .error overflow) := by
  have hm' : (Exact.fix m).WellFormed := hm
  have hn' : (Exact.fix n).WellFormed := hn
  have hzero : ¬ (o = .div ∧ (n : ℚ) = 0) := by simpa using h0
  have hone : Fits 64 ((1 : ℕ) : ℤ) := by decide
  rw [exactStep_eq hm'.inRange hn'.inRange, value_fix, value_fix, if_neg hzero, hr, Rat.num_intCast,
    Rat.den_intCast]
  simp only [hone, and_true]

theorem apply_eq_wholeOp (ho : o ≠ .div) {r : ℤ} (hr : wholeOp o m n = some r) :
    o.apply m n = r := by
  cases o with
  | div => exact absurd rfl ho
  | add =>
    cases hr
    simp [Op.apply]
  | sub =>
    cases hr
    simp [Op.apply]
  | mul =>
    cases hr
    simp [Op.apply]

end Fixnums

/-! ## One step -/

/-- The outcomes of an operand in both tiers, as long as they stay together. The last operand may
leave a total that the builtin rejects at its end. -/
inductive StepAgrees {D : Type} (last : Prop) : Outcome (Total D) → Outcome (Value D) → Prop
  | undefined : StepAgrees last none none
  | error {e e' : ArithError} (h : e.errorClass = e'.errorClass) :
      StepAgrees last (some (.error e)) (some (.error e'))
  | ok {t : Total D} (h : t.WellFormed) : StepAgrees last (some (.ok t)) (some (.ok t.value))
  | late {n : ℤ} {e : ArithError} (hlast : last) (hn : ¬ FixFits n)
      (he : e.errorClass = .illegalValue) :
      StepAgrees last (some (.ok (.int n))) (some (.error e))

section Kept

variable {D : Type} {last : Prop}

/-- The total is one that the opcodes have. -/
def Kept (t : Total D) : Prop := t.WellFormed ∧ t.finish = some (.ok t.value)

theorem agrees_of_kept {r : Outcome (Total D)} (h : ∀ t, r = some (.ok t) → Kept t) :
    StepAgrees last r (r.andThen Total.finish) := by
  rcases r with _ | e | t
  · exact .undefined
  · exact .error rfl
  · obtain ⟨hwf, hfinish⟩ := h t rfl
    rw [Outcome.some_ok_andThen, hfinish]
    exact .ok hwf

/-- What `rat_binop` builds is well-formed. -/
theorem kept_exactStep {o : Op} {overflow : FoldError} {a b : Exact} (ha : a.InRange) (hb : b.InRange)
    {t : Total D} (h : (Outcome.ofFold (exactStep o overflow a b)).andThen
      (fun e => some (.ok (.tower e))) = some (.ok t)) : Kept t := by
  rw [exactStep_eq ha hb] at h
  split at h
  · cases h
  · split at h
    · rename_i hfit
      cases h
      exact ⟨wellFormed_ofRat hfit.1 hfit.2, rfl⟩
    · cases h

theorem kept_decStep {r : Option (Except FoldError (ℤ × ℤ))} {t : Total D}
    (h : (Outcome.ofFold r).andThen (fun d => some (.ok (.dec d.1 d.2))) = some (.ok t)) :
    Kept t := by
  rcases r with _ | _ | d
  · cases h
  · cases h
  · cases h
    exact ⟨trivial, rfl⟩

theorem kept_stepTower [Double D] {o : Op} {v : Value D} {e : Exact} (he : e.InRange) (hv : v.WellFormed) {t : Total D}
    (h : Total.stepTower o e v = some (.ok t)) : Kept t := by
  match v, hv with
  | .num (.exact w), hv =>
    have hw : w.WellFormed := hv
    exact kept_exactStep he hw.inRange h
  | .float w, _ =>
    cases h
    exact ⟨trivial, rfl⟩
  | .num (.dec _ _), _ => cases h
  | .nonNumber _, _ => cases h

theorem kept_stepDec {o : Op} {v : Value D} {d : ℤ × ℤ} {t : Total D} (h : Total.stepDec o d v = some (.ok t)) :
    Kept t := by
  match v with
  | .num (.dec c s) => exact kept_decStep h
  | .num (.exact (.fix n)) =>
    rw [Total.stepDec] at h
    cases hwd : decOfInt n with
    | none =>
      rw [hwd] at h
      cases h
    | some wd =>
      rw [hwd, Option.bind_some] at h
      exact kept_decStep h
  | .num (.exact (.rat _ _)) => cases h
  | .float _ => cases h
  | .nonNumber _ => cases h

end Kept

section Step

variable {D : Type} [Double D] [LawfulDouble D] {o : Op} {last : Prop} {v : Value D}

open Opcode

omit [LawfulDouble D] in
/-- The opcodes leave rationals and decimals to the builtin. -/
theorem binary_of_tower {a b : Value D} (h : isTower a = true ∨ isTower b = true) :
    Opcode.binary (.arith o) a b = Builtin.mathCmd o [a, b] := by
  have hdiv : ∀ o : Op, binArith o a b = Builtin.mathCmd o [a, b] := by
    intro o
    unfold binArith
    split
    · rcases h with h | h <;> cases h
    · rw [if_pos h]
  cases o with
  | div =>
    show Opcode.div a b = _
    unfold Opcode.div
    split
    · rcases h with h | h <;> cases h
    · rw [if_pos h]
  | add => exact hdiv .add
  | sub => exact hdiv .sub
  | mul => exact hdiv .mul

/-- Such an operand is a step of the fold, and its end. -/
theorem binary_delegated {a : Value D} {t : Total D} (ha : ∀ n, a = .fix n → FixFits n)
    (hfirst : Total.first a = .ok t) (htower : isTower a = true ∨ isTower v = true) :
    Opcode.binary (.arith o) a v = (t.step o v).andThen Total.finish := by
  rw [binary_of_tower htower, Builtin.mathCmd_eq o ha, hfirst]
  rfl

/-- An operand after a total in `decimal_fold`. -/
theorem agrees_dec (c s : ℤ) :
    StepAgrees last (Total.step o (.dec c s) v) (Opcode.binary (.arith o) (.dec c s) v) := by
  rw [@binary_delegated D _ _ o v (.dec c s) (.dec c s) (by rintro n ⟨⟩) rfl (.inl rfl)]
  exact agrees_of_kept fun t ht => kept_stepDec ht

/-- An operand after a rational total. -/
theorem agrees_rat {num den : ℤ} (he : (Exact.rat num den).WellFormed) (hv : v.WellFormed) :
    StepAgrees last (Total.step o (.tower (.rat num den)) v)
      (Opcode.binary (.arith o) (.rat num den) v) := by
  rw [@binary_delegated D _ _ o v (.rat num den) (.tower (.rat num den)) (by rintro n ⟨⟩) rfl
    (.inl rfl)]
  exact agrees_of_kept fun t ht => kept_stepTower he.inRange hv ht

omit [LawfulDouble D] in
/-- On other operands, that are not both fixnums, the opcodes work on doubles. -/
theorem binary_of_doubles {a b : Value D} (hfix : ∀ m n, a = .fix m → b ≠ .fix n)
    (ha : isTower a = false) (hb : isTower b = false) :
    Opcode.binary (.arith o) a b = doubles o.name a b fun x y =>
      if o = .div ∧ isZero y = true then some (.error .divBy0)
      else some (.ok (.float (arith o x y))) := by
  have htower : ¬ (isTower a = true ∨ isTower b = true) := by simp [ha, hb]
  have harith : ∀ o : Op, o ≠ .div → binArith o a b = doubles o.name a b fun x y =>
      if o = .div ∧ isZero y = true then some (.error .divBy0)
      else some (.ok (.float (arith o x y))) := by
    intro o ho
    unfold binArith
    split
    · exact absurd rfl (hfix _ _ rfl)
    · simp only [if_neg htower, ho, false_and, if_false]
  cases o with
  | div =>
    show Opcode.div a b = _
    unfold Opcode.div
    split
    · exact absurd rfl (hfix _ _ rfl)
    · simp only [if_neg htower, true_and]
      rfl
  | add => exact harith .add (by simp)
  | sub => exact harith .sub (by simp)
  | mul => exact harith .mul (by simp)

/-- A fixnum or a float and its double are zero alike. -/
theorem isZeroOperand_of_coerce {x : D} (h : coerce v = some x) :
    Builtin.isZeroOperand v = isZero x := by
  match v, h with
  | .num (.exact (.fix n)), h =>
    cases h
    rw [LawfulDouble.isZero_ofInt]
    rfl
  | .float f, h =>
    cases h
    rfl

/-- Two operands that are fixnums or floats, not both fixnums. -/
theorem binary_of_coerce {a b : Value D} {x y : D} (hfix : ∀ m n, a = .fix m → b ≠ .fix n)
    (hx : coerce a = some x) (hy : coerce b = some y) :
    Opcode.binary (.arith o) a b =
      if o = .div ∧ Builtin.isZeroOperand b = true then some (.error .divBy0)
      else some (.ok (.float (arith o x y))) := by
  have htower : ∀ {c : Value D} {z : D}, coerce c = some z → isTower c = false := by
    intro c z hc
    match c, hc with
    | .num (.exact (.fix _)), _ => rfl
    | .float _, _ => rfl
  rw [binary_of_doubles hfix (htower hx) (htower hy), isZeroOperand_of_coerce hy, doubles, hx, hy]

omit [LawfulDouble D] in
/-- The second operand is no number. -/
theorem binary_nonNumber {a : Value D} {x : NonNumber} (ha : isTower a = false) :
    Opcode.binary (.arith o) a (.nonNumber x) = some (.error (.illegalIn o.name)) := by
  rw [binary_of_doubles (by rintro - n - ⟨⟩) ha rfl, doubles]
  cases coerce a <;> rfl

omit [LawfulDouble D] in
theorem step_int (sum : ℤ) : (Total.int sum).step o v =
    if o = .div ∧ Builtin.isZeroOperand v then some (.error .divBy0) else Total.stepInt o sum v := rfl

omit [LawfulDouble D] in
theorem step_float (f : D) : (Total.float f).step o v =
    if o = .div ∧ Builtin.isZeroOperand v then some (.error .divBy0) else Total.stepFloat o f v := rfl

omit [LawfulDouble D] in
theorem binary_fix (ho : o ≠ .div) (m n : ℤ) :
    Opcode.binary (.arith o) (.fix m : Value D) (.fix n) = fixArith o m n := by
  cases o with
  | div => exact absurd rfl ho
  | add => rfl
  | sub => rfl
  | mul => rfl

omit [LawfulDouble D] in
/-- A fixnum after a total of fixnums. -/
theorem agrees_int_fix {m n : ℤ} (hm : FixFits m)
    (hok : (Total.int m : Total D).ok o last (.fix n)) :
    StepAgrees last (Total.step o (.int m) (.fix n : Value D))
      (Opcode.binary (.arith o) (.fix m) (.fix n)) := by
  obtain ⟨hdiv, hfits⟩ := hok
  by_cases ho : o = .div
  · subst ho
    show StepAgrees last _ (Opcode.div (.fix m) (.fix n))
    by_cases hn : n = 0
    · subst hn
      exact .error rfl
    · have hstep : (Total.int m : Total D).step .div (.fix n) = some (.ok (.int (m.tdiv n))) := by
        simp [Total.step, Builtin.isZeroOperand, hn, Total.stepInt, fixOpOvf_div hm hn]
      have hquot : FixFits (m.tdiv n) := fixFits_tdiv hm (hdiv rfl)
      rw [hstep, Opcode.div]
      simp only [if_neg hn, makeFixnum_of_fits hquot]
      exact .ok hquot
  · obtain ⟨r, hr, hovf⟩ := @fixOpOvf_eq m n o ho
    have hdiv : ¬ (o = .div ∧ Builtin.isZeroOperand (.fix n : Value D) = true) := fun h => ho h.1
    rw [binary_fix ho, step_int, if_neg hdiv, Total.stepInt, fixArith, hovf]
    by_cases h64 : Fits 64 r
    · rw [checked_eq_some h64]
      by_cases h61 : FixFits r
      · simp only [Option.map_some, if_pos h61]
        exact .ok h61
      · simp only [Option.map_some, if_neg h61]
        refine .late ?_ h61 rfl
        rcases hfits ho with hlast | hbound
        · exact hlast
        · exact absurd h64 ((hbound r hr).resolve_left h61)
    · rw [checked_eq_none h64]
      exact .error rfl

/-- An operand after a total of fixnums. -/
theorem agrees_int {m : ℤ} (hm : FixFits m) (hv : v.WellFormed)
    (hok : (Total.int m : Total D).ok o last v) :
    StepAgrees last (Total.step o (.int m) v) (Opcode.binary (.arith o) (.fix m) v) := by
  have hfix : ∀ n, (.fix m : Value D) = .fix n → FixFits n := by
    rintro n ⟨⟩
    exact hm
  have hrange : (makeFixnum m).InRange := (wellFormed_makeFixnum m).inRange
  rcases v with ((n | ⟨num, den⟩) | ⟨c, s⟩) | w | x
  · exact agrees_int_fix hm hok
  · have hr : (Exact.rat num den).WellFormed := hv
    rw [binary_delegated hfix rfl (.inr rfl), step_int, if_neg (by simp [Builtin.isZeroOperand])]
    exact agrees_of_kept fun t ht => kept_exactStep hrange hr.inRange ht
  · rw [binary_delegated hfix rfl (.inr rfl), step_int, if_neg (by simp [Builtin.isZeroOperand])]
    refine agrees_of_kept fun t ht => ?_
    rw [Total.stepInt] at ht
    cases hsi : decOfInt m with
    | none =>
      rw [hsi] at ht
      cases ht
    | some si =>
      rw [hsi, Option.bind_some] at ht
      exact kept_decStep ht
  · rw [binary_of_coerce (by rintro - n - ⟨⟩) rfl rfl, Total.step]
    split
    · exact .error rfl
    · exact @StepAgrees.ok D last (.float (arith o (ofInt m) w)) trivial
  · rw [binary_nonNumber rfl, Total.step, if_neg (by simp [Builtin.isZeroOperand])]
    exact .error rfl

/-- An operand after a total of doubles. -/
theorem agrees_float (f : D) :
    StepAgrees last (Total.step o (.float f) v) (Opcode.binary (.arith o) (.float f) v) := by
  have hfix : ∀ n, (.float f : Value D) = .fix n → FixFits n := by rintro n ⟨⟩
  have hdouble : ∀ x, coerce v = some x →
      Total.stepFloat o f v = some (.ok (.float (arith o f x))) →
      StepAgrees last (Total.step o (.float f) v) (Opcode.binary (.arith o) (.float f) v) := by
    intro x hx hstep
    rw [binary_of_coerce (by rintro m n ⟨⟩) rfl hx, Total.step, hstep]
    split
    · exact .error rfl
    · exact @StepAgrees.ok D last (.float (arith o f x)) trivial
  rcases v with ((n | ⟨num, den⟩) | ⟨c, s⟩) | w | x
  · exact hdouble _ rfl rfl
  · rw [@binary_delegated D _ _ o _ _ (.float f) hfix rfl (.inr rfl), Total.step,
      if_neg (by simp [Builtin.isZeroOperand])]
    exact @StepAgrees.ok D last (.float (arith o f (exactToDouble (.rat num den)))) trivial
  · rw [@binary_delegated D _ _ o _ _ (.float f) hfix rfl (.inr rfl), Total.step,
      if_neg (by simp [Builtin.isZeroOperand])]
    exact .error rfl
  · exact hdouble _ rfl rfl
  · rw [binary_nonNumber rfl, Total.step, if_neg (by simp [Builtin.isZeroOperand])]
    exact .error rfl

/-- An operand after a total of `tower_fold` that is a double. -/
theorem agrees_towerFloat {f : D} (hok : (Total.towerFloat f : Total D).ok o last v) :
    StepAgrees last (Total.step o (.towerFloat f) v) (Opcode.binary (.arith o) (.float f) v) := by
  have hzero : ¬ (o = .div ∧ Builtin.isZeroOperand v = true) := by
    rintro ⟨ho, hz⟩
    rw [show Builtin.isZeroOperand v = false from hok ho] at hz
    cases hz
  have hfix : ∀ n, (.float f : Value D) = .fix n → FixFits n := by rintro n ⟨⟩
  have hdouble : ∀ x, coerce v = some x →
      Total.stepTowerFloat o f v = some (.ok (.towerFloat (arith o f x))) →
      StepAgrees last (Total.step o (.towerFloat f) v) (Opcode.binary (.arith o) (.float f) v) := by
    intro x hx hstep
    rw [binary_of_coerce (by rintro m n ⟨⟩) rfl hx, if_neg hzero, Total.step, hstep]
    exact @StepAgrees.ok D last (.towerFloat (arith o f x)) trivial
  rcases v with ((n | ⟨num, den⟩) | ⟨c, s⟩) | w | x
  · exact hdouble _ rfl rfl
  · rw [@binary_delegated D _ _ o _ _ (.float f) hfix rfl (.inr rfl), step_float, if_neg hzero]
    exact @StepAgrees.ok D last (.towerFloat (arith o f (exactToDouble (.rat num den)))) trivial
  · rw [@binary_delegated D _ _ o _ _ (.float f) hfix rfl (.inr rfl), step_float, if_neg hzero]
    exact .error rfl
  · exact hdouble _ rfl rfl
  · rw [binary_nonNumber rfl]
    exact .error rfl

omit [LawfulDouble D] in
/-- A fixnum after a total of `tower_fold` that is a fixnum. -/
theorem agrees_tower_fix {m n : ℤ} (hm : FixFits m) (hn : FixFits n)
    (hok : (Total.tower (.fix m) : Total D).ok o last (.fix n)) :
    StepAgrees last (Total.step o (.tower (.fix m)) (.fix n : Value D))
      (Opcode.binary (.arith o) (.fix m) (.fix n)) := by
  obtain ⟨hdiv, hfits⟩ := hok
  rw [Total.step, Total.stepTower]
  by_cases ho : o = .div
  · subst ho
    show StepAgrees last _ (Opcode.div (.fix m) (.fix n))
    by_cases h0 : n = 0
    · subst h0
      have hm' : (Exact.fix m).WellFormed := hm
      have hn' : (Exact.fix 0).WellFormed := hn
      rw [exactStep_eq hm'.inRange hn'.inRange, if_pos ⟨rfl, value_fix 0⟩]
      exact .error rfl
    · obtain ⟨hdvd, hquot⟩ := (hdiv rfl).resolve_left h0
      have hr : Op.div.apply m n = (m.tdiv n : ℤ) := (cast_tdiv hdvd h0).symm
      rw [exactStep_fix hm hn _ (fun h => h0 h.2) hr, if_pos (fits_of_fixFits hquot),
        ofRat_intCast hquot, Opcode.div]
      simp only [if_neg h0, makeFixnum_of_fits hquot]
      exact @StepAgrees.ok D last (.tower (.fix (m.tdiv n))) hquot
  · obtain ⟨r, hr, hovf⟩ := @fixOpOvf_eq m n o ho
    rw [binary_fix ho, fixArith, hovf,
      exactStep_fix hm hn _ (fun h => ho h.1) (apply_eq_wholeOp ho hr)]
    rcases hfits ho r hr with h61 | h64
    · have h64 : Fits 64 r := fits_of_fixFits h61
      rw [if_pos h64, checked_eq_some h64, ofRat_intCast h61]
      simp only [Option.map_some, if_pos h61]
      exact @StepAgrees.ok D last (.tower (.fix r)) h61
    · rw [if_neg h64, checked_eq_none h64]
      exact .error rfl

/-- An operand after a total of `tower_fold` that is a fixnum. -/
theorem agrees_towerFix {m : ℤ} (hm : FixFits m) (hv : v.WellFormed)
    (hok : (Total.tower (.fix m) : Total D).ok o last v) :
    StepAgrees last (Total.step o (.tower (.fix m)) v) (Opcode.binary (.arith o) (.fix m) v) := by
  have hfix : ∀ n, (.fix m : Value D) = .fix n → FixFits n := by
    rintro n ⟨⟩
    exact hm
  have hm' : (Exact.fix m).WellFormed := hm
  rcases v with ((n | ⟨num, den⟩) | ⟨c, s⟩) | w | x
  · exact agrees_tower_fix hm hv hok
  · have hr : (Exact.rat num den).WellFormed := hv
    rw [@binary_delegated D _ _ o _ _ (.int m) hfix rfl (.inr rfl), step_int,
      if_neg (by simp [Builtin.isZeroOperand]), Total.step, Total.stepTower, Total.stepInt,
      makeFixnum_of_fits hm, exactStep_eq hm'.inRange hr.inRange, exactStep_eq hm'.inRange hr.inRange]
    split
    · exact .error rfl
    · split
      · rename_i hfit
        exact @StepAgrees.ok D last (.tower _) (wellFormed_ofRat hfit.1 hfit.2)
      · exact .error rfl
  · obtain ⟨si, hsi, hdec⟩ := hok
    rw [@binary_delegated D _ _ o _ _ (.int m) hfix rfl (.inr rfl), step_int,
      if_neg (by simp [Builtin.isZeroOperand]), Total.stepInt, hsi, Option.bind_some, hdec]
    exact .error rfl
  · have hzero : ¬ (o = .div ∧ isZero w = true) := by
      rintro ⟨ho, hz⟩
      rw [show isZero w = false from hok ho] at hz
      cases hz
    rw [binary_of_coerce (by rintro - n - ⟨⟩) rfl rfl, Builtin.isZeroOperand, if_neg hzero]
    exact @StepAgrees.ok D last (.towerFloat (arith o (ofInt m) w)) trivial
  · rw [binary_nonNumber rfl]
    exact .error rfl

/-- **An operand has the same effect in both tiers where `Total.ok` holds.** -/
theorem step_agrees {t : Total D} (ht : t.WellFormed) (hv : v.WellFormed) (hok : t.ok o last v) :
    StepAgrees last (t.step o v) (Opcode.binary (.arith o) t.value v) := by
  cases t with
  | int m => exact agrees_int ht hv hok
  | float f => exact agrees_float f
  | towerFloat f => exact agrees_towerFloat hok
  | dec c s => exact agrees_dec c s
  | tower e =>
    cases e with
    | fix m => exact agrees_towerFix ht hv hok
    | rat num den => exact agrees_rat ht hv

end Step

/-! ## Runs -/

section Run

variable {D : Type} [Double D] {o : Op}

/-- Each operand meets `Total.ok` at the total that the builtin has before it. -/
def okRun (o : Op) : Total D → List (Value D) → Prop
  | _, [] => True
  | t, v :: rest => t.ok o (rest = []) v ∧ ∀ t', t.step o v = some (.ok t') → okRun o t' rest

omit [Double D] in
theorem finish_of_wellFormed {t : Total D} (ht : t.WellFormed) : t.finish = some (.ok t.value) := by
  cases t with
  | int n => exact if_pos ht
  | float f => rfl
  | tower e => rfl
  | towerFloat f => rfl
  | dec c s => rfl

/-- **The folds of both tiers agree.** -/
theorem runs_agree [LawfulDouble D] {t : Total D} {rest : List (Value D)} (ht : t.WellFormed)
    (hwf : ∀ v ∈ rest, v.WellFormed) (hok : okRun o t rest) :
    (Opcode.foldFrom (.arith o) t.value rest).classed = (t.runs o rest).classed := by
  induction rest generalizing t with
  | nil =>
    rw [Total.runs, finish_of_wellFormed ht]
    rfl
  | cons v rest ih =>
    obtain ⟨hv, hrest⟩ := hok
    rw [Opcode.foldFrom, Total.runs]
    have hstep := step_agrees ht (hwf v List.mem_cons_self) hv
    generalize hr : t.step o v = r at hstep hrest
    generalize Opcode.binary (.arith o) t.value v = r' at hstep
    cases hstep with
    | undefined => rfl
    | error h => simp [h]
    | ok h => exact ih h (fun w hw => hwf w (List.mem_cons_of_mem _ hw)) (hrest _ rfl)
    | late hlast hn he =>
      subst hlast
      simp [Total.runs, Total.finish, hn, he]

end Run

end Alcove.Numeric
