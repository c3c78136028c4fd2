import Alcove.Generator.Step
import Mathlib.Tactic.Ring

/-!
# The elements of a generator

A generator that `gen-list`, `gen-range`, `gen-map` and `gen-filter` compose has stages over a source,
and the source a list of elements. A step hands the elements of the source on through the stages until
one gives a value (`genStep_drain`); `relay` is what the stages do with one element.

* `rangeElems`: the numbers of a range; a step past the last fixnum is past the end.
* `drain`: the first value, and the elements after it.
-/

namespace Alcove.Generator

open Lib

/-! ## Stages over a source -/

/-- A `gen-map` or a `gen-filter`. -/
inductive Stage
  | map (fn : Val)
  | filter (pred : Val)
  deriving DecidableEq

/-- The stages, from the outermost one in. -/
def Gen.stages : Gen → List Stage
  | .map fn inner => .map fn :: inner.stages
  | .filter pred inner => .filter pred :: inner.stages
  | _ => []

/-- The elements of a list. -/
def listElems : Val → List Val
  | .pair content next =>
    if Val.istrue (.pair content next) then content.orNil :: listElems next else []
  | _ => []

/-- The number of steps from the cursor before the end is reached. -/
def rangeCount (cur stop stp : ℤ) : ℕ :=
  (if 0 < stp then (stop - cur + stp - 1) / stp else (cur - stop - stp - 1) / -stp).toNat

/-- The numbers from the cursor on, before the end. -/
def rangeElems (cur stop stp : ℤ) : List Val :=
  (List.range (rangeCount cur stop stp)).map fun i : ℕ => .fix (makeFix (cur + i * stp))

/-- The elements of the source that are left. -/
def Gen.elems : Gen → List Val
  | .list cur => listElems cur
  | .range cur stop stp => rangeElems cur.1 stop.1 stp.1
  | .map _ inner => inner.elems
  | .filter _ inner => inner.elems
  | _ => []

/-- The generators that the four constructors compose. -/
def Built : Gen → Prop
  | .list _ => True
  | .range _ _ stp => stp.1 ≠ 0
  | .map _ inner => Built inner
  | .filter _ inner => Built inner
  | _ => False

theorem built_genlist {lst : Val} {g : Gen} (h : genlist lst = .ok g) : Built g := by
  rw [genlist] at h
  split at h <;> cases h
  trivial

theorem built_genrange {a : Val} {b c : Option Val} {g : Gen} (h : genrange a b c = .ok g) :
    Built g := by
  have hone : (makeFix 1).1 ≠ 0 := by decide
  rw [genrange.eq_def] at h
  split at h <;> split at h <;> try cases h
  · exact hone
  · exact hone
  · split at h <;> cases h
    assumption

theorem built_genmap {fn : Val} {g g' : Gen} (hg : Built g) (h : genmap fn g = .ok g') : Built g' := by
  rw [genmap] at h
  split at h <;> cases h
  exact hg

theorem built_genfilter {pred : Val} {g g' : Gen} (hg : Built g) (h : genfilter pred g = .ok g') :
    Built g' := by
  rw [genfilter] at h
  split at h <;> cases h
  exact hg

/-! ## The source -/

theorem listElems_orNil (v : Val) : listElems v.orNil = listElems v := by
  cases v <;> rfl

theorem rangeCount_eq_zero {cur stop stp : ℤ} (h : if 0 < stp then stop ≤ cur else cur ≤ stop)
    (hstp : stp ≠ 0) : rangeCount cur stop stp = 0 := by
  rw [rangeCount]
  split at h
  · next hpos =>
    rw [if_pos hpos, Int.toNat_eq_zero]
    have : (stop - cur + stp - 1) / stp < 1 := Int.ediv_lt_of_lt_mul hpos (by omega)
    omega
  · next hneg =>
    rw [if_neg hneg, Int.toNat_eq_zero]
    have : (cur - stop - stp - 1) / -stp < 1 := Int.ediv_lt_of_lt_mul (by omega) (by omega)
    omega

theorem rangeCount_succ {cur stop stp : ℤ} (h : ¬ if 0 < stp then stop ≤ cur else cur ≤ stop)
    (hstp : stp ≠ 0) : rangeCount cur stop stp = rangeCount (cur + stp) stop stp + 1 := by
  rw [rangeCount, rangeCount]
  split at h
  · next hpos =>
    rw [if_pos hpos, if_pos hpos,
      show stop - cur + stp - 1 = (stop - (cur + stp) + stp - 1) + 1 * stp by ring,
      Int.add_mul_ediv_right _ _ hstp]
    have : 0 ≤ (stop - (cur + stp) + stp - 1) / stp := Int.ediv_nonneg (by omega) (by omega)
    omega
  · next hneg =>
    rw [if_neg hneg, if_neg hneg,
      show cur - stop - stp - 1 = (cur + stp - stop - stp - 1) + 1 * -stp by ring,
      Int.add_mul_ediv_right _ _ (by omega)]
    have : 0 ≤ (cur + stp - stop - stp - 1) / -stp := Int.ediv_nonneg (by omega) (by omega)
    omega

theorem rangeElems_cons {cur stop stp : ℤ} (h : ¬ if 0 < stp then stop ≤ cur else cur ≤ stop)
    (hstp : stp ≠ 0) :
    rangeElems cur stop stp = .fix (makeFix cur) :: rangeElems (cur + stp) stop stp := by
  rw [rangeElems, rangeCount_succ h hstp, List.range_succ_eq_map, List.map_cons, List.map_map,
    rangeElems]
  congr 1
  · simp
  · refine List.map_congr_left fun i _ => ?_
    simp only [Function.comp_apply, Nat.succ_eq_add_one, Nat.cast_add, Nat.cast_one]
    congr 2
    ring

theorem rangeElems_nil {cur stop stp : ℤ} (h : if 0 < stp then stop ≤ cur else cur ≤ stop)
    (hstp : stp ≠ 0) : rangeElems cur stop stp = [] := by
  rw [rangeElems, rangeCount_eq_zero h hstp]
  rfl

/-- A cursor that leaves the fixnums is past the end. -/
theorem past_of_not_fits {cur stop stp : Fixnum} (h : fixFits (cur.1 + stp.1) = false) :
    if 0 < stp.1 then stop.1 ≤ cur.1 + stp.1 else cur.1 + stp.1 ≤ stop.1 := by
  have hno : ¬ Fits 61 (cur.1 + stp.1) := fun hf => by simp [fixFits_iff.mpr hf] at h
  obtain ⟨hc₁, hc₂⟩ := cur.2
  obtain ⟨hs₁, hs₂⟩ := stop.2
  by_contra hlt
  refine hno ?_
  split at hlt <;> constructor <;> omega

/-- A step gives the first of the elements and leaves the rest, or the sentinel when there is none. -/
def First (elems : List Val) (r : Val × Gen) : Prop :=
  (elems = [] ∧ r.1 = .done ∧ r.2.elems = []) ∨
    ∃ x, elems = x :: r.2.elems ∧ r.1 = x ∧ x ≠ .null

theorem orNil_ne_null (v : Val) : v.orNil ≠ .null := by
  rw [Val.orNil]
  split
  · exact fun h => by cases h
  · assumption

theorem stepList_first (cur : Val) : First (listElems cur) (stepList cur) := by
  cases cur with
  | pair content next =>
    cases h : Val.istrue (.pair content next) with
    | true =>
      refine .inr ⟨content.orNil, ?_, ?_, orNil_ne_null content⟩
      · rw [listElems, if_pos h, stepList, if_pos h, Gen.elems, listElems_orNil]
      · rw [stepList, if_pos h]
    | false =>
      have hno : ¬ Val.istrue (.pair content next) = true := by simp [h]
      refine .inl ⟨?_, ?_, ?_⟩
      · rw [listElems, if_neg hno]
      · rw [stepList, if_neg hno]
      · rw [stepList, if_neg hno, Gen.elems, listElems, if_neg hno]
  | _ => exact .inl ⟨rfl, rfl, rfl⟩

theorem stepRange_first {cur stop stp : Fixnum} (hstp : stp.1 ≠ 0) :
    First (rangeElems cur.1 stop.1 stp.1) (stepRange cur stop stp) := by
  rw [stepRange]
  by_cases hdone : if 0 < stp.1 then stop.1 ≤ cur.1 else cur.1 ≤ stop.1
  · rw [if_pos hdone]
    have hnil := rangeElems_nil hdone hstp
    exact .inl ⟨hnil, rfl, hnil⟩
  · rw [if_neg hdone]
    rw [rangeElems_cons hdone hstp, makeFix_fixnum]
    cases hfit : fixFits (cur.1 + stp.1) with
    | false =>
      rw [if_pos (by rfl), rangeElems_nil (past_of_not_fits hfit) hstp]
      have hend : rangeElems stop.1 stop.1 stp.1 = [] :=
        rangeElems_nil (by split <;> exact le_refl _) hstp
      exact .inr ⟨.fix cur, by rw [Gen.elems, hend], rfl, fun h => by cases h⟩
    | true =>
      rw [if_neg (by simp)]
      exact .inr ⟨.fix cur, by rw [Gen.elems, makeFix_val (fixFits_iff.mp hfit)], rfl, fun h => by cases h⟩

/-! ## The stages -/

/-- What comes out of the stages for one element of the source. -/
inductive Outcome
  | value (v : Val)
  | skip
  | ended

variable {σ : Type} (R : Runtime σ)

/-- The code of one stage, on a value from inside. -/
def Stage.run (v : Val) (s : σ) : Stage → Outcome × σ
  | .map fn =>
    let (r, s) := R.apply1 fn v s
    (if r.orNil.isEnd then .ended else .value r.orNil, s)
  | .filter pred =>
    let (ok, s) := R.apply1 pred v s
    (if ok.isError then .value ok else if ok.istrue then .value v else .skip, s)

/-- One element through the stages: an error is handed on to the next one out. -/
def relay : List Stage → Val → σ → Outcome × σ
  | [], x, s => (if x.isEnd then .ended else .value x, s)
  | stage :: stages, x, s =>
    match relay stages x s with
    | (.value v, s) => stage.run R v s
    | r => r

/-- The first value that comes out, or the sentinel, and the elements after it. -/
def drain (stages : List Stage) : List Val → σ → Val × List Val × σ
  | [], s => (.done, [], s)
  | x :: xs, s =>
    match relay R stages x s with
    | (.value v, s) => (v, xs, s)
    | (.ended, s) => (.done, xs, s)
    | (.skip, s) => drain stages xs s

variable {R}

theorem isEnd_orNil {v : Val} (h : v.orNil.isEnd = true) : v.orNil = .done := by
  cases v <;> simp_all [Val.orNil, Val.isEnd]

theorem isEnd_of_isError {v : Val} (h : v.isError = true) : v.isEnd = false := by
  cases v <;> simp_all [Val.isError, Val.isEnd]

theorem run_value {stage : Stage} {v w : Val} {s s' : σ} (hv : v.isEnd = false)
    (h : stage.run R v s = (.value w, s')) : w.isEnd = false := by
  cases stage with
  | map fn =>
    simp only [Stage.run, Prod.mk.injEq] at h
    split at h
    · cases h.1
    · next hend => cases h.1; simpa using hend
  | filter pred =>
    simp only [Stage.run, Prod.mk.injEq] at h
    split at h
    · next herr => cases h.1; exact isEnd_of_isError herr
    · split at h <;> cases h.1
      exact hv

/-- What comes out is not the sentinel. -/
theorem relay_value {stages : List Stage} {x v : Val} {s s' : σ}
    (h : relay R stages x s = (.value v, s')) : v.isEnd = false := by
  induction stages generalizing v s' with
  | nil =>
    rw [relay, Prod.mk.injEq] at h
    split at h
    · cases h.1
    · next hend => cases h.1; simpa using hend
  | cons stage stages ih =>
    cases hin : relay R stages x s with
    | mk o s₁ =>
      rw [relay, hin] at h
      cases o with
      | value u => exact run_value (ih hin) h
      | skip => cases h
      | ended => cases h

/-- What a stage makes of the first value from inside. -/
def outward (stage : Stage) (stages : List Stage) (r : Outcome × σ) (ys : List Val) :
    Val × List Val × σ :=
  match r with
  | (.value w, s) => (w, ys, s)
  | (.ended, s) => (.done, ys, s)
  | (.skip, s) => drain R (stage :: stages) ys s

/-- **A stage takes the first value from inside, and the next one when it skips that.** -/
theorem drain_stage (stage : Stage) (stages : List Stage) (xs : List Val) (s : σ) :
    drain R (stage :: stages) xs s =
      if (drain R stages xs s).1.isEnd then
        (.done, (drain R stages xs s).2.1, (drain R stages xs s).2.2)
      else outward (R := R) stage stages
        (stage.run R (drain R stages xs s).1 (drain R stages xs s).2.2) (drain R stages xs s).2.1 := by
  induction xs generalizing s with
  | nil => rfl
  | cons x xs ih =>
    cases hin : relay R stages x s with
    | mk o s₁ =>
      cases o with
      | value v =>
        have hd : drain R stages (x :: xs) s = (v, xs, s₁) := by rw [drain, hin]
        rw [hd, if_neg (by simp [relay_value hin]), drain, relay, hin]
        rfl
      | skip =>
        have hd : drain R stages (x :: xs) s = drain R stages xs s₁ := by rw [drain, hin]
        rw [hd, ← ih, drain, relay, hin]
      | ended =>
        have hd : drain R stages (x :: xs) s = (.done, xs, s₁) := by rw [drain, hin]
        rw [hd, if_pos (by rfl), drain, relay, hin]

theorem drain_length {stages : List Stage} {xs : List Val} {s : σ}
    (h : (drain R stages xs s).1.isEnd = false) : (drain R stages xs s).2.1.length < xs.length := by
  induction xs generalizing s with
  | nil => cases h
  | cons x xs ih =>
    rw [drain] at h ⊢
    split
    · simp
    · simp
    · next hin =>
      rw [hin] at h
      exact (ih h).trans (Nat.lt_succ_self _)

/-! ## A step -/

theorem First.drain {elems : List Val} {r : Val × Gen} (h : First elems r) (s : σ) :
    drain R [] elems s = (r.1, r.2.elems, s) := by
  obtain ⟨rfl, hv, hnil⟩ | ⟨x, rfl, hv, hnull⟩ := h
  · rw [hv, hnil]
    rfl
  · rw [hv, Generator.drain, relay]
    cases hend : x.isEnd with
    | false => rfl
    | true =>
      have hx : x = .done := by cases x <;> simp_all [Val.isEnd]
      rw [hx]
      rfl

/-- With enough fuel a step gives the first value that comes out of the stages, and leaves the elements
after it. -/
def Steps (R : Runtime σ) (stages : List Stage) (g : Gen) (s : σ) : Prop :=
  ∃ N g', (∀ n, N ≤ n → genStep R n g s =
      some ((drain R stages g.elems s).1, g', (drain R stages g.elems s).2.2)) ∧
    Built g' ∧ g'.stages = stages ∧ g'.elems = (drain R stages g.elems s).2.1

theorem Steps.source {g : Gen} {r : Val × Gen} {s : σ} (h : First g.elems r) (hb : Built r.2)
    (hs : r.2.stages = []) (hstep : ∀ n, genStep R (n + 1) g s = some (r.1, r.2, s)) :
    Steps R [] g s := by
  refine ⟨1, r.2, fun n hn => ?_, hb, hs, ?_⟩
  · obtain ⟨n, rfl⟩ := Nat.exists_eq_add_of_le' hn
    rw [hstep, h.drain]
  · rw [h.drain]

theorem stepList_source (cur : Val) : Built (stepList cur).2 ∧ (stepList cur).2.stages = [] := by
  cases cur with
  | pair content next =>
    rw [stepList]
    split <;> exact ⟨trivial, rfl⟩
  | _ => exact ⟨trivial, rfl⟩

theorem stepRange_source {cur stop stp : Fixnum} (hstp : stp.1 ≠ 0) :
    Built (stepRange cur stop stp).2 ∧ (stepRange cur stop stp).2.stages = [] := by
  rw [stepRange]
  by_cases hdone : if 0 < stp.1 then stop.1 ≤ cur.1 else cur.1 ≤ stop.1
  · rw [if_pos hdone]
    exact ⟨hstp, rfl⟩
  · rw [if_neg hdone]
    split <;> exact ⟨hstp, rfl⟩

theorem outward_map (fn v : Val) (stages : List Stage) (ys : List Val) (s : σ) :
    outward (R := R) (.map fn) stages (Stage.run R v s (.map fn)) ys =
      ((R.apply1 fn v s).1.orNil, ys, (R.apply1 fn v s).2) := by
  rw [Stage.run]
  cases hend : (R.apply1 fn v s).1.orNil.isEnd with
  | false => simp [outward, hend]
  | true =>
    simp only [hend, if_true]
    rw [isEnd_orNil hend]
    rfl

theorem Steps.map {fn : Val} {stages : List Stage} {g : Gen} {s : σ} (h : Steps R stages g s) :
    Steps R (.map fn :: stages) (.map fn g) s := by
  obtain ⟨N, g', hstep, hb, hs, he⟩ := h
  cases hend : (drain R stages g.elems s).1.isEnd with
  | true =>
    have hd : drain R (.map fn :: stages) (Gen.map fn g).elems s =
        (.done, (drain R stages g.elems s).2.1, (drain R stages g.elems s).2.2) := by
      rw [drain_stage, Gen.elems, if_pos hend]
    refine ⟨N + 1, .map fn g', fun n hn => ?_, hb, by rw [Gen.stages, hs], by rw [hd]; exact he⟩
    obtain ⟨m, rfl⟩ : ∃ m, n = m + 1 := ⟨n - 1, by omega⟩
    rw [hd, genStep, hstep m (by omega)]
    simp only [hend, if_true]
  | false =>
    have hd : drain R (.map fn :: stages) (Gen.map fn g).elems s =
        ((R.apply1 fn (drain R stages g.elems s).1 (drain R stages g.elems s).2.2).1.orNil,
          (drain R stages g.elems s).2.1,
          (R.apply1 fn (drain R stages g.elems s).1 (drain R stages g.elems s).2.2).2) := by
      rw [drain_stage, Gen.elems, if_neg (by simp [hend]), outward_map]
    refine ⟨N + 1, .map fn g', fun n hn => ?_, hb, by rw [Gen.stages, hs], by rw [hd]; exact he⟩
    obtain ⟨m, rfl⟩ : ∃ m, n = m + 1 := ⟨n - 1, by omega⟩
    rw [hd, genStep, hstep m (by omega)]
    simp only [hend, Bool.false_eq_true, if_false]

/-- The filter around a generator whose steps are right. The induction is on the number of elements. -/
theorem Steps.filter {pred : Val} {stages : List Stage}
    (ih : ∀ g : Gen, g.stages = stages → Built g → ∀ s : σ, Steps R stages g s) (k : ℕ) :
    ∀ g : Gen, g.elems.length = k → g.stages = stages → Built g → ∀ s : σ,
      Steps R (.filter pred :: stages) (.filter pred g) s := by
  induction k using Nat.strong_induction_on with
  | _ k ihk =>
  intro g hk hg hb s
  obtain ⟨N, g', hstep, hb', hs', he'⟩ := ih g hg hb s
  have hlen : (drain R stages g.elems s).1.isEnd = false →
      (drain R stages g.elems s).2.1.length < g.elems.length := drain_length
  have hd := drain_stage (R := R) (.filter pred) stages g.elems s
  -- what the inner step gives: its value, the elements after it and the state
  generalize hr : drain R stages g.elems s = r at *
  obtain ⟨v, ys, s₁⟩ := r
  dsimp only at hstep hlen hd he'
  have hone : ∀ (w : Val) (s₂ : σ), drain R (.filter pred :: stages) g.elems s = (w, ys, s₂) →
      (∀ m, N ≤ m → genStep R (m + 1) (.filter pred g) s = some (w, .filter pred g', s₂)) →
      Steps R (.filter pred :: stages) (.filter pred g) s := fun w s₂ hw hrun => by
    refine ⟨N + 1, .filter pred g', fun n hn => ?_, hb', by rw [Gen.stages, hs'], ?_⟩
    · obtain ⟨m, rfl⟩ : ∃ m, n = m + 1 := ⟨n - 1, by omega⟩
      rw [Gen.elems, hw, hrun m (by omega)]
    · rw [Gen.elems, Gen.elems, hw, he']
  cases hend : v.isEnd with
  | true =>
    rw [if_pos hend] at hd
    refine hone .done s₁ hd fun m hm => ?_
    rw [genStep, hstep m hm]
    simp only [hend, if_true]
  | false =>
    rw [if_neg (by simp [hend]), Stage.run] at hd
    cases herr : (R.apply1 pred v s₁).1.isError with
    | true =>
      simp only [herr, if_true, outward] at hd
      refine hone _ _ hd fun m hm => ?_
      rw [genStep, hstep m hm]
      simp only [hend, herr, Bool.false_eq_true, if_false, if_true]
    | false =>
      cases hok : (R.apply1 pred v s₁).1.istrue with
      | true =>
        simp only [herr, hok, Bool.false_eq_true, if_false, if_true, outward] at hd
        refine hone _ _ hd fun m hm => ?_
        rw [genStep, hstep m hm]
        simp only [hend, herr, hok, Bool.false_eq_true, if_false, if_true]
      | false =>
        -- the predicate rejects the value, and the loop goes on with the elements after it
        simp only [herr, hok, Bool.false_eq_true, if_false, outward] at hd
        obtain ⟨M, g'', hstep', hb'', hs'', he''⟩ := ihk ys.length (hk ▸ hlen hend) g' (by rw [he']) hs' hb'
          (R.apply1 pred v s₁).2
        rw [Gen.elems, he', ← hd] at hstep' he''
        refine ⟨max N M + 1, g'', fun n hn => ?_, hb'', hs'', he''⟩
        obtain ⟨m, rfl⟩ : ∃ m, n = m + 1 := ⟨n - 1, by omega⟩
        rw [genStep, hstep m (by omega)]
        simp only [hend, herr, hok, Bool.false_eq_true, if_false]
        exact hstep' m (by omega)

/-- **A step drains the source through the stages.** The induction is on the stages, and for a filter on
the elements that are left. -/
theorem genStep_drain (stages : List Stage) (g : Gen) (hg : g.stages = stages) (hb : Built g) (s : σ) :
    Steps R stages g s := by
  induction stages generalizing g s with
  | nil =>
    cases g with
    | list cur =>
      exact .source (stepList_first cur) (stepList_source cur).1 (stepList_source cur).2 fun n => rfl
    | range cur stop stp =>
      exact .source (stepRange_first hb) (stepRange_source hb).1 (stepRange_source hb).2 fun n => rfl
    | map fn inner => cases hg
    | filter pred inner => cases hg
    | closure fn => exact hb.elim
    | other => exact hb.elim
  | cons stage stages ih =>
    cases g with
    | map fn inner =>
      cases hg
      exact .map (ih inner rfl hb s)
    | filter pred inner =>
      cases hg
      exact .filter (fun g hg hb s => ih g hg hb s) inner.elems.length inner rfl rfl hb s
    | _ => cases hg

end Alcove.Generator
