import Alcove.Generator.Elements

/-!
# What the consumers visit

`through` is what the stages make of one element where an error ends the visit, and `visit` hands what comes
out to a consumer, element by element: the list expression of a generator, evaluated in order. `gen-collect`
and `for-gen` do the same with `relay`, which hands an error on to the next stage. So they agree exactly as
long as no stage below the outermost one makes an error (`Quiet`).

A value that is the sentinel `*done*` ends a generator wherever it comes from.
-/

namespace Alcove.Generator

/-! ## One element -/

/-- What the stages make of one element. -/
inductive Result
  | value (v : Val)
  | skip
  | ended
  | error (v : Val)

variable {σ : Type} (R : Runtime σ)

/-- One stage, on a value that is no error. -/
def Stage.apply (v : Val) (s : σ) : Stage → Result × σ
  | .map fn =>
    let (r, s) := R.apply1 fn v s
    (if r.isError then .error r else if r.orNil.isEnd then .ended else .value r.orNil, s)
  | .filter pred =>
    let (ok, s) := R.apply1 pred v s
    (if ok.isError then .error ok else if ok.istrue then .value v else .skip, s)

/-- One element through the stages; the first error is the result. -/
def through : List Stage → Val → σ → Result × σ
  | [], x, s => (if x.isError then .error x else if x.isEnd then .ended else .value x, s)
  | stage :: stages, x, s =>
    match through stages x s with
    | (.value v, s) => stage.apply R v s
    | r => r

variable {α : Type} (body : Val → α → σ → Option Val × α × σ)

/-- The elements through the stages, and what comes out to the consumer, until an error. -/
def visit (stages : List Stage) : List Val → α → σ → Option Val × α × σ
  | [], acc, s => (none, acc, s)
  | x :: xs, acc, s =>
    match through R stages x s with
    | (.value v, s) =>
      match body v acc s with
      | (none, acc, s) => visit stages xs acc s
      | r => r
    | (.skip, s) => visit stages xs acc s
    | (.ended, s) => (none, acc, s)
    | (.error e, s) => (some e, acc, s)

/-- The visit of the code, where the consumer is the first to look for an error. -/
def relayVisit (stages : List Stage) : List Val → α → σ → Option Val × α × σ
  | [], acc, s => (none, acc, s)
  | x :: xs, acc, s =>
    match relay R stages x s with
    | (.value v, s) =>
      if v.isError then (some v, acc, s)
      else
        match body v acc s with
        | (none, acc, s) => relayVisit stages xs acc s
        | r => r
    | (.skip, s) => relayVisit stages xs acc s
    | (.ended, s) => (none, acc, s)

/-! ## The consumers -/

/-- `gen-collect` appends. -/
def collectBody (v : Val) (acc : List Val) (s : σ) : Option Val × List Val × σ := (none, acc ++ [v], s)

/-- `for-gen` evaluates the body forms and keeps their value. -/
def forBody (forms : List (Val → σ → Val × σ)) (v : Val) (ret : Val) (s : σ) : Option Val × Val × σ :=
  let (ret, s) := evalBody forms v ret s
  (if ret.isError then some ret else none, ret, s)

/-- With enough fuel there is this result. -/
def Ends {β : Type} (f : ℕ → Option β) (b : β) : Prop := ∃ N, ∀ n, N ≤ n → f n = some b

/-- The loop that both consumers run. -/
def drive : ℕ → Gen → α → σ → Option (Option Val × α × σ)
  | 0, _, _, _ => none
  | fuel + 1, g, acc, s =>
    match genStep R fuel g s with
    | none => none
    | some (v, g, s) =>
      if v.isEnd then some (none, acc, s)
      else if v.isError then some (some v, acc, s)
      else
        match body v acc s with
        | (none, acc, s) => drive fuel g acc s
        | r => some r

variable {R}

theorem collectLoop_eq (fuel : ℕ) (g : Gen) (acc : List Val) (s : σ) : collectLoop R fuel g acc s =
    (drive R collectBody fuel g acc s).map fun r => (r.1.getD (.ofList r.2.1), r.2.2) := by
  induction fuel generalizing g acc s with
  | zero => rfl
  | succ fuel ih =>
    rw [collectLoop, drive]
    cases hstep : genStep R fuel g s with
    | none => rfl
    | some r =>
      simp only [collectBody]
      split
      · rfl
      · split
        · rfl
        · exact ih ..

theorem forLoop_eq (forms : List (Val → σ → Val × σ)) (fuel : ℕ) (g : Gen) (ret : Val) (s : σ) :
    forLoop R forms fuel g ret s =
      (drive R (forBody forms) fuel g ret s).map fun r => (r.1.getD r.2.1, r.2.2) := by
  induction fuel generalizing g ret s with
  | zero => rfl
  | succ fuel ih =>
    rw [forLoop, drive]
    cases hstep : genStep R fuel g s with
    | none => rfl
    | some r =>
      simp only [forBody]
      split
      · rfl
      · split
        · rfl
        · cases herr : (evalBody forms r.1 ret r.2.2).1.isError with
          | true => rfl
          | false => exact ih ..

variable {body}

/-- The visit goes on after the first value that comes out. -/
theorem relayVisit_drain (stages : List Stage) (xs : List Val) (acc : α) (s : σ) :
    relayVisit R body stages xs acc s =
      if (drain R stages xs s).1.isEnd then (none, acc, (drain R stages xs s).2.2)
      else if (drain R stages xs s).1.isError then
        (some (drain R stages xs s).1, acc, (drain R stages xs s).2.2)
      else
        match body (drain R stages xs s).1 acc (drain R stages xs s).2.2 with
        | (none, acc, s') => relayVisit R body stages (drain R stages xs s).2.1 acc s'
        | r => r := by
  induction xs generalizing s with
  | nil => rfl
  | cons x xs ih =>
    cases hin : relay R stages x s with
    | mk o s₁ =>
      rw [relayVisit, drain, hin]
      cases o with
      | value v =>
        simp only [relay_value hin, Bool.false_eq_true, if_false]
      | skip => exact ih s₁
      | ended => rfl

/-- **The loop ends, and visits what comes out of the stages.** The induction is on the elements that are
left. -/
theorem drive_ends (body : Val → α → σ → Option Val × α × σ) (g : Gen) (hb : Built g) (acc : α) (s : σ) :
    Ends (fun n => drive R body n g acc s) (relayVisit R body g.stages g.elems acc s) := by
  induction hk : g.elems.length using Nat.strong_induction_on generalizing g acc s with
  | _ k ih =>
  obtain ⟨N, g', hstep, hb', hs', he'⟩ := genStep_drain g.stages g rfl hb s
  have hlen : (drain R g.stages g.elems s).1.isEnd = false →
      (drain R g.stages g.elems s).2.1.length < g.elems.length := drain_length
  have hv : relayVisit R body g.stages g.elems acc s = _ := relayVisit_drain g.stages g.elems acc s
  generalize drain R g.stages g.elems s = r at *
  obtain ⟨v, ys, s₁⟩ := r
  dsimp only at hstep hlen hv he'
  have hone : ∀ res, (∀ m, N ≤ m → drive R body (m + 1) g acc s = some res) →
      Ends (fun n => drive R body n g acc s) res := fun res hrun => by
    refine ⟨N + 1, fun n hn => ?_⟩
    obtain ⟨m, rfl⟩ : ∃ m, n = m + 1 := ⟨n - 1, by omega⟩
    exact hrun m (by omega)
  rw [hv]
  cases hend : v.isEnd with
  | true =>
    simp only [if_true]
    exact hone _ fun m hm => by
      rw [drive, hstep m hm]
      simp only [hend, if_true]
  | false =>
    cases herr : v.isError with
    | true =>
      simp only [Bool.false_eq_true, if_false, if_true]
      exact hone _ fun m hm => by
        rw [drive, hstep m hm]
        simp only [hend, herr, Bool.false_eq_true, if_false, if_true]
    | false =>
      simp only [Bool.false_eq_true, if_false]
      cases hbody : body v acc s₁ with
      | mk stop rest =>
        obtain ⟨acc', s₂⟩ := rest
        cases stop with
        | some e =>
          exact hone _ fun m hm => by
            rw [drive, hstep m hm]
            simp only [hend, herr, hbody, Bool.false_eq_true, if_false]
        | none =>
          obtain ⟨M, hM⟩ := ih ys.length (hk ▸ hlen hend) g' hb' acc' s₂ (by rw [he'])
          rw [hs', he'] at hM
          refine ⟨max N M + 1, fun n hn => ?_⟩
          obtain ⟨m, rfl⟩ : ∃ m, n = m + 1 := ⟨n - 1, by omega⟩
          dsimp only
          rw [drive, hstep m (by omega)]
          simp only [hend, herr, hbody, Bool.false_eq_true, if_false]
          exact hM m (by omega)

/-! ## Errors inside -/

/-- No stage below the outermost one makes an error of the element. -/
def InnerQuiet (R : Runtime σ) (x : Val) (s : σ) : List Stage → Prop
  | [] => True
  | _ :: stages => ∀ e, (through R stages x s).1 ≠ .error e

theorem InnerQuiet.inner {stage : Stage} {stages : List Stage} {x : Val} {s : σ}
    (h : InnerQuiet R x s (stage :: stages)) : InnerQuiet R x s stages := by
  cases stages with
  | nil => trivial
  | cons inner stages =>
    intro e he
    refine h e ?_
    rw [through]
    generalize through R stages x s = r at he
    obtain ⟨o, s₁⟩ := r
    dsimp only at he
    subst he
    rfl

/-- What the next stage out sees: an error is a value. -/
def Result.outcome : Result → Outcome
  | .value v => .value v
  | .skip => .skip
  | .ended => .ended
  | .error e => .value e

theorem orNil_of_isError {v : Val} (h : v.isError = true) : v.orNil = v := by
  cases v <;> simp_all [Val.isError, Val.orNil]

theorem isError_orNil (v : Val) : v.orNil.isError = v.isError := by
  cases v <;> rfl

theorem run_apply (stage : Stage) (v : Val) (s : σ) :
    stage.run R v s = ((stage.apply R v s).1.outcome, (stage.apply R v s).2) := by
  cases stage with
  | map fn =>
    rw [Stage.run, Stage.apply]
    cases herr : (R.apply1 fn v s).1.isError with
    | true =>
      have heq := orNil_of_isError herr
      simp [herr, isEnd_of_isError herr, heq, Result.outcome]
    | false =>
      simp only [herr, Bool.false_eq_true, if_false]
      split <;> rfl
  | filter pred =>
    rw [Stage.run, Stage.apply]
    simp only
    split
    · rfl
    · split <;> rfl

/-- An error of the outermost stage comes out as a value, and everything else as what it is. -/
theorem relay_eq {stages : List Stage} {x : Val} {s : σ} (h : InnerQuiet R x s stages) :
    relay R stages x s = ((through R stages x s).1.outcome, (through R stages x s).2) := by
  induction stages with
  | nil =>
    rw [relay, through]
    cases herr : x.isError with
    | true => simp [isEnd_of_isError herr, Result.outcome]
    | false =>
      simp only [Bool.false_eq_true, if_false]
      split <;> rfl
  | cons stage stages ih =>
    have hin := h.inner
    rw [relay, ih hin, through]
    generalize hr : through R stages x s = r
    obtain ⟨o, s₁⟩ := r
    cases o with
    | value v => exact run_apply stage v s₁
    | skip => rfl
    | ended => rfl
    | error e => exact absurd (congrArg Prod.fst hr) (h e)

/-- The values that the functions of the stages are applied to, for one element. -/
def calls (R : Runtime σ) : List Stage → Val → σ → List Val
  | [], _, _ => []
  | _ :: stages, x, s =>
    match (relay R stages x s).1 with
    | .value v => calls R stages x s ++ [v]
    | _ => calls R stages x s

/-- A value that comes through is no error, and an error that does is one. -/
def Result.Sorted : Result → Prop
  | .value v => v.isError = false
  | .error e => e.isError = true
  | _ => True

theorem sorted_apply {stage : Stage} {v : Val} (hv : v.isError = false) (s : σ) :
    (stage.apply R v s).1.Sorted := by
  cases stage with
  | map fn =>
    rw [Stage.apply]
    cases herr : (R.apply1 fn v s).1.isError with
    | true =>
      simp only [herr, if_true]
      exact herr
    | false =>
      simp only [herr, Bool.false_eq_true, if_false]
      split
      · trivial
      · exact (isError_orNil _).trans herr
  | filter pred =>
    rw [Stage.apply]
    simp only
    split
    · assumption
    · split
      · exact hv
      · trivial

theorem sorted_through (stages : List Stage) (x : Val) (s : σ) : (through R stages x s).1.Sorted := by
  induction stages with
  | nil =>
    rw [through]
    cases herr : x.isError with
    | true => exact herr
    | false =>
      simp only [Bool.false_eq_true, if_false]
      split
      · trivial
      · exact herr
  | cons stage stages ih =>
    rw [through]
    generalize through R stages x s = r at ih
    obtain ⟨o, s₁⟩ := r
    cases o with
    | value v => exact sorted_apply ih s₁
    | skip => trivial
    | ended => trivial
    | error e => exact ih

theorem calls_cons {stage : Stage} {stages : List Stage} {x v : Val} {s : σ} :
    v ∈ calls R (stage :: stages) x s ↔
      v ∈ calls R stages x s ∨ ∃ s', relay R stages x s = (.value v, s') := by
  rw [calls]
  generalize relay R stages x s = r
  obtain ⟨o, s₁⟩ := r
  cases o with
  | value w => simp [eq_comm]
  | skip => simp
  | ended => simp

theorem calls_quiet {stages : List Stage} {x : Val} {s : σ} (h : InnerQuiet R x s stages) :
    ∀ v ∈ calls R stages x s, v.isError = false := by
  induction stages with
  | nil => intro v hv; cases hv
  | cons stage stages ih =>
    intro v hv
    rcases calls_cons.mp hv with hv | ⟨s', hs'⟩
    · exact ih h.inner v hv
    · have hsorted := sorted_through (R := R) stages x s
      rw [relay_eq h.inner] at hs'
      cases ho : (through R stages x s).1 with
      | value w =>
        rw [ho] at hs' hsorted
        cases hs'
        exact hsorted
      | skip => rw [ho] at hs'; cases hs'
      | ended => rw [ho] at hs'; cases hs'
      | error e => exact absurd ho (h e)

theorem calls_of_error {stages : List Stage} {x : Val} {s : σ} (h : ¬ InnerQuiet R x s stages) :
    ∃ v ∈ calls R stages x s, v.isError = true := by
  induction stages with
  | nil => exact absurd trivial h
  | cons stage stages ih =>
    by_cases hin : InnerQuiet R x s stages
    · obtain ⟨e, he⟩ := not_forall_not.mp h
      have hsorted := sorted_through (R := R) stages x s
      rw [he] at hsorted
      refine ⟨e, calls_cons.mpr (.inr ⟨(through R stages x s).2, ?_⟩), hsorted⟩
      rw [relay_eq hin, he]
      rfl
    · obtain ⟨v, hv, herr⟩ := ih hin
      exact ⟨v, calls_cons.mpr (.inl hv), herr⟩

/-! ## The whole visit -/

/-- Until the visit ends, no stage below the outermost one makes an error. -/
def Quiet (R : Runtime σ) (body : Val → α → σ → Option Val × α × σ) (stages : List Stage) :
    List Val → α → σ → Prop
  | [], _, _ => True
  | x :: xs, acc, s =>
    InnerQuiet R x s stages ∧
      match through R stages x s with
      | (.value v, s) =>
        match body v acc s with
        | (none, acc, s) => Quiet R body stages xs acc s
        | _ => True
      | (.skip, s) => Quiet R body stages xs acc s
      | _ => True

/-- The values that the functions of the stages are applied to, in a whole visit. -/
def visitCalls (R : Runtime σ) (body : Val → α → σ → Option Val × α × σ) (stages : List Stage) :
    List Val → α → σ → List Val
  | [], _, _ => []
  | x :: xs, acc, s =>
    calls R stages x s ++
      match relay R stages x s with
      | (.value v, s) =>
        if v.isError then []
        else
          match body v acc s with
          | (none, acc, s) => visitCalls R body stages xs acc s
          | _ => []
      | (.skip, s) => visitCalls R body stages xs acc s
      | (.ended, _) => []

/-- **A quiet visit is the visit of the list expression, and hands no error on.** -/
theorem Quiet.visit {stages : List Stage} {xs : List Val} {acc : α} {s : σ}
    (h : Quiet R body stages xs acc s) :
    relayVisit R body stages xs acc s = visit R body stages xs acc s ∧
      ∀ v ∈ visitCalls R body stages xs acc s, v.isError = false := by
  induction xs generalizing acc s with
  | nil => exact ⟨rfl, fun v hv => by cases hv⟩
  | cons x xs ih =>
    obtain ⟨hin, hrest⟩ := h
    have hcalls := calls_quiet hin
    have hsorted := sorted_through (R := R) stages x s
    rw [relayVisit, Generator.visit, visitCalls, relay_eq hin]
    generalize through R stages x s = r at *
    obtain ⟨o, s₁⟩ := r
    have happ : ∀ {l : List Val}, (∀ v ∈ l, v.isError = false) →
        ∀ v ∈ calls R stages x s ++ l, v.isError = false := fun hl v hv =>
      (List.mem_append.mp hv).elim (hcalls v) (hl v)
    cases o with
    | value v =>
      have herr : v.isError = false := hsorted
      simp only [Result.outcome, herr, Bool.false_eq_true, if_false]
      dsimp only at hrest
      generalize body v acc s₁ = b at *
      obtain ⟨stop, acc', s₂⟩ := b
      cases stop with
      | some e => exact ⟨rfl, happ fun v hv => by cases hv⟩
      | none => exact ⟨(ih hrest).1, happ (ih hrest).2⟩
    | skip => exact ⟨(ih hrest).1, happ (ih hrest).2⟩
    | ended => exact ⟨rfl, happ fun v hv => by cases hv⟩
    | error e =>
      have herr : e.isError = true := hsorted
      simp only [Result.outcome, herr, if_true]
      exact ⟨trivial, happ fun v hv => by cases hv⟩

/-- Where no error is handed on, the visit is quiet. -/
theorem quiet_of_visitCalls {stages : List Stage} {xs : List Val} {acc : α} {s : σ}
    (h : ∀ v ∈ visitCalls R body stages xs acc s, v.isError = false) : Quiet R body stages xs acc s := by
  induction xs generalizing acc s with
  | nil => trivial
  | cons x xs ih =>
    have hin : InnerQuiet R x s stages := by
      by_contra hno
      obtain ⟨v, hv, herr⟩ := calls_of_error hno
      have := h v (List.mem_append_left _ hv)
      rw [herr] at this
      cases this
    refine ⟨hin, ?_⟩
    have hsorted := sorted_through (R := R) stages x s
    rw [visitCalls, relay_eq hin] at h
    generalize through R stages x s = r at *
    obtain ⟨o, s₁⟩ := r
    cases o with
    | value v =>
      have herr : v.isError = false := hsorted
      simp only [Result.outcome, herr, Bool.false_eq_true, if_false] at h
      dsimp only
      generalize body v acc s₁ = b at *
      obtain ⟨stop, acc', s₂⟩ := b
      cases stop with
      | some e => trivial
      | none => exact ih fun v hv => h v (List.mem_append_right _ hv)
    | skip => exact ih fun v hv => h v (List.mem_append_right _ hv)
    | ended => trivial
    | error e => trivial

/-! ## The log -/

/-- The runtime that writes down what functions of stages are applied to. -/
def Runtime.logged (R : Runtime σ) : Runtime (σ × List Val) where
  apply0 fn s := ((R.apply0 fn s.1).1, ((R.apply0 fn s.1).2, s.2))
  apply1 fn v s := ((R.apply1 fn v s.1).1, ((R.apply1 fn v s.1).2, s.2 ++ [v]))

/-- A form that leaves the log. -/
def logForm (form : Val → σ → Val × σ) (v : Val) (s : σ × List Val) : Val × σ × List Val :=
  ((form v s.1).1, ((form v s.1).2, s.2))

/-- A consumer that leaves the log. -/
def logBody (body : Val → α → σ → Option Val × α × σ) (v : Val) (acc : α) (s : σ × List Val) :
    Option Val × α × σ × List Val :=
  ((body v acc s.1).1, (body v acc s.1).2.1, ((body v acc s.1).2.2, s.2))

theorem relay_logged (stages : List Stage) (x : Val) (s : σ) (log : List Val) :
    relay R.logged stages x (s, log) =
      ((relay R stages x s).1, ((relay R stages x s).2, log ++ calls R stages x s)) := by
  induction stages with
  | nil =>
    rw [relay, relay, calls, List.append_nil]
  | cons stage stages ih =>
    rw [relay, relay, calls, ih]
    generalize relay R stages x s = r
    obtain ⟨o, s₁⟩ := r
    cases o with
    | value v =>
      rw [← List.append_assoc]
      cases stage with
      | map fn => rfl
      | filter pred => rfl
    | skip => rfl
    | ended => rfl

theorem relayVisit_logged (stages : List Stage) (xs : List Val) (acc : α) (s : σ) (log : List Val) :
    relayVisit R.logged (logBody body) stages xs acc (s, log) =
      ((relayVisit R body stages xs acc s).1, (relayVisit R body stages xs acc s).2.1,
        ((relayVisit R body stages xs acc s).2.2, log ++ visitCalls R body stages xs acc s)) := by
  induction xs generalizing acc s log with
  | nil => rw [relayVisit, relayVisit, visitCalls, List.append_nil]
  | cons x xs ih =>
    rw [relayVisit, relayVisit, visitCalls, relay_logged, ← List.append_assoc]
    generalize calls R stages x s = cs
    generalize relay R stages x s = r
    obtain ⟨o, s₁⟩ := r
    cases o with
    | value v =>
      dsimp only
      split
      · rw [List.append_nil]
      · rw [logBody]
        generalize body v acc s₁ = b
        obtain ⟨stop, acc', s₂⟩ := b
        cases stop with
        | some e => simp
        | none => exact ih ..
    | skip => exact ih ..
    | ended => simp

theorem logBody_collect :
    logBody (collectBody : Val → List Val → σ → Option Val × List Val × σ) = collectBody := rfl

theorem evalBody_log (forms : List (Val → σ → Val × σ)) (v ret : Val) (s : σ × List Val) :
    evalBody (forms.map logForm) v ret s =
      ((evalBody forms v ret s.1).1, ((evalBody forms v ret s.1).2, s.2)) := by
  induction forms generalizing ret s with
  | nil => rfl
  | cons form forms ih =>
    rw [List.map_cons, evalBody, evalBody, logForm]
    generalize form v s.1 = r
    obtain ⟨ret', s₁⟩ := r
    dsimp only
    split
    · rfl
    · exact ih ..

theorem logBody_for (forms : List (Val → σ → Val × σ)) :
    logBody (forBody forms) = forBody (forms.map logForm) := by
  funext v ret s
  rw [logBody, forBody, forBody, evalBody_log]

/-! ## Pure functions -/

/-- The list expression of the stages: maps and filters of the elements. -/
def listExpr (F : Val → Val → Val) : List Stage → List Val → List Val
  | [], xs => xs
  | .map fn :: stages, xs => (listExpr F stages xs).map fun v => (F fn v).orNil
  | .filter pred :: stages, xs => (listExpr F stages xs).filter fun v => (F pred v).istrue

/-- Neither an error nor the sentinel. -/
def Plain (v : Val) : Prop := v.isError = false ∧ v.orNil.isEnd = false

theorem listExpr_cons (F : Val → Val → Val) (stages : List Stage) (x : Val) (xs : List Val) :
    listExpr F stages (x :: xs) = listExpr F stages [x] ++ listExpr F stages xs := by
  induction stages with
  | nil => rfl
  | cons stage stages ih =>
    cases stage with
    | map fn => rw [listExpr, ih, List.map_append]; rfl
    | filter pred => rw [listExpr, ih, List.filter_append]; rfl

section Pure

variable {F : Val → Val → Val} (hF : ∀ f v s, R.apply1 f v s = (F f v, s)) (hplain : ∀ f v, Plain (F f v))

include hF hplain

/-- What the stages make of one element is what the list expression makes of it. -/
theorem through_pure (stages : List Stage) {x : Val} (hx : Plain x) (hnull : x ≠ .null) (s : σ) :
    (∃ v, through R stages x s = (.value v, s) ∧ listExpr F stages [x] = [v]) ∨
      through R stages x s = (.skip, s) ∧ listExpr F stages [x] = [] := by
  induction stages with
  | nil =>
    have hend : x.isEnd = false := by
      have := hx.2
      rwa [Val.orNil, if_neg hnull] at this
    refine .inl ⟨x, ?_, rfl⟩
    rw [through, hx.1, hend]
    rfl
  | cons stage stages ih =>
    rcases ih with ⟨v, hv, hl⟩ | ⟨hs, hl⟩
    · rw [through, hv]
      cases stage with
      | map fn =>
        refine .inl ⟨(F fn v).orNil, ?_, by rw [listExpr, hl]; rfl⟩
        simp only [Stage.apply, hF, (hplain fn v).1, (hplain fn v).2, Bool.false_eq_true, if_false]
      | filter pred =>
        simp only [Stage.apply, hF, (hplain pred v).1, Bool.false_eq_true, if_false, listExpr, hl]
        cases hok : (F pred v).istrue with
        | true => exact .inl ⟨v, rfl, by simp [hok]⟩
        | false => exact .inr ⟨rfl, by simp [hok]⟩
    · rw [through, hs]
      refine .inr ⟨rfl, ?_⟩
      cases stage with
      | map fn => rw [listExpr, hl]; rfl
      | filter pred => rw [listExpr, hl]; rfl

/-- **With pure functions that make no error, the visit collects the list expression.** -/
theorem visit_pure (stages : List Stage) {xs : List Val} (hxs : ∀ x ∈ xs, Plain x ∧ x ≠ .null)
    (acc : List Val) (s : σ) :
    visit R collectBody stages xs acc s = (none, acc ++ listExpr F stages xs, s) := by
  induction xs generalizing acc with
  | nil =>
    have hnil : listExpr F stages [] = [] := by
      induction stages with
      | nil => rfl
      | cons stage stages ih => cases stage <;> rw [listExpr, ih] <;> rfl
    rw [visit, hnil, List.append_nil]
  | cons x xs ih =>
    obtain ⟨hx, hnull⟩ := hxs x List.mem_cons_self
    have ih := ih fun y hy => hxs y (List.mem_cons_of_mem x hy)
    rw [visit, listExpr_cons]
    rcases through_pure hF hplain stages hx hnull s with ⟨v, hv, hl⟩ | ⟨hs, hl⟩
    · rw [hv, hl, ← List.append_assoc]
      exact ih (acc ++ [v])
    · rw [hs, hl, List.nil_append]
      exact ih acc

theorem quiet_pure (stages : List Stage) {xs : List Val} (hxs : ∀ x ∈ xs, Plain x ∧ x ≠ .null)
    (acc : List Val) (s : σ) : Quiet R collectBody stages xs acc s := by
  induction xs generalizing acc with
  | nil => trivial
  | cons x xs ih =>
    obtain ⟨hx, hnull⟩ := hxs x List.mem_cons_self
    have ih := ih fun y hy => hxs y (List.mem_cons_of_mem x hy)
    refine ⟨?_, ?_⟩
    · cases stages with
      | nil => trivial
      | cons stage stages =>
        intro e he
        rcases through_pure hF hplain stages hx hnull s with ⟨v, hv, -⟩ | ⟨hs, -⟩
        · rw [hv] at he
          cases he
        · rw [hs] at he
          cases he
    · rcases through_pure hF hplain stages hx hnull s with ⟨v, hv, -⟩ | ⟨hs, -⟩
      · rw [hv]
        exact ih (acc ++ [v])
      · rw [hs]
        exact ih acc

end Pure

/-! ## The consumers -/

/-- `gen-collect` ends with the list of what comes out of the stages, or the first error, and applies no
function of a stage to an error. -/
def Collects (R : Runtime σ) (g : Gen) (s : σ) : Prop :=
  ∃ log, (∀ v ∈ log, v.isError = false) ∧
    Ends (fun n => gencollect R.logged n g (s, []))
      ((visit R collectBody g.stages g.elems [] s).1.getD
        (.ofList (visit R collectBody g.stages g.elems [] s).2.1),
        ((visit R collectBody g.stages g.elems [] s).2.2, log))

/-- `for-gen` evaluates its body for what comes out of the stages, in order, until the first error, and
applies no function of a stage to an error. -/
def Iterates (R : Runtime σ) (forms : List (Val → σ → Val × σ)) (g : Gen) (s : σ) : Prop :=
  ∃ log, (∀ v ∈ log, v.isError = false) ∧
    Ends (fun n => forgen R.logged n (forms.map logForm) g (s, []))
      ((visit R (forBody forms) g.stages g.elems .nil s).1.getD .nil,
        ((visit R (forBody forms) g.stages g.elems .nil s).2.2, log))

theorem Ends.map {β γ : Type} {f : ℕ → Option β} {b : β} (h : Ends f b) (k : β → γ) :
    Ends (fun n => (f n).map k) (k b) := by
  obtain ⟨N, hN⟩ := h
  exact ⟨N, fun n hn => by dsimp only; rw [hN n hn]; rfl⟩

theorem Ends.unique {β : Type} {f : ℕ → Option β} {b c : β} (h : Ends f b) (h' : Ends f c) : b = c := by
  obtain ⟨N, hN⟩ := h
  obtain ⟨M, hM⟩ := h'
  exact Option.some.inj ((hN (max N M) (Nat.le_max_left N M)).symm.trans (hM _ (Nat.le_max_right N M)))

theorem gencollect_ends (g : Gen) (hb : Built g) (s : σ) :
    Ends (fun n => gencollect R n g s)
      ((relayVisit R collectBody g.stages g.elems [] s).1.getD
        (.ofList (relayVisit R collectBody g.stages g.elems [] s).2.1),
        (relayVisit R collectBody g.stages g.elems [] s).2.2) := by
  have h := (drive_ends (R := R) collectBody g hb [] s).map
    fun r => (r.1.getD (.ofList r.2.1), r.2.2)
  obtain ⟨N, hN⟩ := h
  exact ⟨N, fun n hn => (collectLoop_eq n g [] s).trans (hN n hn)⟩

/-- The value of the body is no error where the loop goes on, and an error where it stops. -/
theorem relayVisit_for (forms : List (Val → σ → Val × σ)) (stages : List Stage) (xs : List Val) (ret : Val)
    (hret : ret.isError = false) (s : σ) :
    (∀ e, (relayVisit R (forBody forms) stages xs ret s).1 = some e → e.isError = true) ∧
      ((relayVisit R (forBody forms) stages xs ret s).1 = none →
        (relayVisit R (forBody forms) stages xs ret s).2.1.isError = false) := by
  induction xs generalizing ret s with
  | nil => exact ⟨fun e h => (by cases h), fun _ => hret⟩
  | cons x xs ih =>
    rw [relayVisit]
    generalize relay R stages x s = r
    obtain ⟨o, s₁⟩ := r
    cases o with
    | value v =>
      dsimp only
      cases hv : v.isError with
      | true => exact ⟨fun e h => by cases h; exact hv, fun h => by cases h⟩
      | false =>
        simp only [Bool.false_eq_true, if_false, forBody]
        cases hr : (evalBody forms v ret s₁).1.isError with
        | true => exact ⟨fun e h => by cases h; exact hr, fun h => by cases h⟩
        | false => exact ih _ hr _
    | skip => exact ih ret hret s₁
    | ended => exact ⟨fun e h => (by cases h), fun _ => hret⟩

theorem forgen_ends (forms : List (Val → σ → Val × σ)) (g : Gen) (hb : Built g) (s : σ) :
    Ends (fun n => forgen R n forms g s)
      ((relayVisit R (forBody forms) g.stages g.elems .nil s).1.getD .nil,
        (relayVisit R (forBody forms) g.stages g.elems .nil s).2.2) := by
  have h := (drive_ends (R := R) (forBody forms) g hb .nil s).map
    fun r => (if (r.1.getD r.2.1).isError then r.1.getD r.2.1 else Val.nil, r.2.2)
  obtain ⟨herr, hok⟩ := relayVisit_for (R := R) forms g.stages g.elems .nil rfl s
  generalize relayVisit R (forBody forms) g.stages g.elems .nil s = r at *
  obtain ⟨stop, ret, s₁⟩ := r
  have hval : (if (stop.getD ret).isError then stop.getD ret else Val.nil) = stop.getD .nil := by
    cases stop with
    | some e => exact if_pos (herr e rfl)
    | none => exact if_neg (by simp [hok rfl])
  obtain ⟨N, hN⟩ := h
  refine ⟨N, fun n hn => ?_⟩
  dsimp only
  rw [forgen, forLoop_eq, Option.map_map]
  refine (hN n hn).trans ?_
  rw [← hval]

theorem collects_iff {g : Gen} (hb : Built g) (s : σ) :
    Collects R g s ↔ Quiet R collectBody g.stages g.elems [] s := by
  have hends := gencollect_ends (R := R.logged) g hb (s, [])
  rw [← logBody_collect, relayVisit_logged] at hends
  constructor
  · rintro ⟨log, hlog, hres⟩
    have heq := congrArg (fun r => r.2.2) (hres.unique hends)
    dsimp only at heq
    refine quiet_of_visitCalls fun v hv => hlog v ?_
    rw [heq]
    exact hv
  · intro hq
    obtain ⟨heq, hcalls⟩ := hq.visit
    rw [heq] at hends
    exact ⟨visitCalls R collectBody g.stages g.elems [] s, hcalls, hends⟩

theorem iterates_iff {g : Gen} (hb : Built g) (forms : List (Val → σ → Val × σ)) (s : σ) :
    Iterates R forms g s ↔ Quiet R (forBody forms) g.stages g.elems .nil s := by
  have hends := forgen_ends (R := R.logged) (forms.map logForm) g hb (s, [])
  rw [← logBody_for, relayVisit_logged] at hends
  constructor
  · rintro ⟨log, hlog, hres⟩
    have heq := congrArg (fun r => r.2.2) (hres.unique hends)
    dsimp only at heq
    refine quiet_of_visitCalls fun v hv => hlog v ?_
    rw [heq]
    exact hv
  · intro hq
    obtain ⟨heq, hcalls⟩ := hq.visit
    rw [heq] at hends
    exact ⟨visitCalls R (forBody forms) g.stages g.elems .nil s, hcalls, hends⟩

/-- A function 0 that makes an error of everything, and others that make nil of everything. -/
def failing : Runtime Unit where
  apply0 _ s := (.done, s)
  apply1 fn _ s := (if fn = .other 0 true then .error 0 else .nil, s)

/-- The elements 1 and 2. -/
def twoElements : Gen := .list (.pair (.fix (makeFix 1)) (.pair (.fix (makeFix 2)) .null))

end Alcove.Generator
