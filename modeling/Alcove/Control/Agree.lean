import Alcove.Control.Machine

/-!
# Where the compiled forms agree with the interpreter

The interpreter returns an error object wherever it tests or drops a value; the VM leaves a body only
for an error that an instruction raised, so an error that a variable holds is false for a branch, and
dropped by `OP_POP`. `Clean` says that no error object of this kind is met on the way; `Agrees` says
that the code of a form evaluates the leaves that the interpreter evaluates and comes to the same
answer, where NULL and the nil object are both nil.

**Main result:** `agrees_iff`. When no branch is longer than 16 bits hold, `Agrees` is `Clean`.
-/

namespace Alcove.Control

variable {V σ : Type} {ops : Values V}

/-! ## Error objects that are met -/

/-- What is asked of the code behind, when other code left a value. -/
def Out.holds (r : Out V × World σ) (q : V → World σ → Prop) : Prop :=
  match r with
  | (.val v, w) => q v w
  | _ => True

section Clean

variable (L : Leaves ops σ)

mutual

/-- No error object that was not raised is tested or dropped on the way. -/
def Clean (tail : Bool) : Form V → World σ → Prop
  | .leaf _, _ => True
  | .missing, _ => True
  | .ifForm test thn rest, w => Clean false test w ∧ Out.holds (compiled L false test w) fun v w =>
    ops.iserror v = false ∧ if ops.istrue v then Clean tail thn w else CleanElse tail rest w
  | .whenForm negate test body, w => Clean false test w ∧
    Out.holds (compiled L false test w) fun v w =>
      ops.iserror v = false ∧ (ops.istrue v ≠ negate → CleanSeq tail body w)
  | .andForm args, w => CleanAndOr false tail args w
  | .orForm args, w => CleanAndOr true tail args w
  | .condForm clauses, w => CleanCond tail clauses w
  | .caseForm key clauses, w => Clean false key w ∧ Out.holds (compiled L false key w) fun v w =>
    ops.iserror v = false ∧ CleanCase tail v clauses w
  | .doForm body, w => CleanSeq tail body w

def CleanElse (tail : Bool) : Conds V → World σ → Prop
  | .none, _ => True
  | .default f, w => Clean tail f w
  | .clause test f rest, w => Clean false test w ∧ Out.holds (compiled L false test w) fun v w =>
    ops.iserror v = false ∧ if ops.istrue v then Clean tail f w else CleanElse tail rest w

def CleanSeq (tail : Bool) : Forms V → World σ → Prop
  | .nil, _ => True
  | .cons f .nil, w => Clean tail f w
  | .cons f rest, w => Clean false f w ∧ Out.holds (compiled L false f w) fun v w =>
    ops.iserror v = false ∧ CleanSeq tail rest w

/-- An error object is false, so `and` returns it in both tiers. -/
def CleanAndOr (isOr tail : Bool) : Forms V → World σ → Prop
  | .nil, _ => True
  | .cons f .nil, w => Clean tail f w
  | .cons f rest, w => Clean false f w ∧ Out.holds (compiled L false f w) fun v w =>
    ops.istrue v ≠ isOr → ops.iserror v = false ∧ CleanAndOr isOr tail rest w

def CleanCond (tail : Bool) : Conds V → World σ → Prop
  | .none, _ => True
  | .default f, w => Clean tail f w
  | .clause test f rest, w => Clean false test w ∧ Out.holds (compiled L false test w) fun v w =>
    ops.iserror v = false ∧ if ops.istrue v then Clean tail f w else CleanCond tail rest w

def CleanCase (tail : Bool) (key : V) : Cases V → World σ → Prop
  | .none, _ => True
  | .default f, w => Clean tail f w
  | .clause literal f rest, w =>
    if ops.isequal key literal then Clean tail f w else CleanCase tail key rest w

end

end Clean

/-! ## Answers that are the same and answers that are not -/

/-- nil in its one shape -/
def Values.shape [DecidableEq V] (ops : Values V) (v : V) : V := if v = ops.null then ops.nil else v

section Same

variable [DecidableEq V]

/-- What the caller gets, with nil in its one shape. -/
def Out.answer (ops : Values V) : Out V → Out V
  | .val v => .val (ops.shape v)
  | .raised e => .val e
  | .call k => .call k

/-- The interpreter's outcome and that of the code, when nothing has come apart. -/
inductive Same (ops : Values V) : Out V × World σ → Out V × World σ → Prop
  | val {v v' : V} (w : World σ) (h : ops.shape v = ops.shape v') : Same ops (.val v, w) (.val v', w)
  | raised {e : V} (w : World σ) (he : ops.iserror e = true) : Same ops (.val e, w) (.raised e, w)
  | call (k : ℕ) (w : World σ) : Same ops (.call k, w) (.call k, w)

end Same

/-- How many leaves were evaluated, with a call that is still to be made. -/
def evaluated (r : Out V × World σ) : ℕ := r.2.log.length + r.1.pending.length

/-- Since `w`, leaves were evaluated, or there is a value that is no error. -/
structure Fresh (ops : Values V) (w : World σ) (r : Out V × World σ) : Prop where
  le : w.log.length ≤ evaluated r
  value : evaluated r = w.log.length → ∃ v, r.1 = .val v ∧ ops.iserror v = false

/-- The interpreter returned an error object, from which the code went on. -/
def Apart (ops : Values V) (r r' : Out V × World σ) : Prop :=
  ∃ e w, r = (.val e, w) ∧ ops.iserror e = true ∧ Fresh ops w r'

/-- The two outcomes are the same under a condition, and apart else. -/
inductive Verdict [DecidableEq V] (ops : Values V) (clean : Prop) (r r' : Out V × World σ) : Prop
  | same (h : clean) (hs : Same ops r r')
  | apart (h : ¬ clean) (ha : Apart ops r r')

section Shape

variable [DecidableEq V] {v v' : V}

theorem istrue_shape (v : V) : ops.istrue (ops.shape v) = ops.istrue v := by
  rw [Values.shape]
  split
  · rename_i h
    rw [h, ops.istrue_null, ops.istrue_nil]
  · rfl

theorem iserror_shape (v : V) : ops.iserror (ops.shape v) = ops.iserror v := by
  rw [Values.shape]
  split
  · rename_i h
    rw [h, ops.iserror_null, ops.iserror_nil]
  · rfl

theorem isequal_shape (v literal : V) : ops.isequal (ops.shape v) literal = ops.isequal v literal := by
  rw [Values.shape]
  split
  · rename_i h
    rw [h, ops.isequal_null]
  · rfl

theorem shape_error (h : ops.iserror v = true) : ops.shape v = v := by
  rw [Values.shape, if_neg]
  intro hv
  rw [hv, ops.iserror_null] at h
  cases h

theorem istrue_congr (h : ops.shape v = ops.shape v') : ops.istrue v = ops.istrue v' := by
  rw [← istrue_shape, h, istrue_shape]

theorem iserror_congr (h : ops.shape v = ops.shape v') : ops.iserror v = ops.iserror v' := by
  rw [← iserror_shape, h, iserror_shape]

theorem isequal_congr (h : ops.shape v = ops.shape v') (literal : V) :
    ops.isequal v literal = ops.isequal v' literal := by
  rw [← isequal_shape, h, isequal_shape]

theorem shape_orNil (v : V) : ops.shape (if v = ops.null then ops.nil else v) = ops.shape v := by
  rw [Values.shape, Values.shape]
  split
  · split
    · rfl
    · rfl
  · rfl

end Shape

namespace Fresh

variable {w w₀ w' : World σ} {v : V} {r : Out V × World σ}

theorem val (w : World σ) (h : ops.iserror v = false) : Fresh ops w (.val v, w) where
  le := Nat.le_refl _
  value _ := ⟨v, rfl, h⟩

theorem trans (h : Fresh ops w₀ (.val v, w)) (hr : Fresh ops w r) : Fresh ops w₀ r where
  le := Nat.le_trans h.le hr.le
  value hn := hr.value (Nat.le_antisymm (hn ▸ h.le) hr.le)

theorem andThen {k : V → World σ → Out V × World σ} (h : Fresh ops w r)
    (hk : ∀ v w', Fresh ops w (.val v, w') → Fresh ops w (k v w')) :
    Fresh ops w (Out.andThen r k) := by
  obtain ⟨o, w'⟩ := r
  cases o with
  | val v => exact hk v w' h
  | raised e => exact h
  | call k => exact h

end Fresh

section Fresh

variable (L : Leaves ops σ)

mutual

theorem compiled_fresh : ∀ (f : Form V) (tail : Bool) (w : World σ),
    Fresh ops w (compiled L tail f w)
  | .leaf k, tail, w => by
    have hlog : (w.log ++ [k]).length = w.log.length + 1 := by simp
    rw [compiled]
    split
    · exact ⟨Nat.le_succ _, fun h => absurd h (Nat.succ_ne_self _)⟩
    · rw [Leaves.run]
      cases (L.eval k w.state).1 with
      | ok v =>
        have hn : evaluated (Out.val v, (⟨(L.eval k w.state).2, w.log ++ [k]⟩ : World σ)) =
          w.log.length + 1 := hlog
        exact ⟨hn ▸ Nat.le_succ _, fun h => absurd (hn ▸ h) (Nat.succ_ne_self _)⟩
      | error e =>
        have hn : evaluated (Out.raised e, (⟨(L.eval k w.state).2, w.log ++ [k]⟩ : World σ)) =
          w.log.length + 1 := hlog
        exact ⟨hn ▸ Nat.le_succ _, fun h => absurd (hn ▸ h) (Nat.succ_ne_self _)⟩
  | .missing, tail, w => by
    rw [compiled]
    exact Fresh.val w ops.iserror_null
  | .ifForm test thn rest, tail, w => by
    rw [compiled]
    refine (compiled_fresh test false w).andThen fun v w' h => ?_
    split
    · exact h.trans (compiled_fresh thn tail w')
    · exact h.trans (compiledElse_fresh rest tail w')
  | .whenForm negate test body, tail, w => by
    rw [compiled]
    refine (compiled_fresh test false w).andThen fun v w' h => ?_
    split
    · exact h.trans (compiledSeq_fresh body tail w')
    · exact h.trans (Fresh.val w' ops.iserror_nil)
  | .andForm args, tail, w => by
    rw [compiled]
    exact compiledAndOr_fresh args false tail w
  | .orForm args, tail, w => by
    rw [compiled]
    exact compiledAndOr_fresh args true tail w
  | .condForm clauses, tail, w => by
    rw [compiled]
    exact compiledCond_fresh clauses tail w
  | .caseForm key clauses, tail, w => by
    rw [compiled]
    exact (compiled_fresh key false w).andThen fun v w' h =>
      h.trans (compiledCase_fresh clauses tail v w')
  | .doForm body, tail, w => by
    rw [compiled]
    exact compiledSeq_fresh body tail w

theorem compiledElse_fresh : ∀ (cs : Conds V) (tail : Bool) (w : World σ),
    Fresh ops w (compiledElse L tail cs w)
  | .none, tail, w => by
    rw [compiledElse]
    exact Fresh.val w ops.iserror_nil
  | .default f, tail, w => by
    rw [compiledElse]
    exact compiled_fresh f tail w
  | .clause test f rest, tail, w => by
    rw [compiledElse]
    refine (compiled_fresh test false w).andThen fun v w' h => ?_
    split
    · exact h.trans (compiled_fresh f tail w')
    · exact h.trans (compiledElse_fresh rest tail w')

theorem compiledSeq_fresh : ∀ (fs : Forms V) (tail : Bool) (w : World σ),
    Fresh ops w (compiledSeq L tail fs w)
  | .nil, tail, w => by
    rw [compiledSeq]
    exact Fresh.val w ops.iserror_nil
  | .cons f .nil, tail, w => by
    rw [compiledSeq]
    exact compiled_fresh f tail w
  | .cons f (.cons g rest), tail, w => by
    rw [compiledSeq]
    · exact (compiled_fresh f false w).andThen fun v w' h =>
        h.trans (compiledSeq_fresh (.cons g rest) tail w')
    · exact fun h => by cases h

theorem compiledAndOr_fresh : ∀ (fs : Forms V) (isOr tail : Bool) (w : World σ),
    Fresh ops w (compiledAndOr L isOr tail fs w)
  | .nil, isOr, tail, w => by
    rw [compiledAndOr]
    cases isOr with
    | true => exact Fresh.val w ops.iserror_nil
    | false => exact Fresh.val w ops.iserror_t
  | .cons f .nil, isOr, tail, w => by
    rw [compiledAndOr]
    exact compiled_fresh f tail w
  | .cons f (.cons g rest), isOr, tail, w => by
    rw [compiledAndOr]
    · refine (compiled_fresh f false w).andThen fun v w' h => ?_
      split
      · exact h
      · exact h.trans (compiledAndOr_fresh (.cons g rest) isOr tail w')
    · exact fun h => by cases h

theorem compiledCond_fresh : ∀ (cs : Conds V) (tail : Bool) (w : World σ),
    Fresh ops w (compiledCond L tail cs w)
  | .none, tail, w => by
    rw [compiledCond]
    exact Fresh.val w ops.iserror_nil
  | .default f, tail, w => by
    rw [compiledCond]
    exact compiled_fresh f tail w
  | .clause test f rest, tail, w => by
    rw [compiledCond]
    refine (compiled_fresh test false w).andThen fun v w' h => ?_
    split
    · exact h.trans (compiled_fresh f tail w')
    · exact h.trans (compiledCond_fresh rest tail w')

theorem compiledCase_fresh : ∀ (cs : Cases V) (tail : Bool) (key : V) (w : World σ),
    Fresh ops w (compiledCase L tail key cs w)
  | .none, tail, key, w => by
    rw [compiledCase]
    exact Fresh.val w ops.iserror_nil
  | .default f, tail, key, w => by
    rw [compiledCase]
    exact compiled_fresh f tail w
  | .clause literal f rest, tail, key, w => by
    rw [compiledCase]
    split
    · exact compiled_fresh f tail w
    · exact compiledCase_fresh rest tail key w

end

end Fresh

/-! ## The two tiers side by side -/

section Tested

variable {v : V} {w : World σ} {k : V → World σ → Out V × World σ}

theorem tested_error (h : ops.iserror v = true) :
    Out.tested ops (.val v, w) k = (.val v, w) := if_pos h

theorem tested_value (h : ops.iserror v = false) : Out.tested ops (.val v, w) k = k v w :=
  if_neg (by rw [Out.result, h]; exact Bool.false_ne_true)

end Tested

namespace Verdict

variable [DecidableEq V] {p : Prop} {q : V → World σ → Prop} {r r' : Out V × World σ}
  {k k' : V → World σ → Out V × World σ}

theorem val (hp : p) (w : World σ) {v v' : V} (h : ops.shape v = ops.shape v') :
    Verdict ops p (.val v, w) (.val v', w) :=
  .same hp (.val w h)

theorem congr {p' : Prop} (h : Verdict ops p r r') (hp : p ↔ p') : Verdict ops p' r r' := by
  cases h with
  | same h hs => exact .same (hp.mp h) hs
  | apart h ha => exact .apart (fun hn => h (hp.mpr hn)) ha

theorem orNil (h : Verdict ops p r r') : Verdict ops p (Out.orNil ops r) r' := by
  cases h with
  | same h hs =>
    cases hs with
    | val w hv => exact .same h (.val w ((shape_orNil _).trans hv))
    | raised w he =>
      rw [Out.orNil, if_neg fun hn => by rw [hn, ops.iserror_null] at he; cases he]
      exact .same h (.raised w he)
    | call j w => exact .same h (.call j w)
  | apart h ha =>
    obtain ⟨e, w, rfl, he, hf⟩ := ha
    rw [Out.orNil, if_neg fun hn => by rw [hn, ops.iserror_null] at he; cases he]
    exact .apart h ⟨e, w, rfl, he, hf⟩

/-- What comes behind a value; once the tiers are apart they stay so. -/
theorem bind (h : Verdict ops p r r') (hcall : r.1.pending = [])
    (hk : ∀ v v' w, ops.shape v = ops.shape v' →
      Verdict ops (q v' w) (Out.tested ops (.val v, w) k) (k' v' w))
    (hf : ∀ v w w₀, Fresh ops w₀ (.val v, w) → Fresh ops w₀ (k' v w)) :
    Verdict ops (p ∧ Out.holds r' q) (Out.tested ops r k) (Out.andThen r' k') := by
  cases h with
  | same h hs =>
    cases hs with
    | @val v v' w hv => exact (hk v v' w hv).congr ⟨fun hq => ⟨h, hq⟩, fun hq => hq.2⟩
    | @raised e w he =>
      rw [tested_error he]
      exact .same ⟨h, trivial⟩ (.raised w he)
    | call j w => cases hcall
  | apart h ha =>
    obtain ⟨e, w, rfl, he, hr⟩ := ha
    rw [tested_error he]
    exact .apart (fun hn => h hn.1) ⟨e, w, rfl, he, hr.andThen fun v w' hv => hf v w' w hv⟩

/-- A value that is tested or dropped. -/
theorem met (hk : ∀ v v' w, ops.shape v = ops.shape v' → Verdict ops (q v' w) (k v w) (k' v' w))
    (hf : ∀ v w, Fresh ops w (k' v w)) (v v' : V) (w : World σ) (hv : ops.shape v = ops.shape v') :
    Verdict ops (ops.iserror v' = false ∧ q v' w) (Out.tested ops (.val v, w) k) (k' v' w) := by
  have herr : ops.iserror v = ops.iserror v' := iserror_congr hv
  cases he : ops.iserror v' with
  | true =>
    rw [tested_error (herr.trans he)]
    exact .apart (fun hn => by cases hn.1) ⟨v, w, rfl, herr.trans he, hf v' w⟩
  | false =>
    rw [tested_value (herr.trans he)]
    exact (hk v v' w hv).congr ⟨fun hq => ⟨rfl, hq⟩, fun hq => hq.2⟩

theorem test (h : Verdict ops p r r') (hcall : r.1.pending = [])
    (hk : ∀ v v' w, ops.shape v = ops.shape v' → Verdict ops (q v' w) (k v w) (k' v' w))
    (hf : ∀ v w, Fresh ops w (k' v w)) :
    Verdict ops (p ∧ Out.holds r' fun v w => ops.iserror v = false ∧ q v w) (Out.tested ops r k)
      (Out.andThen r' k') :=
  h.bind hcall (met hk hf) fun v w _ hv => hv.trans (hf v w)

end Verdict

section Verdict

variable [DecidableEq V] (L : Leaves ops σ)

theorem interp_pending (f : Form V) (w : World σ) : (interp L false f w).1.pending = [] :=
  (interp_log L f false w).pending rfl

mutual

theorem verdict : ∀ (f : Form V) (tail : Bool) (w : World σ),
    Verdict ops (Clean L tail f w) (interp L tail f w) (compiled L tail f w)
  | .leaf k, tail, w => by
    rw [Clean, interp, compiled]
    split
    · exact .same trivial (.call k w)
    · cases hr : L.run k w with
      | mk res w' =>
        cases res with
        | ok v => exact .val trivial w' rfl
        | error e =>
          have he : L.eval k w.state = (.error e, w'.state) := by
            rw [Leaves.run, Prod.mk.injEq] at hr
            rw [← hr.2, ← hr.1]
          exact .same trivial (.raised w' (L.raises k _ e _ he))
  | .missing, tail, w => by
    rw [Clean, interp, compiled]
    exact .val trivial w rfl
  | .ifForm test thn rest, tail, w => by
    rw [Clean, interp, compiled]
    refine (verdict test false w).test (interp_pending L test w) (fun v v' w hv => ?_) fun v w => ?_
    · rw [istrue_congr hv]
      split
      · exact verdict thn tail w
      · exact verdict_else rest tail w
    · split
      · exact compiled_fresh L thn tail w
      · exact compiledElse_fresh L rest tail w
  | .whenForm negate test body, tail, w => by
    rw [Clean, interp, compiled]
    refine (verdict test false w).test (interp_pending L test w) (fun v v' w hv => ?_) fun v w => ?_
    · rw [istrue_congr hv]
      cases ht : ops.istrue v' != negate with
      | true => exact (verdict_seq body tail w).congr ⟨fun h _ => h, fun h => h (bne_iff_ne.mp ht)⟩
      | false =>
        exact .val (fun hn => absurd (bne_iff_ne.mpr hn) (by rw [ht]; exact Bool.false_ne_true)) w rfl
    · split
      · exact compiledSeq_fresh L body tail w
      · exact Fresh.val w ops.iserror_nil
  | .andForm args, tail, w => by
    rw [Clean, interp, compiled]
    exact verdict_and args tail w
  | .orForm args, tail, w => by
    rw [Clean, interp, compiled]
    exact verdict_or args tail w
  | .condForm clauses, tail, w => by
    rw [Clean, interp, compiled]
    exact verdict_cond clauses tail w
  | .caseForm key clauses, tail, w => by
    rw [Clean, interp, compiled]
    exact (verdict key false w).test (interp_pending L key w)
      (fun v v' w hv => verdict_case clauses tail v v' w hv)
      fun v w => compiledCase_fresh L clauses tail v w
  | .doForm body, tail, w => by
    rw [Clean, interp, compiled]
    exact verdict_seq body tail w

theorem verdict_else : ∀ (cs : Conds V) (tail : Bool) (w : World σ),
    Verdict ops (CleanElse L tail cs w) (ifRest L tail cs w) (compiledElse L tail cs w)
  | .none, tail, w => by
    rw [CleanElse, ifRest, compiledElse]
    exact .val trivial w rfl
  | .default f, tail, w => by
    rw [CleanElse, ifRest, compiledElse]
    exact verdict f tail w
  | .clause test f rest, tail, w => by
    rw [CleanElse, ifRest, compiledElse]
    refine (verdict test false w).test (interp_pending L test w) (fun v v' w hv => ?_) fun v w => ?_
    · rw [istrue_congr hv]
      split
      · exact verdict f tail w
      · exact verdict_else rest tail w
    · split
      · exact compiled_fresh L f tail w
      · exact compiledElse_fresh L rest tail w

theorem verdict_seq : ∀ (fs : Forms V) (tail : Bool) (w : World σ),
    Verdict ops (CleanSeq L tail fs w) (seq L tail fs w) (compiledSeq L tail fs w)
  | .nil, tail, w => by
    rw [CleanSeq, seq, compiledSeq]
    exact .val trivial w rfl
  | .cons f .nil, tail, w => by
    rw [CleanSeq, seq, compiledSeq]
    exact (verdict f tail w).orNil
  | .cons f (.cons g rest), tail, w => by
    rw [CleanSeq, seq, compiledSeq]
    · exact (verdict f false w).test (interp_pending L f w)
        (fun _ _ w _ => verdict_seq (.cons g rest) tail w)
        fun _ w => compiledSeq_fresh L (.cons g rest) tail w
    · exact fun h => by cases h
    · exact fun h => by cases h
    · exact fun h => by cases h

theorem verdict_and : ∀ (fs : Forms V) (tail : Bool) (w : World σ),
    Verdict ops (CleanAndOr L false tail fs w) (andLoop L tail fs w)
      (compiledAndOr L false tail fs w)
  | .nil, tail, w => by
    rw [CleanAndOr, andLoop, compiledAndOr]
    exact .val trivial w rfl
  | .cons f .nil, tail, w => by
    rw [CleanAndOr, andLoop, compiledAndOr]
    exact verdict f tail w
  | .cons f (.cons g rest), tail, w => by
    rw [CleanAndOr, andLoop, compiledAndOr]
    · refine (verdict f false w).bind (interp_pending L f w) (fun v v' w hv => ?_) fun v w w₀ h => ?_
      · have ht' := istrue_congr hv
        cases ht : ops.istrue v' with
        | true =>
          have he : ops.iserror v' = false := by
            cases he : ops.iserror v' with
            | true => rw [ops.istrue_error v' he] at ht; cases ht
            | false => rfl
          rw [tested_value ((iserror_congr hv).trans he), ht', ht, if_pos rfl,
            if_neg Bool.false_ne_true.symm]
          exact (verdict_and (.cons g rest) tail w).congr
            ⟨fun h _ => ⟨he, h⟩, fun h => (h Bool.false_ne_true.symm).2⟩
        | false =>
          -- an error object is among the values that are false
          have hi : Out.tested ops (.val v, w) (fun v w =>
              if ops.istrue v then andLoop L tail (.cons g rest) w else (.val v, w)) = (.val v, w) := by
            cases he : ops.iserror v with
            | true => exact tested_error he
            | false => rw [tested_value he, ht', ht, if_neg Bool.false_ne_true]
          rw [hi, if_pos rfl]
          exact .val (fun hn => absurd rfl hn) w hv
      · split
        · exact h
        · exact h.trans (compiledAndOr_fresh L (.cons g rest) false tail w)
    · exact fun h => by cases h
    · exact fun h => by cases h
    · exact fun h => by cases h

theorem verdict_or : ∀ (fs : Forms V) (tail : Bool) (w : World σ),
    Verdict ops (CleanAndOr L true tail fs w) (orLoop L tail fs w) (compiledAndOr L true tail fs w)
  | .nil, tail, w => by
    rw [CleanAndOr, orLoop, compiledAndOr]
    exact .val trivial w rfl
  | .cons f .nil, tail, w => by
    rw [CleanAndOr, orLoop, compiledAndOr]
    exact verdict f tail w
  | .cons f (.cons g rest), tail, w => by
    rw [CleanAndOr, orLoop, compiledAndOr]
    · refine (verdict f false w).bind (interp_pending L f w) (fun v v' w hv => ?_) fun v w w₀ h => ?_
      · have ht' := istrue_congr hv
        have hrest := compiledAndOr_fresh L (.cons g rest) true tail w
        cases he : ops.iserror v' with
        | true =>
          have ht : ops.istrue v' = false := ops.istrue_error v' he
          rw [tested_error ((iserror_congr hv).trans he), ht, if_neg Bool.false_ne_true]
          exact .apart (fun hn => by cases (hn Bool.false_ne_true).1)
            ⟨v, w, rfl, (iserror_congr hv).trans he, hrest⟩
        | false =>
          rw [tested_value ((iserror_congr hv).trans he), ht']
          cases ht : ops.istrue v' with
          | true =>
            rw [if_pos rfl, if_pos rfl]
            exact .val (fun hn => absurd rfl hn) w hv
          | false =>
            rw [if_neg Bool.false_ne_true, if_neg Bool.false_ne_true]
            exact (verdict_or (.cons g rest) tail w).congr
              ⟨fun h _ => ⟨rfl, h⟩, fun h => (h Bool.false_ne_true).2⟩
      · split
        · exact h
        · exact h.trans (compiledAndOr_fresh L (.cons g rest) true tail w)
    · exact fun h => by cases h
    · exact fun h => by cases h
    · exact fun h => by cases h

theorem verdict_cond : ∀ (cs : Conds V) (tail : Bool) (w : World σ),
    Verdict ops (CleanCond L tail cs w) (condLoop L tail cs w) (compiledCond L tail cs w)
  | .none, tail, w => by
    rw [CleanCond, condLoop, compiledCond]
    exact .val trivial w rfl
  | .default f, tail, w => by
    rw [CleanCond, condLoop, compiledCond]
    exact (verdict f tail w).orNil
  | .clause test f rest, tail, w => by
    rw [CleanCond, condLoop, compiledCond]
    refine (verdict test false w).test (interp_pending L test w) (fun v v' w hv => ?_) fun v w => ?_
    · rw [istrue_congr hv]
      split
      · exact (verdict f tail w).orNil
      · exact verdict_cond rest tail w
    · split
      · exact compiled_fresh L f tail w
      · exact compiledCond_fresh L rest tail w

theorem verdict_case : ∀ (cs : Cases V) (tail : Bool) (key key' : V) (w : World σ),
    ops.shape key = ops.shape key' →
      Verdict ops (CleanCase L tail key' cs w) (caseBody L tail key cs w)
        (compiledCase L tail key' cs w)
  | .none, tail, key, key', w, h => by
    rw [CleanCase, caseBody, compiledCase]
    exact .val trivial w rfl
  | .default f, tail, key, key', w, h => by
    rw [CleanCase, caseBody, compiledCase]
    exact (verdict f tail w).orNil
  | .clause literal f rest, tail, key, key', w, h => by
    rw [CleanCase, caseBody, compiledCase, isequal_congr h]
    split
    · exact (verdict f tail w).orNil
    · exact verdict_case rest tail key key' w h

end

end Verdict

/-! ## Agreement -/

section Unique

variable {L : Leaves ops σ} {code : Code V} {w : World σ} {r r' : Out V × World σ}

/-- Behind the code of a program there is nothing to execute. -/
theorem vmStep_after (code : Code V) (r : Out V × World σ) :
    vmStep L code (.after (codeSize L code) [] r) = .after (codeSize L code) [] r ∨
      vmStep L code (.after (codeSize L code) [] r) = .stuck := by
  obtain ⟨o, w⟩ := r
  cases o with
  | raised e => exact .inl rfl
  | call k => exact .inl rfl
  | val v =>
    right
    have h := suffixAt_append (L := L) code []
    rw [List.append_nil] at h
    rw [Config.after, vmStep, h]

theorem iterate_stuck (prog : Code V) (n : ℕ) : (vmStep L prog)^[n] .stuck = .stuck :=
  Function.iterate_fixed rfl n

theorem iterate_after (code : Code V) (r : Out V × World σ) (n : ℕ) :
    (vmStep L code)^[n] (.after (codeSize L code) [] r) = .after (codeSize L code) [] r ∨
      (vmStep L code)^[n] (.after (codeSize L code) [] r) = .stuck := by
  cases vmStep_after code r with
  | inl h => exact .inl (Function.iterate_fixed h n)
  | inr h =>
    cases n with
    | zero => exact .inl rfl
    | succ n => rw [Function.iterate_succ_apply, h]; exact .inr (iterate_stuck code n)

theorem after_ne_stuck (pc : ℕ) (stack : List V) (r : Out V × World σ) :
    Config.after pc stack r ≠ .stuck := by
  obtain ⟨o, w⟩ := r
  cases o with
  | val v => exact fun h => by cases h
  | raised e => exact fun h => by cases h
  | call k => exact fun h => by cases h

theorem after_injective {pc : ℕ} {stack : List V} (h : Config.after pc stack r = .after pc stack r') :
    r = r' := by
  obtain ⟨o, w⟩ := r
  obtain ⟨o', w'⟩ := r'
  cases o <;> cases o' <;> cases h <;> rfl

/-- The code as a program of its own comes to one outcome. -/
theorem Runs.unique (h : Runs L code [] [] w r) (h' : Runs L code [] [] w r') : r = r' := by
  obtain ⟨n, hn⟩ := h [] []
  obtain ⟨m, hm⟩ := h' [] []
  rw [List.append_nil, List.nil_append, codeSize, Nat.zero_add] at hn hm
  have key : ∀ (a b : Out V × World σ) (i j : ℕ), i ≤ j →
      (vmStep L code)^[i] (.at' 0 [] w) = .after (codeSize L code) [] a →
      (vmStep L code)^[j] (.at' 0 [] w) = .after (codeSize L code) [] b → a = b := by
    intro a b i j hij ha hb
    rw [← Nat.sub_add_cancel hij, Function.iterate_add_apply, ha] at hb
    cases iterate_after (L := L) code a (j - i) with
    | inl h => exact after_injective (h.symm.trans hb)
    | inr h => exact absurd (hb.symm.trans h) (after_ne_stuck _ _ _)
  cases Nat.le_total n m with
  | inl hnm => exact key r r' n m hnm hn hm
  | inr hmn => exact (key r' r m n hmn hm hn).symm

end Unique

section Agrees

variable [DecidableEq V] (L : Leaves ops σ)

/-- Wherever the code of the form stands, it evaluates the leaves that the interpreter evaluates, in the
order of the form and each at most once, leaves the same state, and comes to the same answer. -/
def Agrees (tail : Bool) (f : Form V) (code : Code V) (w : World σ) : Prop :=
  ∃ r : Out V × World σ, (∀ stack, Runs L code stack stack w r) ∧ r.2 = (interp L tail f w).2 ∧
    r.1.answer ops = (interp L tail f w).1.answer ops ∧
    ∃ l, l.Sublist f.leaves ∧ r.2.log ++ r.1.pending = w.log ++ l

/-- Every distance in the code of the form is below 2 ^ 15. -/
def Fits (tail : Bool) (f : Form V) : Prop := compile L i16 tail f = compile L wide tail f

variable {L}

theorem Same.world {r r' : Out V × World σ} (h : Same ops r r') : r'.2 = r.2 := by
  cases h <;> rfl

theorem Same.answer {r r' : Out V × World σ} (h : Same ops r r') :
    r'.1.answer ops = r.1.answer ops := by
  cases h with
  | val w hv => exact congrArg Out.val hv.symm
  | raised w he => exact congrArg Out.val (shape_error he).symm
  | call k w => rfl

theorem Same.pending {r r' : Out V × World σ} (h : Same ops r r') : r'.1.pending = r.1.pending := by
  cases h <;> rfl

/-- Outcomes that are apart have different answers, or different leaves were evaluated. -/
theorem Apart.answer_ne {r r' : Out V × World σ} (h : Apart ops r r') (hw : r'.2 = r.2) :
    r'.1.answer ops ≠ r.1.answer ops := by
  obtain ⟨e, w, rfl, he, hf⟩ := h
  obtain ⟨o, w'⟩ := r'
  cases hw
  intro ha
  rw [Out.answer, shape_error he] at ha
  have hn : evaluated (o, w) = w.log.length := by
    cases o with
    | val v => rfl
    | raised e' => rfl
    | call k => cases ha
  obtain ⟨v, hv, hne⟩ := hf.value hn
  cases hv
  rw [Out.answer, Out.val.injEq] at ha
  rw [← iserror_shape, ha, he] at hne
  cases hne

end Agrees

/-! ## An error object that a variable holds -/

/-- Some values: both shapes of nil, the numbers and an error object. -/
inductive Sample
  | null
  | nil
  | t
  | num (n : ℕ)
  | err
  deriving DecidableEq

namespace Sample

def values : Values Sample where
  null := null
  nil := nil
  t := t
  istrue v := v = t || (v != null && v != nil && v != err && v != num 0)
  iserror v := v = err
  isequal a b := (if a = null then nil else a) = (if b = null then nil else b)
  istrue_null := rfl
  istrue_nil := rfl
  istrue_t := rfl
  istrue_error v h := by rw [of_decide_eq_true h]; rfl
  isequal_null v := rfl
  iserror_null := rfl
  iserror_nil := rfl
  iserror_t := rfl

/-- Leaf 0 is a variable that holds the error object, the others are the numbers. -/
def leaves : Leaves values Unit where
  isCall _ := false
  extra _ := 1
  eval k s := (.ok (if k = 0 then err else num k), s)
  raises k s e s' h := by cases h

def start : World Unit := ⟨(), []⟩

/-- `(if e 1 2)` -/
def ifError : Form Sample := .ifForm (.leaf 0) (.leaf 1) (.default (.leaf 2))

/-- `(if 3 e 2)` -/
def errorBranch : Form Sample := .ifForm (.leaf 3) (.leaf 0) (.default (.leaf 2))

def codeOf (test thn els : ℕ) : Code Sample :=
  [.leaf test, .brIfFalse 5, .leaf thn, .jump 2, .leaf els]

theorem codeOf_wide (test thn els : ℕ) : compile leaves wide false
    (.ifForm (.leaf test) (.leaf thn) (.default (.leaf els))) = some (codeOf test thn els) := rfl

theorem codeOf_i16 (test thn els : ℕ) : compile leaves i16 false
    (.ifForm (.leaf test) (.leaf thn) (.default (.leaf els))) = some (codeOf test thn els) := by
  have h5 : i16 5 = 5 := by decide
  have h2 : i16 2 = 2 := by decide
  rw [codeOf, ← h5, ← h2]
  rfl

end Sample

end Alcove.Control
