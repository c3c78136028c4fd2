import Alcove.Hamt.Node
import Alcove.Sequence.Builders
import Alcove.Template.Expand

/-!
# The `match` form

`alc_match_pat` holds a pattern against a value and binds its variables in a new frame;
`alc_match_list_pats` does so along a list. `matchcmd` takes the clauses in order: the first pattern
that succeeds selects its result form, and a form without a partner is the default.

A truth test stands first where the patterns for nil are meant, and at the end of a list. A guard calls
back into the evaluator (`Runtime`).
-/

namespace Alcove.Match

open Binding Params Template Sequence

/-! ## Errors and answers -/

/-- The errors of a pattern. -/
inductive MatchError
  | quoteArgument
  | guardPredicate
  | guardEvaluation
  | guardCall
  | consPatterns
  | raised (e : Exp)

/-- The text of an error that `match` makes. -/
def MatchError.text : MatchError → String
  | .quoteArgument => "match: (quote sym) needs an argument"
  | .guardPredicate => "match: (? pred) needs a predicate"
  | .guardEvaluation => "match: guard predicate evaluation failed"
  | .guardCall => "match: guard predicate call failed"
  | .consPatterns => "match: (cons head tail) needs two sub-patterns"
  | .raised _ => ""

/-- 1 with the new frame, 0, or -1 with `*err`. -/
inductive Answer
  | matched (f : Frame Exp)
  | noMatch
  | error (e : MatchError)

/-- 1 or 0, where nothing is bound. -/
def answer (ok : Bool) (f : Frame Exp) : Answer := if ok then .matched f else .noMatch

@[simp]
theorem answer_matched {ok : Bool} {f f' : Frame Exp} :
    answer ok f = .matched f' ↔ ok = true ∧ f = f' := by
  cases ok <;> simp [answer]

/-- `EVAL` in the environment of the form or in a new frame below it, `alc_apply1`, and what the arrays
of a new frame held before. -/
structure Runtime (σ : Type) where
  eval : Exp → Option (Frame Exp) → σ → Exp × σ
  apply1 : Exp → Exp → σ → Exp × σ
  stale : Stale Exp

/-! ## The parts of a pattern -/

/-- The text of a symbol; `TRUE_EXP` is one. -/
def symText : Exp → Option CStr
  | .symbol text => some text
  | .t => some (word "t")
  | _ => none

/-- `v ? v : NIL_EXP` -/
def orNil (v : Exp) : Exp := if v.isNull then .nil else v

/-- The cells of a vector of any kind, as `vec_get_boxed` returns them. -/
def vecCells : Exp → Option (List Exp)
  | .vector cells => some cells
  | .vectorI64 cells => some (cells.map boxI64)
  | .vectorF64 cells => some (cells.map .float)
  | _ => none

/-- The tests of `alc_match_pat` for a pattern that is no pair, in their order. -/
def matchAtom (pat val : Exp) (f : Frame Exp) : Answer :=
  if named "_" pat then .matched f
  else if !istrue pat then answer (!istrue val) f
  else match pat, val with
    | .t, val => answer (val matches .t) f
    | .fix m, .fix n => answer (m = n) f
    | .float a, .float b => answer (Hamt.floatEq a b) f
    | .string a, .string b => answer (a = b) f
    | .symbol name, val => .matched (f.bindVar name (orNil val))
    | _, _ => .noMatch

/-- `(quote sym)` -/
def matchQuote (rest val : Exp) (f : Frame Exp) : Answer :=
  match rest with
  | .pair q _ =>
    if q.isNull then .error .quoteArgument
    else answer ((symText q).isSome && symText q = symText val) f
  | _ => .error .quoteArgument

variable {σ : Type} (R : Runtime σ)

/-- `(? pred)` -/
def matchGuard (rest val : Exp) (f : Frame Exp) (s : σ) : Answer × σ :=
  match rest with
  | .pair form _ =>
    if form.isNull then (.error .guardPredicate, s)
    else
      let (pred, s) := R.eval form none s
      if pred.isNull then (.error .guardEvaluation, s)
      else if isError pred then (.error (.raised pred), s)
      else
        let (r, s) := R.apply1 pred (orNil val) s
        if r.isNull then (.error .guardCall, s)
        else if isError r then (.error (.raised r), s)
        else (answer (istrue r) f, s)
  | _ => (.error .guardPredicate, s)

mutual

/-- `alc_match_pat` -/
def alcMatchPat : Exp → Exp → Frame Exp → σ → Answer × σ
  | .pair head rest, val, f, s =>
    if head.isNull && rest.isNull then (answer (!istrue val) f, s)
    else if named "quote" head then (matchQuote rest val f, s)
    else if named "?" head then matchGuard R rest val f s
    else if named "cons" head then
      match rest with
      | .pair h (.pair u _) =>
        match val with
        | .pair a d =>
          if !istrue (.pair a d) then (.noMatch, s)
          else
            match alcMatchPat h a f s with
            | (.matched f, s) => alcMatchPat u (orNil d) f s
            | r => r
        | _ => (.noMatch, s)
      | _ => (.error .consPatterns, s)
    else if named "list" head then alcMatchListPats rest val f s
    else if named "vec" head then
      match vecCells val with
      | some cells => alcMatchCells rest cells f s
      | none => (.noMatch, s)
    else (.noMatch, s)
  | pat, val, f, s => (matchAtom pat val f, s)
termination_by structural pat => pat

/-- `alc_match_list_pats` -/
def alcMatchListPats : Exp → Exp → Frame Exp → σ → Answer × σ
  | .pair p ps, v, f, s =>
    if p.isNull then (answer (!istrue v) f, s)
    else
      match v with
      | .pair a d =>
        if !istrue (.pair a d) then (.noMatch, s)
        else
          match alcMatchPat p a f s with
          | (.matched f, s) => alcMatchListPats ps d f s
          | r => r
      | _ => (.noMatch, s)
  | _, v, f, s => (answer (!istrue v) f, s)
termination_by structural pats => pats

/-- The loop of `(vec p...)`, from one cell on. -/
def alcMatchCells : Exp → List Exp → Frame Exp → σ → Answer × σ
  | .pair p ps, cells, f, s =>
    if p.isNull then (answer cells.isEmpty f, s)
    else
      match cells with
      | cell :: cells =>
        match alcMatchPat p cell f s with
        | (.matched f, s) => alcMatchCells ps cells f s
        | r => r
      | [] => (.noMatch, s)
  | _, cells, f, s => (answer cells.isEmpty f, s)
termination_by structural pats => pats

end

/-! ## The clauses -/

/-- The form that the clauses select: the result of a clause in the frame of its pattern, with the clauses
after it, or the default. -/
inductive Selected
  | clause (form : Exp) (f : Frame Exp) (more : List Exp)
  | default (form : Exp)
  | none

/-- The loop of `matchcmd` up to the form it evaluates. -/
def selectClause (val : Exp) : List Exp → σ → Except MatchError Selected × σ
  | [], s => (.ok .none, s)
  | [form], s => (.ok (.default form), s)
  | pat :: form :: more, s =>
    match alcMatchPat R pat val (.fresh R.stale) s with
    | (.matched f, s) => (.ok (.clause form f more), s)
    | (.noMatch, s) => selectClause val more s
    | (.error e, s) => (.error e, s)

/-- The value of the selected form. -/
def runSelected : Selected → σ → Exp × σ
  | .clause form f _, s => let (ret, s) := R.eval form (some f) s; (orNil ret, s)
  | .default form, s => let (ret, s) := R.eval form none s; (orNil ret, s)
  | .none, s => (.nil, s)

/-- `matchcmd`, on the forms after its name. -/
def matchcmd : List Exp → σ → Except MatchError Exp × σ
  | [], s => (.ok .nil, s)
  | form :: clauses, s =>
    let (val, s) := R.eval form none s
    if val.isNull || isError val then (.ok (orNil val), s)
    else
      match selectClause R val clauses s with
      | (.ok selected, s) => let (ret, s) := runSelected R selected s; (.ok ret, s)
      | (.error e, s) => (.error e, s)

/-! ## Equations -/

variable {R} {f : Frame Exp} {s : σ}

theorem alcMatchPat_atom {pat : Exp} (h : ∀ a d, pat ≠ .pair a d) (val : Exp) :
    alcMatchPat R pat val f s = (matchAtom pat val f, s) := by
  cases pat <;> first | rfl | exact absurd rfl (h _ _)

theorem alcMatchPat_empty (val : Exp) :
    alcMatchPat R (.pair .null .null) val f s = (answer (!istrue val) f, s) := rfl

theorem alcMatchPat_quote (rest val : Exp) :
    alcMatchPat R (.pair (sym "quote") rest) val f s = (matchQuote rest val f, s) := by
  rw [alcMatchPat.eq_def]
  simp +decide only [sym, Exp.isNull, Bool.false_and, Bool.false_eq_true, if_false, if_true]

theorem alcMatchPat_cons {h u more val : Exp} :
    alcMatchPat R (.pair (sym "cons") (.pair h (.pair u more))) val f s =
      match val with
      | .pair a d =>
        if !istrue (.pair a d) then (.noMatch, s)
        else
          match alcMatchPat R h a f s with
          | (.matched f, s) => alcMatchPat R u (orNil d) f s
          | r => r
      | _ => (.noMatch, s) := by
  rw [alcMatchPat.eq_def]
  simp +decide only [sym, Exp.isNull, Bool.false_and, Bool.false_eq_true, if_false, if_true]

theorem alcMatchPat_list (pats val : Exp) :
    alcMatchPat R (.pair (sym "list") pats) val f s = alcMatchListPats R pats val f s := by
  rw [alcMatchPat.eq_def]
  simp +decide only [sym, Exp.isNull, Bool.false_and, Bool.false_eq_true, if_false, if_true]

theorem alcMatchPat_vec (pats val : Exp) :
    alcMatchPat R (.pair (sym "vec") pats) val f s =
      match vecCells val with
      | some cells => alcMatchCells R pats cells f s
      | none => (.noMatch, s) := by
  rw [alcMatchPat.eq_def]
  simp +decide only [sym, Exp.isNull, Bool.false_and, Bool.false_eq_true, if_false, if_true]

end Alcove.Match
