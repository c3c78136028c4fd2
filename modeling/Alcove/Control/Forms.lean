import Mathlib.Data.List.Basic

/-!
# Control forms and their interpreter

`if`, `when`, `unless`, `and`, `or`, `cond`, `case` and `do` over sub-forms that are control forms or
anything else (`leaf`). A leaf does what it does in both tiers: it changes the state, and returns a
value, which may be an error that a variable holds, or raises an error; `World.log` records the leaves
that were evaluated. `interp` is the evaluator of `alcove.c` on these forms. It knows an error by its
type only, so it returns one that it meets wherever it tests or drops a value; a call in tail position
is left to the trampoline (`Out.call`).

**Main result:** `interp_log`. The leaves are evaluated in their order, each at most once.
-/

namespace Alcove.Control

/-- The values, as far as the forms look at them. `null` is the pointer that is nil as well. -/
structure Values (V : Type) where
  null : V
  nil : V
  t : V
  istrue : V → Bool
  iserror : V → Bool
  isequal : V → V → Bool
  istrue_null : istrue null = false
  istrue_nil : istrue nil = false
  istrue_t : istrue t = true
  istrue_error : ∀ v, iserror v = true → istrue v = false
  isequal_null : ∀ v, isequal null v = isequal nil v
  iserror_null : iserror null = false
  iserror_nil : iserror nil = false
  iserror_t : iserror t = false

/-- The sub-forms that are no control forms: whether the compiler makes a call of one, how many bytes
its code has beyond the first, and what it does. -/
structure Leaves {V : Type} (ops : Values V) (σ : Type) where
  isCall : ℕ → Bool
  extra : ℕ → ℕ
  eval : ℕ → σ → Except V V × σ
  raises : ∀ k s e s', eval k s = (.error e, s') → ops.iserror e = true

mutual

/-- A form; `missing` is an operand that is not there. -/
inductive Form (V : Type)
  | leaf (k : ℕ)
  | missing
  | ifForm (test thn : Form V) (rest : Conds V)
  /-- `when`, or `unless` when negated -/
  | whenForm (negate : Bool) (test : Form V) (body : Forms V)
  | andForm (args : Forms V)
  | orForm (args : Forms V)
  | condForm (clauses : Conds V)
  | caseForm (key : Form V) (clauses : Cases V)
  | doForm (body : Forms V)

inductive Forms (V : Type)
  | nil
  | cons (f : Form V) (rest : Forms V)

/-- Pairs of a test and a form, and a last form without a test. -/
inductive Conds (V : Type)
  | none
  | default (f : Form V)
  | clause (test f : Form V) (rest : Conds V)

/-- Pairs of a literal and a form, and a last form without a literal. -/
inductive Cases (V : Type)
  | none
  | default (f : Form V)
  | clause (literal : V) (f : Form V) (rest : Cases V)

end

/-- The state, and the leaves that were evaluated so far. -/
structure World (σ : Type) where
  state : σ
  log : List ℕ

/-- What a form comes to: a value, an error that was raised, or a call that is still to be made. -/
inductive Out (V : Type)
  | val (v : V)
  | raised (e : V)
  | call (k : ℕ)

namespace Out

variable {V : Type}

/-- The call that is to be made. -/
def pending : Out V → List ℕ
  | call k => [k]
  | _ => []

/-- The object that the evaluator returns; the marker of a tail call is a pair that is not empty. -/
def result (ops : Values V) : Out V → V
  | val v => v
  | raised e => e
  | call _ => ops.t

/-- `ret ? ret : NIL_EXP` -/
def orNil {σ : Type} [DecidableEq V] (ops : Values V) : Out V × World σ → Out V × World σ
  | (val v, w) => (val (if v = ops.null then ops.nil else v), w)
  | r => r

/-- `if (iserror(ret)) return ret;`, and what comes behind it. -/
def tested {σ : Type} (ops : Values V) (r : Out V × World σ) (k : V → World σ → Out V × World σ) :
    Out V × World σ :=
  let v := r.1.result ops
  if ops.iserror v then (val v, r.2) else k v r.2

end Out

variable {V σ : Type} {ops : Values V}

/-- A leaf is evaluated. -/
def Leaves.run (L : Leaves ops σ) (k : ℕ) (w : World σ) : Except V V × World σ :=
  ((L.eval k w.state).1, ⟨(L.eval k w.state).2, w.log ++ [k]⟩)

/-! ## The interpreter -/

section Interp

variable [DecidableEq V] (L : Leaves ops σ)

mutual

/-- `evaluate` of a form, in tail position or not: an error that is raised is a value like others. -/
def interp (tail : Bool) : Form V → World σ → Out V × World σ
  | .leaf k, w =>
    if tail && L.isCall k then (.call k, w)
    else match L.run k w with
      | (.ok v, w) => (.val v, w)
      | (.error e, w) => (.val e, w)
  | .missing, w => (.val ops.null, w)
  -- ifcmd
  | .ifForm test thn rest, w => Out.tested ops (interp false test w) fun v w =>
    if ops.istrue v then interp tail thn w else ifRest tail rest w
  -- whencmd, unlesscmd
  | .whenForm negate test body, w => Out.tested ops (interp false test w) fun v w =>
    if ops.istrue v != negate then seq tail body w else (.val ops.nil, w)
  | .andForm args, w => andLoop tail args w
  | .orForm args, w => orLoop tail args w
  | .condForm clauses, w => condLoop tail clauses w
  -- casecmd
  | .caseForm key clauses, w => Out.tested ops (interp false key w) fun v w =>
    caseBody tail v clauses w
  | .doForm body, w => seq tail body w

/-- The loop of `docmd`, and of the body of `when` and `unless` -/
def seq (tail : Bool) : Forms V → World σ → Out V × World σ
  | .nil, w => (.val ops.nil, w)
  | .cons f .nil, w => Out.orNil ops (interp tail f w)
  | .cons f rest, w => Out.tested ops (interp false f w) fun _ w => seq tail rest w

/-- The rest of the loop of `ifcmd`: pairs of a test and a form, a last form is the else branch. -/
def ifRest (tail : Bool) : Conds V → World σ → Out V × World σ
  | .none, w => (.val ops.nil, w)
  | .default f, w => interp tail f w
  | .clause test f rest, w => Out.tested ops (interp false test w) fun v w =>
    if ops.istrue v then interp tail f w else ifRest tail rest w

/-- `andcmd` -/
def andLoop (tail : Bool) : Forms V → World σ → Out V × World σ
  | .nil, w => (.val ops.t, w)
  | .cons f .nil, w => interp tail f w
  | .cons f rest, w => Out.tested ops (interp false f w) fun v w =>
    if ops.istrue v then andLoop tail rest w else (.val v, w)

/-- `orcmd` -/
def orLoop (tail : Bool) : Forms V → World σ → Out V × World σ
  | .nil, w => (.val ops.nil, w)
  | .cons f .nil, w => interp tail f w
  | .cons f rest, w => Out.tested ops (interp false f w) fun v w =>
    if ops.istrue v then (.val v, w) else orLoop tail rest w

/-- `condcmd` -/
def condLoop (tail : Bool) : Conds V → World σ → Out V × World σ
  | .none, w => (.val ops.nil, w)
  | .default f, w => Out.orNil ops (interp tail f w)
  | .clause test f rest, w => Out.tested ops (interp false test w) fun v w =>
    if ops.istrue v then Out.orNil ops (interp tail f w) else condLoop tail rest w

/-- The clauses of `casecmd`: the form of the first literal that the key is, or nil. -/
def caseBody (tail : Bool) (key : V) : Cases V → World σ → Out V × World σ
  | .none, w => (.val ops.nil, w)
  | .default f, w => Out.orNil ops (interp tail f w)
  | .clause literal f rest, w =>
    if ops.isequal key literal then Out.orNil ops (interp tail f w)
    else caseBody tail key rest w

end

end Interp

/-! ## The order of the leaves -/

mutual

/-- The leaves of a form, in their order -/
def Form.leaves : Form V → List ℕ
  | .leaf k => [k]
  | .missing => []
  | .ifForm test thn rest => test.leaves ++ (thn.leaves ++ rest.leaves)
  | .whenForm _ test body => test.leaves ++ body.leaves
  | .andForm args => args.leaves
  | .orForm args => args.leaves
  | .condForm clauses => clauses.leaves
  | .caseForm key clauses => key.leaves ++ clauses.leaves
  | .doForm body => body.leaves

def Forms.leaves : Forms V → List ℕ
  | .nil => []
  | .cons f rest => f.leaves ++ rest.leaves

def Conds.leaves : Conds V → List ℕ
  | .none => []
  | .default f => f.leaves
  | .clause test f rest => test.leaves ++ (f.leaves ++ rest.leaves)

def Cases.leaves : Cases V → List ℕ
  | .none => []
  | .default f => f.leaves
  | .clause _ f rest => f.leaves ++ rest.leaves

end

/-- Some of the leaves `l` were evaluated, in this order and each at most once; a call that is still to
be made is the last, and there is none in a form that is not in tail position. -/
structure Traced (tail : Bool) (l : List ℕ) (w : World σ) (r : Out V × World σ) : Prop where
  trace : ∃ l', l'.Sublist l ∧ r.2.log ++ r.1.pending = w.log ++ l'
  pending : tail = false → r.1.pending = []

namespace Traced

variable {tail : Bool} {l l' : List ℕ} {w : World σ} {r : Out V × World σ}

theorem val (v : V) : Traced tail l w (.val v, w) where
  trace := ⟨[], List.nil_sublist l, rfl⟩
  pending _ := rfl

theorem mono (h : Traced tail l w r) (hl : l.Sublist l') : Traced tail l' w r where
  trace := h.trace.imp fun _ ht => ⟨ht.1.trans hl, ht.2⟩
  pending := h.pending

theorem orNil [DecidableEq V] (h : Traced tail l w r) : Traced tail l w (Out.orNil ops r) := by
  obtain ⟨o, w'⟩ := r
  cases o with
  | val v => exact ⟨h.trace, h.pending⟩
  | raised e => exact h
  | call k => exact h

/-- A value is tested, and what comes behind evaluates later leaves. -/
theorem tested {k : V → World σ → Out V × World σ} (h : Traced false l w r)
    (hk : ∀ v w', Traced tail l' w' (k v w')) : Traced tail (l ++ l') w (Out.tested ops r k) := by
  obtain ⟨a, ha, hlog⟩ := h.trace
  rw [h.pending rfl, List.append_nil] at hlog
  simp only [Out.tested]
  split
  · exact ⟨⟨a, ha.trans (List.sublist_append_left l l'), by rw [← hlog]; exact List.append_nil _⟩,
      fun _ => rfl⟩
  · obtain ⟨b, hb, hlog'⟩ := (hk (r.1.result ops) r.2).trace
    refine ⟨⟨a ++ b, ha.append hb, ?_⟩, (hk _ _).pending⟩
    rw [hlog', hlog, List.append_assoc]

end Traced

section Order

variable [DecidableEq V] (L : Leaves ops σ)

mutual

theorem interp_log : ∀ (f : Form V) (tail : Bool) (w : World σ),
    Traced tail f.leaves w (interp L tail f w)
  | .leaf k, tail, w => by
    rw [interp, Form.leaves]
    split
    · rename_i htail
      exact ⟨⟨[k], List.Sublist.refl _, rfl⟩, fun h => by rw [h] at htail; cases htail⟩
    · rw [Leaves.run]
      cases (L.eval k w.state).1 with
      | ok v => exact ⟨⟨[k], List.Sublist.refl _, List.append_nil _⟩, fun _ => rfl⟩
      | error e => exact ⟨⟨[k], List.Sublist.refl _, List.append_nil _⟩, fun _ => rfl⟩
  | .missing, tail, w => by
    rw [interp]
    exact Traced.val _
  | .ifForm test thn rest, tail, w => by
    rw [interp, Form.leaves]
    refine (interp_log test false w).tested fun v w' => ?_
    split
    · exact (interp_log thn tail w').mono (List.sublist_append_left _ _)
    · exact (ifRest_log rest tail w').mono (List.sublist_append_right _ _)
  | .whenForm negate test body, tail, w => by
    rw [interp, Form.leaves]
    refine (interp_log test false w).tested fun v w' => ?_
    split
    · exact seq_log body tail w'
    · exact Traced.val _
  | .andForm args, tail, w => by
    rw [interp, Form.leaves]
    exact andLoop_log args tail w
  | .orForm args, tail, w => by
    rw [interp, Form.leaves]
    exact orLoop_log args tail w
  | .condForm clauses, tail, w => by
    rw [interp, Form.leaves]
    exact condLoop_log clauses tail w
  | .caseForm key clauses, tail, w => by
    rw [interp, Form.leaves]
    exact (interp_log key false w).tested fun v w' => caseBody_log clauses tail v w'
  | .doForm body, tail, w => by
    rw [interp, Form.leaves]
    exact seq_log body tail w

theorem seq_log : ∀ (fs : Forms V) (tail : Bool) (w : World σ),
    Traced tail fs.leaves w (seq L tail fs w)
  | .nil, tail, w => by
    rw [seq]
    exact Traced.val _
  | .cons f .nil, tail, w => by
    rw [seq, Forms.leaves]
    exact ((interp_log f tail w).orNil).mono (List.sublist_append_left _ _)
  | .cons f (.cons g rest), tail, w => by
    rw [seq, Forms.leaves]
    · exact (interp_log f false w).tested fun _ w' => seq_log (.cons g rest) tail w'
    · exact fun h => by cases h

theorem ifRest_log : ∀ (cs : Conds V) (tail : Bool) (w : World σ),
    Traced tail cs.leaves w (ifRest L tail cs w)
  | .none, tail, w => by
    rw [ifRest]
    exact Traced.val _
  | .default f, tail, w => by
    rw [ifRest, Conds.leaves]
    exact interp_log f tail w
  | .clause test f rest, tail, w => by
    rw [ifRest, Conds.leaves]
    refine (interp_log test false w).tested fun v w' => ?_
    split
    · exact (interp_log f tail w').mono (List.sublist_append_left _ _)
    · exact (ifRest_log rest tail w').mono (List.sublist_append_right _ _)

theorem andLoop_log : ∀ (fs : Forms V) (tail : Bool) (w : World σ),
    Traced tail fs.leaves w (andLoop L tail fs w)
  | .nil, tail, w => by
    rw [andLoop]
    exact Traced.val _
  | .cons f .nil, tail, w => by
    rw [andLoop, Forms.leaves]
    exact (interp_log f tail w).mono (List.sublist_append_left _ _)
  | .cons f (.cons g rest), tail, w => by
    rw [andLoop, Forms.leaves]
    · refine (interp_log f false w).tested fun v w' => ?_
      split
      · exact andLoop_log (.cons g rest) tail w'
      · exact Traced.val _
    · exact fun h => by cases h

theorem orLoop_log : ∀ (fs : Forms V) (tail : Bool) (w : World σ),
    Traced tail fs.leaves w (orLoop L tail fs w)
  | .nil, tail, w => by
    rw [orLoop]
    exact Traced.val _
  | .cons f .nil, tail, w => by
    rw [orLoop, Forms.leaves]
    exact (interp_log f tail w).mono (List.sublist_append_left _ _)
  | .cons f (.cons g rest), tail, w => by
    rw [orLoop, Forms.leaves]
    · refine (interp_log f false w).tested fun v w' => ?_
      split
      · exact Traced.val _
      · exact orLoop_log (.cons g rest) tail w'
    · exact fun h => by cases h

theorem condLoop_log : ∀ (cs : Conds V) (tail : Bool) (w : World σ),
    Traced tail cs.leaves w (condLoop L tail cs w)
  | .none, tail, w => by
    rw [condLoop]
    exact Traced.val _
  | .default f, tail, w => by
    rw [condLoop, Conds.leaves]
    exact (interp_log f tail w).orNil
  | .clause test f rest, tail, w => by
    rw [condLoop, Conds.leaves]
    refine (interp_log test false w).tested fun v w' => ?_
    split
    · exact ((interp_log f tail w').orNil).mono (List.sublist_append_left _ _)
    · exact (condLoop_log rest tail w').mono (List.sublist_append_right _ _)

theorem caseBody_log : ∀ (cs : Cases V) (tail : Bool) (key : V) (w : World σ),
    Traced tail cs.leaves w (caseBody L tail key cs w)
  | .none, tail, key, w => by
    rw [caseBody]
    exact Traced.val _
  | .default f, tail, key, w => by
    rw [caseBody, Cases.leaves]
    exact (interp_log f tail w).orNil
  | .clause literal f rest, tail, key, w => by
    rw [caseBody, Cases.leaves]
    split
    · exact ((interp_log f tail w).orNil).mono (List.sublist_append_left _ _)
    · exact (caseBody_log rest tail key w).mono (List.sublist_append_right _ _)

end

end Order

end Alcove.Control
