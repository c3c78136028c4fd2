import Alcove.Match.Patterns
import Alcove.Template.Filled

/-!
# Instances of a pattern

What a pattern says, as a relation: a literal is held against a value equal to it, `(cons h t)` against a
pair, `(list p...)` against a list of that length, `(vec p...)` against a vector of that length, and each
variable is bound to its sub-value. A `Reading` says when a value counts as a literal and when a list has
ended. The patterns mean `exact`; `alc_match_pat` decides `lax` (`decides`), where any two values that are
not true count as equal, any such value ends a list, and a `t` that was read is a variable.

* `Instance`: the relation.
* `decides`: the code succeeds if and only if the value is a lax instance.
* `Instance.lax`: every exact instance is a lax one, with the same variables.
-/

namespace Alcove.Match

open Binding Params Template

/-- A variable and its sub-value. -/
abbrev Bound : Type := CStr × Exp

/-! ## Patterns -/

/-- Both shapes of nil, and a pair with nothing in it. -/
def isNil : Exp → Bool
  | .null | .nil => true
  | .pair content next => content.isNull && next.isNull
  | _ => false

/-- nil, `t`, a number, a string or a char; the names of nil and `t` stand for them. -/
def isLiteral : Exp → Bool
  | .t | .fix _ | .char _ | .float _ | .string _ | .rational .. | .decimal .. => true
  | .symbol text => text = word "nil" || text = word "t"
  | p => isNil p

/-- The symbols that a pattern binds. -/
def isVariable (text : CStr) : Bool := text ≠ word "_" && text ≠ word "nil" && text ≠ word "t"

mutual

/-- The patterns without a guard. -/
inductive IsPattern : Exp → Prop
  | wild {text : CStr} (h : text = word "_") : IsPattern (.symbol text)
  | literal {p : Exp} (h : isLiteral p = true) : IsPattern p
  | var {text : CStr} (h : isVariable text = true) : IsPattern (.symbol text)
  | quote {head q : Exp} (h : named "quote" head = true) (hq : q ≠ .null) :
      IsPattern (.pair head (.pair q .null))
  | cons {head a d : Exp} (h : named "cons" head = true) (ha : IsPattern a) (hd : IsPattern d) :
      IsPattern (.pair head (.pair a (.pair d .null)))
  | list {head ps : Exp} (h : named "list" head = true) (hps : ArePatterns ps) :
      IsPattern (.pair head ps)
  | vec {head ps : Exp} (h : named "vec" head = true) (hps : ArePatterns ps) :
      IsPattern (.pair head ps)

/-- The patterns of a `list` or a `vec`. -/
inductive ArePatterns : Exp → Prop
  | nil {ps : Exp} (h : isNil ps = true) : ArePatterns ps
  | cons {p ps : Exp} (h : p ≠ .null) (hp : IsPattern p) (hps : ArePatterns ps) :
      ArePatterns (.pair p ps)

end

/-! ## The relation -/

/-- When a value counts as a literal, with what is bound then, and when a list has ended. -/
structure Reading where
  literal : Exp → Exp → Option (List Bound)
  ended : Exp → Bool

/-- What patterns are held against: one against a value, several against the rest of a list or against
the cells of a vector from one on. -/
inductive Target
  | value (v : Exp)
  | rest (v : Exp)
  | cells (vs : List Exp)

/-- The value is an instance of the pattern, with the sub-values of its variables from the left to the
right. -/
inductive Instance (r : Reading) : Exp → Target → List Bound → Prop
  | wild {text : CStr} {v : Exp} (h : text = word "_") : Instance r (.symbol text) (.value v) []
  | literal {p v : Exp} {bs : List Bound} (hp : isLiteral p = true) (h : r.literal p v = some bs) :
      Instance r p (.value v) bs
  | var {text : CStr} {v : Exp} (h : isVariable text = true) :
      Instance r (.symbol text) (.value v) [(text, orNil v)]
  | quote {head q v : Exp} {text : CStr} (h : named "quote" head = true) (hq : symText q = some text)
      (hv : symText v = some text) : Instance r (.pair head (.pair q .null)) (.value v) []
  | cons {head p q a d : Exp} {bs cs : List Bound} (h : named "cons" head = true)
      (ht : isTruePair (.pair a d) = true) (ha : Instance r p (.value a) bs)
      (hd : Instance r q (.value (orNil d)) cs) :
      Instance r (.pair head (.pair p (.pair q .null))) (.value (.pair a d)) (bs ++ cs)
  | list {head ps v : Exp} {bs : List Bound} (h : named "list" head = true)
      (hps : Instance r ps (.rest v) bs) : Instance r (.pair head ps) (.value v) bs
  | vec {head ps v : Exp} {vs : List Exp} {bs : List Bound} (h : named "vec" head = true)
      (hv : vecCells v = some vs) (hps : Instance r ps (.cells vs) bs) :
      Instance r (.pair head ps) (.value v) bs
  | ended {ps v : Exp} (h : isNil ps = true) (hv : r.ended v = true) : Instance r ps (.rest v) []
  | next {p ps a d : Exp} {bs cs : List Bound} (hp : p ≠ .null) (ht : isTruePair (.pair a d) = true)
      (ha : Instance r p (.value a) bs) (hd : Instance r ps (.rest d) cs) :
      Instance r (.pair p ps) (.rest (.pair a d)) (bs ++ cs)
  | empty {ps : Exp} (h : isNil ps = true) : Instance r ps (.cells []) []
  | cell {p ps v : Exp} {vs : List Exp} {bs cs : List Bound} (hp : p ≠ .null)
      (hv : Instance r p (.value v) bs) (hvs : Instance r ps (.cells vs) cs) :
      Instance r (.pair p ps) (.cells (v :: vs)) (bs ++ cs)

/-! ## Two readings -/

/-- The value is equal to the literal. -/
def equalLiteral (p v : Exp) : Bool :=
  match p, v with
  | .t, .t => true
  | .fix m, .fix n => m = n
  | .char a, .char b => a = b
  | .float a, .float b => Hamt.floatEq a b
  | .string a, .string b => a = b
  | .rational a b, .rational c d => a = c ∧ b = d
  | .decimal a m, .decimal b n => a * 10 ^ n.toNat = b * 10 ^ m.toNat
  | .symbol text, v => if text = word "nil" then isNil v else (v matches .t)
  | p, v => isNil p && isNil v

/-- What the patterns mean. -/
def exact : Reading where
  literal p v := if equalLiteral p v then some [] else none
  ended := isNil

/-- What the code decides. -/
def lax : Reading where
  literal p v :=
    if named "t" p then some [(word "t", orNil v)]
    else if equalLiteral p v || !istrue p && !istrue v then some []
    else none
  ended v := !istrue v

/-- The value is an instance of the pattern. -/
def Reading.Takes (r : Reading) (p v : Exp) : Prop := ∃ bs, Instance r p (.value v) bs

theorem istrue_of_isNil {v : Exp} (h : isNil v = true) : istrue v = false := by
  cases v <;> simp_all [isNil, istrue]

theorem equalLiteral_symbol (text : CStr) (v : Exp) : equalLiteral (.symbol text) v =
    if text = word "nil" then isNil v else (v matches .t) := by
  cases v <;> rfl

/-- A zero is one of two doubles. -/
theorem eq_of_isZero {b : UInt64} (h : Hamt.isZero b = true) : b = 0 ∨ b = 0x8000000000000000 := by
  have hmod : b.toNat % 2 ^ 63 = 0 := by
    rw [← Nat.and_two_pow_sub_one_eq_mod]
    simpa [Hamt.isZero, ← UInt64.toNat_inj] using h
  have hlt := b.toNat_lt
  have hcases : b.toNat = 0 ∨ b.toNat = 0x8000000000000000 := by omega
  exact hcases.imp (fun h0 => UInt64.toNat_inj.mp h0) fun h1 => UInt64.toNat_inj.mp h1

theorem istrue_float (b : UInt64) : istrue (.float b) = !Hamt.isZero b := by
  cases hz : Hamt.isZero b with
  | true => rcases eq_of_isZero hz with rfl | rfl <;> simp [istrue]
  | false =>
    have h0 : b ≠ 0 := by rintro rfl; exact absurd hz (by decide)
    have h1 : b ≠ 0x8000000000000000 := by rintro rfl; exact absurd hz (by decide)
    simp [istrue, h0, h1]

theorem floatEq_zero {a b : UInt64} (h : Hamt.floatEq a b = true) :
    Hamt.isZero a = Hamt.isZero b := by
  simp only [Hamt.floatEq, Bool.and_eq_true, Bool.or_eq_true, beq_iff_eq] at h
  rcases h.2 with rfl | ⟨ha, hb⟩
  · rfl
  · rw [ha, hb]

/-- A value equal to a literal is as true as the literal. -/
theorem istrue_of_equalLiteral {p v : Exp} (hp : isLiteral p = true) (h : equalLiteral p v = true)
    (hf : istrue p = false) : istrue v = false := by
  cases p with
  | float a =>
    cases v with
    | float b => rw [istrue_float] at hf ⊢; rw [← floatEq_zero h, hf]
    | _ => simp_all [equalLiteral, isNil]
  | symbol text =>
    have htext : text = word "nil" := by simpa [istrue] using hf
    rw [equalLiteral_symbol, if_pos htext] at h
    exact istrue_of_isNil h
  | pair content next =>
    simp only [equalLiteral, Bool.and_eq_true] at h
    exact istrue_of_isNil h.2
  | _ => cases v <;> simp_all [equalLiteral, isNil, isLiteral, istrue]

/-! ## What the code decides -/

/-- The variables bound in a frame, one after the other. -/
def bindAll (f : Frame Exp) (bs : List Bound) : Frame Exp :=
  bs.foldl (fun f b => f.bindVar b.1 b.2) f

@[simp]
theorem bindAll_nil (f : Frame Exp) : bindAll f [] = f := rfl

theorem bindAll_append (f : Frame Exp) (bs cs : List Bound) :
    bindAll f (bs ++ cs) = bindAll (bindAll f bs) cs :=
  List.foldl_append

variable {σ : Type} {R : Runtime σ} {f : Frame Exp} {s : σ}

/-- The code for each kind of target. -/
def against (R : Runtime σ) (p : Exp) : Target → Frame Exp → σ → Answer × σ
  | .value v => alcMatchPat R p v
  | .rest v => alcMatchListPats R p v
  | .cells vs => alcMatchCells R p vs

/-- The answer to a target that is a lax instance with these variables. -/
def found (f : Frame Exp) (bs : Option (List Bound)) : Answer :=
  bs.elim .noMatch fun bs => .matched (bindAll f bs)

theorem named_iff {a : String} {e : Exp} : named a e = true ↔ e = sym a :=
  ⟨named_eq, fun h => h ▸ by simp [named, symbolText, sym]⟩

theorem named_symbol (a : String) (text : CStr) : named a (.symbol text) = decide (text = word a) := by
  simp [named, symbolText]

theorem found_ite (f : Frame Exp) (ok : Bool) :
    found f (if ok then some [] else none) = answer ok f := by
  cases ok <;> rfl

theorem exact_literal (p v : Exp) :
    exact.literal p v = if equalLiteral p v then some [] else none := rfl

theorem lax_literal (p v : Exp) : lax.literal p v =
    if named "t" p then some [(word "t", orNil v)]
    else if equalLiteral p v || !istrue p && !istrue v then some []
    else none := rfl

theorem lax_symbol_t (v : Exp) :
    lax.literal (.symbol (word "t")) v = some [(word "t", orNil v)] := by
  rw [lax_literal]
  exact if_pos (named_iff.mpr rfl)

/-- A literal that is not true stands for every value that is not. -/
theorem lax_of_not_istrue {p : Exp} (h : isLiteral p = true) (hp : istrue p = false) (v : Exp) :
    lax.literal p v = if !istrue v then some [] else none := by
  have ht : named "t" p = false := by
    rw [← Bool.not_eq_true, named_iff]
    rintro rfl
    exact absurd hp (by decide)
  have heq : equalLiteral p v = true → istrue v = false := fun he => istrue_of_equalLiteral h he hp
  rw [lax_literal, ht, hp]
  cases hv : istrue v <;> simp_all

theorem lax_of_istrue {p : Exp} (ht : named "t" p = false) (hp : istrue p = true) (v : Exp) :
    lax.literal p v = if equalLiteral p v then some [] else none := by
  rw [lax_literal, ht, hp]
  simp

theorem named_wild {p : Exp} (h : isLiteral p = true) : named "_" p = false := by
  rw [← Bool.not_eq_true, named_iff]
  rintro rfl
  exact absurd h (by decide)

theorem matchAtom_literal {p v : Exp} (h : isLiteral p = true) (hpair : ∀ a d, p ≠ .pair a d) :
    matchAtom p v f = found f (lax.literal p v) := by
  rw [matchAtom.eq_def, if_neg (by simp [named_wild h])]
  cases hp : istrue p with
  | false => rw [if_pos (by rfl), lax_of_not_istrue h hp, found_ite]
  | true =>
    rw [if_neg (by simp)]
    cases p with
    | symbol text =>
      have htext : text = word "t" := by
        simp only [isLiteral, Bool.or_eq_true, decide_eq_true_eq] at h
        refine h.resolve_left fun hnil => ?_
        simp [istrue, hnil] at hp
      subst htext
      rw [lax_symbol_t]
      cases v <;> rfl
    | t | fix _ | float _ | string _ =>
      rw [lax_of_istrue rfl hp, found_ite]
      cases v <;> rfl
    | pair a d => exact absurd rfl (hpair a d)
    | _ => simp_all [istrue, isLiteral, isNil]

theorem alcMatchPat_literal {p : Exp} (h : isLiteral p = true) (v : Exp) :
    alcMatchPat R p v f s = (found f (lax.literal p v), s) := by
  by_cases hpair : ∃ a d, p = .pair a d
  · obtain ⟨a, d, rfl⟩ := hpair
    simp only [isLiteral, isNil, Bool.and_eq_true] at h
    obtain ⟨rfl, rfl⟩ : a = .null ∧ d = .null := by
      cases a <;> cases d <;> simp_all [Exp.isNull]
    rw [alcMatchPat_empty, lax_of_not_istrue rfl rfl, found_ite]
  · have hne : ∀ a d, p ≠ .pair a d := fun a d hp => hpair ⟨a, d, hp⟩
    rw [alcMatchPat_atom hne, matchAtom_literal h hne]

/-! ### Instances of each shape -/

section Shapes

variable {r : Reading} {head p q ps v a d : Exp} {vs : List Exp} {bs : List Bound}

theorem not_isLiteral_of_named {c : String} (h : named c head = true) : isLiteral (.pair head ps) ≠ true := by
  rw [named_iff.mp h]
  simp [isLiteral, isNil, sym, Exp.isNull]

theorem instance_wild :
    Instance r (.symbol (word "_")) (.value v) bs ↔ bs = [] ∧ true = true := by
  constructor
  · intro hi
    cases hi with
    | wild => exact ⟨rfl, rfl⟩
    | literal hp => exact absurd hp (by decide)
    | var h => exact absurd h (by decide)
  · rintro ⟨rfl, -⟩
    exact .wild rfl

theorem instance_literal (h : isLiteral p = true) :
    Instance r p (.value v) bs ↔ r.literal p v = some bs := by
  refine ⟨fun hi => ?_, .literal h⟩
  cases hi with
  | wild ht => subst ht; exact absurd h (by decide)
  | literal _ hl => exact hl
  | var hv => simp_all [isLiteral, isVariable]
  | quote hh | cons hh | list hh | vec hh => exact absurd h (not_isLiteral_of_named hh)

theorem instance_var {text : CStr} (h : isVariable text = true) :
    Instance r (.symbol text) (.value v) bs ↔ bs = [(text, orNil v)] := by
  constructor
  · intro hi
    cases hi with
    | wild ht => subst ht; exact absurd h (by decide)
    | literal hl => simp_all [isLiteral, isVariable]
    | var => rfl
  · rintro rfl
    exact .var h

theorem instance_quote (h : named "quote" head = true) :
    Instance r (.pair head (.pair q .null)) (.value v) bs ↔
      bs = [] ∧ (symText q).isSome = true ∧ symText q = symText v := by
  constructor
  · intro hi
    cases hi with
    | literal hp => exact absurd hp (not_isLiteral_of_named h)
    | quote _ hq hv => exact ⟨rfl, by rw [hq]; rfl, hq.trans hv.symm⟩
    | list h' | vec h' => rw [named_iff.mp h] at h'; exact absurd h' (by decide)
  · rintro ⟨rfl, hq, hv⟩
    obtain ⟨text, htext⟩ := Option.isSome_iff_exists.mp hq
    exact .quote h htext (hv ▸ htext)

theorem instance_cons (h : named "cons" head = true) :
    Instance r (.pair head (.pair p (.pair q .null))) (.value v) bs ↔
      ∃ a d bs' cs, v = .pair a d ∧ isTruePair (.pair a d) = true ∧ Instance r p (.value a) bs' ∧
        Instance r q (.value (orNil d)) cs ∧ bs = bs' ++ cs := by
  constructor
  · intro hi
    cases hi with
    | literal hp => exact absurd hp (not_isLiteral_of_named h)
    | cons _ ht ha hd => exact ⟨_, _, _, _, rfl, ht, ha, hd, rfl⟩
    | list h' | vec h' => rw [named_iff.mp h] at h'; exact absurd h' (by decide)
  · rintro ⟨a, d, bs', cs, rfl, ht, ha, hd, rfl⟩
    exact .cons h ht ha hd

theorem instance_list (h : named "list" head = true) :
    Instance r (.pair head ps) (.value v) bs ↔ Instance r ps (.rest v) bs := by
  constructor
  · intro hi
    cases hi with
    | literal hp => exact absurd hp (not_isLiteral_of_named h)
    | list _ hps => exact hps
    | quote h' | cons h' | vec h' => rw [named_iff.mp h] at h'; exact absurd h' (by decide)
  · exact .list h

theorem instance_vec (h : named "vec" head = true) :
    Instance r (.pair head ps) (.value v) bs ↔
      ∃ vs, vecCells v = some vs ∧ Instance r ps (.cells vs) bs := by
  constructor
  · intro hi
    cases hi with
    | literal hp => exact absurd hp (not_isLiteral_of_named h)
    | vec _ hv hps => exact ⟨_, hv, hps⟩
    | quote h' | cons h' | list h' => rw [named_iff.mp h] at h'; exact absurd h' (by decide)
  · rintro ⟨vs, hv, hps⟩
    exact .vec h hv hps

theorem not_isNil_pair (h : p ≠ .null) : isNil (.pair p ps) ≠ true := by
  cases p <;> simp_all [isNil, Exp.isNull]

theorem instance_next (h : p ≠ .null) :
    Instance r (.pair p ps) (.rest v) bs ↔
      ∃ a d bs' cs, v = .pair a d ∧ isTruePair (.pair a d) = true ∧ Instance r p (.value a) bs' ∧
        Instance r ps (.rest d) cs ∧ bs = bs' ++ cs := by
  constructor
  · intro hi
    cases hi with
    | ended hn => exact absurd hn (not_isNil_pair h)
    | next _ ht ha hd => exact ⟨_, _, _, _, rfl, ht, ha, hd, rfl⟩
  · rintro ⟨a, d, bs', cs, rfl, ht, ha, hd, rfl⟩
    exact .next h ht ha hd

theorem instance_ended (h : isNil ps = true) :
    Instance r ps (.rest v) bs ↔ bs = [] ∧ r.ended v = true := by
  constructor
  · intro hi
    cases hi with
    | ended _ hv => exact ⟨rfl, hv⟩
    | next hp => exact absurd h (not_isNil_pair hp)
  · rintro ⟨rfl, hv⟩
    exact .ended h hv

theorem instance_cell (h : p ≠ .null) :
    Instance r (.pair p ps) (.cells vs) bs ↔
      ∃ v vs' bs' cs, vs = v :: vs' ∧ Instance r p (.value v) bs' ∧ Instance r ps (.cells vs') cs ∧
        bs = bs' ++ cs := by
  constructor
  · intro hi
    cases hi with
    | empty hn => exact absurd hn (not_isNil_pair h)
    | cell _ hv hvs => exact ⟨_, _, _, _, rfl, hv, hvs, rfl⟩
  · rintro ⟨v, vs', bs', cs, rfl, hv, hvs, rfl⟩
    exact .cell h hv hvs

theorem instance_empty (h : isNil ps = true) : Instance r ps (.cells vs) bs ↔ bs = [] ∧ vs = [] := by
  constructor
  · intro hi
    cases hi with
    | empty _ => exact ⟨rfl, rfl⟩
    | cell hp => exact absurd h (not_isNil_pair hp)
  · rintro ⟨rfl, rfl⟩
    exact .empty h

/-- **The pattern and the target determine what is bound.** -/
theorem Instance.unique {t : Target} {cs : List Bound} (h : Instance r p t bs) (h' : Instance r p t cs) :
    bs = cs := by
  induction h generalizing cs with
  | wild h => subst h; exact (instance_wild.mp h').1.symm
  | literal hp h => exact Option.some.inj (h.symm.trans ((instance_literal hp).mp h'))
  | var h => exact ((instance_var h).mp h').symm
  | quote h hq hv => exact ((instance_quote h).mp h').1.symm
  | cons h _ _ _ iha ihd =>
    obtain ⟨_, _, bs', cs', heq, -, ha, hd, rfl⟩ := (instance_cons h).mp h'
    cases heq
    rw [iha ha, ihd hd]
  | list h _ ih => exact ih ((instance_list h).mp h')
  | vec h hv _ ih =>
    obtain ⟨vs, hvs, hps⟩ := (instance_vec h).mp h'
    obtain rfl := Option.some.inj (hv.symm.trans hvs)
    exact ih hps
  | ended h _ => exact ((instance_ended h).mp h').1.symm
  | next hp _ _ _ iha ihd =>
    obtain ⟨_, _, bs', cs', heq, -, ha, hd, rfl⟩ := (instance_next hp).mp h'
    cases heq
    rw [iha ha, ihd hd]
  | empty h => exact ((instance_empty h).mp h').1.symm
  | cell hp _ _ ihv ihvs =>
    obtain ⟨_, _, bs', cs', heq, hv, hvs, rfl⟩ := (instance_cell hp).mp h'
    cases heq
    rw [ihv hv, ihvs hvs]

end Shapes

/-! ### The decision -/

/-- The patterns that are held against a target. -/
def Part (p : Exp) : Target → Prop
  | .value _ => IsPattern p
  | .rest _ => ArePatterns p
  | .cells _ => ArePatterns p

/-- The code succeeds on a lax instance, with its variables bound, and fails on any other target. -/
def Decided (R : Runtime σ) (p : Exp) (t : Target) : Prop :=
  ∀ f s, (∃ bs, Instance lax p t bs ∧ against R p t f s = (.matched (bindAll f bs), s)) ∨
    (∀ bs, ¬ Instance lax p t bs) ∧ against R p t f s = (.noMatch, s)

/-- A test that binds nothing. -/
theorem Decided.test {p : Exp} {t : Target} (ok : Bool)
    (hi : ∀ bs, Instance lax p t bs ↔ bs = [] ∧ ok = true)
    (hr : ∀ f s, against R p t f s = (answer ok f, s)) : Decided R p t := by
  intro f s
  rw [hr]
  cases ok with
  | true => exact .inl ⟨[], (hi []).mpr ⟨rfl, rfl⟩, rfl⟩
  | false => exact .inr ⟨fun bs h => absurd ((hi bs).mp h).2 (by decide), rfl⟩

/-- What follows a success. -/
def andThen (r : Answer × σ) (k : Frame Exp → σ → Answer × σ) : Answer × σ :=
  match r with
  | (.matched f, s) => k f s
  | r => r

/-- A pattern and then others. -/
theorem Decided.both {p q whole : Exp} {t u all : Target} (hp : Decided R p t) (hq : Decided R q u)
    (hi : ∀ bs, Instance lax whole all bs ↔
      ∃ bs' cs, Instance lax p t bs' ∧ Instance lax q u cs ∧ bs = bs' ++ cs)
    (hr : ∀ f s, against R whole all f s = andThen (against R p t f s) (against R q u)) :
    Decided R whole all := by
  intro f s
  rw [hr]
  rcases hp f s with ⟨bs, hbs, hrun⟩ | ⟨hno, hrun⟩
  · rw [hrun]
    rcases hq (bindAll f bs) s with ⟨cs, hcs, hrun'⟩ | ⟨hno, hrun'⟩
    · exact .inl ⟨bs ++ cs, (hi _).mpr ⟨bs, cs, hbs, hcs, rfl⟩, by rw [bindAll_append]; exact hrun'⟩
    · refine .inr ⟨fun bs' h => ?_, hrun'⟩
      obtain ⟨-, cs, -, hcs, -⟩ := (hi bs').mp h
      exact hno cs hcs
  · rw [hrun]
    refine .inr ⟨fun bs h => ?_, rfl⟩
    obtain ⟨bs', -, hbs, -, -⟩ := (hi bs).mp h
    exact hno bs' hbs

theorem istrue_pair (a d : Exp) : istrue (.pair a d) = isTruePair (.pair a d) := rfl

/-- A test of the value before what the pattern says of its parts. -/
theorem Decided.guarded {p q whole v : Exp} {t : Exp → Target} (all : Target)
    (hp : ∀ a, Decided R p (.value a)) (hq : ∀ d, Decided R q (t d))
    (hi : ∀ bs, Instance lax whole all bs ↔
      ∃ a d bs' cs, v = .pair a d ∧ isTruePair (.pair a d) = true ∧ Instance lax p (.value a) bs' ∧
        Instance lax q (t d) cs ∧ bs = bs' ++ cs)
    (hr : ∀ f s a d, v = .pair a d → against R whole all f s =
      if !istrue (.pair a d) then (.noMatch, s)
      else andThen (against R p (.value a) f s) (against R q (t d)))
    (hno : (∀ a d, v ≠ .pair a d) → ∀ f s, against R whole all f s = (.noMatch, s)) :
    Decided R whole all := by
  by_cases hv : ∃ a d, v = .pair a d ∧ isTruePair (.pair a d) = true
  · obtain ⟨a, d, rfl, ht⟩ := hv
    refine (hp a).both (hq d) (fun bs => ?_) fun f s => ?_
    · rw [hi]
      constructor
      · rintro ⟨a', d', bs', cs, heq, -, ha, hd, rfl⟩
        cases heq
        exact ⟨bs', cs, ha, hd, rfl⟩
      · rintro ⟨bs', cs, ha, hd, rfl⟩
        exact ⟨a, d, bs', cs, rfl, ht, ha, hd, rfl⟩
    · rw [hr f s a d rfl, if_neg (by simp [istrue_pair, ht])]
  · intro f s
    refine .inr ⟨fun bs h => ?_, ?_⟩
    · obtain ⟨a, d, -, -, heq, ht, -⟩ := (hi bs).mp h
      exact hv ⟨a, d, heq, ht⟩
    · by_cases hpair : ∃ a d, v = .pair a d
      · obtain ⟨a, d, heq⟩ := hpair
        have ht : ¬ isTruePair (.pair a d) = true := fun ht => hv ⟨a, d, heq, ht⟩
        rw [hr f s a d heq, if_pos (by simpa [istrue_pair] using ht)]
      · exact hno (fun a d heq => hpair ⟨a, d, heq⟩) f s

theorem alcMatchListPats_next {p ps a d : Exp} (h : p ≠ .null) (f : Frame Exp) (s : σ) :
    alcMatchListPats R (.pair p ps) (.pair a d) f s =
      if !istrue (.pair a d) then (.noMatch, s)
      else andThen (alcMatchPat R p a f s) (alcMatchListPats R ps d) := by
  rw [alcMatchListPats.eq_def]
  simp only [show p.isNull = false by cases p <;> simp_all [Exp.isNull], Bool.false_eq_true, if_false]
  rfl

theorem alcMatchListPats_ended {ps : Exp} (h : isNil ps = true) (v : Exp) (f : Frame Exp) (s : σ) :
    alcMatchListPats R ps v f s = (answer (!istrue v) f, s) := by
  cases ps with
  | pair p ps =>
    obtain ⟨hp, -⟩ : p.isNull = true ∧ ps.isNull = true := by simpa [isNil] using h
    rw [alcMatchListPats.eq_def]
    simp only [hp, if_true]
  | _ => rfl

theorem alcMatchCells_cell {p ps v : Exp} {vs : List Exp} (h : p ≠ .null) (f : Frame Exp) (s : σ) :
    alcMatchCells R (.pair p ps) (v :: vs) f s =
      andThen (alcMatchPat R p v f s) (alcMatchCells R ps vs) := by
  rw [alcMatchCells.eq_def]
  simp only [show p.isNull = false by cases p <;> simp_all [Exp.isNull], Bool.false_eq_true, if_false]
  rfl

theorem alcMatchCells_ended {ps : Exp} (h : isNil ps = true) (vs : List Exp) (f : Frame Exp) (s : σ) :
    alcMatchCells R ps vs f s = (answer vs.isEmpty f, s) := by
  cases ps with
  | pair p ps =>
    obtain ⟨hp, -⟩ : p.isNull = true ∧ ps.isNull = true := by simpa [isNil] using h
    rw [alcMatchCells.eq_def]
    simp only [hp, if_true]
  | _ => rfl

theorem Decided.literal {p v : Exp} (h : isLiteral p = true) : Decided R p (.value v) := by
  intro f s
  rw [against, alcMatchPat_literal h]
  cases hl : lax.literal p v with
  | none => exact .inr ⟨fun bs hbs => by simp [(instance_literal h).mp hbs] at hl, rfl⟩
  | some bs => exact .inl ⟨bs, .literal h hl, rfl⟩

theorem Decided.var {text : CStr} {v : Exp} (h : isVariable text = true) :
    Decided R (.symbol text) (.value v) := by
  intro f s
  refine .inl ⟨[(text, orNil v)], .var h, ?_⟩
  simp only [isVariable, Bool.and_eq_true, decide_eq_true_eq] at h
  rw [against, alcMatchPat_atom (fun _ _ => by simp), matchAtom.eq_def,
    if_neg (by simpa [named_symbol] using h.1.1), if_neg (by simpa [istrue] using h.1.2)]
  cases v <;> rfl

theorem Decided.quote {head q v : Exp} (h : named "quote" head = true) (hq : q ≠ .null) :
    Decided R (.pair head (.pair q .null)) (.value v) := by
  obtain rfl := named_eq h
  have hnull : q.isNull = false := by cases q <;> simp_all [Exp.isNull]
  refine .test ((symText q).isSome && symText q = symText v) (fun bs => ?_) fun f s => ?_
  · rw [instance_quote h, Bool.and_eq_true, decide_eq_true_eq]
  · rw [against, alcMatchPat_quote, matchQuote, if_neg (by simp [hnull])]

theorem Decided.list {head ps v : Exp} (h : named "list" head = true) (hps : Decided R ps (.rest v)) :
    Decided R (.pair head ps) (.value v) := by
  obtain rfl := named_eq h
  intro f s
  simp only [instance_list h]
  rw [against, alcMatchPat_list]
  exact hps f s

theorem Decided.vec {head ps v : Exp} (h : named "vec" head = true)
    (hps : ∀ vs, Decided R ps (.cells vs)) : Decided R (.pair head ps) (.value v) := by
  obtain rfl := named_eq h
  intro f s
  simp only [instance_vec h]
  rw [against, alcMatchPat_vec]
  cases hv : vecCells v with
  | none => exact .inr ⟨fun bs ⟨vs, hvs, _⟩ => by simp at hvs, rfl⟩
  | some vs => simpa [against] using hps vs f s

/-- **The code decides whether a target is a lax instance.** The induction is on the pattern. -/
theorem decides (p : Exp) (t : Target) (hp : Part p t) : Decided R p t := by
  induction hn : sizeOf p using Nat.strong_induction_on generalizing p t with
  | _ n ih =>
  subst hn
  have ih : ∀ q u, sizeOf q < sizeOf p → Part q u → Decided R q u := fun q u hlt hq =>
    ih _ hlt q u hq rfl
  cases t with
  | value v =>
    cases hp with
    | wild h =>
      subst h
      exact .test true (fun bs => instance_wild) fun f s => rfl
    | literal h => exact .literal h
    | var h => exact .var h
    | quote h hq => exact .quote h hq
    | @cons head a d h ha hd =>
      obtain rfl := named_eq h
      refine .guarded (.value v) (fun x => ih a (.value x) (by simp; omega) ha)
        (fun x => ih d (.value (orNil x)) (by simp; omega) hd) (fun bs => instance_cons h)
        (fun f s x y heq => ?_) fun hno f s => ?_
      · subst heq
        rw [against, alcMatchPat_cons]
        rfl
      · rw [against, alcMatchPat_cons]
        cases v <;> first | rfl | exact absurd rfl (hno _ _)
    | @list head ps h hps => exact .list h (ih ps (.rest v) (by simp) hps)
    | @vec head ps h hps => exact .vec h fun vs => ih ps (.cells vs) (by simp) hps
  | rest v =>
    cases hp with
    | nil h => exact .test _ (fun bs => instance_ended h) fun f s => alcMatchListPats_ended h v f s
    | @cons q ps h hq hps =>
      refine .guarded (.rest v) (fun x => ih q (.value x) (by simp; omega) hq)
        (fun x => ih ps (.rest x) (by simp) hps) (fun bs => instance_next h)
        (fun f s x y heq => ?_) fun hno f s => ?_
      · subst heq
        exact alcMatchListPats_next h f s
      · rw [against, alcMatchListPats.eq_def]
        cases v <;> first | (cases q <;> first | rfl | exact absurd rfl h) | exact absurd rfl (hno _ _)
  | cells vs =>
    cases hp with
    | nil h =>
      refine .test vs.isEmpty (fun bs => ?_) fun f s => alcMatchCells_ended h vs f s
      rw [instance_empty h, List.isEmpty_iff]
    | @cons q ps h hq hps =>
      cases vs with
      | nil =>
        intro f s
        refine .inr ⟨fun bs hi => ?_, ?_⟩
        · obtain ⟨_, _, _, _, heq, -⟩ := (instance_cell h).mp hi
          cases heq
        · cases q <;> first | rfl | exact absurd rfl h
      | cons v vs =>
        refine (ih q (.value v) (by simp; omega) hq).both (ih ps (.cells vs) (by simp) hps)
          (fun bs => ?_) fun f s => alcMatchCells_cell h f s
        rw [instance_cell h]
        constructor
        · rintro ⟨v', vs', bs', cs, heq, hv, hvs, rfl⟩
          cases heq
          exact ⟨bs', cs, hv, hvs, rfl⟩
        · rintro ⟨bs', cs, hv, hvs, rfl⟩
          exact ⟨v, vs, bs', cs, rfl, hv, hvs, rfl⟩

/-! ## Exact instances -/

/-- Not the name of `t`. -/
def notT (b : Bound) : Bool := b.1 ≠ word "t"

/-- **An exact instance is a lax one, which also binds each `t` that was read.** -/
theorem Instance.lax {p : Exp} {t : Target} {bs : List Bound} (h : Instance exact p t bs) :
    ∃ bs', Instance lax p t bs' ∧ bs'.filter notT = bs := by
  induction h with
  | wild h => exact ⟨[], .wild h, rfl⟩
  | @literal p v bs hp h =>
    obtain ⟨heq, hbs⟩ := Option.ite_none_right_eq_some.mp h
    obtain rfl := Option.some.inj hbs
    by_cases ht : named "t" p = true
    · obtain rfl := named_eq ht
      exact ⟨_, .literal hp (lax_symbol_t v), by simp [notT]⟩
    · exact ⟨[], .literal hp (by rw [lax_literal, if_neg ht, heq]; rfl), rfl⟩
  | @var text v h =>
    refine ⟨_, .var h, ?_⟩
    simp only [isVariable, Bool.and_eq_true, decide_eq_true_eq] at h
    simp [notT, h.2]
  | quote h hq hv => exact ⟨[], .quote h hq hv, rfl⟩
  | cons h ht _ _ iha ihd =>
    obtain ⟨bs, ha, rfl⟩ := iha
    obtain ⟨cs, hd, rfl⟩ := ihd
    exact ⟨bs ++ cs, .cons h ht ha hd, List.filter_append ..⟩
  | list h _ ih =>
    obtain ⟨bs, hps, rfl⟩ := ih
    exact ⟨bs, .list h hps, rfl⟩
  | vec h hv _ ih =>
    obtain ⟨bs, hps, rfl⟩ := ih
    exact ⟨bs, .vec h hv hps, rfl⟩
  | @ended ps v h hv =>
    have hend : Match.lax.ended v = true := by
      have := istrue_of_isNil hv
      simpa [Match.lax] using this
    exact ⟨[], .ended h hend, rfl⟩
  | next hp ht _ _ iha ihd =>
    obtain ⟨bs, ha, rfl⟩ := iha
    obtain ⟨cs, hd, rfl⟩ := ihd
    exact ⟨bs ++ cs, .next hp ht ha hd, List.filter_append ..⟩
  | empty h => exact ⟨[], .empty h, rfl⟩
  | cell hp _ _ ihv ihvs =>
    obtain ⟨bs, hv, rfl⟩ := ihv
    obtain ⟨cs, hvs, rfl⟩ := ihvs
    exact ⟨bs ++ cs, .cell hp hv hvs, List.filter_append ..⟩

end Alcove.Match
