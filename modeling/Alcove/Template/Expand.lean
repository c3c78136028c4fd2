import Alcove.Params.Lists

/-!
# Quasiquote templates

`qq_expand` turns a template into a form, and `quasiquotecmd` evaluates the form: an atom becomes
`(quote atom)`, an unquote its operand, a list whose first element is a splice `(append operand rest)`,
and any other list `(cons first rest)`. `evaluate` is the evaluator on the forms that the expansion is
made of, where `quote`, `cons` and `append` name the builtins; everything else goes to `rest`.

* `qqExpand`, `evaluate`: the code.
* `fill`: the template with its unquotes and splices at nesting level 0 replaced.
* `clean`: the templates, for the values that their unquotes and splices have, that the code fills.
-/

namespace Alcove.Template

open Params

/-! ## Symbols and tests -/

/-- The text of a symbol that the source spells out. -/
def word (s : String) : CStr := .ofBytes (s.toList.map fun c => UInt8.ofNat c.toNat)

/-- `make_symbol` -/
def sym (s : String) : Exp := .symbol (word s)

/-- `issymbol(e) && !strcmp(exp_text(e), s)` -/
def named (s : String) (e : Exp) : Bool := symbolText e = some (word s)

/-- `is_ptr(e) && e->type == EXP_ERROR` -/
def isError : Exp → Bool
  | .foreign .error => true
  | _ => false

/-- `istrue`; `+0` and `-0` are the floats that are 0. -/
def istrue : Exp → Bool
  | .null | .nil | .char _ | .type _ | .rational .. | .decimal .. => false
  | .t | .lambda .. | .expander .. => true
  | .fix n => n.1 ≠ 0
  | .float bits => bits ≠ 0 ∧ bits ≠ 0x8000000000000000
  | .string text => text.bytes ≠ []
  | .symbol text => text ≠ word "nil"
  | .blob bytes => bytes ≠ []
  | .pair content next => !(content.isNull && next.isNull)
  | .vector cells => !cells.isEmpty
  | .vectorI64 cells => cells ≠ []
  | .vectorF64 cells => cells ≠ []
  | .dict d | .set d => 0 < d.used
  | .deque vals => !vals.isEmpty
  | .hamt entries => !entries.isEmpty
  | .foreign type =>
    match type with
    | .internal | .internalExpander | .ffi | .continuation | .port => true
    | _ => false

/-- `NOT_A_LIST` -/
def notAList : Exp → Bool
  | .null | .nil | .pair .. => false
  | _ => true

/-- `(s x)` -/
def form1 (s : String) (x : Exp) : Exp := .pair (sym s) (.pair x .null)

/-- `qq_make_list2` -/
def qqMakeList2 (s : String) (a b : Exp) : Exp := .pair (sym s) (.pair a (.pair b .null))

/-! ## The expansion -/

/-- A list whose head is `unquote-splicing`. -/
def isSplice (e : Exp) : Bool :=
  match e with
  | .pair head next => isTruePair (.pair head next) && named "unquote-splicing" head
  | _ => false

/-- `qq_expand` -/
def qqExpand : Exp → ℕ → Exp
  | .pair car cdr, depth =>
    if !isTruePair (.pair car cdr) then form1 "quote" (.pair car cdr)
    else if named "unquote" car then
      if depth = 0 then cadr (.pair car cdr)
      else form1 "quote" (form1 "unquote" (match cdr with
        | .pair x _ => qqExpand x (depth - 1)
        | _ => form1 "quote" .null))
    else if named "quasiquote" car then
      form1 "quote" (form1 "quasiquote" (match cdr with
        | .pair x _ => qqExpand x (depth + 1)
        | _ => form1 "quote" .null))
    else if isSplice car then
      qqMakeList2 "append" (cadr car) (if istrue cdr then qqExpand cdr depth else .nil)
    else
      qqMakeList2 "cons" (qqExpand car depth)
        (if istrue cdr then qqExpand cdr depth else form1 "quote" .nil)
  | tmpl, _ => form1 "quote" tmpl
termination_by structural tmpl => tmpl

theorem qqExpand_pair (car cdr : Exp) (d : ℕ) :
    qqExpand (.pair car cdr) d =
      if !isTruePair (.pair car cdr) then form1 "quote" (.pair car cdr)
      else if named "unquote" car then
        if d = 0 then cadr (.pair car cdr)
        else form1 "quote" (form1 "unquote" (qqExpand (cadr (.pair car cdr)) (d - 1)))
      else if named "quasiquote" car then
        form1 "quote" (form1 "quasiquote" (qqExpand (cadr (.pair car cdr)) (d + 1)))
      else if isSplice car then
        qqMakeList2 "append" (cadr car) (if istrue cdr then qqExpand cdr d else .nil)
      else
        qqMakeList2 "cons" (qqExpand car d)
          (if istrue cdr then qqExpand cdr d else form1 "quote" .nil) := by
  have hnull : ∀ k, qqExpand .null k = form1 "quote" .null := fun _ => rfl
  rw [qqExpand.eq_def]
  cases cdr <;> simp only [hnull, cadr]

/-! ## The evaluator -/

/-- `conscmd`, past its arguments: a literal nil ends the list. -/
def conscmd (a b : Exp) : Exp := .pair a (if b matches .nil then .null else b)

variable {σ : Type} (rest : Exp → σ → Exp × σ)

/-- `evaluate`, for the forms of `quote`, `cons` and `append`. -/
def evaluate : Exp → σ → Exp × σ
  | .null, s => (.null, s)
  | .nil, s => (.nil, s)
  | .pair head (.pair x .null), s =>
    if named "quote" head then (x, s) else rest (.pair head (.pair x .null)) s
  | .pair head (.pair x (.pair y .null)), s =>
    if named "cons" head then
      let (a, s) := evaluate x s
      if isError a then (a, s)
      else
        let (b, s) := evaluate y s
        if isError b then (b, s) else (conscmd a b, s)
    else if named "append" head then
      let (a, s) := evaluate x s
      if isError a then (a, s)
      else if notAList a then (.foreign .error, s)
      else
        let (b, s) := evaluate y s
        if isError b then (b, s)
        else if notAList b then (.foreign .error, s)
        else (.ofList (a.elems ++ b.elems), s)
    else rest (.pair head (.pair x (.pair y .null))) s
  | e, s => rest e s
termination_by structural e => e

theorem evaluate_one {head x : Exp} {s : σ} (h : named "quote" head = true) :
    evaluate rest (.pair head (.pair x .null)) s = (x, s) :=
  if_pos h

theorem evaluate_two (head x y : Exp) (s : σ) :
    evaluate rest (.pair head (.pair x (.pair y .null))) s =
      if named "cons" head then
        if isError (evaluate rest x s).1 then evaluate rest x s
        else if isError (evaluate rest y (evaluate rest x s).2).1 then
          evaluate rest y (evaluate rest x s).2
        else (conscmd (evaluate rest x s).1 (evaluate rest y (evaluate rest x s).2).1,
          (evaluate rest y (evaluate rest x s).2).2)
      else if named "append" head then
        if isError (evaluate rest x s).1 then evaluate rest x s
        else if notAList (evaluate rest x s).1 then (.foreign .error, (evaluate rest x s).2)
        else if isError (evaluate rest y (evaluate rest x s).2).1 then
          evaluate rest y (evaluate rest x s).2
        else if notAList (evaluate rest y (evaluate rest x s).2).1 then
          (.foreign .error, (evaluate rest y (evaluate rest x s).2).2)
        else (.ofList ((evaluate rest x s).1.elems ++ (evaluate rest y (evaluate rest x s).2).1.elems),
          (evaluate rest y (evaluate rest x s).2).2)
      else rest (.pair head (.pair x (.pair y .null))) s := by
  rw [evaluate]

/-! ## The filled template -/

/-- The elements of a list, when a nil ends it. -/
def items : Exp → Option (List Exp)
  | .null | .nil => some []
  | .pair content next => (items next).map (content :: ·)
  | _ => none

/-- The elements of a splice before the rest: one list when the rest is one. -/
def spliced (xs : List Exp) (r : Exp) : Exp :=
  match items r with
  | some ys => .ofList (xs ++ ys)
  | none => r.cells xs

/-- The template where each unquote at nesting level 0 is replaced by the value of its operand and each
splice by the elements of the list that is the value of its operand, from the left to the right; `none` if
one of them has no such value. A `quasiquote` is one level further in and an `unquote` or a splice one
level further out. -/
def fill : Exp → ℕ → σ → Option (Exp × σ)
  | .pair car cdr, depth, s =>
    if !isTruePair (.pair car cdr) then some (.pair car cdr, s)
    else if named "unquote" car then
      match depth with
      | 0 =>
        let (v, s) := evaluate rest (cadr (.pair car cdr)) s
        if isError v then none else some (v, s)
      | depth + 1 => (fill cdr depth s).map fun r : Exp × σ => (conscmd car r.1, r.2)
    else if named "quasiquote" car then
      (fill cdr (depth + 1) s).map fun r : Exp × σ => (conscmd car r.1, r.2)
    else if isSplice car then
      match depth with
      | 0 =>
        let (v, s) := evaluate rest (cadr car) s
        (items v).bind fun xs => (fill cdr 0 s).map fun r : Exp × σ => (spliced xs r.1, r.2)
      | depth + 1 =>
        (match car with
          | .pair head args => (fill args depth s).map fun r : Exp × σ => (conscmd head r.1, r.2)
          | e => some (e, s)).bind fun a : Exp × σ =>
            (fill cdr (depth + 1) a.2).map fun r : Exp × σ => (conscmd a.1 r.1, r.2)
    else
      (fill car depth s).bind fun a : Exp × σ =>
        (fill cdr depth a.2).map fun r : Exp × σ => (conscmd a.1 r.1, r.2)
  | tmpl, _, s => some (tmpl, s)
termination_by structural tmpl => tmpl

theorem fill_pair (car cdr : Exp) (d : ℕ) (s : σ) :
    fill rest (.pair car cdr) d s =
      if !isTruePair (.pair car cdr) then some (.pair car cdr, s)
      else if named "unquote" car then
        match d with
        | 0 =>
          if isError (evaluate rest (cadr (.pair car cdr)) s).1 then none
          else some (evaluate rest (cadr (.pair car cdr)) s)
        | d + 1 => (fill rest cdr d s).map fun r : Exp × σ => (conscmd car r.1, r.2)
      else if named "quasiquote" car then
        (fill rest cdr (d + 1) s).map fun r : Exp × σ => (conscmd car r.1, r.2)
      else if isSplice car then
        match d with
        | 0 =>
          (items (evaluate rest (cadr car) s).1).bind fun xs =>
            (fill rest cdr 0 (evaluate rest (cadr car) s).2).map fun r : Exp × σ =>
              (spliced xs r.1, r.2)
        | d + 1 =>
          (match car with
            | .pair head args => (fill rest args d s).map fun r : Exp × σ => (conscmd head r.1, r.2)
            | e => some (e, s)).bind fun a : Exp × σ =>
              (fill rest cdr (d + 1) a.2).map fun r : Exp × σ => (conscmd a.1 r.1, r.2)
      else
        (fill rest car d s).bind fun a : Exp × σ =>
          (fill rest cdr d a.2).map fun r : Exp × σ => (conscmd a.1 r.1, r.2) := by
  rw [fill.eq_def]

/-- A template with neither an unquote nor a splice at nesting level 0, as the reader makes it: it ends
lists with `NULL`. -/
def unmarked : Exp → ℕ → Bool
  | .pair car cdr, depth =>
    !(cdr matches .nil) &&
      if !isTruePair (.pair car cdr) then true
      else if named "unquote" car then
        match depth with
        | 0 => false
        | depth + 1 => unmarked cdr depth
      else if named "quasiquote" car then unmarked cdr (depth + 1)
      else if isSplice car then
        match depth with
        | 0 => false
        | depth + 1 =>
          (match car with
            | .pair _ args => !(args matches .nil) && unmarked args depth
            | _ => true) && unmarked cdr (depth + 1)
      else unmarked car depth && unmarked cdr depth
  | _, _ => true
termination_by structural tmpl => tmpl

theorem unmarked_pair (car cdr : Exp) (d : ℕ) :
    unmarked (.pair car cdr) d =
      (!(cdr matches .nil) &&
        if !isTruePair (.pair car cdr) then true
        else if named "unquote" car then
          match d with
          | 0 => false
          | d + 1 => unmarked cdr d
        else if named "quasiquote" car then unmarked cdr (d + 1)
        else if isSplice car then
          match d with
          | 0 => false
          | d + 1 =>
            (match car with
              | .pair _ args => !(args matches .nil) && unmarked args d
              | _ => true) && unmarked cdr (d + 1)
        else unmarked car d && unmarked cdr d) := by
  rw [unmarked.eq_def]

/-! ## Clean templates -/

/-- A list that a nil ends and that has no `NULL` among its elements. -/
def listed : Exp → Bool
  | .null | .nil => true
  | .pair content next => !content.isNull && listed next
  | _ => false

/-- The end of a template list: a nil, and no other value that is not true. -/
def ended : Exp → Bool
  | .null | .nil => true
  | _ => false

/-- The templates that `qq_expand` serves, by the values that the splices have: none has a quasiquote
inside, an error as an element, or a tail that is not true and not nil; every splice is of a list without
`NULL` elements and so is what follows it. -/
def clean : Exp → σ → Bool
  | .pair car cdr, s =>
    if !isTruePair (.pair car cdr) then true
    else if named "unquote" car then true
    else if named "quasiquote" car then false
    else if isSplice car then
      let (v, s) := evaluate rest (cadr car) s
      listed v && if istrue cdr then clean cdr s && (fill rest cdr 0 s).any fun r => listed r.1 else ended cdr
    else
      clean car s && !isError car &&
        if istrue cdr then (fill rest car 0 s).all fun a => clean cdr a.2 else ended cdr
  | _, _ => true
termination_by structural tmpl => tmpl

theorem clean_pair (car cdr : Exp) (s : σ) :
    clean rest (.pair car cdr) s =
      if !isTruePair (.pair car cdr) then true
      else if named "unquote" car then true
      else if named "quasiquote" car then false
      else if isSplice car then
        listed (evaluate rest (cadr car) s).1 &&
          if istrue cdr then clean rest cdr (evaluate rest (cadr car) s).2 &&
            (fill rest cdr 0 (evaluate rest (cadr car) s).2).any fun r => listed r.1
          else ended cdr
      else
        clean rest car s && !isError car &&
          if istrue cdr then (fill rest car 0 s).all fun a => clean rest cdr a.2 else ended cdr := by
  rw [clean.eq_def]

end Alcove.Template
