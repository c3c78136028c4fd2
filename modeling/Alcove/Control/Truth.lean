import Alcove.Sequence.Seen
import Alcove.Template.Expand

/-!
# Truth

The constructs that test a value: the forms of the interpreter, the branches and the negation of compiled
code, and the functions that keep or drop elements by what a predicate returns. Some ask `istrue`, the others
whether the value is the nil object or NULL.

`Classifies` says what it is for a construct to take a value for true or for false, in terms of what the
construct does; `classifies_iff` finds the test that it makes, and `truth_iff` the values that all
constructs take alike.
-/

namespace Alcove.Truth

open Sequence Template

variable {σ β : Type}

/-! ## The forms -/

/-- The rest of the loop of `ifcmd`: pairs of a test and a form, and a last form. -/
def ifRest : List (Comp σ Exp) → Comp σ Exp
  | [] => pure .nil
  | [f] => f
  | test :: f :: rest => do
    let v ← test
    if istrue v then f else ifRest rest

/-- `ifcmd` -/
def ifcmd (test thn : Comp σ Exp) (rest : List (Comp σ Exp)) : Comp σ Exp := do
  let v ← test
  if istrue v then thn else ifRest rest

/-- The forms in order, with the value of the last. -/
def body : List (Comp σ Exp) → Comp σ Exp
  | [] => pure .nil
  | [f] => nilOfNull <$> f
  | f :: rest => do
    let _ ← f
    body rest

/-- `whencmd` -/
def whencmd (test : Comp σ Exp) (forms : List (Comp σ Exp)) : Comp σ Exp := do
  let v ← test
  if istrue v then body forms else pure .nil

/-- `unlesscmd` -/
def unlesscmd (test : Comp σ Exp) (forms : List (Comp σ Exp)) : Comp σ Exp := do
  let v ← test
  if !istrue v then body forms else pure .nil

/-- The loop of `andcmd`, with the value of the form before. -/
def andLoop : Exp → List (Comp σ Exp) → Comp σ Exp
  | ret, [] => pure ret
  | _, f :: rest => do
    let v ← f
    if !istrue v then pure v else andLoop v rest

/-- `andcmd` -/
def andcmd (forms : List (Comp σ Exp)) : Comp σ Exp := andLoop .t forms

/-- The loop of `orcmd`, with the value of the form before. -/
def orLoop : Exp → List (Comp σ Exp) → Comp σ Exp
  | ret, [] => pure ret
  | _, f :: rest => do
    let v ← f
    if istrue v then pure v else orLoop v rest

/-- `orcmd` -/
def orcmd (forms : List (Comp σ Exp)) : Comp σ Exp := orLoop .nil forms

/-- `condcmd` -/
def condcmd : List (Comp σ Exp) → Comp σ Exp
  | [] => pure .nil
  | [f] => nilOfNull <$> f
  | test :: f :: rest => do
    let v ← test
    if istrue v then nilOfNull <$> f else condcmd rest

/-- `whilecmd`, for at most so many rounds; `none` where they are used up. -/
def whilecmd (test : Comp σ Exp) (forms : List (Comp σ Exp)) : ℕ → Comp σ (Option Exp)
  | 0 => pure none
  | n + 1 => do
    let v ← test
    if istrue v then do
      let _ ← body forms
      whilecmd test forms n
    else pure (some .nil)

/-- `nocmd` -/
def nocmd (form : Comp σ Exp) : Comp σ Exp := do
  let v ← form
  if istrue v then pure .nil else pure .t

/-! ## Compiled code -/

/-- `l_br_if_false`: where the run goes on. -/
def brIfFalse (off : ℤ) (v : Exp) (pc : ℤ) : ℤ := if !istrue v then pc + off else pc

/-- `l_br_if_true` -/
def brIfTrue (off : ℤ) (v : Exp) (pc : ℤ) : ℤ := if istrue v then pc + off else pc

/-- `l_not` -/
def opNot (v : Exp) : Exp := if !istrue v then .t else .nil

/-! ## Functions with a predicate -/

/-- The loop of `anypcmd` -/
def anyLoop (pred : Exp → Comp σ Exp) : Exp → Comp σ Exp
  | .pair content next =>
    if content.isNull then pure .nil
    else do
      let res ← pred content
      if truthy res then pure .t else anyLoop pred next
  | _ => pure .nil

/-- `(any? pred xs)` -/
def anypcmd (pred : Exp → Comp σ Exp) (xs : Exp) : Comp σ Exp :=
  if Sequence.notAList xs then throw (.illegalValue "any?: second argument is not a list") else anyLoop pred xs

/-- The loop of `allpcmd` -/
def allLoop (pred : Exp → Comp σ Exp) : Exp → Comp σ Exp
  | .pair content next =>
    if content.isNull then pure .t
    else do
      let res ← pred content
      if !truthy res then pure .nil else allLoop pred next
  | _ => pure .t

/-- `(all? pred xs)` -/
def allpcmd (pred : Exp → Comp σ Exp) (xs : Exp) : Comp σ Exp :=
  if Sequence.notAList xs then throw (.illegalValue "all?: second argument is not a list") else allLoop pred xs

/-- The loop of `takewhilecmd` -/
def takeLoop (pred : Exp → Comp σ Exp) : List Exp → Exp → Comp σ (List Exp)
  | taken, .pair content next =>
    if content.isNull then pure taken
    else do
      let res ← pred content
      if !istrue res then pure taken else takeLoop pred (taken ++ [content]) next
  | taken, _ => pure taken

/-- `(take-while pred xs)` -/
def takewhilecmd (pred : Exp → Comp σ Exp) (xs : Exp) : Comp σ Exp := Exp.ofList <$> takeLoop pred [] xs

/-- The loop of `dropwhilecmd`: the list from the first element that is kept. -/
def dropLoop (pred : Exp → Comp σ Exp) : Exp → Comp σ Exp
  | .pair content next =>
    if content.isNull then pure (.pair content next)
    else do
      let res ← pred content
      if !istrue res then pure (.pair content next) else dropLoop pred next
  | xs => pure xs

/-- `(drop-while pred xs)` -/
def dropwhilecmd (pred : Exp → Comp σ Exp) (xs : Exp) : Comp σ Exp := do
  let curr ← dropLoop pred xs
  pure (Exp.ofList curr.elems)

/-- The loop of `compr_run`, over the contents of the cells; `add` evaluates the element and adds it. -/
def comprLoop (pred : Exp → Comp σ Exp) (add : β → Exp → Comp σ β) : β → List Exp → Comp σ β
  | acc, [] => pure acc
  | acc, x :: xs => do
    let p ← pred x
    if !truthy p then comprLoop pred add acc xs
    else do
      let acc ← add acc x
      comprLoop pred add acc xs

/-- The loop of `lfor` with a predicate -/
def lforLoop (pred x1 : Exp → Comp σ Exp) : List Exp → List Exp → Comp σ (List Exp) :=
  comprLoop pred fun acc x => do
    let v ← x1 x
    pure (acc ++ [nilOfNull v])

/-- `lfor` with a predicate -/
def lfor (pred x1 : Exp → Comp σ Exp) (coll : List Exp) : Comp σ Exp := Exp.ofList <$> lforLoop pred x1 [] coll

/-- `sfor` with a predicate; `insert` is `set_insert_value`. -/
def sfor (insert : β → Exp → Comp σ β) (empty : β) (pred x1 : Exp → Comp σ Exp) (coll : List Exp) : Comp σ β :=
  comprLoop pred (fun acc x => do
    let v ← x1 x
    insert acc (nilOfNull v)) empty coll

/-- `dfor` with a predicate; `put` adds a key and its value. -/
def dfor (put : β → Exp → Exp → Comp σ β) (empty : β) (pred x1 x2 : Exp → Comp σ Exp) (coll : List Exp) :
    Comp σ β :=
  comprLoop pred (fun acc x => do
    let k ← x1 x
    let v ← x2 x
    put acc (nilOfNull k) (nilOfNull v)) empty coll

/-- A step of `gen-filter` around a generator of the values in a list: the next value that passes, and what
the generator has left. -/
def genFilter (pred : Exp → Comp σ Exp) : List Exp → Comp σ (Option (Exp × List Exp))
  | [] => pure none
  | v :: rest => do
    let ok ← pred v
    if istrue ok then pure (some (v, rest)) else genFilter pred rest

/-- What `watch_validate` makes of the verdict. -/
def watchValidate (op : String) (verdict : Comp σ Exp) : Comp σ Unit := do
  let r ← verdict
  if truthy r then pure () else throw (.illegalValue (op ++ ": rejected by validator"))

/-! ## What the constructs take for true -/

inductive Construct
  | ifForm | ifClause | whenForm | unlessForm | andForm | orForm | condForm | whileLoop | no
  | brIfFalse | brIfTrue | opNot
  | filter | any | all | takeWhile | dropWhile | lfor | sfor | dfor | genFilter | validator
  deriving DecidableEq

/-- The construct does with the value what it does for true, or for false. -/
def Classifies (v : Exp) (b : Bool) : Construct → Prop
  | .ifForm => ∀ (σ : Type) (thn : Comp σ Exp) (rest : List (Comp σ Exp)),
      ifcmd (pure v) thn rest = if b then thn else ifRest rest
  | .ifClause => ∀ (σ : Type) (f : Comp σ Exp) (rest : List (Comp σ Exp)),
      ifRest (pure v :: f :: rest) = if b then f else ifRest rest
  | .whenForm => ∀ (σ : Type) (forms : List (Comp σ Exp)),
      whencmd (pure v) forms = if b then body forms else pure .nil
  | .unlessForm => ∀ (σ : Type) (forms : List (Comp σ Exp)),
      unlesscmd (pure v) forms = if b then pure .nil else body forms
  | .andForm => ∀ (σ : Type) (rest : List (Comp σ Exp)),
      andcmd (pure v :: rest) = if b then andLoop v rest else pure v
  | .orForm => ∀ (σ : Type) (rest : List (Comp σ Exp)),
      orcmd (pure v :: rest) = if b then pure v else orLoop v rest
  | .condForm => ∀ (σ : Type) (f : Comp σ Exp) (rest : List (Comp σ Exp)),
      condcmd (pure v :: f :: rest) = if b then nilOfNull <$> f else condcmd rest
  | .whileLoop => ∀ (σ : Type) (forms : List (Comp σ Exp)) (n : ℕ),
      whilecmd (pure v) forms (n + 1) =
        if b then body forms >>= fun _ => whilecmd (pure v) forms n else pure (some .nil)
  | .no => ∀ σ : Type, nocmd (pure v : Comp σ Exp) = pure (if b then .nil else .t)
  | .brIfFalse => ∀ off pc : ℤ, brIfFalse off v pc = if b then pc else pc + off
  | .brIfTrue => ∀ off pc : ℤ, brIfTrue off v pc = if b then pc + off else pc
  | .opNot => opNot v = if b then .nil else .t
  | .filter => ∀ (σ : Type) (pred : Exp → Comp σ Exp) (kept : List Exp) (x : Exp), pred x = pure v →
      filterStep pred kept x = pure (if b then kept ++ [x] else kept)
  | .any => ∀ (σ : Type) (pred : Exp → Comp σ Exp) (x next : Exp), x.isNull = false → pred x = pure v →
      anypcmd pred (.pair x next) = if b then pure .t else anyLoop pred next
  | .all => ∀ (σ : Type) (pred : Exp → Comp σ Exp) (x next : Exp), x.isNull = false → pred x = pure v →
      allpcmd pred (.pair x next) = if b then allLoop pred next else pure .nil
  | .takeWhile => ∀ (σ : Type) (pred : Exp → Comp σ Exp) (taken : List Exp) (x next : Exp), x.isNull = false →
      pred x = pure v →
      takeLoop pred taken (.pair x next) = if b then takeLoop pred (taken ++ [x]) next else pure taken
  | .dropWhile => ∀ (σ : Type) (pred : Exp → Comp σ Exp) (x next : Exp), x.isNull = false → pred x = pure v →
      dropLoop pred (.pair x next) = if b then dropLoop pred next else pure (.pair x next)
  | .lfor => ∀ (σ : Type) (pred x1 : Exp → Comp σ Exp) (acc : List Exp) (x : Exp) (xs : List Exp),
      pred x = pure v → lforLoop pred x1 acc (x :: xs) =
        if b then x1 x >>= fun v => lforLoop pred x1 (acc ++ [nilOfNull v]) xs else lforLoop pred x1 acc xs
  | .sfor => ∀ (σ β : Type) (insert : β → Exp → Comp σ β) (empty : β) (pred x1 : Exp → Comp σ Exp) (x : Exp)
      (xs : List Exp), pred x = pure v → sfor insert empty pred x1 (x :: xs) =
        if b then x1 x >>= fun v => insert empty (nilOfNull v) >>= fun s => sfor insert s pred x1 xs
        else sfor insert empty pred x1 xs
  | .dfor => ∀ (σ β : Type) (put : β → Exp → Exp → Comp σ β) (empty : β) (pred x1 x2 : Exp → Comp σ Exp) (x : Exp)
      (xs : List Exp), pred x = pure v → dfor put empty pred x1 x2 (x :: xs) =
        if b then x1 x >>= fun k => x2 x >>= fun v => put empty (nilOfNull k) (nilOfNull v) >>= fun d =>
          dfor put d pred x1 x2 xs
        else dfor put empty pred x1 x2 xs
  | .genFilter => ∀ (σ : Type) (pred : Exp → Comp σ Exp) (x : Exp) (rest : List Exp), pred x = pure v →
      genFilter pred (x :: rest) = if b then pure (some (x, rest)) else genFilter pred rest
  | .validator => ∀ (σ : Type) (op : String), watchValidate op (pure v : Comp σ Exp) =
      if b then pure () else throw (.illegalValue (op ++ ": rejected by validator"))

/-- The test that the construct makes. -/
def test : Construct → Exp → Bool
  | .filter | .any | .all | .lfor | .sfor | .dfor | .validator => truthy
  | _ => istrue

/-! ## The test of each construct -/

theorem ite_inj {α : Type} {x y : α} (h : x ≠ y) {a b : Bool}
    (he : (if a = true then x else y) = if b = true then x else y) : a = b := by
  cases a <;> cases b <;> first | rfl | exact absurd he h | exact absurd he.symm h

theorem pure_ne {α : Type} {a b : α} (h : a ≠ b) : (pure a : Comp Unit α) ≠ pure b :=
  fun he => h (pure_inj () he)

theorem throw_ne {α : Type} (e : Failure) (a : α) : (throw e : Comp Unit α) ≠ pure a := by
  intro he
  have hrun : (Except.error e : Except Failure (α × Unit)) = .ok (a, ()) := congrFun he ()
  cases hrun

theorem classifies_test (v : Exp) (c : Construct) : Classifies v (test c v) c := by
  cases c with
  | ifForm => intro σ thn rest; rfl
  | ifClause => intro σ f rest; rfl
  | whenForm => intro σ forms; rfl
  | unlessForm =>
    intro σ forms
    rw [unlesscmd, pure_bind]
    cases h : istrue v <;> simp [test, h]
  | andForm =>
    intro σ rest
    rw [andcmd, andLoop, pure_bind]
    cases h : istrue v <;> simp [test, h]
  | orForm => intro σ rest; rfl
  | condForm => intro σ f rest; rfl
  | whileLoop => intro σ forms n; rfl
  | no =>
    intro σ
    rw [nocmd, pure_bind]
    cases h : istrue v <;> simp [test, h]
  | brIfFalse =>
    intro off pc
    cases h : istrue v <;> simp [test, h, brIfFalse]
  | brIfTrue => intro off pc; rfl
  | opNot => cases h : istrue v <;> simp [Classifies, test, h, opNot]
  | filter =>
    intro σ pred kept x hp
    rw [filterStep, hp, pure_bind]
    rfl
  | any =>
    intro σ pred x next hx hp
    rw [anypcmd, if_neg (by simp [Sequence.notAList]), anyLoop, if_neg (by simp [hx]), hp, pure_bind]
    rfl
  | all =>
    intro σ pred x next hx hp
    rw [allpcmd, if_neg (by simp [Sequence.notAList]), allLoop, if_neg (by simp [hx]), hp, pure_bind]
    cases h : truthy v <;> simp [test, h]
  | takeWhile =>
    intro σ pred taken x next hx hp
    rw [takeLoop, if_neg (by simp [hx]), hp, pure_bind]
    cases h : istrue v <;> simp [test, h]
  | dropWhile =>
    intro σ pred x next hx hp
    rw [dropLoop, if_neg (by simp [hx]), hp, pure_bind]
    cases h : istrue v <;> simp [test, h]
  | lfor =>
    intro σ pred x1 acc x xs hp
    rw [lforLoop, comprLoop, hp, pure_bind]
    cases h : truthy v <;> simp [test, h]
  | sfor =>
    intro σ β insert empty pred x1 x xs hp
    rw [sfor, comprLoop, hp, pure_bind]
    cases h : truthy v <;> simp [test, h, sfor]
  | dfor =>
    intro σ β put empty pred x1 x2 x xs hp
    rw [dfor, comprLoop, hp, pure_bind]
    cases h : truthy v <;> simp [test, h, dfor]
  | genFilter =>
    intro σ pred x rest hp
    rw [genFilter, hp, pure_bind]
    rfl
  | validator => intro σ op; rfl

/-- No construct takes a value for both. Each case gives the construct something that tells true from false. -/
theorem Classifies.unique {v : Exp} {c : Construct} {b b' : Bool} (h : Classifies v b c)
    (h' : Classifies v b' c) : b = b' := by
  have ht : (pure .t : Comp Unit Exp) ≠ pure .nil := pure_ne (by simp)
  let fail : Comp Unit Exp := throw (.illegalValue "")
  cases c with
  | ifForm => exact ite_inj ht ((h Unit (pure .t) []).symm.trans (h' Unit (pure .t) []))
  | ifClause => exact ite_inj ht ((h Unit (pure .t) []).symm.trans (h' Unit (pure .t) []))
  | whenForm => exact ite_inj ht ((h Unit [pure .t]).symm.trans (h' Unit [pure .t]))
  | unlessForm => exact ite_inj ht.symm ((h Unit [pure .t]).symm.trans (h' Unit [pure .t]))
  | andForm =>
    refine ite_inj ?_ ((h Unit [fail]).symm.trans (h' Unit [fail]))
    exact throw_ne _ v
  | orForm =>
    refine ite_inj (Ne.symm ?_) ((h Unit [fail]).symm.trans (h' Unit [fail]))
    exact throw_ne _ v
  | condForm => exact ite_inj ht ((h Unit (pure .t) []).symm.trans (h' Unit (pure .t) []))
  | whileLoop =>
    refine ite_inj ?_ ((h Unit [fail] 0).symm.trans (h' Unit [fail] 0))
    exact throw_ne _ (some Exp.nil)
  | no =>
    have hval := pure_inj () ((h Unit).symm.trans (h' Unit))
    exact ite_inj (by simp) hval
  | brIfFalse => exact ite_inj (by decide) ((h 1 0).symm.trans (h' 1 0))
  | brIfTrue => exact ite_inj (by decide) ((h 1 0).symm.trans (h' 1 0))
  | opNot => exact ite_inj (by simp) (h.symm.trans h')
  | filter =>
    have hval := pure_inj () ((h Unit (fun _ => pure v) [] .t rfl).symm.trans (h' Unit (fun _ => pure v) [] .t rfl))
    exact ite_inj (by simp) hval
  | any =>
    exact ite_inj ht ((h Unit (fun _ => pure v) .t .nil rfl rfl).symm.trans
      (h' Unit (fun _ => pure v) .t .nil rfl rfl))
  | all =>
    exact ite_inj ht ((h Unit (fun _ => pure v) .t .nil rfl rfl).symm.trans
      (h' Unit (fun _ => pure v) .t .nil rfl rfl))
  | takeWhile =>
    exact ite_inj (pure_ne (by simp)) ((h Unit (fun _ => pure v) [] .t .nil rfl rfl).symm.trans
      (h' Unit (fun _ => pure v) [] .t .nil rfl rfl))
  | dropWhile =>
    exact ite_inj (pure_ne (by simp)) ((h Unit (fun _ => pure v) .t .nil rfl rfl).symm.trans
      (h' Unit (fun _ => pure v) .t .nil rfl rfl))
  | lfor =>
    refine ite_inj ?_ ((h Unit (fun _ => pure v) (fun _ => fail) [] .t [] rfl).symm.trans
      (h' Unit (fun _ => pure v) (fun _ => fail) [] .t [] rfl))
    exact throw_ne _ []
  | sfor =>
    refine ite_inj ?_ ((h Unit Unit (fun _ _ => pure ()) () (fun _ => pure v) (fun _ => fail) .t [] rfl).symm.trans
      (h' Unit Unit (fun _ _ => pure ()) () (fun _ => pure v) (fun _ => fail) .t [] rfl))
    exact throw_ne _ ()
  | dfor =>
    refine ite_inj ?_ ((h Unit Unit (fun _ _ _ => pure ()) () (fun _ => pure v) (fun _ => fail) pure .t [] rfl).symm.trans
      (h' Unit Unit (fun _ _ _ => pure ()) () (fun _ => pure v) (fun _ => fail) pure .t [] rfl))
    exact throw_ne _ ()
  | genFilter =>
    exact ite_inj (pure_ne (by simp)) ((h Unit (fun _ => pure v) .t [] rfl).symm.trans
      (h' Unit (fun _ => pure v) .t [] rfl))
  | validator => exact ite_inj (throw_ne _ ()).symm ((h Unit "").symm.trans (h' Unit ""))

theorem classifies_iff {v : Exp} {c : Construct} {b : Bool} : Classifies v b c ↔ test c v = b :=
  ⟨fun h => (classifies_test v c).unique h, fun h => h ▸ classifies_test v c⟩

/-! ## Values that all constructs take alike -/

/-- Either shape of nil. -/
def isNil : Exp → Bool
  | .null => true
  | .nil => true
  | _ => false

/-- A number other than 0. -/
def nonZero : Exp → Bool
  | .fix n => n.1 ≠ 0
  | .float bits => bits ≠ 0 ∧ bits ≠ 0x8000000000000000
  | .rational num _ => num ≠ 0
  | .decimal coef _ => coef ≠ 0
  | _ => false

/-- All constructs take the value alike: nil for false, and a number other than 0 for true. -/
def Alike (v : Exp) : Prop :=
  ∃ b, (∀ c, Classifies v b c) ∧ (isNil v = true → b = false) ∧ (nonZero v = true → b = true)

/-- **Truth.** All constructs take a value alike exactly where it is nil or `istrue` takes it for true; they do
not where it is something else that `istrue` takes for false. An error is returned, and not tested. -/
theorem truth_iff (v : Exp) (hv : isError v = false) : Alike v ↔ isNil v = true ∨ istrue v = true := by
  constructor
  · rintro ⟨b, hall, -⟩
    have hsame : istrue v = truthy v :=
      (classifies_iff.mp (hall .ifForm)).trans (classifies_iff.mp (hall .filter)).symm
    rw [hsame]
    cases v <;> simp [isNil, truthy]
  · rintro (hnil | htrue)
    · refine ⟨false, fun c => classifies_iff.mpr ?_, fun _ => rfl, ?_⟩
      · cases v with
        | null => cases c <;> rfl
        | nil => cases c <;> rfl
        | _ => cases hnil
      · cases v with
        | null => exact id
        | nil => exact id
        | _ => cases hnil
    · refine ⟨true, fun c => classifies_iff.mpr ?_, ?_, fun _ => rfl⟩
      · have htruthy : truthy v = true := by
          cases v with
          | null => cases htrue
          | nil => cases htrue
          | _ => rfl
        cases c <;> first | exact htrue | exact htruthy
      · cases v with
        | null => cases htrue
        | nil => cases htrue
        | _ => exact fun h => h.symm

theorem truth_iff_one : Alike (.fix (makeFix 1)) ↔ isNil (.fix (makeFix 1)) = true ∨ istrue (.fix (makeFix 1)) = true :=
  truth_iff _ rfl

/-- The fixnum 0 is false for `if` and true for `filter`; one half is a number other than 0 and false for `if`. -/
theorem truth_differs : ¬ Alike (.fix (makeFix 0)) ∧ ¬ Alike (.rational 1 2) ∧
    Classifies (.rational 1 2) false .ifForm := by
  refine ⟨?_, ?_, classifies_iff.mpr rfl⟩
  · rintro ⟨b, hall, -⟩
    have hif := classifies_iff.mp (hall .ifForm)
    have hfilter := classifies_iff.mp (hall .filter)
    exact absurd (hif.trans hfilter.symm) (by decide)
  · rintro ⟨b, hall, -, hnum⟩
    have hif := classifies_iff.mp (hall .ifForm)
    exact absurd (hif.trans (hnum rfl)) (by decide)

end Alcove.Truth
