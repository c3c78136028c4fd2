import Alcove.Classes.Registry
import Alcove.Lib.Lineage
import Alcove.Objects.Mutators

/-!
# Field types and their checks

A field of a class has a type expression, a type name or `optional`, `list-of`, `or` of others.
`defclass` turns it into the source text of a check, of which `check` is the meaning. What the
expression is meant to admit is `Admits`. Where the text asks for nil it tests `(no v)`, which is true
of every false value: `Slips` describes the values that get through in this way.

A loop along the cells of a cyclic list does not end. A walk counts its steps to tell (`chain`).

**Main results:** `chain_eq_none` and `admits_or_slips`.
-/

namespace Alcove.Instances

open Objects

/-! ## Values -/

/-- The types of the objects that have no constructor in `Object`. -/
inductive OtherKind
  | hamt (empty : Bool)
  | lambda
  | builtin
  | expander
  | ffi
  | port
  | weak
  | continuation
  | unknown
  deriving DecidableEq

/-- The place of each object among the others tells its type. -/
abbrev Kinds : Type := ℕ → OtherKind

/-- `istrue` -/
def isTrue (kinds : Kinds) (w : World) : Ptr → Bool
  | .null => false
  | .nil => false
  | .t => true
  | .fix n => n.1 ≠ 0
  | .char _ => false
  | .type _ => false
  | .ref i =>
    match w.objAt i with
    | some (.pair content next) => content ≠ .null || next ≠ .null
    | some (.symbol text) => text.bytes ≠ Classes.lit "nil"
    | some (.string text) => text.bytes ≠ []
    | some (.float bits) => bits <<< 1 ≠ 0
    | some (.vector cells _) => 0 < cells.length
    | some (.blob bytes) => bytes ≠ []
    | some (.deque vals) => vals ≠ []
    | some (.set d) => 0 < d.used
    | some (.dict d) => 0 < d.used
    | some .other =>
      match kinds i with
      | .hamt empty => !empty
      | .lambda | .builtin | .expander | .ffi | .continuation | .port => true
      | .weak | .unknown => false
    | _ => false

/-- The next cell of a list, of a cell that has content. -/
def nextCell (w : World) (p : Ptr) : Option Ptr :=
  match w.pairOf p with
  | some (content, next) => if content = .null then none else some next
  | none => none

/-- `while (ispair(cur) && cur->content) cur = cur->next`, in at most `n` steps: the contents and where
the loop ends. -/
def walk (w : World) : ℕ → Ptr → Option (List Ptr × Ptr)
  | 0, _ => none
  | n + 1, p =>
    match nextCell w p with
    | none => some ([], p)
    | some next => (walk w n next).map fun (cs, last) => (w.car p :: cs, last)

/-- The loop along a list; none when it does not end. -/
def chain (w : World) (p : Ptr) : Option (List Ptr × Ptr) := walk w (w.objs.length + 1) p

/-- `is_proper_list` -/
def isProperList (w : World) (p : Ptr) : Option Bool :=
  (chain w p).map fun (_, last) => last = .null || last = .nil

/-! ## Types -/

/-- A type expression of a field. -/
inductive TypeExpr
  | name (n : CStr)
  | optional (te : TypeExpr)
  | listOf (te : TypeExpr)
  | or (tes : List TypeExpr)

/-- A field of a class. -/
structure Field where
  name : CStr
  type : TypeExpr

/-- `alc_user_type_t` of a class that is defined: `fields` are the inherited ones and its own, and
`validator` is the function that was generated. -/
structure ClassInfo where
  id : UInt32
  name : CStr
  parent : UInt32
  fields : List Field
  validator : Ptr
  distinct : (fields.map Field.name).Nodup

/-- `g_user_types` -/
abbrev Registry : Type := List ClassInfo

namespace Registry

variable (classes : Registry)

/-- `alc_user_type_by_id` -/
def byId (id : UInt32) : Option ClassInfo := classes.find? fun c => c.id = id

/-- `alc_user_type_by_name` -/
def byName (name : CStr) : Option ClassInfo := classes.find? fun c => c.name = name

/-- The class whose validator a function is. -/
def byValidator (fn : Ptr) : Option ClassInfo := classes.find? fun c => c.validator = fn

end Registry

/-- `enum alc_type_id`, with the names of `alc_type_from_name`. -/
def builtinTypes : List (String × UInt32) :=
  [("Any", 1), ("Nil", 2), ("Bool", 3), ("Int", 4), ("Float", 5), ("Number", 6), ("Rational", 7),
    ("Decimal", 8), ("String", 9), ("Symbol", 10), ("Keyword", 11), ("Char", 12), ("Pair", 13),
    ("List", 14), ("Vector", 15), ("Blob", 16), ("Dict", 17), ("Deque", 18), ("Set", 19), ("Hamt", 20),
    ("Fn", 21), ("Lambda", 22), ("Builtin", 23), ("Macro", 24), ("Ffi", 25), ("Error", 26), ("Port", 27),
    ("Weak", 28), ("Continuation", 29), ("Type", 30)]

/-- `alc_type_from_name`, or else `alc_user_type_id_by_name` -/
def typeOfName (classes : Registry) (n : CStr) : Option UInt32 :=
  ((builtinTypes.find? fun t => Classes.lit t.1 = n.bytes).map Prod.snd).or
    ((classes.byName n).map ClassInfo.id)

/-- The key of the type tag in an instance. -/
def typeTag : CStr := .ofBytes (Classes.lit "__type__")

/-- `TYPE_USER_MIN` -/
def typeUserMin : UInt32 := 100000

section Checks

variable (kinds : Kinds) (classes : Registry) (w : World)

/-- `dict_user_type_id`; 0 when there is none. -/
def dictUserTypeId (x : Ptr) : UInt32 :=
  match w.look x with
  | some (.dict d) =>
    match d.find typeTag with
    | some (.type id) => if (classes.byId id).isSome then id else 0
    | _ => 0
  | _ => 0

/-- The loop of `alc_user_type_conforms`, with the steps that are left. -/
def conformsLoop (target : UInt32) : ℕ → UInt32 → Bool
  | 0, _ => false
  | n + 1, cur =>
    if cur = 0 then false
    else if cur = target then true
    else
      match classes.byId cur with
      | none => false
      | some c => conformsLoop target n c.parent

/-- `alc_user_type_conforms` -/
def conforms (actual target : UInt32) : Bool :=
  actual ≠ 0 && target ≠ 0 && conformsLoop classes target 64 actual

/-- `get_actual_type_id`; none when it does not end. -/
def getActualTypeId (x : Ptr) : Option UInt32 :=
  match x with
  | .null => some 2
  | .nil => some 2
  | .t => some 3
  | .type _ => some 30
  | .fix _ => some 4
  | .char _ => some 12
  | .ref i =>
    if dictUserTypeId classes w x ≠ 0 then some (dictUserTypeId classes w x)
    else
      match w.objAt i with
      | some (.float _) => some 5
      | some (.rational ..) => some 7
      | some (.decimal ..) => some 8
      | some (.string _) => some 9
      | some (.symbol text) => some (if text.bytes.head? = some 0x3a then 11 else 10)
      | some (.pair ..) => (isProperList w x).map fun proper => if proper then 14 else 13
      | some (.vector ..) => some 15
      | some (.blob _) => some 16
      | some (.dict _) => some 17
      | some (.deque _) => some 18
      | some (.set _) => some 19
      | some (.error _) => some 26
      | some .other =>
        match kinds i with
        | .hamt _ => some 20
        | .lambda => some 22
        | .builtin => some 23
        | .expander => some 24
        | .ffi => some 25
        | .port => some 27
        | .weak => some 28
        | .continuation => some 29
        | .unknown => some 1
      | none => some 1

/-- `isdict` -/
def isDict (x : Ptr) : Bool := (w.dictOf x).isSome

/-- `is_acmd`, of a type; none when it does not end. -/
def isA (x : Ptr) (target : UInt32) : Option Bool :=
  match getActualTypeId kinds classes w x with
  | none => none
  | some actual =>
    some (target = 1 || actual = target ||
      (target = 3 && (x = .null || x = .nil || x = .t)) ||
      (target = 6 && (actual = 4 || actual = 5 || actual = 7 || actual = 8)) ||
      (target = 14 && (isProperList w x).getD false) ||
      (target = 17 && isDict w x) ||
      (typeUserMin ≤ target && conforms classes (dictUserTypeId classes w x) target) ||
      (target = 21 && (actual = 22 || actual = 23 || actual = 25)))

/-! ## What a type expression admits -/

/-- The proper lists. -/
inductive ProperList : Ptr → List Ptr → Prop
  | null : ProperList .null []
  | nil : ProperList .nil []
  | cell {p next : Ptr} {xs : List Ptr} (h : nextCell w p = some next) (rest : ProperList next xs) :
      ProperList p (w.car p :: xs)

mutual

/-- **The values that a type expression admits.** -/
def Admits : TypeExpr → Ptr → Prop
  | .name n, v => ∃ t, typeOfName classes n = some t ∧ isA kinds classes w v t = some true
  | .optional te, v => v = .null ∨ v = .nil ∨ Admits te v
  | .listOf te, v => ∃ xs, ProperList w v xs ∧ ∀ x ∈ xs, Admits te x
  | .or tes, v => AdmitsAny tes v

def AdmitsAny : List TypeExpr → Ptr → Prop
  | [], _ => False
  | te :: tes, v => Admits te v ∨ AdmitsAny tes v

end

mutual

/-- A false value that is neither nil nor admitted meets an `optional`. -/
def Slips : TypeExpr → Ptr → Prop
  | .name _, _ => False
  | .optional te, v =>
    if isTrue kinds w v then Slips te v
    else ¬Admits kinds classes w (.optional te) v
  | .listOf te, v => ∃ xs, ProperList w v xs ∧
      (∀ x ∈ xs, Admits kinds classes w te x ∨ Slips te x) ∧ ∃ x ∈ xs, ¬Admits kinds classes w te x
  | .or tes, v => SlipsAny tes v ∧ ¬AdmitsAny kinds classes w tes v

def SlipsAny : List TypeExpr → Ptr → Prop
  | [], _ => False
  | te :: tes, v => Slips te v ∨ SlipsAny tes v

end

/-! ## What the code checks -/

/-- `all?` -/
def allP (f : Ptr → Option Bool) : List Ptr → Option Bool
  | [] => some true
  | x :: xs =>
    match f x with
    | some true => allP f xs
    | r => r

mutual

/-- The check of `defclass_emit_check`; none when it does not end. -/
def check : TypeExpr → Ptr → Option Bool
  | .name n, v =>
    match typeOfName classes n with
    | none => some false
    | some t => isA kinds classes w v t
  | .optional te, v => if isTrue kinds w v then check te v else some true
  | .listOf te, v =>
    match chain w v with
    | none => none
    | some (xs, last) => if last = .null ∨ last = .nil then allP (check te) xs else some false
  | .or tes, v => checkAny tes v

/-- `or` -/
def checkAny : List TypeExpr → Ptr → Option Bool
  | [], _ => some false
  | te :: tes, v =>
    match check te v with
    | some false => checkAny tes v
    | r => r

end

end Checks

/-! ## Walks -/

section Walks

variable {w : World} {p last : Ptr} {cs : List Ptr} {n : ℕ}

theorem properList_of_walk (h : walk w n p = some (cs, last)) (hlast : last = .null ∨ last = .nil) :
    ProperList w p cs := by
  induction n generalizing p cs with
  | zero => cases h
  | succ n ih =>
    unfold walk at h
    split at h
    · cases h
      rcases hlast with rfl | rfl
      · exact .null
      · exact .nil
    · rename_i next hnext
      obtain ⟨⟨cs', last'⟩, hrest, heq⟩ := Option.map_eq_some_iff.mp h
      cases heq
      exact .cell hnext (ih hrest)

theorem nextCell_eq_some {next : Ptr} (h : nextCell w p = some next) :
    ∃ i, p = .ref i ∧ i < w.objs.length := by
  unfold nextCell World.pairOf at h
  cases p with
  | ref i =>
    refine ⟨i, rfl, ?_⟩
    by_contra hi
    have hnone : w.objs[i]? = none := List.getElem?_eq_none (by omega)
    simp [World.look, World.objAt, hnone] at h
  | nil => simp [World.look] at h
  | null => simp [World.look] at h
  | t => simp [World.look] at h
  | fix n => simp [World.look] at h
  | char c => simp [World.look] at h
  | type id => simp [World.look] at h

/-- All cells of a list but the end of it are objects. -/
theorem dropLast_subset {l : List Ptr} (h : Lib.Lineage (nextCell w) p l) :
    ∀ q ∈ l.dropLast, ∃ i, q = .ref i ∧ i < w.objs.length := by
  induction h with
  | root _ => simp
  | @child a p l ha hl ih =>
    intro q hq
    cases hl with
    | root _ =>
      rw [List.dropLast_cons_of_ne_nil (List.cons_ne_nil _ _)] at hq
      rw [List.mem_cons] at hq
      rcases hq with rfl | hq
      · exact nextCell_eq_some ha
      · exact ih q hq
    | child _ _ =>
      rw [List.dropLast_cons_of_ne_nil (List.cons_ne_nil _ _), List.mem_cons] at hq
      rcases hq with rfl | hq
      · exact nextCell_eq_some ha
      · exact ih q hq

/-- A list has no more cells than there are objects. -/
theorem length_le_of_lineage {l : List Ptr} (h : Lib.Lineage (nextCell w) p l) :
    l.length ≤ w.objs.length + 1 := by
  have hnodup : l.dropLast.Nodup := h.nodup.sublist (List.dropLast_sublist l)
  have hsub : l.dropLast ⊆ (List.range w.objs.length).map Ptr.ref := by
    intro q hq
    obtain ⟨i, rfl, hi⟩ := dropLast_subset h q hq
    exact List.mem_map_of_mem (List.mem_range.mpr hi)
  have hle := (List.subperm_of_subset hnodup hsub).length_le
  rw [List.length_dropLast, List.length_map, List.length_range] at hle
  omega

theorem walk_isSome {l : List Ptr} (h : Lib.Lineage (nextCell w) p l) (hn : l.length ≤ n) :
    (walk w n p).isSome := by
  induction h generalizing n with
  | root ha =>
    obtain ⟨n, rfl⟩ := Nat.exists_eq_add_of_le' hn
    simp [walk, ha]
  | child ha _ ih =>
    rw [List.length_cons] at hn
    obtain ⟨n, rfl⟩ := Nat.exists_eq_add_of_le' (Nat.le_of_add_left_le hn)
    simp only [walk, ha, Option.isSome_map]
    exact ih (by omega)

/-- **The loop is given up only where it does not end.** -/
theorem chain_eq_none (h : chain w p = none) (l : List Ptr) : ¬Lib.Lineage (nextCell w) p l := by
  intro hl
  have hsome := walk_isSome hl (length_le_of_lineage hl)
  rw [chain] at h
  rw [h] at hsome
  cases hsome

end Walks

/-! ## Soundness of the checks -/

section Sound

variable {kinds : Kinds} {classes : Registry} {w : World}

theorem allP_eq_true {f : Ptr → Option Bool} {xs : List Ptr} (h : allP f xs = some true) :
    ∀ x ∈ xs, f x = some true := by
  induction xs with
  | nil => simp
  | cons x xs ih =>
    unfold allP at h
    split at h
    · rename_i hx
      intro y hy
      rcases List.mem_cons.mp hy with rfl | hy
      · exact hx
      · exact ih h y hy
    · rename_i hne
      exact absurd h hne

theorem admits_listOf_or_slips {te : TypeExpr} {v : Ptr} {xs : List Ptr} (hv : ProperList w v xs)
    (h : ∀ x ∈ xs, Admits kinds classes w te x ∨ Slips kinds classes w te x) :
    Admits kinds classes w (.listOf te) v ∨ Slips kinds classes w (.listOf te) v := by
  by_cases hall : ∀ x ∈ xs, Admits kinds classes w te x
  · left
    rw [Admits]
    exact ⟨xs, hv, hall⟩
  · right
    rw [Slips]
    refine ⟨xs, hv, h, ?_⟩
    simpa using hall

mutual

/-- **What passes the check is admitted, or slips through.** -/
theorem admits_or_slips : ∀ (te : TypeExpr) (v : Ptr), check kinds classes w te v = some true →
    Admits kinds classes w te v ∨ Slips kinds classes w te v
  | .name n, v, h => by
    unfold check at h
    split at h
    · cases h
    · rename_i t ht
      left
      rw [Admits]
      exact ⟨t, ht, h⟩
  | .optional te, v, h => by
    unfold check at h
    split at h
    · rename_i htrue
      rcases admits_or_slips te v h with ha | hs
      · left
        rw [Admits]
        exact .inr (.inr ha)
      · right
        rw [Slips, if_pos htrue]
        exact hs
    · rename_i hfalse
      by_cases ha : Admits kinds classes w (.optional te) v
      · exact .inl ha
      · right
        rw [Slips, if_neg hfalse]
        exact ha
  | .listOf te, v, h => by
    unfold check at h
    split at h
    · cases h
    · rename_i xs last hchain
      split at h
      · rename_i hlast
        exact admits_listOf_or_slips (properList_of_walk hchain hlast)
          fun x hx => admits_or_slips te x (allP_eq_true h x hx)
      · cases h
  | .or tes, v, h => by
    unfold check at h
    by_cases ha : AdmitsAny kinds classes w tes v
    · left
      rw [Admits]
      exact ha
    · right
      rw [Slips]
      exact ⟨(admitsAny_or_slips tes v h).resolve_left ha, ha⟩

theorem admitsAny_or_slips : ∀ (tes : List TypeExpr) (v : Ptr),
    checkAny kinds classes w tes v = some true →
      AdmitsAny kinds classes w tes v ∨ SlipsAny kinds classes w tes v
  | [], v, h => by
    unfold checkAny at h
    cases h
  | te :: tes, v, h => by
    unfold checkAny at h
    rw [AdmitsAny, SlipsAny]
    split at h
    · rcases admitsAny_or_slips tes v h with ha | hs
      · exact .inl (.inr ha)
      · exact .inr (.inr hs)
    · rcases admits_or_slips te v h with ha | hs
      · exact .inl (.inl ha)
      · exact .inr (.inl hs)

end

end Sound

end Alcove.Instances
