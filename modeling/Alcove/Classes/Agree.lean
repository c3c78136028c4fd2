import Alcove.Classes.Invariant

/-!
# Calls follow the line of ancestors

In a state with the invariant the loops of `__mm-lookup` and `is-a?` see the whole line of a class.

**Main result:** `resolves_program`. After any clean definitions, a call on an instance runs the nearest
method, `is-a?` agrees with the line, and `super` goes strictly up.
-/

namespace Alcove.Classes

open Lib

/-! ## Loops up the line -/

section Loops

variable {s : Runtime}

theorem walkParents_eq (hids : ∀ t ∈ s.types, typeUserMin ≤ t.id) (f : Name → Option Method) (n a : ℕ) :
    walkParents s f n a = (s.parentOf a).bind (climb s.parentOf (fun id => f (typeKey id)) n) := by
  induction n generalizing a with
  | zero =>
    cases h : s.parentOf a <;> rfl
  | succ n ih =>
    have hlow : (if typeUserMin ≤ a then s.typeById a else none) = s.typeById a := by
      split
      · rfl
      · rename_i hlt
        cases ht : s.typeById a with
        | none => rfl
        | some t =>
          have hid : t.id = a := by simpa using List.find?_some ht
          exact absurd (hid ▸ hids t (List.mem_of_find?_eq_some ht)) hlt
    rw [walkParents, hlow]
    cases ht : s.typeById a with
    | none => rw [Runtime.parentOf, ht]; rfl
    | some t =>
      rw [parentOf_of_typeById ht]
      dsimp only
      split
      · rfl
      · rw [Option.bind_some, climb, ih]
        cases f (typeKey t.parent) <;> rfl

theorem conformsLoop_zero (target n : ℕ) : conformsLoop s target n 0 = false := by
  cases n with
  | zero => rfl
  | succ n => rw [conformsLoop, if_pos rfl]

theorem conformsLoop_eq (target n : ℕ) {a : ℕ} (ha : a ≠ 0) :
    conformsLoop s target n a =
      (climb s.parentOf (fun id => if id = target then some () else none) n a).isSome := by
  induction n generalizing a with
  | zero => rfl
  | succ n ih =>
    rw [conformsLoop, if_neg ha, climb]
    by_cases htarget : a = target
    · rw [if_pos htarget, if_pos htarget]
      rfl
    · rw [if_neg htarget, if_neg htarget, Option.none_or]
      cases ht : s.typeById a with
      | none => rw [Runtime.parentOf, ht]; rfl
      | some t =>
        rw [parentOf_of_typeById ht]
        dsimp only
        split
        · rename_i h0
          rw [h0, conformsLoop_zero]
          rfl
        · rename_i h0
          rw [ih h0, Option.bind_some]

end Loops

section Reserved

variable {reserved : Name → Option Value} {s : Runtime} {h : History}

/-! ## Calls -/

/-- A lookup that starts at a class finds the nearest method. -/
theorem mmLookup_eq (hinv : Inv reserved s h) {name : Name} (hname : h.IsGeneric name) {id : ℕ}
    {l : List ℕ} (hl : Lineage s.parentOf id l) (hlen : l.length ≤ 64) :
    mmLookup reserved s (name ++ lit "__m") (.type id) = h.nearest name l := by
  have hat := hinv.bound.generic name hname
  obtain ⟨methods, ht, hmethods⟩ := hat.table
  have hfound : l.findSome? (fun i => methods (typeKey i)) = l.findSome? (h.methodOf name) :=
    congrArg (fun f => l.findSome? f) (funext hmethods)
  have hclimb := climb_eq (f := fun i => methods (typeKey i)) hl (Nat.le_succ_of_le hlen)
  rw [climb, hfound, ← walkParents_eq fun t ht => (hinv.registered.ids t ht).1] at hclimb
  rw [mmLookup, if_neg (by rw [hat.tablePlain]; exact Bool.false_ne_true), ht, History.nearest, ← hclimb,
    ← hmethods typeAny]
  dsimp only [alcKeyToCstr, Option.bind_some]
  cases methods (typeKey id) <;> rfl

/-- A generic function that was not defined has no methods. -/
theorem nearest_eq_none (hinv : Inv reserved s h) {name : Name} (hname : ¬ h.IsGeneric name)
    (l : List ℕ) : h.nearest name l = none := by
  have hnone : ∀ id, h.methodOf name id = none := fun id =>
    Option.eq_none_iff_forall_ne_some.mpr fun m hm => hname (hinv.bound.methods name id m hm)
  rw [History.nearest, hnone, Option.or_none, List.findSome?_eq_none_iff]
  exact fun id _ => hnone id

theorem mmLookup_none (hinv : Inv reserved s h) {name : Name} (hname : ¬ h.IsGeneric name)
    (dval : Value) : mmLookup reserved s (name ++ lit "__m") dval = none := by
  rw [mmLookup]
  split
  · rfl
  · split
    · rename_i ht
      exact absurd ht (hinv.bound.not_table hname _)
    · rfl

theorem dispatch_instance {id : ℕ} {t : UserType} (ht : s.typeById id = some t) (args : List Value) :
    Dispatch.typecmd.apply s (.instance id :: args) = .type id := by
  rw [Dispatch.apply, typecmd, getActualTypeId, ht]
  rfl

theorem isA_iff (hr : Registered s h) {t : UserType} (ht : t ∈ s.types) {l : List ℕ}
    (hl : Lineage s.parentOf t.id l) (hlen : l.length ≤ 64) {target : ℕ} (htarget : typeUserMin ≤ target) :
    isA s t.id target = true ↔ target ∈ l := by
  have hid : t.id ≠ 0 := (Nat.lt_of_lt_of_le (by decide) (hr.ids t ht).1).ne'
  have htarget0 : target ≠ 0 := (Nat.lt_of_lt_of_le (by decide) htarget).ne'
  have hany : target ≠ typeAny := (Nat.lt_of_lt_of_le (by decide) htarget).ne'
  have hdict : target ≠ 17 := (Nat.lt_of_lt_of_le (by decide) htarget).ne'
  have hwalk : conforms s t.id target = true ↔ target ∈ l := by
    rw [conforms, if_neg (not_or.mpr ⟨hid, htarget0⟩), conformsLoop_eq target 64 hid, climb_eq hl hlen,
      List.findSome?_isSome_iff]
    constructor
    · rintro ⟨i, hi, hsome⟩
      split at hsome
      · exact ‹i = target› ▸ hi
      · cases hsome
    · exact fun hmem => ⟨target, hmem, by rw [if_pos rfl]; rfl⟩
  have hself : getActualTypeId s (.instance t.id) = t.id := by
    rw [getActualTypeId, hr.byId t ht]
    rfl
  rw [isA, hself, hr.byId t ht, decide_eq_false hany, decide_eq_false hdict, decide_eq_true htarget,
    Bool.false_or, Bool.or_false, Bool.true_and, Option.isSome_some, if_pos rfl, Bool.or_eq_true, hwalk,
    decide_eq_true_eq]
  exact or_iff_right_of_imp fun he => he ▸ hl.self_mem

/-- **In a state with the invariant, calls follow the line of ancestors.** -/
theorem resolves_of_inv (hinv : Inv reserved s h) : Resolves reserved s h := by
  have hr := hinv.registered
  have hparents : h.parentOf = s.parentOf := funext hr.parents
  have hline : ∀ id l, (∃ t ∈ s.types, t.id = id) → Lineage s.parentOf id l → l.length ≤ 64 := by
    rintro id l ⟨t, ht, rfl⟩ hl
    obtain ⟨l', hl', hlen⟩ := hr.lines t ht
    exact hl.unique hl' ▸ hlen
  have hcall : ∀ id l name args, h.IsClass id → Lineage s.parentOf id l → h.IsGeneric name →
      callGeneric reserved s name (.instance id :: args) = h.nearest name l := by
    intro id l name args hid hl hname
    obtain ⟨t, ht, rfl⟩ := (hr.classes id).mp hid
    have hat := hinv.bound.generic name hname
    rw [callGeneric, if_neg (by rw [hat.plain]; exact Bool.false_ne_true), hat.bound]
    dsimp only
    rw [dispatch_instance (hr.byId t ht), mmLookup_eq hinv hname hl (hline _ _ ⟨t, ht, rfl⟩ hl)]
  have hclass : ∀ id parent, s.parentOf id = some parent → h.IsClass parent := by
    intro id parent hp
    rw [hr.classes]
    cases ht : s.typeById id with
    | none => rw [Runtime.parentOf, ht] at hp; cases hp
    | some t =>
      rw [parentOf_of_typeById ht] at hp
      split at hp
      · cases hp
      · cases hp
        exact hr.closed t (List.mem_of_find?_eq_some ht) ‹_›
  refine ⟨fun id hid => ?_, ?_, ?_, ?_, ?_, ?_⟩
  · obtain ⟨t, ht, rfl⟩ := (hr.classes id).mp hid
    obtain ⟨l, hl, -⟩ := hr.lines t ht
    exact ⟨l, hparents ▸ hl⟩
  · rw [hparents]
    exact hcall
  · intro id l target hid hl htarget
    rw [hparents] at hl
    obtain ⟨t, ht, rfl⟩ := (hr.classes id).mp hid
    exact isA_iff hr ht hl (hline _ _ ⟨t, ht, rfl⟩ hl) htarget
  · intro id parent l name args hid hp hl
    rw [hparents] at hp hl
    have hpc := hclass id parent hp
    have hcallee : evalCallee reserved s (.pair (.symbol (lit "__mm-lookup"))
        (.pair (.symbol (name ++ lit "__m")) (.pair (.type parent) .nil))) = h.nearest name l := by
      rw [evalCallee, if_pos rfl]
      by_cases hname : h.IsGeneric name
      · exact mmLookup_eq hinv hname hl (hline _ _ ((hr.classes parent).mp hpc) hl)
      · rw [mmLookup_none hinv hname, nearest_eq_none hinv hname]
    have hne : parent ≠ 0 := by
      obtain ⟨t, ht, rfl⟩ := (hr.classes parent).mp hpc
      exact (Nat.lt_of_lt_of_le (by decide) (hr.ids t ht).1).ne'
    refine ⟨_, ?_, hcallee, fun args' hname => (hcall parent l name args' hpc hl hname).trans hcallee.symm⟩
    rw [rewriteSuper, if_neg (by decide), if_pos ⟨rfl, hne⟩]
  · rintro owner id ⟨parent, l', hp, hl', howner⟩ l hl
    obtain ⟨l₂, hl₂, rfl⟩ := hl.of_parent hp
    rwa [hl₂.unique hl']
  · refine ⟨fun id => ?_⟩
    -- by the length of the line of the class; only a class has a parent
    by_cases hsome : ∃ l, Lineage h.parentOf id l
    · obtain ⟨l, hl⟩ := hsome
      induction hn : l.length using Nat.strong_induction_on generalizing id l with
      | _ n ih =>
        refine ⟨_, ?_⟩
        rintro owner ⟨parent, l', hp, hl', howner⟩
        obtain ⟨l₂, hl₂, rfl⟩ := hl.of_parent hp
        obtain ⟨l₃, hl₃, -⟩ := hl'.of_mem howner
        have hlt := hl.length_lt (hl₂.unique hl' ▸ howner) hl₃
        exact ih _ (hn ▸ hlt) owner l₃ hl₃ rfl
    · refine ⟨_, ?_⟩
      rintro owner ⟨parent, l', hp, hl', howner⟩
      exact absurd ⟨_, .child hp hl'⟩ hsome

/-- **After any clean definitions, generic functions, `is-a?` and `super` follow the line of
ancestors.** -/
theorem resolves_program (ds : List Def) (hclean : CleanProgram reserved Runtime.start ds) :
    Resolves reserved (program reserved (Runtime.start, []) ds).1
      (program reserved (Runtime.start, []) ds).2 :=
  resolves_of_inv (inv_program inv_start hclean)

end Reserved

/-! ## A generic function with a long name -/

/-- The builtin names play no part. -/
abbrev noBuiltins : Name → Option Value := fun _ => none

/-- The method `(:method name (self) (super name self))`. -/
def superMethod (name : Name) : Clause :=
  .method name (.pair (.symbol (lit "self")) .nil)
    [.pair (.symbol (lit "super")) (.pair (.symbol name) (.pair (.symbol (lit "self")) .nil))]

/-- A class `A` with a method, and `B` below it with one that calls `super`. -/
def twoClasses (name : Name) : List Def :=
  [.defclass false (lit "A") [.method name (.symbol (lit "xs")) [.atom 1]],
    .defclass false (lit "B") [.extends (lit "A"), superMethod name]]

theorem line_root {s : Runtime} {id : ℕ} (hid : s.parentOf id = none) {l : List ℕ}
    (hl : Lineage s.parentOf id l) : l.length < 64 := by
  rw [hl.unique (.root hid), List.length_singleton]
  decide

/-- With a short name every definition is clean. -/
theorem resolves_twoClasses : Resolves noBuiltins
    (program noBuiltins (Runtime.start, []) (twoClasses (lit "speak"))).1
    (program noBuiltins (Runtime.start, []) (twoClasses (lit "speak"))).2 := by
  refine resolves_program _ ⟨⟨rfl, ?_⟩, ⟨rfl, ?_⟩, trivial⟩
  · intro claim b parent fields hcheck
    cases hcheck
    refine ⟨fun n _ => .inl rfl, fun l hl => line_root rfl hl, ?_, trivial⟩
    exact ⟨by decide, rfl, fun _ h => (by cases h), fun _ h => (by cases h), rfl, fun _ _ h => (by cases h)⟩
  · intro claim b parent fields hcheck
    cases hcheck
    refine ⟨?_, fun l hl => line_root rfl hl, ?_, trivial⟩
    · intro n hn
      replace hn : n ∈ generatedNames (lit "B") [] := hn
      rw [generatedNames, List.flatMap_nil, List.append_nil] at hn
      simp only [List.mem_cons, List.not_mem_nil, or_false] at hn
      rcases hn with rfl | rfl | rfl | rfl <;> exact .inl rfl
    · exact ⟨by decide, rfl, fun _ h => (by cases h), fun _ h => (by cases h), rfl, fun _ _ h => (by cases h)⟩

/-- A name of 157 bytes -/
def longName : Name := List.replicate 157 0x67

set_option maxRecDepth 8000 in
/-- `super` looks for a table whose name is longer than that of the generic function. -/
theorem longName_not_resolved : ¬ Resolves noBuiltins
    (program noBuiltins (Runtime.start, []) (twoClasses longName)).1
    (program noBuiltins (Runtime.start, []) (twoClasses longName)).2 := by
  intro h
  have hclass : History.IsClass (program noBuiltins (Runtime.start, []) (twoClasses longName)).2 100001 :=
    ⟨100000, List.mem_cons_of_mem _ (List.mem_cons_of_mem _ List.mem_cons_self)⟩
  obtain ⟨callee, hrewrite, heval, -⟩ := h.super 100001 100000 [100000] longName .nil hclass
    rfl (.root rfl)
  cases hrewrite
  cases heval

end Alcove.Classes
