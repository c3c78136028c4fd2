import Alcove.Classes.Resolution
import Alcove.Json.RoundTrip

/-!
# Registry, globals and history

`Inv` ties the registry and the globals to the history of definitions: every class has a line of at most
64 classes, and every generic function is bound to its name, with its methods in its table.

**Main result:** `inv_program`. Clean definitions keep the invariant.
-/

namespace Alcove.Classes

open Lib

/-! ## Names and keys -/

theorem typeKey_injective {id id' : ℕ} (h : typeKey id = typeKey id') : id = id' := by
  have hdec := congrArg Json.decValue (List.cons.inj h).2
  rwa [Json.decValue_formatNat, Json.decValue_formatNat] at hdec

theorem typeKey_ne_formatInt (id : ℕ) (n : ℤ) : Json.formatInt n ≠ typeKey id := by
  intro h
  have hmem : (1 : UInt8) ∈ Json.formatNat n.natAbs ∨ (1 : UInt8) = 0x2d := by
    rw [Json.formatInt] at h
    split at h
    · exact .inr (List.cons.inj h).1.symm
    · exact .inl (h ▸ List.mem_cons_self)
  rcases hmem with hmem | hmem
  · exact absurd ((Json.digits_formatNat n.natAbs).2 1 hmem) (by decide)
  · exact absurd hmem (by decide)

theorem tableName_eq {name : Name} (h : name.length ≤ 156) : tableName name = name ++ lit "__m" := by
  rw [tableName, List.take_of_length_le]
  rw [List.length_append]
  exact Nat.add_le_add_right h 3

theorem table_injective {g g' : Name} (h : g ++ lit "__m" = g' ++ lit "__m") : g = g' :=
  List.append_cancel_right h

/-! ## The history -/

namespace History

variable {h : History}

@[simp]
theorem parentOf_generic (name : Name) (id : ℕ) :
    parentOf (.generic name :: h) id = h.parentOf id := rfl

@[simp]
theorem parentOf_method (name : Name) (i : ℕ) (m : Method) (id : ℕ) :
    parentOf (.method name i m :: h) id = h.parentOf id := rfl

theorem parentOf_cls (i p id : ℕ) :
    parentOf (.cls i p :: h) id = if i = id ∧ p ≠ 0 then some p else h.parentOf id := by
  rw [parentOf, List.findSome?_cons]
  by_cases hc : i = id ∧ p ≠ 0
  · simp only [if_pos hc]
  · simp only [if_neg hc]
    rfl

@[simp]
theorem methodOf_generic (name g : Name) (id : ℕ) :
    methodOf (.generic name :: h) g id = h.methodOf g id := rfl

@[simp]
theorem methodOf_cls (i p : ℕ) (g : Name) (id : ℕ) :
    methodOf (.cls i p :: h) g id = h.methodOf g id := rfl

theorem methodOf_method (name : Name) (i : ℕ) (m : Method) (g : Name) (id : ℕ) :
    methodOf (.method name i m :: h) g id =
      if name = g ∧ i = id then some m else h.methodOf g id := by
  rw [methodOf, List.findSome?_cons]
  by_cases hc : name = g ∧ i = id
  · simp only [if_pos hc]
  · simp only [if_neg hc]
    rfl

@[simp]
theorem isClass_generic (name : Name) (id : ℕ) : IsClass (.generic name :: h) id ↔ h.IsClass id := by
  simp [IsClass]

@[simp]
theorem isClass_method (name : Name) (i : ℕ) (m : Method) (id : ℕ) :
    IsClass (.method name i m :: h) id ↔ h.IsClass id := by
  simp [IsClass]

theorem isClass_cls (i p id : ℕ) : IsClass (.cls i p :: h) id ↔ id = i ∨ h.IsClass id := by
  simp [IsClass, exists_or]

theorem isGeneric_generic (name g : Name) :
    IsGeneric (.generic name :: h) g ↔ g = name ∨ h.IsGeneric g := by
  simp [IsGeneric]

@[simp]
theorem isGeneric_method (name : Name) (i : ℕ) (m : Method) (g : Name) :
    IsGeneric (.method name i m :: h) g ↔ h.IsGeneric g := by
  simp [IsGeneric]

@[simp]
theorem isGeneric_cls (i p : ℕ) (g : Name) : IsGeneric (.cls i p :: h) g ↔ h.IsGeneric g := by
  simp [IsGeneric]

end History

/-! ## The invariant -/

/-- The registry holds the classes of the history, each with a line of at most 64 classes. -/
structure Registered (s : Runtime) (h : History) : Prop where
  ids : ∀ t ∈ s.types, typeUserMin ≤ t.id ∧ t.id < s.nextTypeId
  next : typeUserMin ≤ s.nextTypeId
  byId : ∀ t ∈ s.types, s.typeById t.id = some t
  parents : ∀ id, h.parentOf id = s.parentOf id
  classes : ∀ id, h.IsClass id ↔ ∃ t ∈ s.types, t.id = id
  closed : ∀ t ∈ s.types, t.parent ≠ 0 → ∃ p ∈ s.types, p.id = t.parent
  lines : ∀ t ∈ s.types, ∃ l, Lineage s.parentOf t.id l ∧ l.length ≤ 64

section Reserved

variable (reserved : Name → Option Value)

/-- A generic function is bound to its name, with its methods in its table. -/
structure GenericAt (s : Runtime) (h : History) (name : Name) : Prop where
  plain : reserved name = none
  tablePlain : reserved (name ++ lit "__m") = none
  bound : s.globals name = some (.generic (name ++ lit "__m") .typecmd)
  table : ∃ methods, s.globals (name ++ lit "__m") = some (.table methods) ∧
    ∀ id, methods (typeKey id) = h.methodOf name id

/-- The globals are those of the classes and generic functions of the history. -/
structure Bound (s : Runtime) (h : History) : Prop where
  names : ∀ t ∈ s.types, reserved t.name = none ∧ s.globals t.name = some (.type t.id)
  types : ∀ n id, s.globals n = some (.type id) → ∃ t ∈ s.types, t.name = n ∧ t.id = id
  generic : ∀ name, h.IsGeneric name → GenericAt reserved s h name
  tables : ∀ n methods, s.globals n = some (.table methods) →
    ∃ name, h.IsGeneric name ∧ n = name ++ lit "__m"
  generics : ∀ n table d, s.globals n = some (.generic table d) → h.IsGeneric n
  methods : ∀ name id m, h.methodOf name id = some m → h.IsGeneric name

/-- The invariant of clean definitions. -/
structure Inv (s : Runtime) (h : History) : Prop where
  registered : Registered s h
  bound : Bound reserved s h

variable {reserved} {s : Runtime} {h : History}

theorem inv_start : Inv reserved Runtime.start [] where
  registered := {
    ids := fun _ h => by cases h
    next := le_refl _
    byId := fun _ h => by cases h
    parents := fun _ => rfl
    classes := fun _ => ⟨fun ⟨_, h⟩ => (by cases h), fun ⟨_, h, _⟩ => (by cases h)⟩
    closed := fun _ h => by cases h
    lines := fun _ h => by cases h }
  bound := {
    names := fun _ h => by cases h
    types := fun _ _ h => by cases h
    generic := fun _ h => by cases h
    tables := fun _ _ h => by cases h
    generics := fun _ _ _ h => by cases h
    methods := fun _ _ _ h => by cases h }

/-- Bindings do not change the registry. -/
theorem Registered.bind (hr : Registered s h) (n : Name) (g : Global) : Registered (s.bind n g) h :=
  ⟨hr.ids, hr.next, hr.byId, hr.parents, hr.classes, hr.closed, hr.lines⟩

theorem Registered.generic (hr : Registered s h) (name : Name) : Registered s (.generic name :: h) :=
  ⟨hr.ids, hr.next, hr.byId, hr.parents, fun id => (History.isClass_generic name id).trans (hr.classes id),
    hr.closed, hr.lines⟩

theorem Registered.method (hr : Registered s h) (name : Name) (i : ℕ) (m : Method) :
    Registered s (.method name i m :: h) :=
  ⟨hr.ids, hr.next, hr.byId, hr.parents,
    fun id => (History.isClass_method name i m id).trans (hr.classes id), hr.closed, hr.lines⟩

theorem typeByName_eq_none {n : Name} : s.typeByName n = none ↔ ∀ t ∈ s.types, t.name ≠ n := by
  simp [Runtime.typeByName]

theorem typeByName_eq_some {n : Name} {t : UserType} (ht : s.typeByName n = some t) :
    t ∈ s.types ∧ t.name = n :=
  ⟨List.mem_of_find?_eq_some ht, by simpa using List.find?_some ht⟩

/-! ## `defmulti` and `defmethod` -/

@[simp]
theorem globals_bind (n x : Name) (g : Global) :
    (s.bind n g).globals x = if x = n then some g else s.globals x :=
  Function.update_apply s.globals n (some g) x

theorem name_ne_table (name : Name) : name ≠ name ++ lit "__m" := fun h => by
  have hlen := congrArg List.length h
  rw [List.length_append] at hlen
  exact absurd hlen (by simp [lit])

/-- A generic function that is not defined yet has no table. -/
theorem Bound.not_table (hb : Bound reserved s h) {name : Name} (hname : ¬ h.IsGeneric name)
    (methods : Name → Option Method) : s.globals (name ++ lit "__m") ≠ some (.table methods) := by
  intro ht
  obtain ⟨name', hname', heq⟩ := hb.tables _ _ ht
  exact hname (table_injective heq ▸ hname')

/-- A generic function that is defined again stays as it is. -/
theorem defmulti_again (hinv : Inv reserved s h) {name : Name} (hfits : name.length ≤ 156)
    (hname : h.IsGeneric name) : defmulticmd reserved s name .typecmd = (s, .ok ()) := by
  have hat := hinv.bound.generic name hname
  obtain ⟨methods, ht, -⟩ := hat.table
  have hsame : s.bind name (.generic (name ++ lit "__m") .typecmd) = s := by
    rw [Runtime.bind, Function.update_eq_self_iff.mpr hat.bound.symm]
  simp only [defmulticmd, tableName_eq hfits, ht, hsame]

/-- A new generic function gets an empty table. -/
theorem defmulti_new (hinv : Inv reserved s h) {name : Name} (hok : GenericOk reserved s name)
    (hname : ¬ h.IsGeneric name) : defmulticmd reserved s name .typecmd =
      ((s.bind (name ++ lit "__m") (.table fun _ => none)).bind name
        (.generic (name ++ lit "__m") .typecmd), .ok ()) := by
  rw [defmulticmd]
  simp only [tableName_eq hok.fits, hok.tablePlain]
  split
  · rename_i ht
    exact absurd ht (hinv.bound.not_table hname _)
  · rfl

theorem bound_defmulti_new (hb : Bound reserved s h) {name : Name} (hok : GenericOk reserved s name)
    (hname : ¬ h.IsGeneric name) : Bound reserved
      ((s.bind (name ++ lit "__m") (.table fun _ => none)).bind name
        (.generic (name ++ lit "__m") .typecmd)) (.generic name :: h) := by
  have hplain := hok.tablePlain
  rw [isReservedName, Bool.or_eq_false_iff, Option.isSome_eq_false_iff, Option.isNone_iff_eq_none,
    Option.isSome_eq_false_iff, Option.isNone_iff_eq_none, typeByName_eq_none] at hplain
  have hne := name_ne_table name
  have hempty : ∀ id, h.methodOf name id = none := fun id => by
    by_contra hm
    obtain ⟨m, hm⟩ := Option.ne_none_iff_exists'.mp hm
    exact hname (hb.methods _ _ _ hm)
  refine ⟨fun t ht => ?_, fun n id hn => ?_, fun g hg => ?_, fun n methods hn => ?_,
    fun n table d hn => ?_, fun g id m hm => ?_⟩
  · obtain ⟨hr, hg⟩ := hb.names t ht
    refine ⟨hr, ?_⟩
    have h₁ : t.name ≠ name := fun he => hok.noType _ (he ▸ hg)
    rw [globals_bind, globals_bind, if_neg h₁, if_neg (hplain.2 t ht), hg]
  · rw [globals_bind, globals_bind] at hn
    split at hn
    · cases hn
    · split at hn
      · cases hn
      · exact hb.types n id hn
  · rcases (History.isGeneric_generic name g).mp hg with rfl | hg
    · exact ⟨hok.plain, hplain.1, by simp, _, by rw [globals_bind, globals_bind, if_neg hne.symm, if_pos rfl],
        fun id => (hempty id).symm⟩
    · obtain ⟨h₁, h₂, h₃, methods, h₄, h₅⟩ := hb.generic g hg
      have hgn : g ≠ name := fun he => hname (he ▸ hg)
      have hgt : g ≠ name ++ lit "__m" := fun he => hok.tableNoGeneric _ _ (he ▸ h₃)
      have htn : g ++ lit "__m" ≠ name := fun he => hok.noTable _ (he ▸ h₄)
      have htt : g ++ lit "__m" ≠ name ++ lit "__m" := fun he => hgn (table_injective he)
      refine ⟨h₁, h₂, ?_, methods, ?_, h₅⟩
      · rw [globals_bind, globals_bind, if_neg hgn, if_neg hgt, h₃]
      · rw [globals_bind, globals_bind, if_neg htn, if_neg htt, h₄]
  · rw [globals_bind, globals_bind] at hn
    split at hn
    · cases hn
    · split at hn
      · exact ⟨name, (History.isGeneric_generic _ _).mpr (.inl rfl), ‹_›⟩
      · obtain ⟨g, hg, heq⟩ := hb.tables n methods hn
        exact ⟨g, (History.isGeneric_generic _ _).mpr (.inr hg), heq⟩
  · rw [History.isGeneric_generic]
    rw [globals_bind, globals_bind] at hn
    split at hn
    · exact .inl ‹_›
    · split at hn
      · cases hn
      · exact .inr (hb.generics n table d hn)
  · exact (History.isGeneric_generic _ _).mpr (.inr (hb.methods g id m hm))

/-- **`defmulti` keeps the invariant.** -/
theorem inv_defmulti (hinv : Inv reserved s h) {name : Name} (hok : GenericOk reserved s name) :
    ∃ s', defmulticmd reserved s name .typecmd = (s', .ok ()) ∧
      Inv reserved s' (.generic name :: h) ∧ s'.types = s.types := by
  by_cases hname : h.IsGeneric name
  · refine ⟨s, defmulti_again hinv hok.fits hname, ⟨hinv.registered.generic name, ?_⟩, rfl⟩
    have hb := hinv.bound
    have hsame : ∀ g, History.IsGeneric (.generic name :: h) g ↔ h.IsGeneric g := fun g => by
      rw [History.isGeneric_generic, or_iff_right_of_imp fun he => he ▸ hname]
    refine ⟨hb.names, hb.types, fun g hg => ?_, fun n methods hn => ?_,
      fun n table d hn => (hsame n).mpr (hb.generics n table d hn),
      fun g id m hm => (hsame g).mpr (hb.methods g id m hm)⟩
    · obtain ⟨h₁, h₂, h₃, h₄⟩ := hb.generic g ((hsame g).mp hg)
      exact ⟨h₁, h₂, h₃, h₄⟩
    · obtain ⟨g, hg, heq⟩ := hb.tables n methods hn
      exact ⟨g, (hsame g).mpr hg, heq⟩
  · exact ⟨_, defmulti_new hinv hok hname,
      ⟨(hinv.registered.bind _ _ |>.bind _ _).generic name,
        bound_defmulti_new hinv.bound hok hname⟩, rfl⟩

/-- Another table of methods for one generic function. -/
theorem Bound.table (hb : Bound reserved s h) {name : Name} (hname : h.IsGeneric name) {h' : History}
    {methods : Name → Option Method} (hgeneric : ∀ g, h'.IsGeneric g ↔ h.IsGeneric g)
    (hother : ∀ g id, g ≠ name → h'.methodOf g id = h.methodOf g id)
    (hmethods : ∀ id, methods (typeKey id) = h'.methodOf name id) :
    Bound reserved (s.bind (name ++ lit "__m") (.table methods)) h' := by
  obtain ⟨old, hold, -⟩ := (hb.generic name hname).table
  refine ⟨fun t ht => ?_, fun n id hn => ?_, fun g hg => ?_, fun n ms hn => ?_,
    fun n tb d hn => ?_, fun g id m hm => ?_⟩
  · obtain ⟨hr, hg⟩ := hb.names t ht
    have hne : t.name ≠ name ++ lit "__m" := fun he => by rw [he, hold] at hg; cases hg
    exact ⟨hr, by rw [globals_bind, if_neg hne, hg]⟩
  · rw [globals_bind] at hn
    split at hn
    · cases hn
    · exact hb.types n id hn
  · obtain ⟨h₁, h₂, h₃, ms, h₄, h₅⟩ := hb.generic g ((hgeneric g).mp hg)
    have hne : g ≠ name ++ lit "__m" := fun he => by rw [he, hold] at h₃; cases h₃
    refine ⟨h₁, h₂, by rw [globals_bind, if_neg hne, h₃], ?_⟩
    by_cases hgn : g = name
    · rw [hgn]
      exact ⟨methods, by rw [globals_bind, if_pos rfl], hmethods⟩
    · refine ⟨ms, ?_, fun id => (h₅ id).trans (hother g id hgn).symm⟩
      rw [globals_bind, if_neg fun he => hgn (table_injective he), h₄]
  · rw [globals_bind] at hn
    split at hn
    · exact ⟨name, (hgeneric name).mpr hname, ‹_›⟩
    · obtain ⟨g, hg, heq⟩ := hb.tables n ms hn
      exact ⟨g, (hgeneric g).mpr hg, heq⟩
  · rw [globals_bind] at hn
    split at hn
    · cases hn
    · exact (hgeneric n).mpr (hb.generics n tb d hn)
  · rw [hgeneric]
    by_cases hgn : g = name
    · exact hgn ▸ hname
    · exact hb.methods g id m ((hother g id hgn).symm.trans hm)

/-- **A method for a type is entered.** -/
theorem Inv.method (hinv : Inv reserved s h) {name : Name} (hname : h.IsGeneric name)
    {methods : Name → Option Method} (ht : s.globals (name ++ lit "__m") = some (.table methods))
    (id : ℕ) (m : Method) :
    Inv reserved (s.bind (name ++ lit "__m") (.table (Function.update methods (typeKey id) (some m))))
      (.method name id m :: h) := by
  obtain ⟨old, hold, hmethods⟩ := (hinv.bound.generic name hname).table
  obtain rfl : old = methods := by
    rw [ht] at hold
    cases hold
    rfl
  refine ⟨(hinv.registered.bind _ _).method name id m,
    hinv.bound.table hname (fun g => History.isGeneric_method name id m g) (fun g i hg => ?_) fun i => ?_⟩
  · rw [History.methodOf_method, if_neg fun he => hg he.1.symm]
  · rw [History.methodOf_method, Function.update_apply, hmethods]
    by_cases hi : i = id
    · rw [if_pos (congrArg typeKey hi), if_pos ⟨rfl, hi.symm⟩]
    · rw [if_neg fun he => hi (typeKey_injective he), if_neg fun he => hi he.2.symm]

/-- A method for another value leaves those for types as they are. -/
theorem Inv.otherMethod (hinv : Inv reserved s h) {name : Name} (hname : h.IsGeneric name)
    {methods : Name → Option Method} (ht : s.globals (name ++ lit "__m") = some (.table methods))
    {key : Name} (hkey : ∀ id, key ≠ typeKey id) (m : Method) :
    Inv reserved (s.bind (name ++ lit "__m") (.table (Function.update methods key (some m)))) h := by
  obtain ⟨old, hold, hmethods⟩ := (hinv.bound.generic name hname).table
  obtain rfl : old = methods := by
    rw [ht] at hold
    cases hold
    rfl
  refine ⟨hinv.registered.bind _ _, hinv.bound.table hname (fun _ => Iff.rfl) (fun _ _ _ => rfl)
    fun i => ?_⟩
  rw [Function.update_of_ne (hkey i).symm, hmethods]

/-- A name evaluates to a class exactly when the class has this name. -/
theorem Bound.evalDval_eq_type (hb : Bound reserved s h) {dval : Dval} {id : ℕ} :
    evalDval reserved s dval = some (.type id) ↔ dval.classOf reserved s = some id := by
  cases dval with
  | value v => cases v <;> simp [evalDval, Dval.classOf]
  | name n =>
    unfold evalDval Dval.classOf
    cases hr : reserved n with
    | some v => cases v <;> simp [hr]
    | none =>
      dsimp only
      cases hn : s.typeByName n with
      | some t =>
        obtain ⟨ht, rfl⟩ := typeByName_eq_some hn
        rw [(hb.names t ht).2]
        simp [hr]
      | none =>
        rw [typeByName_eq_none] at hn
        cases hg : s.globals n with
        | none => simp [hr]
        | some g =>
          cases g with
          | type i =>
            obtain ⟨t, ht, htn, -⟩ := hb.types n i hg
            exact absurd htn (hn t ht)
          | _ => simp [hr]

theorem alcKeyToCstr_ne {v : Value} {key : Name} (hkey : alcKeyToCstr v = some key)
    (htype : ∀ id, v ≠ .type id) (htext : ∀ t x id, v = .text t x → x ≠ typeKey id) (id : ℕ) :
    key ≠ typeKey id := by
  cases v with
  | type i => exact absurd rfl (htype i)
  | text t x =>
    cases hkey
    exact htext t _ id rfl
  | int n =>
    cases hkey
    exact typeKey_ne_formatInt id n
  | «instance» i => cases hkey
  | other t => cases hkey

/-- **`defmethod` keeps the invariant.** -/
theorem inv_defmethod (hinv : Inv reserved s h) {name : Name} {dval : Dval} {params : Form}
    {body : List Form} (hclean : (Def.defmethod name dval params body).Clean reserved s) :
    Inv reserved (defmethodcmd reserved s name dval params body).1
      ((Def.defmethod name dval params body).events reserved s ++ h) := by
  obtain ⟨hfits, htext⟩ := hclean
  unfold Def.events defmethodcmd
  simp only [tableName_eq hfits]
  split
  · exact hinv
  · exact hinv
  · rename_i methods hplain ht
    obtain ⟨name', hname, heq⟩ := hinv.bound.tables _ _ ht
    obtain rfl := table_injective heq
    cases hv : evalDval reserved s dval with
    | none => exact hinv
    | some v =>
      dsimp only
      cases hkey : alcKeyToCstr v with
      | none => exact hinv
      | some key =>
        dsimp only
        cases hc : dval.classOf reserved s with
        | some id =>
          have hval := hinv.bound.evalDval_eq_type.mpr hc
          rw [hv] at hval
          cases hval
          cases hkey
          exact hinv.method hname ht id _
        | none =>
          have hnot : ∀ id, v ≠ .type id := fun id he => by
            rw [he, hinv.bound.evalDval_eq_type, hc] at hv
            cases hv
          exact hinv.otherMethod hname ht
            (alcKeyToCstr_ne hkey hnot fun t x id he => htext t x id (he ▸ hv)) _
  · exact hinv

/-! ## `defclass` -/

theorem map_types_of_not {n : Name} (hn : s.typeByName n = none) (f : UserType → UserType) :
    (s.types.map fun t => if t.name = n then f t else t) = s.types :=
  (List.map_congr_left fun t ht => if_neg (typeByName_eq_none.mp hn t ht)).trans (List.map_id' _)

theorem updateType_of_not {n : Name} (hn : s.typeByName n = none) (f : UserType → UserType) :
    s.updateType n f = s := by
  rw [Runtime.updateType, map_types_of_not hn]

theorem reopen_of_not {n : Name} (hn : s.typeByName n = none) (dev : Bool) : reopen dev s n = s := by
  rw [reopen, updateType_of_not hn, ite_self]

/-- A class is entered and its names are bound. -/
def Runtime.withClass (s : Runtime) (cname : Name) (parent : ℕ) (fields : List Name) : Runtime where
  types := ⟨s.nextTypeId, cname, parent, some fields⟩ :: s.types
  nextTypeId := s.nextTypeId + 1
  globals n := if (generatedNames cname fields).contains n then some .other
    else if n = cname then some (.type s.nextTypeId) else s.globals n

theorem foldl_bind_other (names : List Name) (s : Runtime) :
    names.foldl (fun s n => s.bind n .other) s =
      { s with globals := fun n => if names.contains n then some .other else s.globals n } := by
  induction names generalizing s with
  | nil => simp
  | cons x xs ih =>
    rw [List.foldl_cons, ih]
    refine congrArg (fun g => ({ s with globals := g } : Runtime)) (funext fun n => ?_)
    by_cases hx : n = x <;> by_cases hxs : n ∈ xs <;> simp [hx, hxs]

/-- What the checks of a new class say. -/
theorem checkClass_new {cname : Name} (hnew : s.typeByName cname = none) {clauses : List Clause}
    {claim : Option ℕ} {b : ClassBody} {parent : ℕ} {fields : List Name}
    (hcheck : checkClass reserved s cname clauses = .ok (claim, b, parent, fields)) :
    claim = none ∧ reserved cname = none ∧ s.globals cname = none ∧
      ∃ inherited, resolveParent s b.parentName = .ok (parent, inherited) := by
  simp only [checkClass, hnew] at hcheck
  split at hcheck
  · cases hcheck
  rename_i hname
  split at hcheck
  · cases hcheck
  rename_i hbound
  split at hcheck
  · cases hcheck
  rename_i hread
  cases hcheck
  refine ⟨rfl, ?_, by simpa [alreadyBound] using hbound, ?_⟩
  · cases hr : reserved cname with
    | none => rfl
    | some v => simp [hr] at hname
  unfold readBody at hread
  split at hread
  · cases hread
  split at hread
  · cases hread
  rename_i hparent
  split at hread
  · cases hread
  · cases hread
    exact ⟨_, hparent⟩

theorem resolveParent_ok {pn : Option Name} {parent : ℕ} {inherited : List Name}
    (h : resolveParent s pn = .ok (parent, inherited)) : parent = 0 ∨ ∃ t ∈ s.types, t.id = parent := by
  cases pn with
  | none =>
    cases h
    exact .inl rfl
  | some pn =>
    rw [resolveParent] at h
    split at h
    · rename_i ht
      cases h
      exact .inr ⟨_, (typeByName_eq_some ht).1, rfl⟩
    · cases h

theorem enterClass_new {cname : Name} (hnew : s.typeByName cname = none) (parent : ℕ) :
    enterClass s cname s.nextTypeId parent =
      { s with
        types := ⟨s.nextTypeId, cname, parent, none⟩ :: s.types
        nextTypeId := s.nextTypeId + 1
        globals := Function.update s.globals cname (some (.type s.nextTypeId)) } := by
  simp [enterClass, Runtime.registerUserType, hnew, Runtime.bind, Runtime.updateType,
    map_types_of_not hnew]

/-- The generated code fails and the class is taken out again, or its names are bound. -/
theorem runClassCode_new {cname : Name} (hnew : s.typeByName cname = none)
    (hglobal : s.globals cname = none) (parent : ℕ) (fields : List Name) :
    (∃ msg, runClassCode reserved (enterClass s cname s.nextTypeId parent) cname false s.nextTypeId
        fields = ({ s with nextTypeId := s.nextTypeId + 1 }, .error msg)) ∨
      runClassCode reserved (enterClass s cname s.nextTypeId parent) cname false s.nextTypeId fields =
        (s.withClass cname parent fields, .ok ()) := by
  rw [enterClass_new hnew, runClassCode]
  split
  · refine .inl ⟨_, Prod.ext ?_ rfl⟩
    have hback : Function.update (Function.update s.globals cname (some (.type s.nextTypeId))) cname
        none = s.globals := by
      rw [Function.update_idem, ← hglobal, Function.update_eq_self]
    simp [Runtime.unregisterUserType, Runtime.typeById, hback]
  · refine .inr (Prod.ext ?_ rfl)
    simp only [foldl_bind_other, Runtime.updateType, Runtime.withClass, List.map_cons, if_pos,
      map_types_of_not hnew, Function.update_apply]

/-- `defclass` of a new name: its checks fail, or its code, or the class is entered. -/
theorem registerClass_cases (dev : Bool) {cname : Name} (hnew : s.typeByName cname = none)
    (clauses : List Clause) :
    (∃ msg, registerClass reserved dev s cname clauses = (s, .error msg)) ∨
    (∃ msg, registerClass reserved dev s cname clauses =
      ({ s with nextTypeId := s.nextTypeId + 1 }, .error msg)) ∨
    ∃ b parent fields,
      checkClass reserved s cname clauses = .ok (none, b, parent, fields) ∧
      registerClass reserved dev s cname clauses =
        (s.withClass cname parent fields, .ok (s.nextTypeId, parent, b.methods)) := by
  simp only [registerClass, reopen_of_not hnew]
  cases hcheck : checkClass reserved s cname clauses with
  | error msg => exact .inl ⟨msg, rfl⟩
  | ok r =>
    obtain ⟨claim, b, parent, fields⟩ := r
    obtain ⟨rfl, -, hglobal, -⟩ := checkClass_new hnew hcheck
    dsimp only [Option.getD_none, Option.isSome_none]
    rcases @runClassCode_new reserved s cname hnew hglobal parent fields with ⟨msg, hrun⟩ | hrun
    · exact .inr (.inl ⟨msg, by rw [hrun]⟩)
    · exact .inr (.inr ⟨b, parent, fields, rfl, by rw [hrun]⟩)

theorem typeById_withClass (cname : Name) (parent : ℕ) (fields : List Name) (id : ℕ) :
    (s.withClass cname parent fields).typeById id =
      if s.nextTypeId = id then some ⟨s.nextTypeId, cname, parent, some fields⟩ else s.typeById id := by
  rw [Runtime.typeById, Runtime.withClass, List.find?_cons]
  by_cases hid : s.nextTypeId = id
  · simp [hid]
  · simp [hid, Runtime.typeById]

theorem parentOf_withClass (cname : Name) (parent : ℕ) (fields : List Name) (id : ℕ) :
    (s.withClass cname parent fields).parentOf id =
      if s.nextTypeId = id then if parent = 0 then none else some parent else s.parentOf id := by
  rw [Runtime.parentOf, typeById_withClass]
  by_cases hid : s.nextTypeId = id
  · rw [if_pos hid, if_pos hid, Option.bind_some]
  · rw [if_neg hid, if_neg hid, Runtime.parentOf]

theorem parentOf_of_typeById {a : ℕ} {t : UserType} (h : s.typeById a = some t) :
    s.parentOf a = if t.parent = 0 then none else some t.parent := by
  rw [Runtime.parentOf, h, Option.bind_some]

theorem Registered.next_not_mem (hr : Registered s h) {t : UserType} (ht : t ∈ s.types) :
    s.nextTypeId ≠ t.id := (hr.ids t ht).2.ne'

theorem Registered.parentOf_eq (hr : Registered s h) {t : UserType} (ht : t ∈ s.types) :
    s.parentOf t.id = if t.parent = 0 then none else some t.parent :=
  parentOf_of_typeById (hr.byId t ht)

/-- The classes of a line are registered. -/
theorem Registered.of_line (hr : Registered s h) {id : ℕ} {l : List ℕ}
    (hl : Lineage s.parentOf id l) (hid : ∃ t ∈ s.types, t.id = id) :
    ∀ i ∈ l, ∃ t ∈ s.types, t.id = i := by
  induction hl with
  | root _ =>
    intro i hi
    rw [List.mem_singleton] at hi
    exact hi ▸ hid
  | child hp _ ih =>
    obtain ⟨t, ht, rfl⟩ := hid
    rw [hr.parentOf_eq ht] at hp
    split at hp
    · cases hp
    · rename_i h0
      cases hp
      intro i hi
      rcases List.mem_cons.mp hi with rfl | hi
      · exact ⟨t, ht, rfl⟩
      · exact ih (hr.closed t ht h0) i hi

theorem Registered.parentOf_next (hr : Registered s h) : s.parentOf s.nextTypeId = none := by
  have hnone : s.typeById s.nextTypeId = none := by
    simpa [Runtime.typeById] using fun t ht => (hr.next_not_mem ht).symm
  rw [Runtime.parentOf, hnone, Option.bind_none]

/-- The lines of the classes before stay. -/
theorem Registered.line_withClass (hr : Registered s h) {cname : Name} {parent : ℕ} {fields : List Name}
    {id : ℕ} {l : List ℕ} (hl : Lineage s.parentOf id l) (hid : ∃ t ∈ s.types, t.id = id) :
    Lineage (s.withClass cname parent fields).parentOf id l :=
  hl.congr fun i hi => by
    obtain ⟨t, ht, rfl⟩ := hr.of_line hl hid i hi
    rw [parentOf_withClass, if_neg (hr.next_not_mem ht)]

/-- **A new class is registered.** -/
theorem Registered.withClass (hr : Registered s h) {cname : Name} {parent : ℕ} {fields : List Name}
    (hparent : parent = 0 ∨ ∃ t ∈ s.types, t.id = parent)
    (hline : ∀ l, Lineage s.parentOf parent l → l.length < 64) :
    Registered (s.withClass cname parent fields) (.cls s.nextTypeId parent :: h) where
  ids t ht := by
    rcases List.mem_cons.mp ht with rfl | ht
    · exact ⟨hr.next, Nat.lt_succ_self _⟩
    · exact ⟨(hr.ids t ht).1, Nat.lt_succ_of_lt (hr.ids t ht).2⟩
  next := Nat.le_succ_of_le hr.next
  byId t ht := by
    rw [typeById_withClass]
    rcases List.mem_cons.mp ht with rfl | ht
    · rw [if_pos rfl]
    · rw [if_neg (hr.next_not_mem ht), hr.byId t ht]
  parents id := by
    rw [parentOf_withClass, History.parentOf_cls, hr.parents]
    by_cases hid : s.nextTypeId = id
    · by_cases h0 : parent = 0
      · rw [if_neg fun h => h.2 h0, if_pos hid, if_pos h0, ← hid, hr.parentOf_next]
      · rw [if_pos ⟨hid, h0⟩, if_pos hid, if_neg h0]
    · rw [if_neg fun h => hid h.1, if_neg hid]
  classes id := by
    rw [History.isClass_cls, hr.classes]
    simp [Runtime.withClass, eq_comm]
  closed t ht h0 := by
    rcases List.mem_cons.mp ht with rfl | ht
    · obtain ⟨p, hp, hid⟩ := hparent.resolve_left h0
      exact ⟨p, List.mem_cons_of_mem _ hp, hid⟩
    · obtain ⟨p, hp, hid⟩ := hr.closed t ht h0
      exact ⟨p, List.mem_cons_of_mem _ hp, hid⟩
  lines t ht := by
    rcases List.mem_cons.mp ht with rfl | ht
    · by_cases h0 : parent = 0
      · refine ⟨_, .root ?_, by simp⟩
        rw [parentOf_withClass, if_pos rfl, if_pos h0]
      · obtain ⟨p, hp, rfl⟩ := hparent.resolve_left h0
        obtain ⟨l, hl, -⟩ := hr.lines p hp
        refine ⟨_, .child ?_ (hr.line_withClass hl ⟨p, hp, rfl⟩), hline l hl⟩
        rw [parentOf_withClass, if_pos rfl, if_neg h0]
    · obtain ⟨l, hl, hlen⟩ := hr.lines t ht
      exact ⟨l, hr.line_withClass hl ⟨t, ht, rfl⟩, hlen⟩

theorem cname_not_generated (cname : Name) (fields : List Name) :
    cname ∉ generatedNames cname fields := by
  intro hmem
  have hlong : ∀ n ∈ generatedNames cname fields, cname.length < n.length := by
    intro n hn
    rw [generatedNames, List.mem_append, List.mem_flatMap] at hn
    rcases hn with hn | ⟨f, -, hn⟩
    · simp only [List.mem_cons, List.not_mem_nil, or_false] at hn
      rcases hn with rfl | rfl | rfl | rfl <;> simp [lit]
    · simp only [List.mem_cons, List.not_mem_nil, or_false] at hn
      rcases hn with rfl | rfl <;> simp [lit]
  exact absurd (hlong cname hmem) (lt_irrefl _)

/-- **The names of a new class are bound.** -/
theorem Bound.withClass (hb : Bound reserved s h) {cname : Name} {parent : ℕ} {fields : List Name}
    (hplain : reserved cname = none) (hglobal : s.globals cname = none)
    (hunused : ∀ n ∈ generatedNames cname fields, s.Unused n) :
    Bound reserved (s.withClass cname parent fields) (.cls s.nextTypeId parent :: h) := by
  have hkeep : ∀ n g, s.globals n = some g → g ≠ .other →
      (s.withClass cname parent fields).globals n = some g := by
    intro n g hn hg
    rw [Runtime.withClass]
    dsimp only
    rw [if_neg, if_neg, hn]
    · intro he
      rw [he, hglobal] at hn
      cases hn
    · intro hmem
      rcases hunused n (List.contains_iff_mem.mp hmem) with h | h <;> rw [hn] at h <;> cases h
      exact hg rfl
  have hback : ∀ n g, (s.withClass cname parent fields).globals n = some g → g ≠ .other →
      (n = cname ∧ g = .type s.nextTypeId) ∨ s.globals n = some g := by
    intro n g hn hg
    rw [Runtime.withClass] at hn
    dsimp only at hn
    split at hn
    · cases hn
      exact absurd rfl hg
    · split at hn
      · cases hn
        exact .inl ⟨‹_›, rfl⟩
      · exact .inr hn
  refine ⟨fun t ht => ?_, fun n id hn => ?_, fun g hg => ?_, fun n ms hn => ?_, fun n tb d hn => ?_,
    fun g id m hm => (History.isGeneric_cls _ _ g).mpr (hb.methods g id m hm)⟩
  · rcases List.mem_cons.mp ht with rfl | ht
    · refine ⟨hplain, ?_⟩
      rw [Runtime.withClass]
      dsimp only
      rw [if_neg fun hn => cname_not_generated cname fields (List.contains_iff_mem.mp hn), if_pos rfl]
    · obtain ⟨h₁, h₂⟩ := hb.names t ht
      exact ⟨h₁, hkeep _ _ h₂ (by simp)⟩
  · rcases hback n _ hn (by simp) with ⟨rfl, hid⟩ | hn
    · cases hid
      exact ⟨_, List.mem_cons_self, rfl, rfl⟩
    · obtain ⟨t, ht, h₁, h₂⟩ := hb.types n id hn
      exact ⟨t, List.mem_cons_of_mem _ ht, h₁, h₂⟩
  · obtain ⟨h₁, h₂, h₃, ms, h₄, h₅⟩ := hb.generic g ((History.isGeneric_cls _ _ g).mp hg)
    exact ⟨h₁, h₂, hkeep _ _ h₃ (by simp), ms, hkeep _ _ h₄ (by simp), h₅⟩
  · rcases hback n _ hn (by simp) with ⟨-, he⟩ | hn
    · cases he
    · obtain ⟨g, hg, heq⟩ := hb.tables n ms hn
      exact ⟨g, (History.isGeneric_cls _ _ g).mpr hg, heq⟩
  · rcases hback n _ hn (by simp) with ⟨-, he⟩ | hn
    · cases he
    · exact (History.isGeneric_cls _ _ n).mpr (hb.generics n tb d hn)

/-- A method of a class is entered for the class. -/
theorem inv_defmethod_class (hinv : Inv reserved s h) {name cname : Name} (hfits : name.length ≤ 156)
    (hname : h.IsGeneric name) {t : UserType} (ht : t ∈ s.types) (hc : t.name = cname) (params : Form)
    (body : List Form) :
    ∃ s', defmethodcmd reserved s name (.name cname) params body = (s', .ok ()) ∧
      Inv reserved s' (.method name t.id ⟨params, body⟩ :: h) ∧ s'.types = s.types := by
  obtain ⟨hplain, hglobal⟩ := hinv.bound.names t ht
  have hat := hinv.bound.generic name hname
  obtain ⟨methods, htable, -⟩ := hat.table
  refine ⟨_, ?_, hinv.method hname htable t.id ⟨params, body⟩, rfl⟩
  rw [hc] at hplain hglobal
  simp only [defmethodcmd, tableName_eq hfits, hat.tablePlain, htable, evalDval, hplain, hglobal,
    alcKeyToCstr]

/-- **The methods of a class are entered.** -/
theorem inv_emitMethods (hinv : Inv reserved s h) {cname : Name} {parent : ℕ} {ms : List MethodSpec}
    {t : UserType} (ht : t ∈ s.types) (hc : t.name = cname)
    (hclean : CleanMethods reserved cname parent s ms) :
    Inv reserved (defclassEmitMethods reserved cname parent s ms).1
      (methodEvents t.id parent ms ++ h) := by
  induction ms generalizing s h with
  | nil => exact hinv
  | cons m ms ih =>
    rw [CleanMethods] at hclean
    obtain ⟨hok, hrest⟩ := hclean
    obtain ⟨s₁, hmulti, hinv₁, htypes₁⟩ := inv_defmulti hinv hok
    obtain ⟨s₂, hmethod, hinv₂, htypes₂⟩ := inv_defmethod_class hinv₁ hok.fits
      ((History.isGeneric_generic _ _).mpr (.inl rfl)) (htypes₁ ▸ ht) hc m.params
      (m.body.map (rewriteSuper parent))
    rw [hmulti, hmethod] at hrest
    rw [defclassEmitMethods, hmulti]
    dsimp only
    rw [hmethod, methodEvents, List.append_assoc]
    exact ih hinv₂ (htypes₂ ▸ htypes₁ ▸ ht) hrest

/-- **A clean definition keeps the invariant.** -/
theorem inv_run (hinv : Inv reserved s h) {d : Def} (hclean : d.Clean reserved s) :
    Inv reserved (d.run reserved s).1 (d.events reserved s ++ h) := by
  cases d with
  | defclass dev cname clauses =>
    obtain ⟨hnew, hclean⟩ := hclean
    rw [reopen_of_not hnew] at hclean
    rw [Def.run, Def.events]
    rcases @registerClass_cases reserved s dev cname hnew clauses with
      ⟨msg, hrun⟩ | ⟨msg, hrun⟩ | ⟨b, parent, fields, hcheck, hrun⟩
    · rw [hrun]
      exact hinv
    · rw [hrun]
      obtain ⟨⟨h₁, h₂, h₃, h₄, h₅, h₆, h₇⟩, ⟨h₈, h₉, h₁₀, h₁₁, h₁₂, h₁₃⟩⟩ := hinv
      have hat : ∀ g, h.IsGeneric g →
          GenericAt reserved { s with nextTypeId := s.nextTypeId + 1 } h g := fun g hg => by
        obtain ⟨k₁, k₂, k₃, k₄⟩ := h₁₀ g hg
        exact ⟨k₁, k₂, k₃, k₄⟩
      exact ⟨⟨fun t ht => ⟨(h₁ t ht).1, Nat.lt_succ_of_lt (h₁ t ht).2⟩, Nat.le_succ_of_le h₂, h₃, h₄, h₅,
        h₆, h₇⟩, ⟨h₈, h₉, hat, h₁₁, h₁₂, h₁₃⟩⟩
    · obtain ⟨hunused, hline, hmethods⟩ := hclean none b parent fields hcheck
      obtain ⟨-, hplain, hglobal, inherited, hresolve⟩ := checkClass_new hnew hcheck
      have hnext : Inv reserved (s.withClass cname parent fields) (.cls s.nextTypeId parent :: h) :=
        ⟨hinv.registered.withClass (resolveParent_ok hresolve) hline,
          hinv.bound.withClass hplain hglobal hunused⟩
      rw [hrun] at hmethods ⊢
      rw [List.append_assoc]
      exact inv_emitMethods hnext List.mem_cons_self rfl hmethods
  | defmulti name dispatch =>
    obtain ⟨rfl, hok⟩ := hclean
    obtain ⟨s', hrun, hinv', -⟩ := inv_defmulti hinv hok
    rw [Def.run, hrun]
    exact hinv'
  | defmethod name dval params body => exact inv_defmethod hinv hclean

theorem inv_program (hinv : Inv reserved s h) {ds : List Def} (hclean : CleanProgram reserved s ds) :
    Inv reserved (program reserved (s, h) ds).1 (program reserved (s, h) ds).2 := by
  induction ds generalizing s h with
  | nil => exact hinv
  | cons d ds ih =>
    rw [CleanProgram] at hclean
    exact ih (inv_run hinv hclean.1) hclean.2

end Reserved

end Alcove.Classes
