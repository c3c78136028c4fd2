import Alcove.Instances.Machine
import Alcove.Lib.Transition

/-!
# What holds of instances

An instance keeps its class and the fields of the class, and each field holds a value that the type of the
field admitted when it was stored (`InstanceOk`); an operation that would break this raises an error and
changes nothing (`Obeys`).

The code does not keep this in general: the checks let false values slip through, a field may have the name of
the type tag, and while the watchers of an instance run its validator does not (`instance_not_kept`). It does when
no action of the run comes to one of these (`Allowed`).

**Main result:** `instances_kept`.
-/

namespace Alcove.Instances

open Objects Lib

/-! ## The property -/

section Property

variable (kinds : Kinds)

/-- **An instance of a class**, with its fields. -/
structure InstanceOk (s : State) (i : ℕ) (id : UInt32) : Prop where
  isA : isA kinds s.classes s.world (.ref i) id = some true
  fields : ∃ c d, s.classes.byId id = some c ∧ s.world.objAt i = some (.dict d) ∧
    (∀ key, (d.find key).isSome ↔ key = typeTag ∨ key ∈ c.fields.map Field.name) ∧
    ∀ f ∈ c.fields, ∃ v, d.find f.name = some v ∧ ∃ e ∈ s.stored, e.obj = i ∧ e.field = f.name ∧
      e.value = v ∧ Admits kinds e.classes e.world f.type v

/-- The change that an operation is about to make. -/
def attempted (s : State) : Action → Option (ℕ × Change)
  | .assoc i k v _ => (s.world.keyToCstr k).map fun ks => (i, .put ks v)
  | .setter id key o v _ =>
    match o with
    | .ref i =>
      if isA kinds s.classes s.world o id = some true then
        (s.world.keyToCstr key).map fun ks => (i, .put ks v)
      else none
    | _ => none
  | .dissoc i k _ => (s.world.keyToCstr k).map fun ks => (i, .drop ks)
  | .conjOne i x _ =>
    let k := s.world.car x
    let v := s.world.car (s.world.cdr x)
    if (s.world.pairOf x).isNone ∨ k = .null ∨ v = .null ∨ s.world.isError k ∨ s.world.isError v then none
    else (s.world.keyToCstr k).map fun ks => (i, .put ks v)
  | _ => none

/-- The change leaves no instance of the class. -/
def Breaks (s : State) (c : ClassInfo) : Change → Prop
  | .put key v => ∀ f ∈ c.fields, f.name = key → ¬Admits kinds s.classes s.world f.type v
  | .drop key => key = typeTag ∨ key ∈ c.fields.map Field.name

/-- **What an action may do**: one that would break an instance raises an error and changes nothing. -/
structure Obeys (s : State) (a : Action) (s' : State) (o : Outcome) : Prop where
  rejects : ∀ (i : ℕ) (ch : Change), attempted kinds s a = some (i, ch) →
    ∀ id, (i, id) ∈ s.instances → ∀ c, s.classes.byId id = some c → Breaks kinds s c ch →
      s' = s ∧ ∃ e, o = .ret (.raise e)
  defined : o ≠ .undefined

/-! ## The condition -/

/-- A value for an instance that is written to: the hooks of the instance are on, and the check of the
value ends and lets nothing slip. -/
def WriteAllowed (s : State) (i : ℕ) (key : Option CStr) (v : Ptr) : Prop :=
  ∀ id, (i, id) ∈ s.instances → s.world.watched i ∧ ∀ c, s.classes.byId id = some c →
    ∀ f ∈ c.fields, key = some f.name →
      ¬Slips kinds s.classes s.world f.type v ∧ (check kinds s.classes s.world f.type v).isSome

/-- **The actions that come to none of the defects.** -/
def Allowed (s : State) : Action → Prop
  | .define d => typeTag ∉ d.own.map Field.name
  | .construct id vals _ _ => ∀ c, s.classes.byId id = some c →
    ∀ fv ∈ c.fields.zip vals, ¬Slips kinds s.classes s.world fv.1.type fv.2
  | .assoc i k v _ => WriteAllowed kinds s i (s.world.keyToCstr k) v
  | .setter _ key o v _ => ∀ i, o = .ref i → WriteAllowed kinds s i (s.world.keyToCstr key) v
  | .dissoc i _ _ => ∀ id, (i, id) ∈ s.instances → s.world.watched i
  | .conjOne i x _ => WriteAllowed kinds s i (s.world.keyToCstr (s.world.car x))
    (s.world.car (s.world.cdr x))
  | .return r => s.world.isError r ∨ ∀ d ∈ s.dispatches.head?, s.world.watchTab = d.tab ∧
    (d.rest = [] ∨ s.world.fns d.obj = [] ∨ d.rest <:+ s.world.fns d.obj)
  | _ => True

end Property

/-! ## The invariant -/

/-- An instance, with the hook that guards it. -/
structure Guarded (kinds : Kinds) (s : State) (i : ℕ) (id : UInt32) : Prop where
  cls : ∃ c, s.classes.byId id = some c ∧ s.classes.byValidator c.validator = some c ∧
    (∃ fns, s.world.watchFind i = some ⟨fns, some c.validator⟩) ∧
    ∃ d : Dict Ptr, s.world.objAt i = some (.dict d) ∧ d.Ok ∧ d.find typeTag = some (.type id) ∧
      (∀ key, (d.find key).isSome ↔ key = typeTag ∨ key ∈ c.fields.map Field.name) ∧
      ∀ f ∈ c.fields, ∃ v, d.find f.name = some v ∧ ∃ e ∈ s.stored, e.obj = i ∧ e.field = f.name ∧
        e.value = v ∧ Admits kinds e.classes e.world f.type v

/-- **The invariant**: no field has the name of the type tag, no class the id 0, validators are distinct,
and every instance is guarded. -/
structure Inv (kinds : Kinds) (s : State) : Prop where
  fields : ∀ c ∈ s.classes, typeTag ∉ c.fields.map Field.name ∧ typeUserMin ≤ c.id
  validators : ∀ c ∈ s.classes, s.classes.byValidator c.validator = some c
  instances : ∀ p ∈ s.instances, Guarded kinds s p.1 p.2

section Steps

variable {kinds : Kinds} {reserved : CStr → Bool} {s s' : State} {i j : ℕ} {id : UInt32} {o : Outcome}

theorem byId_mem {classes : Registry} {c : ClassInfo} (h : classes.byId id = some c) :
    c ∈ classes ∧ c.id = id :=
  ⟨List.mem_of_find?_eq_some h, by simpa using List.find?_some h⟩

theorem isA_of_tag {classes : Registry} {w : World} {d : Dict Ptr} (hid : (classes.byId id).isSome)
    (hne : id ≠ 0) (hd : w.objAt i = some (.dict d)) (htag : d.find typeTag = some (.type id)) :
    isA kinds classes w (.ref i) id = some true := by
  have huser : dictUserTypeId classes w (.ref i) = id := by
    simp [dictUserTypeId, World.look, hd, htag, hid]
  simp [isA, getActualTypeId, huser, hne]

theorem Guarded.instanceOk (hinv : Inv kinds s) (h : Guarded kinds s i id) :
    InstanceOk kinds s i id := by
  obtain ⟨c, hc, -, -, d, hd, -, htag, hkeys, hvals⟩ := h.cls
  obtain ⟨hmem, rfl⟩ := byId_mem hc
  have hne : c.id ≠ 0 := by
    intro h0
    have hmin := (hinv.fields c hmem).2
    rw [h0] at hmin
    exact absurd hmin (by decide)
  exact ⟨isA_of_tag (by rw [hc]; rfl) hne hd htag, c, d, hc, hd, hkeys, hvals⟩

/-- An instance depends on its class, its table, its validator and what was stored. -/
theorem Guarded.congr (h : Guarded kinds s i id)
    (hid : ∀ c, s.classes.byId id = some c → s.classes.byValidator c.validator = some c →
      s'.classes.byId id = some c ∧ s'.classes.byValidator c.validator = some c)
    (hobj : s'.world.objAt i = s.world.objAt i)
    (hslot : (s'.world.watchFind i).map Hooks.validator = (s.world.watchFind i).map Hooks.validator)
    (hst : s.stored ⊆ s'.stored) : Guarded kinds s' i id := by
  obtain ⟨c, hc, hv, ⟨fns, hfns⟩, d, hd, hok, htag, hkeys, hvals⟩ := h.cls
  obtain ⟨hc', hv'⟩ := hid c hc hv
  rw [hfns, Option.map_some, Option.map_eq_some_iff] at hslot
  obtain ⟨⟨fns', v'⟩, hslot', rfl⟩ := hslot
  refine ⟨c, hc', hv', ⟨fns', hslot'⟩, d, hobj.trans hd, hok, htag, hkeys, fun f hf => ?_⟩
  obtain ⟨v, hfind, e, he, hrest⟩ := hvals f hf
  exact ⟨v, hfind, e, hst he, hrest⟩

/-! ### Writes -/

theorem objAt_store (w : World) (ob : Object) :
    (w.store i ob).objAt j = if i = j then (w.objAt i).map fun _ => ob else w.objAt j := by
  rw [World.objAt, World.store, List.getElem?_modify]
  by_cases hij : i = j
  · subst hij
    simp [World.objAt, Function.comp_def]
  · simp [hij, World.objAt]

/-- A write calls watchers at most; the tables that it leaves are those after the change. -/
theorem write_frame (ch : Change) :
    (s.write i ch).1.classes = s.classes ∧ (s.write i ch).1.instances = s.instances ∧
      (s.write i ch).1.stored = s.record i ch ∧
      (∀ j, (s.write i ch).1.world.watchFind j = s.world.watchFind j) ∧
      ∀ j, (s.write i ch).1.world.objAt j =
        (s.world.store i (.dict (ch.apply (s.world.tableAt i)))).objAt j := by
  unfold State.write
  split
  · exact ⟨rfl, rfl, rfl, fun j => by simp, fun j => rfl⟩
  · exact ⟨rfl, rfl, rfl, fun j => by simp, fun j => by simp⟩

theorem write_ne_undefined (ch : Change) : (s.write i ch).2 ≠ .undefined := by
  unfold State.write
  split <;> simp

theorem record_subset (ch : Change) : s.stored ⊆ s.record i ch := by
  cases ch with
  | put key v => exact List.subset_cons_self _ _
  | drop key => exact List.Subset.refl _

theorem Guarded.write_other (h : Guarded kinds s j id) (hij : i ≠ j) (ch : Change) :
    Guarded kinds (s.write i ch).1 j id := by
  obtain ⟨hcls, -, hst, hslot, hobj⟩ := write_frame (s := s) (i := i) ch
  refine h.congr (fun c hc hv => by rw [hcls]; exact ⟨hc, hv⟩) ?_ (by rw [hslot])
    (hst ▸ record_subset ch)
  rw [hobj, objAt_store, if_neg hij]

/-- **A field that gets a value of its type.** -/
theorem Guarded.write (hinv : Inv kinds s) (h : Guarded kinds s i id) {c : ClassInfo}
    (hc : s.classes.byId id = some c) {f : Field} (hf : f ∈ c.fields) {v : Ptr}
    (hv : Admits kinds s.classes s.world f.type v) :
    Guarded kinds (s.write i (.put f.name v)).1 i id := by
  obtain ⟨hcls, -, hst, hslot, hobj⟩ := write_frame (s := s) (i := i) (.put f.name v)
  obtain ⟨c', hc', hval, ⟨fns, hfns⟩, d, hd, hok, htag, hkeys, hvals⟩ := h.cls
  rw [hc] at hc'
  cases hc'
  have hname : f.name ≠ typeTag := by
    intro heq
    exact (hinv.fields c (byId_mem hc).1).1 (heq ▸ List.mem_map_of_mem hf)
  have htab : s.world.tableAt i = d := by simp [World.tableAt, hd]
  refine ⟨c, by rw [hcls]; exact hc, by rw [hcls]; exact hval, ⟨fns, by rw [hslot]; exact hfns⟩,
    d.set f.name v, ?_, hok.set, ?_, fun key => ?_, fun g hg => ?_⟩
  · rw [hobj, objAt_store, if_pos rfl, hd, htab]
    rfl
  · rw [hok.find_set, if_neg (Ne.symm hname)]
    exact htag
  · rw [hok.find_set]
    split
    · rename_i hkey
      subst hkey
      simp [List.mem_map_of_mem hf]
    · exact hkeys key
  · rw [hok.find_set, hst]
    by_cases hgf : g.name = f.name
    · have hgf' : g = f := List.inj_on_of_nodup_map c.distinct hg hf hgf
      subst hgf'
      exact ⟨v, if_pos rfl, _, List.mem_cons_self, rfl, rfl, rfl, hv⟩
    · obtain ⟨u, hu, e, he, hrest⟩ := hvals g hg
      exact ⟨u, by rw [if_neg hgf]; exact hu, e, List.mem_cons_of_mem _ he, hrest⟩

/-! ### The validator -/

theorem validate_guarded (h : Guarded kinds s i id) {c : ClassInfo} (hc : s.classes.byId id = some c)
    (fault : Bool) (rule : ClassInfo → Ruling) :
    validate s i fault rule = some (if fault then .reject faultError else rule c) := by
  obtain ⟨c', hc', hval, ⟨fns, hfns⟩, -⟩ := h.cls
  rw [hc] at hc'
  cases hc'
  simp [validate, hfns, hval]

/-- A change of an instance, with its hooks on. -/
theorem mutate_guarded (h : Guarded kinds s i id) {c : ClassInfo} (hc : s.classes.byId id = some c)
    (hw : s.world.watched i) {fault : Bool} {rule : ClassInfo → Ruling} {ch : Change}
    (he : s.mutate i fault rule ch = some (s', o)) :
    ((s', o) = s.write i ch ∧ rule c = .allow) ∨ (s' = s ∧ ∃ e, o = .ret (.raise e)) ∨
      (s' = s ∧ o = .hang ∧ rule c = .hang) := by
  rw [State.mutate, if_pos hw, validate_guarded h hc] at he
  cases fault with
  | true =>
    cases he
    exact .inr (.inl ⟨rfl, _, rfl⟩)
  | false =>
    simp only [Bool.false_eq_true, if_false] at he
    split at he
    · cases he
    · rename_i hallow
      exact .inl ⟨(Option.some.inj he).symm, Option.some.inj hallow⟩
    · cases he
      exact .inr (.inl ⟨rfl, _, rfl⟩)
    · rename_i hhang
      cases he
      exact .inr (.inr ⟨rfl, rfl, Option.some.inj hhang⟩)

/-- A change of any hash-map. -/
theorem mutate_cases {fault : Bool} {rule : ClassInfo → Ruling} {ch : Change}
    (he : s.mutate i fault rule ch = some (s', o)) :
    (s', o) = s.write i ch ∨ s' = s ∧ o ≠ .undefined := by
  unfold State.mutate at he
  split at he
  · split at he
    · cases he
    · exact .inl (Option.some.inj he).symm
    · cases he
      exact .inr ⟨rfl, by simp⟩
    · cases he
      exact .inr ⟨rfl, by simp⟩
  · exact .inl (Option.some.inj he).symm

theorem validateAssoc_eq_allow {c : ClassInfo} {k v : Ptr} {ks : CStr}
    (hk : s.world.keyToCstr k = some ks) (h : validateAssoc kinds s c k v = .allow) :
    ∃ f ∈ c.fields, f.name = ks ∧ check kinds s.classes s.world f.type v = some true := by
  unfold validateAssoc at h
  split at h
  · rename_i text htext
    rw [World.keyToCstr, htext] at hk
    have hks : text = ks := Option.some.inj hk
    subst hks
    split at h
    · cases h
    · rename_i f hf
      have hname : f.name = text := by simpa using List.find?_some hf
      split at h
      · rename_i hcheck
        exact ⟨f, List.mem_of_find?_eq_some hf, hname, hcheck⟩
      · cases h
      · cases h
  · cases h

theorem validateAssoc_eq_hang {c : ClassInfo} {k v : Ptr} {ks : CStr}
    (hk : s.world.keyToCstr k = some ks) (h : validateAssoc kinds s c k v = .hang) :
    ∃ f ∈ c.fields, f.name = ks ∧ check kinds s.classes s.world f.type v = none := by
  unfold validateAssoc at h
  split at h
  · rename_i text htext
    rw [World.keyToCstr, htext] at hk
    have hks : text = ks := Option.some.inj hk
    subst hks
    split at h
    · cases h
    · rename_i f hf
      have hname : f.name = text := by simpa using List.find?_some hf
      split at h
      · cases h
      · cases h
      · rename_i hcheck
        exact ⟨f, List.mem_of_find?_eq_some hf, hname, hcheck⟩
  · cases h

/-- What a change of a hash-map does to the instances, when it is one that the rule of `assoc!` or
`dissoc!` lets through. -/
theorem Inv.write (hinv : Inv kinds s) {ch : Change}
    (hch : ∀ id, (i, id) ∈ s.instances → ∃ c, s.classes.byId id = some c ∧ ∃ f ∈ c.fields, ∃ v,
      ch = .put f.name v ∧ Admits kinds s.classes s.world f.type v) :
    Inv kinds (s.write i ch).1 := by
  obtain ⟨hcls, hinst, -⟩ := write_frame (s := s) (i := i) ch
  refine ⟨by rw [hcls]; exact hinv.fields, by rw [hcls]; exact hinv.validators, fun p hp => ?_⟩
  rw [hinst] at hp
  have hg := hinv.instances p hp
  by_cases hij : i = p.1
  · obtain ⟨c, hc, f, hf, v, rfl, hv⟩ := hch p.2 (hij ▸ hp)
    rw [hij]
    exact hg.write hinv hc hf hv
  · exact hg.write_other hij ch

theorem Inv.mutate (hinv : Inv kinds s) {fault : Bool} {rule : ClassInfo → Ruling} {ch : Change}
    (hw : ∀ id, (i, id) ∈ s.instances → s.world.watched i ∧ ∀ c, s.classes.byId id = some c →
      rule c = .allow → ∃ f ∈ c.fields, ∃ v, ch = .put f.name v ∧
        Admits kinds s.classes s.world f.type v)
    (he : s.mutate i fault rule ch = some (s', o)) : Inv kinds s' := by
  rcases mutate_cases he with heq | ⟨rfl, -⟩
  · rw [show s' = (s.write i ch).1 from congrArg Prod.fst heq]
    by_cases hsame : (s.write i ch).1 = s
    · rw [hsame]
      exact hinv
    refine hinv.write fun id hid => ?_
    have hg := hinv.instances _ hid
    obtain ⟨c, hc, -⟩ := hg.cls
    obtain ⟨hwatched, hrule⟩ := hw id hid
    refine ⟨c, hc, ?_⟩
    rcases mutate_guarded hg hc hwatched he with ⟨-, hallow⟩ | ⟨hs, -⟩ | ⟨hs, -⟩
    · exact hrule c hc hallow
    · exact absurd ((congrArg Prod.fst heq).symm.trans hs) hsame
    · exact absurd ((congrArg Prod.fst heq).symm.trans hs) hsame
  · exact hinv

/-! ### `assoc!` and `dissoc!` -/

/-- What the rule of `assoc!` lets through is admitted. -/
theorem allow_admits {k v : Ptr} {ks : CStr} (hk : s.world.keyToCstr k = some ks)
    (hw : WriteAllowed kinds s i (some ks) v) (hid : (i, id) ∈ s.instances) {c : ClassInfo}
    (hc : s.classes.byId id = some c) (h : validateAssoc kinds s c k v = .allow) :
    ∃ f ∈ c.fields, f.name = ks ∧ Admits kinds s.classes s.world f.type v := by
  obtain ⟨f, hf, rfl, hcheck⟩ := validateAssoc_eq_allow hk h
  obtain ⟨hslip, -⟩ := (hw id hid).2 c hc f hf rfl
  exact ⟨f, hf, rfl, (admits_or_slips f.type v hcheck).resolve_right hslip⟩

theorem Inv.assocBang (hinv : Inv kinds s) {k v : Ptr} {fault : Bool}
    (hw : WriteAllowed kinds s i (s.world.keyToCstr k) v)
    (he : assocBang kinds s i k v fault = some (s', o)) : Inv kinds s' := by
  unfold Instances.assocBang at he
  split at he
  · split at he
    · cases he
      exact hinv
    · rename_i ks hks
      rw [hks] at hw
      refine hinv.mutate (fun id hid => ⟨(hw id hid).1, fun c hc hallow => ?_⟩) he
      obtain ⟨f, hf, rfl, ha⟩ := allow_admits hks hw hid hc hallow
      exact ⟨f, hf, v, rfl, ha⟩
  · cases he
    exact hinv

theorem assocBang_ne_undefined {k v : Ptr} {fault : Bool}
    (he : assocBang kinds s i k v fault = some (s', o)) : o ≠ .undefined := by
  unfold Instances.assocBang at he
  split at he
  · split at he
    · cases he
      simp
    · rcases mutate_cases he with heq | ⟨-, hne⟩
      · rw [show o = (s.write i _).2 from congrArg Prod.snd heq]
        exact write_ne_undefined _
      · exact hne
  · cases he
    simp

/-- **A write that would break an instance is rejected.** -/
theorem assocBang_rejects (hinv : Inv kinds s) {k v : Ptr} {fault : Bool} {ks : CStr}
    (hk : s.world.keyToCstr k = some ks) (hw : WriteAllowed kinds s i (some ks) v)
    (hid : (i, id) ∈ s.instances) {c : ClassInfo} (hc : s.classes.byId id = some c)
    (hb : Breaks kinds s c (.put ks v)) (he : assocBang kinds s i k v fault = some (s', o)) :
    s' = s ∧ ∃ e, o = .ret (.raise e) := by
  unfold Instances.assocBang at he
  split at he
  · rw [hk] at he
    rcases mutate_guarded (hinv.instances _ hid) hc (hw id hid).1 he with ⟨-, hallow⟩ | h | ⟨-, -, hhang⟩
    · obtain ⟨f, hf, hname, ha⟩ := allow_admits hk hw hid hc hallow
      exact absurd ha (hb f hf hname)
    · exact h
    · obtain ⟨f, hf, rfl, hcheck⟩ := validateAssoc_eq_hang hk hhang
      have hends := ((hw id hid).2 c hc f hf rfl).2
      rw [hcheck] at hends
      cases hends
  · cases he
    exact ⟨rfl, _, rfl⟩

theorem Inv.dissocBang (hinv : Inv kinds s) {k : Ptr} {fault : Bool}
    (hw : ∀ id, (i, id) ∈ s.instances → s.world.watched i)
    (he : dissocBang s i k fault = some (s', o)) : Inv kinds s' := by
  unfold Instances.dissocBang at he
  split at he
  · split at he
    · cases he
      exact hinv
    · exact hinv.mutate (fun id hid => ⟨hw id hid, fun c _ h => by cases h⟩) he
  · cases he
    exact hinv

theorem dissocBang_ne_undefined {k : Ptr} {fault : Bool}
    (he : dissocBang s i k fault = some (s', o)) : o ≠ .undefined := by
  unfold Instances.dissocBang at he
  split at he
  · split at he
    · cases he
      simp
    · rcases mutate_cases he with heq | ⟨-, hne⟩
      · rw [show o = (s.write i _).2 from congrArg Prod.snd heq]
        exact write_ne_undefined _
      · exact hne
  · cases he
    simp

/-- **No field can be deleted.** -/
theorem dissocBang_rejects (hinv : Inv kinds s) {k : Ptr} {fault : Bool} {ks : CStr}
    (hk : s.world.keyToCstr k = some ks) (hw : s.world.watched i) (hid : (i, id) ∈ s.instances)
    {c : ClassInfo} (hc : s.classes.byId id = some c)
    (he : dissocBang s i k fault = some (s', o)) : s' = s ∧ ∃ e, o = .ret (.raise e) := by
  unfold Instances.dissocBang at he
  split at he
  · rw [hk] at he
    rcases mutate_guarded (hinv.instances _ hid) hc hw he with ⟨-, h⟩ | h | ⟨-, -, h⟩
    · cases h
    · exact h
    · cases h
  · cases he
    exact ⟨rfl, _, rfl⟩

/-- An entry of `conj` or `into` is an error, or an `assoc!`. -/
theorem conjOne_cases {x : Ptr} {fault : Bool} (he : conjOne kinds s i x fault = some (s', o)) :
    (attempted kinds s (.conjOne i x fault) = none ∧ s' = s ∧ o ≠ .undefined) ∨
      assocBang kinds s i (s.world.car x) (s.world.car (s.world.cdr x)) fault = some (s', o) := by
  unfold Instances.conjOne at he
  simp only at he
  split at he
  · rename_i h
    cases he
    refine .inl ⟨?_, rfl, by simp⟩
    rcases h with h | h | h <;> simp [attempted, h]
  · split at he
    · rename_i h
      cases he
      exact .inl ⟨by simp [attempted, h], rfl, by simp⟩
    · split at he
      · rename_i h
        cases he
        exact .inl ⟨by simp [attempted, h], rfl, by simp⟩
      · exact .inr he

theorem attempted_setter {key p v : Ptr} {fault : Bool} {ch : Change}
    (h : attempted kinds s (.setter id key p v fault) = some (j, ch)) :
    p = .ref j ∧ ∃ ks, s.world.keyToCstr key = some ks ∧ ch = .put ks v := by
  cases p with
  | ref i =>
    simp only [attempted] at h
    split at h
    · obtain ⟨ks, hks, heq⟩ := Option.map_eq_some_iff.mp h
      cases heq
      exact ⟨rfl, ks, hks, rfl⟩
    · cases h
  | _ => cases h

theorem attempted_conjOne {x : Ptr} {fault : Bool} {ch : Change}
    (h : attempted kinds s (.conjOne i x fault) = some (j, ch)) : j = i ∧ ∃ ks,
      s.world.keyToCstr (s.world.car x) = some ks ∧
        ch = .put ks (s.world.car (s.world.cdr x)) := by
  unfold attempted at h
  simp only at h
  split at h
  · cases h
  · obtain ⟨ks, hks, heq⟩ := Option.map_eq_some_iff.mp h
    cases heq
    exact ⟨rfl, ks, hks, rfl⟩

/-! ### Constructors -/

theorem checkFields_eq_allow {l : List (Field × Ptr)} (h : checkFields kinds s l = .allow) :
    ∀ fv ∈ l, check kinds s.classes s.world fv.1.type fv.2 = some true := by
  induction l with
  | nil => simp
  | cons fv l ih =>
    obtain ⟨f, v⟩ := fv
    unfold checkFields at h
    split at h
    · rename_i hcheck
      intro gv hgv
      rcases List.mem_cons.mp hgv with rfl | hgv
      · exact hcheck
      · exact ih h gv hgv
    · cases h
    · cases h

/-- A field of a class gets one of the values. -/
theorem mem_zip_of_mem {c : ClassInfo} {vals : List Ptr} (hlen : vals.length = c.fields.length)
    {f : Field} (hf : f ∈ c.fields) : ∃ v, (f, v) ∈ c.fields.zip vals := by
  obtain ⟨n, hn, rfl⟩ := List.mem_iff_getElem.mp hf
  exact ⟨vals[n], List.mem_iff_getElem.mpr ⟨n, by simp [hlen, hn], by simp⟩⟩

theorem map_zip_names {c : ClassInfo} {vals : List Ptr} (hlen : vals.length = c.fields.length) :
    ((c.fields.zip vals).map fun fv => (fv.1.name, fv.2)).map Prod.fst = c.fields.map Field.name := by
  have hfst : (c.fields.zip vals).map Prod.fst = c.fields := List.map_fst_zip (by omega)
  conv_rhs => rw [← hfst, List.map_map]
  rw [List.map_map]
  rfl

/-- **A new instance.** -/
theorem guarded_construct {c : ClassInfo} {vals : List Ptr} {tab : ℕ}
    (hc : s.classes.byId c.id = some c) (hv : s.classes.byValidator c.validator = some c)
    (htag : typeTag ∉ c.fields.map Field.name) (hlen : vals.length = c.fields.length)
    (hvals : ∀ fv ∈ c.fields.zip vals, Admits kinds s.classes s.world fv.1.type fv.2)
    (instances : List (ℕ × UInt32)) :
    Guarded kinds { s with
      world := ⟨s.world.objs ++ [⟨.dict (newTable c vals), true, some ⟨[], some c.validator⟩⟩], tab⟩
      instances := instances
      stored := (c.fields.zip vals).map
        (fun fv => ⟨s.world.objs.length, fv.1.name, fv.2, s.classes, s.world⟩) ++ s.stored }
      s.world.objs.length c.id := by
  have hnodup : (((typeTag, Ptr.type c.id) ::
      (c.fields.zip vals).map fun fv => (fv.1.name, fv.2)).map Prod.fst).Nodup := by
    rw [List.map_cons, map_zip_names hlen]
    exact List.nodup_cons.mpr ⟨htag, c.distinct⟩
  refine ⟨c, hc, hv, ⟨[], by simp [World.watchFind]⟩, newTable c vals, by simp [World.objAt],
    Dict.ok_ofList _, ?_, fun key => ?_, fun f hf => ?_⟩
  · exact (Dict.find_ofList_eq_some hnodup).mpr List.mem_cons_self
  · rw [newTable, Dict.find_ofList_isSome, List.map_cons, map_zip_names hlen, List.mem_cons]
  · obtain ⟨v, hfv⟩ := mem_zip_of_mem hlen hf
    refine ⟨v, (Dict.find_ofList_eq_some hnodup).mpr (List.mem_cons_of_mem _ ?_), _,
      List.mem_append_left _ (List.mem_map_of_mem hfv), rfl, rfl, rfl, hvals _ hfv⟩
    exact List.mem_map_of_mem (f := fun fv : Field × Ptr => (fv.1.name, fv.2)) hfv

theorem getElem?_append_objs {w : World} {es : List Entry} (h : (w.objAt i).isSome) :
    (w.objs ++ es)[i]? = w.objs[i]? := by
  have hlt : i < w.objs.length := by
    by_contra hge
    simp [World.objAt, List.getElem?_eq_none (by omega : w.objs.length ≤ i)] at h
  exact List.getElem?_append_left hlt

theorem Guarded.isSome_objAt (h : Guarded kinds s i id) : (s.world.objAt i).isSome := by
  obtain ⟨c, -, -, -, d, hd, -⟩ := h.cls
  rw [hd]
  rfl

/-- Instances whose entries are as before. -/
theorem Guarded.of_entry (h : Guarded kinds s i id)
    (hid : ∀ c, s.classes.byId id = some c → s.classes.byValidator c.validator = some c →
      s'.classes.byId id = some c ∧ s'.classes.byValidator c.validator = some c)
    (hentry : s'.world.objs[i]? = s.world.objs[i]?) (hst : s.stored ⊆ s'.stored) :
    Guarded kinds s' i id :=
  h.congr hid (by rw [World.objAt, World.objAt, hentry])
    (by rw [World.watchFind, World.watchFind, hentry]) hst

theorem Inv.construct (hinv : Inv kinds s) {vals : List Ptr} {fault : Bool} {tab : ℕ}
    (hok : Allowed kinds s (.construct id vals fault tab))
    (he : construct kinds s id vals fault tab = some (s', o)) : Inv kinds s' := by
  unfold Instances.construct at he
  split at he
  · cases he
  · rename_i c hc
    split at he
    · cases he
      exact hinv
    · rename_i hlen
      split at he
      · cases he
        exact hinv
      · split at he
        · cases he
          exact hinv
        · cases he
          exact hinv
        · rename_i hallow
          cases he
          obtain ⟨hmem, rfl⟩ := byId_mem hc
          refine ⟨hinv.fields, hinv.validators, fun p hp => ?_⟩
          rcases List.mem_cons.mp hp with rfl | hp
          · refine guarded_construct hc (hinv.validators c hmem) (hinv.fields c hmem).1 (by omega)
              (fun fv hfv => ?_) _
            exact (admits_or_slips _ _ (checkFields_eq_allow hallow fv hfv)).resolve_right
              (hok c hc fv hfv)
          · have hg := hinv.instances p hp
            exact hg.of_entry (fun c hc hv => ⟨hc, hv⟩) (getElem?_append_objs hg.isSome_objAt)
              (List.subset_append_right _ _)

theorem construct_ne_undefined {vals : List Ptr} {fault : Bool} {tab : ℕ}
    (he : construct kinds s id vals fault tab = some (s', o)) : o ≠ .undefined := by
  unfold Instances.construct at he
  split at he
  · cases he
  · split at he
    · cases he
      simp
    · split at he
      · cases he
        simp
      · split at he <;> cases he <;> simp

/-! ### Classes -/

theorem defclass_eq_some {d : Decl} {c : ClassInfo} (h : defclass reserved s.classes d = some c) :
    c.id = d.id ∧ c.validator = d.validator ∧ typeUserMin ≤ d.id ∧ s.classes.byId d.id = none ∧
      s.classes.byValidator d.validator = none ∧
      ∃ inherited, c.fields = inherited ++ d.own ∧
        (inherited = [] ∨ ∃ p ∈ s.classes, inherited = p.fields) := by
  unfold defclass at h
  simp only at h
  split at h
  · cases h
  · rename_i parent inherited hres
    split at h
    · rename_i hcond
      cases h
      refine ⟨rfl, rfl, hcond.2.2.2.2.1, hcond.2.2.2.2.2.1, hcond.2.2.2.2.2.2, inherited, rfl, ?_⟩
      split at hres
      · cases hres
        exact .inl rfl
      · obtain ⟨p, hp, heq⟩ := Option.map_eq_some_iff.mp hres
        cases heq
        exact .inr ⟨p, List.mem_of_find?_eq_some hp, rfl⟩
    · cases h

/-- A class that is added is not found in place of another one. -/
theorem find?_cons_of_ne {classes : Registry} {c c' : ClassInfo} {P : ClassInfo → Bool}
    (h : classes.find? P = some c) (hne : P c' = false) : (c' :: classes).find? P = some c := by
  rw [List.find?_cons, hne]
  exact h

theorem Inv.define (hinv : Inv kinds s) {d : Decl} {c : ClassInfo}
    (hok : typeTag ∉ d.own.map Field.name) (h : defclass reserved s.classes d = some c) :
    Inv kinds { s with classes := c :: s.classes } := by
  obtain ⟨hid, hval, hmin, hfresh, hfreshv, inherited, hfields, hinh⟩ := defclass_eq_some h
  have hkeep : ∀ c', s.classes.byValidator c'.validator = some c' →
      Registry.byValidator (c :: s.classes) c'.validator = some c' := by
    intro c' hc'
    refine find?_cons_of_ne hc' (decide_eq_false fun heq => ?_)
    rw [← hval, heq, hc'] at hfreshv
    cases hfreshv
  refine ⟨fun c' hc' => ?_, fun c' hc' => ?_, fun p hp => ?_⟩
  · rcases List.mem_cons.mp hc' with rfl | hc'
    · refine ⟨?_, hid ▸ hmin⟩
      rw [hfields, List.map_append, List.mem_append, not_or]
      refine ⟨?_, hok⟩
      rcases hinh with rfl | ⟨p, hp, rfl⟩
      · simp
      · exact (hinv.fields p hp).1
    · exact hinv.fields c' hc'
  · rcases List.mem_cons.mp hc' with rfl | hc'
    · simp [Registry.byValidator]
    · exact hkeep c' (hinv.validators c' hc')
  · refine (hinv.instances p hp).of_entry (fun c' hc' hv' => ⟨?_, hkeep c' hv'⟩) rfl
      (List.Subset.refl _)
    refine find?_cons_of_ne hc' (decide_eq_false fun heq => ?_)
    rw [← hid, heq, hc'] at hfresh
    cases hfresh

/-! ### Hooks -/

/-- Hooks come and go, but not the validators. -/
theorem Inv.hooks (hinv : Inv kinds s) {w : World} (hobj : ∀ j, w.objAt j = s.world.objAt j)
    (hslot : ∀ j, (s.instances.any fun p => p.1 = j) →
      (w.watchFind j).map Hooks.validator = (s.world.watchFind j).map Hooks.validator)
    (ds : List Dispatch) : Inv kinds { s with world := w, dispatches := ds } := by
  refine ⟨hinv.fields, hinv.validators, fun p hp => ?_⟩
  refine (hinv.instances p hp).congr (fun c hc hv => ⟨hc, hv⟩) (hobj p.1) (hslot p.1 ?_)
    (List.Subset.refl _)
  exact List.any_eq_true.mpr ⟨p, hp, by simp⟩

theorem objAt_modify {w : World} {f : Entry → Entry} {tab : ℕ} (hf : ∀ e, (f e).object = e.object) :
    (⟨w.objs.modify i f, tab⟩ : World).objAt j = w.objAt j := by
  rw [World.objAt, World.objAt, List.getElem?_modify]
  by_cases hij : i = j
  · simp [hij, Function.comp_def, hf]
  · simp [hij]

theorem validator_modify {w : World} {f : Entry → Entry} {tab : ℕ}
    (hf : i = j → ∀ e, w.objs[i]? = some e →
      (f e).slot.map Hooks.validator = e.slot.map Hooks.validator) :
    ((⟨w.objs.modify i f, tab⟩ : World).watchFind j).map Hooks.validator =
      (w.watchFind j).map Hooks.validator := by
  rw [World.watchFind, World.watchFind, List.getElem?_modify]
  by_cases hij : i = j
  · subst hij
    cases he : w.objs[i]? with
    | none => rfl
    | some e => simpa using hf rfl e he
  · simp [hij]

theorem Guarded.validator_isSome (h : Guarded kinds s i id) {slot : Hooks}
    (hslot : s.world.watchFind i = some slot) : slot.validator.isSome := by
  obtain ⟨c, -, -, ⟨fns, hfns⟩, -⟩ := h.cls
  rw [hslot] at hfns
  cases hfns
  rfl

theorem Inv.watchBang (hinv : Inv kinds s) {cell tab : ℕ} {fn : Ptr}
    (he : watchBang s i cell fn tab = some (s', o)) : Inv kinds s' := by
  unfold Instances.watchBang at he
  split at he
  · cases he
  · rename_i slot hslot
    cases he
    refine hinv.hooks (fun j => ?_) (fun j _ => ?_) s.dispatches
    · exact objAt_modify fun e => rfl
    · refine validator_modify fun _ e he => ?_
      rw [World.watchFind, he, Option.bind_some] at hslot
      rw [hslot]
      rfl

theorem Inv.unwatchBang (hinv : Inv kinds s) (he : unwatchBang s i = some (s', o)) :
    Inv kinds s' := by
  unfold Instances.unwatchBang at he
  split at he
  · cases he
  · rename_i slot hslot
    cases he
    refine hinv.hooks (fun j => ?_) (fun j hj => ?_) s.dispatches
    · exact objAt_modify fun e => rfl
    · refine validator_modify fun hij e he => ?_
      obtain ⟨p, hp, hpj⟩ := List.any_eq_true.mp hj
      have hpi : p.1 = i := by simpa [← hij] using hpj
      have hsome := (hinv.instances p hp).validator_isSome (hpi ▸ hslot)
      rw [World.watchFind, he, Option.bind_some] at hslot
      rw [hslot, if_neg (by simp [Option.isSome_iff_ne_none.mp hsome])]
      rfl

theorem objAt_rehook (w : World) : (w.rehook i).objAt j = w.objAt j := by
  unfold World.rehook
  split
  · exact World.objAt_setWatched i j true
  · rfl

theorem watchFind_rehook (w : World) : (w.rehook i).watchFind j = w.watchFind j := by
  unfold World.rehook
  split
  · exact World.watchFind_setWatched i j true
  · rfl

theorem Inv.finish (hinv : Inv kinds s) (ds : List Dispatch) :
    Inv kinds { s with world := s.world.rehook i, dispatches := ds } :=
  hinv.hooks (fun _ => objAt_rehook s.world) (fun _ _ => by rw [watchFind_rehook]) ds

theorem Inv.returnFrom (hinv : Inv kinds s) {r : Ptr} (he : returnFrom s r = some (s', o)) :
    Inv kinds s' := by
  unfold Instances.returnFrom at he
  split at he
  · cases he
  · rename_i d ds hds
    simp only at he
    split at he
    · cases he
      exact hinv.finish ds
    · split at he
      · cases he
        exact hinv
      · split at he
        · cases he
          exact hinv.finish ds
        · split at he
          · cases he
            exact hinv.finish ds
          · split at he
            · cases he
              exact hinv.hooks (fun _ => rfl) (fun _ _ => rfl) _
            · cases he
              exact hinv

theorem returnFrom_ne_undefined {r : Ptr} (hok : Allowed kinds s (.return r))
    (he : returnFrom s r = some (s', o)) : o ≠ .undefined := by
  unfold Instances.returnFrom at he
  split at he
  · cases he
  · rename_i d ds hds
    simp only at he
    split at he
    · cases he
      simp
    · rename_i herr
      obtain ⟨htab, hlist⟩ := hok.resolve_left herr d (by rw [hds]; rfl)
      rw [if_neg (by simp [htab])] at he
      split at he
      · cases he
        simp
      · rename_i rest hrest
        split at he
        · cases he
          simp
        · rename_i hne
          split at he
          · cases he
            simp
          · rename_i hsuffix
            rcases hlist with h | h | h
            · rw [h] at hrest
              cases hrest
            · exact absurd h hne
            · exact absurd h hsuffix

theorem Inv.elsewhere (hinv : Inv kinds s) {w : World} (h : keepsInstances s w) :
    Inv kinds { s with world := w } := by
  refine ⟨hinv.fields, hinv.validators, fun p hp => ?_⟩
  rw [keepsInstances, Bool.and_eq_true, List.all_eq_true] at h
  exact (hinv.instances p hp).of_entry (fun c hc hv => ⟨hc, hv⟩) (by simpa using h.2 p hp)
    (List.Subset.refl _)

/-! ### One action -/

/-- **An action keeps the invariant.** -/
theorem Inv.exec (hinv : Inv kinds s) {a : Action} (hok : Allowed kinds s a)
    (he : exec kinds reserved s a = some (s', o)) : Inv kinds s' := by
  cases a with
  | define d =>
    obtain ⟨c, hc, heq⟩ := Option.map_eq_some_iff.mp he
    cases heq
    exact hinv.define hok hc
  | construct id vals fault tab => exact hinv.construct hok he
  | assoc i k v fault => exact hinv.assocBang hok he
  | setter id key p v fault =>
    simp only [Instances.exec] at he
    split at he
    · split at he
      · cases he
        exact hinv
      · cases he
        exact hinv
      · exact hinv.assocBang (hok _ rfl) he
    · cases he
      exact hinv
  | dissoc i k fault => exact hinv.dissocBang hok he
  | conjOne i x fault =>
    rcases conjOne_cases he with ⟨-, rfl, -⟩ | he
    · exact hinv
    · exact hinv.assocBang hok he
  | watch i cell fn tab => exact hinv.watchBang he
  | unwatch i => exact hinv.unwatchBang he
  | «return» r => exact hinv.returnFrom he
  | elsewhere w =>
    simp only [Instances.exec] at he
    split at he
    · rename_i hkeeps
      cases he
      exact hinv.elsewhere hkeeps
    · cases he

theorem Inv.start (w : World) : Inv kinds (start w) :=
  ⟨by simp [Instances.start], by simp [Instances.start], by simp [Instances.start]⟩

/-- **An action obeys.** -/
theorem Inv.obeys (hinv : Inv kinds s) {a : Action} (hok : Allowed kinds s a)
    (he : Instances.exec kinds reserved s a = some (s', o)) : Obeys kinds s a s' o := by
  cases a with
  | define d =>
    obtain ⟨c, hc, heq⟩ := Option.map_eq_some_iff.mp he
    cases heq
    exact ⟨fun i ch h => by simp [attempted] at h, by simp⟩
  | construct id vals fault tab =>
    exact ⟨fun i ch h => by simp [attempted] at h, construct_ne_undefined he⟩
  | assoc i k v fault =>
    refine ⟨fun j ch h id hid c hc hb => ?_, assocBang_ne_undefined he⟩
    obtain ⟨ks, hks, heq⟩ := Option.map_eq_some_iff.mp h
    cases heq
    rw [Allowed, hks] at hok
    exact assocBang_rejects hinv hks hok hid hc hb he
  | setter id key p v fault =>
    simp only [Instances.exec] at he
    split at he
    · rename_i i
      split at he
      · rename_i hisA
        cases he
        exact ⟨fun j ch h => by simp [attempted, hisA] at h, by simp⟩
      · rename_i hisA
        cases he
        exact ⟨fun j ch h => by simp [attempted, hisA] at h, by simp⟩
      · refine ⟨fun j ch h id' hid c hc hb => ?_, assocBang_ne_undefined he⟩
        obtain ⟨hp, ks, hks, rfl⟩ := attempted_setter h
        cases hp
        have hw := hok i rfl
        rw [hks] at hw
        exact assocBang_rejects hinv hks hw hid hc hb he
    · rename_i hne
      cases he
      exact ⟨fun j ch h => absurd (attempted_setter h).1 (hne j), by simp⟩
  | dissoc i k fault =>
    refine ⟨fun j ch h id hid c hc hb => ?_, dissocBang_ne_undefined he⟩
    obtain ⟨ks, hks, heq⟩ := Option.map_eq_some_iff.mp h
    cases heq
    exact dissocBang_rejects hinv hks (hok id hid) hid hc he
  | conjOne i x fault =>
    rcases conjOne_cases he with ⟨hnone, rfl, hne⟩ | he
    · exact ⟨fun j ch h => absurd (hnone.symm.trans h) (by simp), hne⟩
    · refine ⟨fun j ch h id hid c hc hb => ?_, assocBang_ne_undefined he⟩
      obtain ⟨rfl, ks, hks, rfl⟩ := attempted_conjOne h
      rw [Allowed, hks] at hok
      exact assocBang_rejects hinv hks hok hid hc hb he
  | watch i cell fn tab =>
    refine ⟨fun j ch h => by simp [attempted] at h, ?_⟩
    simp only [Instances.exec, Instances.watchBang] at he
    split at he
    · cases he
    · cases he
      simp
  | unwatch i =>
    refine ⟨fun j ch h => by simp [attempted] at h, ?_⟩
    simp only [Instances.exec, Instances.unwatchBang] at he
    split at he
    · cases he
    · cases he
      simp
  | «return» r => exact ⟨fun j ch h => by simp [attempted] at h, returnFrom_ne_undefined hok he⟩
  | elsewhere w =>
    refine ⟨fun j ch h => by simp [attempted] at h, ?_⟩
    simp only [Instances.exec] at he
    split at he
    · cases he
      simp
    · cases he

end Steps

/-! ## Runs -/

/-- **Instances are kept**: in a run whose actions come to none of the defects, every instance keeps its
class and its fields, and each action obeys. -/
theorem instances_kept (kinds : Kinds) (reserved : CStr → Bool) (w : World) (as : List Action)
    (s : State) (h : Path (step kinds reserved) (Allowed kinds) (start w) as s) :
    (∀ p ∈ s.instances, InstanceOk kinds s p.1 p.2) ∧
      ∀ a s' o, Allowed kinds s a → exec kinds reserved s a = some (s', o) →
        Obeys kinds s a s' o := by
  have hinv : Inv kinds s := h.invariant (fun s a s' hinv hok hstep => by
    obtain ⟨⟨s₁, o⟩, he, rfl⟩ := Option.map_eq_some_iff.mp hstep
    exact hinv.exec hok he) (.start w)
  exact ⟨fun p hp => (hinv.instances p hp).instanceOk hinv, fun a s' o hok he => hinv.obeys hok he⟩

/-! ## Three runs -/

namespace Sample

/-- The text of a literal. -/
def text (s : String) : CStr := .ofBytes (Classes.lit s)

/-- `(defclass P (name te))` -/
def decl (name : String) (te : TypeExpr) : Decl := ⟨text "P", none, [⟨text name, te⟩], 100000, .ref 8⟩

/-- The strings `""` and `"x"`. -/
def world : World := ⟨[⟨.string (text ""), false, none⟩, ⟨.string (text "x"), false, none⟩], 0⟩

def kinds : Kinds := fun _ => .unknown

/-- The state after actions on `world`. -/
def after (as : List Action) : Option State := run (step kinds fun _ => false) (start world) as

/-- The number one. -/
def one : Ptr := .fix (makeFix 1)

def int : TypeExpr := .name (text "Int")

/-- `(P "")`, with a field `x` of the type `(optional Int)`. -/
def slip : List Action := [.define (decl "x" (.optional int)), .construct 100000 [.ref 0] false 0]

/-- `(P 1)`, with a field `x` of the type `Int`. -/
def made : List Action := [.define (decl "x" int), .construct 100000 [one] false 0]

/-- An `Int` field, and a watcher that assigns `""` to it. -/
def unchecked : List Action :=
  made ++ [.watch 2 0 (.ref 9) 0, .assoc 2 (.ref 1) one false, .assoc 2 (.ref 1) (.ref 0) false]

/-- `(P 1)`, with a field `__type__`. -/
def tagged : List Action := [.define (decl "__type__" int), .construct 100000 [one] false 0]

theorem not_int {classes : Registry} {w : World} (h : w.objAt 0 = some (.string (text ""))) :
    ¬Admits kinds classes w int (.ref 0) := by
  rw [int, Admits]
  rintro ⟨t, ht, hisA⟩
  rw [show typeOfName classes (text "Int") = some 4 from rfl] at ht
  cases ht
  simp [isA, getActualTypeId, dictUserTypeId, World.look, h, isDict, World.dictOf, typeUserMin] at hisA

/-- A field that holds the empty string. -/
theorem not_instanceOk {s : State} {d : Dict Ptr} {c : ClassInfo} {te : TypeExpr}
    (hc : s.classes.byId 100000 = some c) (hf : ⟨text "x", te⟩ ∈ c.fields)
    (hd : s.world.objAt 2 = some (.dict d)) (hv : d.find (text "x") = some (.ref 0))
    (hst : ∀ e ∈ s.stored, e.world.objAt 0 = some (.string (text "")))
    (hte : te = int ∨ te = .optional int) : ¬InstanceOk kinds s 2 100000 := by
  intro h
  obtain ⟨c', d', hc', hd', -, hvals⟩ := h.fields
  rw [hc] at hc'
  cases hc'
  rw [hd] at hd'
  cases hd'
  obtain ⟨v, hv', e, he, -, -, -, ha⟩ := hvals _ hf
  rw [hv] at hv'
  cases hv'
  rcases hte with rfl | rfl
  · exact not_int (hst e he) ha
  · rw [Admits] at ha
    rcases ha with h | h | h
    · cases h
    · cases h
    · exact not_int (hst e he) h

end Sample

/-- An instance with a field of the type `Int`. -/
theorem instances_kept_int : ∃ s, Sample.after Sample.made = some s ∧
    InstanceOk Sample.kinds s 2 100000 := by
  obtain ⟨s, hs⟩ : ∃ s, Sample.after Sample.made = some s := ⟨_, rfl⟩
  have hpath : Path (step Sample.kinds fun _ => false) (Allowed Sample.kinds) (start Sample.world)
      Sample.made s := by
    refine .cons ?_ rfl (.cons (fun c hc fv hfv => ?_) rfl ?_)
    · rw [Allowed]
      decide
    · cases hc
      rw [List.mem_singleton.mp hfv]
      simp [Sample.int, Slips]
    · cases hs
      exact .nil _
  refine ⟨s, hs, (instances_kept Sample.kinds (fun _ => false) Sample.world Sample.made s hpath).1
    (2, 100000) ?_⟩
  cases hs
  exact List.mem_cons_self

/-- **A false value gets into an optional field, a watcher writes without a check, and a field `__type__`
takes the place of the type.** -/
theorem instance_not_kept :
    (∃ s, Sample.after Sample.slip = some s ∧ (2, 100000) ∈ s.instances ∧
      ¬InstanceOk Sample.kinds s 2 100000) ∧
    (∃ s, Sample.after Sample.unchecked = some s ∧ (2, 100000) ∈ s.instances ∧
      ¬InstanceOk Sample.kinds s 2 100000) ∧
    (∃ s, Sample.after Sample.tagged = some s ∧ (2, 100000) ∈ s.instances ∧
      ¬InstanceOk Sample.kinds s 2 100000) := by
  refine ⟨⟨_, rfl, List.mem_cons_self, ?_⟩, ⟨_, rfl, List.mem_cons_self, ?_⟩,
    ⟨_, rfl, List.mem_cons_self, fun h => ?_⟩⟩
  · exact Sample.not_instanceOk rfl List.mem_cons_self rfl rfl
      (List.forall_mem_cons.mpr ⟨rfl, List.forall_mem_nil _⟩) (.inr rfl)
  · exact Sample.not_instanceOk rfl List.mem_cons_self rfl rfl
      (List.forall_mem_cons.mpr ⟨rfl, List.forall_mem_cons.mpr ⟨rfl,
        List.forall_mem_cons.mpr ⟨rfl, List.forall_mem_nil _⟩⟩⟩) (.inl rfl)
  · have hisA := h.isA
    cases hisA

end Alcove.Instances
