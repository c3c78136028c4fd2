import Alcove.Hamt.Reach
import Alcove.Value.Iso

/-!
# Persistent maps of values

A value is a key of `Alcove.Hamt` once it has an address (`keyOf`). `hamtOfList` puts the entries of a
list into the empty map one after the other, and returns those of the map.

**Main result:** `hamtOfList_perm`. Where the keys are hashed by value and none occurs twice, these are
the entries of the list, in some order.
-/

namespace Alcove

open Exp

/-- A value at an address, as a key. The pointer of a type object holds its id and `TAG_TYPE`. -/
def keyOf (addr : UInt64) : Exp → Hamt.Key
  | null => .null
  | fix n => .fix n.1
  | char c => .char c
  | type id => .obj (UInt64.ofNat (8 * id.toNat + 3)) .other
  | nil => .obj addr .nil
  | t => .obj addr (.symbol [0x74])
  | float bits => .obj addr (.float bits)
  | string text => .obj addr (.string text.bytes)
  | symbol text => .obj addr (.symbol text.bytes)
  | blob bytes => .obj addr (.blob bytes)
  | rational num den => .obj addr (.rational num den)
  | decimal coef scale => .obj addr (.decimal coef scale)
  | _ => .obj addr .other

/-- The map of the entries, where the `i`-th key is at the address `place i`. -/
def hamtOfList (place : ℕ → UInt64) (kvs : List (Exp × Exp)) : Option (List (Exp × Exp)) := do
  let keyed := kvs.mapIdx fun i kv => (keyOf (place i) kv.1, kv)
  let m ← (keyed.map fun x => (x.1, x.2.2)).foldlM
    (fun m kv => m.step Hamt.hamtHashkey (.assoc kv.1 kv.2)) Hamt.Map.empty
  return m.entries.filterMap fun e => (keyed.find? fun x => x.1 = e.1).map fun x => (x.2.1, e.2)

/-- `isfloat(k) && k->f != k->f` -/
def isNaNKey : Exp → Bool
  | float bits => Hamt.isNaN bits
  | _ => false

theorem floatEq_self {bits : UInt64} (h : Hamt.isNaN bits = false) : Hamt.floatEq bits bits := by
  simp [Hamt.floatEq, h]

theorem keyOf_hashedByValue {addr : UInt64} {x : Exp} (h : x.hashedByValue) :
    Hamt.hashedByValue (keyOf addr x) := by
  cases x <;> first | rfl | cases h

/-- The pointers of two type objects are equal when their ids are. -/
theorem typePointer_inj {i j : UInt32} :
    UInt64.ofNat (8 * i.toNat + 3) = UInt64.ofNat (8 * j.toNat + 3) ↔ i = j := by
  constructor
  · intro h
    have h' := congrArg UInt64.toNat h
    have hi := i.toNat_lt
    have hj := j.toNat_lt
    rw [UInt64.toNat_ofNat', UInt64.toNat_ofNat'] at h'
    exact UInt32.toNat_inj.mp (by omega)
  · rintro rfl
    rfl

/-- **Keys are equal when their values are.** -/
theorem isequal_keyOf {p q : UInt64} {x y : Exp} (hx : x.hashedByValue) (hy : y.hashedByValue)
    (hnan : isNaNKey x = false) : Hamt.isequal (keyOf p x) (keyOf q y) = isequal x y := by
  have htext {s s' : CStr} : s = s' ↔ s.bytes = s'.bytes := ⟨fun h => h ▸ rfl, CStr.ext⟩
  have ht : (CStr.ofBytes [0x74]).bytes = [0x74] := CStr.ofBytes_of_noNul (by decide)
  have hfix {m n : Fixnum} : m.1 = n.1 ↔ m = n := Subtype.ext_iff.symm
  -- two pointers to equal bytes
  have hor {s s' : List UInt8} : (decide (p = q) && decide (s = s') || s == s') = decide (s = s') := by
    by_cases h : s = s' <;> simp [h]
  cases x <;> cases hx <;> cases y <;> cases hy
  case float.refl.float.refl a b =>
    by_cases h : Hamt.Key.obj p (.float a) = .obj q (.float b)
    · obtain ⟨-, hab⟩ := Hamt.Key.obj.inj h
      obtain rfl := Hamt.Obj.float.inj hab
      simp [keyOf, Hamt.isequal, isequal, h, floatEq_self hnan]
    · rw [keyOf, keyOf, Hamt.isequal, if_neg h]
      rfl
  case type.refl.type.refl i j =>
    by_cases h : i = j
    · simp [keyOf, Hamt.isequal, isequal, identical, h]
    · have hne : keyOf p (type i) ≠ keyOf q (type j) := by
        intro heq
        exact h (typePointer_inj.mp (Hamt.Key.obj.inj heq).1)
      have hfalse : isequal (type i) (type j) = false := by
        simp [isequal, identical, isNil, symbolText, h]
      unfold Hamt.isequal
      rw [hfalse, if_neg hne]
      rfl
  all_goals simp [keyOf, Hamt.isequal, isequal, identical, Hamt.isNil, isNil, symbolText, htext, ht,
    hfix, hor]

/-- A list with a key for each entry, and no key twice, has the entry at its key. -/
theorem find?_of_nodup {α β : Type} [DecidableEq α] {xs : List (α × β)}
    (h : (xs.map Prod.fst).Nodup) {x : α × β} (hx : x ∈ xs) :
    xs.find? (fun y => y.1 = x.1) = some x := by
  induction xs with
  | nil => cases hx
  | cons y ys ih =>
    obtain ⟨hy, hys⟩ := List.nodup_cons.mp h
    rcases List.mem_cons.mp hx with rfl | hx
    · exact List.find?_cons_of_pos (decide_eq_true rfl)
    · have hne : y.1 ≠ x.1 := fun he => hy (he ▸ List.mem_map_of_mem hx)
      rw [List.find?_cons_of_neg (by simpa using hne), ih hys hx]

/-- The keys of the list, as keys. -/
theorem distinctKeys_keyed {place : ℕ → UInt64} {kvs : List (Exp × Exp)}
    (hkeys : ∀ kv ∈ kvs, kv.1.hashedByValue ∧ isNaNKey kv.1 = false)
    (hdist : kvs.Pairwise fun a b => isequal a.1 b.1 = false) :
    Hamt.DistinctKeys ((kvs.mapIdx fun i kv => (keyOf (place i) kv.1, kv)).map
      fun x => (x.1, x.2.2)) := by
  induction kvs generalizing place with
  | nil => exact .nil
  | cons kv kvs ih =>
    obtain ⟨hkv, hrest⟩ := List.forall_mem_cons.mp hkeys
    obtain ⟨hhead, htail⟩ := List.pairwise_cons.mp hdist
    rw [List.mapIdx_cons, List.map_cons]
    refine List.pairwise_cons.mpr ⟨?_, ih hrest htail⟩
    intro key hkey
    simp only [List.map_map, List.mem_map, List.mem_mapIdx] at hkey
    obtain ⟨x, ⟨i, hi, rfl⟩, rfl⟩ := hkey
    have hmem := List.getElem_mem hi
    exact (isequal_keyOf hkv.1 (hrest _ hmem).1 hkv.2).trans (hhead _ hmem)

/-- **The map has the entries of the list**, in some order. -/
theorem hamtOfList_perm {place : ℕ → UInt64} {kvs : List (Exp × Exp)}
    (hkeys : ∀ kv ∈ kvs, kv.1.hashedByValue ∧ isNaNKey kv.1 = false)
    (hdist : kvs.Pairwise fun a b => isequal a.1 b.1 = false) :
    ∃ es, hamtOfList place kvs = some es ∧ es.Perm kvs := by
  unfold hamtOfList
  have hdistinct : Hamt.DistinctKeys ((kvs.mapIdx fun i kv => (keyOf (place i) kv.1, kv)).map
      fun x => (x.1, x.2.2)) := distinctKeys_keyed hkeys hdist
  have hval : ∀ x ∈ kvs.mapIdx fun i kv => (keyOf (place i) kv.1, kv),
      Hamt.hashedByValue x.1 := by
    intro x hx
    obtain ⟨i, hi, rfl⟩ := List.mem_mapIdx.mp hx
    exact keyOf_hashedByValue (hkeys _ (List.getElem_mem hi)).1
  have hsnd : (kvs.mapIdx fun i kv => (keyOf (place i) kv.1, kv)).map Prod.snd = kvs := by
    apply List.ext_getElem
    · simp
    · intro i h h'
      simp
  generalize (kvs.mapIdx fun i kv => (keyOf (place i) kv.1, kv)) = keyed at *
  obtain ⟨m, hm, hperm⟩ : ∃ m, (keyed.map fun x => (x.1, x.2.2)).foldlM
      (fun m kv => m.step Hamt.hamtHashkey (.assoc kv.1 kv.2)) Hamt.Map.empty = some m ∧
        m.entries.Perm (Hamt.Map.empty.entries ++ keyed.map fun x => (x.1, x.2.2)) :=
    Hamt.inv_empty.assocAll (fun e he => by cases he) (List.forall_mem_map.mpr hval) hdistinct
  simp only [hm, Option.bind_eq_bind, Option.bind_some, Option.pure_def]
  refine ⟨_, rfl, (hperm.filterMap _).trans ?_⟩
  have hnodup : (keyed.map Prod.fst).Nodup := by
    have hkeys' : ((keyed.map fun x => (x.1, x.2.2)).map Prod.fst).Nodup :=
      hdistinct.imp fun {a b} hab heq => by
        have hself : Hamt.isequal b b = true := if_pos rfl
        rw [heq, hself] at hab
        cases hab
    rwa [List.map_map] at hkeys'
  show List.Perm ((keyed.map fun x => (x.1, x.2.2)).filterMap _) kvs
  rw [List.filterMap_map, ← hsnd, ← List.filterMap_eq_map]
  apply List.Perm.of_eq
  apply List.filterMap_congr
  intro x hx
  simp [find?_of_nodup hnodup hx]

end Alcove
