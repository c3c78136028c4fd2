import Alcove.Persist.RoundTrip

/-!
# The numbers of classes

A type object holds the number of its class, and each process numbers its classes as it defines or
meets them. `renumber f` is a value with the numbers changed by `f`. Its record is that of the value, since
a record names the classes (`dump_renumber`), and it can be loaded where the value can
(`portable_renumber`, `levelsWithin_renumber`, `nestsWithin_renumber`).
-/

namespace Alcove.Restore

open Lib Persist Exp

/-- The value with other numbers for its classes. A set has no type object as a member. -/
def renumber (f : UInt32 → UInt32) : Exp → Exp
  | .type id => .type (f id)
  | .pair content next => .pair (renumber f content) (renumber f next)
  | .vector cells => .vector (cells.map fun v => renumber f v)
  | .dict d => .dict ⟨d.table.map fun chain => chain.map fun kv => (kv.1, renumber f kv.2), d.used⟩
  | .deque vals => .deque (vals.map fun v => renumber f v)
  | .hamt entries => .hamt (entries.map fun kv => (renumber f kv.1, renumber f kv.2))
  | .lambda multi name params body => .lambda multi name (renumber f params) (renumber f body)
  | .expander name params body => .expander name (renumber f params) (renumber f body)
  | e => e
termination_by e => sizeOf e
decreasing_by
  all_goals simp_wf
  all_goals first
    | exact sizeOf_entry_lt (List.mem_flatten.mpr ⟨_, ‹_›, ‹_›⟩)
    | exact sizeOf_key_lt ‹_›
    | exact sizeOf_val_lt ‹_›
    | have := List.sizeOf_lt_of_mem ‹_›
      omega
    | omega

variable {f : UInt32 → UInt32} {reg reg' : Registry} {e : Exp}

/-- The numbers of the classes of `reg` become those of `reg'`, and different ones stay different. -/
structure Renumbers (f : UInt32 → UInt32) (reg reg' : Registry) : Prop where
  customDump : reg'.customDump = reg.customDump
  builtin : ∀ id, id.toNat < typeUserMin → f id = id ∧ reg'.userTypeName id.toNat = none
  user : ∀ id, typeUserMin ≤ id.toNat → (reg.userTypeName id.toNat).isSome →
    typeUserMin ≤ (f id).toNat ∧ reg'.userTypeName (f id).toNat = reg.userTypeName id.toNat
  inj : ∀ i j, Writable reg (.type i) → Writable reg (.type j) → f i = f j → i = j

/-! ## Shapes -/

section

attribute [local simp] renumber

@[simp]
theorem renumber_isNull : (renumber f e).isNull = e.isNull := by
  cases e <;> simp <;> rfl

@[simp]
theorem renumber_isPair : (renumber f e).isPair = e.isPair := by
  cases e <;> simp <;> rfl

@[simp]
theorem renumber_isImmediate : isImmediate (renumber f e) = isImmediate e := by
  cases e <;> simp <;> rfl

@[simp]
theorem renumber_hashedByValue : (renumber f e).hashedByValue = e.hashedByValue := by
  cases e <;> simp <;> rfl

end

theorem renumber_null : renumber f .null = .null := by
  rw [renumber] <;> simp

/-- The entries of a dict keep their keys. -/
theorem entries_renumber (d : Dict Exp) :
    (⟨d.table.map fun chain => chain.map fun kv => (kv.1, renumber f kv.2), d.used⟩ :
      Dict Exp).entries = d.entries.map fun kv => (kv.1, renumber f kv.2) := by
  simp [Dict.entries, List.map_flatten]

/-- A member of a set is not changed. -/
theorem renumber_member {kv : CStr × Exp} (h : setEntry e = some kv) : renumber f e = e := by
  cases e with
  | pair content next =>
    have hnull : content = .null ∧ next = .null := by
      cases content <;> cases next <;> first | exact ⟨rfl, rfl⟩ | cases h
    obtain ⟨rfl, rfl⟩ := hnull
    rw [renumber, renumber_null]
  | type | vector | dict | deque | hamt | lambda | expander => cases h
  | _ => rw [renumber] <;> simp

/-- A key that is no type object is not changed. -/
theorem renumber_key (h : e.hashedByValue) :
    (∃ id, e = .type id) ∨ (∀ id, e ≠ .type id) ∧ renumber f e = e := by
  cases e with
  | type id => exact .inl ⟨id, rfl⟩
  | t | fix | char | float | string | symbol | blob =>
    exact .inr ⟨by simp, by rw [renumber] <;> simp⟩
  | _ => cases h

/-- **The parts of a renumbered value** are the parts of the value, renumbered. -/
theorem part_renumber (hproper : Proper e) {y : Exp} (h : Part (renumber f e) y) :
    ∃ x, Part e x ∧ y = renumber f x := by
  cases e with
  | pair content next =>
    rw [renumber] at h
    cases h with
    | content h => exact ⟨_, .content (by simpa using h), rfl⟩
    | next h => exact ⟨_, .next (by simpa using h), rfl⟩
  | vector cells =>
    rw [renumber] at h
    cases h with
    | cell h =>
      obtain ⟨x, hx, rfl⟩ := List.mem_map.mp h
      exact ⟨x, .cell hx, rfl⟩
  | dict d =>
    rw [renumber] at h
    cases h with
    | dict h =>
      rw [entries_renumber] at h
      obtain ⟨kv, hkv, rfl⟩ := List.mem_map.mp h
      exact ⟨kv.2, .dict hkv, rfl⟩
  | set d =>
    rw [renumber] at h
    · cases h with
      | @set _ kv h => exact ⟨kv.2, .set h, (renumber_member (hproper.2 kv h)).symm⟩
    all_goals simp
  | deque vals =>
    rw [renumber] at h
    cases h with
    | deque h =>
      obtain ⟨x, hx, rfl⟩ := List.mem_map.mp h
      exact ⟨x, .deque hx, rfl⟩
  | hamt entries =>
    rw [renumber] at h
    cases h with
    | key h =>
      obtain ⟨kv, hkv, rfl⟩ := List.mem_map.mp h
      exact ⟨kv.1, .key hkv, rfl⟩
    | val h =>
      obtain ⟨kv, hkv, rfl⟩ := List.mem_map.mp h
      exact ⟨kv.2, .val hkv, rfl⟩
  | lambda multi name params body =>
    rw [renumber] at h
    cases h with
    | params h => exact ⟨_, .params (by simpa using h), rfl⟩
    | body h => exact ⟨_, .body (by simpa using h), rfl⟩
  | expander name params body =>
    rw [renumber] at h
    cases h with
    | macroParams h => exact ⟨_, .macroParams (by simpa using h), rfl⟩
    | macroBody h => exact ⟨_, .macroBody (by simpa using h), rfl⟩
  | type => rw [renumber] at h; cases h
  | _ =>
    rw [renumber] at h
    · cases h
    all_goals simp

/-- What is inside a renumbered value. -/
theorem inside_renumber (hproper : ∀ x, Inside e x → Proper x) {y : Exp}
    (h : Inside (renumber f e) y) : ∃ x, Inside e x ∧ y = renumber f x := by
  induction h with
  | refl => exact ⟨e, .refl, rfl⟩
  | tail _ hpart ih =>
    obtain ⟨x, hx, rfl⟩ := ih
    obtain ⟨z, hz, rfl⟩ := part_renumber (hproper x hx) hpart
    exact ⟨z, hx.tail hz, rfl⟩

/-! ## Records -/

theorem concat_congr {α : Type} {xs : List α} {g g' : α → Option (List UInt8)}
    (h : ∀ x ∈ xs, g x = g' x) : concat (xs.map g) = concat (xs.map g') :=
  congrArg concat (List.map_congr_left h)

theorem partFlags_renumber (x y : Exp) :
    partFlags (renumber f x) (renumber f y) = partFlags x y := by
  simp [partFlags]

/-- The record of a dict, entry by entry. -/
theorem dump_dict (reg : Registry) (d : Dict Exp) : dump reg (.dict d) =
    (concat (d.entries.map fun kv => (dumpElem reg kv.2 (dump reg kv.2)).bind fun x =>
      some (dumpStr kv.1 ++ x))).bind fun xs => some (dumptype expDict ++ dumpsizeT d.used ++ xs) := by
  rw [dump, map_eq_attach d.entries]
  rfl

/-- The record of a set, member by member. -/
theorem dump_set (reg : Registry) (d : Dict Exp) : dump reg (.set d) =
    (concat (d.entries.map fun kv => dumpElem reg kv.2 (dump reg kv.2))).bind fun xs =>
      some (dumptype expSet ++ dumpsizeT d.used ++ xs) := by
  rw [dump, map_eq_attach d.entries]
  rfl

section

variable (hf : Renumbers f reg reg')

include hf

theorem isDumpable_renumber : isDumpable reg' (renumber f e) = isDumpable reg e := by
  cases e with
  | foreign type =>
    rw [renumber]
    · cases type <;> simp [isDumpable, hf.customDump]
    all_goals simp
  | _ => rw [renumber] <;> first | rfl | simp

/-- A record names the class. -/
theorem dump_renumber_type {id : UInt32} (hwritable : Writable reg (.type id)) :
    dump reg' (renumber f (.type id)) = dump reg (.type id) := by
  rw [renumber, dump, dump, dumpTypeObj, dumpTypeObj]
  by_cases hid : id.toNat < typeUserMin
  · rw [(hf.builtin id hid).1, if_pos hid, if_pos hid]
  · obtain hbuiltin | hname := hwritable
    · exact absurd hbuiltin hid
    · obtain ⟨hmin, hsame⟩ := hf.user id (by omega) hname
      rw [if_neg hid, if_neg (by omega), hsame]

/-- **The record of a renumbered value is that of the value.** -/
theorem dump_renumber (hinside : ∀ x, Inside e x → Writable reg x ∧ Proper x) :
    dump reg' (renumber f e) = dump reg e := by
  induction e using part_induction with
  | h e ih =>
  have hpart (x : Exp) (hx : Part e x) : dump reg' (renumber f x) = dump reg x :=
    ih x hx fun y hy => hinside y (.head hx hy)
  have helem (x : Exp) (hx : Part e x) :
      dumpElem reg' (renumber f x) (dump reg' (renumber f x)) = dumpElem reg x (dump reg x) := by
    rw [dumpElem, dumpElem, hpart x hx, renumber_isNull, isDumpable_renumber hf]
  have hmissing (x : Exp) (h : x.isNull = false → Part e x) :
      dumpPart (renumber f x) (dump reg' (renumber f x)) = dumpPart x (dump reg x) := by
    unfold dumpPart
    rw [renumber_isNull]
    cases hx : x.isNull with
    | true => rfl
    | false => rw [hpart x (h hx)]
  obtain ⟨hwritable, hproper⟩ := hinside e .refl
  cases e with
  | type id => exact dump_renumber_type hf hwritable
  | pair content next =>
    rw [renumber, dump, dump, hmissing content fun h => .content h, hmissing next fun h => .next h,
      partFlags_renumber]
  | vector cells =>
    rw [renumber, dump, dump, List.map_map, List.length_map]
    congr 1
    exact concat_congr fun x hx => helem x (.cell hx)
  | dict d =>
    rw [renumber, dump_dict, dump_dict, entries_renumber, List.map_map]
    congr 1
    apply concat_congr
    intro kv hkv
    show (dumpElem reg' (renumber f kv.2) (dump reg' (renumber f kv.2))).bind _ = _
    rw [helem kv.2 (.dict hkv)]
  | set d =>
    have hset : renumber f (.set d) = .set d := by rw [renumber] <;> simp
    rw [hset, dump_set, dump_set]
    congr 1
    apply concat_congr
    intro kv hkv
    rw [← helem kv.2 (.set hkv), renumber_member (hproper.2 kv hkv)]
  | deque vals =>
    rw [renumber, dump, dump, List.map_map, List.length_map]
    congr 1
    exact concat_congr fun x hx => helem x (.deque hx)
  | hamt entries =>
    rw [renumber, dump, dump, List.map_map, List.length_map]
    congr 1
    apply concat_congr
    intro kv hkv
    show (dumpElem reg' (renumber f kv.1) (dump reg' (renumber f kv.1))).bind (fun x =>
      (dumpElem reg' (renumber f kv.2) (dump reg' (renumber f kv.2))).bind _) = _
    rw [helem kv.1 (.key hkv), helem kv.2 (.val hkv)]
    rfl
  | lambda multi name params body =>
    rw [renumber, dump, dump, hmissing params fun h => .params h, hmissing body fun h => .body h,
      partFlags_renumber]
  | expander name params body =>
    rw [renumber, dump, dump, hmissing params fun h => .macroParams h,
      hmissing body fun h => .macroBody h, partFlags_renumber]
  | foreign type =>
    rw [renumber]
    · cases type <;> simp [dump, hf.customDump]
    all_goals simp
  | _ =>
    rw [renumber]
    · rw [dump, dump]
    all_goals simp

end

/-! ## Limits -/

/-- A dict of renumbered values is sound. -/
theorem ok_renumber {d : Dict Exp} (h : d.Ok) :
    (⟨d.table.map fun chain => chain.map fun kv => (kv.1, renumber f kv.2), d.used⟩ : Dict Exp).Ok where
  home := by
    intro i chain hi kv hkv
    rw [List.getElem?_map] at hi
    obtain ⟨old, hold, rfl⟩ := Option.map_eq_some_iff.mp hi
    obtain ⟨kv', hkv', rfl⟩ := List.mem_map.mp hkv
    have hhome := h.home i old hold kv' hkv'
    rwa [Dict.size, List.length_map]
  distinct := by
    rw [entries_renumber, List.map_map]
    exact h.distinct
  used_eq := by
    rw [entries_renumber, List.length_map]
    exact h.used_eq

/-- Keys that differ still do. -/
theorem isequal_renumber (hf : Renumbers f reg reg') {a b : Exp} (ha : a.hashedByValue) (hb : b.hashedByValue)
    (hwa : Writable reg a) (hwb : Writable reg b) (h : isequal a b = false) :
    isequal (renumber f a) (renumber f b) = false := by
  have htype (id : UInt32) (x : Exp) (hx : ∀ i, x ≠ .type i) (hval : x.hashedByValue) :
      isequal (.type id) x = false ∧ isequal x (.type id) = false := by
    cases x with
    | type i => exact absurd rfl (hx i)
    | t | fix | char | float | string | symbol | blob => exact ⟨rfl, rfl⟩
    | _ => cases hval
  rcases renumber_key (f := f) ha with ⟨i, rfl⟩ | ⟨hna, ha'⟩
  · rcases renumber_key (f := f) hb with ⟨j, rfl⟩ | ⟨hnb, hb'⟩
    · rw [renumber, renumber]
      have hne : i ≠ j := by
        rintro rfl
        simp [isequal, identical] at h
      have hne' : f i ≠ f j := fun heq => hne (hf.inj i j hwa hwb heq)
      simp [isequal, identical, isNil, symbolText, hne']
    · rw [hb', renumber]
      exact (htype (f i) b hnb hb).1
  · rcases renumber_key (f := f) hb with ⟨j, rfl⟩ | ⟨-, hb'⟩
    · rw [ha', renumber]
      exact (htype (f j) a hna ha).2
    · rw [ha', hb', h]

theorem proper_renumber (hf : Renumbers f reg reg') (hwritable : ∀ x, Inside e x → Writable reg x)
    (hproper : Proper e) (hcomp : Comparable e) : Proper (renumber f e) := by
  cases e with
  | vector cells =>
    rw [renumber, Persist.Proper, List.length_map]
    exact hproper
  | dict d =>
    rw [renumber]
    exact ok_renumber hproper
  | hamt entries =>
    rw [renumber]
    refine List.pairwise_map.mpr (hproper.imp_of_mem fun {a b} ha hb hab => ?_)
    exact isequal_renumber hf (hcomp a ha) (hcomp b hb) (hwritable _ (.single (.key ha)))
      (hwritable _ (.single (.key hb))) hab
  | type | pair | deque | lambda | expander =>
    rw [renumber]
    trivial
  | _ =>
    rw [renumber]
    · exact hproper
    all_goals simp

theorem comparable_renumber (hcomp : Comparable e) : Comparable (renumber f e) := by
  cases e with
  | hamt entries =>
    rw [renumber]
    intro kv hkv
    obtain ⟨kv', hkv', rfl⟩ := List.mem_map.mp hkv
    show (renumber f kv'.1).hashedByValue
    rw [renumber_hashedByValue]
    exact hcomp kv' hkv'
  | type | pair | vector | dict | deque | lambda | expander =>
    rw [renumber]
    exact hcomp
  | _ =>
    rw [renumber]
    · exact hcomp
    all_goals simp

variable {session session' : Session}

theorem withinLimits_renumber (hf : Renumbers f session.toRegistry session'.toRegistry)
    (hwritable : Writable session.toRegistry e) (hlimit : WithinLimits session e) :
    WithinLimits session' (renumber f e) := by
  cases e with
  | type id =>
    rw [renumber]
    intro name hname
    by_cases hid : id.toNat < typeUserMin
    · obtain ⟨hsame, hnone⟩ := hf.builtin id hid
      rw [hsame, hnone] at hname
      cases hname
    · obtain hbuiltin | hsome := hwritable
      · exact absurd hbuiltin hid
      · rw [(hf.user id (by omega) hsome).2] at hname
        exact hlimit name hname
  | dict d =>
    rw [renumber]
    refine ⟨hlimit.1, fun kv hkv => ?_⟩
    rw [entries_renumber] at hkv
    obtain ⟨kv', hkv', rfl⟩ := List.mem_map.mp hkv
    exact hlimit.2 kv' hkv'
  | deque vals =>
    rw [renumber, WithinLimits, List.length_map]
    exact hlimit
  | hamt entries =>
    rw [renumber, WithinLimits, List.length_map]
    exact hlimit
  | pair | vector | lambda | expander =>
    rw [renumber]
    exact hlimit
  | _ =>
    rw [renumber]
    · exact hlimit
    all_goals simp

/-- **A renumbered value can be moved** where the value can. -/
theorem portable_renumber (hf : Renumbers f session.toRegistry session'.toRegistry)
    (hwritable : ∀ x, Inside e x → Writable session.toRegistry x)
    (hportable : ∀ x, Inside e x → Portable session x) :
    ∀ y, Inside (renumber f e) y → Portable session' y := by
  intro y hy
  obtain ⟨x, hx, rfl⟩ := inside_renumber (fun x hx => (hportable x hx).proper) hy
  obtain ⟨hproper, hlimit, hcomp⟩ := hportable x hx
  exact ⟨proper_renumber hf (fun z hz => hwritable z (hx.trans hz)) hproper hcomp,
    withinLimits_renumber hf (hwritable x hx) hlimit, comparable_renumber hcomp⟩

theorem levelsWithin_renumber (hproper : ∀ x, Inside e x → Proper x) {room : ℕ}
    (h : LevelsWithin room e) : LevelsWithin room (renumber f e) := by
  induction h with
  | type =>
    rw [renumber]
    exact .type
  | @record room e hparts ih =>
    refine .record fun y hy => ?_
    obtain ⟨x, hx, rfl⟩ := part_renumber (hproper e .refl) hy
    exact ih x hx fun z hz => hproper z (.head hx hz)

/-- The cells of a vector. -/
theorem boxedCells_renumber : (renumber f e).boxedCells = e.boxedCells.map (·.map (renumber f)) := by
  cases e with
  | vector cells => rw [renumber]; rfl
  | vectorI64 cells =>
    rw [renumber]
    · have hcell (v : ℤ) : renumber f (Json.boxI64 v) = Json.boxI64 v := by
        unfold Json.boxI64
        split <;> rw [renumber] <;> simp
      simp [boxedCells, hcell]
    all_goals simp
  | vectorF64 cells =>
    rw [renumber]
    · have hcell (bits : UInt64) : renumber f (.float bits) = .float bits := by
        rw [renumber] <;> simp
      simp [boxedCells, hcell]
    all_goals simp
  | _ => rw [renumber] <;> first | rfl | simp

/-- A value that has no parts. -/
theorem proper_of_atom {x : Exp} (hproper : Proper x) (hatom : ∀ y, ¬ Part x y) :
    ∀ y, Inside x y → Proper y := by
  intro y hy
  rcases hy.cases_head with rfl | ⟨z, hz, -⟩
  · exact hproper
  · exact absurd hz (hatom z)

theorem nestsWithin_renumber (hproper : ∀ x, Inside e x → Proper x) {room : ℕ}
    (h : NestsWithin room e) : NestsWithin room (renumber f e) := by
  induction h with
  | immediate h => exact .immediate (by rwa [renumber_isImmediate])
  | @list room content next hcontent hnext ihcontent ihnext =>
    have hpart (x : Exp) (hx : x.isNull = false → Part (.pair content next) x) :
        ∀ y, Inside x y → Proper y := by
      cases hnull : x.isNull with
      | false => exact fun y hy => hproper y (.head (hx hnull) hy)
      | true =>
        obtain rfl : x = .null := by
          cases x <;> first | rfl | cases hnull
        exact proper_of_atom trivial fun y hy => by cases hy
    rw [renumber]
    refine .list (ihcontent (hpart content fun h => .content h)) ?_
    rw [renumber_isPair]
    exact ihnext (hpart next fun h => .next h)
  | @other room e hpair hparts hcells ihparts ihcells =>
    refine .other ?_ ?_ ?_
    · intro content next heq
      cases e with
      | pair content next => exact hpair content next rfl
      | type | vector | dict | deque | hamt | lambda | expander =>
        rw [renumber] at heq
        cases heq
      | _ =>
        rw [renumber] at heq
        · cases heq
        all_goals simp
    · intro y hy
      obtain ⟨x, hx, rfl⟩ := part_renumber (hproper e .refl) hy
      exact ihparts x hx fun z hz => hproper z (.head hx hz)
    · intro cells hcells' y hy
      rw [boxedCells_renumber] at hcells'
      obtain ⟨old, hold, rfl⟩ := Option.map_eq_some_iff.mp hcells'
      obtain ⟨x, hx, rfl⟩ := List.mem_map.mp hy
      refine ihcells old hold x hx ?_
      cases e with
      | vector cells =>
        obtain rfl := Option.some.inj hold
        exact fun z hz => hproper z (.head (.cell hx) hz)
      | vectorI64 cells =>
        obtain rfl := Option.some.inj hold
        obtain ⟨v, -, rfl⟩ := List.mem_map.mp hx
        unfold Json.boxI64
        split
        · exact proper_of_atom trivial fun y hy => by cases hy
        · exact proper_of_atom trivial fun y hy => by cases hy
      | vectorF64 cells =>
        obtain rfl := Option.some.inj hold
        obtain ⟨bits, -, rfl⟩ := List.mem_map.mp hx
        exact proper_of_atom trivial fun y hy => by cases hy
      | _ => cases hold

end Alcove.Restore
