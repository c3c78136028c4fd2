import Alcove.Value.Scalar
import Mathlib.Data.Finset.Card
import Mathlib.Data.Finset.Lattice.Basic

/-!
# Sets

The commands of `set.h` on the sets of a program: `set`, `set-add!`, `set-del!`, `set-union`,
`set-intersection` and `set-difference` make a set or change one in place, `set-has?`, `count` and
`set->list` look at one. Each set stands for the finite set of its members (`Holds`).

**Main result:** `sets_lawful`. After any sequence of commands, every set answers as the finite set of
scalars that the same operations make.
-/

namespace Alcove

open Lib Json Numeric

/-! ## The commands -/

/-- `set_insert_value`; the call returns 0 where there is no table. -/
def setInsertValue (d : Dict Exp) (v : Exp) : Option (Dict Exp) :=
  (setEntry v).map fun kv => d.set kv.1 kv.2

/-- The loop of `setcmd`. -/
def setLoop : List Exp → Dict Exp → Answer
  | [], d => .ok (.set d)
  | v :: args, d =>
    if v.isError then .ok v
    else
      match setInsertValue d v with
      | none => .error (Classes.lit "set: unsupported element type")
      | some d => setLoop args d

/-- `setcmd` -/
def setcmd (args : List Exp) : Answer := setLoop args .create

/-- `SET_VALUE_SETUP` -/
def setValueSetup (name : String) (s v : Exp) (body : Dict Exp → Option CStr → Answer) : Answer :=
  if s.isError then .ok s
  else
    match s with
    | .set d => if v.isError then .ok v else body d (setKeyForValue v)
    | _ => .error (Classes.lit name ++ Classes.lit ": first arg must be a set")

/-- `setaddbangcmd`, on a set that nothing watches: the set afterwards -/
def setaddbangcmd (s v : Exp) : Answer :=
  setValueSetup "set-add!" s v fun d ks =>
    match ks, setValueClone v with
    | some ks, some stored => .ok (.set (d.set ks stored))
    | _, _ => .error (Classes.lit "set-add!: unsupported element type")

/-- `setdelbangcmd`, on a set that nothing watches: the set afterwards -/
def setdelbangcmd (s v : Exp) : Answer :=
  setValueSetup "set-del!" s v fun d ks =>
    match ks with
    | none => .ok (.set d)
    | some ks => .ok (.set (d.erase ks).1)

/-- `sethaspcmd` -/
def sethaspcmd (s v : Exp) : Answer :=
  setValueSetup "set-has?" s v fun d ks =>
    .ok (if (ks.bind d.find).isSome then .t else .nil)

/-- Members are inserted one after the other, where they can be. -/
def setInsertAll (d : Dict Exp) (vs : List Exp) : Dict Exp :=
  vs.foldl (fun d v => (setInsertValue d v).getD d) d

/-- `set_copy_exp` -/
def setCopy (src : Dict Exp) : Dict Exp := setInsertAll .create (src.entries.map Prod.snd)

/-- `EVAL_ARG_2` and the test for two sets. -/
def twoSets (name : String) (a b : Exp) (body : Dict Exp → Dict Exp → Dict Exp) : Answer :=
  if a.isError then .ok a
  else if b.isError then .ok b
  else
    match a, b with
    | .set ad, .set bd => .ok (.set (body ad bd))
    | _, _ => .error (Classes.lit name ++ Classes.lit ": args must be sets")

/-- `setunioncmd` -/
def setunioncmd (a b : Exp) : Answer :=
  twoSets "set-union" a b fun ad bd => setInsertAll (setCopy ad) (bd.entries.map Prod.snd)

/-- `setintersectioncmd` -/
def setintersectioncmd (a b : Exp) : Answer :=
  twoSets "set-intersection" a b fun ad bd =>
    setInsertAll .create ((ad.entries.filter fun kv => (bd.find kv.1).isSome).map Prod.snd)

/-- `setdifferencecmd` -/
def setdifferencecmd (a b : Exp) : Answer :=
  twoSets "set-difference" a b fun ad bd =>
    setInsertAll .create ((ad.entries.filter fun kv => !(bd.find kv.1).isSome).map Prod.snd)

/-- `setlistcmd` -/
def setlistcmd (s : Exp) : Answer :=
  if s.isError then .ok s
  else
    match s with
    | .set d => .ok (.ofList (d.entries.map fun kv => (setValueClone kv.2).getD .null))
    | _ => .error (Classes.lit "set->list: arg must be a set")

/-- `countcmd`, on a hash-map or a set -/
def tableCount : Exp → Option Fixnum
  | .dict d => some (makeFix d.used)
  | .set d => some (makeFix d.used)
  | _ => none

/-! ## Programs -/

/-- A command that makes a set or changes one; the sets of a program have numbers. -/
inductive SetForm
  | set (args : List Exp)
  | add (s : ℕ) (v : Exp)
  | del (s : ℕ) (v : Exp)
  | union (a b : ℕ)
  | intersection (a b : ℕ)
  | difference (a b : ℕ)

/-- The values of a form are canonical. -/
def SetForm.Canonical : SetForm → Prop
  | .set args => ∀ v ∈ args, v.Canonical
  | .add _ v | .del _ v => v.Canonical
  | _ => True

/-- The set of a number; there is none where no set was made. -/
def setArg (sets : List (Dict Exp)) (i : ℕ) : Exp :=
  match sets[i]? with
  | some d => .set d
  | none => .null

/-- A command that makes a new set. -/
def pushSet (sets : List (Dict Exp)) : Answer → List (Dict Exp)
  | .ok (.set d) => sets ++ [d]
  | _ => sets

/-- A command that changes a set in place. -/
def putSet (sets : List (Dict Exp)) (i : ℕ) : Answer → List (Dict Exp)
  | .ok (.set d) => sets.set i d
  | _ => sets

/-- One form of the program. -/
def execSet (sets : List (Dict Exp)) : SetForm → List (Dict Exp)
  | .set args => pushSet sets (setcmd args)
  | .add s v => putSet sets s (setaddbangcmd (setArg sets s) v)
  | .del s v => putSet sets s (setdelbangcmd (setArg sets s) v)
  | .union a b => pushSet sets (setunioncmd (setArg sets a) (setArg sets b))
  | .intersection a b => pushSet sets (setintersectioncmd (setArg sets a) (setArg sets b))
  | .difference a b => pushSet sets (setdifferencecmd (setArg sets a) (setArg sets b))

/-! ## Mathematical sets -/

/-- A new set, where it is there. -/
def pushFinset (sets : List (Finset Scalar)) (s : Option (Finset Scalar)) : List (Finset Scalar) :=
  sets ++ s.toList

/-- What a form does to finite sets: without an element that is no scalar. -/
def absExec (sets : List (Finset Scalar)) : SetForm → List (Finset Scalar)
  | .set args => pushFinset sets ((args.mapM scalarOf).map List.toFinset)
  | .add s v => (scalarOf v).elim sets fun x => sets.modify s (insert x)
  | .del s v => (scalarOf v).elim sets fun x => sets.modify s (Finset.erase · x)
  | .union a b => pushFinset sets do return (← sets[a]?) ∪ (← sets[b]?)
  | .intersection a b => pushFinset sets do return (← sets[a]?) ∩ (← sets[b]?)
  | .difference a b => pushFinset sets do return (← sets[a]?) \ (← sets[b]?)

/-- **A table is the set of some scalars**: it is sound, its entries have the keys of their values, and
these are the scalars. -/
structure Holds (d : Dict Exp) (s : Finset Scalar) : Prop where
  ok : d.Ok
  entry : ∀ kv ∈ d.entries, ∃ x, Denotes kv.2 x ∧ setKeyForValue kv.2 = some kv.1
  mem : ∀ x, x ∈ s ↔ ∃ kv ∈ d.entries, Denotes kv.2 x

/-! ## Entries -/

variable {d d' : Dict Exp} {s s' : Finset Scalar} {v w : Exp} {x y : Scalar} {key k : CStr}

theorem Denotes.unique (h : Denotes v x) (h' : Denotes v y) : x = y :=
  Option.some.inj ((denotes_iff.1 h).2.symm.trans (denotes_iff.1 h').2)

theorem Denotes.of_scalarOf (hc : v.Canonical) (h : scalarOf v = some x) : Denotes v x :=
  denotes_iff.2 ⟨hc, h⟩

/-- What is put into the table for a scalar. -/
theorem setEntry_denotes (h : Denotes v x) : ∃ key w, setKeyForValue v = some key ∧
    setValueClone v = some w ∧ setKeyForValue w = some key ∧ Denotes w x := by
  obtain ⟨key, hkey, -⟩ := keyScalar_setKey h
  obtain ⟨w, hw, hx⟩ := setValueClone_denotes h
  exact ⟨key, w, hkey, hw, (setKey_of_denotes hx h).trans hkey, hx⟩

/-- Values of one key are one scalar. -/
theorem Denotes.eq_of_key (hv : Denotes v x) (hw : Denotes w y) (hkey : setKeyForValue v = some key)
    (hkey' : setKeyForValue w = some key) : x = y :=
  (setKey_eq_iff hv hw).1 (hkey.trans hkey'.symm)

theorem mem_entries_set (hd : d.Ok) {val : Exp} : (k, val) ∈ (d.set key w).entries ↔
    if k = key then val = w else (k, val) ∈ d.entries := by
  rw [← hd.set.find_eq_some, hd.find_set]
  split
  · rw [Option.some.injEq, eq_comm]
  · exact hd.find_eq_some

theorem mem_entries_erase (hd : d.Ok) {val : Exp} : (k, val) ∈ (d.erase key).1.entries ↔
    k ≠ key ∧ (k, val) ∈ d.entries := by
  rw [← hd.erase.find_eq_some, hd.find_erase]
  split
  · next h => exact iff_of_false (fun h => by cases h) fun hne => hne.1 h
  · next h => rw [hd.find_eq_some, and_iff_right h]

/-! ## Operations on one set -/

theorem Holds.create : Holds .create ∅ where
  ok := Dict.ok_create
  entry kv h := by cases h
  mem x := by simp [Dict.create, Dict.entries]

/-- **A lookup finds the members.** -/
theorem Holds.find_isSome (h : Holds d s) (hv : Denotes v x) (hkey : setKeyForValue v = some key) :
    (d.find key).isSome ↔ x ∈ s := by
  rw [h.mem, Option.isSome_iff_exists]
  constructor
  · rintro ⟨w, hw⟩
    have hmem := h.ok.find_eq_some.1 hw
    obtain ⟨y, hy, hkey'⟩ := h.entry _ hmem
    exact ⟨_, hmem, hv.eq_of_key hy hkey hkey' ▸ hy⟩
  · rintro ⟨⟨k, w⟩, hmem, hx⟩
    obtain ⟨y, -, hkey'⟩ := h.entry _ hmem
    obtain rfl : key = k := by
      have hkeys := setKey_of_denotes hv hx
      exact Option.some.inj (hkey.symm.trans (hkeys.trans hkey'))
    exact ⟨w, h.ok.find_eq_some.2 hmem⟩

/-- One member more. -/
theorem Holds.set (h : Holds d s) (hw : Denotes w x) (hkey : setKeyForValue w = some key) :
    Holds (d.set key w) (insert x s) where
  ok := h.ok.set
  entry := by
    rintro ⟨k, val⟩ hmem
    rw [mem_entries_set h.ok] at hmem
    split at hmem
    · next hk => exact hmem ▸ hk ▸ ⟨x, hw, hkey⟩
    · exact h.entry _ hmem
  mem y := by
    rw [Finset.mem_insert, h.mem]
    constructor
    · rintro (rfl | ⟨⟨k, val⟩, hmem, hy⟩)
      · exact ⟨(key, w), (mem_entries_set h.ok).2 (by rw [if_pos rfl]), hw⟩
      · by_cases hk : k = key
        · obtain ⟨y', hy', hkey'⟩ := h.entry _ hmem
          obtain rfl := hy.unique hy'
          obtain rfl := hy.eq_of_key hw (hk ▸ hkey') hkey
          exact ⟨(key, w), (mem_entries_set h.ok).2 (by rw [if_pos rfl]), hw⟩
        · exact ⟨(k, val), (mem_entries_set h.ok).2 (by rwa [if_neg hk]), hy⟩
    · rintro ⟨⟨k, val⟩, hmem, hy⟩
      rw [mem_entries_set h.ok] at hmem
      split at hmem
      · obtain rfl := hmem
        exact .inl (hy.unique hw)
      · exact .inr ⟨_, hmem, hy⟩

/-- One member less. -/
theorem Holds.erase (h : Holds d s) (hv : Denotes v x) (hkey : setKeyForValue v = some key) :
    Holds (d.erase key).1 (s.erase x) where
  ok := h.ok.erase
  entry kv hmem := h.entry kv ((mem_entries_erase h.ok).1 hmem).2
  mem y := by
    rw [Finset.mem_erase, h.mem]
    constructor
    · rintro ⟨hne, ⟨k, val⟩, hmem, hy⟩
      obtain ⟨y', hy', hkey'⟩ := h.entry _ hmem
      refine ⟨_, (mem_entries_erase h.ok).2 ⟨fun hk => hne ?_, hmem⟩, hy⟩
      exact hy.eq_of_key hv (hk ▸ hkey') hkey
    · rintro ⟨⟨k, val⟩, hmem, hy⟩
      obtain ⟨hk, hmem⟩ := (mem_entries_erase h.ok).1 hmem
      refine ⟨fun hxy => hk ?_, _, hmem, hy⟩
      obtain ⟨y', hy', hkey'⟩ := h.entry _ hmem
      have hkeys := setKey_of_denotes hy (hxy ▸ hv)
      exact Option.some.inj (hkey'.symm.trans (hkeys.trans hkey))

theorem Holds.insertValue (h : Holds d s) (hv : Denotes v x) :
    ∃ d', setInsertValue d v = some d' ∧ Holds d' (insert x s) := by
  obtain ⟨key, w, hkey, hclone, hkey', hw⟩ := setEntry_denotes hv
  refine ⟨d.set key w, ?_, h.set hw hkey'⟩
  rw [setInsertValue, setEntry, hkey, hclone]
  rfl

/-- Members are added one after the other. -/
theorem Holds.insertAll (h : Holds d s) {vs : List Exp} (hvs : ∀ v ∈ vs, ∃ x, Denotes v x) :
    ∃ s', Holds (setInsertAll d vs) s' ∧ ∀ x, x ∈ s' ↔ x ∈ s ∨ ∃ v ∈ vs, Denotes v x := by
  induction vs generalizing d s with
  | nil => exact ⟨s, h, by simp⟩
  | cons v vs ih =>
    obtain ⟨x, hx⟩ := hvs v List.mem_cons_self
    obtain ⟨d', hd', h'⟩ := h.insertValue hx
    obtain ⟨s', hs', hmem⟩ := ih h' fun w hw => hvs w (List.mem_cons_of_mem _ hw)
    refine ⟨s', ?_, fun y => ?_⟩
    · rw [setInsertAll, List.foldl_cons, hd']
      exact hs'
    · rw [hmem, Finset.mem_insert, or_assoc, or_left_comm, List.exists_mem_cons_iff]
      have hhead : Denotes v y ↔ y = x := ⟨fun hy => hy.unique hx, fun hy => hy ▸ hx⟩
      rw [hhead]

/-- Some of the entries, as a new set. -/
theorem Holds.ofEntries (h : Holds d s) (p : CStr × Exp → Bool) :
    ∃ s', Holds (setInsertAll .create ((d.entries.filter p).map Prod.snd)) s' ∧
      ∀ x, x ∈ s' ↔ ∃ kv ∈ d.entries, p kv = true ∧ Denotes kv.2 x := by
  have hvs : ∀ v ∈ (d.entries.filter p).map Prod.snd, ∃ x, Denotes v x := by
    intro v hv
    obtain ⟨kv, hkv, rfl⟩ := List.mem_map.1 hv
    obtain ⟨x, hx, -⟩ := h.entry kv (List.mem_filter.1 hkv).1
    exact ⟨x, hx⟩
  obtain ⟨s', hs', hmem⟩ := Holds.create.insertAll hvs
  refine ⟨s', hs', fun x => ?_⟩
  rw [hmem, or_iff_right (Finset.notMem_empty x)]
  constructor
  · rintro ⟨v, hv, hx⟩
    obtain ⟨kv, hkv, rfl⟩ := List.mem_map.1 hv
    obtain ⟨hkv, hp⟩ := List.mem_filter.1 hkv
    exact ⟨kv, hkv, hp, hx⟩
  · rintro ⟨kv, hkv, hp, hx⟩
    exact ⟨kv.2, List.mem_map_of_mem (List.mem_filter.2 ⟨hkv, hp⟩), hx⟩

theorem Holds.eq (h : Holds d s) (hs : ∀ x, x ∈ s' ↔ x ∈ s) : Holds d s' := by
  rwa [Finset.ext hs]

/-- The entries of a set whose keys another set has. -/
theorem Holds.mem_both {db : Dict Exp} {sb : Finset Scalar} (h : Holds d s) (hb : Holds db sb)
    (has : Bool) (x : Scalar) : (∃ kv ∈ d.entries, (db.find kv.1).isSome = has ∧ Denotes kv.2 x) ↔
      x ∈ s ∧ decide (x ∈ sb) = has := by
  have hfind {kv : CStr × Exp} (hkv : kv ∈ d.entries) (hx : Denotes kv.2 x) :
      (db.find kv.1).isSome = decide (x ∈ sb) := by
    obtain ⟨y, hy, hkey⟩ := h.entry kv hkv
    rw [Bool.eq_iff_iff, hb.find_isSome hx hkey, decide_eq_true_iff]
  rw [h.mem]
  constructor
  · rintro ⟨kv, hkv, hhas, hx⟩
    exact ⟨⟨kv, hkv, hx⟩, (hfind hkv hx).symm.trans hhas⟩
  · rintro ⟨⟨kv, hkv, hx⟩, hhas⟩
    exact ⟨kv, hkv, (hfind hkv hx).trans hhas, hx⟩

theorem Holds.union {db : Dict Exp} {sb : Finset Scalar} (h : Holds d s) (hb : Holds db sb) :
    Holds (setInsertAll (setCopy d) (db.entries.map Prod.snd)) (s ∪ sb) := by
  obtain ⟨s₁, h₁, hmem₁⟩ := h.ofEntries fun _ => true
  rw [List.filter_true] at h₁
  have hvs : ∀ v ∈ db.entries.map Prod.snd, ∃ x, Denotes v x := by
    intro v hv
    obtain ⟨kv, hkv, rfl⟩ := List.mem_map.1 hv
    obtain ⟨x, hx, -⟩ := hb.entry kv hkv
    exact ⟨x, hx⟩
  obtain ⟨s₂, h₂, hmem₂⟩ := Holds.insertAll h₁ hvs
  refine h₂.eq fun x => ?_
  rw [hmem₂, hmem₁, Finset.mem_union, h.mem, hb.mem]
  simp only [List.mem_map, exists_exists_and_eq_and, true_and]

theorem Holds.inter {db : Dict Exp} {sb : Finset Scalar} (h : Holds d s) (hb : Holds db sb) :
    Holds (setInsertAll .create
      ((d.entries.filter fun kv => (db.find kv.1).isSome).map Prod.snd)) (s ∩ sb) := by
  obtain ⟨s₁, h₁, hmem₁⟩ := h.ofEntries fun kv => (db.find kv.1).isSome
  refine h₁.eq fun x => ?_
  rw [hmem₁, h.mem_both hb true, Finset.mem_inter, decide_eq_true_iff]

theorem Holds.sdiff {db : Dict Exp} {sb : Finset Scalar} (h : Holds d s) (hb : Holds db sb) :
    Holds (setInsertAll .create
      ((d.entries.filter fun kv => !(db.find kv.1).isSome).map Prod.snd)) (s \ sb) := by
  obtain ⟨s₁, h₁, hmem₁⟩ := h.ofEntries fun kv => !(db.find kv.1).isSome
  refine h₁.eq fun x => ?_
  simp only [hmem₁, Bool.not_eq_true', h.mem_both hb false, Finset.mem_sdiff, decide_eq_false_iff_not]

/-! ## Making a set -/

theorem isError_of_scalarOf (h : scalarOf v = some x) : v.isError = false := by
  cases v with
  | foreign _ => cases h
  | _ => rfl

theorem setKey_eq_none (h : scalarOf v = none) : setKeyForValue v = none := by
  rw [← Option.not_isSome_iff_eq_none, setKey_isSome, h]
  exact Bool.false_ne_true

theorem setInsertValue_none (h : scalarOf v = none) (d : Dict Exp) : setInsertValue d v = none := by
  rw [setInsertValue, setEntry, setKey_eq_none h]
  rfl

/-- **`set` makes the set of its elements**, where all of them are scalars. -/
theorem Holds.setLoop (h : Holds d s) {args : List Exp} (hc : ∀ v ∈ args, v.Canonical) :
    match args.mapM scalarOf with
    | some xs => ∃ d', setLoop args d = .ok (.set d') ∧ Holds d' (s ∪ xs.toFinset)
    | none => ∀ d', setLoop args d ≠ .ok (.set d') := by
  induction args generalizing d s with
  | nil => exact ⟨d, rfl, by simpa using h⟩
  | cons v args ih =>
    have hargs := fun w hw => hc w (List.mem_cons_of_mem v hw)
    rw [List.mapM_cons]
    cases hv : scalarOf v with
    | none =>
      intro d' hrun
      rw [Alcove.setLoop, setInsertValue_none hv] at hrun
      split at hrun
      · next herr =>
        cases hrun
        cases herr
      · cases hrun
    | some x =>
      obtain ⟨d₁, hd₁, h₁⟩ := h.insertValue (.of_scalarOf (hc v List.mem_cons_self) hv)
      have hrest := ih h₁ hargs
      have hloop : Alcove.setLoop (v :: args) d = Alcove.setLoop args d₁ := by
        rw [Alcove.setLoop, isError_of_scalarOf hv, if_neg Bool.false_ne_true, hd₁]
      rw [hloop]
      cases hxs : args.mapM scalarOf with
      | none =>
        rw [hxs] at hrest
        exact hrest
      | some xs =>
        rw [hxs] at hrest
        obtain ⟨d', hd', h'⟩ := hrest
        refine ⟨d', hd', h'.eq fun y => ?_⟩
        simp

/-! ## One form -/

section Sets

variable {sets : List (Dict Exp)} {fins : List (Finset Scalar)} {a b i : ℕ}

/-- Every set of the program holds the scalars of its finite set. -/
abbrev AllHold : List (Dict Exp) → List (Finset Scalar) → Prop := List.Forall₂ Holds

theorem AllHold.getElem? (h : AllHold sets fins) (i : ℕ) : Option.Rel Holds sets[i]? fins[i]? := by
  induction h generalizing i with
  | nil => exact .none
  | cons hd _ ih =>
    cases i with
    | zero => exact .some hd
    | succ i => exact ih i

theorem AllHold.push (h : AllHold sets fins) (hd : Holds d s) :
    AllHold (sets ++ [d]) (fins ++ [s]) := by
  induction h with
  | nil => exact .cons hd .nil
  | cons hd' _ ih => exact .cons hd' ih

/-- A set is changed in place. -/
theorem AllHold.put (h : AllHold sets fins) {f : Finset Scalar → Finset Scalar}
    (hd : ∀ s, fins[i]? = some s → Holds d (f s)) : AllHold (sets.set i d) (fins.modify i f) := by
  induction h generalizing i with
  | nil =>
    rw [List.set_nil, List.modify_nil]
    exact .nil
  | cons hd' htail ih =>
    cases i with
    | zero => exact .cons (hd _ rfl) htail
    | succ i => exact .cons hd' (ih hd)

/-- An argument is a set, or there is none. -/
theorem AllHold.arg (h : AllHold sets fins) (i : ℕ) :
    (∃ d s, setArg sets i = .set d ∧ fins[i]? = some s ∧ Holds d s) ∨
      setArg sets i = .null ∧ fins[i]? = none := by
  have hi := h.getElem? i
  unfold setArg
  cases hd : sets[i]? with
  | none =>
    cases hs : fins[i]? with
    | none => exact .inr ⟨rfl, rfl⟩
    | some s =>
      rw [hd, hs] at hi
      cases hi
  | some d =>
    cases hs : fins[i]? with
    | none =>
      rw [hd, hs] at hi
      cases hi
    | some s =>
      rw [hd, hs] at hi
      cases hi with
      | some hi => exact .inl ⟨d, s, rfl, rfl, hi⟩

theorem AllHold.pushNone (h : AllHold sets fins) : AllHold sets (pushFinset fins none) := by
  rwa [pushFinset, Option.toList_none, List.append_nil]

/-- The operations on two sets. -/
theorem AllHold.binary (h : AllHold sets fins) (name : String) {body : Dict Exp → Dict Exp → Dict Exp}
    {op : Finset Scalar → Finset Scalar → Finset Scalar}
    (hbody : ∀ {da sa db sb}, Holds da sa → Holds db sb → Holds (body da db) (op sa sb)) (a b : ℕ) :
    AllHold (pushSet sets (twoSets name (setArg sets a) (setArg sets b) body))
      (pushFinset fins do return op (← fins[a]?) (← fins[b]?)) := by
  obtain ⟨da, sa, hda, hsa, ha⟩ | ⟨hda, hsa⟩ := h.arg a
  · obtain ⟨db, sb, hdb, hsb, hb⟩ | ⟨hdb, hsb⟩ := h.arg b
    · rw [hda, hdb, hsa, hsb]
      exact h.push (hbody ha hb)
    · rw [hda, hdb, hsa, hsb]
      exact h.pushNone
  · rw [hda, hsa]
    have hnone : pushSet sets (twoSets name .null (setArg sets b) body) = sets := by
      obtain ⟨db, sb, hdb, -⟩ | ⟨hdb, -⟩ := h.arg b <;> rw [hdb] <;> rfl
    rw [hnone]
    exact h.pushNone

theorem AllHold.unchanged (h : AllHold sets fins) {f : Finset Scalar → Finset Scalar}
    (hi : fins[i]? = none) : AllHold sets (fins.modify i f) := by
  rwa [List.modify_eq_self (List.getElem?_eq_none_iff.1 hi)]

theorem eq_error_of_isError (h : v.isError = true) : v = .error := by
  unfold Exp.isError at h
  split at h
  · rfl
  · cases h

theorem AllHold.add (h : AllHold sets fins) (hc : v.Canonical) (i : ℕ) :
    AllHold (putSet sets i (setaddbangcmd (setArg sets i) v))
      ((scalarOf v).elim fins fun x => fins.modify i (insert x)) := by
  obtain ⟨d, s, hd, hs, hi⟩ | ⟨hd, hs⟩ := h.arg i
  · rw [hd, setaddbangcmd, setValueSetup, if_neg (by simp [Exp.isError])]
    cases hv : scalarOf v with
    | none =>
      rw [setKey_eq_none hv]
      split
      · next herr =>
        rw [eq_error_of_isError herr]
        exact h
      · exact h
    | some x =>
      obtain ⟨key, w, hkey, hclone, hkey', hw⟩ := setEntry_denotes (.of_scalarOf hc hv)
      rw [isError_of_scalarOf hv, if_neg Bool.false_ne_true, hkey, hclone]
      refine h.put fun s' hs' => ?_
      obtain rfl := Option.some.inj (hs.symm.trans hs')
      exact hi.set hw hkey'
  · rw [hd]
    cases scalarOf v with
    | none => exact h
    | some x => exact h.unchanged hs

theorem AllHold.del (h : AllHold sets fins) (hc : v.Canonical) (i : ℕ) :
    AllHold (putSet sets i (setdelbangcmd (setArg sets i) v))
      ((scalarOf v).elim fins fun x => fins.modify i (Finset.erase · x)) := by
  obtain ⟨d, s, hd, hs, hi⟩ | ⟨hd, hs⟩ := h.arg i
  · rw [hd, setdelbangcmd, setValueSetup, if_neg (by simp [Exp.isError])]
    cases hv : scalarOf v with
    | none =>
      rw [setKey_eq_none hv]
      split
      · next herr =>
        rw [eq_error_of_isError herr]
        exact h
      · -- the set is put back as it was
        have hput := h.put (i := i) (d := d) (f := id) fun s' hs' => by
          obtain rfl := Option.some.inj (hs.symm.trans hs')
          exact hi
        rwa [List.modify_id] at hput
    | some x =>
      have hx : Denotes v x := .of_scalarOf hc hv
      obtain ⟨key, w, hkey, -⟩ := setEntry_denotes hx
      rw [isError_of_scalarOf hv, if_neg Bool.false_ne_true, hkey]
      refine h.put fun s' hs' => ?_
      obtain rfl := Option.some.inj (hs.symm.trans hs')
      exact hi.erase hx hkey
  · rw [hd]
    cases scalarOf v with
    | none => exact h
    | some x => exact h.unchanged hs

/-- **One form keeps the sets and the finite sets together.** -/
theorem AllHold.exec (h : AllHold sets fins) {form : SetForm} (hc : form.Canonical) :
    AllHold (execSet sets form) (absExec fins form) := by
  cases form with
  | set args =>
    have hset := Holds.create.setLoop hc
    rw [execSet, absExec, setcmd]
    cases hxs : args.mapM scalarOf with
    | none =>
      rw [hxs] at hset
      have hnone : pushSet sets (setLoop args .create) = sets := by
        unfold pushSet
        split
        · next hrun => exact absurd hrun (hset _)
        · rfl
      rw [hnone]
      exact h.pushNone
    | some xs =>
      rw [hxs] at hset
      obtain ⟨d, hrun, hd⟩ := hset
      rw [hrun]
      rw [Finset.empty_union] at hd
      exact h.push hd
  | add s v => exact h.add hc s
  | del s v => exact h.del hc s
  | union a b => exact h.binary _ (fun ha hb => ha.union hb) a b
  | intersection a b => exact h.binary _ (fun ha hb => ha.inter hb) a b
  | difference a b => exact h.binary _ (fun ha hb => ha.sdiff hb) a b

/-- **A whole program does.** -/
theorem AllHold.run (h : AllHold sets fins) {forms : List SetForm} (hc : ∀ form ∈ forms, form.Canonical) :
    AllHold (forms.foldl execSet sets) (forms.foldl absExec fins) := by
  induction forms generalizing sets fins with
  | nil => exact h
  | cons form forms ih =>
    exact ih (h.exec (hc form List.mem_cons_self)) fun f hf => hc f (List.mem_cons_of_mem _ hf)

end Sets

/-! ## Answers -/

/-- A set answers as a finite set of scalars: `set-has?` is membership, `count` the number of members,
and `set->list` lists every member once. -/
structure Lawful (d : Dict Exp) (s : Finset Scalar) : Prop where
  has : ∀ v : Exp, v.Canonical → v.isError = false →
    sethaspcmd (.set d) v = .ok (if (scalarOf v).any (· ∈ s) then .t else .nil)
  count : tableCount (.set d) = some (makeFix s.card)
  list : ∃ (xs : List Exp) (ys : List Scalar), setlistcmd (.set d) = .ok (.ofList xs) ∧
    xs.map scalarOf = ys.map some ∧ ys.Nodup ∧ ys.toFinset = s

theorem Holds.has (h : Holds d s) (hc : v.Canonical) (herr : v.isError = false) :
    sethaspcmd (.set d) v = .ok (if (scalarOf v).any (· ∈ s) then .t else .nil) := by
  rw [sethaspcmd, setValueSetup, if_neg (by simp [Exp.isError]), herr, if_neg Bool.false_ne_true]
  cases hv : scalarOf v with
  | none => rw [setKey_eq_none hv]; rfl
  | some x =>
    have hx : Denotes v x := .of_scalarOf hc hv
    obtain ⟨key, w, hkey, -⟩ := setEntry_denotes hx
    have hfind := h.find_isSome hx hkey
    rw [hkey, Option.bind_some, Option.any_some]
    simp only [hfind, decide_eq_true_iff]

/-- The members, each of them once. -/
theorem Holds.members (h : Holds d s) : ∃ ys : List Scalar,
    d.entries.map (fun kv => scalarOf kv.2) = ys.map some ∧ ys.Nodup ∧ ys.toFinset = s := by
  have hscalar : ∀ kv ∈ d.entries, ∃ x, scalarOf kv.2 = some x := fun kv hkv => by
    obtain ⟨x, hx, -⟩ := h.entry kv hkv
    exact ⟨x, (denotes_iff.1 hx).2⟩
  have hdenotes {kv : CStr × Exp} {x : Scalar} (hkv : kv ∈ d.entries) (hx : scalarOf kv.2 = some x) :
      Denotes kv.2 x ∧ setKeyForValue kv.2 = some kv.1 := by
    obtain ⟨y, hy, hkey⟩ := h.entry kv hkv
    obtain rfl := Option.some.inj ((denotes_iff.1 hy).2.symm.trans hx)
    exact ⟨hy, hkey⟩
  refine ⟨d.entries.filterMap fun kv => scalarOf kv.2, ?_, ?_, ?_⟩
  · generalize d.entries = kvs at hscalar
    induction kvs with
    | nil => rfl
    | cons kv kvs ih =>
      obtain ⟨x, hx⟩ := hscalar kv List.mem_cons_self
      rw [List.map_cons, hx, ih fun kv' hkv' => hscalar kv' (List.mem_cons_of_mem _ hkv'),
        List.filterMap_cons, hx]
      rfl
  · rw [List.nodup_iff_pairwise_ne, List.pairwise_filterMap]
    refine (List.pairwise_map.1 h.ok.distinct).imp_of_mem fun {kv kv'} hkv hkv' hne x hx y hy hxy => ?_
    obtain ⟨hx, hkey⟩ := hdenotes hkv hx
    obtain ⟨hy, hkey'⟩ := hdenotes hkv' hy
    have hkeys := setKey_of_denotes hx (hxy ▸ hy)
    exact hne (Option.some.inj (hkey.symm.trans (hkeys.trans hkey')))
  · ext x
    rw [List.mem_toFinset, List.mem_filterMap, h.mem]
    constructor
    · rintro ⟨kv, hkv, hx⟩
      exact ⟨kv, hkv, (hdenotes hkv hx).1⟩
    · rintro ⟨kv, hkv, hx⟩
      exact ⟨kv, hkv, (denotes_iff.1 hx).2⟩

/-- **A table answers as the set of its scalars.** -/
theorem Holds.lawful (h : Holds d s) : Lawful d s := by
  obtain ⟨ys, hys, hnodup, hs⟩ := h.members
  have hlen : d.used = s.card := by
    have hlength := congrArg List.length hys
    rw [List.length_map, List.length_map] at hlength
    rw [h.ok.used_eq, hlength, ← hs, List.toFinset_card_of_nodup hnodup]
  refine ⟨fun v hc herr => h.has hc herr, by rw [tableCount, hlen], _, ys, rfl, ?_, hnodup, hs⟩
  rw [← hys, List.map_map]
  refine List.map_congr_left fun kv hkv => ?_
  obtain ⟨x, hx, -⟩ := h.entry kv hkv
  obtain ⟨w, hw, hx'⟩ := setValueClone_denotes hx
  rw [Function.comp_apply, hw, Option.getD_some, (denotes_iff.1 hx').2, (denotes_iff.1 hx).2]

/-- **The keys tell the scalars apart, a copy keeps its key, and the sets of a program are sets**: after
any sequence of forms, each set answers as the finite set that the same operations make. -/
theorem sets_lawful :
    (∀ v w : Exp, v.Canonical → w.Canonical → (scalarOf v).isSome → (scalarOf w).isSome →
      (setKeyForValue v = setKeyForValue w ↔ scalarOf v = scalarOf w)) ∧
    (∀ v : Exp, v.Canonical → (scalarOf v).isSome →
      ∃ w, setValueClone v = some w ∧ setKeyForValue w = setKeyForValue v) ∧
    ∀ forms : List SetForm, (∀ form ∈ forms, form.Canonical) →
      List.Forall₂ Lawful (forms.foldl execSet []) (forms.foldl absExec []) := by
  refine ⟨fun v w hv hw hx hy => ?_, fun v hv hx => ?_, fun forms hforms => ?_⟩
  · obtain ⟨x, hx⟩ := Option.isSome_iff_exists.1 hx
    obtain ⟨y, hy⟩ := Option.isSome_iff_exists.1 hy
    rw [setKey_eq_iff (.of_scalarOf hv hx) (.of_scalarOf hw hy), hx, hy, Option.some.injEq]
  · obtain ⟨x, hx⟩ := Option.isSome_iff_exists.1 hx
    exact setValueClone_key (.of_scalarOf hv hx)
  · exact (AllHold.run .nil hforms).imp fun _ _ h => h.lawful

/-- The zeros are one member; `3/2` and the decimal `1.5` are two. -/
theorem sets_lawful_numbers :
    (setKeyForValue (.float 0) = setKeyForValue (.float 0x8000000000000000) ↔
      scalarOf (.float 0) = scalarOf (.float 0x8000000000000000)) ∧
    (∃ w, setValueClone (.decimal 15 1) = some w ∧ setKeyForValue w = setKeyForValue (.decimal 15 1)) ∧
    List.Forall₂ Lawful
      ([.set [.float 0, .rational 3 2], .add 0 (.decimal 15 1), .union 0 0].foldl execSet [])
      ([.set [.float 0, .rational 3 2], .add 0 (.decimal 15 1), .union 0 0].foldl absExec []) := by
  have hrat : (Exp.rational 3 2).Canonical := ⟨by decide, by decide, by decide, by decide, by decide⟩
  have hdec : (Exp.decimal 15 1).Canonical := ⟨by decide, by decide, by norm_num, by decide⟩
  refine ⟨sets_lawful.1 _ _ trivial trivial rfl rfl, sets_lawful.2.1 _ hdec rfl,
    sets_lawful.2.2 _ fun form hform => ?_⟩
  simp only [List.mem_cons, List.not_mem_nil, or_false] at hform
  obtain rfl | rfl | rfl := hform
  · intro v hv
    simp only [List.mem_cons, List.not_mem_nil, or_false] at hv
    obtain rfl | rfl := hv
    · trivial
    · exact hrat
  · exact hdec
  · trivial

end Alcove
