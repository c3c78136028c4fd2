import Alcove.Hamt.Reach
import Mathlib.Data.List.Pairwise

/-!
# The persistent map is a finite map

The builtins `hamt`, `hamt-assoc`, `hamt-dissoc` and `hamt-merge` on arguments that are already
evaluated; each makes a new version of a map and leaves the others. A value may be the `NULL`
pointer, which a missing argument is and `cdr` of a last pair returns. The specification is a map
from keys to values in which equal keys (`isequal`) have one value.

**Main result:** `hamt_refines_map`. In a run whose steps put in neither `NULL` keys nor `NULL`
values, and never meet a key that is equal to one of the map without having its hash (`Settled`),
`hamt-get`, `hamt-contains?`, `hamt-count`, `hamt-keys` and `hamt-vals` of every version agree with the
map it stands for. Keys of the kinds that are hashed by value always have the hash of their equals
(`hamtHashkey_eq`); separately made rationals, decimals and the two shapes of nil do not
(`hamt_disagrees`).
-/

namespace Alcove.Hamt

open Lib

/-! ## Equality of keys -/

theorem isequal_self (a : Key) : isequal a a = true := if_pos rfl

theorem floatEq_trans {a b c : UInt64} (hab : floatEq a b = true) (hbc : floatEq b c = true) :
    floatEq a c = true := by
  simp only [floatEq, Bool.and_eq_true, Bool.or_eq_true, beq_iff_eq, Bool.not_eq_true'] at *
  obtain ⟨⟨ha, -⟩, hab⟩ := hab
  obtain ⟨⟨-, hc⟩, hbc⟩ := hbc
  refine ⟨⟨ha, hc⟩, ?_⟩
  rcases hab with rfl | ⟨hza, hzb⟩
  · exact hbc
  · rcases hbc with rfl | ⟨-, hzc⟩
    · exact .inr ⟨hza, hzb⟩
    · exact .inr ⟨hza, hzc⟩

/-- What `isequal` compares of two objects at different addresses. -/
def sameValue : Obj → Obj → Bool
  | .float a, .float b => floatEq a b
  | .string a, .string b | .symbol a, .symbol b | .blob a, .blob b => a == b
  | .rational a b, .rational c d => a == c && b == d
  | .decimal a b, .decimal c d => a == c && b == d
  | _, _ => false

theorem sameValue_trans {a b c : Obj} (hab : sameValue a b = true) (hbc : sameValue b c = true) :
    sameValue a c = true := by
  cases a <;> cases b <;> first | cases hab | skip
  all_goals cases c <;> first | cases hbc | skip
  case float.float.float a b c => exact floatEq_trans hab hbc
  all_goals simp_all [sameValue]

theorem isequal_iff {a b : Key} : isequal a b = true ↔ a = b ∨ (isNil a = true ∧ isNil b = true) ∨
    ∃ p q o o', a = .obj p o ∧ b = .obj q o' ∧ sameValue o o' = true := by
  unfold isequal
  by_cases hab : a = b
  · simp [hab]
  · rw [if_neg hab]
    by_cases hnil : isNil a && isNil b
    · rw [if_pos hnil]
      simp only [Bool.and_eq_true] at hnil
      simp [hnil]
    · rw [if_neg hnil]
      rw [Bool.and_eq_true] at hnil
      cases a with
      | obj p o =>
        cases b with
        | obj q o' =>
          simp only [hab, hnil, false_or, Key.obj.injEq]
          constructor
          · intro h
            exact ⟨p, q, o, o', ⟨rfl, rfl⟩, ⟨rfl, rfl⟩, by cases o <;> cases o' <;> exact h⟩
          · rintro ⟨_, _, _, _, ⟨rfl, rfl⟩, ⟨rfl, rfl⟩, h⟩
            cases o <;> cases o' <;> exact h
        | _ => simp [hab, hnil]
      | _ => cases b <;> simp_all [isNil]

/-- **Equality of keys is transitive.** -/
theorem isequal_trans {a b c : Key} (hab : isequal a b = true) (hbc : isequal b c = true) :
    isequal a c = true := by
  have hvalue : ∀ {p o x}, isNil (.obj p o) = true → sameValue o x = true → False := by
    intro p o x hn hs
    cases o <;> cases hn
    cases hs
  have hvalue' : ∀ {p o x}, isNil (.obj p o) = true → sameValue x o = true → False := by
    intro p o x hn hs
    cases o <;> cases hn
    cases x <;> cases hs
  rw [isequal_iff] at *
  rcases hab with rfl | ⟨hna, hnb⟩ | ⟨p, q, o, o', rfl, rfl, hs⟩
  · exact hbc
  · rcases hbc with rfl | ⟨-, hnc⟩ | ⟨p, q, o, o', rfl, rfl, hs⟩
    · exact .inr (.inl ⟨hna, hnb⟩)
    · exact .inr (.inl ⟨hna, hnc⟩)
    · exact (hvalue hnb hs).elim
  · rcases hbc with rfl | ⟨hnb, -⟩ | ⟨p', q', u, u', hb, rfl, hs'⟩
    · exact .inr (.inr ⟨p, q, o, o', rfl, rfl, hs⟩)
    · exact (hvalue' hnb hs).elim
    · obtain ⟨-, rfl⟩ := Key.obj.inj hb
      exact .inr (.inr ⟨p, q', o, u', rfl, rfl, sameValue_trans hs hs'⟩)

theorem isequal_congr {a b : Key} (h : isequal a b = true) (c : Key) :
    isequal a c = isequal b c := by
  rw [Bool.eq_iff_iff]
  have hba : isequal b a = true := by rw [isequal_comm, h]
  exact ⟨isequal_trans hba, isequal_trans h⟩

theorem isequal_congr_right {a b : Key} (h : isequal a b = true) (c : Key) :
    isequal c a = isequal c b := by
  rw [isequal_comm c, isequal_comm c, isequal_congr h]

/-- Where no two keys are equal, the other entries than that of a key are those of other keys. -/
theorem mem_others {V : Type} {l₁ l₂ : List (Key × V)} {k k₁ : Key} {v : V}
    (hd : DistinctKeys (l₁ ++ (k₁, v) :: l₂)) (heq : isequal k₁ k = true) (e : Key × V) :
    e ∈ l₁ ++ l₂ ↔ e ∈ l₁ ++ (k₁, v) :: l₂ ∧ isequal e.1 k = false := by
  obtain ⟨-, hdist⟩ := distinctKeys_middle.mp hd
  constructor
  · intro he
    refine ⟨?_, (isequal_congr_right heq e.1).symm.trans (hdist e he)⟩
    simp only [List.mem_append, List.mem_cons] at he ⊢
    tauto
  · rintro ⟨he, hne⟩
    simp only [List.mem_append, List.mem_cons] at he ⊢
    rcases he with he | rfl | he
    · exact .inl he
    · rw [heq] at hne
      cases hne
    · exact .inr he

/-! ## The builtins -/

variable {V W : Type}

mutual

/-- The entries that `hamt_node_foreach` visits; `none` where it would read a value as a node. -/
def Node.visit : Node V → Option (List (Key × V))
  | .mk bitmap slots => visitSlots (bitmap = 0) slots

def visitSlots (bucket : Bool) : List (Slot V) → Option (List (Key × V))
  | [] => some []
  | s :: ss => do
    let es ← s.visit bucket
    let rest ← visitSlots bucket ss
    return es ++ rest

def Slot.visit (bucket : Bool) : Slot V → Option (List (Key × V))
  | .entry key val => if bucket || key != .null then some [(key, val)] else none
  | .child node => if bucket then none else node.visit

end

/-- What `hamt_node_foreach` visits of a map. -/
def Map.visit (m : Map V) : Option (List (Key × V)) :=
  match m.root with
  | none => some []
  | some root => root.visit

/-- `isfloat(k) && k->f != k->f` -/
def isNaNKey : Key → Bool
  | .obj _ (.float bits) => isNaN bits
  | _ => false

/-- The errors of the builtins. -/
inductive BuiltinError where
  | oddArgs
  | nanKey (builtin : List UInt8)
  deriving DecidableEq

def BuiltinError.message : BuiltinError → List UInt8
  | .oddArgs => "hamt: odd number of args (need key/value pairs)".toUTF8.toList
  | .nanKey builtin => builtin ++ ": NaN is not a valid key".toUTF8.toList

/-- A value; `none` is the `NULL` pointer. -/
abbrev Val (W : Type) : Type := Option W

/-- The loop of `hamtcmd`; `odd` says that a key without a value comes last. -/
def hamtLoop (odd : Bool) (m : Map (Val W)) :
    List (Key × Val W) → Option (Except BuiltinError (Map (Val W)))
  | [] => some (if odd then .error .oddArgs else .ok m)
  | (k, v) :: rest =>
    if isNaNKey k then some (.error (.nanKey "hamt".toUTF8.toList))
    else do hamtLoop odd (← m.step hamtHashkey (.assoc k v)) rest

/-- `hamtcmd` -/
def hamtcmd (kvs : List (Key × Val W)) (odd : Bool) :
    Option (Except BuiltinError (Map (Val W))) := hamtLoop odd Map.empty kvs

/-- `hamtassoccmd` -/
def hamtassoccmd (m : Map (Val W)) (k : Key) (v : Val W) :
    Option (Except BuiltinError (Map (Val W))) :=
  if isNaNKey k then some (.error (.nanKey "hamt-assoc".toUTF8.toList))
  else (m.step hamtHashkey (.assoc k v)).map .ok

/-- `hamtdissoccmd` -/
def hamtdissoccmd (m : Map (Val W)) (k : Key) : Option (Map (Val W)) :=
  m.step hamtHashkey (.dissoc k)

/-- `hamtmergecmd`: every entry of `b` is put into `a`. -/
def hamtmergecmd (a b : Map (Val W)) : Option (Map (Val W)) := do
  (← b.visit).foldlM (fun m kv => m.step hamtHashkey (.assoc kv.1 kv.2)) a

/-- `hamtgetcmd`: the value, or the default, or `nil`. -/
def hamtgetcmd (nil : W) (m : Map (Val W)) (k : Key) (dflt : Val W) : Option W := do
  let v ← m.lookup hamtHashkey k
  return v.join.getD (dflt.getD nil)

/-- `hamtcontainspcmd` -/
def hamtcontainspcmd (m : Map (Val W)) (k : Key) : Option Bool := do
  let v ← m.lookup hamtHashkey k
  return v.join.isSome

/-- `hamtcountcmd` -/
def hamtcountcmd (m : Map (Val W)) : ℤ := m.count

/-- `hamtkeyscmd` -/
def hamtkeyscmd (m : Map (Val W)) : Option (List Key) := m.visit.map (List.map Prod.fst)

/-- `hamtvalscmd` -/
def hamtvalscmd (m : Map (Val W)) : Option (List (Val W)) := m.visit.map (List.map Prod.snd)

/-! ## The specification -/

/-- A map from keys to values; the value may be `NULL`. -/
abbrev KeyMap (W : Type) : Type := Key → Option (Val W)

namespace KeyMap

def empty : KeyMap W := fun _ => none

/-- Every key that is equal to `k` gets the value. -/
def assoc (f : KeyMap W) (k : Key) (v : Val W) : KeyMap W :=
  fun key => if isequal k key then some v else f key

def dissoc (f : KeyMap W) (k : Key) : KeyMap W := fun key => if isequal k key then none else f key

/-- The second map has precedence. -/
def merge (f g : KeyMap W) : KeyMap W := fun key => (g key).or (f key)

def ofList (kvs : List (Key × Val W)) : KeyMap W := kvs.foldl (fun f kv => f.assoc kv.1 kv.2) empty

end KeyMap

/-- **The observations of a map agree with the map it stands for**: a lookup of a key that has the
hash of every key of the map that is equal to it, the count, and the keys with their values. -/
structure AgreesWith (m : Map (Val W)) (f : KeyMap W) : Prop where
  get : ∀ nil k dflt, Agrees hamtHashkey m.entries k → hamtgetcmd nil m k dflt =
    some (match f k with
      | some v => v.getD nil
      | none => dflt.getD nil)
  contains : ∀ k, Agrees hamtHashkey m.entries k → hamtcontainspcmd m k = some (f k).isSome
  listed : ∃ keys vals, hamtkeyscmd m = some keys ∧ hamtvalscmd m = some vals ∧
    keys.length = vals.length ∧ hamtcountcmd m = keys.length ∧
    keys.Pairwise (fun a b => isequal a b = false) ∧
    ∀ k v, f k = some v ↔ ∃ k', (k', v) ∈ keys.zip vals ∧ isequal k' k = true

/-! ## Versions -/

/-- A builtin on the versions made so far. -/
inductive Builtin (W : Type) where
  | hamt (kvs : List (Key × Val W)) (odd : Bool)
  | assoc (i : ℕ) (k : Key) (v : Val W)
  | dissoc (i : ℕ) (k : Key)
  | merge (i j : ℕ)

/-- What a builtin returns is a further version, unless it is an error. -/
def pushVersion {α β : Type} (ms : List β) : Except α β → List β
  | .ok m => ms ++ [m]
  | .error _ => ms

/-- A builtin; `none` where the source has no defined behaviour. -/
def exec (ms : List (Map (Val W))) : Builtin W → Option (List (Map (Val W)))
  | .hamt kvs odd => (hamtcmd kvs odd).map (pushVersion ms)
  | .assoc i k v => do (hamtassoccmd (← ms[i]?) k v).map (pushVersion ms)
  | .dissoc i k => do (hamtdissoccmd (← ms[i]?) k).map (ms ++ [·])
  | .merge i j => do (hamtmergecmd (← ms[i]?) (← ms[j]?)).map (ms ++ [·])

/-- The arguments of `hamt` before one that it refuses. -/
def accepted (kvs : List (Key × Val W)) : List (Key × Val W) :=
  kvs.takeWhile fun kv => !isNaNKey kv.1

/-- The builtins on the specification. -/
def specStep (fs : List (KeyMap W)) : Builtin W → List (KeyMap W)
  | .hamt kvs odd =>
    if odd || kvs.any (fun kv => isNaNKey kv.1) then fs else fs ++ [KeyMap.ofList kvs]
  | .assoc i k v =>
    if isNaNKey k then fs else fs ++ (fs[i]?).toList.map fun f => f.assoc k v
  | .dissoc i k => fs ++ (fs[i]?).toList.map fun f => f.dissoc k
  | .merge i j => fs ++ ((fs[i]?).bind fun f => (fs[j]?).map fun g => f.merge g).toList

/-- The condition on a builtin: a key that is put in or removed has the hash of every key that it
meets and is equal to, and no key or value that is put in is `NULL`. -/
def Settled (ms : List (Map (Val W))) : Builtin W → Prop
  | .hamt kvs _ => ∀ kv ∈ accepted kvs, kv.1 ≠ .null ∧ kv.2.isSome ∧
      Agrees hamtHashkey (accepted kvs) kv.1
  | .assoc i k v => isNaNKey k = true ∨ (k ≠ .null ∧ v.isSome ∧
      ∀ m ∈ ms[i]?, Agrees hamtHashkey m.entries k)
  | .dissoc i k => ∀ m ∈ ms[i]?, Agrees hamtHashkey m.entries k
  | .merge i j => ∀ a ∈ ms[i]?, ∀ b ∈ ms[j]?, ∀ kv ∈ b.entries, Agrees hamtHashkey a.entries kv.1

instance (ms : List (Map (Val W))) : (op : Builtin W) → Decidable (Settled ms op)
  | .hamt kvs _ => inferInstanceAs (Decidable (∀ kv ∈ accepted kvs, kv.1 ≠ .null ∧ kv.2.isSome ∧
      ∀ e ∈ accepted kvs, isequal e.1 kv.1 = true → hamtHashkey e.1 = hamtHashkey kv.1))
  | .assoc i k v => inferInstanceAs (Decidable (isNaNKey k = true ∨ (k ≠ .null ∧ v.isSome ∧
      ∀ m ∈ ms[i]?, ∀ e ∈ m.entries, isequal e.1 k = true → hamtHashkey e.1 = hamtHashkey k)))
  | .dissoc i k => inferInstanceAs (Decidable (∀ m ∈ ms[i]?, ∀ e ∈ m.entries,
      isequal e.1 k = true → hamtHashkey e.1 = hamtHashkey k))
  | .merge i j => inferInstanceAs (Decidable (∀ a ∈ ms[i]?, ∀ b ∈ ms[j]?, ∀ kv ∈ b.entries,
      ∀ e ∈ a.entries, isequal e.1 kv.1 = true → hamtHashkey e.1 = hamtHashkey kv.1))

/-! ## The walk over a map -/

section Visit

variable {hashkey : Key → UInt32}

theorem visitSlots_eq {bucket : Bool} {slots : List (Slot V)}
    (h : ∀ s ∈ slots, s.visit bucket = some s.entries) :
    visitSlots bucket slots = some (slotsEntries slots) := by
  induction slots with
  | nil => rw [visitSlots, slotsEntries_nil]
  | cons s ss ih =>
    obtain ⟨hs, hss⟩ := List.forall_mem_cons.mp h
    rw [visitSlots, hs, ih hss, slotsEntries_cons]
    rfl

/-- The walk visits the entries. -/
theorem Good.visit {f shift p : ℕ} {n : Node V} (h : Good hashkey f shift p n) :
    n.visit = some n.entries := by
  induction f generalizing shift p n with
  | zero => exact h.elim
  | succ f ih =>
    obtain ⟨bm, slots⟩ := n
    rw [entries_mk, Node.visit]
    refine visitSlots_eq fun s hs => ?_
    rcases Nat.lt_or_ge shift 32 with hlt | hge
    · obtain ⟨hbm, hslots⟩ := (good_bitmap hlt).mp h
      obtain ⟨i, -, hok⟩ := forall₂_mem_right hslots hs
      cases s with
      | entry k v =>
        have hk : (k != .null) = true := by simpa using hok.1
        rw [Slot.visit, hk, Bool.or_true, entries_entry]
        rfl
      | child c =>
        rw [Slot.visit, decide_eq_false hbm, entries_child]
        exact ih hok
    · obtain ⟨rfl, -, hall⟩ := (good_bucket hge).mp h
      obtain ⟨k, v, rfl, -⟩ := hall s hs
      rw [Slot.visit, entries_entry]
      rfl

theorem Map.Inv.visit {m : Map V} (h : m.Inv hashkey) : m.visit = some m.entries := by
  obtain ⟨root, count⟩ := m
  cases root with
  | none => rfl
  | some root => exact (h.good root rfl).visit

end Visit

/-! ## One update -/

/-- The map holds the specification: at a key it has what the entry of an equal key holds. -/
structure Stands (m : Map (Val W)) (f : KeyMap W) : Prop where
  inv : m.Inv hamtHashkey
  put : ∀ e ∈ m.entries, e.1 ≠ .null ∧ e.2.isSome
  spec : ∀ k v, f k = some v ↔ ∃ k', (k', v) ∈ m.entries ∧ isequal k' k = true

section Update

variable {m : Map (Val W)} {f g : KeyMap W} {k : Key} {v : Val W}

theorem stands_empty : Stands (Map.empty : Map (Val W)) KeyMap.empty where
  inv := inv_empty
  put := fun _ he => by cases he
  spec := fun k v => by simp [KeyMap.empty, Map.empty, Map.entries]

/-- A key has at most one entry. -/
theorem Stands.absent (h : Stands m f) (hk : Absent k m.entries) : f k = none := by
  rw [Option.eq_none_iff_forall_ne_some]
  intro v hv
  obtain ⟨k', hmem, heq⟩ := (h.spec k v).mp hv
  rw [hk _ hmem] at heq
  cases heq

theorem Stands.assoc (h : Stands m f) (hk : k ≠ .null) (hv : v.isSome)
    (hag : Agrees hamtHashkey m.entries k) :
    ∃ m', m.step hamtHashkey (.assoc k v) = some m' ∧ Stands m' (f.assoc k v) ∧
      ∀ e ∈ m'.entries, e.1 = k ∨ ∃ e' ∈ m.entries, e'.1 = e.1 := by
  obtain ⟨m', added, hstep, hinv, l₁, k₁, l₂, hes', hold⟩ : ∃ m' added,
      m.step hamtHashkey (.assoc k v) = some m' ∧ m'.Inv hamtHashkey ∧
        Assoc k v m.entries m'.entries added := h.inv.assoc hk hag
  -- the other entries are those of the map whose keys are not equal to the new one
  obtain ⟨hk₁, hkey, hothers⟩ : isequal k₁ k = true ∧
      (k₁ = k ∨ ∃ v', (k₁, v') ∈ m.entries) ∧
      ∀ e, e ∈ l₁ ++ l₂ ↔ e ∈ m.entries ∧ isequal e.1 k = false := by
    cases added with
    | true =>
      obtain ⟨rfl, hes, hnone⟩ := hold
      refine ⟨isequal_self _, .inl rfl, fun e => ?_⟩
      rw [hes]
      exact ⟨fun he => ⟨he, hnone e (hes ▸ he)⟩, fun he => he.1⟩
    | false =>
      obtain ⟨heq, v', hes⟩ := hold
      refine ⟨heq, .inr ⟨v', by rw [hes]; simp⟩, fun e => ?_⟩
      rw [hes]
      exact mem_others (hes ▸ h.inv.distinct) heq e
  have hmem : ∀ e, e ∈ m'.entries ↔ e = (k₁, v) ∨ (e ∈ m.entries ∧ isequal e.1 k = false) := by
    intro e
    rw [hes', ← hothers e]
    simp only [List.mem_append, List.mem_cons]
    tauto
  refine ⟨m', hstep, ⟨hinv, fun e he => ?_, fun key w => ?_⟩, fun e he => ?_⟩
  · rcases (hmem e).mp he with rfl | ⟨he, -⟩
    · refine ⟨?_, hv⟩
      rcases hkey with rfl | ⟨v', hv'⟩
      · exact hk
      · exact (h.put _ hv').1
    · exact h.put e he
  · rw [KeyMap.assoc]
    split
    · rename_i heq
      constructor
      · intro hw
        obtain rfl := Option.some.inj hw
        exact ⟨k₁, (hmem _).mpr (.inl rfl), isequal_trans hk₁ heq⟩
      · rintro ⟨k', hk', heq'⟩
        rcases (hmem _).mp hk' with he | ⟨-, hne⟩
        · exact congrArg some (Prod.mk.inj he).2.symm
        · rw [isequal_congr_right heq, heq'] at hne
          cases hne
    · rename_i hne
      rw [h.spec]
      constructor
      · rintro ⟨k', hk', heq'⟩
        refine ⟨k', (hmem _).mpr (.inr ⟨hk', ?_⟩), heq'⟩
        rw [isequal_congr heq', isequal_comm]
        exact Bool.eq_false_iff.mpr hne
      · rintro ⟨k', hk', heq'⟩
        rcases (hmem _).mp hk' with he | ⟨hk', -⟩
        · obtain ⟨rfl, -⟩ := Prod.mk.inj he
          rw [isequal_congr hk₁] at heq'
          exact (hne heq').elim
        · exact ⟨k', hk', heq'⟩
  · rcases (hmem e).mp he with rfl | ⟨he, -⟩
    · exact hkey.imp id fun ⟨v', hv'⟩ => ⟨(k₁, v'), hv', rfl⟩
    · exact .inr ⟨e, he, rfl⟩

theorem Stands.dissoc (h : Stands m f) (hag : Agrees hamtHashkey m.entries k) :
    ∃ m', m.step hamtHashkey (.dissoc k) = some m' ∧ Stands m' (f.dissoc k) := by
  obtain ⟨m', removed, hstep, hinv, hd⟩ := h.inv.dissoc k
  have hmem : ∀ e, e ∈ m'.entries ↔ e ∈ m.entries ∧ isequal e.1 k = false := by
    intro e
    cases removed with
    | true =>
      obtain ⟨l₁, k₁, v₁, l₂, heq, hes, hes'⟩ : ∃ l₁ k₁ v₁ l₂, isequal k₁ k = true ∧
        m.entries = l₁ ++ (k₁, v₁) :: l₂ ∧ m'.entries = l₁ ++ l₂ := hd
      rw [hes', hes]
      exact mem_others (hes ▸ h.inv.distinct) heq e
    | false =>
      obtain ⟨hes, habs⟩ : m'.entries = m.entries ∧
        (Agrees hamtHashkey m.entries k → Absent k m.entries) := hd
      rw [hes]
      exact ⟨fun he => ⟨he, habs hag e he⟩, fun he => he.1⟩
  refine ⟨m', hstep, hinv, fun e he => h.put e ((hmem e).mp he).1, fun key w => ?_⟩
  rw [KeyMap.dissoc]
  split
  · rename_i heq
    constructor
    · intro hw
      cases hw
    · rintro ⟨k', hk', heq'⟩
      have hne := ((hmem _).mp hk').2
      rw [isequal_congr_right heq, heq'] at hne
      cases hne
  · rename_i hne
    rw [h.spec]
    constructor
    · rintro ⟨k', hk', heq'⟩
      refine ⟨k', (hmem _).mpr ⟨hk', ?_⟩, heq'⟩
      rw [isequal_congr heq', isequal_comm]
      exact Bool.eq_false_iff.mpr hne
    · rintro ⟨k', hk', heq'⟩
      exact ⟨k', ((hmem _).mp hk').1, heq'⟩

/-- The keys of a list agree with each other and with those of the map. -/
def Consistent (m : Map (Val W)) (kvs : List (Key × Val W)) : Prop :=
  ∀ kv ∈ kvs, kv.1 ≠ .null ∧ kv.2.isSome ∧ Agrees hamtHashkey m.entries kv.1 ∧
    Agrees hamtHashkey kvs kv.1

/-- What is left to put in agrees with the map after the first entry. -/
theorem Consistent.tail {kv : Key × Val W} {kvs : List (Key × Val W)} {m' : Map (Val W)}
    (h : Consistent m (kv :: kvs))
    (hm' : ∀ e ∈ m'.entries, e.1 = kv.1 ∨ ∃ e' ∈ m.entries, e'.1 = e.1) : Consistent m' kvs := by
  intro kv' hkv'
  obtain ⟨hk, hv, hm, hrest⟩ := h kv' (List.mem_cons_of_mem _ hkv')
  refine ⟨hk, hv, fun e he heq => ?_, fun e he => hrest e (List.mem_cons_of_mem _ he)⟩
  rcases hm' e he with hek | ⟨e', he', hek⟩
  · rw [hek] at heq ⊢
    exact hrest kv List.mem_cons_self heq
  · rw [← hek] at heq ⊢
    exact hm e' he' heq

/-- Several entries are put in one after the other. -/
theorem Stands.assocAll (h : Stands m f) {kvs : List (Key × Val W)} (hc : Consistent m kvs) :
    ∃ m', kvs.foldlM (fun m kv => m.step hamtHashkey (.assoc kv.1 kv.2)) m = some m' ∧
      Stands m' (kvs.foldl (fun f kv => f.assoc kv.1 kv.2) f) := by
  induction kvs generalizing m f with
  | nil => exact ⟨m, rfl, h⟩
  | cons kv kvs ih =>
    obtain ⟨hk, hv, hag, -⟩ := hc kv List.mem_cons_self
    obtain ⟨m₁, hstep, hm₁, hkeys⟩ := h.assoc hk hv hag
    obtain ⟨m', hfold, hm'⟩ := ih hm₁ (hc.tail hkeys)
    refine ⟨m', ?_, hm'⟩
    rw [List.foldlM_cons, hstep]
    exact hfold

/-- The loop of `hamt` stops at a key that it refuses, or puts all entries in. -/
theorem Stands.hamtLoop (h : Stands m f) (odd : Bool) {kvs : List (Key × Val W)}
    (hc : Consistent m (accepted kvs)) :
    ∃ r, hamtLoop odd m kvs = some r ∧
      if odd || kvs.any (fun kv => isNaNKey kv.1) then ∃ err, r = .error err
      else ∃ m', r = .ok m' ∧ Stands m' (kvs.foldl (fun f kv => f.assoc kv.1 kv.2) f) := by
  induction kvs generalizing m f with
  | nil =>
    cases odd with
    | true => exact ⟨_, rfl, .oddArgs, rfl⟩
    | false => exact ⟨_, rfl, m, rfl, h⟩
  | cons kv kvs ih =>
    obtain ⟨k, v⟩ := kv
    cases hnan : isNaNKey k with
    | true =>
      refine ⟨.error (.nanKey "hamt".toUTF8.toList), by rw [Hamt.hamtLoop, if_pos hnan], ?_⟩
      rw [List.any_cons, hnan, Bool.true_or, Bool.or_true, if_pos rfl]
      exact ⟨_, rfl⟩
    | false =>
      rw [accepted, List.takeWhile_cons, hnan] at hc
      obtain ⟨hk, hv, hag, -⟩ := hc (k, v) List.mem_cons_self
      obtain ⟨m₁, hstep, hm₁, hkeys⟩ := h.assoc hk hv hag
      obtain ⟨r, hr, hres⟩ := ih hm₁ (hc.tail hkeys)
      refine ⟨r, ?_, ?_⟩
      · rw [Hamt.hamtLoop, hnan, hstep]
        exact hr
      · rw [List.any_cons, hnan, Bool.false_or]
        exact hres

theorem foldl_assoc (kvs : List (Key × Val W)) (f : KeyMap W) (key : Key) :
    kvs.foldl (fun f kv => f.assoc kv.1 kv.2) f key =
      ((kvs.reverse.find? fun kv => isequal kv.1 key).map Prod.snd).or (f key) := by
  induction kvs generalizing f with
  | nil => rfl
  | cons kv kvs ih =>
    rw [List.foldl_cons, ih, List.reverse_cons, List.find?_append]
    cases kvs.reverse.find? fun kv => isequal kv.1 key with
    | some e => rfl
    | none =>
      rw [KeyMap.assoc, List.find?_singleton]
      split <;> simp_all

/-- **Putting the entries of a second map in is a merge.** -/
theorem Stands.foldl_entries {b : Map (Val W)} (hb : Stands b g) :
    b.entries.foldl (fun f kv => f.assoc kv.1 kv.2) f = f.merge g := by
  funext key
  rw [foldl_assoc, KeyMap.merge]
  congr 1
  cases hfind : b.entries.reverse.find? fun kv => isequal kv.1 key with
  | none =>
    refine (hb.absent fun e he => ?_).symm
    simpa using List.find?_eq_none.mp hfind e (List.mem_reverse.mpr he)
  | some e =>
    have heq : isequal e.1 key = true := by simpa using List.find?_some hfind
    have hmem : e ∈ b.entries := List.mem_reverse.mp (List.mem_of_find?_eq_some hfind)
    exact ((hb.spec key e.2).mpr ⟨e.1, hmem, heq⟩).symm

theorem Stands.merge {a b : Map (Val W)} (ha : Stands a f) (hb : Stands b g)
    (hag : ∀ kv ∈ b.entries, Agrees hamtHashkey a.entries kv.1) :
    ∃ m', hamtmergecmd a b = some m' ∧ Stands m' (f.merge g) := by
  have hc : Consistent a b.entries := by
    intro kv hkv
    refine ⟨(hb.put kv hkv).1, (hb.put kv hkv).2, hag kv hkv, fun e he heq => ?_⟩
    -- two entries of one map with equal keys are one entry
    have hpair : b.entries.Pairwise fun x y => isequal x.1 y.1 = false :=
      List.pairwise_map.mp hb.inv.distinct
    by_cases hne : e = kv
    · rw [hne]
    · have hsymm : Std.Symm fun x y : Key × Val W => isequal x.1 y.1 = false :=
        ⟨fun x y h => by rw [isequal_comm]; exact h⟩
      have hfalse := hpair.forall he hkv hne
      rw [heq] at hfalse
      cases hfalse
  obtain ⟨m', hfold, hm'⟩ := ha.assocAll hc
  refine ⟨m', ?_, hb.foldl_entries (f := f) ▸ hm'⟩
  rw [hamtmergecmd, hb.inv.visit]
  exact hfold

/-- **What is observed of a map that holds the specification.** -/
theorem Stands.agreesWith (h : Stands m f) : AgreesWith m f := by
  have hvisit := h.inv.visit
  have hzip : (m.entries.map Prod.fst).zip (m.entries.map Prod.snd) = m.entries :=
    (List.zip_of_prod rfl rfl).symm
  -- the value that a lookup finds is not `NULL`, so what it returns tells whether there is one
  have hlookup : ∀ k, Agrees hamtHashkey m.entries k →
      ∃ r, m.lookup hamtHashkey k = some r ∧ r = f k ∧ ∀ v, r = some v → v.isSome := by
    intro k hag
    obtain ⟨r, hr, hfound⟩ := h.inv.lookup k
    refine ⟨r, hr, ?_, ?_⟩
    · cases r with
      | none => exact (h.absent (hfound hag)).symm
      | some v => exact ((h.spec k v).mpr hfound).symm
    · rintro v rfl
      obtain ⟨k', hmem, -⟩ := hfound
      exact (h.put _ hmem).2
  constructor
  · intro nil k dflt hag
    obtain ⟨r, hr, hrf, hsome⟩ := hlookup k hag
    rw [hamtgetcmd, hr, ← hrf]
    cases r with
    | none => rfl
    | some v =>
      obtain ⟨w, rfl⟩ := Option.isSome_iff_exists.mp (hsome v rfl)
      rfl
  · intro k hag
    obtain ⟨r, hr, hrf, hsome⟩ := hlookup k hag
    rw [hamtcontainspcmd, hr, ← hrf]
    cases r with
    | none => rfl
    | some v =>
      obtain ⟨w, rfl⟩ := Option.isSome_iff_exists.mp (hsome v rfl)
      rfl
  · refine ⟨_, _, by rw [hamtkeyscmd, hvisit]; rfl, by rw [hamtvalscmd, hvisit]; rfl, ?_, ?_,
      h.inv.distinct, ?_⟩
    · rw [List.length_map, List.length_map]
    · rw [hamtcountcmd, h.inv.count, List.length_map]
    · intro k v
      rw [hzip, h.spec]

end Update

/-! ## Every run -/

section Run

variable {ms ms' : List (Map (Val W))} {fs : List (KeyMap W)}

theorem forall₂_getElem? {α β : Type} {R : α → β → Prop} {as : List α} {bs : List β}
    (h : List.Forall₂ R as bs) {i : ℕ} {a : α} (ha : as[i]? = some a) :
    ∃ b, bs[i]? = some b ∧ R a b := by
  induction h generalizing i with
  | nil => simp at ha
  | @cons a' b' as bs hR _ ih =>
    cases i with
    | zero =>
      obtain rfl := Option.some.inj ha
      exact ⟨b', rfl, hR⟩
    | succ i => exact ih ha

theorem forall₂_push {α β : Type} {R : α → β → Prop} {as : List α} {bs : List β} {a : α} {b : β}
    (h : List.Forall₂ R as bs) (hab : R a b) : List.Forall₂ R (as ++ [a]) (bs ++ [b]) :=
  List.rel_append h (.cons hab .nil)

/-- The versions that a builtin names are there. -/
def Builtin.Named (ms : List (Map (Val W))) : Builtin W → Prop
  | .hamt _ _ => True
  | .assoc i _ _ | .dissoc i _ => i < ms.length
  | .merge i j => i < ms.length ∧ j < ms.length

/-- **A builtin that meets the condition is defined, and its result holds the specification.** -/
theorem exec_stands (h : List.Forall₂ Stands ms fs) {op : Builtin W} (hop : Settled ms op)
    (hnamed : op.Named ms) :
    ∃ ms', exec ms op = some ms' ∧ List.Forall₂ Stands ms' (specStep fs op) := by
  cases op with
  | hamt kvs odd =>
    have hc : Consistent (Map.empty : Map (Val W)) (accepted kvs) := fun kv hkv =>
      ⟨(hop kv hkv).1, (hop kv hkv).2.1, List.forall_mem_nil _, (hop kv hkv).2.2⟩
    obtain ⟨r, hr, hres⟩ := stands_empty.hamtLoop odd hc
    refine ⟨_, by rw [exec, hamtcmd, hr]; rfl, ?_⟩
    rw [specStep]
    split
    · rename_i hbad
      rw [if_pos hbad] at hres
      obtain ⟨err, rfl⟩ := hres
      exact h
    · rename_i hgood
      rw [if_neg hgood] at hres
      obtain ⟨m', rfl, hm'⟩ := hres
      exact forall₂_push h hm'
  | assoc i k v =>
    have hi : ms[i]? = some ms[i] := List.getElem?_eq_getElem hnamed
    obtain ⟨f, hf, hstands⟩ := forall₂_getElem? h hi
    rw [exec, specStep, hi, hf]
    cases hnan : isNaNKey k with
    | true => exact ⟨ms, by simp [hamtassoccmd, hnan, pushVersion], h⟩
    | false =>
      obtain ⟨hk, hv, hag⟩ : k ≠ .null ∧ v.isSome ∧ ∀ m ∈ ms[i]?, Agrees hamtHashkey m.entries k :=
        hop.resolve_left (by rw [hnan]; exact Bool.false_ne_true)
      obtain ⟨m', hm', hstands', -⟩ := hstands.assoc hk hv (hag _ hi)
      refine ⟨ms ++ [m'], by simp [hamtassoccmd, hnan, hm', pushVersion], ?_⟩
      exact forall₂_push h hstands'
  | dissoc i k =>
    have hi : ms[i]? = some ms[i] := List.getElem?_eq_getElem hnamed
    obtain ⟨f, hf, hstands⟩ := forall₂_getElem? h hi
    obtain ⟨m', hm', hstands'⟩ := hstands.dissoc (hop _ hi)
    rw [exec, specStep, hi, hf]
    exact ⟨ms ++ [m'], by simp [hamtdissoccmd, hm'], forall₂_push h hstands'⟩
  | merge i j =>
    have hi : ms[i]? = some (ms.get ⟨i, hnamed.1⟩) := List.getElem?_eq_getElem hnamed.1
    have hj : ms[j]? = some (ms.get ⟨j, hnamed.2⟩) := List.getElem?_eq_getElem hnamed.2
    obtain ⟨f, hf, ha⟩ := forall₂_getElem? h hi
    obtain ⟨g, hg, hb⟩ := forall₂_getElem? h hj
    obtain ⟨m', hm', hstands'⟩ := ha.merge hb (hop _ hi _ hj)
    rw [exec, specStep, hi, hj, hf, hg]
    exact ⟨ms ++ [m'], congrArg (Option.map (ms ++ [·])) hm', forall₂_push h hstands'⟩

/-- A builtin that returns names versions that are there. -/
theorem named_of_exec {op : Builtin W} (h : exec ms op = some ms') : op.Named ms := by
  cases op with
  | hamt kvs odd => trivial
  | assoc i k v =>
    obtain ⟨m, hm, -⟩ := Option.bind_eq_some_iff.mp h
    exact (List.getElem?_eq_some_iff.mp hm).1
  | dissoc i k =>
    obtain ⟨m, hm, -⟩ := Option.bind_eq_some_iff.mp h
    exact (List.getElem?_eq_some_iff.mp hm).1
  | merge i j =>
    obtain ⟨a, ha, h'⟩ := Option.bind_eq_some_iff.mp h
    obtain ⟨b, hb, -⟩ := Option.bind_eq_some_iff.mp h'
    exact ⟨(List.getElem?_eq_some_iff.mp ha).1, (List.getElem?_eq_some_iff.mp hb).1⟩

/-- **Every version is a finite map.** After a run of builtins that all meet the condition, the
observations of each version agree with the map that the specification gives, and every further
builtin that meets the condition is defined. -/
theorem hamt_refines_map {ops : List (Builtin W)} (h : Path exec Settled [] ops ms) :
    List.Forall₂ AgreesWith ms (ops.foldl specStep []) ∧
      ∀ op, op.Named ms → Settled ms op → ∃ ms', exec ms op = some ms' := by
  have hstands : List.Forall₂ Stands ms (ops.foldl specStep []) := by
    refine h.simulates (fun ms op ms' fs hfs hop hexec => ?_) .nil
    obtain ⟨ms₁, hms₁, hres⟩ := exec_stands hfs hop (named_of_exec hexec)
    obtain rfl := Option.some.inj (hms₁.symm.trans hexec)
    exact hres
  refine ⟨hstands.imp fun m f hmf => hmf.agreesWith, fun op hnamed hop => ?_⟩
  obtain ⟨ms', hms', -⟩ := exec_stands hstands hop hnamed
  exact ⟨ms', hms'⟩

end Run

/-- Three versions: two entries, one of them replaced and a string added, and a merge of the two. -/
def threeVersions : List (Builtin ℕ) :=
  [.hamt [(.fix 1, some 10), (.fix 33, some 20)] false,
    .assoc 0 (.obj 4096 (.string [104])) (some 30), .dissoc 1 (.fix 1), .merge 2 0]

theorem hamt_refines_map_three : ∃ ms : List (Map (Val ℕ)), run exec [] threeVersions = some ms ∧
    List.Forall₂ AgreesWith ms (threeVersions.foldl specStep []) := by
  obtain ⟨ms, hrun⟩ : ∃ ms, run (guarded exec fun ms op => decide (Settled ms op)) []
      threeVersions = some ms := ⟨_, rfl⟩
  have hpath := (path_of_run_guarded hrun).mono fun ms op h => of_decide_eq_true h
  exact ⟨ms, hpath.run, (hamt_refines_map hpath).1⟩

/-- **Where a map disagrees**: a second one half is not found under the address of the first, a
`NULL` value counts as absent, and a `NULL` key is read as a child. -/
theorem hamt_disagrees :
    (isequal (half 4096) (half 4352) = true ∧ hamtHashkey (half 4096) ≠ hamtHashkey (half 4352)) ∧
    (∃ m : Map (Val ℕ), run exec [] [.hamt [(half 4096, some 1)] false] = some [m] ∧
      hamtcontainspcmd m (half 4352) = some false ∧
      (KeyMap.ofList [(half 4096, some 1)]) (half 4352) = some (some 1)) ∧
    (∃ m : Map (Val ℕ), run exec [] [.hamt [(.fix 1, none)] false] = some [m] ∧
      hamtgetcmd 0 m (.fix 1) (some 7) = some 7 ∧ hamtcontainspcmd m (.fix 1) = some false ∧
      KeyMap.ofList [(.fix 1, (none : Val ℕ))] (.fix 1) = some none) ∧
    (∃ m : Map (Val ℕ), run exec [] [.hamt [(.null, some 1)] false] = some [m] ∧
      hamtcontainspcmd m .null = none) :=
  ⟨by decide, ⟨_, rfl, by decide, by decide⟩, ⟨_, rfl, by decide, by decide, by decide⟩,
    ⟨_, rfl, by decide⟩⟩

end Alcove.Hamt
