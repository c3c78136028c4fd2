import Alcove.Hamt.Update
import Alcove.Lib.Transition

/-!
# The persistent map: every map that updates can build

`MapOk` says what holds of the trie of every map that any sequence of `hamt-assoc` and `hamt-dissoc`
builds from the empty one (`trie_ok`), under the condition that each key that is put in may be put
in (`Fresh`): it is not the `NULL` pointer, which the slots use to mark a child, and the keys of the
map that are equal to it have its hash. The comment on `hamt_hashkey` promises the second for all
keys, and it holds for the kinds of keys hashed by value (`hamtHashkey_eq`), but equal rationals and
decimals are hashed by address (`exists_equal_keys`).
-/

namespace Alcove.Hamt

open Lib

/-! ## Equal keys -/

theorem floatEq_comm (a b : UInt64) : floatEq a b = floatEq b a := by
  unfold floatEq
  rw [Bool.beq_comm, Bool.and_comm (isZero a), Bool.and_comm (!isNaN a)]

theorem isequal_comm (a b : Key) : isequal a b = isequal b a := by
  unfold isequal
  by_cases hab : a = b
  · rw [if_pos hab, if_pos hab.symm]
  · rw [if_neg hab, if_neg (Ne.symm hab), Bool.and_comm]
    split
    · rfl
    · cases a with
      | obj a o =>
        cases b with
        | obj b o' =>
          cases o <;> cases o' <;> simp [floatEq_comm, Bool.beq_comm]
        | _ => rfl
      | _ => cases b <;> rfl

/-- The keys that `hamt_hashkey` hashes by what `isequal` compares. -/
def hashedByValue : Key → Bool
  | .null | .obj _ .nil | .obj _ (.rational _ _) | .obj _ (.decimal _ _) => false
  | _ => true

theorem floatEq_hash {a b : UInt64} (h : floatEq a b = true) :
    (if isZero a then 0 else a.toNat) = if isZero b then 0 else b.toNat := by
  simp only [floatEq, Bool.and_eq_true, Bool.or_eq_true, beq_iff_eq] at h
  rcases h.2 with rfl | ⟨ha, hb⟩
  · rfl
  · rw [if_pos ha, if_pos hb]

/-- Equal keys of these kinds have equal hashes. -/
theorem hamtHashkey_eq {a b : Key} (ha : hashedByValue a = true) (h : isequal a b = true) :
    hamtHashkey a = hamtHashkey b := by
  by_cases hab : a = b
  · rw [hab]
  · have hnil : isNil a = false := by
      cases a with
      | obj addr o => cases o <;> simp_all [hashedByValue, isNil]
      | _ => simp_all [hashedByValue, isNil]
    unfold isequal at h
    rw [if_neg hab, hnil, Bool.false_and, if_neg Bool.false_ne_true] at h
    cases a with
    | obj addr o =>
      cases b with
      | obj addr' o' =>
        cases o <;> cases o' <;> simp_all [hashedByValue, hamtHashkey]
        exact congrArg _ (congrArg _ (floatEq_hash h))
      | _ => cases h
    | _ => cases b <;> cases h

/-! ## Every node of a trie -/

variable {V : Type} {hashkey : Key → UInt32}

theorem Good.below {n m : Node V} {shift shift' : ℕ} (hb : Below n shift m shift') {f p : ℕ}
    (hg : Good hashkey f shift p n) (hp : p < 2 ^ shift) (hfs : shift + 5 * f = 40) :
    ∃ f' p', Good hashkey f' shift' p' m ∧ p' < 2 ^ shift' ∧ shift' + 5 * f' = 40 := by
  induction hb generalizing f p with
  | refl n shift => exact ⟨f, p, hg, hp, hfs⟩
  | @child bm slots c n shift shift' hmem _ ih =>
    cases f with
    | zero => exact hg.elim
    | succ f =>
      rcases Nat.lt_or_ge shift 32 with hlt | hge
      · obtain ⟨i, hi, hok⟩ := forall₂_mem_right ((good_bitmap hlt).mp hg).2 hmem
        exact ih hok (path_lt hp (mem_bits.mp hi).1) (by omega)
      · obtain ⟨k, v, hk, -⟩ := ((good_bucket hge).mp hg).2.2 _ hmem
        cases hk

/-- A node of the right shape is what the trie promises. -/
theorem Good.nodeOk {n : Node V} {f shift p : ℕ} (hg : Good hashkey f shift p n)
    (hp : p < 2 ^ shift) : NodeOk hashkey shift n := by
  cases f with
  | zero => exact hg.elim
  | succ f =>
    obtain ⟨bm, slots⟩ := n
    rcases Nat.lt_or_ge shift 32 with hlt | hge
    · obtain ⟨hbm, hslots⟩ := (good_bitmap hlt).mp hg
      have hlen := hslots.length_eq
      have hpos : 0 < (bits (bitSet bm) 32).length := by
        rw [List.length_pos_iff, Ne, ← eq_zero_iff_bits]
        exact hbm
      refine .bitmap hbm hlt (by rw [popcount, ← length_bits, hlen]) (by omega) ?_ ?_
      · rintro ⟨i, s⟩ hs e he
        have hi := (mem_bits.mp (List.of_mem_zip hs).1).1
        have hsum := (List.forall₂_zip hslots hs).hash hp hi e he
        rw [hashIndex_eq _ hlt]
        have hhash : (hashkey e.1).toNat % 2 ^ shift = p := by
          have hmod := congrArg (· % 2 ^ shift) hsum
          simpa [Nat.add_mul_mod_self_left, Nat.mod_eq_of_lt hp, Nat.pow_add] using hmod
        rw [mod_two_pow_add, hhash] at hsum
        have hmul := Nat.add_left_cancel hsum
        rw [Nat.eq_of_mul_eq_mul_left (Nat.two_pow_pos shift) hmul]
      · intro k v hkv
        obtain ⟨i, -, hok⟩ := forall₂_mem_right hslots hkv
        exact hok.1
    · obtain ⟨rfl, hne, hall⟩ := (good_bucket hge).mp hg
      refine .bucket hge (List.length_pos_iff.mpr hne) (fun s hs => ?_) ?_
      · obtain ⟨k, v, rfl, -⟩ := hall s hs
        exact ⟨k, v, rfl⟩
      · -- at this level the whole hash has been used up
        have hfull : ∀ k v, Slot.entry k v ∈ slots → (hashkey k).toNat = p := by
          intro k v hkv
          obtain ⟨k', v', heq, hk⟩ := hall _ hkv
          obtain ⟨rfl, rfl⟩ := Slot.entry.inj heq
          have hle : 2 ^ 32 ≤ 2 ^ shift := Nat.pow_le_pow_right (by omega) hge
          rwa [Nat.mod_eq_of_lt ((hashkey k).toNat_lt.trans_le hle)] at hk
        intro k v k' v' hkv hkv'
        exact UInt32.toNat_inj.mp ((hfull k v hkv).trans (hfull k' v' hkv').symm)

/-! ## Every map -/

variable (hashkey)

/-- The condition on an update: what is put in is not `NULL`, and the keys of the map that are
equal to it have its hash. -/
def Fresh (m : Map V) : Op V → Prop
  | .assoc key _ => key ≠ .null ∧ Agrees hashkey m.entries key
  | .dissoc _ => True

/-- No two of the entries have equal keys. -/
def DistinctKeys (es : List (Key × V)) : Prop :=
  (es.map Prod.fst).Pairwise fun a b => isequal a b = false

instance (es : List (Key × V)) : Decidable (DistinctKeys es) :=
  inferInstanceAs (Decidable (List.Pairwise _ _))

instance (m : Map V) : (op : Op V) → Decidable (Fresh hashkey m op)
  | .assoc key _ => inferInstanceAs (Decidable (key ≠ .null ∧ ∀ e ∈ m.entries,
      isequal e.1 key = true → hashkey e.1 = hashkey key))
  | .dissoc _ => inferInstanceAs (Decidable True)

/-- What holds of a map: the shape of its nodes, at most eight levels, no equal keys, and the
count. -/
structure MapOk (m : Map V) : Prop where
  nodes : ∀ root, m.root = some root → ∀ n shift, Below root 0 n shift →
    NodeOk hashkey shift n ∧ shift ≤ 35
  distinct : DistinctKeys m.entries
  count : m.count = m.entries.length

/-- What an update keeps. -/
structure Map.Inv (m : Map V) : Prop where
  good : ∀ root, m.root = some root → Good hashkey maxDepth 0 0 root
  distinct : DistinctKeys m.entries
  count : m.count = m.entries.length

variable {hashkey}

theorem Map.Inv.mapOk {m : Map V} (h : m.Inv hashkey) : MapOk hashkey m := by
  refine ⟨fun root hroot n shift hb => ?_, h.distinct, h.count⟩
  obtain ⟨f, p, hg, hp, hfs⟩ := (h.good root hroot).below hb (by decide) rfl
  refine ⟨hg.nodeOk hp, ?_⟩
  cases f with
  | zero => exact hg.elim
  | succ f => omega

theorem inv_empty : (Map.empty : Map V).Inv hashkey :=
  ⟨fun _ h => (Option.some_ne_none _ h.symm).elim, .nil, rfl⟩

section Entries

variable {key : Key} {val : V} {es es' : List (Key × V)}

theorem distinctKeys_middle {l₁ l₂ : List (Key × V)} {e : Key × V} :
    DistinctKeys (l₁ ++ e :: l₂) ↔
      DistinctKeys (l₁ ++ l₂) ∧ ∀ e' ∈ l₁ ++ l₂, isequal e'.1 e.1 = false := by
  unfold DistinctKeys
  rw [List.map_append, List.map_cons, List.pairwise_middle (fun {x y} h => by
    rw [isequal_comm]; exact h), List.pairwise_cons, ← List.map_append, and_comm]
  simp only [List.mem_map, forall_exists_index, and_imp, forall_apply_eq_imp_iff₂,
    isequal_comm e.1]

theorem Assoc.distinct {added : Bool} (h : Assoc key val es es' added) (hd : DistinctKeys es) :
    DistinctKeys es' ∧ es'.length = es.length + if added then 1 else 0 := by
  obtain ⟨l₁, k, l₂, rfl, h⟩ := h
  cases added with
  | true =>
    obtain ⟨rfl, rfl, hnone⟩ := h
    refine ⟨distinctKeys_middle.mpr ⟨hd, hnone⟩, ?_⟩
    simp only [List.length_append, List.length_cons, if_true]
    omega
  | false =>
    obtain ⟨-, v, rfl⟩ := h
    obtain ⟨hd', hnone⟩ := distinctKeys_middle.mp hd
    exact ⟨distinctKeys_middle.mpr ⟨hd', hnone⟩, by simp⟩

theorem Dissoc.distinct {removed : Bool} (h : Dissoc hashkey key es es' removed)
    (hd : DistinctKeys es) :
    DistinctKeys es' ∧ es.length = es'.length + if removed then 1 else 0 := by
  cases removed with
  | true =>
    obtain ⟨l₁, k, v, l₂, -, rfl, rfl⟩ := h
    refine ⟨(distinctKeys_middle.mp hd).1, ?_⟩
    simp only [List.length_append, List.length_cons, if_true]
    omega
  | false =>
    obtain ⟨rfl, -⟩ := h
    exact ⟨hd, by simp⟩

end Entries

/-- A map with one entry. -/
theorem assoc_none {f : ℕ} {key : Key} {val : V} (hkey : key ≠ .null) :
    ∃ n, assoc hashkey (f + 2) none key val (hashkey key) 0 = some (n, true) ∧
      Good hashkey (f + 2) 0 0 n ∧ n.entries = [(key, val)] := by
  have hroot : (hashkey key).toNat % 2 ^ 0 = 0 := Nat.mod_one _
  obtain ⟨i, hi, hidx, hnext⟩ := index_below hroot (by decide)
  simp only [assoc, hidx, Option.bind_eq_bind, Option.bind_some]
  refine ⟨_, rfl, (good_bitmap (by decide)).mpr ⟨?_, ?_⟩, by simp [entries_mk]⟩
  · rw [Ne, eq_zero_iff_bits, bits_bitOf hi hi]
    simp
  · rw [bits_bitOf hi hi]
    exact .cons ⟨hkey, hnext⟩ .nil

/-- Putting in a key keeps the invariant, and no step of it is undefined. -/
theorem Map.Inv.assoc {m : Map V} (h : m.Inv hashkey) {key : Key} {val : V} (hkey : key ≠ .null)
    (hag : Agrees hashkey m.entries key) :
    ∃ m' added, m.step hashkey (.assoc key val) = some m' ∧ m'.Inv hashkey ∧
      Assoc key val m.entries m'.entries added := by
  obtain ⟨root, count⟩ := m
  obtain ⟨hgood, hdist, hcount⟩ := h
  obtain ⟨n, added, hn, hgn, hassoc⟩ : ∃ n added,
      Hamt.assoc hashkey maxDepth root key val (hashkey key) 0 = some (n, added) ∧
        Good hashkey maxDepth 0 0 n ∧ Assoc key val (entriesOf root) n.entries added := by
    cases root with
    | none =>
      obtain ⟨n, hn, hgn, hentries⟩ : ∃ n, Hamt.assoc hashkey 8 none key val (hashkey key) 0 =
          some (n, true) ∧ Good hashkey 8 0 0 n ∧ n.entries = [(key, val)] := assoc_none hkey
      exact ⟨n, true, hn, hgn, [], key, [], by rw [hentries]; rfl, rfl, rfl, fun _ he => by
        cases he⟩
    | some root => exact assoc_spec rfl (by decide) hkey (Nat.mod_one _) (hgood root rfl) hag
  obtain ⟨hd, hlen⟩ := hassoc.distinct hdist
  have hstep : Map.step hashkey ⟨root, count⟩ (.assoc key val) =
      some ⟨some n, count + if added then 1 else 0⟩ := by
    simp only [Map.step, hn, Option.bind_eq_bind, Option.bind_some]
  refine ⟨_, added, hstep, ⟨?_, hd, ?_⟩, hassoc⟩
  · rintro _ ⟨⟩
    exact hgn
  · show count + _ = (n.entries.length : ℤ)
    rw [hlen, show count = ((entriesOf root).length : ℤ) from hcount]
    cases added <;> simp

/-- Removing a key keeps the invariant, and no step of it is undefined. -/
theorem Map.Inv.dissoc {m : Map V} (h : m.Inv hashkey) (key : Key) :
    ∃ m' removed, m.step hashkey (.dissoc key) = some m' ∧ m'.Inv hashkey ∧
      Dissoc hashkey key m.entries m'.entries removed := by
  obtain ⟨root, count⟩ := m
  obtain ⟨hgood, hdist, hcount⟩ := h
  obtain ⟨r, removed, hr, hgr, hdissoc⟩ : ∃ r removed,
      Hamt.dissoc maxDepth root key (hashkey key) 0 = some (r, removed) ∧
        (∀ n', r = some n' → Good hashkey maxDepth 0 0 n') ∧
        Dissoc hashkey key (entriesOf root) (entriesOf r) removed := by
    cases root with
    | none => exact ⟨none, false, rfl, by rintro _ ⟨⟩, rfl, fun _ _ he => by cases he⟩
    | some root => exact dissoc_spec rfl (by decide) (Nat.mod_one _) (hgood root rfl)
  obtain ⟨hd, hlen⟩ := hdissoc.distinct hdist
  have hstep : Map.step hashkey ⟨root, count⟩ (.dissoc key) =
      some ⟨r, count - if removed then 1 else 0⟩ := by
    simp only [Map.step, hr, Option.bind_eq_bind, Option.bind_some]
  refine ⟨_, removed, hstep, ⟨hgr, hd, ?_⟩, hdissoc⟩
  show count - _ = ((entriesOf r).length : ℤ)
  rw [show count = ((entriesOf root).length : ℤ) from hcount, hlen]
  cases removed <;> simp

/-- **An update keeps the invariant**, and no step of it is undefined. -/
theorem Map.Inv.step {m : Map V} (h : m.Inv hashkey) {op : Op V} (hop : Fresh hashkey m op) :
    ∃ m', m.step hashkey op = some m' ∧ m'.Inv hashkey := by
  cases op with
  | assoc key val =>
    obtain ⟨m', added, hm', hinv, -⟩ := h.assoc hop.1 hop.2
    exact ⟨m', hm', hinv⟩
  | dissoc key =>
    obtain ⟨m', removed, hm', hinv, -⟩ := h.dissoc key
    exact ⟨m', hm', hinv⟩

/-- **Putting in keys that are hashed by value**, none twice: the map has these entries more. -/
theorem Map.Inv.assocAll {m : Map V} (h : m.Inv hamtHashkey) {kvs : List (Key × V)}
    (hm : ∀ e ∈ m.entries, hashedByValue e.1) (hkvs : ∀ kv ∈ kvs, hashedByValue kv.1)
    (hdist : DistinctKeys (m.entries ++ kvs)) :
    ∃ m', kvs.foldlM (fun m kv => m.step hamtHashkey (.assoc kv.1 kv.2)) m = some m' ∧
      m'.entries.Perm (m.entries ++ kvs) := by
  induction kvs generalizing m with
  | nil => exact ⟨m, rfl, by rw [List.append_nil]⟩
  | cons kv kvs ih =>
    obtain ⟨hkv, hrest⟩ := List.forall_mem_cons.mp hkvs
    obtain ⟨hd, hnone⟩ := distinctKeys_middle.mp hdist
    have hkey : kv.1 ≠ .null := by
      intro hnull
      rw [hnull] at hkv
      cases hkv
    have hag : Agrees hamtHashkey m.entries kv.1 := fun e he heq => hamtHashkey_eq (hm e he) heq
    obtain ⟨m', added, hstep, hinv, l₁, k, l₂, hentries, hold⟩ : ∃ m' added,
        m.step hamtHashkey (.assoc kv.1 kv.2) = some m' ∧ m'.Inv hamtHashkey ∧
          Assoc kv.1 kv.2 m.entries m'.entries added := h.assoc hkey hag
    cases added with
    | false =>
      obtain ⟨hk, v, hes⟩ := hold
      have hmem : (k, v) ∈ m.entries := by
        rw [hes]
        exact List.mem_append_right _ List.mem_cons_self
      rw [hnone _ (List.mem_append_left _ hmem)] at hk
      cases hk
    | true =>
      obtain ⟨rfl, hes, -⟩ := hold
      have hperm : m'.entries.Perm (m.entries ++ [kv]) := by
        rw [hentries, hes]
        exact List.perm_middle.trans (List.perm_append_singleton _ _).symm
      have hperm' : (m'.entries ++ kvs).Perm (m.entries ++ kv :: kvs) := by
        have happ := hperm.append_right kvs
        rwa [List.append_assoc] at happ
      obtain ⟨m'', hfold, hm''⟩ := ih hinv (fun e he => by
          rcases List.mem_append.mp (hperm.mem_iff.mp he) with he | he
          · exact hm e he
          · exact List.mem_singleton.mp he ▸ hkv) hrest
        ((hperm'.map Prod.fst).symm.pairwise hdist fun {a b} hab => by rwa [isequal_comm])
      refine ⟨m'', ?_, hm''.trans hperm'⟩
      rw [List.foldlM_cons, hstep]
      exact hfold

/-- A lookup in a map is defined, and finds the key. -/
theorem Map.Inv.lookup {m : Map V} (h : m.Inv hashkey) (key : Key) :
    ∃ r, m.lookup hashkey key = some r ∧ Found hashkey key m.entries r := by
  obtain ⟨root, count⟩ := m
  cases root with
  | none => exact ⟨none, rfl, fun _ _ he => by cases he⟩
  | some root => exact get_spec rfl (by decide) (Nat.mod_one _) (h.good root rfl)

/-- **The trie of every map is well formed.** Whatever the hash function: along a run of updates
whose steps all meet the condition, the nodes of the map have the shape that `NodeOk` says, in at
most eight levels, no two entries have equal keys, and the count is right; and every further
operation ends within eight calls without shifting a hash by 32 or more. -/
theorem trie_ok {ops : List (Op V)} {m : Map V}
    (h : Path (Map.step hashkey) (Fresh hashkey) Map.empty ops m) :
    MapOk hashkey m ∧ (∀ op, Fresh hashkey m op → ∃ m', m.step hashkey op = some m') ∧
      ∀ key, ∃ r, m.lookup hashkey key = some r := by
  have hinv : m.Inv hashkey := h.invariant (fun m op m' hm hop hstep => by
    obtain ⟨m'', hm'', hinv⟩ := hm.step hop
    rw [hstep, Option.some.injEq] at hm''
    rw [hm'']
    exact hinv) inv_empty
  refine ⟨hinv.mapOk, fun op hop => ?_, fun key => ?_⟩
  · obtain ⟨m', hm', -⟩ := hinv.step hop
    exact ⟨m', hm'⟩
  · obtain ⟨r, hr, -⟩ := hinv.lookup key
    exact ⟨r, hr⟩

/-- Two fixnums whose hashes select the same slot at the root, and a string. -/
def threeKeys : List (Op ℕ) :=
  [.assoc (.fix 1) 10, .assoc (.fix 33) 20, .assoc (.obj 4096 (.string [104])) 30, .dissoc (.fix 1)]

theorem trie_ok_three : ∃ m : Map ℕ, run (Map.step hamtHashkey) Map.empty threeKeys = some m ∧
    MapOk hamtHashkey m := by
  obtain ⟨m, hm⟩ : ∃ m, run (guarded (Map.step hamtHashkey)
      fun m op => decide (Fresh hamtHashkey m op)) Map.empty threeKeys = some m := ⟨_, rfl⟩
  have hpath := (path_of_run_guarded hm).mono fun m op h => of_decide_eq_true h
  exact ⟨m, hpath.run, (trie_ok hpath).1⟩

/-- One half, as the reader allocates it. -/
def half (addr : UInt64) : Key := .obj addr (.rational 1 2)

/-- **Equal keys can be in one map**: a rational is compared by value and hashed by address. -/
theorem exists_equal_keys : ∃ m : Map ℕ,
    run (Map.step hamtHashkey) Map.empty [.assoc (half 4096) 1, .assoc (half 4352) 2] = some m ∧
      ¬ DistinctKeys m.entries :=
  ⟨_, rfl, by decide⟩

/-- The entry of a `NULL` key is read as a child. -/
example : (run (Map.step hamtHashkey) Map.empty
    [.assoc .null 1, .assoc .null (2 : ℕ)]).isNone = true := rfl

end Alcove.Hamt
