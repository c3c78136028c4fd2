import Alcove.Value.Text
import Mathlib.Algebra.Group.Nat.Defs
import Mathlib.Data.List.Dedup
import Mathlib.Data.List.Induction
import Mathlib.Data.List.Perm.Basic

/-!
# The hash table of `dict.h`

`dict_t` with its one live table: an array of chains, empty until the first insertion, of twice the
size once it holds as many entries as chains. `Dict.find` and `Dict.set` are `set_get_keyval_dict`
without and with a value, `Dict.erase` is `del_keyval_dict`. A table is sound (`Dict.Ok`) when each entry is in the chain of its key,
no key occurs twice and `used` counts the entries; then a lookup finds exactly the entries
(`Dict.Ok.find_eq_some`).

**Main results:** `Dict.Ok.set` and `Dict.Ok.find_set`. Setting a key keeps the table sound, and
changes what is found at this key only; it counts one entry more exactly when the key is new.
-/

namespace Alcove

variable {V : Type}

/-- `dict_t`: the chains of `ht[0].table` and the number `ht[0].used`; the size is the number of
chains. -/
structure Dict (V : Type) where
  table : List (List (CStr × V))
  used : ℕ
  deriving DecidableEq

namespace Dict

/-- `DICT_KVHT_INITIAL_SIZE` -/
def kvhtInitialSize : ℕ := 32

/-- `create_dict` -/
def create : Dict V := ⟨[], 0⟩

/-- `ht[0].size` -/
def size (d : Dict V) : ℕ := d.table.length

/-- `h & sizemask` in a table of `size` chains -/
def slot (size : ℕ) (key : CStr) : ℕ := (bernsteinHashZ key).toNat &&& (size - 1)

/-- The walk of a chain for a key. -/
def chainFind (key : CStr) : List (CStr × V) → Option V
  | [] => none
  | (k, v) :: rest => if key = k then some v else chainFind key rest

/-- The walk of a chain for a key whose value is to be set: its entry is overwritten, or a new entry
is linked behind the last one. -/
def chainSet (key : CStr) (val : V) : List (CStr × V) → List (CStr × V)
  | [] => [(key, val)]
  | (k, v) :: rest => if key = k then (k, val) :: rest else (k, v) :: chainSet key val rest

/-- `set_get_keyval_dict(d, key, NULL)` -/
def find (d : Dict V) (key : CStr) : Option V :=
  (d.table[slot d.size key]?).bind (chainFind key)

/-- The chain of the entry's key gets it in front. -/
def relink (newSize : ℕ) (table : List (List (CStr × V))) (kv : CStr × V) :
    List (List (CStr × V)) :=
  table.modify (slot newSize kv.1) (kv :: ·)

/-- `dict_rehash`: every chain is taken apart from its front, chain after chain. -/
def rehash (d : Dict V) (newSize : ℕ) : Dict V :=
  if newSize = 0 ∨ newSize &&& (newSize - 1) ≠ 0 then d
  else ⟨d.table.flatten.foldl (relink newSize) (List.replicate newSize []), d.used⟩

/-- The size `set_get_keyval_dict` grows a full table to. -/
def grownSize (size : ℕ) : ℕ := if (2 ^ 32 - 1) / 2 ≤ size then size else size * 2

/-- The table after an entry was set, before it may grow. -/
def put (d : Dict V) (key : CStr) (val : V) : Dict V :=
  let table := if d.size = 0 then List.replicate kvhtInitialSize [] else d.table
  { table := table.modify (slot table.length key) (chainSet key val)
    used := d.used + if (d.find key).isSome then 0 else 1 }

/-- `set_get_keyval_dict(d, key, val)` -/
def set (d : Dict V) (key : CStr) (val : V) : Dict V :=
  let d' := d.put key val
  if d'.size ≤ d'.used then d'.rehash (grownSize d'.size) else d'

/-- The walk of a chain for a key whose entry is unlinked. -/
def chainErase (key : CStr) : List (CStr × V) → List (CStr × V)
  | [] => []
  | (k, v) :: rest => if key = k then rest else (k, v) :: chainErase key rest

/-- `del_keyval_dict`: the table afterwards, and whether there was an entry. -/
def erase (d : Dict V) (key : CStr) : Dict V × Bool :=
  if (d.find key).isSome then
    (⟨d.table.modify (slot d.size key) (chainErase key), d.used - 1⟩, true)
  else (d, false)

/-- Every entry, chain after chain, as `DICT_FOREACH` meets them. -/
def entries (d : Dict V) : List (CStr × V) := d.table.flatten

/-- The dict that the entries make when they are set one after the other. -/
def ofList (kvs : List (CStr × V)) : Dict V := kvs.foldl (fun d kv => d.set kv.1 kv.2) create

/-- **The table is sound.** -/
structure Ok (d : Dict V) : Prop where
  home : ∀ i chain, d.table[i]? = some chain → ∀ kv ∈ chain, slot d.size kv.1 = i
  distinct : (d.entries.map Prod.fst).Nodup
  used_eq : d.used = d.entries.length

/-! ## One chain -/

section Chain

variable {key k : CStr} {val v : V} {chain : List (CStr × V)}

theorem chainFind_eq_some (hd : (chain.map Prod.fst).Nodup) :
    chainFind key chain = some v ↔ (key, v) ∈ chain := by
  induction chain with
  | nil => simp [chainFind]
  | cons kv rest ih =>
    obtain ⟨k, w⟩ := kv
    obtain ⟨hk, hrest⟩ : k ∉ rest.map Prod.fst ∧ (rest.map Prod.fst).Nodup := by simpa using hd
    by_cases h : key = k
    · subst h
      have hnot : (key, v) ∉ rest := fun hm => hk (List.mem_map_of_mem (f := Prod.fst) hm)
      simp [chainFind, hnot, eq_comm]
    · simp [chainFind, h, ih hrest]

theorem chainFind_eq_none : chainFind key chain = none ↔ key ∉ chain.map Prod.fst := by
  induction chain with
  | nil => simp [chainFind]
  | cons kv rest ih =>
    by_cases h : key = kv.1
    · simp [chainFind, h]
    · rw [chainFind, if_neg h, ih, List.map_cons, List.mem_cons, not_or, and_iff_right h]

/-- An overwritten entry keeps its place, a new one comes last. -/
theorem map_chainSet : (chainSet key val chain).map Prod.fst =
    if key ∈ chain.map Prod.fst then chain.map Prod.fst else chain.map Prod.fst ++ [key] := by
  induction chain with
  | nil => rfl
  | cons kv rest ih =>
    by_cases h : key = kv.1
    · simp [chainSet, h]
    · rw [chainSet, if_neg h, List.map_cons, ih]
      by_cases hm : key ∈ rest.map Prod.fst
      · have hm' : key ∈ (kv :: rest).map Prod.fst := List.mem_cons_of_mem _ hm
        rw [if_pos hm, if_pos hm']
        rfl
      · have hm' : key ∉ (kv :: rest).map Prod.fst := by
          rw [List.map_cons, List.mem_cons, not_or]
          exact ⟨h, hm⟩
        rw [if_neg hm, if_neg hm']
        rfl

theorem mem_chainSet (hd : (chain.map Prod.fst).Nodup) :
    (k, v) ∈ chainSet key val chain ↔ if k = key then v = val else (k, v) ∈ chain := by
  induction chain with
  | nil => by_cases h : k = key <;> simp [chainSet, h]
  | cons kv rest ih =>
    obtain ⟨k', w⟩ := kv
    obtain ⟨hk, hrest⟩ : k' ∉ rest.map Prod.fst ∧ (rest.map Prod.fst).Nodup := by simpa using hd
    by_cases h : key = k'
    · subst h
      have hnot : ∀ u, (key, u) ∉ rest := fun u hm => hk (List.mem_map_of_mem (f := Prod.fst) hm)
      by_cases hkk : k = key
      · simp [chainSet, hkk, hnot]
      · simp [chainSet, hkk]
    · rw [chainSet, if_neg h, List.mem_cons, ih hrest, List.mem_cons]
      by_cases hkk : k = key
      · have hne : k ≠ k' := fun he => h (hkk.symm.trans he)
        simp [hkk, h]
      · simp [hkk]

end Chain

/-! ## The chains together -/

theorem slot_lt {size : ℕ} (h : 0 < size) (key : CStr) : slot size key < size := by
  have : slot size key ≤ size - 1 := Nat.and_le_right
  omega

variable {d : Dict V} {key k : CStr} {val v : V}

theorem mem_entries {kv : CStr × V} :
    kv ∈ d.entries ↔ ∃ (i : ℕ) (chain : _), d.table[i]? = some chain ∧ kv ∈ chain := by
  rw [entries, List.mem_flatten]
  constructor
  · rintro ⟨chain, hc, hkv⟩
    obtain ⟨i, hi⟩ := List.mem_iff_getElem?.mp hc
    exact ⟨i, chain, hi, hkv⟩
  · rintro ⟨i, chain, hi, hkv⟩
    exact ⟨chain, List.mem_of_getElem? hi, hkv⟩

theorem Ok.chain_distinct (h : d.Ok) {i : ℕ} {chain : List (CStr × V)}
    (hi : d.table[i]? = some chain) : (chain.map Prod.fst).Nodup := by
  have hsub : (chain.map Prod.fst).Sublist (d.entries.map Prod.fst) :=
    (List.sublist_flatten_of_mem (List.mem_of_getElem? hi)).map _
  exact h.distinct.sublist hsub

/-- **A lookup finds the entries.** -/
theorem Ok.find_eq_some (h : d.Ok) : d.find key = some v ↔ (key, v) ∈ d.entries := by
  rw [find, Option.bind_eq_some_iff, mem_entries]
  constructor
  · rintro ⟨chain, hi, hv⟩
    exact ⟨_, chain, hi, (chainFind_eq_some (h.chain_distinct hi)).mp hv⟩
  · rintro ⟨i, chain, hi, hv⟩
    have hslot : slot d.size key = i := h.home i chain hi _ hv
    exact ⟨chain, hslot ▸ hi, (chainFind_eq_some (h.chain_distinct hi)).mpr hv⟩

theorem Ok.find_eq_none (h : d.Ok) : d.find key = none ↔ key ∉ d.entries.map Prod.fst := by
  rw [← not_iff_not, ← Ne, Option.ne_none_iff_exists', not_not, List.mem_map]
  constructor
  · rintro ⟨v, hv⟩
    exact ⟨(key, v), h.find_eq_some.mp hv, rfl⟩
  · rintro ⟨⟨k, v⟩, hm, rfl⟩
    exact ⟨v, h.find_eq_some.mpr hm⟩

theorem ok_create : (create : Dict V).Ok := ⟨by simp [create], by simp [create, entries], rfl⟩

@[simp]
theorem find_create : (create : Dict V).find key = none := rfl

/-! ## Growing -/

theorem flatten_modify_cons {α : Type} {table : List (List α)} {i : ℕ} {a : α}
    (h : i < table.length) : (table.modify i (a :: ·)).flatten.Perm (a :: table.flatten) := by
  induction table generalizing i with
  | nil => simp at h
  | cons chain table ih =>
    cases i with
    | zero => simp
    | succ i =>
      rw [List.modify_succ_cons, List.flatten_cons, List.flatten_cons]
      exact ((ih (by simpa using h)).append_left chain).trans List.perm_middle

theorem length_foldl_relink {n : ℕ} {kvs : List (CStr × V)} {table : List (List (CStr × V))} :
    (kvs.foldl (relink n) table).length = table.length := by
  induction kvs generalizing table with
  | nil => rfl
  | cons kv kvs ih => rw [List.foldl_cons, ih, relink, List.length_modify]

theorem flatten_foldl_relink {n : ℕ} (hn : 0 < n) {kvs : List (CStr × V)}
    {table : List (List (CStr × V))} (hlen : table.length = n) :
    (kvs.foldl (relink n) table).flatten.Perm (kvs ++ table.flatten) := by
  induction kvs generalizing table with
  | nil => exact List.Perm.refl _
  | cons kv kvs ih =>
    have hlen' : (relink n table kv).length = n := by rw [relink, List.length_modify, hlen]
    have hflat : (relink n table kv).flatten.Perm (kv :: table.flatten) :=
      flatten_modify_cons (hlen ▸ slot_lt hn kv.1)
    rw [List.foldl_cons]
    exact ((ih hlen').trans (hflat.append_left kvs)).trans List.perm_middle

/-- An entry of the new table is in the chain of its key. -/
def Home (n : ℕ) (table : List (List (CStr × V))) : Prop :=
  ∀ i chain, table[i]? = some chain → ∀ kv ∈ chain, slot n kv.1 = i

theorem home_relink {n : ℕ} {table : List (List (CStr × V))} (h : Home n table) (kv : CStr × V) :
    Home n (relink n table kv) := by
  intro i chain hi kv' hkv'
  rw [relink, List.getElem?_modify] at hi
  obtain ⟨old, hold, rfl⟩ := Option.map_eq_some_iff.mp hi
  by_cases hs : slot n kv.1 = i
  · rw [if_pos hs, List.mem_cons] at hkv'
    rcases hkv' with rfl | hm
    · exact hs
    · exact h i old hold kv' hm
  · rw [if_neg hs] at hkv'
    exact h i old hold kv' hkv'

theorem home_foldl_relink {n : ℕ} {kvs : List (CStr × V)} {table : List (List (CStr × V))}
    (h : Home n table) : Home n (kvs.foldl (relink n) table) := by
  induction kvs generalizing table with
  | nil => exact h
  | cons kv kvs ih => exact ih (home_relink h kv)

theorem home_replicate {n m : ℕ} : Home n (List.replicate m ([] : List (CStr × V))) := by
  intro i chain hi kv hkv
  rw [List.getElem?_replicate] at hi
  obtain ⟨-, rfl⟩ : i < m ∧ [] = chain := by simpa using hi
  simp at hkv

/-- **Growing keeps the entries**, in some order. -/
theorem Ok.rehash (h : d.Ok) (n : ℕ) : (d.rehash n).Ok ∧ (d.rehash n).entries.Perm d.entries := by
  by_cases hn : n = 0 ∨ n &&& (n - 1) ≠ 0
  · rw [Dict.rehash, if_pos hn]
    exact ⟨h, List.Perm.refl _⟩
  · have hpos : 0 < n := Nat.pos_of_ne_zero fun h0 => hn (.inl h0)
    rw [Dict.rehash, if_neg hn]
    have hperm : (d.table.flatten.foldl (relink n) (List.replicate n [])).flatten.Perm
        d.table.flatten := by
      have hempty : (List.replicate n ([] : List (CStr × V))).flatten = [] := by simp
      have hp : (d.table.flatten.foldl (relink n) (List.replicate n [])).flatten.Perm
          (d.table.flatten ++ (List.replicate n []).flatten) :=
        flatten_foldl_relink hpos List.length_replicate
      rwa [hempty, List.append_nil] at hp
    refine ⟨⟨?_, ?_, ?_⟩, hperm⟩
    · rw [size, length_foldl_relink, List.length_replicate]
      exact home_foldl_relink home_replicate
    · exact (hperm.map Prod.fst).nodup_iff.mpr h.distinct
    · exact h.used_eq.trans hperm.length_eq.symm

/-- Two sound tables with the same entries give the same answers. -/
theorem Ok.find_eq_of_perm {d' : Dict V} (h : d.Ok) (h' : d'.Ok)
    (hp : d'.entries.Perm d.entries) (key : CStr) : d'.find key = d.find key := by
  apply Option.ext
  intro v
  rw [h'.find_eq_some, h.find_eq_some, hp.mem_iff]

/-! ## Setting a key -/

/-- A change of one chain, seen in the entries: the others come from other chains. -/
theorem flatten_modify {α : Type} {table : List (List α)} {i : ℕ} {chain : List α}
    (hi : table[i]? = some chain) (f : List α → List α) :
    ∃ l r, table.flatten = l ++ chain ++ r ∧ (table.modify i f).flatten = l ++ f chain ++ r ∧
      ∀ a ∈ l ++ r, ∃ (j : ℕ) (c : List α), j ≠ i ∧ table[j]? = some c ∧ a ∈ c := by
  induction table generalizing i with
  | nil => simp at hi
  | cons c table ih =>
    cases i with
    | zero =>
      obtain rfl : c = chain := by simpa using hi
      refine ⟨[], table.flatten, by simp, by simp, fun a ha => ?_⟩
      obtain ⟨c', hc', ha'⟩ := List.mem_flatten.mp (by simpa using ha)
      obtain ⟨j, hj⟩ := List.mem_iff_getElem?.mp hc'
      exact ⟨j + 1, c', by omega, by simpa using hj, ha'⟩
    | succ i =>
      obtain ⟨l, r, h1, h2, h3⟩ := ih (by simpa using hi)
      refine ⟨c ++ l, r, by simp [h1], by simp [h2], fun a ha => ?_⟩
      rw [List.append_assoc, List.mem_append] at ha
      rcases ha with ha | ha
      · exact ⟨0, c, by omega, rfl, ha⟩
      · obtain ⟨j, c', hj, hc', ha'⟩ := h3 a ha
        exact ⟨j + 1, c', by omega, by simpa using hc', ha'⟩

/-- The chains that an insertion finds: those of the table, or the initial ones. -/
theorem Ok.initial (h : d.Ok) (key : CStr) (val : V) : ∃ table, 0 < table.length ∧ Home table.length table ∧
    table.flatten = d.entries ∧ (table[slot table.length key]?).bind (chainFind key) = d.find key ∧
    (d.put key val).table = table.modify (slot table.length key) (chainSet key val) := by
  by_cases h0 : d.size = 0
  · have hnil : d.table = [] := List.length_eq_zero_iff.mp h0
    have hlen : (List.replicate kvhtInitialSize ([] : List (CStr × V))).length = kvhtInitialSize :=
      List.length_replicate
    have hpos : 0 < kvhtInitialSize := by decide
    refine ⟨List.replicate kvhtInitialSize [], by rw [hlen]; exact hpos, home_replicate, ?_, ?_, ?_⟩
    · simp [entries, hnil]
    · rw [find, hnil, hlen, List.getElem?_replicate, if_pos (slot_lt hpos key)]
      rfl
    · simp [put, h0]
  · exact ⟨d.table, Nat.pos_of_ne_zero h0, h.home, rfl, rfl, by simp [put, h0]⟩

/-- What setting a key does to the entries: it happens in one chain, and the key is in no other. -/
theorem Ok.put_entries (h : d.Ok) (key : CStr) (val : V) : ∃ l chain r, d.entries = l ++ chain ++ r ∧
    (d.put key val).entries = l ++ chainSet key val chain ++ r ∧
    (∀ kv ∈ l ++ r, kv.1 ≠ key) ∧ chainFind key chain = d.find key := by
  obtain ⟨table, hpos, hhome, hflat, hfind, hput⟩ := h.initial key val
  obtain ⟨chain, hi⟩ : ∃ chain, table[slot table.length key]? = some chain :=
    ⟨_, List.getElem?_eq_getElem (slot_lt hpos key)⟩
  obtain ⟨l, r, h1, h2, h3⟩ := flatten_modify hi (chainSet key val)
  refine ⟨l, chain, r, hflat ▸ h1, by rw [entries, hput, h2], fun kv hkv he => ?_, ?_⟩
  · obtain ⟨j, c, hj, hc, hm⟩ := h3 kv hkv
    exact hj ((hhome j c hc kv hm).symm.trans (by rw [he]))
  · rw [← hfind, hi, Option.bind_some]

theorem map_put_entries (h : d.Ok) (key : CStr) (val : V) : ((d.put key val).entries.map Prod.fst).Perm
    (if (d.find key).isSome then d.entries.map Prod.fst else key :: d.entries.map Prod.fst) := by
  obtain ⟨l, chain, r, h1, h2, h3, h4⟩ := h.put_entries key val
  rw [h2, h1, ← h4, List.map_append, List.map_append, map_chainSet, List.map_append,
    List.map_append]
  cases hc : chainFind key chain with
  | none =>
    rw [if_neg (chainFind_eq_none.mp hc)]
    simp only [Option.isSome_none, Bool.false_eq_true, if_false, List.append_assoc,
      List.singleton_append]
    rw [← List.append_assoc, ← List.append_assoc]
    exact List.perm_middle
  | some v =>
    have hm : key ∈ chain.map Prod.fst := by
      by_contra hn
      rw [chainFind_eq_none.mpr hn] at hc
      cases hc
    rw [if_pos hm]
    exact List.Perm.refl _

theorem Ok.put (h : d.Ok) : (d.put key val).Ok := by
  have hkeys := map_put_entries h key val
  constructor
  · obtain ⟨table, hpos, hhome, -, -, hput⟩ := h.initial key val
    rw [size, hput, List.length_modify]
    intro i chain hi kv hkv
    rw [List.getElem?_modify] at hi
    obtain ⟨old, hold, rfl⟩ := Option.map_eq_some_iff.mp hi
    by_cases hs : slot table.length key = i
    · rw [if_pos hs] at hkv
      have hm : kv.1 ∈ (chainSet key val old).map Prod.fst := List.mem_map_of_mem hkv
      rw [map_chainSet] at hm
      have hor : kv.1 ∈ old.map Prod.fst ∨ kv.1 = key := by
        split at hm
        · exact .inl hm
        · simpa using hm
      rcases hor with hold' | he
      · obtain ⟨kv', hkv', he⟩ := List.mem_map.mp hold'
        rw [← he]
        exact hhome i old hold kv' hkv'
      · rw [he]
        exact hs
    · rw [if_neg hs] at hkv
      exact hhome i old hold kv hkv
  · rw [hkeys.nodup_iff]
    cases hf : d.find key with
    | none => simpa using ⟨by simpa using h.find_eq_none.mp hf, h.distinct⟩
    | some v => simpa using h.distinct
  · have hlen := hkeys.length_eq
    rw [List.length_map] at hlen
    have hused : (d.put key val).used = d.used + if (d.find key).isSome then 0 else 1 := rfl
    rw [hlen, hused, h.used_eq]
    cases d.find key <;> simp

theorem Ok.find_put (h : d.Ok) : (d.put key val).find k = if k = key then some val else d.find k := by
  obtain ⟨l, chain, r, h1, h2, h3, -⟩ := h.put_entries key val
  have hchain : (chain.map Prod.fst).Nodup := by
    have hd := h.distinct
    rw [h1, List.map_append, List.map_append, List.nodup_append, List.nodup_append] at hd
    exact hd.1.2.1
  have hother : ∀ v, k = key → (k, v) ∉ l ++ r := fun v he hm => h3 _ hm he
  apply Option.ext
  intro v
  rw [h.put.find_eq_some, h2, List.append_assoc, List.mem_append, List.mem_append,
    mem_chainSet hchain]
  by_cases hk : k = key
  · have hl := hother v hk
    rw [List.mem_append, not_or] at hl
    simp [hk, hk ▸ hl.1, hk ▸ hl.2, eq_comm]
  · rw [if_neg hk, if_neg hk, h.find_eq_some, h1, List.append_assoc, List.mem_append,
      List.mem_append]

theorem Ok.set_eq (h : d.Ok) : (d.set key val).Ok ∧
    (d.set key val).entries.Perm (d.put key val).entries := by
  by_cases hfull : (d.put key val).size ≤ (d.put key val).used
  · simp only [Dict.set, if_pos hfull]
    exact h.put.rehash _
  · simp only [Dict.set, if_neg hfull]
    exact ⟨h.put, List.Perm.refl _⟩

/-- **Setting a key keeps the table sound.** -/
theorem Ok.set (h : d.Ok) : (d.set key val).Ok := h.set_eq.1

/-- **Setting a key changes what is found at this key, and nothing else.** -/
theorem Ok.find_set (h : d.Ok) :
    (d.set key val).find k = if k = key then some val else d.find k := by
  rw [h.put.find_eq_of_perm h.set h.set_eq.2, h.find_put]

theorem Ok.used_set (h : d.Ok) :
    (d.set key val).used = d.used + if (d.find key).isSome then 0 else 1 := by
  rw [h.set.used_eq, h.set_eq.2.length_eq, ← h.put.used_eq]
  rfl

/-! ## Deleting a key -/

theorem chainErase_sublist : (chainErase key chain).Sublist chain := by
  induction chain with
  | nil => exact List.Sublist.refl _
  | cons kv rest ih =>
    rw [chainErase]
    split
    · exact List.sublist_cons_self _ _
    · exact ih.cons_cons _

theorem mem_chainErase (hd : (chain.map Prod.fst).Nodup) {kv : CStr × V} :
    kv ∈ chainErase key chain ↔ kv ∈ chain ∧ kv.1 ≠ key := by
  induction chain with
  | nil => simp [chainErase]
  | cons head rest ih =>
    obtain ⟨hk, hrest⟩ : head.1 ∉ rest.map Prod.fst ∧ (rest.map Prod.fst).Nodup := by simpa using hd
    rw [chainErase]
    split
    · rename_i he
      rw [List.mem_cons, he]
      constructor
      · intro hm
        exact ⟨.inr hm, fun h => hk (h ▸ List.mem_map_of_mem hm)⟩
      · rintro ⟨rfl | hm, hne⟩
        · exact absurd rfl hne
        · exact hm
    · rename_i he
      rw [List.mem_cons, List.mem_cons, ih hrest]
      constructor
      · rintro (rfl | ⟨hm, hne⟩)
        · exact ⟨.inl rfl, fun h => he h.symm⟩
        · exact ⟨.inr hm, hne⟩
      · rintro ⟨rfl | hm, hne⟩
        · exact .inl rfl
        · exact .inr ⟨hm, hne⟩

theorem length_chainErase (h : (chainFind key chain).isSome) :
    (chainErase key chain).length + 1 = chain.length := by
  induction chain with
  | nil => simp [chainFind] at h
  | cons kv rest ih =>
    rw [chainFind] at h
    rw [chainErase]
    split at h
    · rename_i he
      rw [if_pos he, List.length_cons]
    · rename_i he
      rw [if_neg he, List.length_cons, List.length_cons, ih h]

/-- What deleting a key that is there does to the entries. -/
theorem Ok.erase_entries (h : d.Ok) (hs : (d.find key).isSome) : ∃ l chain r,
    d.entries = l ++ chain ++ r ∧ (d.erase key).1.entries = l ++ chainErase key chain ++ r ∧
    (∀ kv ∈ l ++ r, kv.1 ≠ key) ∧ (chainFind key chain).isSome := by
  obtain ⟨v, hv⟩ := Option.isSome_iff_exists.mp hs
  obtain ⟨chain, hi, hfind⟩ := Option.bind_eq_some_iff.mp hv
  obtain ⟨l, r, h1, h2, h3⟩ := flatten_modify hi (chainErase key)
  refine ⟨l, chain, r, h1, ?_, fun kv hkv he => ?_, by rw [hfind]; rfl⟩
  · rw [erase, if_pos hs, entries, h2]
  · obtain ⟨j, c, hj, hc, hm⟩ := h3 kv hkv
    exact hj ((h.home j c hc kv hm).symm.trans (by rw [he]))

/-- **Deleting a key keeps the table sound.** -/
theorem Ok.erase (h : d.Ok) : (d.erase key).1.Ok := by
  by_cases hs : (d.find key).isSome
  · obtain ⟨l, chain, r, h1, h2, -, h4⟩ := h.erase_entries hs
    have hsub : (d.erase key).1.entries.Sublist d.entries := by
      rw [h1, h2]
      exact ((List.Sublist.refl l).append chainErase_sublist).append (List.Sublist.refl r)
    constructor
    · have htable : (d.erase key).1.table = d.table.modify (slot d.size key) (chainErase key) := by
        rw [Dict.erase, if_pos hs]
      rw [size, htable, List.length_modify]
      intro i chain' hi kv hkv
      rw [List.getElem?_modify] at hi
      obtain ⟨old, hold, rfl⟩ := Option.map_eq_some_iff.mp hi
      refine h.home i old hold kv ?_
      split at hkv
      · exact chainErase_sublist.mem hkv
      · exact hkv
    · exact h.distinct.sublist (hsub.map _)
    · have hused : (d.erase key).1.used = d.used - 1 := by rw [Dict.erase, if_pos hs]
      have hlen := length_chainErase h4
      rw [hused, h.used_eq, h1, h2]
      simp only [List.length_append]
      omega
  · rw [Dict.erase, if_neg hs]
    exact h

/-- **Deleting a key changes what is found at this key, and nothing else.** -/
theorem Ok.find_erase (h : d.Ok) :
    (d.erase key).1.find k = if k = key then none else d.find k := by
  by_cases hs : (d.find key).isSome
  · obtain ⟨l, chain, r, h1, h2, h3, -⟩ := h.erase_entries hs
    have hchain : (chain.map Prod.fst).Nodup := by
      have hd := h.distinct
      rw [h1, List.map_append, List.map_append, List.nodup_append, List.nodup_append] at hd
      exact hd.1.2.1
    apply Option.ext
    intro v
    rw [h.erase.find_eq_some, h2, List.append_assoc, List.mem_append, List.mem_append,
      mem_chainErase hchain]
    by_cases hk : k = key
    · have hl : (k, v) ∉ l ++ r := fun hm => h3 _ hm hk
      rw [List.mem_append, not_or] at hl
      simp [hk, hk ▸ hl.1, hk ▸ hl.2]
    · rw [if_neg hk, h.find_eq_some, h1, List.append_assoc, List.mem_append, List.mem_append]
      simp [hk]
  · rw [Dict.erase, if_neg hs]
    split
    · rename_i hk
      rw [hk]
      simpa using hs
    · rfl

theorem Ok.used_erase (h : d.Ok) :
    (d.erase key).1.used + (if (d.find key).isSome then 1 else 0) = d.used := by
  by_cases hs : (d.find key).isSome
  · obtain ⟨l, chain, r, h1, h2, -, h4⟩ := h.erase_entries hs
    have hlen := length_chainErase h4
    rw [h.erase.used_eq, h.used_eq, h1, h2, if_pos hs]
    simp only [List.length_append]
    omega
  · rw [Dict.erase, if_neg hs, if_neg hs]
    rfl

/-! ## Building a dict -/

theorem ok_ofList (kvs : List (CStr × V)) : (ofList kvs).Ok := by
  have hfold : ∀ d : Dict V, d.Ok → (kvs.foldl (fun d kv => d.set kv.1 kv.2) d).Ok := by
    induction kvs with
    | nil => exact fun d h => h
    | cons kv kvs ih => exact fun d h => ih _ h.set
  exact hfold create ok_create

/-- The last entry of a key counts. -/
theorem find_ofList (kvs : List (CStr × V)) (key : CStr) :
    (ofList kvs).find key = chainFind key kvs.reverse := by
  induction kvs using List.reverseRecOn with
  | nil => rfl
  | append_singleton kvs kv ih =>
    have hstep : ofList (kvs ++ [kv]) = (ofList kvs).set kv.1 kv.2 := by simp [ofList]
    rw [hstep, (ok_ofList kvs).find_set, ih, List.reverse_append]
    rfl

/-- Distinct keys are all found. -/
theorem find_ofList_eq_some {kvs : List (CStr × V)} (hd : (kvs.map Prod.fst).Nodup) :
    (ofList kvs).find key = some v ↔ (key, v) ∈ kvs := by
  rw [find_ofList, chainFind_eq_some (by simpa using hd), List.mem_reverse]

theorem find_ofList_isSome (kvs : List (CStr × V)) :
    ((ofList kvs).find key).isSome ↔ key ∈ kvs.map Prod.fst := by
  rw [find_ofList, ← not_iff_not, Bool.not_eq_true, Option.isSome_eq_false_iff,
    Option.isNone_iff_eq_none, chainFind_eq_none]
  simp

/-- **The dict has as many entries as there are keys.** -/
theorem used_ofList (kvs : List (CStr × V)) :
    (ofList kvs).used = (kvs.map Prod.fst).dedup.length := by
  induction kvs using List.reverseRecOn with
  | nil => rfl
  | append_singleton kvs kv ih =>
    have hstep : ofList (kvs ++ [kv]) = (ofList kvs).set kv.1 kv.2 := by simp [ofList]
    have hperm : ((kvs ++ [kv]).map Prod.fst).Perm (kv.1 :: kvs.map Prod.fst) := by
      rw [List.map_append]
      exact List.perm_append_singleton _ _
    rw [hstep, (ok_ofList kvs).used_set, ih, hperm.dedup.length_eq]
    by_cases hm : kv.1 ∈ kvs.map Prod.fst
    · rw [if_pos ((find_ofList_isSome kvs).mpr hm), List.dedup_cons_of_mem hm, Nat.add_zero]
    · rw [if_neg (fun hs => hm ((find_ofList_isSome kvs).mp hs)), List.dedup_cons_of_notMem hm]
      rfl

/-! ## Dicts with related entries -/

section Related

variable {W : Type} {R : V → W → Prop} {kvs : List (CStr × W)}

theorem exists_of_forall₂ {α β : Type} {S : α → β → Prop} {as : List α} {bs : List β}
    (h : List.Forall₂ S as bs) {a : α} (ha : a ∈ as) : ∃ b ∈ bs, S a b := by
  induction h with
  | nil => simp at ha
  | @cons a' b' as bs hab _ ih =>
    rcases List.mem_cons.mp ha with rfl | ha
    · exact ⟨b', List.mem_cons_self, hab⟩
    · obtain ⟨b, hb, hS⟩ := ih ha
      exact ⟨b, List.mem_cons_of_mem _ hb, hS⟩

/-- The entries have the same keys in the same order, and related values. -/
def RelEntries (R : V → W → Prop) : List (CStr × V) → List (CStr × W) → Prop :=
  List.Forall₂ fun e e' => e.1 = e'.1 ∧ R e.2 e'.2

theorem RelEntries.keys {es : List (CStr × V)} (hR : RelEntries R es kvs) :
    es.map Prod.fst = kvs.map Prod.fst := by
  induction hR with
  | nil => rfl
  | cons he _ ih => rw [List.map_cons, List.map_cons, he.1, ih]

/-- **A dict set up from related entries has related values**, -/
theorem Ok.rel_ofList (h : d.Ok) (hR : RelEntries R d.entries kvs) (key : CStr) :
    Option.Rel R (d.find key) ((ofList kvs).find key) := by
  have hd : (kvs.map Prod.fst).Nodup := hR.keys ▸ h.distinct
  cases hf : d.find key with
  | none =>
    have hnone : (ofList kvs).find key = none := by
      rw [(ok_ofList kvs).find_eq_none]
      intro hm
      obtain ⟨⟨k, w⟩, hkw, rfl⟩ := List.mem_map.mp hm
      have hin : (k, w) ∈ kvs := (find_ofList_eq_some hd).mp ((ok_ofList kvs).find_eq_some.mpr hkw)
      have hkey : k ∈ d.entries.map Prod.fst := hR.keys ▸ List.mem_map_of_mem hin
      exact h.find_eq_none.mp hf hkey
    rw [hnone]
    exact .none
  | some v =>
    obtain ⟨⟨k, w⟩, hm, hk, hw⟩ := exists_of_forall₂ hR (h.find_eq_some.mp hf)
    obtain rfl : key = k := hk
    rw [(find_ofList_eq_some hd).mpr hm]
    exact .some hw

/-- and as many of them. -/
theorem Ok.used_ofList_rel (h : d.Ok) (hR : RelEntries R d.entries kvs) :
    (ofList kvs).used = d.used := by
  rw [used_ofList, ← hR.keys, h.distinct.dedup, List.length_map, h.used_eq]

end Related

end Dict

end Alcove
