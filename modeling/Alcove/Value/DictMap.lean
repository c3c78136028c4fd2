import Alcove.Lib.Object
import Alcove.Value.Dict
import Mathlib.Data.Finmap

/-!
# A dict is a finite map

The calls of `dict.h` on one dict, in any order: `set_get_keyval_dict` with a value inserts or
overwrites, without one it looks up, `del_keyval_dict` deletes. The specification is a finite map
from texts to values. A dict stands for a map (`IsTableOf`) when lookups agree, each key is in one
chain and there once, the chain of its hash, `used` counts the keys and the walk over all chains
meets each binding once.

**Main result:** `dict_refines_map`. A sequence of calls on an empty dict gives the answers that it
gives on the empty map, and leaves a dict that stands for the map it leaves.
-/

namespace Alcove

open Lib

variable {V : Type}

namespace Dict

/-- A call. -/
inductive Op (V : Type) where
  /-- `set_get_keyval_dict`; the value may be `NULL` -/
  | setGet (key : CStr) (val : Option V)
  /-- `del_keyval_dict` -/
  | del (key : CStr)

/-- What a call returns: the value of the entry, if there is one, or the number of entries that were
deleted. -/
inductive Answer (V : Type) where
  | entry (val : Option V)
  | deleted (n : ℕ)

/-- `set_get_keyval_dict` -/
def setGetKeyvalDict (d : Dict V) (key : CStr) : Option V → Dict V × Option V
  | some val => (d.set key val, some val)
  | none => (d, d.find key)

/-- `del_keyval_dict` -/
def delKeyvalDict (d : Dict V) (key : CStr) : Dict V × ℕ :=
  let (d', deleted) := d.erase key
  (d', if deleted then 1 else 0)

/-- A call on a dict. -/
def exec (d : Dict V) : Op V → Dict V × Answer V
  | .setGet key val => ((d.setGetKeyvalDict key val).1, .entry (d.setGetKeyvalDict key val).2)
  | .del key => ((d.delKeyvalDict key).1, .deleted (d.delKeyvalDict key).2)

end Dict

/-! ## The specification -/

/-- A finite map from texts to values. -/
abbrev TextMap (V : Type) : Type := Finmap fun _ : CStr => V

/-- A call on a map. -/
def TextMap.exec (m : TextMap V) : Dict.Op V → TextMap V × Dict.Answer V
  | .setGet key (some val) => (m.insert key val, .entry (some val))
  | .setGet key none => (m, .entry (m.lookup key))
  | .del key => (m.erase key, .deleted (if (m.lookup key).isSome then 1 else 0))

namespace Dict

/-- **A dict stands for a map.** -/
structure IsTableOf (d : Dict V) (m : TextMap V) : Prop where
  lookup : ∀ key, d.find key = m.lookup key
  /-- each key is in exactly one chain, and once -/
  one_chain : ∀ key ∈ m, ∃! i : ℕ, ∃ chain : List (CStr × V),
    d.table[i]? = some chain ∧ key ∈ chain.map Prod.fst
  once : ∀ chain ∈ d.table, (chain.map Prod.fst).Nodup
  /-- an entry is in the chain that its hash selects -/
  home : ∀ (i : ℕ) (chain : List (CStr × V)), d.table[i]? = some chain →
    ∀ kv ∈ chain, slot d.size kv.1 = i
  used : d.used = m.keys.card
  /-- the walk over all chains meets each binding once -/
  walk : d.entries.Nodup ∧ ∀ key v, (key, v) ∈ d.entries ↔ m.lookup key = some v

variable {d : Dict V} {m : TextMap V}

theorem Ok.isTableOf (h : d.Ok) (hl : ∀ key, d.find key = m.lookup key) : d.IsTableOf m where
  lookup := hl
  one_chain := by
    intro key hkey
    obtain ⟨v, hv⟩ := Option.isSome_iff_exists.mp (Finmap.lookup_isSome.mpr hkey)
    rw [← hl, h.find_eq_some, mem_entries] at hv
    obtain ⟨i, chain, hi, hm⟩ := hv
    refine ⟨i, ⟨chain, hi, List.mem_map_of_mem hm⟩, ?_⟩
    rintro j ⟨chain', hj, hm'⟩
    obtain ⟨kv, hkv, rfl⟩ := List.mem_map.mp hm'
    exact (h.home j chain' hj kv hkv).symm.trans (h.home i chain hi (kv.1, v) hm)
  once := by
    intro chain hc
    obtain ⟨i, hi⟩ := List.mem_iff_getElem?.mp hc
    exact h.chain_distinct hi
  home := h.home
  used := by
    have hkeys : m.keys = (d.entries.map Prod.fst).toFinset := by
      ext key
      rw [Finmap.mem_keys, ← Finmap.lookup_isSome, ← hl, List.mem_toFinset, ← not_iff_not,
        ← h.find_eq_none, Bool.not_eq_true, Option.isSome_eq_false_iff, Option.isNone_iff_eq_none]
    rw [hkeys, List.toFinset_card_of_nodup h.distinct, List.length_map, h.used_eq]
  walk := ⟨List.Nodup.of_map _ h.distinct, fun key v => by rw [← hl, h.find_eq_some]⟩

/-- A call on a sound dict and on the map that it stands for. -/
theorem exec_related (h : d.Ok) (hl : ∀ key, d.find key = m.lookup key) (op : Op V) :
    ((d.exec op).1.Ok ∧ ∀ key, (d.exec op).1.find key = (m.exec op).1.lookup key) ∧
      (d.exec op).2 = (m.exec op).2 := by
  cases op with
  | setGet key val =>
    cases val with
    | none => exact ⟨⟨h, hl⟩, congrArg Answer.entry (hl key)⟩
    | some val =>
      refine ⟨⟨h.set, fun k => ?_⟩, rfl⟩
      show (d.set key val).find k = (m.insert key val).lookup k
      rw [h.find_set]
      split
      · rename_i hk
        rw [hk, Finmap.lookup_insert]
      · rename_i hk
        rw [Finmap.lookup_insert_of_ne _ hk, hl]
  | del key =>
    refine ⟨⟨h.erase, fun k => ?_⟩, ?_⟩
    · show (d.erase key).1.find k = (m.erase key).lookup k
      rw [h.find_erase]
      split
      · rename_i hk
        rw [hk, Finmap.lookup_erase]
      · rename_i hk
        rw [Finmap.lookup_erase_ne hk, hl]
    · have hdel : (d.erase key).2 = (d.find key).isSome := by
        rw [erase]
        split <;> simp_all
      show Answer.deleted (if (d.erase key).2 then 1 else 0) = _
      rw [hdel, hl]
      rfl

/-- **A dict refines a finite map**, for every sequence of calls. -/
theorem dict_refines_map (ops : List (Op V)) :
    (serve exec (create : Dict V) ops).2 = (serve TextMap.exec (∅ : TextMap V) ops).2 ∧
      (serve exec (create : Dict V) ops).1.IsTableOf (serve TextMap.exec (∅ : TextMap V) ops).1 := by
  obtain ⟨⟨hok, hl⟩, hanswers⟩ : ((serve exec (create : Dict V) ops).1.Ok ∧ ∀ key,
      (serve exec (create : Dict V) ops).1.find key =
        (serve TextMap.exec (∅ : TextMap V) ops).1.lookup key) ∧
      (serve exec (create : Dict V) ops).2 = (serve TextMap.exec (∅ : TextMap V) ops).2 :=
    serve_related (R := fun (d : Dict V) (m : TextMap V) => d.Ok ∧ ∀ key, d.find key = m.lookup key)
      (fun d m op h => exec_related h.1 h.2 op) ⟨ok_create, fun _ => rfl⟩ ops
  exact ⟨hanswers, hok.isTableOf hl⟩

end Dict

end Alcove
