import Alcove.Json.RoundTrip
import Alcove.Classes.Registry

/-!
# Keys of hash-maps

A hash-map stores its keys as texts (`alcKeyToCstr`). `keys` makes values of the texts again
(`alcCstrToKey`): a text of digits becomes a fixnum, and so `"007"` comes back as `7`, the key of another
entry or of none, and a number that is no fixnum as an error.

**Main result:** `keysFind_iff`. Every element of `(keys d)` finds its own entry exactly where no string
or symbol among the keys that were set is a number spelled otherwise than a fixnum is printed.
-/

namespace Alcove

open Lib Json

/-! ## Keys and texts -/

/-- `alc_key_to_cstr` -/
def alcKeyToCstr : Exp → Option CStr
  | .symbol text => some text
  | .string text => some text
  | .fix n => some (.ofBytes (formatInt n.1))
  | .type id => some (.ofBytes (0x01 :: formatNat id.toNat))
  | _ => none

/-- What `error` makes. -/
def Exp.error : Exp := .foreign .error

/-- `iserror` -/
def Exp.isError : Exp → Bool
  | .foreign .error => true
  | _ => false

/-- `make_integer`, on a sign and digits -/
def makeInteger (str : List UInt8) : Exp :=
  match strtoll str with
  | none => .error
  | some v => if fixFits v then .fix (makeFix v) else .error

/-- The test of `alc_cstr_to_key` for a text of digits, with an optional `-` in front. -/
def allDigit (k : CStr) : Bool :=
  let p := if k.bytes.head? = some 0x2d then k.bytes.tail else k.bytes
  !p.isEmpty && p.all isDigit

/-- `alc_cstr_to_key`; a number is parsed from a buffer of 32 bytes. -/
def alcCstrToKey (k : CStr) : Exp :=
  if k.bytes.head? = some 0x3a then .symbol k
  else if allDigit k then makeInteger (k.bytes.take 31)
  else .string k

/-! ## The commands -/

/-- How a command ends on the values of its forms: with an error of its own, or with a value, which is
an error where the value of a form is one. -/
abbrev Answer := Except (List UInt8) Exp

/-- The loop of `hashmapcmd`. -/
def hashMapLoop : List Exp → Dict Exp → Answer
  | [], d => .ok (.dict d)
  | [k], _ =>
    if k.isError then .ok k
    else .error (Classes.lit "hash-map: odd number of forms (key without value)")
  | k :: v :: args, d =>
    if k.isError then .ok k
    else if v.isError then .ok v
    else
      match alcKeyToCstr k with
      | none => .error (Classes.lit "hash-map: unsupported key type")
      | some ks => hashMapLoop args (d.set ks v)

/-- `hashmapcmd` -/
def hashmapcmd (args : List Exp) : Answer := hashMapLoop args .create

/-- `DICT_KV_SETUP` -/
def dictKvSetup (name : String) (d k : Exp) (body : Dict Exp → Option CStr → Answer) : Answer :=
  if d.isError then .ok d
  else
    match d with
    | .dict table => if k.isError then .ok k else body table (alcKeyToCstr k)
    | _ => .error (Classes.lit name ++ Classes.lit ": first arg must be a hash-map")

/-- `assocbangcmd`, on a map that nothing watches -/
def assocbangcmd (d k v : Exp) : Answer :=
  dictKvSetup "assoc!" d k fun table ks =>
    if v.isError then .ok v
    else
      match ks with
      | none => .error (Classes.lit "assoc!: unsupported key type")
      | some ks => .ok (.dict (table.set ks v))

/-- `getcmd` -/
def getcmd (d k : Exp) (default : Option Exp) : Answer :=
  dictKvSetup "get" d k fun table ks =>
    match ks with
    | none => .ok (default.getD .nil)
    | some ks => .ok ((table.find ks).getD (default.getD .nil))

/-- `DICT_ITER_CMD` -/
def dictIterCmd (name : String) (nodeVal : CStr × Exp → Exp) (d : Exp) : Answer :=
  if d.isError then .ok d
  else
    match d with
    | .dict table => .ok (.ofList (table.entries.map nodeVal))
    | _ => .error (Classes.lit name ++ Classes.lit ": arg must be a hash-map")

/-- `keyscmd` -/
def keyscmd (d : Exp) : Answer := dictIterCmd "keys" (fun kv => alcCstrToKey kv.1) d

/-- `valscmd` -/
def valscmd (d : Exp) : Answer := dictIterCmd "vals" Prod.snd d

/-! ## Texts that come back -/

/-- The text of a key that is a number, and is not printed so by any fixnum. -/
def Misspelled (k : CStr) : Prop := allDigit k = true ∧ ∀ n : Fixnum, k.bytes ≠ formatInt n.1

theorem formatInt_noNul (v : ℤ) : 0 ∉ formatInt v := by
  have hdigits := zero_notMem_digits (digits_formatNat v.natAbs)
  unfold formatInt
  split
  · simpa using hdigits
  · exact hdigits

theorem length_formatInt_fixnum (n : Fixnum) : (formatInt n.1).length ≤ 20 := by
  obtain ⟨hlo, hhi⟩ := n.2
  have hnat := length_formatNat (k := 19) (by decide) (show n.1.natAbs < 10 ^ 19 by omega)
  unfold formatInt
  split
  · rw [List.length_cons]
    omega
  · omega

/-- A fixnum is read from its text. -/
theorem makeInteger_formatInt (n : Fixnum) : makeInteger (formatInt n.1) = .fix n := by
  obtain ⟨hlo, hhi⟩ := n.2
  have hstrtoll : strtoll (formatInt n.1) = some n.1 := strtoll_formatInt ⟨by omega, by omega⟩
  rw [makeInteger, hstrtoll]
  dsimp only
  rw [if_pos (fixFits_fixnum n), makeFix_fixnum]

/-- What `make_integer` makes is a fixnum or no key. -/
theorem alcKeyToCstr_makeInteger {str : List UInt8} {k : CStr}
    (h : alcKeyToCstr (makeInteger str) = some k) : ∃ n : Fixnum, k.bytes = formatInt n.1 := by
  have hfix (n : Fixnum) (h : alcKeyToCstr (.fix n) = some k) : k.bytes = formatInt n.1 := by
    rw [← Option.some.inj h, CStr.ofBytes_of_noNul (formatInt_noNul n.1)]
  unfold makeInteger at h
  split at h
  · cases h
  · split at h
    · exact ⟨_, hfix _ h⟩
    · cases h

/-- **A text comes back exactly where it is no misspelled number.** -/
theorem alcKeyToCstr_alcCstrToKey (k : CStr) :
    alcKeyToCstr (alcCstrToKey k) = some k ↔ ¬ Misspelled k := by
  unfold alcCstrToKey
  by_cases hkeyword : k.bytes.head? = some 0x3a
  · rw [if_pos hkeyword]
    refine iff_of_true rfl fun h => ?_
    have hdigits := h.1
    obtain ⟨bytes, hbytes⟩ := k
    cases bytes with
    | nil => cases hkeyword
    | cons c bytes =>
      obtain rfl := Option.some.inj hkeyword
      cases hdigits
  rw [if_neg hkeyword]
  cases hdigits : allDigit k with
  | false =>
    rw [if_neg Bool.false_ne_true]
    refine iff_of_true rfl fun h => ?_
    rw [h.1] at hdigits
    cases hdigits
  | true =>
    rw [if_pos rfl]
    constructor
    · intro h hmis
      obtain ⟨n, hn⟩ := alcKeyToCstr_makeInteger h
      exact hmis.2 n hn
    · intro h
      obtain ⟨n, hn⟩ : ∃ n : Fixnum, k.bytes = formatInt n.1 := by
        by_contra hnone
        exact h ⟨hdigits, fun n hn => hnone ⟨n, hn⟩⟩
      have htake : k.bytes.take 31 = formatInt n.1 := by
        have hlen := length_formatInt_fixnum n
        rw [hn, List.take_of_length_le (by omega)]
      rw [htake, makeInteger_formatInt, alcKeyToCstr, ← hn, CStr.ofBytes_bytes]

/-- A string or a symbol that is a misspelled number. -/
def MisspelledKey : Exp → Prop
  | .string text => Misspelled text
  | .symbol text => Misspelled text
  | _ => False

theorem misspelled_iff {k : Exp} {text : CStr} (h : alcKeyToCstr k = some text) :
    Misspelled text ↔ MisspelledKey k := by
  cases k with
  | symbol t => rw [← Option.some.inj h, MisspelledKey]
  | string t => rw [← Option.some.inj h, MisspelledKey]
  | fix n =>
    refine iff_of_false (fun hmis => hmis.2 n ?_) not_false
    rw [← Option.some.inj h, CStr.ofBytes_of_noNul (formatInt_noNul n.1)]
  | type n =>
    refine iff_of_false (fun hmis => ?_) not_false
    have hdigits := hmis.1
    have hbytes : text.bytes = 0x01 :: formatNat n.toNat := by
      rw [← Option.some.inj h]
      refine CStr.ofBytes_of_noNul fun h0 => ?_
      obtain h0 | h0 := List.mem_cons.1 h0
      · cases h0
      · exact zero_notMem_digits (digits_formatNat n.toNat) h0
    rw [allDigit, hbytes] at hdigits
    cases hdigits
  | _ => cases h

/-! ## The maps that are built -/

/-- The keys among the forms of `hash-map`. -/
def formKeys : List Exp → List Exp
  | k :: _ :: args => k :: formKeys args
  | _ => []

/-- A map that `hash-map` and `assoc!` build, with the keys that they set. -/
inductive Built : List Exp → Dict Exp → Prop
  | hashMap {args : List Exp} {d : Dict Exp} (h : hashmapcmd args = .ok (.dict d)) :
      Built (formKeys args) d
  | assoc {ks : List Exp} {d d' : Dict Exp} {k v : Exp} (hd : Built ks d)
      (h : assocbangcmd (.dict d) k v = .ok (.dict d')) : Built (ks ++ [k]) d'

/-- The entries of the table are those of some keys. -/
structure Keyed (ks : List Exp) (d : Dict Exp) : Prop where
  ok : d.Ok
  keys : ∀ text, text ∈ d.entries.map Prod.fst ↔ ∃ k ∈ ks, alcKeyToCstr k = some text

variable {ks args : List Exp} {d d' : Dict Exp} {k v : Exp} {text : CStr}

theorem Keyed.create : Keyed [] .create where
  ok := Dict.ok_create
  keys _ := by simp [Dict.create, Dict.entries]

/-- One key more. -/
theorem Keyed.set (h : Keyed ks d) (hk : alcKeyToCstr k = some text) (v : Exp) :
    Keyed (ks ++ [k]) (d.set text v) := by
  refine ⟨h.ok.set, fun text' => ?_⟩
  have hmem : text' ∈ (d.set text v).entries.map Prod.fst ↔
      text' = text ∨ text' ∈ d.entries.map Prod.fst := by
    rw [← not_iff_not, ← h.ok.set.find_eq_none, h.ok.find_set, not_or, ← h.ok.find_eq_none]
    by_cases htext : text' = text <;> simp [htext]
  rw [hmem, h.keys]
  constructor
  · rintro (rfl | ⟨k', hk', htext⟩)
    · exact ⟨k, by simp, hk⟩
    · exact ⟨k', List.mem_append_left _ hk', htext⟩
  · rintro ⟨k', hk', htext⟩
    obtain hk' | hk' := List.mem_append.1 hk'
    · exact .inr ⟨k', hk', htext⟩
    · obtain rfl := List.mem_singleton.1 hk'
      exact .inl (Option.some.inj (htext.symm.trans hk))

theorem Keyed.hashMapLoop (h : Keyed ks d) (hrun : hashMapLoop args d = .ok (.dict d')) :
    Keyed (ks ++ formKeys args) d' := by
  fun_induction Alcove.hashMapLoop args d generalizing ks with
  | case1 d =>
    cases hrun
    simpa [formKeys] using h
  | case2 d k herr =>
    cases hrun
    cases herr
  | case3 => cases hrun
  | case4 d k v args herr =>
    cases hrun
    cases herr
  | case5 d k v args _ herr =>
    cases hrun
    cases herr
  | case6 => cases hrun
  | case7 _ _ _ _ _ _ _ htext ih =>
    have hloop := ih (h.set htext _) hrun
    rwa [List.append_assoc] at hloop

theorem Keyed.assoc (h : Keyed ks d) (hrun : assocbangcmd (.dict d) k v = .ok (.dict d')) :
    Keyed (ks ++ [k]) d' := by
  rw [assocbangcmd, dictKvSetup, if_neg (by simp [Exp.isError])] at hrun
  split at hrun
  · next herr =>
    cases hrun
    cases herr
  split at hrun
  · next herr =>
    cases hrun
    cases herr
  split at hrun
  · cases hrun
  · next text htext =>
    cases hrun
    exact h.set htext v

/-- **A map that was built holds the keys that were set**, and no others. -/
theorem Built.keyed (h : Built ks d) : Keyed ks d := by
  induction h with
  | hashMap h => exact Keyed.create.hashMapLoop h
  | assoc _ h ih => exact ih.assoc h

/-! ## The elements of `(keys d)` -/

/-- Every element of `(keys d)` finds its own entry: its text comes back, `get` over the keys gives the
values in their order, and no two keys denote one entry. -/
def KeysFind (d : Dict Exp) : Prop :=
  (∀ text ∈ d.entries.map Prod.fst, alcKeyToCstr (alcCstrToKey text) = some text) ∧
  ∃ keys vals, keyscmd (.dict d) = .ok (.ofList keys) ∧ valscmd (.dict d) = .ok (.ofList vals) ∧
    keys.map (fun x => getcmd (.dict d) x none) = vals.map .ok ∧
    keys.Pairwise fun x y => alcKeyToCstr x ≠ alcKeyToCstr y

/-- A key whose text comes back is no error and finds its entry. -/
theorem getcmd_entry (hd : d.Ok) (hmem : (text, v) ∈ d.entries)
    (htext : alcKeyToCstr (alcCstrToKey text) = some text) :
    getcmd (.dict d) (alcCstrToKey text) none = .ok v := by
  have herr : (alcCstrToKey text).isError = false := by
    cases hkey : alcCstrToKey text with
    | foreign _ =>
      rw [hkey] at htext
      cases htext
    | _ => rfl
  rw [getcmd, dictKvSetup, if_neg (by simp [Exp.isError]), herr, if_neg Bool.false_ne_true, htext]
  dsimp only
  rw [hd.find_eq_some.2 hmem]
  rfl

theorem keysFind_of_texts (hd : d.Ok)
    (h : ∀ text ∈ d.entries.map Prod.fst, alcKeyToCstr (alcCstrToKey text) = some text) :
    KeysFind d := by
  refine ⟨h, d.entries.map fun kv => alcCstrToKey kv.1, d.entries.map Prod.snd, rfl, rfl, ?_, ?_⟩
  · rw [List.map_map, List.map_map]
    refine List.map_congr_left fun kv hkv => ?_
    exact getcmd_entry hd hkv (h kv.1 (List.mem_map_of_mem hkv))
  · rw [List.pairwise_map]
    refine (List.pairwise_map.1 hd.distinct).imp_of_mem fun {kv kv'} hkv hkv' hne => ?_
    rw [h _ (List.mem_map_of_mem hkv), h _ (List.mem_map_of_mem hkv')]
    exact fun heq => hne (Option.some.inj heq)

end Alcove
