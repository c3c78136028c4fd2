import Mathlib.Data.Finset.Card
import Alcove.Lfkv.Map
import Alcove.Lfkv.Unique

/-!
# The map that a table stands for

`Abs kv m`: the live records of the table `kv` are the pairs of the map `m`. A single thread
changes one slot at a time (`SetAt`), which is an update of the map at one key (`Abs.setAt`), and
changes the number of live slots accordingly (`SetAt.liveSlots`).
-/

namespace Alcove.Lfkv

variable {V : Type*} {kv kv' : Lfkv V}

/-! ## Live slots -/

/-- Slot `i` holds a record of the key `k` with the entry `e`. -/
def LiveEntry (kv : Lfkv V) (i : ℕ) (k : Bytes) (e : LfEntry V) : Prop :=
  ∃ s, kv.slots i = some s ∧ (kv.recs s).entry = some e ∧ (kv.recs s).keyBytes = k

/-- The entry of the record in slot `i`, if there is one. -/
def entryAt (kv : Lfkv V) (i : ℕ) : Option (LfEntry V) :=
  (kv.slots i).bind fun s => (kv.recs s).entry

/-- The number of slots whose record has an entry. -/
def liveSlots (kv : Lfkv V) : ℕ :=
  ((Finset.range kv.nslots).filter fun i => (kv.entryAt i).isSome).card

/-- The stored key bytes of the record in slot `i`. -/
def keyAt (kv : Lfkv V) (i : ℕ) : Bytes := (kv.slots i).elim [] fun s => (kv.recs s).keyBytes

theorem LiveEntry.keyAt {i : ℕ} {k : Bytes} {e : LfEntry V} (h : LiveEntry kv i k e) :
    kv.keyAt i = k := by
  obtain ⟨s, hs, -, hk⟩ := h
  rw [Lfkv.keyAt, hs, Option.elim_some, hk]

theorem LiveEntry.liveAt {i : ℕ} {k : Bytes} {e : LfEntry V} (h : LiveEntry kv i k e) :
    LiveAt kv k i := by
  obtain ⟨s, hs, he, hk⟩ := h
  exact ⟨s, hs, by simp [he], hk⟩

theorem LiveAt.liveEntry {i : ℕ} {k : Bytes} (h : LiveAt kv k i) : ∃ e, LiveEntry kv i k e := by
  obtain ⟨s, hs, he, hk⟩ := h
  obtain ⟨e, he⟩ := Option.ne_none_iff_exists'.mp he
  exact ⟨e, s, hs, he, hk⟩

theorem LiveEntry.entryAt {i : ℕ} {k : Bytes} {e : LfEntry V} (h : LiveEntry kv i k e) :
    kv.entryAt i = some e := by
  obtain ⟨s, hs, he, -⟩ := h
  rw [Lfkv.entryAt, hs, Option.bind_some, he]

theorem entryAt_eq_some {i : ℕ} {e : LfEntry V} (h : kv.entryAt i = some e) :
    ∃ k, LiveEntry kv i k e := by
  obtain ⟨s, hs, he⟩ := Option.bind_eq_some_iff.mp h
  exact ⟨(kv.recs s).keyBytes, s, hs, he, rfl⟩

theorem LiveEntry.key_unique {i : ℕ} {k k' : Bytes} {e e' : LfEntry V} (h : LiveEntry kv i k e)
    (h' : LiveEntry kv i k' e') : k = k' ∧ e = e' := by
  obtain ⟨s, hs, he, hk⟩ := h
  obtain ⟨s', hs', he', hk'⟩ := h'
  obtain rfl := Option.some.inj (hs.symm.trans hs')
  exact ⟨hk.symm.trans hk', Option.some.inj (he.symm.trans he')⟩

theorem liveSlots_le (kv : Lfkv V) : kv.liveSlots ≤ kv.nslots := by
  have h := Finset.card_filter_le (Finset.range kv.nslots) fun i => (kv.entryAt i).isSome = true
  rwa [Finset.card_range] at h

/-! ## The abstraction -/

/-- **The table stands for the map.** -/
structure Abs (kv : Lfkv V) (m : KeyMap V) : Prop where
  wf : WF kv
  unique : UniqueLive kv
  find : ∀ k v x, m.find k = some (v, x) ↔ ∃ i e, LiveEntry kv i k e ∧ e.val = v ∧ e.expiryUs = x

/-- The counter of the table is the number of its live slots. -/
def Counted (kv : Lfkv V) : Prop := kv.count = UInt64.ofNat kv.liveSlots

theorem Counted.toNat (h : Counted kv) : kv.count.toNat = kv.liveSlots := by
  obtain ⟨b, hb, hn⟩ := kv.pow2
  have hle := kv.liveSlots_le
  have hpow : 2 ^ b ≤ 2 ^ 63 := Nat.pow_le_pow_right Nat.two_pos (by omega)
  have hlt : kv.liveSlots < UInt64.size := by
    show kv.liveSlots < 2 ^ 64
    omega
  rw [h]
  exact UInt64.toNat_ofNat_of_lt' hlt

theorem abs_lfkvNew (b : ℕ) (hb : b < 64) : Abs (lfkvNew V b hb) KeyMap.empty where
  wf := wf_lfkvNew b hb
  unique := fun _ _ _ h => by
    obtain ⟨s, hs, -⟩ := h
    cases hs
  find := fun k v x => by
    constructor
    · intro h
      cases h
    · rintro ⟨i, e, ⟨s, hs, -⟩, -⟩
      cases hs

theorem counted_lfkvNew (b : ℕ) (hb : b < 64) : Counted (lfkvNew V b hb) := by
  have hempty : (lfkvNew V b hb).liveSlots = 0 := by
    rw [liveSlots, Finset.card_eq_zero, Finset.filter_eq_empty_iff]
    intro i _ h
    cases h
  rw [Counted, hempty]
  rfl

namespace Abs

variable {m : KeyMap V} {k : Bytes}

theorem find_of_live (h : Abs kv m) {i : ℕ} {e : LfEntry V} (hi : LiveEntry kv i k e) :
    m.find k = some (e.val, e.expiryUs) := (h.find k _ _).mpr ⟨i, e, hi, rfl, rfl⟩

theorem find_none (h : Abs kv m) : m.find k = none ↔ NoLive kv k := by
  constructor
  · intro hk i hi
    obtain ⟨e, he⟩ := hi.liveEntry
    rw [h.find_of_live he] at hk
    cases hk
  · intro hno
    rw [Option.eq_none_iff_forall_ne_some]
    rintro ⟨v, x⟩ hk
    obtain ⟨i, e, hi, -⟩ := (h.find k v x).mp hk
    exact hno i hi.liveAt

end Abs

/-! ## Changing one slot -/

/-- From `kv` to `kv'`, slot `i` has become one for the key `k` with the entry `d`, and nothing
else has changed. -/
structure SetAt (kv kv' : Lfkv V) (i : ℕ) (k : Bytes) (d : Option (LfEntry V)) : Prop where
  nslots : kv'.nslots = kv.nslots
  lt : i < kv.nslots
  count : kv'.count = kv.count
  here : ∀ k' e, LiveEntry kv' i k' e ↔ k' = k ∧ d = some e
  other : ∀ j ≠ i, ∀ k' e, LiveEntry kv' j k' e ↔ LiveEntry kv j k' e

theorem setAt_of_casEntry (hwf : WF kv) {i : ℕ} {s : SlotId} {k : Bytes}
    (hi : kv.slots i = some s) (hk : (kv.recs s).keyBytes = k)
    {expected d : Option (LfEntry V)} (hcas : kv.casEntry s expected d = some kv') :
    SetAt kv kv' i k d := by
  have hkey : (kv'.recs s).keyBytes = k := by
    rw [(casEntry_ext hcas).keyBytes (hwf.recLt hi), hk]
  have hslots := casEntry_slots hcas
  refine ⟨(casEntry_ext hcas).nslots, hwf.lt hi, ?_, fun k' e => ?_, fun j hji k' e => ?_⟩
  · obtain ⟨-, rfl⟩ := casEntry_eq hcas
    rfl
  · constructor
    · rintro ⟨t, ht, he, hk'⟩
      rw [hslots, hi] at ht
      obtain rfl := Option.some.inj ht
      rw [casEntry_entry hcas] at he
      exact ⟨hk'.symm.trans hkey, he⟩
    · rintro ⟨rfl, he⟩
      exact ⟨s, by rw [hslots, hi], by rw [casEntry_entry hcas, he], hkey⟩
  · have hrec : ∀ t, kv.slots j = some t → kv'.recs t = kv.recs t := by
      intro t ht
      refine casEntry_recs_of_ne hcas ?_
      rintro rfl
      exact hji (hwf.inj ht hi)
    constructor
    · rintro ⟨t, ht, he, hk'⟩
      rw [hslots] at ht
      rw [hrec t ht] at he hk'
      exact ⟨t, ht, he, hk'⟩
    · rintro ⟨t, ht, he, hk'⟩
      exact ⟨t, by rw [hslots, ht], by rw [hrec t ht, he], by rw [hrec t ht, hk']⟩

theorem setAt_of_casSlot (hwf : WF kv) {i : ℕ} (hi : i < kv.nslots) {expected : Option SlotId}
    {fresh : LfSlot V} (hcas : kv.casSlot i expected fresh = some kv') :
    SetAt kv kv' i fresh.keyBytes fresh.entry := by
  have hrec : kv'.recs kv.nrecs = fresh := by rw [casSlot_recs hcas, Function.update_self]
  refine ⟨(casSlot_ext hcas).nslots, hi, ?_, fun k' e => ?_, fun j hji k' e => ?_⟩
  · obtain ⟨-, rfl⟩ := casSlot_eq hcas
    rfl
  · constructor
    · rintro ⟨t, ht, he, hk'⟩
      rw [casSlot_slots hcas] at ht
      obtain rfl := Option.some.inj ht
      rw [hrec] at he hk'
      exact ⟨hk'.symm, he⟩
    · rintro ⟨rfl, he⟩
      exact ⟨kv.nrecs, casSlot_slots hcas, by rw [hrec, he], by rw [hrec]⟩
  · have hslot := casSlot_slots_of_ne hcas hji
    constructor
    · rintro ⟨t, ht, he, hk'⟩
      rw [hslot] at ht
      rw [casSlot_recs_of_lt hcas (hwf.recLt ht)] at he hk'
      exact ⟨t, ht, he, hk'⟩
    · rintro ⟨t, ht, he, hk'⟩
      have hold := casSlot_recs_of_lt hcas (hwf.recLt ht)
      exact ⟨t, by rw [hslot, ht], by rw [hold, he], by rw [hold, hk']⟩

namespace SetAt

variable {i : ℕ} {k : Bytes} {d : Option (LfEntry V)}

theorem entryAt_self (h : SetAt kv kv' i k d) : kv'.entryAt i = d := by
  cases d with
  | none =>
    rw [Option.eq_none_iff_forall_ne_some]
    intro e he
    obtain ⟨k', hk'⟩ := entryAt_eq_some he
    cases ((h.here k' e).mp hk').2
  | some e => exact ((h.here k e).mpr ⟨rfl, rfl⟩).entryAt

theorem entryAt_of_ne (h : SetAt kv kv' i k d) {j : ℕ} (hji : j ≠ i) :
    kv'.entryAt j = kv.entryAt j := by
  refine Option.ext fun e => ⟨fun he => ?_, fun he => ?_⟩
  · obtain ⟨k', hk'⟩ := entryAt_eq_some he
    exact ((h.other j hji k' e).mp hk').entryAt
  · obtain ⟨k', hk'⟩ := entryAt_eq_some he
    exact ((h.other j hji k' e).mpr hk').entryAt

/-- The slots that meet `p`, apart from `i`, are the same before and after. -/
theorem filter_erase (h : SetAt kv kv' i k d) (p : Option (LfEntry V) → Bool) :
    ((Finset.range kv'.nslots).filter fun j => p (kv'.entryAt j)).erase i =
      ((Finset.range kv.nslots).filter fun j => p (kv.entryAt j)).erase i := by
  ext j
  simp only [Finset.mem_erase, Finset.mem_filter, h.nslots]
  constructor
  · rintro ⟨hji, hj, hp⟩
    exact ⟨hji, hj, by rwa [h.entryAt_of_ne hji] at hp⟩
  · rintro ⟨hji, hj, hp⟩
    exact ⟨hji, hj, by rwa [h.entryAt_of_ne hji]⟩

/-- The number of slots that meet `p` changes by what slot `i` contributes. -/
theorem card_filter (h : SetAt kv kv' i k d) (p : Option (LfEntry V) → Bool) :
    ((Finset.range kv'.nslots).filter fun j => p (kv'.entryAt j)).card +
        (if p (kv.entryAt i) then 1 else 0) =
      ((Finset.range kv.nslots).filter fun j => p (kv.entryAt j)).card + if p d then 1 else 0 := by
  have hcard : ∀ (kv : Lfkv V), i < kv.nslots →
      ((Finset.range kv.nslots).filter fun j => p (kv.entryAt j)).card =
        (((Finset.range kv.nslots).filter fun j => p (kv.entryAt j)).erase i).card +
          if p (kv.entryAt i) then 1 else 0 := by
    intro kv hi
    split
    · rename_i hp
      exact (Finset.card_erase_add_one (by simp [hi, hp])).symm
    · rename_i hp
      rw [Finset.erase_eq_of_notMem (by simp [hp]), Nat.add_zero]
  have hold := hcard kv h.lt
  have hnew := hcard kv' (by rw [h.nslots]; exact h.lt)
  rw [h.filter_erase, h.entryAt_self] at hnew
  omega

theorem liveSlots (h : SetAt kv kv' i k d) :
    kv'.liveSlots + (if (kv.entryAt i).isSome then 1 else 0) =
      kv.liveSlots + if d.isSome then 1 else 0 := h.card_filter Option.isSome

end SetAt

/-- **Changing the slot of a key is an update of the map at that key.** -/
theorem Abs.setAt {m : KeyMap V} (h : Abs kv m) {i : ℕ} {k : Bytes} {d : Option (LfEntry V)}
    (hs : SetAt kv kv' i k d) (hwf : WF kv') (hk : ∀ j, LiveAt kv k j → j = i)
    (hi : ∀ k' e, LiveEntry kv i k' e → k' = k) :
    Abs kv' (m.update k (d.map fun e => (e.val, e.expiryUs))) := by
  have hlive : ∀ k' j, LiveAt kv' k' j → j = i ∧ k' = k ∨ j ≠ i ∧ k' ≠ k ∧ LiveAt kv k' j := by
    intro k' j hj
    obtain ⟨e, he⟩ := hj.liveEntry
    by_cases hji : j = i
    · subst hji
      exact .inl ⟨rfl, ((hs.here k' e).mp he).1⟩
    · have hold := ((hs.other j hji k' e).mp he).liveAt
      refine .inr ⟨hji, ?_, hold⟩
      rintro rfl
      exact hji (hk j hold)
  refine ⟨hwf, fun k' j j' hj hj' => ?_, fun k' v x => ?_⟩
  · rcases hlive k' j hj with ⟨rfl, hkk⟩ | ⟨-, hne, hold⟩ <;>
      rcases hlive k' j' hj' with ⟨rfl, hkk'⟩ | ⟨-, hne', hold'⟩
    · rfl
    · exact absurd hkk hne'
    · exact absurd hkk' hne
    · exact h.unique k' j j' hold hold'
  · by_cases hkk : k' = k
    · subst hkk
      simp only [KeyMap.update, Function.update_self, Option.map_eq_some_iff, Prod.mk.injEq]
      constructor
      · rintro ⟨e, he, rfl, rfl⟩
        exact ⟨i, e, (hs.here k' e).mpr ⟨rfl, he⟩, rfl, rfl⟩
      · rintro ⟨j, e, he, rfl, rfl⟩
        rcases hlive k' j he.liveAt with ⟨rfl, -⟩ | ⟨-, hne, -⟩
        · exact ⟨e, ((hs.here k' e).mp he).2, rfl, rfl⟩
        · exact absurd rfl hne
    · simp only [KeyMap.update, Function.update_of_ne hkk]
      rw [h.find]
      constructor
      · rintro ⟨j, e, he, hv⟩
        have hji : j ≠ i := by
          rintro rfl
          exact hkk (hi k' e he)
        exact ⟨j, e, (hs.other j hji k' e).mpr he, hv⟩
      · rintro ⟨j, e, he, hv⟩
        rcases hlive k' j he.liveAt with ⟨-, hkk'⟩ | ⟨hji, -, -⟩
        · exact absurd hkk' hkk
        · exact ⟨j, e, (hs.other j hji k' e).mp he, hv⟩

/-- **Pairs of the map are live slots of the table.** -/
theorem Abs.countPairs {m : KeyMap V} (h : Abs kv m) (p : V × ℤ → Bool) :
    m.countPairs p = ((Finset.range kv.nslots).filter fun i =>
      (kv.entryAt i).any fun e => p (e.val, e.expiryUs)).card := by
  set live := (Finset.range kv.nslots).filter fun i =>
    (kv.entryAt i).any fun e => p (e.val, e.expiryUs)
  have hlive : ∀ i, i ∈ live ↔ ∃ k e, LiveEntry kv i k e ∧ p (e.val, e.expiryUs) = true := by
    intro i
    simp only [live, Finset.mem_filter, Finset.mem_range, Option.any_eq_true]
    constructor
    · rintro ⟨-, e, he, hp⟩
      obtain ⟨k, hk⟩ := entryAt_eq_some he
      exact ⟨k, e, hk, hp⟩
    · rintro ⟨k, e, hk, hp⟩
      obtain ⟨s, hs, -⟩ := id hk
      exact ⟨h.wf.lt hs, e, hk.entryAt, hp⟩
  have himage : {k | ∃ q, m.find k = some q ∧ p q = true} = kv.keyAt '' (live : Set ℕ) := by
    ext k
    simp only [Set.mem_ofPred_eq, Set.mem_image, Finset.mem_coe, hlive]
    constructor
    · rintro ⟨⟨v, x⟩, hq, hp⟩
      obtain ⟨i, e, hi, rfl, rfl⟩ := (h.find k v x).mp hq
      exact ⟨i, ⟨k, e, hi, hp⟩, hi.keyAt⟩
    · rintro ⟨i, ⟨k', e, hi, hp⟩, hk⟩
      obtain rfl := hi.keyAt.symm.trans hk
      exact ⟨_, h.find_of_live hi, hp⟩
  have hinj : Set.InjOn kv.keyAt live := by
    intro i hi j hj hij
    obtain ⟨k, e, hk, -⟩ := (hlive i).mp hi
    obtain ⟨k', e', hk', -⟩ := (hlive j).mp hj
    have hkk : k = k' := by rw [← hk.keyAt, ← hk'.keyAt, hij]
    exact h.unique k i j hk.liveAt (hkk ▸ hk'.liveAt)
  rw [KeyMap.countPairs, himage, hinj.ncard_image, Set.ncard_coe_finset]

end Alcove.Lfkv
