import Alcove.Lfkv.Abstract

/-!
# A call that runs alone

A call on one key, run alone (`soloStep`) with every allocation succeeding, comes to its end on
every table that still has a free slot if the call may take one, and does to the pair of its key what
`onPair` says (`ends_keyed`). The parts are the probe of the machine, which finds what `probe` finds
(`ends_probeLoop`), and the three changes of the table, as changes of the map it stands for
(`Tracks.retire`, `Tracks.replace`, `Tracks.place`).
-/

namespace Alcove.Lfkv

open Lib

variable {V : Type*} {kv kv' : Lfkv V} {m : KeyMap V}

/-- Some slot of the table is still free. -/
def HasFree (kv : Lfkv V) : Prop := ∃ i < kv.nslots, kv.slots i = none

/-- The table stands for the map, and its counter is right. -/
structure Tracks (kv : Lfkv V) (m : KeyMap V) : Prop extends Abs kv m where
  counted : Counted kv

/-! ## Probing -/

/-- Slot `x` is on the path of `h` and holds a tombstone. -/
def DeadAt (kv : Lfkv V) (h : UInt32) (x : ℕ) : Prop :=
  kv.OnPath h x ∧ ∃ s, kv.slots x = some s ∧ (kv.recs s).entry = none

/-- The probe of a hash visits every slot. -/
theorem exists_slotAt (h : UInt32) {i : ℕ} (hi : i < kv.nslots) :
    ∃ q < kv.nslots, kv.slotAt h q = i := by
  have hpos := kv.nslots_pos
  have hmod : h.toNat % kv.nslots < kv.nslots := Nat.mod_lt _ hpos
  refine ⟨(i + (kv.nslots - h.toNat % kv.nslots)) % kv.nslots, Nat.mod_lt _ hpos, ?_⟩
  have hdiv := Nat.div_add_mod h.toNat kv.nslots
  have hsum : h.toNat + (i + (kv.nslots - h.toNat % kv.nslots)) =
      i + kv.nslots * (h.toNat / kv.nslots + 1) := by
    rw [Nat.mul_add, Nat.mul_one]
    omega
  rw [slotAt, Nat.add_mod_mod, hsum, Nat.add_mul_mod_self_left, Nat.mod_eq_of_lt hi]

/-- A probe that meets a free slot before its loop ends stops at one, and the tombstone it
returns is one. -/
theorem probeLoop_missing {h : UInt32} {k : Bytes} {n q q' i : ℕ} {tomb t : Option ℕ}
    (hc : kv.Covered h q) (htomb : ∀ x ∈ tomb, DeadAt kv h x) (hq : q ≤ q') (hq' : q' < q + n)
    (hfree : kv.slots (kv.slotAt h q') = none)
    (hres : kv.probeLoop h k n (kv.slotAt h q) tomb = .missing i t) :
    kv.OnPath h i ∧ kv.slots i = none ∧ ∀ x ∈ t, DeadAt kv h x := by
  induction n generalizing q tomb with
  | zero => omega
  | succ n ih =>
    unfold probeLoop at hres
    cases hs : kv.slots (kv.slotAt h q) with
    | none =>
      simp only [hs] at hres
      obtain ⟨rfl, rfl⟩ := ProbeResult.missing.inj hres
      exact ⟨⟨q, rfl, hc⟩, hs, htomb⟩
    | some s =>
      have hne : q ≠ q' := by
        rintro rfl
        rw [hs] at hfree
        cases hfree
      have hc' := hc.succ (by simp [hs])
      simp only [hs, kv.succ_slotAt] at hres
      cases he : (kv.recs s).entry with
      | none =>
        simp only [he] at hres
        refine ih hc' (fun x hx => ?_) (by omega) (by omega) hres
        cases tomb with
        | none =>
          obtain rfl : kv.slotAt h q = x := by simpa using hx
          exact ⟨⟨q, rfl, hc⟩, s, hs, he⟩
        | some y => exact htomb x (by simpa using hx)
      | some e =>
        simp only [he] at hres
        split at hres
        · cases hres
        · exact ih hc' htomb (by omega) (by omega) hres

/-- The probe of a key that is not there, on a table with a free slot. -/
theorem probe_absent (hwf : WF kv) (hfree : HasFree kv) {k : Bytes} (hno : NoLive kv k) :
    ∃ i t, kv.probe k = .missing i t ∧ kv.OnPath (bernsteinHash k) i ∧ kv.slots i = none ∧
      ∀ x ∈ t, DeadAt kv (bernsteinHash k) x := by
  obtain ⟨i, t, hp⟩ := probe_missing_of_not_live hwf hno
  obtain ⟨j, hj, hslot⟩ := hfree
  obtain ⟨q, hq, rfl⟩ := exists_slotAt (bernsteinHash k) hj
  have hcov : kv.Covered (bernsteinHash k) 0 := fun q hq => absurd hq (Nat.not_lt_zero q)
  have hnone : ∀ x ∈ (none : Option ℕ), DeadAt kv (bernsteinHash k) x := by simp
  refine ⟨i, t, hp, ?_⟩
  rw [probe, kv.home_eq] at hp
  exact probeLoop_missing hcov hnone (Nat.zero_le q) (by omega) hslot hp

/-- The probe of a key that is there. -/
theorem probe_present (hwf : WF kv) (hu : UniqueLive kv) {i : ℕ} {s : SlotId} {k : Bytes}
    (hi : kv.slots i = some s) (he : (kv.recs s).entry ≠ none) (hk : (kv.recs s).keyBytes = k) :
    kv.probe k = .found i s := by
  have hlive : LiveAt kv k i := ⟨s, hi, he, hk⟩
  obtain ⟨j, t, hp⟩ := probe_of_live hwf hlive
  obtain ⟨hj, hlive'⟩ := probe_found hwf hp
  obtain rfl := hu k i j hlive hlive'
  obtain rfl := Option.some.inj (hi.symm.trans hj)
  exact hp

/-! ## The primitive steps, on the map -/

theorem casEntry_of_eq {s : SlotId} {e : LfEntry V} (he : (kv.recs s).entry = some e)
    (d : Option (LfEntry V)) : ∃ kv', kv.casEntry s (some e) d = some kv' := by
  unfold casEntry
  rw [he, if_pos rfl]
  exact ⟨_, rfl⟩

theorem Abs.count (h : Abs kv m) (n : UInt64) : Abs { kv with count := n } m :=
  ⟨h.wf.count n, h.unique, h.find⟩

theorem ofNat_succ_sub_one (n : ℕ) : UInt64.ofNat (n + 1) - 1 = UInt64.ofNat n := by
  rw [UInt64.ofNat_add]
  exact UInt64.add_sub_cancel _ _

section Primitive

variable {i : ℕ} {s : SlotId} {k : Bytes} {e : LfEntry V}

theorem Abs.casEntry (h : Abs kv m) (hi : kv.slots i = some s) (he : (kv.recs s).entry = some e)
    (hk : (kv.recs s).keyBytes = k) {d : Option (LfEntry V)}
    (hcas : kv.casEntry s (some e) d = some kv') :
    Abs kv' (m.update k (d.map fun e => (e.val, e.expiryUs))) ∧
      kv'.liveSlots + 1 = kv.liveSlots + (if d.isSome then 1 else 0) ∧ kv'.count = kv.count := by
  have hset := setAt_of_casEntry h.wf hi hk hcas
  have hlive : LiveEntry kv i k e := ⟨s, hi, he, hk⟩
  refine ⟨h.setAt hset (h.wf.casEntry hcas) ?_ ?_, ?_, hset.count⟩
  · exact fun j hj => h.unique k j i hj hlive.liveAt
  · exact fun k' e' he' => (he'.key_unique hlive).1
  · have hcard := hset.liveSlots
    rw [hlive.entryAt] at hcard
    simpa using hcard

/-- Retiring the entry of a key removes its pair. -/
theorem Tracks.retire (h : Tracks kv m) (hi : kv.slots i = some s)
    (he : (kv.recs s).entry = some e) (hk : (kv.recs s).keyBytes = k) :
    ∃ kv', kv.casEntry s (some e) none = some kv' ∧ Tracks kv'.countSub (m.update k none) ∧
      kv'.slots = kv.slots := by
  obtain ⟨kv', hcas⟩ := casEntry_of_eq he none
  obtain ⟨habs, hlive, hcount⟩ := h.toAbs.casEntry hi he hk hcas
  refine ⟨kv', hcas, ⟨habs.count _, ?_⟩, casEntry_slots hcas⟩
  have hc : kv'.count - 1 = UInt64.ofNat kv'.liveSlots := by
    rw [hcount, h.counted, ← show kv'.liveSlots + 1 = kv.liveSlots by simpa using hlive]
    exact ofNat_succ_sub_one _
  exact hc

/-- Swapping the entry of a key for another one replaces its pair. -/
theorem Tracks.replace (h : Tracks kv m) (hi : kv.slots i = some s)
    (he : (kv.recs s).entry = some e) (hk : (kv.recs s).keyBytes = k) (d : LfEntry V) :
    ∃ kv', kv.casEntry s (some e) (some d) = some kv' ∧
      Tracks kv' (m.update k (some (d.val, d.expiryUs))) := by
  obtain ⟨kv', hcas⟩ := casEntry_of_eq he (some d)
  obtain ⟨habs, hlive, hcount⟩ := h.toAbs.casEntry hi he hk hcas
  refine ⟨kv', hcas, habs, ?_⟩
  have hl : kv'.liveSlots = kv.liveSlots := by simpa using hlive
  rw [Counted, hcount, h.counted, hl]

/-- Placing a fresh record in a slot without an entry adds the pair of its key. -/
theorem Tracks.place (h : Tracks kv m) {c : Call V} (hshort : c.Short) {x addr : ℕ}
    (hpath : kv.OnPath c.hash x) (hdead : kv.entryAt x = none) (hno : NoLive kv c.key)
    {d : LfEntry V} (hd : c.freshEntry addr = some d) :
    ∃ kv', kv.casSlot x (kv.slots x) (c.freshSlot addr) = some kv' ∧
      Tracks kv'.countAdd (m.update c.key (some (d.val, d.expiryUs))) := by
  obtain ⟨kv', hcas⟩ : ∃ kv', kv.casSlot x (kv.slots x) (c.freshSlot addr) = some kv' := by
    unfold casSlot
    rw [if_pos rfl]
    exact ⟨_, rfl⟩
  have hset := setAt_of_casSlot h.wf hpath.lt hcas
  rw [keyBytes_freshSlot hshort] at hset
  have hwf := h.wf.casSlot (recOk_freshSlot hshort addr) hpath hcas
  have habs := h.toAbs.setAt hset hwf (fun j hj => absurd hj (hno j)) fun k' e' he' => by
    rw [he'.entryAt] at hdead
    cases hdead
  have hentry : (c.freshSlot addr).entry = some d := hd
  have hcard := hset.liveSlots
  rw [hentry] at habs hcard
  refine ⟨kv', hcas, habs.count _, ?_⟩
  have hl : kv'.liveSlots = kv.liveSlots + 1 := by simpa [hdead] using hcard
  have hc : kv'.count + 1 = UInt64.ofNat kv'.liveSlots := by
    rw [hset.count, h.counted, hl, UInt64.ofNat_add]
    rfl
  exact hc

end Primitive

/-! ## Running a call alone -/

section Ends

variable [DecidableEq V]

/-- One step of the call `c` when no other thread steps and every allocation succeeds. -/
def soloStep (c : Call V) (now : ℤ) (x : Lfkv V × Pc V) (addr : ℕ) : Lfkv V × Pc V :=
  step x.1 ⟨c, now, x.2⟩ true addr

/-- The call, at the program point `pc`, comes to its end, with a table and a result in `Q`. -/
def Ends (c : Call V) (now : ℤ) (Q : Lfkv V → Ret V → Prop) (kv : Lfkv V) (pc : Pc V) : Prop :=
  Inevitable (soloStep c now) (fun x => ∃ r, x.2 = .ret r ∧ Q x.1 r) (kv, pc)

variable {c : Call V} {now : ℤ} {Q : Lfkv V → Ret V → Prop}

theorem ends_ret {r : Ret V} (h : Q kv r) : Ends c now Q kv (.ret r) := .now ⟨r, rfl, h⟩

theorem ends_step {pc : Pc V}
    (h : ∀ addr, Ends c now Q (step kv ⟨c, now, pc⟩ true addr).1
      (step kv ⟨c, now, pc⟩ true addr).2) : Ends c now Q kv pc := .later h

/-- Where a call goes after its probe. -/
def Call.afterProbe (c : Call V) : ProbeResult → Pc V
  | .found _ s => c.found s
  | .missing i t => c.missing true i t

/-- **The probe of the machine finds what `probe` finds.** -/
theorem ends_probeLoop {n p i : ℕ} {tomb : Option ℕ} (hp : p + n = kv.nslots) (hn : 0 < n)
    (h : Ends c now Q kv (c.afterProbe (kv.probeLoop c.hash c.key n i tomb))) :
    Ends c now Q kv (.probe p i tomb) := by
  induction n generalizing p i tomb with
  | zero => omega
  | succ n ih =>
    have hnext : ∀ tomb',
        Ends c now Q kv (c.afterProbe (kv.probeLoop c.hash c.key n (kv.succ i) tomb')) →
        Ends c now Q kv (c.probeNext kv true p i tomb') := by
      intro tomb' h'
      unfold Call.probeNext
      split
      · exact ih (by omega) (by omega) h'
      · obtain rfl : n = 0 := by omega
        exact h'
    unfold probeLoop at h
    refine ends_step fun addr => ?_
    cases hs : kv.slots i with
    | none =>
      simp only [step, hs] at h ⊢
      exact h
    | some s =>
      simp only [step, hs] at h ⊢
      refine ends_step fun addr => ?_
      cases he : (kv.recs s).entry with
      | none =>
        simp only [step, he] at h ⊢
        exact hnext _ h
      | some e =>
        simp only [step, he] at h ⊢
        split
        · rename_i hkey
          rw [if_pos hkey] at h
          exact h
        · rename_i hkey
          rw [if_neg hkey] at h
          exact hnext _ h

theorem ends_probe (h : Ends c now Q kv (c.afterProbe (kv.probe c.key))) :
    Ends c now Q kv (c.probeStart kv) :=
  ends_probeLoop (Nat.zero_add _) kv.nslots_pos h

/-! ## The calls on one key -/

/-- What a call on one key must leave behind, when the pair of its key was `p`. -/
def KeyedPost (m : KeyMap V) (c : Call V) (now : ℤ) (p : Option (V × ℤ)) (kv' : Lfkv V)
    (r : Ret V) : Prop :=
  Tracks kv' (m.update c.key (onPair now c p).1) ∧ r = (onPair now c p).2

omit [DecidableEq V] in
theorem KeyMap.update_self (m : KeyMap V) (k : Bytes) : m.update k (m.find k) = m := by
  ext1
  exact Function.update_eq_self k m.find

omit [DecidableEq V] in
theorem KeyMap.update_update (m : KeyMap V) (k : Bytes) (p q : Option (V × ℤ)) :
    (m.update k p).update k q = m.update k q := by
  ext1
  simp [KeyMap.update]

/-- A call that places its record in a slot without an entry. -/
theorem ends_claim (h : Tracks kv m) (hshort : c.Short) (hins : c.Inserts c.key) {x : ℕ}
    (hpath : kv.OnPath c.hash x) (hfree : kv.slots x = none) (hno : NoLive kv c.key) :
    Ends c now (KeyedPost m c now none) kv (.claim x) := by
  have hdead : kv.entryAt x = none := by rw [entryAt, hfree, Option.bind_none]
  refine ends_step fun addr => ?_
  obtain ⟨v, hd, hpair⟩ : ∃ v, c.freshEntry addr = some ⟨addr, v, 0⟩ ∧
      onPair now c none = (some (v, 0), c.inserted) := by
    cases c with
    | set k val => exact ⟨val, rfl, rfl⟩
    | setNx k val => exact ⟨val, rfl, rfl⟩
    | _ => exact hins.elim
  obtain ⟨kv', hcas, htracks⟩ := h.place hshort hpath hdead hno hd
  rw [hfree] at hcas
  simp only [step, hcas]
  refine ends_step fun addr => ends_ret ?_
  rw [KeyedPost, hpair]
  exact ⟨htracks, rfl⟩

/-- `lfkv_set` recycles a tombstone. -/
theorem ends_tombLoad {k : Bytes} {v : V} (h : Tracks kv m) (hshort : k.length < 2 ^ 32) {i x : ℕ}
    (hdead : DeadAt kv (bernsteinHash k) x) (hno : NoLive kv k) :
    Ends (.set k v) now (KeyedPost m (.set k v) now none) kv (.tombLoad i x) := by
  obtain ⟨hpath, old, hslot, hold⟩ := hdead
  have hnone : kv.entryAt x = none := by rw [entryAt, hslot, Option.bind_some, hold]
  refine ends_step fun addr => ?_
  simp only [step, hslot]
  refine ends_step fun addr => ?_
  simp only [step, hold, Option.isNone_none, if_true]
  refine ends_step fun addr => ?_
  have hd : (Call.set k v).freshEntry addr = some ⟨addr, v, 0⟩ := rfl
  obtain ⟨kv', hcas, htracks⟩ := h.place (c := .set k v) hshort hpath hnone hno hd
  rw [hslot] at hcas
  simp only [step, hcas]
  refine ends_step fun addr => ends_ret ?_
  exact ⟨htracks, rfl⟩

/-- The call may take a slot of the table that is free. -/
def Call.TakesSlot : Call V → Prop
  | .set _ _ | .setNx _ _ => True
  | _ => False

/-- A call on a key that is not there, from its probe on. -/
theorem ends_absent (h : Tracks kv m) (hfree : c.TakesSlot → HasFree kv) (hshort : c.Short)
    (hkeyed : c.Keyed) (hno : m.find c.key = none) :
    Ends c now (KeyedPost m c now none) kv (c.probeStart kv) := by
  have hlive := h.find_none.mp hno
  have hsame : Tracks kv (m.update c.key none) := by
    rw [← hno, m.update_self]
    exact h
  refine ends_probe ?_
  by_cases htakes : c.TakesSlot
  · obtain ⟨i, t, hp, hpath, hslot, hdead⟩ := probe_absent h.wf (hfree htakes) hlive
    rw [hp]
    cases c with
    | set k val =>
      cases t with
      | none => exact ends_claim h hshort rfl hpath hslot hlive
      | some x => exact ends_tombLoad h hshort (hdead x rfl) hlive
    | setNx k val => exact ends_claim h hshort rfl hpath hslot hlive
    | _ => exact htakes.elim
  · obtain ⟨i, t, hp⟩ := probe_missing_of_not_live h.wf hlive
    rw [hp]
    cases c with
    | set k val | setNx k val => exact absurd trivial htakes
    | count | foreach | evictExpired | clear => exact hkeyed.elim
    | _ => exact ends_ret ⟨hsame, rfl⟩

section Present

variable {i : ℕ} {s : SlotId} {e : LfEntry V}

/-- A call that retires the entry of its key. -/
theorem ends_retire (h : Tracks kv m) (hi : kv.slots i = some s)
    (he : (kv.recs s).entry = some e) (hk : (kv.recs s).keyBytes = c.key)
    (hnext : ∀ kv', Tracks kv' (m.update c.key none) → (HasFree kv → HasFree kv') →
      Ends c now Q kv' (c.retired kv' now e)) : Ends c now Q kv (.retire s e) := by
  obtain ⟨kv', hcas, htracks, hslots⟩ := h.retire hi he hk
  refine ends_step fun addr => ?_
  simp only [step, hcas]
  have hfree' : HasFree kv → HasFree kv'.countSub := by
    rintro ⟨j, hj, hnone⟩
    exact ⟨j, by rw [← (casEntry_ext hcas).nslots] at hj; exact hj, by rw [← hnone, ← hslots]; rfl⟩
  exact ends_step fun addr => hnext _ htracks hfree'

/-- A call that swaps the entry of its key for a new one. -/
theorem ends_publish (h : Tracks kv m) (hi : kv.slots i = some s)
    (he : (kv.recs s).entry = some e) (hk : (kv.recs s).keyBytes = c.key) {q : V × ℤ}
    (hnew : ∀ addr, c.newEntry addr e = some ⟨addr, q.1, q.2⟩)
    (hpair : onPair now c (some (e.val, e.expiryUs)) = (some q, .int 1)) :
    Ends c now (KeyedPost m c now (some (e.val, e.expiryUs))) kv (.publish s e) := by
  refine ends_step fun addr => ?_
  obtain ⟨kv', hcas, htracks⟩ := h.replace hi he hk ⟨addr, q.1, q.2⟩
  simp only [step, hnew, hcas]
  refine ends_ret ?_
  rw [KeyedPost, hpair]
  exact ⟨htracks, rfl⟩

/-- A call that meets an expired pair and drops it. -/
theorem ends_drop (h : Tracks kv m) (hi : kv.slots i = some s)
    (he : (kv.recs s).entry = some e) (hk : (kv.recs s).keyBytes = c.key) {r : Ret V}
    (hret : ∀ kv' : Lfkv V, c.retired kv' now e = .ret r)
    (hpair : onPair now c (some (e.val, e.expiryUs)) = (none, r)) :
    Ends c now (KeyedPost m c now (some (e.val, e.expiryUs))) kv (.retire s e) := by
  refine ends_retire h hi he hk fun kv' htracks _ => ?_
  rw [hret]
  refine ends_ret ?_
  rw [KeyedPost, hpair]
  exact ⟨htracks, rfl⟩

/-- `lfkv_set_nx` drops the expired pair it meets and starts over. -/
theorem ends_setNx_expired {k : Bytes} {v : V} (h : Tracks kv m) (hfree : HasFree kv)
    (hshort : k.length < 2 ^ 32) (hi : kv.slots i = some s) (he : (kv.recs s).entry = some e)
    (hk : (kv.recs s).keyBytes = k) (hx : expired e.expiryUs now = true) :
    Ends (.setNx k v) now (KeyedPost m (.setNx k v) now (some (e.val, e.expiryUs))) kv
      (.retire s e) := by
  refine ends_retire (c := .setNx k v) h hi he hk fun kv' htracks hkept => ?_
  have hnone : (m.update k none).find (Call.setNx k v).key = none := by
    simp [KeyMap.update, Call.key]
  have habsent : Ends (.setNx k v) now (KeyedPost (m.update k none) (.setNx k v) now none) kv'
      ((Call.setNx k v).probeStart kv') := ends_absent htracks (fun _ => hkept hfree) hshort trivial
        hnone
  refine habsent.mono ?_
  rintro ⟨kv'', pc⟩ ⟨r, hr, htracks', hret⟩
  refine ⟨r, hr, ?_, ?_⟩
  · simpa [onPair, hx, Call.key, m.update_update] using htracks'
  · simpa [onPair, hx] using hret

/-- A call on a key that is there, once it has loaded the entry. -/
theorem ends_loaded (h : Tracks kv m) (hfree : c.TakesSlot → HasFree kv) (hshort : c.Short)
    (hloads : c.Loads) (hi : kv.slots i = some s) (he : (kv.recs s).entry = some e)
    (hk : (kv.recs s).keyBytes = c.key) :
    Ends c now (KeyedPost m c now (some (e.val, e.expiryUs))) kv
      (c.loaded now true s (some e)) := by
  have hfind : m.find c.key = some (e.val, e.expiryUs) := h.find_of_live ⟨s, hi, he, hk⟩
  have hsame : Tracks kv (m.update c.key (some (e.val, e.expiryUs))) := by
    rw [← hfind, m.update_self]
    exact h
  have hexp : entryExpired e now = expired e.expiryUs now := rfl
  cases c with
  | set k val | count | foreach | evictExpired | clear => exact hloads.elim
  | get k =>
    by_cases hx : expired e.expiryUs now = true
    · simp only [Call.loaded, hexp, hx, if_true]
      exact ends_drop h hi he hk (fun _ => rfl) (by simp [onPair, hx])
    · simp only [Call.loaded, hexp, hx]
      exact ends_ret ⟨by simpa [onPair, hx] using hsame, by simp [onPair, hx]⟩
  | del k =>
    simp only [Call.loaded]
    refine ends_drop h hi he hk (fun _ => rfl) ?_
    by_cases hx : expired e.expiryUs now = true <;> simp [onPair, hx, hexp, Call.absent]
  | setExpiry k tsUs =>
    by_cases hx : expired e.expiryUs now = true
    · simp only [Call.loaded, hexp, hx, if_true]
      exact ends_drop h hi he hk (fun _ => rfl) (by simp [onPair, hx])
    · simp only [Call.loaded, hexp, hx]
      exact ends_publish h hi he hk (q := (e.val, tsUs)) (fun _ => rfl) (by simp [onPair, hx])
  | touchIfValue k expected expiryUs =>
    by_cases hv : some e.val = expected
    · by_cases hx : expired e.expiryUs now = true
      · simp only [Call.loaded, hexp, hx, hv, if_true, ne_eq, not_true_eq_false, if_false]
        exact ends_drop h hi he hk (fun _ => rfl) (by simp [onPair, hx, hv, Call.absent])
      · by_cases hz : expiryUs = 0 ∧ e.expiryUs = 0
        · simp only [Call.loaded, hexp, hv, hz, ne_eq, not_true_eq_false, if_false, and_self,
            if_true]
          obtain ⟨rfl, hz⟩ := hz
          rw [hz] at hsame hx
          exact ends_ret ⟨by simpa [onPair, hx, hv, hz] using hsame, by simp [onPair, hv, hx]⟩
        · simp only [Call.loaded, hexp, hx, hv, hz, ne_eq, not_true_eq_false, if_false, if_true]
          exact ends_publish h hi he hk (q := (e.val, expiryUs)) (fun _ => rfl)
            (by simp [onPair, hx, hv])
    · simp only [Call.loaded, hv, ne_eq, not_false_eq_true, if_true]
      exact ends_ret ⟨by simpa [onPair, hv] using hsame, by simp [onPair, hv]⟩
  | getExpiry k =>
    by_cases hx : expired e.expiryUs now = true
    · simp only [Call.loaded, hexp, hx, if_true]
      exact ends_drop h hi he hk (fun _ => rfl) (by simp [onPair, hx])
    · simp only [Call.loaded, hexp, hx]
      exact ends_ret ⟨by simpa [onPair, hx] using hsame, by simp [onPair, hx]⟩
  | setNx k val =>
    by_cases hx : expired e.expiryUs now = true
    · simp only [Call.loaded, hexp, hx, if_true]
      exact ends_setNx_expired h (hfree trivial) hshort hi he hk hx
    · simp only [Call.loaded, hexp, hx]
      exact ends_ret ⟨by simpa [onPair, hx] using hsame, by simp [onPair, hx]⟩
  | setXx k val =>
    by_cases hx : expired e.expiryUs now = true
    · simp only [Call.loaded, hexp, hx, if_true]
      exact ends_drop h hi he hk (fun _ => rfl) (by simp [onPair, hx])
    · simp only [Call.loaded, hexp, hx]
      exact ends_publish h hi he hk (q := (val, 0)) (fun _ => rfl) (by simp [onPair, hx])
  | cas k expected newVal =>
    by_cases hv : some e.val = expected
    · by_cases hx : expired e.expiryUs now = true
      · simp only [Call.loaded, hexp, hx, hv, if_true, ne_eq, not_true_eq_false, if_false]
        exact ends_drop h hi he hk (fun _ => rfl) (by simp [onPair, hx, hv, Call.absent])
      · simp only [Call.loaded, hexp, hx, hv, ne_eq, not_true_eq_false, if_false, Bool.or_true,
          if_true, Bool.false_eq_true]
        cases newVal with
        | some w =>
          exact ends_publish h hi he hk (q := (w, e.expiryUs)) (fun _ => rfl)
            (by simp [onPair, hx, hv])
        | none =>
          obtain ⟨kv', hcas, htracks, -⟩ := h.retire hi he hk
          have hnew : ∀ addr, (Call.cas k expected none : Call V).newEntry addr e = none :=
            fun _ => rfl
          refine ends_step fun addr => ?_
          simp only [step, hnew, hcas, Option.isNone_none, if_true]
          refine ends_step fun addr => ends_ret ?_
          exact ⟨by simpa [step, onPair, hx, hv] using htracks, by simp [onPair, hx, hv]⟩
    · simp only [Call.loaded, hv, ne_eq, not_false_eq_true, if_true]
      exact ends_ret ⟨by simpa [onPair, hv] using hsame, by simp [onPair, hv]⟩

/-- A call on a key that is there, from its probe on. -/
theorem ends_present (h : Tracks kv m) (hfree : c.TakesSlot → HasFree kv) (hshort : c.Short)
    (hkeyed : c.Keyed) (hi : kv.slots i = some s) (he : (kv.recs s).entry = some e)
    (hk : (kv.recs s).keyBytes = c.key) :
    Ends c now (KeyedPost m c now (some (e.val, e.expiryUs))) kv (c.probeStart kv) := by
  refine ends_probe ?_
  rw [probe_present h.wf h.unique hi (by simp [he]) hk]
  by_cases hloads : c.Loads
  · have hfound : c.afterProbe (.found i s) = .loadEntry s := by
      cases c <;> first | rfl | exact hloads.elim
    rw [hfound]
    refine ends_step fun addr => ?_
    simp only [step, he]
    exact ends_loaded h hfree hshort hloads hi he hk
  · -- only `lfkv_set` goes on without loading the entry
    obtain ⟨k, val, rfl⟩ : ∃ k val, c = .set k val := by
      cases c with
      | set k val => exact ⟨k, val, rfl⟩
      | _ => exact absurd hkeyed hloads
    have hload : Ends (.set k val) now (KeyedPost m (.set k val) now (some (e.val, e.expiryUs))) kv
        (.replaceCas s (some e)) := by
      refine ends_step fun addr => ?_
      have hd : (Call.set k val).freshEntry addr = some ⟨addr, val, 0⟩ := rfl
      obtain ⟨kv', hcas, htracks⟩ := h.replace hi he hk ⟨addr, val, 0⟩
      simp only [step, hd, hcas]
      exact ends_ret ⟨htracks, rfl⟩
    rw [← he] at hload
    exact ends_step fun addr => hload

end Present

/-- **A call on one key acts on the pair of the key.** -/
theorem ends_keyed (h : Tracks kv m) (hfree : c.TakesSlot → HasFree kv) (hshort : c.Short)
    (hkeyed : c.Keyed) : Ends c now (KeyedPost m c now (m.find c.key)) kv (c.start kv true) := by
  have hprobe : Ends c now (KeyedPost m c now (m.find c.key)) kv (c.probeStart kv) := by
    cases hfind : m.find c.key with
    | none => exact ends_absent h hfree hshort hkeyed hfind
    | some q =>
      obtain ⟨v, x⟩ := q
      obtain ⟨i, e, ⟨s, hi, he, hk⟩, rfl, rfl⟩ := (h.find c.key v x).mp hfind
      exact ends_present h hfree hshort hkeyed hi he hk
  cases c with
  | touchIfValue k expected expiryUs =>
    cases expected with
    | none =>
      refine ends_ret ?_
      have hpair : onPair now (.touchIfValue k none expiryUs) (m.find k) = (m.find k, .int 0) := by
        cases m.find k <;> simp [onPair, Call.absent]
      rw [KeyedPost, show (Call.touchIfValue k none expiryUs : Call V).key = k from rfl, hpair,
        m.update_self]
      exact ⟨h, rfl⟩
    | some v => exact hprobe
  | count | foreach | evictExpired | clear => exact hkeyed.elim
  | _ => exact hprobe

end Ends

end Alcove.Lfkv
