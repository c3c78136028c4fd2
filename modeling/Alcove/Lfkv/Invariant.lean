import Alcove.Lib.Transition
import Alcove.Lfkv.Chain

/-!
# The table invariant

`WF` is what every reachable table satisfies, whatever the interleaving: each record is the one
`slot_alloc` made for its key, sits in at most one slot, and sits on the probe path of its key.
`PcOk` is what a thread has learned at each of its program points, and `Inv` puts the two
together for a system of threads; `Inv.next` is the step, `inv_of_path` the run.

Keys of `2 ^ 32` bytes and more are excluded (`Call.Short`): `slot_alloc` truncates their length,
and no probe recognises them again.
-/

namespace Alcove.Lfkv

open Lib

variable {V : Type*}

/-! ## Records and the keys they answer to -/

/-- A record as `slot_alloc` makes it, for a key whose length fits `klen`. -/
structure RecOk (r : LfSlot V) : Prop where
  khash : r.khash = bernsteinHash r.key
  klen : r.klen = UInt32.ofNat r.key.length
  short : r.key.length < 2 ^ 32

theorem RecOk.klen_toNat {r : LfSlot V} (h : RecOk r) : r.klen.toNat = r.key.length := by
  rw [h.klen]
  exact UInt32.toNat_ofNat_of_lt' h.short

theorem RecOk.keyBytes {r : LfSlot V} (h : RecOk r) : r.keyBytes = r.key := by
  rw [LfSlot.keyBytes, h.klen_toNat, List.take_length]

theorem RecOk.slotKeyEq_iff {r : LfSlot V} (h : RecOk r) (k : Bytes) :
    slotKeyEq r (bernsteinHash k) k = true ↔ r.key = k := by
  simp only [slotKeyEq, h.khash, h.klen_toNat, Bool.and_eq_true, beq_iff_eq]
  constructor
  · rintro ⟨⟨-, hlen⟩, htake⟩
    rwa [← hlen, List.take_length] at htake
  · rintro rfl
    exact ⟨⟨rfl, rfl⟩, List.take_length⟩

theorem RecOk.setEntry {r : LfSlot V} (h : RecOk r) (e : Option (LfEntry V)) :
    RecOk { r with entry := e } := ⟨h.khash, h.klen, h.short⟩

/-- The key of a call fits the length field of a record. -/
def Call.Short (c : Call V) : Prop := c.key.length < 2 ^ 32

instance (c : Call V) : Decidable c.Short := Nat.decLt _ _

theorem recOk_freshSlot {c : Call V} (hc : c.Short) (addr : ℕ) : RecOk (c.freshSlot addr) :=
  ⟨rfl, rfl, hc⟩

/-! ## Well-formed tables -/

/-- The invariant of the table. -/
structure WF (kv : Lfkv V) : Prop where
  recLt : ∀ {i s}, kv.slots i = some s → s < kv.nrecs
  onPath : ∀ {i s}, kv.slots i = some s → kv.OnPath (kv.recs s).khash i
  inj : ∀ {i j s}, kv.slots i = some s → kv.slots j = some s → i = j
  recOk : ∀ s < kv.nrecs, RecOk (kv.recs s)

theorem wf_lfkvNew (b : ℕ) (hb : b < 64) : WF (lfkvNew V b hb) :=
  ⟨nofun, nofun, nofun, fun _ hs => absurd hs (Nat.not_lt_zero _)⟩

theorem WF.lt {kv : Lfkv V} (h : WF kv) {i : ℕ} {s : SlotId} (hi : kv.slots i = some s) :
    i < kv.nslots := (h.onPath hi).lt

theorem WF.count {kv : Lfkv V} (h : WF kv) (n : UInt64) : WF { kv with count := n } :=
  ⟨h.recLt, h.onPath, h.inj, h.recOk⟩

theorem WF.casEntry {kv kv' : Lfkv V} (h : WF kv) {s : SlotId}
    {expected desired : Option (LfEntry V)} (hcas : kv.casEntry s expected desired = some kv') :
    WF kv' := by
  have hext := casEntry_ext hcas
  obtain ⟨-, rfl⟩ := casEntry_eq hcas
  refine ⟨h.recLt, fun {i t} hi => ?_, h.inj, fun t ht => ?_⟩
  · rw [hext.khash t (h.recLt hi)]
    exact hext.onPath (h.onPath hi)
  · by_cases hts : t = s
    · subst hts
      simpa using (h.recOk t ht).setEntry desired
    · simpa [Function.update_of_ne hts] using h.recOk t ht

theorem WF.casSlot {kv kv' : Lfkv V} (h : WF kv) {i : ℕ} {expected : Option SlotId}
    {fresh : LfSlot V} (hfresh : RecOk fresh) (hi : kv.OnPath fresh.khash i)
    (hcas : kv.casSlot i expected fresh = some kv') : WF kv' := by
  have hext := casSlot_ext hcas
  obtain ⟨-, rfl⟩ := casSlot_eq hcas
  have hslot : ∀ {j t}, Function.update kv.slots i (some kv.nrecs) j = some t →
      j = i ∧ t = kv.nrecs ∨ j ≠ i ∧ kv.slots j = some t := by
    intro j t hj
    by_cases hji : j = i
    · subst hji
      simp only [Function.update_self, Option.some.injEq] at hj
      exact .inl ⟨rfl, hj.symm⟩
    · rw [Function.update_of_ne hji] at hj
      exact .inr ⟨hji, hj⟩
  refine ⟨fun {j t} hj => ?_, fun {j t} hj => ?_, fun {j j' t} hj hj' => ?_, fun t ht => ?_⟩
  · rcases hslot hj with ⟨rfl, rfl⟩ | ⟨-, hj⟩
    · exact Nat.lt_succ_self _
    · exact Nat.lt_succ_of_lt (h.recLt hj)
  · rcases hslot hj with ⟨rfl, rfl⟩ | ⟨-, hj⟩
    · simpa using hext.onPath hi
    · rw [hext.khash t (h.recLt hj)]
      exact hext.onPath (h.onPath hj)
  · rcases hslot hj with ⟨rfl, ht⟩ | ⟨-, h₁⟩ <;> rcases hslot hj' with ⟨rfl, ht'⟩ | ⟨-, h₂⟩
    · rfl
    · exact absurd (ht ▸ h.recLt h₂) (lt_irrefl _)
    · exact absurd (ht' ▸ h.recLt h₁) (lt_irrefl _)
    · exact h.inj h₁ h₂
  · by_cases htn : t = kv.nrecs
    · subst htn
      simpa using hfresh
    · simpa [Function.update_of_ne htn] using h.recOk t (by simp at ht; omega)

/-! ## What a thread knows -/

/-- The record `s` was published for the key of the call. -/
def Call.Owns (c : Call V) (kv : Lfkv V) (s : SlotId) : Prop :=
  s < kv.nrecs ∧ slotKeyEq (kv.recs s) c.hash c.key = true

/-- The tombstone index that the probe carries is on the path. -/
def Call.TombOk (c : Call V) (kv : Lfkv V) (tomb : Option ℕ) : Prop :=
  ∀ t ∈ tomb, kv.OnPath c.hash t

/-- What a thread knows about the table at a program point of the call `c`. -/
def PcOk (kv : Lfkv V) (c : Call V) : Pc V → Prop
  | .probe p i tomb => i = kv.slotAt c.hash p ∧ kv.Covered c.hash p ∧ c.TombOk kv tomb
  | .probeEntry p i tomb s =>
    i = kv.slotAt c.hash p ∧ kv.Covered c.hash (p + 1) ∧ c.TombOk kv tomb ∧ s < kv.nrecs
  | .loadEntry s | .retire s _ | .publish s _ | .install s | .replaceLoad s | .replaceCas s _ =>
    c.Owns kv s
  | .tombLoad i t | .tombCheck i t _ | .tombCas i t _ =>
    kv.OnPath c.hash i ∧ kv.OnPath c.hash t
  | .claim i | .scan _ i => kv.OnPath c.hash i
  | .sweepEntry _ s _ | .sweepRetire _ s _ _ | .eachEntry _ s _ => s < kv.nrecs
  | _ => True

section Mono

variable {kv kv' : Lfkv V} {c : Call V}

theorem Call.Owns.mono {s : SlotId} (h : c.Owns kv s) (hext : Ext kv kv') : c.Owns kv' s :=
  ⟨h.1.trans_le hext.nrecs, by rw [hext.slotKeyEq h.1]; exact h.2⟩

theorem Call.TombOk.mono {tomb : Option ℕ} (h : c.TombOk kv tomb) (hext : Ext kv kv') :
    c.TombOk kv' tomb := fun t ht => hext.onPath (h t ht)

/-- What a thread knows stays true whatever the other threads do. -/
theorem PcOk.mono {pc : Pc V} (h : PcOk kv c pc) (hext : Ext kv kv') : PcOk kv' c pc := by
  cases pc with
  | probe p i tomb =>
    obtain ⟨hi, hc, ht⟩ := h
    exact ⟨by rw [hext.slotAt_eq, hi], hext.covered hc, ht.mono hext⟩
  | probeEntry p i tomb s =>
    obtain ⟨hi, hc, ht, hs⟩ := h
    exact ⟨by rw [hext.slotAt_eq, hi], hext.covered hc, ht.mono hext, hs.trans_le hext.nrecs⟩
  | loadEntry s | retire s e | publish s e | install s | replaceLoad s | replaceCas s e =>
    exact Call.Owns.mono h hext
  | tombLoad i t | tombCheck i t o | tombCas i t o => exact ⟨hext.onPath h.1, hext.onPath h.2⟩
  | claim i | scan p i => exact hext.onPath h
  | sweepEntry i s n | sweepRetire i s e n | eachEntry i s l => exact h.trans_le hext.nrecs
  | _ => trivial

end Mono

section Control

variable {kv : Lfkv V} (c : Call V)

theorem pcOk_probeStart : PcOk kv c (c.probeStart kv) :=
  ⟨kv.home_eq _, fun _ hq => absurd hq (Nat.not_lt_zero _), nofun⟩

theorem pcOk_start (ok : Bool) : PcOk kv c (c.start kv ok) := by
  unfold Call.start
  split
  · split
    · exact pcOk_probeStart _
    · trivial
  all_goals first | trivial | exact pcOk_probeStart _

variable {c}

theorem pcOk_found {s : SlotId} (h : c.Owns kv s) : PcOk kv c (c.found s) := by
  unfold Call.found
  split <;> exact h

theorem pcOk_missing (ok : Bool) {i : ℕ} {tomb : Option ℕ} (hi : kv.OnPath c.hash i)
    (ht : c.TombOk kv tomb) : PcOk kv c (c.missing ok i tomb) := by
  unfold Call.missing
  split
  · split
    · split
      · exact ⟨hi, ht _ rfl⟩
      · exact hi
    · trivial
  · split
    · exact hi
    · trivial
  · trivial

theorem pcOk_probeNext (ok : Bool) {p : ℕ} {tomb : Option ℕ}
    (hc : kv.Covered c.hash (p + 1)) (ht : c.TombOk kv tomb) :
    PcOk kv c (c.probeNext kv ok p (kv.slotAt c.hash p) tomb) := by
  unfold Call.probeNext
  split
  · exact ⟨kv.succ_slotAt _ _, hc, ht⟩
  · exact pcOk_missing ok (kv.onPath_home _) ht

theorem pcOk_loaded [DecidableEq V] (now : ℤ) (ok : Bool) {s : SlotId} (h : c.Owns kv s)
    (ent : Option (LfEntry V)) : PcOk kv c (c.loaded now ok s ent) := by
  unfold Call.loaded
  split <;> (try split) <;> (try split) <;> (try split) <;> (try split) <;>
    first | exact h | trivial

theorem pcOk_retired (now : ℤ) (e : LfEntry V) : PcOk kv c (c.retired kv now e) := by
  unfold Call.retired
  split
  · trivial
  · exact pcOk_probeStart _
  · trivial

theorem pcOk_lostEntry {s : SlotId} (h : c.Owns kv s) : PcOk kv c (c.lostEntry kv s) := by
  unfold Call.lostEntry
  split
  · exact h
  · exact h
  · exact pcOk_probeStart _

theorem pcOk_metOwn {s : SlotId} (h : c.Owns kv s) : PcOk kv c (c.metOwn kv s) := by
  unfold Call.metOwn
  split
  · exact pcOk_probeStart _
  · exact h

theorem pcOk_sweepNext (i n : ℕ) : PcOk kv c (c.sweepNext kv i n) := by
  unfold Call.sweepNext
  split
  · trivial
  · split <;> trivial

theorem pcOk_eachNext (i : ℕ) (items : List (Bytes × V × ℤ)) :
    PcOk kv c (eachNext kv i items) := by
  unfold eachNext
  split <;> trivial

/-- A thread knows at its next program point what `PcOk` says. -/
theorem pcOk_step [DecidableEq V] (hwf : WF kv) {now : ℤ} {pc : Pc V} (h : PcOk kv c pc)
    (ok : Bool) (addr : ℕ) : PcOk kv c (step kv ⟨c, now, pc⟩ ok addr).2 := by
  cases pc with
  | probe p i tomb =>
    obtain ⟨rfl, hc, ht⟩ := h
    simp only [step]
    split
    · exact pcOk_missing ok ⟨p, rfl, hc⟩ ht
    · rename_i s hs
      exact ⟨rfl, hc.succ (by simp [hs]), ht, hwf.recLt hs⟩
  | probeEntry p i tomb s =>
    obtain ⟨rfl, hc, ht, hs⟩ := h
    have hpath : kv.OnPath c.hash (kv.slotAt c.hash p) :=
      ⟨p, rfl, fun q hq => hc q (Nat.lt_succ_of_lt hq)⟩
    simp only [step]
    split
    · refine pcOk_probeNext ok hc fun t htt => ?_
      cases tomb with
      | none =>
        obtain rfl : kv.slotAt c.hash p = t := by simpa using htt
        exact hpath
      | some t' => exact ht t (by simpa using htt)
    · split
      · rename_i hkey
        exact pcOk_found ⟨hs, hkey⟩
      · exact pcOk_probeNext ok hc ht
  | loadEntry s => exact pcOk_loaded now ok h _
  | retire s e =>
    simp only [step]
    split
    · trivial
    · exact pcOk_lostEntry h
  | retireSub e => exact pcOk_retired now e
  | publish s e =>
    simp only [step]
    split
    · show PcOk kv c (if (c.newEntry addr e).isNone then .publishSub else .ret (.int 1))
      split <;> trivial
    · exact pcOk_lostEntry h
  | publishSub => trivial
  | install s =>
    simp only [step]
    split
    · trivial
    · exact pcOk_probeStart _
  | replaceLoad s => exact h
  | replaceCas s old =>
    simp only [step]
    split
    · show PcOk kv c (if old.isNone then .countAdd (.int 0) else .ret (.int 0))
      split <;> trivial
    · exact h
  | tombLoad i t =>
    simp only [step]
    split
    · exact h.1
    · exact h
  | tombCheck i t old =>
    show PcOk kv c (if (kv.recs old).entry.isNone then .tombCas i t old else .claim i)
    split
    · exact h
    · exact h.1
  | tombCas i t old =>
    simp only [step]
    split
    · trivial
    · exact h.1
  | claim i =>
    simp only [step]
    split
    · trivial
    · split
      · exact h
      · rename_i s hs
        split
        · rename_i hkey
          exact pcOk_metOwn ⟨hwf.recLt hs, hkey⟩
        · exact h.succ (by simp [hs])
  | scan p i =>
    simp only [step]
    split
    · exact h
    · rename_i s hs
      split
      · rename_i hkey
        exact pcOk_metOwn ⟨hwf.recLt hs, hkey⟩
      · show PcOk kv c (if p + 1 < kv.nslots then .scan (p + 1) (kv.succ i) else .ret c.full)
        split
        · exact h.succ (by simp [hs])
        · trivial
  | countAdd r => trivial
  | countLoad => trivial
  | sweep i n =>
    simp only [step]
    split
    · exact pcOk_sweepNext i n
    · rename_i s hs
      exact hwf.recLt hs
  | sweepEntry i s n =>
    simp only [step]
    split
    · exact pcOk_sweepNext i n
    · split
      · exact h
      · exact pcOk_sweepNext i n
  | sweepRetire i s e n =>
    simp only [step]
    split
    · trivial
    · show PcOk kv c (if c = .clear then .sweepEntry i s n else c.sweepNext kv i n)
      split
      · exact h
      · exact pcOk_sweepNext i n
  | sweepSub i n => exact pcOk_sweepNext i (n + 1)
  | each i items =>
    simp only [step]
    split
    · exact pcOk_eachNext i items
    · rename_i s hs
      exact hwf.recLt hs
  | eachEntry i s items =>
    simp only [step]
    split
    · exact pcOk_eachNext i items
    · split <;> exact pcOk_eachNext i _
  | ret r => trivial

/-- A step keeps the table well formed. -/
theorem wf_step [DecidableEq V] (hwf : WF kv) (hshort : c.Short) {now : ℤ} {pc : Pc V}
    (h : PcOk kv c pc) (ok : Bool) (addr : ℕ) : WF (step kv ⟨c, now, pc⟩ ok addr).1 := by
  have heff := step_effect kv ⟨c, now, pc⟩ ok addr
  revert heff
  generalize (step kv ⟨c, now, pc⟩ ok addr).1 = kv'
  intro heff
  cases heff with
  | same => exact hwf
  | count n => exact hwf.count n
  | retire _ hcas => exact hwf.casEntry hcas
  | publish _ hcas => exact hwf.casEntry hcas
  | fill _ hcas => exact hwf.casEntry hcas
  | @place i expected _ hpc hcas =>
    refine hwf.casSlot (recOk_freshSlot hshort addr) ?_ hcas
    rcases hpc with ⟨rfl, -⟩ | ⟨i', old, rfl, -⟩
    · exact h
    · exact h.2

end Control

/-! ## The program points of each function -/

/-- The calls that probe for a key. -/
def Call.Keyed : Call V → Prop
  | .count | .foreach | .evictExpired | .clear => False
  | _ => True

/-- The calls that go through the whole table and retire entries. -/
def Call.Sweeps : Call V → Prop
  | .evictExpired | .clear => True
  | _ => False

/-- The calls that load the entry of the record they found. -/
def Call.Loads : Call V → Prop
  | .set _ _ => False
  | c => c.Keyed

/-- The calls that swap a live entry for a new one. -/
def Call.Republishes : Call V → Prop
  | .setExpiry _ _ | .touchIfValue _ _ _ | .setXx _ _ | .cas _ _ _ => True
  | _ => False

/-- The calls that can give the absent key `k` an entry. -/
def Call.Inserts (k : Bytes) : Call V → Prop
  | .set k' _ | .setNx k' _ => k' = k
  | _ => False

/-- The program points that belong to the function of a call. -/
def Call.Fits (c : Call V) : Pc V → Prop
  | .probe _ _ _ | .probeEntry _ _ _ _ => c.Keyed
  | .loadEntry _ | .retire _ _ | .retireSub _ => c.Loads
  | .publish _ _ => c.Republishes
  | .publishSub => ∃ k expected, c = .cas k expected none
  | .install _ => ∃ k val, c = .setNx k val
  | .replaceLoad _ | .replaceCas _ _ | .tombLoad _ _ | .tombCheck _ _ _ | .tombCas _ _ _ =>
    ∃ k val, c = .set k val
  | .claim _ | .scan _ _ | .countAdd _ => c.Inserts c.key
  | .countLoad => c = .count
  | .sweep _ _ | .sweepEntry _ _ _ | .sweepRetire _ _ _ _ | .sweepSub _ _ => c.Sweeps
  | .each _ _ | .eachEntry _ _ _ => c = .foreach
  | .ret _ => True

section Fits

variable {kv : Lfkv V} {c : Call V}

theorem Call.Fits.start (ok : Bool) : c.Fits (c.start kv ok) := by
  unfold Call.start
  split
  · split <;> trivial
  · trivial
  · rfl
  · rfl
  · trivial
  · trivial
  · cases c <;> trivial

theorem Call.Fits.missing (hc : c.Keyed) (ok : Bool) (i : ℕ) (tomb : Option ℕ) :
    c.Fits (c.missing ok i tomb) := by
  unfold Call.missing
  split
  · split
    · split
      · exact ⟨_, _, rfl⟩
      · rfl
    · trivial
  · split
    · rfl
    · trivial
  · trivial

theorem Call.Fits.probeNext (hc : c.Keyed) (ok : Bool) (p i : ℕ) (tomb : Option ℕ) :
    c.Fits (c.probeNext kv ok p i tomb) := by
  unfold Call.probeNext
  split
  · exact hc
  · exact .missing hc ok _ tomb

theorem Call.Fits.loaded [DecidableEq V] (hc : c.Loads) (now : ℤ) (ok : Bool) (s : SlotId)
    (ent : Option (LfEntry V)) : c.Fits (c.loaded now ok s ent) := by
  unfold Call.loaded
  split <;> (try split) <;> (try split) <;> (try split) <;> (try split) <;>
    first | trivial | exact ⟨_, _, rfl⟩

theorem Call.Fits.sweepNext (hc : c.Sweeps) (i n : ℕ) : c.Fits (c.sweepNext kv i n) := by
  unfold Call.sweepNext
  split
  · exact hc
  · split <;> trivial

theorem fits_eachNext (hc : c = .foreach) (i : ℕ) (items : List (Bytes × V × ℤ)) :
    c.Fits (eachNext kv i items) := by
  unfold eachNext
  split
  · exact hc
  · trivial

theorem Call.Loads.keyed (h : c.Loads) : c.Keyed := by
  cases c <;> trivial

theorem Call.Republishes.loads (h : c.Republishes) : c.Loads := by
  cases c <;> trivial

theorem Call.Fits.lostEntry (hc : c.Loads) (s : SlotId) : c.Fits (c.lostEntry kv s) := by
  unfold Call.lostEntry
  split
  · trivial
  · trivial
  · exact hc.keyed

theorem Call.Fits.metOwn (hc : c.Inserts c.key) (s : SlotId) : c.Fits (c.metOwn kv s) := by
  cases c with
  | set k val => exact ⟨k, val, rfl⟩
  | setNx k val => trivial
  | _ => exact hc.elim

/-- Each function goes from its own program points to its own program points. -/
theorem Call.Fits.step [DecidableEq V] {now : ℤ} {pc : Pc V} (h : c.Fits pc) (ok : Bool)
    (addr : ℕ) : c.Fits (step kv ⟨c, now, pc⟩ ok addr).2 := by
  cases pc with
  | probe p i tomb =>
    simp only [Lfkv.step]
    split
    · exact .missing h ok i tomb
    · exact h
  | probeEntry p i tomb s =>
    simp only [Lfkv.step]
    split
    · exact .probeNext h ok p i _
    · split
      · cases c with
        | set k val => exact ⟨k, val, rfl⟩
        | _ => exact h
      · exact .probeNext h ok p i tomb
  | loadEntry s => exact .loaded h now ok s _
  | retire s e =>
    simp only [Lfkv.step]
    split
    · exact h
    · exact .lostEntry h s
  | retireSub e =>
    cases c with
    | del k | setNx k val => trivial
    | _ => trivial
  | publish s e =>
    simp only [Lfkv.step]
    split
    · cases c with
      | cas k expected newVal =>
        cases newVal with
        | none => exact ⟨k, expected, rfl⟩
        | some v => trivial
      | setExpiry k ts | touchIfValue k v ts | setXx k v => trivial
      | _ => exact h.elim
    · exact .lostEntry h.loads s
  | publishSub => trivial
  | install s =>
    obtain ⟨k, val, rfl⟩ := h
    simp only [Lfkv.step]
    split
    · rfl
    · trivial
  | replaceLoad s => exact h
  | replaceCas s old =>
    obtain ⟨k, val, rfl⟩ := h
    simp only [Lfkv.step]
    split
    · cases old with
      | none => rfl
      | some e => trivial
    · exact ⟨k, val, rfl⟩
  | tombLoad i t =>
    obtain ⟨k, val, rfl⟩ := h
    simp only [Lfkv.step]
    split
    · rfl
    · exact ⟨k, val, rfl⟩
  | tombCheck i t old =>
    obtain ⟨k, val, rfl⟩ := h
    simp only [Lfkv.step]
    cases (kv.recs old).entry with
    | none => exact ⟨k, val, rfl⟩
    | some e => rfl
  | tombCas i t old =>
    obtain ⟨k, val, rfl⟩ := h
    simp only [Lfkv.step]
    split <;> rfl
  | claim i =>
    simp only [Lfkv.step]
    split
    · exact h
    · split
      · exact h
      · split
        · exact .metOwn h _
        · exact h
  | scan p i =>
    simp only [Lfkv.step]
    split
    · exact h
    · split
      · exact .metOwn h _
      · dsimp only
        split
        · exact h
        · trivial
  | countAdd r => trivial
  | countLoad => trivial
  | sweep i n =>
    simp only [Lfkv.step]
    split
    · exact .sweepNext h i n
    · exact h
  | sweepEntry i s n =>
    simp only [Lfkv.step]
    split
    · exact .sweepNext h i n
    · split
      · exact h
      · exact .sweepNext h i n
  | sweepRetire i s e n =>
    simp only [Lfkv.step]
    split
    · exact h
    · dsimp only
      split
      · exact h
      · exact .sweepNext h i n
  | sweepSub i n => exact .sweepNext h i (n + 1)
  | each i items =>
    simp only [Lfkv.step]
    split
    · exact fits_eachNext h i items
    · exact h
  | eachEntry i s items =>
    simp only [Lfkv.step]
    split
    · exact fits_eachNext h i items
    · split <;> exact fits_eachNext h i _
  | ret r => trivial

end Fits

/-! ## The system -/

/-- The invariant of a system of threads. -/
structure Inv (s : Sys V) : Prop where
  wf : WF s.kv
  short : ∀ t th, s.threads t = some th → th.call.Short
  pcOk : ∀ t th, s.threads t = some th → PcOk s.kv th.call th.pc
  fits : ∀ t th, s.threads t = some th → th.call.Fits th.pc

theorem inv_init (b : ℕ) (hb : b < 64) : Inv (Sys.init V b hb) := by
  have hnone : ∀ t th, (Sys.init V b hb).threads t ≠ some th := fun _ _ h => by cases h
  exact ⟨wf_lfkvNew b hb, fun t th h => absurd h (hnone t th), fun t th h => absurd h (hnone t th),
    fun t th h => absurd h (hnone t th)⟩

theorem Inv.put {s : Sys V} (h : Inv s) {kv : Lfkv V} (hext : Ext s.kv kv) (hwf : WF kv) (t : ℕ)
    {th : Thread V} (hshort : th.call.Short) (hpc : PcOk kv th.call th.pc)
    (hfits : th.call.Fits th.pc) : Inv (s.put t kv th) := by
  refine ⟨hwf, fun u thu hu => ?_, fun u thu hu => ?_, fun u thu hu => ?_⟩ <;> by_cases hut : u = t
  · obtain rfl : th = thu := by simpa [Sys.put, hut] using hu
    exact hshort
  · exact h.short u thu (by simpa [Sys.put, Function.update_of_ne hut] using hu)
  · obtain rfl : th = thu := by simpa [Sys.put, hut] using hu
    exact hpc
  · exact (h.pcOk u thu (by simpa [Sys.put, Function.update_of_ne hut] using hu)).mono hext
  · obtain rfl : th = thu := by simpa [Sys.put, hut] using hu
    exact hfits
  · exact h.fits u thu (by simpa [Sys.put, Function.update_of_ne hut] using hu)

variable [DecidableEq V]

/-- A step of the system either starts a call or is a step of a call in progress. -/
theorem Sys.next_cases {s s' : Sys V} {l : Label V} (h : s.next l = some s') :
    (∃ t c now ok, l = .invoke t c now ok ∧ idle (s.threads t) = true ∧
      s' = s.put t s.kv ⟨c, now, c.start s.kv ok⟩) ∨
    (∃ t ok addr th, l = .step t ok addr ∧ s.threads t = some th ∧ idle (some th) = false ∧
      s' = s.put t (step s.kv th ok addr).1 { th with pc := (step s.kv th ok addr).2 }) := by
  cases l with
  | invoke t c now ok =>
    simp only [Sys.next] at h
    split at h
    · rename_i hidle
      exact .inl ⟨t, c, now, ok, rfl, hidle, (Option.some.inj h).symm⟩
    · cases h
  | step t ok addr =>
    simp only [Sys.next] at h
    split at h
    · cases h
    · rename_i hidle
      obtain ⟨th, hth, rfl⟩ := Option.map_eq_some_iff.mp h
      rw [hth] at hidle
      exact .inr ⟨t, ok, addr, th, rfl, hth, by simpa using hidle, rfl⟩

/-- What holds of the thread `t` while it is in a call `c`. -/
def ThreadOk (P : Lfkv V → Pc V → Prop) (c : Call V) (t : ℕ) (s : Sys V) : Prop :=
  ∀ now pc, s.threads t = some ⟨c, now, pc⟩ → P s.kv pc

/-- A property of a thread in a call is kept by a step if it holds at the start of the call, the
call's own steps keep it, and so do the steps of the other threads. -/
theorem ThreadOk.next {P : Lfkv V → Pc V → Prop} {c : Call V} {t : ℕ} {s s' : Sys V}
    {l : Label V} (h : ThreadOk P c t s) (hs : s.next l = some s')
    (hstart : ∀ ok, P s.kv (c.start s.kv ok))
    (hself : ∀ now pc ok addr, s.threads t = some ⟨c, now, pc⟩ →
      idle (some (⟨c, now, pc⟩ : Thread V)) = false → P s.kv pc →
      P (step s.kv ⟨c, now, pc⟩ ok addr).1 (step s.kv ⟨c, now, pc⟩ ok addr).2)
    (hother : ∀ now pc, s.threads t = some ⟨c, now, pc⟩ → P s.kv pc → P s'.kv pc) :
    ThreadOk P c t s' := by
  intro now pc hth'
  rcases Sys.next_cases hs with
    ⟨u, c', now', ok, rfl, -, rfl⟩ | ⟨u, ok, addr, th, rfl, hth, hrun, rfl⟩ <;>
    by_cases hut : t = u
  · subst hut
    simp only [Sys.put, Function.update_self, Option.some.injEq, Thread.mk.injEq] at hth'
    obtain ⟨rfl, rfl, rfl⟩ := hth'
    exact hstart ok
  · simp only [Sys.put, Function.update_of_ne hut] at hth'
    exact h now pc hth'
  · subst hut
    simp only [Sys.put, Function.update_self, Option.some.injEq] at hth'
    obtain ⟨c', now', pc'⟩ := th
    simp only [Thread.mk.injEq] at hth'
    obtain ⟨rfl, rfl, rfl⟩ := hth'
    exact hself _ _ ok addr hth hrun (h _ _ hth)
  · simp only [Sys.put, Function.update_of_ne hut] at hth'
    exact hother now pc hth' (h now pc hth')

/-- The calls that a step may start have short keys. -/
def ShortKeys : Label V → Prop
  | .invoke _ c _ _ => c.Short
  | .step _ _ _ => True

/-- **Every step keeps the invariant.** -/
theorem Inv.next {s s' : Sys V} {l : Label V} (h : Inv s) (hl : ShortKeys l)
    (hs : s.next l = some s') : Inv s' := by
  rcases Sys.next_cases hs with ⟨t, c, now, ok, rfl, -, rfl⟩ | ⟨t, ok, addr, th, rfl, hth, -, rfl⟩
  · exact h.put (.refl _) h.wf t hl (pcOk_start c ok) (.start ok)
  · have hpc := h.pcOk t th hth
    have hsh := h.short t th hth
    have hext := step_ext s.kv th ok addr
    exact h.put hext (wf_step h.wf hsh hpc ok addr) t hsh ((pcOk_step h.wf hpc ok addr).mono hext)
      ((h.fits t th hth).step ok addr)

/-- **Every state of a run of short-keyed calls satisfies the invariant.** -/
theorem inv_of_path {ok : Sys V → Label V → Prop} (hok : ∀ s l, ok s l → ShortKeys l)
    {s s' : Sys V} {ls : List (Label V)} (h : Path Sys.next ok s ls s') (hs : Inv s) : Inv s' :=
  h.invariant (fun _ _ _ hI ho hn => hI.next (hok _ _ ho) hn) hs

end Alcove.Lfkv
