import Alcove.Lfkv.Unique

/-!
# Published entries are found

A write publishes its entry by one swap: of the entry pointer of a record, or of a slot for a
fresh record. A record that the writer's probe found can be swapped out of the table for another
key once it is a tombstone (`lfkv_set`), and an entry stored in it after that is lost
(`published_lost`); so is an entry stored just before that swap.

Where records are filled only while they are in the table and swapped out only while they are
tombstones (`keepsRecord`), and no place is filled on a stale probe (`probeCurrent`), every entry
published is in the table, and a lookup of the key finds it (`published_found`).
-/

namespace Alcove.Lfkv

open Lib

variable {V : Type*} {kv kv' : Lfkv V}

/-- The records that have an entry are in the table. -/
def NoOrphan (kv : Lfkv V) : Prop :=
  ∀ s < kv.nrecs, (kv.recs s).entry ≠ none → ∃ i, kv.slots i = some s

/-- When the next step stores into an empty entry, the record is in the table; when it swaps a
tombstone out of the table, the tombstone is still one. -/
def keepsRecord (kv : Lfkv V) (pc : Pc V) : Bool :=
  match pc with
  | .install s | .replaceCas s none => (kv.recs s).entry.isSome || kv.inTable s
  | .tombCas _ t old => kv.slots t != some old || (kv.recs old).entry.isNone
  | _ => true

theorem exists_of_inTable {s : SlotId} (h : kv.inTable s = true) : ∃ i, kv.slots i = some s := by
  simp only [inTable, List.any_eq_true, beq_iff_eq] at h
  obtain ⟨i, -, hi⟩ := h
  exact ⟨i, hi⟩

/-! ## What a step publishes -/

/-- The record and the entry that a step publishes, when it publishes one. -/
def published (kv : Lfkv V) (c : Call V) (addr : ℕ) : Pc V → Option (SlotId × LfEntry V)
  | .publish s e =>
    (kv.casEntry s (some e) (c.newEntry addr e)).bind fun _ => (c.newEntry addr e).map (s, ·)
  | .install s =>
    (kv.casEntry s none (c.freshEntry addr)).bind fun _ => (c.freshEntry addr).map (s, ·)
  | .replaceCas s old =>
    (kv.casEntry s old (c.freshEntry addr)).bind fun _ => (c.freshEntry addr).map (s, ·)
  | .tombCas _ t old =>
    (kv.casSlot t (some old) (c.freshSlot addr)).bind fun _ =>
      (c.freshEntry addr).map (kv.nrecs, ·)
  | .claim i =>
    (kv.casSlot i none (c.freshSlot addr)).bind fun _ => (c.freshEntry addr).map (kv.nrecs, ·)
  | _ => none

/-- The value that a write stores. -/
def Call.written : Call V → Option V
  | .set _ val | .setNx _ val | .setXx _ val => some val
  | .cas _ _ newVal => newVal
  | _ => none

/-- What a write returns when it succeeds. -/
def Call.success : Call V → Ret V
  | .set _ _ => .int 0
  | _ => .int 1

/-- The write has succeeded: at most the counter is left to update. -/
def Call.Succeeded (c : Call V) (pc : Pc V) : Prop := pc = .countAdd c.success ∨ pc = .ret c.success

section Succeeded

variable {c : Call V} {v : V}

theorem Call.written_cases (hw : c.written = some v) :
    (∃ k, c = .set k v) ∨ (∃ k, c = .setNx k v) ∨ (∃ k, c = .setXx k v) ∨
      ∃ k expected, c = .cas k expected (some v) := by
  cases c with
  | set k val => exact .inl ⟨k, by rw [Option.some.inj hw]⟩
  | setNx k val => exact .inr (.inl ⟨k, by rw [Option.some.inj hw]⟩)
  | setXx k val => exact .inr (.inr (.inl ⟨k, by rw [Option.some.inj hw]⟩))
  | cas k expected newVal => exact .inr (.inr (.inr ⟨k, expected, by rw [← hw]; rfl⟩))
  | _ => cases hw

theorem not_succeeded_missing (hw : c.written = some v) (ok : Bool) (i : ℕ) (tomb : Option ℕ) :
    ¬ c.Succeeded (c.missing ok i tomb) := by
  rcases c.written_cases hw with ⟨k, rfl⟩ | ⟨k, rfl⟩ | ⟨k, rfl⟩ | ⟨k, x, rfl⟩ <;>
    cases ok <;> cases tomb <;>
    simp [Call.missing, Call.Succeeded, Call.success, Call.absent]

theorem not_succeeded_probeNext (hw : c.written = some v) (ok : Bool) (p i : ℕ)
    (tomb : Option ℕ) : ¬ c.Succeeded (c.probeNext kv ok p i tomb) := by
  unfold Call.probeNext
  split
  · simp [Call.Succeeded]
  · exact not_succeeded_missing hw ok _ tomb

theorem not_succeeded_loaded [DecidableEq V] (hw : c.written = some v) (hfits : c.Loads) (now : ℤ)
    (ok : Bool) (s : SlotId) (ent : Option (LfEntry V)) :
    ¬ c.Succeeded (c.loaded now ok s ent) := by
  rcases c.written_cases hw with ⟨k, rfl⟩ | ⟨k, rfl⟩ | ⟨k, rfl⟩ | ⟨k, x, rfl⟩
  · exact hfits.elim
  all_goals
    cases ent <;> simp only [Call.loaded] <;> (try split) <;> (try split) <;> (try split) <;>
      simp [Call.Succeeded, Call.success, Call.absent]

theorem not_succeeded_lostEntry (s : SlotId) : ¬ c.Succeeded (c.lostEntry kv s) := by
  cases c <;> simp [Call.lostEntry, Call.Succeeded, Call.probeStart]

theorem not_succeeded_metOwn (s : SlotId) : ¬ c.Succeeded (c.metOwn kv s) := by
  cases c <;> simp [Call.metOwn, Call.Succeeded, Call.probeStart]

theorem not_succeeded_retired (hw : c.written = some v) (hfits : c.Loads) (now : ℤ)
    (e : LfEntry V) : ¬ c.Succeeded (c.retired kv now e) := by
  rcases c.written_cases hw with ⟨k, rfl⟩ | ⟨k, rfl⟩ | ⟨k, rfl⟩ | ⟨k, x, rfl⟩
  · exact hfits.elim
  all_goals simp [Call.retired, Call.Succeeded, Call.success, Call.absent, Call.probeStart]

/-- **A write succeeds in the step that publishes its entry**, which holds the value written; only
`lfkv_cas` gives it an expiry. -/
theorem published_of_succeeded [DecidableEq V] (hw : c.written = some v) {pc : Pc V}
    (hfits : c.Fits pc) {now : ℤ} {ok : Bool} {addr : ℕ} (hnot : ¬ c.Succeeded pc)
    (hdone : c.Succeeded (step kv ⟨c, now, pc⟩ ok addr).2) :
    ∃ r e, published kv c addr pc = some (r, e) ∧ e.val = v ∧
      (e.expiryUs = 0 ∨ ∃ k expected newVal, c = .cas k expected newVal) := by
  cases pc with
  | probe p i tomb =>
    simp only [step] at hdone
    split at hdone
    · exact absurd hdone (not_succeeded_missing hw ok i tomb)
    · simp [Call.Succeeded] at hdone
  | probeEntry p i tomb s =>
    simp only [step] at hdone
    split at hdone
    · exact absurd hdone (not_succeeded_probeNext hw ok p i _)
    · split at hdone
      · cases c <;> simp [Call.found, Call.Succeeded] at hdone
      · exact absurd hdone (not_succeeded_probeNext hw ok p i tomb)
  | loadEntry s => exact absurd hdone (not_succeeded_loaded hw hfits now ok s _)
  | retire s e =>
    simp only [step] at hdone
    split at hdone
    · simp [Call.Succeeded] at hdone
    · exact absurd hdone (not_succeeded_lostEntry s)
  | retireSub e => exact absurd hdone (not_succeeded_retired hw hfits now e)
  | publish s e =>
    simp only [step] at hdone
    split at hdone
    · rename_i kv' hcas
      rcases c.written_cases hw with ⟨k, rfl⟩ | ⟨k, rfl⟩ | ⟨k, rfl⟩ | ⟨k, x, rfl⟩
      · exact hfits.elim
      · exact hfits.elim
      · exact ⟨s, ⟨addr, v, 0⟩, by simp [published, hcas]; rfl, rfl, .inl rfl⟩
      · exact ⟨s, ⟨addr, v, e.expiryUs⟩, by simp [published, hcas]; rfl, rfl, .inr ⟨k, x, _, rfl⟩⟩
    · exact absurd hdone (not_succeeded_lostEntry s)
  | publishSub =>
    obtain ⟨k, expected, rfl⟩ := hfits
    cases hw
  | install s =>
    obtain ⟨k, val, rfl⟩ := hfits
    obtain rfl := Option.some.inj hw
    simp only [step] at hdone
    split at hdone
    · rename_i kv' hcas
      exact ⟨s, ⟨addr, val, 0⟩, by simp [published, hcas]; rfl, rfl, .inl rfl⟩
    · simp [Call.Succeeded, Call.probeStart] at hdone
  | replaceLoad s => simp [step, Call.Succeeded] at hdone
  | replaceCas s old =>
    obtain ⟨k, val, rfl⟩ := hfits
    obtain rfl := Option.some.inj hw
    simp only [step] at hdone
    split at hdone
    · rename_i kv' hcas
      exact ⟨s, ⟨addr, val, 0⟩, by simp [published, hcas]; rfl, rfl, .inl rfl⟩
    · simp [Call.Succeeded] at hdone
  | tombLoad i t =>
    simp only [step] at hdone
    split at hdone <;> simp [Call.Succeeded] at hdone
  | tombCheck i t old =>
    simp only [step] at hdone
    split at hdone <;> simp [Call.Succeeded] at hdone
  | tombCas i t old =>
    obtain ⟨k, val, rfl⟩ := hfits
    obtain rfl := Option.some.inj hw
    simp only [step] at hdone
    split at hdone
    · rename_i kv' hcas
      exact ⟨kv.nrecs, ⟨addr, val, 0⟩, by simp [published, hcas]; rfl, rfl, .inl rfl⟩
    · simp [Call.Succeeded] at hdone
  | claim i =>
    simp only [step] at hdone
    split at hdone
    · rename_i kv' hcas
      rcases c.written_cases hw with ⟨k, rfl⟩ | ⟨k, rfl⟩ | ⟨k, rfl⟩ | ⟨k, x, rfl⟩
      · exact ⟨kv.nrecs, ⟨addr, v, 0⟩, by simp [published, hcas]; rfl, rfl, .inl rfl⟩
      · exact ⟨kv.nrecs, ⟨addr, v, 0⟩, by simp [published, hcas]; rfl, rfl, .inl rfl⟩
      · exact hfits.elim
      · exact hfits.elim
    · split at hdone
      · simp [Call.Succeeded] at hdone
      · split at hdone
        · exact absurd hdone (not_succeeded_metOwn _)
        · simp [Call.Succeeded] at hdone
  | scan p i =>
    simp only [step] at hdone
    split at hdone
    · simp [Call.Succeeded] at hdone
    · split at hdone
      · exact absurd hdone (not_succeeded_metOwn _)
      · dsimp only at hdone
        split at hdone
        · simp [Call.Succeeded] at hdone
        · rcases c.written_cases hw with ⟨k, rfl⟩ | ⟨k, rfl⟩ | ⟨k, rfl⟩ | ⟨k, x, rfl⟩ <;>
            simp [Call.full, Call.Succeeded, Call.success] at hdone
  | countAdd r =>
    have hr : r = c.success := by simpa [step, Call.Succeeded] using hdone
    exact absurd (.inl (by rw [hr])) hnot
  | countLoad | each i items | eachEntry i s items =>
    cases hfits
    cases hw
  | ret r => exact absurd hdone hnot
  | _ => rcases c.written_cases hw with ⟨k, rfl⟩ | ⟨k, rfl⟩ | ⟨k, rfl⟩ | ⟨k, x, rfl⟩ <;> exact hfits.elim

end Succeeded

/-! ## Published entries are in the table -/

theorem NoOrphan.casEntry (h : NoOrphan kv) {s : SlotId} {expected desired : Option (LfEntry V)}
    (hin : desired ≠ none → ∃ i, kv.slots i = some s)
    (hcas : kv.casEntry s expected desired = some kv') : NoOrphan kv' := by
  intro t ht hne
  rw [casEntry_slots hcas]
  by_cases hts : t = s
  · subst hts
    rw [casEntry_entry hcas] at hne
    exact hin hne
  · rw [casEntry_recs_of_ne hcas hts] at hne
    obtain ⟨-, rfl⟩ := casEntry_eq hcas
    exact h t ht hne

/-- The record is in the table when a step stores an entry into it. -/
theorem exists_of_casEntry (h : NoOrphan kv) {s : SlotId} (hs : s < kv.nrecs)
    {old desired : Option (LfEntry V)} (hcas : kv.casEntry s old desired = some kv')
    (hkeep : old = none → (kv.recs s).entry = none → kv.inTable s = true) :
    ∃ i, kv.slots i = some s := by
  cases he : (kv.recs s).entry with
  | some e => exact h s hs (by simp [he])
  | none =>
    have hold : old = none := by
      have := (casEntry_eq hcas).1
      rw [he] at this
      simpa using this.symm
    exact exists_of_inTable (hkeep hold he)

/-- What `keepsRecord` says of a record to be filled. -/
theorem inTable_of_keepsRecord {s : SlotId} {pc : Pc V}
    (hpc : pc = .install s ∨ pc = .replaceCas s none) (hkeep : keepsRecord kv pc = true)
    (he : (kv.recs s).entry = none) : kv.inTable s = true := by
  rcases hpc with rfl | rfl <;> simpa [keepsRecord, he] using hkeep

/-- What `keepsRecord` says of the slot that a fresh record is placed in. -/
theorem entry_none_of_keepsRecord {pc : Pc V} {x : ℕ} {expected : Option SlotId}
    (hpc : pc = .claim x ∧ expected = none ∨ ∃ i old, pc = .tombCas i x old ∧ expected = some old)
    (hkeep : keepsRecord kv pc = true) (hx : kv.slots x = expected) {t : SlotId}
    (ht : kv.slots x = some t) : (kv.recs t).entry = none := by
  rcases hpc with ⟨rfl, rfl⟩ | ⟨i, old, rfl, rfl⟩
  · rw [hx] at ht
    cases ht
  · obtain rfl : old = t := Option.some.inj (hx.symm.trans ht)
    simpa [keepsRecord, hx] using hkeep

/-- **A step that keeps records in the table leaves no record with an entry outside it.** -/
theorem NoOrphan.step (h : NoOrphan kv) {c : Call V} {pc : Pc V} {addr : ℕ}
    (hpcok : PcOk kv c pc) (hkeep : keepsRecord kv pc = true) (heff : Effect kv c pc addr kv') :
    NoOrphan kv' := by
  cases heff with
  | same => exact h
  | count n => exact h
  | retire _ hcas => exact h.casEntry (fun hd => absurd rfl hd) hcas
  | @publish s e _ hpc hcas =>
    subst hpc
    exact h.casEntry (fun _ => exists_of_casEntry h hpcok.1 hcas nofun) hcas
  | @fill s old _ hpc hcas =>
    have hs : s < kv.nrecs := by
      rcases hpc with ⟨rfl, -⟩ | rfl <;> exact hpcok.1
    refine h.casEntry (fun _ => exists_of_casEntry h hs hcas fun hold he => ?_) hcas
    have hfill : pc = .install s ∨ pc = .replaceCas s none := by
      rcases hpc with ⟨hpc, -⟩ | hpc
      · exact .inl hpc
      · exact .inr (hold ▸ hpc)
    exact inTable_of_keepsRecord hfill hkeep he
  | @place x expected _ hpc hcas =>
    intro t ht hne
    by_cases htn : t = kv.nrecs
    · exact ⟨x, by rw [casSlot_slots hcas, htn]⟩
    · have hlt : t < kv.nrecs := by
        obtain ⟨-, rfl⟩ := casSlot_eq hcas
        simp at ht
        omega
      rw [casSlot_recs_of_lt hcas hlt] at hne
      obtain ⟨i, hi⟩ := h t hlt hne
      by_cases hix : i = x
      · subst hix
        exact absurd (entry_none_of_keepsRecord hpc hkeep (casSlot_eq hcas).1 hi) hne
      · exact ⟨i, by rw [casSlot_slots_of_ne hcas hix, hi]⟩

theorem entry_of_casEntry (hwf : WF kv) {c : Call V} {s r : SlotId} {e : LfEntry V}
    {old desired : Option (LfEntry V)} (hown : c.Owns kv s)
    (hcas : kv.casEntry s old desired = some kv') (hpub : desired.map (s, ·) = some (r, e)) :
    r < kv'.nrecs ∧ (kv'.recs r).entry = some e ∧ (kv'.recs r).keyBytes = c.key := by
  obtain ⟨e', he, hre⟩ := Option.map_eq_some_iff.mp hpub
  obtain ⟨rfl, rfl⟩ := Prod.mk.inj hre
  have hext := casEntry_ext hcas
  refine ⟨hown.1.trans_le hext.nrecs, ?_, ?_⟩
  · rw [casEntry_entry hcas, he]
  · rw [hext.keyBytes hown.1, hown.keyBytes hwf]

theorem entry_of_casSlot {c : Call V} (hshort : c.Short) {x addr : ℕ} {expected : Option SlotId}
    {r : SlotId} {e : LfEntry V} (hcas : kv.casSlot x expected (c.freshSlot addr) = some kv')
    (hpub : (c.freshEntry addr).map (kv.nrecs, ·) = some (r, e)) :
    r < kv'.nrecs ∧ (kv'.recs r).entry = some e ∧ (kv'.recs r).keyBytes = c.key := by
  obtain ⟨e', he, hre⟩ := Option.map_eq_some_iff.mp hpub
  obtain ⟨rfl, rfl⟩ := Prod.mk.inj hre
  rw [casSlot_recs hcas, Function.update_self]
  refine ⟨?_, he, keyBytes_freshSlot hshort addr⟩
  obtain ⟨-, rfl⟩ := casSlot_eq hcas
  exact Nat.lt_succ_self _

/-- The record that a step publishes an entry in, after the step. -/
theorem entry_of_published [DecidableEq V] (hwf : WF kv) {c : Call V} (hshort : c.Short)
    {pc : Pc V} (hpcok : PcOk kv c pc) {now : ℤ} {ok : Bool} {addr : ℕ} {r : SlotId}
    {e : LfEntry V} (hpub : published kv c addr pc = some (r, e)) (hkv : kv' = (step kv ⟨c, now, pc⟩ ok addr).1) :
    r < kv'.nrecs ∧ (kv'.recs r).entry = some e ∧ (kv'.recs r).keyBytes = c.key := by
  subst hkv
  cases pc with
  | publish s e' | install s | replaceCas s old =>
    obtain ⟨kv', hcas, hmap⟩ := Option.bind_eq_some_iff.mp hpub
    simp only [step, hcas]
    exact entry_of_casEntry hwf hpcok hcas hmap
  | tombCas i t old | claim i =>
    obtain ⟨kv', hcas, hmap⟩ := Option.bind_eq_some_iff.mp hpub
    simp only [step, hcas]
    exact entry_of_casSlot hshort hcas hmap
  | _ => cases hpub

/-! ## A key that nobody else works on -/

/-- A call on the key `k`: an operation with that key, or one that goes through every key. -/
def Call.On (k : Bytes) (c : Call V) : Prop := c.Keyed ∧ c.key = k ∨ c.Sweeps

/-- The records of the key `k` have not changed from `kv` to `kv'`, and the slots that hold a live
one have not either. -/
structure Frame (k : Bytes) (kv kv' : Lfkv V) : Prop where
  ext : Ext kv kv'
  recs : ∀ s < kv.nrecs, (kv.recs s).keyBytes = k → kv'.recs s = kv.recs s
  slots : ∀ {i s}, kv.slots i = some s → (kv.recs s).keyBytes = k → (kv.recs s).entry ≠ none →
    kv'.slots i = some s

theorem Frame.refl (k : Bytes) (kv : Lfkv V) : Frame k kv kv :=
  ⟨.refl kv, fun _ _ _ => rfl, fun h _ _ => h⟩

theorem frame_of_casEntry {k : Bytes} {s : SlotId} {expected desired : Option (LfEntry V)}
    (hk : (kv.recs s).keyBytes ≠ k) (hcas : kv.casEntry s expected desired = some kv') :
    Frame k kv kv' := by
  refine ⟨casEntry_ext hcas, fun t _ ht => ?_, fun h _ _ => by rw [casEntry_slots hcas, h]⟩
  have hts : t ≠ s := by
    rintro rfl
    exact hk ht
  exact casEntry_recs_of_ne hcas hts

/-- **A step of a call on other keys leaves the records of `k` as they are.** -/
theorem Effect.frame (hwf : WF kv) {c : Call V} {pc : Pc V} {addr : ℕ} {k : Bytes}
    (hpcok : PcOk kv c pc) (hfits : c.Fits pc) (hkeep : keepsRecord kv pc = true)
    (hon : ¬ c.On k) (heff : Effect kv c pc addr kv') : Frame k kv kv' := by
  have hkey : ∀ s, c.Keyed → c.Owns kv s → (kv.recs s).keyBytes ≠ k := by
    intro s hkeyed hown hk
    exact hon (.inl ⟨hkeyed, by rw [← hk, hown.keyBytes hwf]⟩)
  cases heff with
  | same => exact .refl k kv
  | count n => exact ⟨count_ext n, fun _ _ _ => rfl, fun h _ _ => h⟩
  | @retire s e _ hpc hcas =>
    rcases hpc with rfl | ⟨i, n, rfl⟩
    · exact frame_of_casEntry (hkey s hfits.keyed hpcok) hcas
    · exact absurd (.inr hfits) hon
  | @publish s e _ hpc hcas =>
    subst hpc
    exact frame_of_casEntry (hkey s hfits.loads.keyed hpcok) hcas
  | @fill s old _ hpc hcas =>
    have hown : c.Keyed ∧ c.Owns kv s := by
      rcases hpc with ⟨rfl, -⟩ | rfl <;> obtain ⟨k', val, rfl⟩ := hfits <;> exact ⟨trivial, hpcok⟩
    exact frame_of_casEntry (hkey s hown.1 hown.2) hcas
  | @place x expected _ hpc hcas =>
    refine ⟨casSlot_ext hcas, fun t ht _ => casSlot_recs_of_lt hcas ht, fun {i t} hi _ hne => ?_⟩
    have hix : i ≠ x := by
      rintro rfl
      exact hne (entry_none_of_keepsRecord hpc hkeep (casSlot_eq hcas).1 hi)
    rw [casSlot_slots_of_ne hcas hix, hi]

/-! ## The lookup of a published entry -/

/-- The slot `slotAt (bernsteinHash k) m` holds the record `r` of `k`, with the entry `e`. -/
structure HoldsAt (kv : Lfkv V) (k : Bytes) (m : ℕ) (r : SlotId) (e : LfEntry V) : Prop where
  lt : m < kv.nslots
  covered : kv.Covered (bernsteinHash k) m
  slot : kv.slots (kv.slotAt (bernsteinHash k) m) = some r
  entry : (kv.recs r).entry = some e
  key : (kv.recs r).keyBytes = k

/-- How far an `lfkv_get` of `k` is from the record `r` in the `m`-th slot of its path. -/
def FindsAt (kv : Lfkv V) (k : Bytes) (m : ℕ) (r : SlotId) (e : LfEntry V) : Pc V → Prop
  | .probe p _ _ => p ≤ m
  | .probeEntry p _ _ s => p ≤ m ∧ (p = m → s = r) ∧
      (slotKeyEq (kv.recs s) (bernsteinHash k) k = true → (kv.recs s).entry ≠ none → s = r)
  | .loadEntry s => s = r
  | .ret x => x = .val (some e.val)
  | _ => False

/-- An upper bound on the steps that an `lfkv_get` has left. -/
def lookupSteps (kv : Lfkv V) : Pc V → ℕ
  | .probe p _ _ => 2 * (kv.nslots - p) + 1
  | .probeEntry p _ _ _ => 2 * (kv.nslots - p)
  | .loadEntry _ => 1
  | _ => 0

section Lookup

variable {k : Bytes} {m : ℕ} {r : SlotId} {e : LfEntry V} {pc : Pc V}

theorem exists_holdsAt (hwf : WF kv) {i : ℕ} (hi : kv.slots i = some r)
    (he : (kv.recs r).entry = some e) (hk : (kv.recs r).keyBytes = k) :
    ∃ m, HoldsAt kv k m r e := by
  have hr := hwf.recLt hi
  have hpath := hwf.onPath hi
  have hhash : (kv.recs r).khash = bernsteinHash k := by
    rw [← hk, (hwf.recOk r hr).keyBytes]
    exact (hwf.recOk r hr).khash
  rw [hhash] at hpath
  obtain ⟨m, hlt, rfl, hc⟩ := hpath.exists_lt
  exact ⟨m, hlt, hc, hi, he, hk⟩

theorem HoldsAt.mono (hwf : WF kv) (h : HoldsAt kv k m r e) (hf : Frame k kv kv') :
    HoldsAt kv' k m r e where
  lt := by rw [hf.ext.nslots]; exact h.lt
  covered := hf.ext.covered h.covered
  slot := by
    rw [hf.ext.slotAt_eq]
    exact hf.slots h.slot h.key (by simp [h.entry])
  entry := by rw [hf.recs r (hwf.recLt h.slot) h.key, h.entry]
  key := by rw [hf.recs r (hwf.recLt h.slot) h.key, h.key]

theorem FindsAt.mono {c : Call V} (hwf : WF kv) (hpc : PcOk kv c pc) (h : FindsAt kv k m r e pc)
    (hf : Frame k kv kv') : FindsAt kv' k m r e pc := by
  cases pc with
  | probeEntry p i tomb s =>
    obtain ⟨hpm, heq, hlive⟩ := h
    have hs : s < kv.nrecs := hpc.2.2.2
    refine ⟨hpm, heq, fun hkey hne => ?_⟩
    rw [hf.ext.slotKeyEq hs] at hkey
    rw [hf.recs s hs ((hwf.slotKeyEq_iff hs k).mp hkey)] at hne
    exact hlive hkey hne
  | probe p i tomb | loadEntry s | ret x => exact h
  | _ => exact h.elim

/-- **A step of the lookup brings it nearer to the entry.** -/
theorem FindsAt.step [DecidableEq V] (hwf : WF kv) (hu : UniqueLive kv) (hh : HoldsAt kv k m r e)
    {now : ℤ} (hexp : entryExpired e now = false) (hpc : PcOk kv (.get k) pc)
    (h : FindsAt kv k m r e pc) (hrun : idle (some ⟨.get k, now, pc⟩) = false) (ok : Bool)
    (addr : ℕ) :
    (step kv ⟨.get k, now, pc⟩ ok addr).1 = kv ∧
      FindsAt kv k m r e (step kv ⟨.get k, now, pc⟩ ok addr).2 ∧
      lookupSteps kv (step kv ⟨.get k, now, pc⟩ ok addr).2 < lookupSteps kv pc := by
  have hm := hh.lt
  have hlive : (kv.recs r).entry ≠ none := by simp [hh.entry]
  cases pc with
  | probe p i tomb =>
    obtain ⟨rfl, -, -⟩ := hpc
    have hpm : p ≤ m := h
    have hslot : ∃ s, kv.slots (kv.slotAt (bernsteinHash k) p) = some s := by
      rcases Nat.lt_or_eq_of_le hpm with hlt | rfl
      · exact Option.ne_none_iff_exists'.mp (hh.covered p hlt)
      · exact ⟨r, hh.slot⟩
    obtain ⟨s, hs⟩ := hslot
    simp only [Lfkv.step, Call.hash, Call.key, hs]
    refine ⟨trivial, ⟨hpm, ?_, ?_⟩, ?_⟩
    · rintro rfl
      exact Option.some.inj (hs.symm.trans hh.slot)
    · intro hkey hne
      have hi := hu k _ _ (liveAt_of_key hwf hs hkey hne) ⟨r, hh.slot, hlive, hh.key⟩
      rw [hi, hh.slot] at hs
      exact (Option.some.inj hs).symm
    · simp only [lookupSteps]
      omega
  | probeEntry p i tomb s =>
    obtain ⟨rfl, -, -, hs⟩ := hpc
    obtain ⟨hpm, heq, hfound⟩ := h
    -- the record of the key itself is never passed
    have hnext : s ≠ r → ∀ tomb',
        FindsAt kv k m r e ((Call.get k).probeNext kv ok p (kv.slotAt (bernsteinHash k) p) tomb') ∧
        lookupSteps kv ((Call.get k).probeNext kv ok p (kv.slotAt (bernsteinHash k) p) tomb') <
          2 * (kv.nslots - p) := by
      intro hsr tomb'
      have hpm' : p ≠ m := fun hpm => hsr (heq hpm)
      rw [Call.probeNext, if_pos (by omega)]
      simp only [FindsAt, lookupSteps]
      omega
    simp only [Lfkv.step]
    split
    · rename_i hnone
      refine ⟨rfl, hnext ?_ _⟩
      rintro rfl
      exact hlive hnone
    · rename_i e' he'
      split
      · rename_i hkey
        refine ⟨rfl, hfound hkey (by simp [he']), ?_⟩
        simp only [Call.found, lookupSteps]
        omega
      · rename_i hkey
        refine ⟨rfl, hnext ?_ _⟩
        rintro rfl
        exact hkey ((hwf.slotKeyEq_iff hs k).mpr hh.key)
  | loadEntry s =>
    obtain rfl : s = r := h
    simp [Lfkv.step, hh.entry, Call.loaded, hexp, FindsAt, lookupSteps]
  | ret x => cases hrun
  | _ => exact h.elim

end Lookup

/-! ## The system -/

section System

variable [DecidableEq V]

/-- The steps that fill no place on a stale probe and keep records with an entry in the table. -/
def publishes (s : Sys V) (l : Label V) : Bool :=
  fillsCurrent s l &&
    match l with
    | .invoke _ _ _ _ => true
    | .step t _ _ =>
      match s.threads t with
      | some th => keepsRecord s.kv th.pc
      | none => true

/-- Reachable states when every step is one of these. -/
structure PInv (s : Sys V) : Prop extends UInv s where
  noOrphan : NoOrphan s.kv

omit [DecidableEq V] in
theorem pinv_init (b : ℕ) (hb : b < 64) : PInv (Sys.init V b hb) :=
  ⟨uinv_init b hb, fun _ hs => absurd hs (Nat.not_lt_zero _)⟩

theorem PInv.next {s s' : Sys V} {l : Label V} (h : PInv s) (hl : publishes s l = true)
    (hs : s.next l = some s') : PInv s' := by
  simp only [publishes, Bool.and_eq_true] at hl
  refine ⟨h.toUInv.next hl.1 hs, ?_⟩
  rcases Sys.next_cases hs with ⟨t, c, now, ok, rfl, -, rfl⟩ | ⟨t, ok, addr, th, rfl, hth, -, rfl⟩
  · exact h.noOrphan
  · have hkeep := hl.2
    simp only [hth] at hkeep
    exact h.noOrphan.step (h.pcOk t th hth) hkeep (step_effect s.kv th ok addr)

/-- A step that no operation on `k` takes, up to the counter update of one that has taken effect;
with `u`, the lookup of `k` in progress in that thread may step too. -/
def Aside (k : Bytes) (u : Option ℕ) (s : Sys V) (l : Label V) : Prop :=
  publishes s l = true ∧
    match l with
    | .invoke t c _ _ => ¬ c.On k ∧ u ≠ some t
    | .step t _ _ => u = some t ∨
        ∀ th, s.threads t = some th → ¬ th.call.On k ∨ ∃ r, th.pc = .countAdd r

/-- A step that an operation on another key takes. -/
theorem frame_of_next {k : Bytes} {s s' : Sys V} {l : Label V} (h : PInv s)
    (hl : Aside k none s l) (hs : s.next l = some s') : Frame k s.kv s'.kv := by
  obtain ⟨hpub, hl⟩ := hl
  rcases Sys.next_cases hs with ⟨t, c, now, ok, rfl, -, rfl⟩ | ⟨t, ok, addr, th, rfl, hth, -, rfl⟩
  · exact .refl k _
  · have hkeep : keepsRecord s.kv th.pc = true := by
      simp only [publishes, hth, Bool.and_eq_true] at hpub
      exact hpub.2
    rcases hl with hu | hl
    · cases hu
    rcases hl th hth with hon | ⟨r, hr⟩
    · exact (step_effect s.kv th ok addr).frame h.wf (h.pcOk t th hth) (h.fits t th hth) hkeep hon
    · obtain ⟨c, now, pc⟩ := th
      obtain rfl : pc = .countAdd r := hr
      exact ⟨count_ext _, fun _ _ _ => rfl, fun h _ _ => h⟩

/-- The steps of the thread `u`. -/
def Label.isStepOf (u : ℕ) : Label V → Bool
  | .invoke _ _ _ _ => false
  | .step t _ _ => t == u

/-- The steps that the lookup in the thread `u` has left. -/
def stepsLeft (u : ℕ) (s : Sys V) : ℕ :=
  match s.threads u with
  | some th => lookupSteps s.kv th.pc
  | none => 0

/-- The thread `u` looks up `k`, with the entry `e` ahead of it. -/
structure Looking (k : Bytes) (u : ℕ) (now : ℤ) (m : ℕ) (r : SlotId) (e : LfEntry V)
    (s : Sys V) : Prop extends PInv s where
  holds : HoldsAt s.kv k m r e
  thread : ∃ pc, s.threads u = some ⟨.get k, now, pc⟩ ∧ FindsAt s.kv k m r e pc

/-- **A step while a lookup runs**: it keeps what the lookup will find, and the lookup's own steps
bring it nearer to its return. -/
theorem Looking.next {k : Bytes} {u : ℕ} {now : ℤ} {m : ℕ} {r : SlotId} {e : LfEntry V}
    {s s' : Sys V} {l : Label V} (h : Looking k u now m r e s)
    (hexp : entryExpired e now = false) (hl : Aside k (some u) s l) (hs : s.next l = some s') :
    Looking k u now m r e s' ∧
      stepsLeft u s' + (if l.isStepOf u then 1 else 0) ≤ stepsLeft u s := by
  obtain ⟨pc, hu, hfinds⟩ := h.thread
  have hp' := h.toPInv.next hl.1 hs
  by_cases hown : l.isStepOf u = true
  · cases l with
    | invoke t c now' ok => cases hown
    | step t ok addr =>
      obtain rfl : t = u := by simpa [Label.isStepOf] using hown
      rcases Sys.next_cases hs with ⟨_, _, _, _, hl', -⟩ | ⟨t', ok', addr', th, hl', hth, hrun, rfl⟩
      · cases hl'
      · obtain ⟨rfl, rfl, rfl⟩ := Label.step.inj hl'
        rw [hu] at hth
        obtain rfl := Option.some.inj hth
        obtain ⟨hkv, hfinds', hlt⟩ :=
          hfinds.step h.wf h.unique h.holds hexp (h.pcOk t _ hu) hrun ok addr
        refine ⟨⟨hp', ?_, (step s.kv ⟨.get k, now, pc⟩ ok addr).2, by simp [Sys.put], ?_⟩, ?_⟩
        · simpa [Sys.put, hkv] using h.holds
        · simpa [Sys.put, hkv] using hfinds'
        · simp only [stepsLeft, hu, Sys.put, Function.update_self, hkv, hown, if_true]
          exact hlt
  · -- another thread, on another key
    have hne : ∀ {t : ℕ}, l.isStepOf u = false → (∃ ok addr, l = .step t ok addr) → t ≠ u := by
      rintro t hf ⟨ok, addr, rfl⟩ rfl
      simp [Label.isStepOf] at hf
    have haside : Aside k none s l := by
      refine ⟨hl.1, ?_⟩
      cases l with
      | invoke t c now' ok => exact ⟨hl.2.1, nofun⟩
      | step t ok addr =>
        rcases hl.2 with ht | hon
        · exact absurd (Option.some.inj ht).symm (hne (by simpa using hown) ⟨ok, addr, rfl⟩)
        · exact .inr hon
    have hf := frame_of_next h.toPInv haside hs
    have hthread : s'.threads u = s.threads u := by
      rcases Sys.next_cases hs with ⟨t, c, now', ok, rfl, -, rfl⟩ | ⟨t, ok, addr, th, rfl, -, -, rfl⟩
      · have hut : u ≠ t := fun hut => hl.2.2 (by rw [hut])
        simp [Sys.put, Function.update_of_ne hut]
      · have hut : u ≠ t := (hne (by simpa using hown) ⟨ok, addr, rfl⟩).symm
        simp [Sys.put, Function.update_of_ne hut]
    refine ⟨⟨hp', h.holds.mono h.wf hf, pc, by rw [hthread, hu], ?_⟩, ?_⟩
    · exact hfinds.mono h.wf (h.pcOk u _ hu) hf
    · have hsteps : lookupSteps s'.kv pc = lookupSteps s.kv pc := by
        cases pc <;> simp [lookupSteps, hf.ext.nslots]
      simp [stepsLeft, hthread, hu, hsteps, hown]

end System

/-- Thread 0 writes `k` and starts a second write, which finds the record; thread 1 deletes `k`
and writes `j`, which recycles the tombstone; thread 0 goes on. -/
def orphanRun (k j : Bytes) : List (Label ℕ) :=
  .invoke 0 (.set k 10) 0 true :: steps 0 3 1 ++ .invoke 0 (.set k 11) 0 true :: steps 0 2 2 ++
  .invoke 1 (.del k) 0 true :: steps 1 5 0 ++ .invoke 1 (.set j 20) 0 true :: steps 1 7 3 ++
  steps 0 3 2

end Alcove.Lfkv
