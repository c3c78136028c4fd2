import Alcove.Lfkv.Machine

/-!
# Probe chains

The probe of a hash `h` visits the slots `kv.slotAt h 0`, `kv.slotAt h 1`, …. A record may only be placed
behind slots that are all taken (`Covered`), and a slot that is taken stays taken (`Ext`), so a
probe always reaches a live record of its key (`probe_of_live`). `Ext` is what any step of any
call does to the table (`step_ext`), and the one place where that is read off the machine.
-/

namespace Alcove.Lfkv

variable {V : Type*} (kv : Lfkv V)

/-! ## The slots a probe visits -/

/-- The `m`-th slot that the probe of the hash `h` visits. -/
def slotAt (h : UInt32) (m : ℕ) : ℕ := (h.toNat + m) % kv.nslots

theorem nslots_pos : 0 < kv.nslots := by
  obtain ⟨b, -, hb⟩ := kv.pow2
  rw [hb]
  exact Nat.two_pow_pos b

theorem and_mask (i : ℕ) : i &&& kv.mask = i % kv.nslots := by
  obtain ⟨b, -, hb⟩ := kv.pow2
  rw [mask, hb, Nat.and_two_pow_sub_one_eq_mod]

theorem home_eq (h : UInt32) : kv.home h = kv.slotAt h 0 := by
  rw [home, and_mask, slotAt, Nat.add_zero]

theorem succ_slotAt (h : UInt32) (m : ℕ) : kv.succ (kv.slotAt h m) = kv.slotAt h (m + 1) := by
  rw [succ, and_mask, slotAt, slotAt, Nat.mod_add_mod, Nat.add_assoc]

theorem slotAt_lt (h : UInt32) (m : ℕ) : kv.slotAt h m < kv.nslots := Nat.mod_lt _ kv.nslots_pos

theorem slotAt_mod (h : UInt32) (m : ℕ) : kv.slotAt h (m % kv.nslots) = kv.slotAt h m := by
  rw [slotAt, slotAt, Nat.add_mod_mod]

/-- The first `m` slots that the probe of `h` visits are taken. -/
def Covered (h : UInt32) (m : ℕ) : Prop := ∀ q < m, kv.slots (kv.slotAt h q) ≠ none

/-- The slot `i` is on the probe path of `h`, behind taken slots only. -/
def OnPath (h : UInt32) (i : ℕ) : Prop := ∃ m, i = kv.slotAt h m ∧ kv.Covered h m

theorem onPath_home (h : UInt32) : kv.OnPath h (kv.home h) :=
  ⟨0, kv.home_eq h, fun q hq => absurd hq (Nat.not_lt_zero q)⟩

variable {kv}

theorem Covered.succ {h : UInt32} {m : ℕ} (hc : kv.Covered h m)
    (hm : kv.slots (kv.slotAt h m) ≠ none) : kv.Covered h (m + 1) := by
  intro q hq
  rcases Nat.lt_succ_iff_lt_or_eq.mp hq with hlt | rfl
  · exact hc q hlt
  · exact hm

theorem OnPath.lt {h : UInt32} {i : ℕ} (hp : kv.OnPath h i) : i < kv.nslots := by
  obtain ⟨m, rfl, -⟩ := hp
  exact kv.slotAt_lt h m

theorem OnPath.succ {h : UInt32} {i : ℕ} (hp : kv.OnPath h i) (hi : kv.slots i ≠ none) :
    kv.OnPath h (kv.succ i) := by
  obtain ⟨m, rfl, hc⟩ := hp
  exact ⟨m + 1, kv.succ_slotAt h m, hc.succ hi⟩

/-- The number of slots before `i` on its path can be taken below the size of the table. -/
theorem OnPath.exists_lt {h : UInt32} {i : ℕ} (hp : kv.OnPath h i) :
    ∃ m < kv.nslots, i = kv.slotAt h m ∧ kv.Covered h m := by
  obtain ⟨m, rfl, hc⟩ := hp
  exact ⟨m % kv.nslots, Nat.mod_lt _ kv.nslots_pos, (kv.slotAt_mod h m).symm,
    fun q hq => hc q (lt_of_lt_of_le hq (Nat.mod_le _ _))⟩

/-! ## What every step keeps -/

/-- `kv'` is `kv` after steps of any calls: taken slots stay taken, and the key of a published
record never changes. -/
structure Ext (kv kv' : Lfkv V) : Prop where
  nslots : kv'.nslots = kv.nslots
  taken : ∀ i, kv.slots i ≠ none → kv'.slots i ≠ none
  nrecs : kv.nrecs ≤ kv'.nrecs
  khash : ∀ s < kv.nrecs, (kv'.recs s).khash = (kv.recs s).khash
  klen : ∀ s < kv.nrecs, (kv'.recs s).klen = (kv.recs s).klen
  key : ∀ s < kv.nrecs, (kv'.recs s).key = (kv.recs s).key

namespace Ext

variable {kv' kv'' : Lfkv V}

@[refl] theorem refl (kv : Lfkv V) : Ext kv kv :=
  ⟨rfl, fun _ h => h, le_rfl, fun _ _ => rfl, fun _ _ => rfl, fun _ _ => rfl⟩

theorem trans (h : Ext kv kv') (h' : Ext kv' kv'') : Ext kv kv'' where
  nslots := h'.nslots.trans h.nslots
  taken i hi := h'.taken i (h.taken i hi)
  nrecs := h.nrecs.trans h'.nrecs
  khash s hs := (h'.khash s (hs.trans_le h.nrecs)).trans (h.khash s hs)
  klen s hs := (h'.klen s (hs.trans_le h.nrecs)).trans (h.klen s hs)
  key s hs := (h'.key s (hs.trans_le h.nrecs)).trans (h.key s hs)

theorem slotAt_eq (h : Ext kv kv') (x : UInt32) (m : ℕ) : kv'.slotAt x m = kv.slotAt x m := by
  rw [slotAt, slotAt, h.nslots]

theorem covered (h : Ext kv kv') {x : UInt32} {m : ℕ} (hc : kv.Covered x m) : kv'.Covered x m := by
  intro q hq
  rw [h.slotAt_eq]
  exact h.taken _ (hc q hq)

theorem onPath (h : Ext kv kv') {x : UInt32} {i : ℕ} (hp : kv.OnPath x i) : kv'.OnPath x i := by
  obtain ⟨m, rfl, hc⟩ := hp
  exact ⟨m, (h.slotAt_eq x m).symm, h.covered hc⟩

theorem slotKeyEq (h : Ext kv kv') {s : SlotId} (hs : s < kv.nrecs) (x : UInt32) (k : Bytes) :
    slotKeyEq (kv'.recs s) x k = slotKeyEq (kv.recs s) x k := by
  simp only [Lfkv.slotKeyEq, h.khash s hs, h.klen s hs, h.key s hs]

theorem keyBytes (h : Ext kv kv') {s : SlotId} (hs : s < kv.nrecs) :
    (kv'.recs s).keyBytes = (kv.recs s).keyBytes := by
  rw [LfSlot.keyBytes, LfSlot.keyBytes, h.key s hs, h.klen s hs]

end Ext

theorem casEntry_eq {s : SlotId} {expected desired : Option (LfEntry V)} {kv' : Lfkv V}
    (h : kv.casEntry s expected desired = some kv') :
    (kv.recs s).entry.map LfEntry.addr = expected.map LfEntry.addr ∧
      kv' = { kv with recs := Function.update kv.recs s { kv.recs s with entry := desired } } := by
  unfold casEntry at h
  split at h
  · rename_i heq
    exact ⟨heq, (Option.some.inj h).symm⟩
  · cases h

theorem casSlot_eq {i : ℕ} {expected : Option SlotId} {fresh : LfSlot V} {kv' : Lfkv V}
    (h : kv.casSlot i expected fresh = some kv') :
    kv.slots i = expected ∧ kv' = { kv with
      slots := Function.update kv.slots i (some kv.nrecs)
      recs := Function.update kv.recs kv.nrecs fresh
      nrecs := kv.nrecs + 1 } := by
  unfold casSlot at h
  split at h
  · rename_i heq
    exact ⟨heq, (Option.some.inj h).symm⟩
  · cases h

theorem casEntry_slots {s : SlotId} {expected desired : Option (LfEntry V)} {kv' : Lfkv V}
    (h : kv.casEntry s expected desired = some kv') : kv'.slots = kv.slots := by
  obtain ⟨-, rfl⟩ := casEntry_eq h
  rfl

theorem casEntry_recs_of_ne {s t : SlotId} {expected desired : Option (LfEntry V)}
    {kv' : Lfkv V} (h : kv.casEntry s expected desired = some kv') (hts : t ≠ s) :
    kv'.recs t = kv.recs t := by
  obtain ⟨-, rfl⟩ := casEntry_eq h
  exact Function.update_of_ne hts _ _

theorem casEntry_entry {s : SlotId} {expected desired : Option (LfEntry V)} {kv' : Lfkv V}
    (h : kv.casEntry s expected desired = some kv') : (kv'.recs s).entry = desired := by
  obtain ⟨-, rfl⟩ := casEntry_eq h
  simp

theorem casSlot_slots_of_ne {i j : ℕ} {expected : Option SlotId} {fresh : LfSlot V}
    {kv' : Lfkv V} (h : kv.casSlot i expected fresh = some kv') (hji : j ≠ i) :
    kv'.slots j = kv.slots j := by
  obtain ⟨-, rfl⟩ := casSlot_eq h
  exact Function.update_of_ne hji _ _

theorem casSlot_slots {i : ℕ} {expected : Option SlotId} {fresh : LfSlot V} {kv' : Lfkv V}
    (h : kv.casSlot i expected fresh = some kv') : kv'.slots i = some kv.nrecs := by
  obtain ⟨-, rfl⟩ := casSlot_eq h
  exact Function.update_self _ _ _

theorem casSlot_recs {i : ℕ} {expected : Option SlotId} {fresh : LfSlot V} {kv' : Lfkv V}
    (h : kv.casSlot i expected fresh = some kv') :
    kv'.recs = Function.update kv.recs kv.nrecs fresh := by
  obtain ⟨-, rfl⟩ := casSlot_eq h
  rfl

theorem casSlot_recs_of_lt {i : ℕ} {expected : Option SlotId} {fresh : LfSlot V} {kv' : Lfkv V}
    (h : kv.casSlot i expected fresh = some kv') {s : SlotId} (hs : s < kv.nrecs) :
    kv'.recs s = kv.recs s := by
  rw [casSlot_recs h, Function.update_of_ne (Nat.ne_of_lt hs)]

theorem casEntry_ext {s : SlotId} {expected desired : Option (LfEntry V)} {kv' : Lfkv V}
    (h : kv.casEntry s expected desired = some kv') : Ext kv kv' := by
  obtain ⟨-, rfl⟩ := casEntry_eq h
  refine ⟨rfl, fun _ h => h, le_rfl, ?_, ?_, ?_⟩ <;>
  · intro t _
    by_cases hts : t = s
    · subst hts
      simp
    · simp [Function.update_of_ne hts]

theorem casSlot_ext {i : ℕ} {expected : Option SlotId} {fresh : LfSlot V} {kv' : Lfkv V}
    (h : kv.casSlot i expected fresh = some kv') : Ext kv kv' := by
  obtain ⟨-, rfl⟩ := casSlot_eq h
  refine ⟨rfl, ?_, Nat.le_succ _, ?_, ?_, ?_⟩
  · intro j hj
    by_cases hji : j = i
    · subst hji
      simp
    · simpa [Function.update_of_ne hji] using hj
  all_goals
    intro s hs
    simp [Function.update_of_ne (Nat.ne_of_lt hs)]

theorem count_ext (n : UInt64) : Ext kv { kv with count := n } :=
  ⟨rfl, fun _ h => h, le_rfl, fun _ _ => rfl, fun _ _ => rfl, fun _ _ => rfl⟩

/-- What one step of a call does to the table. -/
inductive Effect (kv : Lfkv V) (c : Call V) (pc : Pc V) (addr : ℕ) : Lfkv V → Prop
  | same : Effect kv c pc addr kv
  | count (n : UInt64) : Effect kv c pc addr { kv with count := n }
  | retire {s : SlotId} {e : LfEntry V} {kv' : Lfkv V}
      (hpc : pc = .retire s e ∨ ∃ i n, pc = .sweepRetire i s e n)
      (h : kv.casEntry s (some e) none = some kv') : Effect kv c pc addr kv'
  | publish {s : SlotId} {e : LfEntry V} {kv' : Lfkv V} (hpc : pc = .publish s e)
      (h : kv.casEntry s (some e) (c.newEntry addr e) = some kv') : Effect kv c pc addr kv'
  | fill {s : SlotId} {old : Option (LfEntry V)} {kv' : Lfkv V}
      (hpc : pc = .install s ∧ old = none ∨ pc = .replaceCas s old)
      (h : kv.casEntry s old (c.freshEntry addr) = some kv') : Effect kv c pc addr kv'
  | place {i : ℕ} {expected : Option SlotId} {kv' : Lfkv V}
      (hpc : pc = .claim i ∧ expected = none ∨
        ∃ i' old, pc = .tombCas i' i old ∧ expected = some old)
      (h : kv.casSlot i expected (c.freshSlot addr) = some kv') : Effect kv c pc addr kv'

/-- **Every step of the machine is one of these.** -/
theorem step_effect [DecidableEq V] (kv : Lfkv V) (th : Thread V) (ok : Bool) (addr : ℕ) :
    Effect kv th.call th.pc addr (step kv th ok addr).1 := by
  obtain ⟨c, now, pc⟩ := th
  cases pc with
  | probe p i tomb => simp only [step]; split <;> exact .same
  | probeEntry p i tomb s =>
    simp only [step]
    split
    · exact .same
    · split <;> exact .same
  | loadEntry s => exact .same
  | retire s e =>
    simp only [step]
    split
    · rename_i kv' h
      exact .retire (.inl rfl) h
    · exact .same
  | retireSub e => exact .count _
  | publish s e =>
    simp only [step]
    split
    · rename_i kv' h
      exact .publish rfl h
    · exact .same
  | publishSub => exact .count _
  | install s =>
    simp only [step]
    split
    · rename_i kv' h
      exact .fill (.inl ⟨rfl, rfl⟩) h
    · exact .same
  | replaceLoad s => exact .same
  | replaceCas s old =>
    simp only [step]
    split
    · rename_i kv' h
      exact .fill (.inr rfl) h
    · exact .same
  | tombLoad i tomb => simp only [step]; split <;> exact .same
  | tombCheck i tomb old => exact .same
  | tombCas i tomb old =>
    simp only [step]
    split
    · rename_i kv' h
      exact .place (.inr ⟨i, old, rfl, rfl⟩) h
    · exact .same
  | claim i =>
    simp only [step]
    split
    · rename_i kv' h
      exact .place (.inl ⟨rfl, rfl⟩) h
    · split
      · exact .same
      · split <;> exact .same
  | scan p i =>
    simp only [step]
    split
    · exact .same
    · split <;> exact .same
  | countAdd r => exact .count _
  | countLoad => exact .same
  | sweep i n => simp only [step]; split <;> exact .same
  | sweepEntry i s n =>
    simp only [step]
    split
    · exact .same
    · split <;> exact .same
  | sweepRetire i s e n =>
    simp only [step]
    split
    · rename_i kv' h
      exact .retire (.inr ⟨i, n, rfl⟩) h
    · exact .same
  | sweepSub i n => exact .count _
  | each i items => simp only [step]; split <;> exact .same
  | eachEntry i s items =>
    simp only [step]
    split
    · exact .same
    · split <;> exact .same
  | ret r => exact .same

theorem Effect.ext {c : Call V} {pc : Pc V} {addr : ℕ} {kv' : Lfkv V}
    (h : Effect kv c pc addr kv') : Ext kv kv' := by
  cases h with
  | same => exact .refl kv
  | count n => exact count_ext n
  | retire _ h => exact casEntry_ext h
  | publish _ h => exact casEntry_ext h
  | fill _ h => exact casEntry_ext h
  | place _ h => exact casSlot_ext h

theorem step_ext [DecidableEq V] (kv : Lfkv V) (th : Thread V) (ok : Bool) (addr : ℕ) :
    Ext kv (step kv th ok addr).1 := (step_effect kv th ok addr).ext

end Alcove.Lfkv
