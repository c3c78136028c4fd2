import Alcove.Lfkv.Probe

/-!
# One live record for a key

`lfkv_set` and `lfkv_set_nx` act on what their probe saw. When another writer of the same key has
published meanwhile, a claim of the first free slot, a recycled tombstone or an entry stored into
the key's own tombstone can make a second live record for the key
(`exists_two_live`): `lfkv_set` recycles a tombstone without looking at the free slot it would
have claimed, and falls back on claiming that slot without looking at the tombstone again.

Where no thread fills a place on the strength of a stale probe (`probeCurrent`), each key has at
most one live record in every reachable state, and a key that was deleted stays absent
(`uniqueLive_of_probeCurrent`).
-/

namespace Alcove.Lfkv

open Lib

variable {V : Type*} {kv kv' : Lfkv V}

/-- No key has two live records in the table. -/
def UniqueLive (kv : Lfkv V) : Prop := ∀ k i j, LiveAt kv k i → LiveAt kv k j → i = j

/-- The record `s` is in the table. -/
def inTable (kv : Lfkv V) (s : SlotId) : Bool :=
  (List.range kv.nslots).any fun i => kv.slots i == some s

theorem WF.inTable (hwf : WF kv) {i : ℕ} {s : SlotId} (hi : kv.slots i = some s) :
    kv.inTable s = true := by
  simp only [Lfkv.inTable, List.any_eq_true, List.mem_range, beq_iff_eq]
  exact ⟨i, hwf.lt hi, hi⟩

/-- When the next step fills a place of the table that had no entry (it claims a free slot,
recycles a tombstone, or stores into the empty entry of a record of the table), the probe of its
key, run again now, finds no record other than the one that it overwrites. -/
def probeCurrent (kv : Lfkv V) (c : Call V) (pc : Pc V) : Bool :=
  match pc, kv.probe c.key with
  | .claim i, .found _ _ => (kv.slots i).isSome
  | .tombCas _ t old, .found j _ => kv.slots t != some old || j == t
  | .install s, .found _ _ | .replaceCas s none, .found _ _ =>
    (kv.recs s).entry.isSome || !kv.inTable s
  | _, _ => true

/-! ## What a step makes live -/

theorem casEntry_ne_none {s : SlotId} {e : LfEntry V} {desired : Option (LfEntry V)}
    (h : kv.casEntry s (some e) desired = some kv') : (kv.recs s).entry ≠ none := by
  intro hnone
  have := (casEntry_eq h).1
  simp [hnone] at this

theorem liveAt_of_casEntry {s : SlotId} {expected desired : Option (LfEntry V)} {k : Bytes}
    {i : ℕ} (h : kv.casEntry s expected desired = some kv') (hi : LiveAt kv' k i) :
    LiveAt kv k i ∨
      kv.slots i = some s ∧ (kv.recs s).entry = none ∧ desired ≠ none ∧
        (kv.recs s).keyBytes = k := by
  obtain ⟨-, rfl⟩ := casEntry_eq h
  obtain ⟨t, ht, he, hk⟩ := hi
  by_cases hts : t = s
  · subst hts
    simp only [Function.update_self] at he hk
    by_cases hnone : (kv.recs t).entry = none
    · exact .inr ⟨ht, hnone, he, hk⟩
    · exact .inl ⟨t, ht, hnone, hk⟩
  · simp only [Function.update_of_ne hts] at he hk
    exact .inl ⟨t, ht, he, hk⟩

theorem liveAt_of_casSlot (hwf : WF kv) {i j : ℕ} {expected : Option SlotId} {fresh : LfSlot V}
    {k : Bytes} (h : kv.casSlot i expected fresh = some kv') (hj : LiveAt kv' k j) :
    j ≠ i ∧ LiveAt kv k j ∨ j = i ∧ fresh.entry ≠ none ∧ fresh.keyBytes = k := by
  obtain ⟨-, rfl⟩ := casSlot_eq h
  obtain ⟨t, ht, he, hk⟩ := hj
  by_cases hji : j = i
  · subst hji
    obtain rfl : kv.nrecs = t := by simpa using ht
    simp only [Function.update_self] at he hk
    exact .inr ⟨rfl, he, hk⟩
  · simp only [Function.update_of_ne hji] at ht
    simp only [Function.update_of_ne (Nat.ne_of_lt (hwf.recLt ht))] at he hk
    exact .inl ⟨hji, t, ht, he, hk⟩

theorem keyBytes_freshSlot {c : Call V} (hc : c.Short) (addr : ℕ) :
    (c.freshSlot addr).keyBytes = c.key := (recOk_freshSlot hc addr).keyBytes

/-- A current probe before storing into an empty entry: the key has no live record. -/
theorem not_live_of_fill (hwf : WF kv) {c : Call V} {pc : Pc V} {s : SlotId} {i : ℕ}
    (hcur : probeCurrent kv c pc = true) (hpc : pc = .install s ∨ pc = .replaceCas s none)
    (he : (kv.recs s).entry = none) (hi : kv.slots i = some s) (j : ℕ) :
    ¬ LiveAt kv c.key j := by
  intro hj
  obtain ⟨j', t, hf⟩ := probe_of_live hwf hj
  rcases hpc with rfl | rfl <;> simp [probeCurrent, hf, he, hwf.inTable hi] at hcur

/-- A current probe before placing a record: the key has no live record elsewhere. -/
theorem not_live_of_place (hwf : WF kv) (hu : UniqueLive kv) {c : Call V} {pc : Pc V} {i j : ℕ}
    {expected : Option SlotId} (hcur : probeCurrent kv c pc = true)
    (hpc : pc = .claim i ∧ expected = none ∨
      ∃ i' old, pc = .tombCas i' i old ∧ expected = some old)
    (hi : kv.slots i = expected) (hj : LiveAt kv c.key j) : j = i := by
  obtain ⟨j', t, hf⟩ := probe_of_live hwf hj
  rcases hpc with ⟨rfl, rfl⟩ | ⟨i', old, rfl, rfl⟩
  · simp [probeCurrent, hf, hi] at hcur
  · obtain rfl : j' = i := by simpa [probeCurrent, hf, hi] using hcur
    exact hu c.key j j' hj (probe_found hwf hf).2

/-- **A step with a current probe keeps one live record for a key.** -/
theorem UniqueLive.step (hwf : WF kv) (hu : UniqueLive kv) {c : Call V} {pc : Pc V} {addr : ℕ}
    (hshort : c.Short) (hpcok : PcOk kv c pc) (hcur : probeCurrent kv c pc = true)
    (heff : Effect kv c pc addr kv') : UniqueLive kv' := by
  intro k i j hi hj
  cases heff with
  | same => exact hu k i j hi hj
  | count n => exact hu k i j hi hj
  | @retire s e _ hpc h =>
    have hne := casEntry_ne_none h
    rcases liveAt_of_casEntry h hi with hi | ⟨-, hnone, -⟩
    · rcases liveAt_of_casEntry h hj with hj | ⟨-, hnone, -⟩
      · exact hu k i j hi hj
      · exact absurd hnone hne
    · exact absurd hnone hne
  | @publish s e _ hpc h =>
    have hne := casEntry_ne_none h
    rcases liveAt_of_casEntry h hi with hi | ⟨-, hnone, -⟩
    · rcases liveAt_of_casEntry h hj with hj | ⟨-, hnone, -⟩
      · exact hu k i j hi hj
      · exact absurd hnone hne
    · exact absurd hnone hne
  | @fill s old _ hpc h =>
    have hown : c.Owns kv s := by
      rcases hpc with ⟨rfl, -⟩ | rfl <;> exact hpcok
    -- a slot that became live holds `s`, whose entry was empty, so the probe was for nothing
    have hnew : ∀ {x y}, kv.slots x = some s → (kv.recs s).entry = none →
        (kv.recs s).keyBytes = k → ¬ LiveAt kv k y := by
      intro x y hx hnone hk
      have hold : old = none := by
        have := (casEntry_eq h).1
        rw [hnone] at this
        simpa using this.symm
      rw [← hk, hown.keyBytes hwf]
      refine not_live_of_fill hwf hcur ?_ hnone hx y
      rcases hpc with ⟨hpc, -⟩ | hpc
      · exact .inl hpc
      · exact .inr (hold ▸ hpc)
    rcases liveAt_of_casEntry h hi with hi | ⟨hi, hnone, -, hk⟩
    · rcases liveAt_of_casEntry h hj with hj | ⟨hj, hnone, -, hk⟩
      · exact hu k i j hi hj
      · exact absurd hi (hnew hj hnone hk)
    · rcases liveAt_of_casEntry h hj with hj | ⟨hj, -, -⟩
      · exact absurd hj (hnew hi hnone hk)
      · exact hwf.inj hi hj
  | @place x expected _ hpc h =>
    have hx := (casSlot_eq h).1
    rcases liveAt_of_casSlot hwf h hi with ⟨hix, hi⟩ | ⟨rfl, -, hk⟩
    · rcases liveAt_of_casSlot hwf h hj with ⟨-, hj⟩ | ⟨rfl, -, hk⟩
      · exact hu k i j hi hj
      · rw [keyBytes_freshSlot hshort] at hk
        exact absurd (not_live_of_place hwf hu hcur hpc hx (hk ▸ hi)) hix
    · rcases liveAt_of_casSlot hwf h hj with ⟨hjx, hj⟩ | ⟨rfl, -, -⟩
      · rw [keyBytes_freshSlot hshort] at hk
        exact absurd (not_live_of_place hwf hu hcur hpc hx (hk ▸ hj)) hjx
      · rfl

/-! ## Keys that nobody inserts -/

theorem Call.inserts_of_freshEntry {c : Call V} {addr : ℕ} (h : c.freshEntry addr ≠ none) :
    c.Inserts c.key := by
  cases c with
  | set k v | setNx k v => rfl
  | _ => exact absurd rfl h

/-- No live record of `k` has appeared from `kv` to `kv'`, in the table or out of it. -/
structure Quiet (k : Bytes) (kv kv' : Lfkv V) : Prop where
  ext : Ext kv kv'
  live : ∀ i, LiveAt kv' k i → LiveAt kv k i ∧ kv'.slots i = kv.slots i
  entry : ∀ s < kv.nrecs, (kv.recs s).keyBytes = k → (kv'.recs s).entry ≠ none →
    (kv.recs s).entry ≠ none

theorem Quiet.refl (k : Bytes) (kv : Lfkv V) : Quiet k kv kv :=
  ⟨.refl kv, fun _ h => ⟨h, rfl⟩, fun _ _ _ h => h⟩

theorem quiet_of_casEntry {k : Bytes} {s : SlotId} {expected desired : Option (LfEntry V)}
    (hd : desired ≠ none → (kv.recs s).keyBytes ≠ k)
    (h : kv.casEntry s expected desired = some kv') : Quiet k kv kv' := by
  refine ⟨casEntry_ext h, fun i hi => ?_, fun t _ hk ht => ?_⟩
  · rcases liveAt_of_casEntry h hi with hlive | ⟨-, -, hdes, hk⟩
    · exact ⟨hlive, by rw [casEntry_slots h]⟩
    · exact absurd hk (hd hdes)
  · by_cases hts : t = s
    · subst hts
      exact absurd hk (hd (casEntry_entry h ▸ ht))
    · rwa [casEntry_recs_of_ne h hts] at ht

/-- A step of a call that does not insert `k` leaves `k` quiet. -/
theorem Effect.quiet (hwf : WF kv) {c : Call V} {pc : Pc V} {addr : ℕ} {k : Bytes}
    (hshort : c.Short) (hpcok : PcOk kv c pc) (hk : ¬ c.Inserts k)
    (heff : Effect kv c pc addr kv') : Quiet k kv kv' := by
  cases heff with
  | same => exact .refl k kv
  | count n => exact ⟨count_ext n, fun _ h => ⟨h, rfl⟩, fun _ _ _ h => h⟩
  | retire hpc h => exact quiet_of_casEntry (fun hd => absurd rfl hd) h
  | @publish s e _ hpc h =>
    -- the entry it replaces is live already
    have hne := casEntry_ne_none h
    refine ⟨casEntry_ext h, fun i hi => ?_, fun t _ _ ht => ?_⟩
    · rcases liveAt_of_casEntry h hi with hlive | ⟨-, hnone, -⟩
      · exact ⟨hlive, by rw [casEntry_slots h]⟩
      · exact absurd hnone hne
    · by_cases hts : t = s
      · exact hts ▸ hne
      · rwa [casEntry_recs_of_ne h hts] at ht
  | @fill s old _ hpc h =>
    have hown : c.Owns kv s := by
      rcases hpc with ⟨rfl, -⟩ | rfl <;> exact hpcok
    refine quiet_of_casEntry (fun hd hks => hk ?_) h
    rw [← hks, hown.keyBytes hwf]
    exact c.inserts_of_freshEntry hd
  | @place x expected _ hpc h =>
    refine ⟨casSlot_ext h, fun i hi => ?_, fun t ht _ he => ?_⟩
    · rcases liveAt_of_casSlot hwf h hi with ⟨hix, hlive⟩ | ⟨-, he, hkey⟩
      · exact ⟨hlive, casSlot_slots_of_ne h hix⟩
      · rw [keyBytes_freshSlot hshort] at hkey
        exact absurd (hkey ▸ c.inserts_of_freshEntry he) hk
    · rwa [casSlot_recs_of_lt h ht] at he

/-- Every live record of `k` in the table is `r`. -/
def OnlyLive (kv : Lfkv V) (k : Bytes) (r : SlotId) : Prop :=
  ∀ i, LiveAt kv k i → kv.slots i = some r

/-- The table has no live record of `k`. -/
def NoLive (kv : Lfkv V) (k : Bytes) : Prop := ∀ i, ¬ LiveAt kv k i

theorem OnlyLive.mono {k : Bytes} {r : SlotId} (h : OnlyLive kv k r) (hq : Quiet k kv kv') :
    OnlyLive kv' k r := fun i hi => by
  rw [(hq.live i hi).2]
  exact h i (hq.live i hi).1

theorem NoLive.mono {k : Bytes} (h : NoLive kv k) (hq : Quiet k kv kv') : NoLive kv' k :=
  fun i hi => h i (hq.live i hi).1

/-! ## A deletion and the lookups after it -/

/-- What an `lfkv_del` of `k` knows while nobody inserts `k`. -/
def DelOk (kv : Lfkv V) (k : Bytes) : Pc V → Prop
  | .probe _ _ _ => True
  | .probeEntry _ _ _ r => slotKeyEq (kv.recs r) (bernsteinHash k) k = true →
      (kv.recs r).entry ≠ none → OnlyLive kv k r
  | .loadEntry r | .retire r _ => OnlyLive kv k r
  | .retireSub _ => NoLive kv k
  | .ret r => r = .int 1 → NoLive kv k
  | _ => False

/-- Where an `lfkv_get` of `k` can be while the table has no live record of `k`. -/
def GetOk (kv : Lfkv V) (k : Bytes) : Pc V → Prop
  | .probe _ _ _ => True
  | .probeEntry _ _ _ r => slotKeyEq (kv.recs r) (bernsteinHash k) k = true →
      (kv.recs r).entry = none
  | .ret r => r = .val none
  | _ => False

section Deletion

variable {k : Bytes} {pc : Pc V}

theorem DelOk.mono {c : Call V} (hwf : WF kv) (hpc : PcOk kv c pc) (h : DelOk kv k pc)
    (hq : Quiet k kv kv') : DelOk kv' k pc := by
  cases pc with
  | probeEntry p i tomb r =>
    have hr : r < kv.nrecs := hpc.2.2.2
    intro hkey hne
    rw [hq.ext.slotKeyEq hr] at hkey
    exact (h hkey (hq.entry r hr ((hwf.slotKeyEq_iff hr k).mp hkey) hne)).mono hq
  | loadEntry r | retire r e => exact OnlyLive.mono h hq
  | retireSub e => exact NoLive.mono h hq
  | ret r => exact fun hr => (h hr).mono hq
  | probe p i tomb => trivial
  | _ => exact h.elim

theorem GetOk.mono {c : Call V} (hwf : WF kv) (hpc : PcOk kv c pc) (h : GetOk kv k pc)
    (hq : Quiet k kv kv') : GetOk kv' k pc := by
  cases pc with
  | probe p i tomb => trivial
  | probeEntry p i tomb r =>
    have hr : r < kv.nrecs := hpc.2.2.2
    intro hkey
    rw [hq.ext.slotKeyEq hr] at hkey
    by_contra hne
    exact hq.entry r hr ((hwf.slotKeyEq_iff hr k).mp hkey) hne (h hkey)
  | ret r => exact h
  | _ => exact h.elim

theorem liveAt_of_key (hwf : WF kv) {i : ℕ} {r : SlotId} (hi : kv.slots i = some r)
    (hkey : slotKeyEq (kv.recs r) (bernsteinHash k) k = true) (he : (kv.recs r).entry ≠ none) :
    LiveAt kv k i := ⟨r, hi, he, (hwf.slotKeyEq_iff (hwf.recLt hi) k).mp hkey⟩

theorem delOk_probeNext (ok : Bool) (p i : ℕ) (tomb : Option ℕ) :
    DelOk kv k ((Call.del k : Call V).probeNext kv ok p i tomb) := by
  unfold Call.probeNext
  split
  · trivial
  · intro hr
    cases hr

theorem getOk_probeNext (ok : Bool) (p i : ℕ) (tomb : Option ℕ) :
    GetOk kv k ((Call.get k : Call V).probeNext kv ok p i tomb) := by
  unfold Call.probeNext
  split
  · trivial
  · rfl

variable [DecidableEq V]

/-- A step of `lfkv_del` itself. -/
theorem DelOk.step (hwf : WF kv) (hu : UniqueLive kv) {now : ℤ} (h : DelOk kv k pc)
    (hrun : idle (some ⟨.del k, now, pc⟩) = false) (ok : Bool) (addr : ℕ) :
    DelOk (step kv ⟨.del k, now, pc⟩ ok addr).1 k (step kv ⟨.del k, now, pc⟩ ok addr).2 := by
  cases pc with
  | probe p i tomb =>
    simp only [Lfkv.step]
    split
    · intro hr
      cases hr
    · rename_i r hr
      intro hkey he j hj
      obtain rfl := hu k i j (liveAt_of_key hwf hr hkey he) hj
      exact hr
  | probeEntry p i tomb r =>
    simp only [Lfkv.step]
    split
    · exact delOk_probeNext ok p i _
    · rename_i e he
      split
      · rename_i hkey
        exact h hkey (by simp [he])
      · exact delOk_probeNext ok p i _
  | loadEntry r =>
    simp only [Lfkv.step]
    cases (kv.recs r).entry with
    | none =>
      intro hr
      cases hr
    | some e => exact h
  | retire r e =>
    simp only [Lfkv.step]
    split
    · rename_i kv' hcas
      intro i hi
      rcases liveAt_of_casEntry hcas hi with hlive | ⟨-, -, hne, -⟩
      · obtain ⟨t, ht, he, -⟩ := hi
        rw [casEntry_slots hcas, h i hlive] at ht
        obtain rfl := Option.some.inj ht
        exact he (casEntry_entry hcas)
      · exact hne rfl
    · trivial
  | retireSub e => exact fun _ => h
  | ret r => cases hrun
  | _ => exact h.elim

/-- A step of an `lfkv_get` of a key that has no live record. -/
theorem GetOk.step (hwf : WF kv) (hno : NoLive kv k) {now : ℤ} (h : GetOk kv k pc) (ok : Bool)
    (addr : ℕ) :
    GetOk (step kv ⟨.get k, now, pc⟩ ok addr).1 k (step kv ⟨.get k, now, pc⟩ ok addr).2 := by
  cases pc with
  | probe p i tomb =>
    simp only [Lfkv.step]
    split
    · rfl
    · rename_i r hr
      intro hkey
      by_contra he
      exact hno i (liveAt_of_key hwf hr hkey he)
  | probeEntry p i tomb r =>
    simp only [Lfkv.step]
    split
    · exact getOk_probeNext ok p i _
    · rename_i e he
      split
      · rename_i hkey
        exact absurd (h hkey) (by simp [he])
      · exact getOk_probeNext ok p i _
  | ret r => exact h
  | _ => exact h.elim

end Deletion

/-! ## The system -/

section System

variable [DecidableEq V]

/-- `n` steps of the thread `t`, each with the address `addr` at hand. -/
def steps (t n addr : ℕ) : List (Label V) := List.replicate n (.step t true addr)

/-- A step allowed by `probeCurrent`: short keys, and no place filled on a stale probe. -/
def fillsCurrent (s : Sys V) : Label V → Bool
  | .invoke _ c _ _ => decide (c.key.length < 2 ^ 32)
  | .step t _ _ =>
    match s.threads t with
    | some th => probeCurrent s.kv th.call th.pc
    | none => true

omit [DecidableEq V] in
theorem shortKeys_of_fillsCurrent {s : Sys V} {l : Label V} (h : fillsCurrent s l = true) :
    ShortKeys l := by
  cases l with
  | invoke t c now ok =>
    have hlen : c.key.length < 2 ^ 32 := of_decide_eq_true h
    exact hlen
  | step t ok addr => trivial

/-- Reachable states when every step is allowed. -/
structure UInv (s : Sys V) : Prop extends Inv s where
  unique : UniqueLive s.kv

omit [DecidableEq V] in
theorem uinv_init (b : ℕ) (hb : b < 64) : UInv (Sys.init V b hb) :=
  ⟨inv_init b hb, fun _ _ _ h => by obtain ⟨s, hs, -⟩ := h; cases hs⟩

theorem UInv.next {s s' : Sys V} {l : Label V} (h : UInv s) (hl : fillsCurrent s l = true)
    (hs : s.next l = some s') : UInv s' := by
  refine ⟨h.toInv.next (shortKeys_of_fillsCurrent hl) hs, ?_⟩
  rcases Sys.next_cases hs with ⟨t, c, now, ok, rfl, -, rfl⟩ | ⟨t, ok, addr, th, rfl, hth, -, rfl⟩
  · exact h.unique
  · simp only [fillsCurrent, hth] at hl
    exact h.unique.step h.wf (h.short t th hth) (h.pcOk t th hth) hl (step_effect s.kv th ok addr)

/-- No call in progress may insert `k`. -/
def NoInserter (k : Bytes) (s : Sys V) : Prop :=
  ∀ t th, s.threads t = some th → idle (some th) = false → ¬ th.call.Inserts k

/-- The step does not start a call that may insert `k`. -/
def NotInserting (k : Bytes) : Label V → Prop
  | .invoke _ c _ _ => ¬ c.Inserts k
  | .step _ _ _ => True

/-- An allowed step that starts no insertion of `k`. -/
def QuietStep (k : Bytes) (s : Sys V) (l : Label V) : Prop :=
  fillsCurrent s l = true ∧ NotInserting k l

instance (k : Bytes) (c : Call V) : Decidable (c.Inserts k) := by
  unfold Call.Inserts
  split <;> infer_instance

instance (k : Bytes) (l : Label V) : Decidable (NotInserting k l) := by
  unfold NotInserting
  split <;> infer_instance

instance (k : Bytes) (s : Sys V) (l : Label V) : Decidable (QuietStep k s l) :=
  inferInstanceAs (Decidable (_ ∧ _))

/-- The states of a run during which nobody inserts `k`. -/
structure QInv (k : Bytes) (s : Sys V) : Prop extends UInv s where
  noInserter : NoInserter k s

theorem QInv.next {k : Bytes} {s s' : Sys V} {l : Label V} (h : QInv k s) (hl : QuietStep k s l)
    (hs : s.next l = some s') : QInv k s' ∧ Quiet k s.kv s'.kv := by
  have hu := h.toUInv.next hl.1 hs
  rcases Sys.next_cases hs with
    ⟨t, c, now, ok, rfl, -, rfl⟩ | ⟨t, ok, addr, th, rfl, hth, hrun, rfl⟩
  · refine ⟨⟨hu, fun u thu hthu hrunu => ?_⟩, .refl k _⟩
    by_cases hut : u = t
    · obtain rfl : _ = thu := by simpa [Sys.put, hut] using hthu
      exact hl.2
    · exact h.noInserter u thu (by simpa [Sys.put, Function.update_of_ne hut] using hthu) hrunu
  · have hins := h.noInserter t th hth hrun
    refine ⟨⟨hu, fun u thu hthu hrunu => ?_⟩, ?_⟩
    · by_cases hut : u = t
      · obtain rfl : _ = thu := by simpa [Sys.put, hut] using hthu
        exact hins
      · exact h.noInserter u thu (by simpa [Sys.put, Function.update_of_ne hut] using hthu) hrunu
    · exact (step_effect s.kv th ok addr).quiet h.wf (h.short t th hth) (h.pcOk t th hth) hins

theorem QInv.path {k : Bytes} {s s' : Sys V} {ls : List (Label V)} (h : QInv k s)
    (hp : Path Sys.next (QuietStep k) s ls s') : QInv k s' :=
  hp.invariant (fun _ _ _ hI hl hs => (hI.next hl hs).1) h

/-- What holds of a thread in a deletion of `k` holds at the end of a run without insertions. -/
theorem delOk_path {k : Bytes} {t : ℕ} {s s' : Sys V} {ls : List (Label V)} (h : QInv k s)
    (hd : ThreadOk (fun kv pc => DelOk kv k pc) (.del k) t s)
    (hp : Path Sys.next (QuietStep k) s ls s') :
    ThreadOk (fun kv pc => DelOk kv k pc) (.del k) t s' := by
  refine (hp.invariant (I := fun s => QInv k s ∧
    ThreadOk (fun kv pc => DelOk kv k pc) (.del k) t s) ?_ ⟨h, hd⟩).2
  rintro s l s' ⟨hq, hd⟩ hl hs
  obtain ⟨hq', hquiet⟩ := hq.next hl hs
  refine ⟨hq', hd.next hs (fun _ => trivial) ?_ fun now pc hth hpc => ?_⟩
  · intro now pc ok addr _ hrun hpc
    exact hpc.step hq.wf hq.unique hrun ok addr
  · exact hpc.mono hq.wf (hq.pcOk t _ hth) hquiet

/-- What holds of a thread in a lookup of the absent key `k` holds at the end of such a run. -/
theorem getOk_path {k : Bytes} {u : ℕ} {s s' : Sys V} {ls : List (Label V)} (h : QInv k s)
    (hno : NoLive s.kv k) (hg : ThreadOk (fun kv pc => GetOk kv k pc) (.get k) u s)
    (hp : Path Sys.next (QuietStep k) s ls s') :
    ThreadOk (fun kv pc => GetOk kv k pc) (.get k) u s' := by
  refine (hp.invariant (I := fun s => QInv k s ∧ NoLive s.kv k ∧
    ThreadOk (fun kv pc => GetOk kv k pc) (.get k) u s) ?_ ⟨h, hno, hg⟩).2.2
  rintro s l s' ⟨hq, hno, hg⟩ hl hs
  obtain ⟨hq', hquiet⟩ := hq.next hl hs
  refine ⟨hq', hno.mono hquiet, hg.next hs (fun _ => trivial) ?_ fun now pc hth hpc => ?_⟩
  · intro now pc ok addr _ _ hpc
    exact hpc.step hq.wf hno ok addr
  · exact hpc.mono hq.wf (hq.pcOk u _ hth) hquiet

theorem noLive_path {k : Bytes} {s s' : Sys V} {ls : List (Label V)} (h : QInv k s)
    (hno : NoLive s.kv k) (hp : Path Sys.next (QuietStep k) s ls s') : NoLive s'.kv k :=
  (hp.invariant (I := fun s => QInv k s ∧ NoLive s.kv k)
    (fun _ _ _ hI hl hs =>
      let hn := hI.1.next hl hs
      ⟨hn.1, hI.2.mono hn.2⟩) ⟨h, hno⟩).2

/-- The state after the first step of a run that starts the call `c` in thread `t`. -/
theorem path_cons_invoke {k : Bytes} {t : ℕ} {c : Call V} {now : ℤ} {ok : Bool} {s s' : Sys V}
    {ls : List (Label V)} (h : QInv k s)
    (hp : Path Sys.next (QuietStep k) s (.invoke t c now ok :: ls) s') :
    ∃ s₁, QInv k s₁ ∧ s₁ = s.put t s.kv ⟨c, now, c.start s.kv ok⟩ ∧
      Path Sys.next (QuietStep k) s₁ ls s' := by
  cases hp with
  | @cons _ s₁ _ _ _ hok hstep rest =>
    refine ⟨s₁, (h.next hok hstep).1, ?_, rest⟩
    rcases Sys.next_cases hstep with ⟨t', c', now', ok', hl, -, rfl⟩ | ⟨t', ok', addr, th, hl, -⟩
    · cases hl
      rfl
    · cases hl

/-- **At most one live record for a key, and deletions that last**: in every run whose steps fill
no place of the table on a stale probe, each key has at most one live record in every state; and
when an `lfkv_del` of `k` that no insertion of `k` overlaps returns 1, then as long as no
insertion of `k` starts the table has no live record of `k`, and every `lfkv_get` of `k` that
starts finds nothing. -/
theorem uniqueLive_of_probeCurrent {b : ℕ} {hb : b < 64} {ls : List (Label V)} {s : Sys V}
    (h : Path Sys.next (fun s l => fillsCurrent s l = true) (Sys.init V b hb) ls s) :
    UniqueLive s.kv ∧
      ∀ (k : Bytes) (t : ℕ) (now now' : ℤ) (ok : Bool) (ls₁ ls₂ : List (Label V)) (s₁ s₂ : Sys V),
        NoInserter k s → Path Sys.next (QuietStep k) s (.invoke t (.del k) now ok :: ls₁) s₁ →
        s₁.threads t = some ⟨.del k, now', .ret (.int 1)⟩ →
        Path Sys.next (QuietStep k) s₁ ls₂ s₂ →
        NoLive s₂.kv k ∧
          ∀ (u : ℕ) (now now' : ℤ) (ok : Bool) (ls₃ : List (Label V)) (s₃ : Sys V) (r : Ret V),
            Path Sys.next (QuietStep k) s₂ (.invoke u (.get k) now ok :: ls₃) s₃ →
            s₃.threads u = some ⟨.get k, now', .ret r⟩ → r = .val none := by
  have hu : UInv s := h.invariant (fun _ _ _ hI hl hs => hI.next hl hs) (uinv_init b hb)
  refine ⟨hu.unique, fun k t now now' ok ls₁ ls₂ s₁ s₂ hins hp₁ hret hp₂ => ?_⟩
  have hq : QInv k s := ⟨hu, hins⟩
  have hq₁ := hq.path hp₁
  -- the deletion, from its start to its return
  have hno₁ : NoLive s₁.kv k := by
    obtain ⟨s', hq', rfl, hp'⟩ := path_cons_invoke hq hp₁
    have hd : ThreadOk (fun kv pc => DelOk kv k pc) (.del k) t
        (s.put t s.kv ⟨.del k, now, (Call.del k).start s.kv ok⟩) := by
      intro now' pc hth
      simp only [Sys.put, Function.update_self, Option.some.injEq, Thread.mk.injEq] at hth
      obtain ⟨-, -, rfl⟩ := hth
      trivial
    exact delOk_path hq' hd hp' now' _ hret rfl
  have hno₂ := noLive_path hq₁ hno₁ hp₂
  refine ⟨hno₂, fun u now now' ok ls₃ s₃ r hp₃ hr => ?_⟩
  -- a lookup, from its start to its return
  obtain ⟨s', hq', rfl, hp'⟩ := path_cons_invoke (hq₁.path hp₂) hp₃
  have hg : ThreadOk (fun kv pc => GetOk kv k pc) (.get k) u
      (s₂.put u s₂.kv ⟨.get k, now, (Call.get k).start s₂.kv ok⟩) := by
    intro now' pc hth
    simp only [Sys.put, Function.update_self, Option.some.injEq, Thread.mk.injEq] at hth
    obtain ⟨-, -, rfl⟩ := hth
    trivial
  exact getOk_path hq' hno₂ hg hp' now' _ hr

end System

/-- Thread 0 writes the key `k`. -/
def setRun (k : Bytes) : List (Label ℕ) := .invoke 0 (.set k 10) 0 true :: steps 0 3 1

/-- A run that writes a key, deletes it and looks it up. -/
theorem uniqueLive_of_probeCurrent_deleted :
    ∃ s s₁ s₂ : Sys ℕ, LiveAt s.kv [107] 1 ∧ UniqueLive s.kv ∧
      s₁.threads 0 = some ⟨.del [107], 0, .ret (.int 1)⟩ ∧ NoLive s₁.kv [107] ∧
      s₂.threads 0 = some ⟨.get [107], 0, .ret (.val none)⟩ := by
  obtain ⟨s, s₁, s₂, h, h₁, h₂, hlive, hidle, hdel, r, hget⟩ : ∃ s s₁ s₂ : Sys ℕ,
      run (guarded Sys.next fillsCurrent) (Sys.init ℕ 2 (by decide)) (setRun [107]) = some s ∧
      run (guarded Sys.next fun s l => decide (QuietStep [107] s l)) s
        (.invoke 0 (.del [107]) 0 true :: steps 0 5 0) = some s₁ ∧
      run (guarded Sys.next fun s l => decide (QuietStep [107] s l)) s₁
        (.invoke 0 (.get [107]) 0 true :: steps 0 3 0) = some s₂ ∧
      LiveAt s.kv [107] 1 ∧
      (∀ t, idle (s.threads t) = true) ∧
      s₁.threads 0 = some ⟨.del [107], 0, .ret (.int 1)⟩ ∧
      ∃ r, s₂.threads 0 = some ⟨.get [107], 0, .ret r⟩ := by
    refine ⟨_, _, _, rfl, rfl, rfl, ⟨0, by decide, by decide, by decide⟩, ?_, rfl, _, rfl⟩
    intro t
    cases t with
    | zero => rfl
    | succ t => rfl
  have hno : NoInserter [107] s := fun t th hth hrun => by
    rw [← hth, hidle t] at hrun
    cases hrun
  obtain ⟨hu, hdeleted⟩ := uniqueLive_of_probeCurrent (path_of_run_guarded h)
  have hp₁ := (path_of_run_guarded h₁).mono (fun _ _ hl => of_decide_eq_true hl)
  have hp₂ := (path_of_run_guarded h₂).mono (fun _ _ hl => of_decide_eq_true hl)
  obtain ⟨hno, hfind⟩ := hdeleted [107] 0 0 0 true _ _ _ _ hno hp₁ hdel (.nil _)
  have hr := hfind 0 0 0 true _ _ _ hp₂ hget
  exact ⟨s, s₁, s₂, hlive, hu, hdel, hno, hr ▸ hget⟩

/-! ## Two writers with stale probes -/

/-- Thread 0 writes, deletes and writes the key `k`; thread 1 writes it too, with a probe that
ran before thread 0 recycled the tombstone, and takes the free slot after it. -/
def staleRun (k : Bytes) : List (Label ℕ) :=
  .invoke 0 (.set k 10) 0 true :: steps 0 3 1 ++ .invoke 0 (.del k) 0 true :: steps 0 5 0 ++
  .invoke 0 (.set k 11) 0 true :: steps 0 3 2 ++ .invoke 1 (.set k 12) 0 true :: steps 1 7 3 ++
  steps 0 4 4

/-- Thread 2 deletes the key and then looks it up. -/
def deleteThenGet (k : Bytes) : List (Label ℕ) :=
  .invoke 2 (.del k) 0 true :: steps 2 5 0 ++ .invoke 2 (.get k) 0 true :: steps 2 5 0

/-- **A key can have two live records**: after `staleRun` the key lives in the slots 1 and 2, and
a deletion that returns 1 is followed by a lookup that finds the key. -/
theorem exists_two_live :
    ∃ s s₁ s₂ : Sys ℕ,
      run Sys.next (Sys.init ℕ 2 (by decide)) (staleRun [107]) = some s ∧
      LiveAt s.kv [107] 1 ∧ LiveAt s.kv [107] 2 ∧ (∀ t < 3, idle (s.threads t) = true) ∧
      run Sys.next s (.invoke 2 (.del [107]) 0 true :: steps 2 5 0) = some s₁ ∧
      s₁.threads 2 = some ⟨.del [107], 0, .ret (.int 1)⟩ ∧
      run Sys.next s₁ (.invoke 2 (.get [107]) 0 true :: steps 2 5 0) = some s₂ ∧
      s₂.threads 2 = some ⟨.get [107], 0, .ret (.val (some 11))⟩ := by
  refine ⟨_, _, _, rfl, ⟨1, by decide, by decide, by decide⟩, ⟨2, by decide, by decide, by decide⟩,
    by decide, rfl, by decide, rfl, by decide⟩

end Alcove.Lfkv
