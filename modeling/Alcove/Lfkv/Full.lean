import Alcove.Lfkv.Refine

/-!
# Inserting into a table without free slots

Slot pointers never become `NULL` again, so deletions leave tombstones and a table can be without a
free slot while it has few entries. `lfkv_set` takes a tombstone for its record; `lfkv_set_nx` only
takes a free slot, and where there is none it returns 0, or probes for ever when a tombstone of its own
key is in its way. Nothing is assumed of the table here, nor of the lengths of keys.

**Main result:** `admits_iff_hasFree`. Both functions insert a key without a live entry exactly when
some slot is still free.
-/

namespace Alcove.Lfkv

open Lib

variable {V : Type*} {kv : Lfkv V} {k : Bytes} {now : ℤ}

/-- No entry that a probe for the key takes for its own is live. -/
def NoCurrent (kv : Lfkv V) (k : Bytes) (now : ℤ) : Prop :=
  ∀ i s e, kv.slots i = some s → (kv.recs s).entry = some e →
    slotKeyEq (kv.recs s) (bernsteinHash k) k = true → entryExpired e now = true

/-- The slot holds a tombstone. -/
def Dead (kv : Lfkv V) (i : ℕ) : Prop := ∃ s, kv.slots i = some s ∧ (kv.recs s).entry = none

/-! ## What a probe that fails has seen -/

theorem succ_lt (kv : Lfkv V) (i : ℕ) : kv.succ i < kv.nslots := by
  rw [succ, and_mask]
  exact Nat.mod_lt _ kv.nslots_pos

theorem home_lt (kv : Lfkv V) (h : UInt32) : kv.home h < kv.nslots := by
  rw [home_eq]
  exact kv.slotAt_lt h 0

theorem probeLoop_found_lt {h : UInt32} {p i j : ℕ} {tomb : Option ℕ} {s : SlotId}
    (hi : i < kv.nslots) (hf : kv.probeLoop h k p i tomb = .found j s) : j < kv.nslots := by
  induction p generalizing i tomb with
  | zero => cases hf
  | succ p ih =>
    unfold probeLoop at hf
    split at hf
    · cases hf
    · split at hf
      · exact ih (kv.succ_lt i) hf
      · split at hf
        · cases hf
          exact hi
        · exact ih (kv.succ_lt i) hf

/-- The tombstone that a probe returns is one. -/
theorem probeLoop_dead {h : UInt32} {p i j x : ℕ} {tomb : Option ℕ} (ht : ∀ y ∈ tomb, Dead kv y)
    (hf : kv.probeLoop h k p i tomb = .missing j (some x)) : Dead kv x := by
  induction p generalizing i tomb with
  | zero =>
    cases hf
    exact ht x rfl
  | succ p ih =>
    unfold probeLoop at hf
    split at hf
    · cases hf
      exact ht x rfl
    · rename_i s hs
      split at hf
      · rename_i he
        refine ih (fun y hy => ?_) hf
        cases tomb with
        | none =>
          obtain rfl : i = y := by simpa using hy
          exact ⟨s, hs, he⟩
        | some z => exact ht y (by simpa using hy)
      · split at hf
        · cases hf
        · exact ih ht hf

theorem probeLoop_some_tomb {h : UInt32} {p i j : ℕ} (y : ℕ) :
    kv.probeLoop h k p i (some y) ≠ .missing j none := by
  intro hf
  induction p generalizing i with
  | zero => cases hf
  | succ p ih =>
    unfold probeLoop at hf
    split at hf
    · cases hf
    · split at hf
      · exact ih hf
      · split at hf
        · cases hf
        · exact ih hf

/-- A probe that returns no tombstone has met a free slot, or entries only. -/
theorem probeLoop_no_tomb {h : UInt32} {p q j : ℕ} {tomb : Option ℕ}
    (hf : kv.probeLoop h k p (kv.slotAt h q) tomb = .missing j none) :
    kv.slots j = none ∨ ∀ m, q ≤ m → m < q + p → (kv.entryAt (kv.slotAt h m)).isSome = true := by
  induction p generalizing q tomb with
  | zero => exact .inr fun m hm hm' => by omega
  | succ p ih =>
    have hrec : ∀ {tomb' : Option ℕ}, (kv.entryAt (kv.slotAt h q)).isSome = true →
        kv.probeLoop h k p (kv.succ (kv.slotAt h q)) tomb' = .missing j none →
        kv.slots j = none ∨
          ∀ m, q ≤ m → m < q + (p + 1) → (kv.entryAt (kv.slotAt h m)).isSome = true := by
      intro tomb' hq hf'
      rw [kv.succ_slotAt] at hf'
      refine (ih hf').imp id fun hall m hm hm' => ?_
      rcases Nat.lt_or_eq_of_le hm with hlt | rfl
      · exact hall m hlt (by omega)
      · exact hq
    unfold probeLoop at hf
    split at hf
    · rename_i hs
      cases hf
      exact .inl hs
    · rename_i s hs
      split at hf
      · -- from here on there is a tombstone to return
        obtain ⟨y, hy⟩ : ∃ y, tomb.or (some (kv.slotAt h q)) = some y := by
          cases tomb with
          | none => exact ⟨_, rfl⟩
          | some y => exact ⟨y, rfl⟩
        rw [hy] at hf
        exact absurd hf (probeLoop_some_tomb y)
      · rename_i e he
        have hq : (kv.entryAt (kv.slotAt h q)).isSome = true := by
          rw [entryAt, hs, Option.bind_some, he, Option.isSome_some]
        split at hf
        · cases hf
        · exact hrec hq hf

theorem probe_missing_free (hfree : HasFree kv) {i : ℕ} {t : Option ℕ}
    (hp : kv.probe k = .missing i t) : kv.slots i = none := by
  obtain ⟨j, hj, hslot⟩ := hfree
  obtain ⟨q, hq, rfl⟩ := exists_slotAt (bernsteinHash k) hj
  rw [probe, kv.home_eq] at hp
  exact (probeLoop_missing (fun q hq => absurd hq (Nat.not_lt_zero q)) (by simp) (Nat.zero_le q)
    (by omega) hslot hp).2.1

/-- With room in the table, a failed probe has met a free slot or returns a tombstone. -/
theorem probe_missing_room (hroom : kv.liveSlots < kv.nslots) {i : ℕ}
    (hp : kv.probe k = .missing i none) : kv.slots i = none := by
  rw [probe, kv.home_eq] at hp
  refine (probeLoop_no_tomb hp).resolve_right fun hall => ?_
  refine absurd hroom (Nat.not_lt.mpr ?_)
  have hfilter : (Finset.range kv.nslots).filter (fun i => (kv.entryAt i).isSome) =
      Finset.range kv.nslots := by
    refine Finset.filter_true_of_mem fun i hi => ?_
    obtain ⟨q, hq, rfl⟩ := exists_slotAt (bernsteinHash k) (Finset.mem_range.mp hi)
    exact hall q (Nat.zero_le q) (by omega)
  rw [liveSlots, hfilter, Finset.card_range]

/-! ## The two functions -/

section Ends

variable [DecidableEq V] {Q : Lfkv V → Ret V → Prop} {v : V}

/-- A record is placed in a slot that is free. -/
theorem ends_claim_free {c : Call V} {i : ℕ} (hi : kv.slots i = none)
    (hQ : ∀ kv', Q kv' c.inserted) : Ends c now Q kv (.claim i) := by
  refine ends_step fun addr => ?_
  have hcas : ∃ kv', kv.casSlot i none (c.freshSlot addr) = some kv' := ⟨_, if_pos hi⟩
  obtain ⟨kv', hcas⟩ := hcas
  simp only [step, hcas]
  exact ends_step fun addr => ends_ret (hQ _)

/-- A record takes the place of a tombstone. -/
theorem ends_tomb {i x : ℕ} (hx : Dead kv x) (hQ : ∀ kv', Q kv' (.int 0)) :
    Ends (.set k v) now Q kv (.tombLoad i x) := by
  obtain ⟨old, hslot, hold⟩ := hx
  refine ends_step fun addr => ?_
  simp only [step, hslot]
  refine ends_step fun addr => ?_
  simp only [step, hold, Option.isNone_none, if_true]
  refine ends_step fun addr => ?_
  have hcas : ∃ kv', kv.casSlot x (some old) ((Call.set k v).freshSlot addr) = some kv' :=
    ⟨_, if_pos hslot⟩
  obtain ⟨kv', hcas⟩ := hcas
  simp only [step, hcas]
  exact ends_step fun addr => ends_ret (hQ _)

/-- `lfkv_set` returns 0 on a table with room. -/
theorem ends_set (hroom : kv.liveSlots < kv.nslots) :
    Ends (.set k v) now (fun _ r => r = .int 0) kv ((Call.set k v).start kv true) := by
  have hcas : ∀ addr s, ∃ kv', kv.casEntry s (kv.recs s).entry ((Call.set k v).freshEntry addr) =
      some kv' := fun _ _ => ⟨_, if_pos rfl⟩
  have hreplace : ∀ s, Ends (.set k v) now (fun _ r => r = .int 0) kv (.replaceCas s (kv.recs s).entry) :=
    fun s => ends_step fun addr => by
      obtain ⟨kv', hkv'⟩ := hcas addr s
      simp only [step, hkv']
      split
      · exact ends_step fun _ => ends_ret rfl
      · exact ends_ret rfl
  refine ends_probe ?_
  cases hp : kv.probe (Call.set k v).key with
  | found j s => exact ends_step fun _ => hreplace s
  | missing i t =>
    cases t with
    | none => exact ends_claim_free (probe_missing_room hroom hp) fun _ => rfl
    | some x => exact ends_tomb (probeLoop_dead (by simp) hp) fun _ => rfl

omit [DecidableEq V] in
/-- Without the entry of one of its records the table has fewer live slots. -/
theorem liveSlots_retire {i : ℕ} {s : SlotId} {e : LfEntry V} (hi : i < kv.nslots)
    (hs : kv.slots i = some s) (he : (kv.recs s).entry = some e) {kv' : Lfkv V}
    (hcas : kv.casEntry s (some e) none = some kv') : kv'.liveSlots < kv.liveSlots := by
  obtain ⟨-, rfl⟩ := casEntry_eq hcas
  rw [liveSlots, liveSlots]
  refine Finset.card_lt_card ⟨fun j hj => ?_, fun hsub => ?_⟩
  · rw [Finset.mem_filter] at hj ⊢
    refine ⟨hj.1, ?_⟩
    obtain ⟨e', he'⟩ := Option.isSome_iff_exists.mp hj.2
    obtain ⟨t, ht, hte⟩ := Option.bind_eq_some_iff.mp he'
    by_cases hts : t = s
    · simp [hts] at hte
    · simp only [Function.update_of_ne hts] at hte
      rw [entryAt, show kv.slots j = some t from ht, Option.bind_some, hte, Option.isSome_some]
  · have hmem := hsub (Finset.mem_filter.mpr
      ⟨Finset.mem_range.mpr hi, by rw [entryAt, hs, Option.bind_some, he, Option.isSome_some]⟩)
    simp [entryAt, hs] at hmem

omit [DecidableEq V] in
theorem NoCurrent.retire (h : NoCurrent kv k now) {s : SlotId} {e : LfEntry V} {kv' : Lfkv V}
    (hcas : kv.casEntry s (some e) none = some kv') : NoCurrent kv' k now := by
  obtain ⟨-, rfl⟩ := casEntry_eq hcas
  intro i t e' hi he' hkey
  by_cases hts : t = s
  · simp [hts] at he'
  · simp only [Function.update_of_ne hts] at he' hkey
    exact h i t e' hi he' hkey

/-- `lfkv_set_nx` returns 1 on a table with a free slot; it retires the expired entries it meets. -/
theorem ends_setNx : ∀ (n : ℕ) (kv : Lfkv V), kv.liveSlots < n → HasFree kv → NoCurrent kv k now →
    Ends (.setNx k v) now (fun _ r => r = .int 1) kv ((Call.setNx k v).probeStart kv) := by
  intro n
  induction n with
  | zero => exact fun kv hn => absurd hn (Nat.not_lt_zero _)
  | succ n ih =>
    intro kv hn hfree hno
    refine ends_probe ?_
    cases hp : kv.probe (Call.setNx k v).key with
    | missing i t => exact ends_claim_free (probe_missing_free hfree hp) fun _ => rfl
    | found j s =>
      obtain ⟨hj, he, hkey⟩ := probeLoop_found hp
      have hlt : j < kv.nslots := probeLoop_found_lt (kv.home_lt _) hp
      obtain ⟨e, he⟩ := Option.ne_none_iff_exists'.mp he
      have hexp := hno j s e hj he hkey
      have hload : ∀ addr, step kv ⟨.setNx k v, now, .loadEntry s⟩ true addr = (kv, .retire s e) :=
        fun addr => by simp [step, he, Call.loaded, hexp]
      refine ends_step fun addr => ?_
      rw [show (Call.setNx k v).afterProbe (.found j s) = .loadEntry s from rfl, hload]
      obtain ⟨kv', hcas⟩ := casEntry_of_eq he none
      refine ends_step fun addr => ?_
      simp only [step, hcas]
      refine ends_step fun addr => ?_
      have hlive : kv'.liveSlots < n :=
        Nat.lt_of_lt_of_le (liveSlots_retire hlt hj he hcas) (Nat.le_of_lt_succ hn)
      have hno' : NoCurrent kv' k now := hno.retire hcas
      have hfree' : HasFree kv'.countSub := by
        obtain ⟨-, rfl⟩ := casEntry_eq hcas
        exact hfree
      exact ih kv'.countSub hlive hfree' hno'

/-- Where `lfkv_set_nx` is on a table without a free slot. -/
structure Refusing (k : Bytes) (now : ℤ) (kv : Lfkv V) : Prop where
  taken : ¬ HasFree kv
  noCurrent : NoCurrent kv k now

/-- The program points of `lfkv_set_nx` on such a table. -/
def RefusingPc (now : ℤ) (kv : Lfkv V) : Pc V → Prop
  | .probe _ i _ | .claim i | .scan _ i => i < kv.nslots
  | .probeEntry _ i _ s => i < kv.nslots ∧ kv.slots i = some s
  | .loadEntry s => ∃ e, (kv.recs s).entry = some e ∧ entryExpired e now = true
  | .retire s e => (kv.recs s).entry = some e
  | .retireSub _ => True
  | .ret r => r = .int 0
  | _ => False

omit [DecidableEq V] in
theorem Refusing.slot (h : Refusing k now kv) {i : ℕ} (hi : i < kv.nslots) :
    ∃ s, kv.slots i = some s :=
  Option.ne_none_iff_exists'.mp fun hnone => h.taken ⟨i, hi, hnone⟩

omit [DecidableEq V] in
theorem refusing_probeNext (p : ℕ) (i : ℕ) (tomb : Option ℕ) :
    RefusingPc now kv ((Call.setNx k v).probeNext kv true p i tomb) := by
  unfold Call.probeNext
  split
  · exact kv.succ_lt i
  · exact kv.home_lt _

theorem refusing_step (h : Refusing k now kv) {pc : Pc V} (hpc : RefusingPc now kv pc) (addr : ℕ) :
    Refusing k now (step kv ⟨.setNx k v, now, pc⟩ true addr).1 ∧
      RefusingPc now (step kv ⟨.setNx k v, now, pc⟩ true addr).1
        (step kv ⟨.setNx k v, now, pc⟩ true addr).2 := by
  cases pc with
  | probe p i tomb =>
    obtain ⟨s, hs⟩ := h.slot hpc
    simp only [step, hs]
    exact ⟨h, hpc, hs⟩
  | probeEntry p i tomb s =>
    obtain ⟨hi, hs⟩ := hpc
    cases he : (kv.recs s).entry with
    | none =>
      simp only [step, he]
      exact ⟨h, refusing_probeNext p i _⟩
    | some e =>
      simp only [step, he]
      split
      · rename_i hkey
        exact ⟨h, e, he, h.noCurrent i s e hs he hkey⟩
      · exact ⟨h, refusing_probeNext p i _⟩
  | loadEntry s =>
    obtain ⟨e, he, hexp⟩ := hpc
    have hload : (Call.setNx k v).loaded now true s (some e) = .retire s e := by
      simp [Call.loaded, hexp]
    simp only [step, he, hload]
    exact ⟨h, he⟩
  | retire s e =>
    obtain ⟨kv', hcas⟩ := casEntry_of_eq (show (kv.recs s).entry = some e from hpc) none
    simp only [step, hcas]
    refine ⟨⟨?_, h.noCurrent.retire hcas⟩, trivial⟩
    obtain ⟨-, rfl⟩ := casEntry_eq hcas
    exact h.taken
  | retireSub e => exact ⟨⟨h.taken, h.noCurrent⟩, kv.home_lt _⟩
  | claim i =>
    obtain ⟨s, hs⟩ := h.slot hpc
    have hcas : kv.casSlot i none ((Call.setNx k v).freshSlot addr) = none := by
      rw [casSlot, hs, if_neg (by simp)]
    simp only [step, hcas, hs]
    split
    · exact ⟨h, kv.home_lt _⟩
    · exact ⟨h, kv.succ_lt i⟩
  | scan p i =>
    obtain ⟨s, hs⟩ := h.slot hpc
    simp only [step, hs]
    split
    · exact ⟨h, kv.home_lt _⟩
    · split
      · exact ⟨h, kv.succ_lt i⟩
      · exact ⟨h, rfl⟩
  | ret r => exact ⟨h, hpc⟩
  | _ => exact hpc.elim

/-- `lfkv_set_nx` never returns 1 on a table without a free slot. -/
theorem not_ends_setNx (h : Refusing k now kv) :
    ¬ Ends (.setNx k v) now (fun _ r => r = .int 1) kv ((Call.setNx k v).start kv true) := by
  refine Inevitable.not_of_invariant
    (J := fun x => Refusing k now x.1 ∧ RefusingPc now x.1 x.2) (fun x addr hx => ?_) ?_
    ⟨h, kv.home_lt _⟩
  · exact refusing_step hx.1 hx.2 addr
  · rintro ⟨kv', pc⟩ ⟨-, hpc⟩ ⟨r, hr, rfl⟩
    rw [show pc = .ret (.int 1) from hr] at hpc
    have hone : (1 : ℤ) = 0 := Ret.int.inj hpc
    cases hone

/-- `lfkv_set_nx` ends and returns 1, and `lfkv_set` ends and returns 0. -/
def Admits (kv : Lfkv V) (k : Bytes) (v : V) (now : ℤ) : Prop :=
  Ends (.setNx k v) now (fun _ r => r = .int 1) kv ((Call.setNx k v).start kv true) ∧
    Ends (.set k v) now (fun _ r => r = .int 0) kv ((Call.set k v).start kv true)

theorem admits_iff_hasFree (hno : NoCurrent kv k now) (hroom : kv.liveSlots < kv.nslots) :
    Admits kv k v now ↔ HasFree kv := by
  refine ⟨fun h => ?_, fun h => ⟨ends_setNx _ kv (Nat.lt_succ_self _) h hno, ends_set hroom⟩⟩
  by_contra hfull
  exact not_ends_setNx ⟨hfull, hno⟩ h.1

end Ends

/-! ## A deleted key that is not taken again -/

/-- On a table of one slot, a key is set and deleted. -/
def setAndDelete : List (Label ℕ) :=
  .invoke 0 (.set [97] 7) 0 true :: List.replicate 3 (.step 0 true 1) ++
    .invoke 0 (.del [97]) 0 true :: List.replicate 5 (.step 0 true 2)

/-- Then no slot holds an entry, and `lfkv_set_nx` of the key does not return 1. -/
theorem setNx_refused : ∃ s, run Sys.next (Sys.init ℕ 0 (by decide)) setAndDelete = some s ∧
    NoCurrent s.kv [97] 0 ∧ s.kv.liveSlots < s.kv.nslots ∧ ¬ Admits s.kv [97] 8 0 := by
  obtain ⟨s, hs, hslot, hentry, hn⟩ : ∃ s, run Sys.next (Sys.init ℕ 0 (by decide)) setAndDelete =
      some s ∧ s.kv.slots 0 = some 0 ∧
      (∀ t, (s.kv.recs t).entry = none) ∧ s.kv.nslots = 1 := by
    refine ⟨_, rfl, rfl, fun t => ?_, rfl⟩
    cases t with
    | zero => rfl
    | succ t => rfl
  have hno : NoCurrent s.kv [97] 0 := fun i t e _ he => by rw [hentry t] at he; cases he
  have hfull : ¬ HasFree s.kv := by
    rintro ⟨i, hi, hnone⟩
    obtain rfl : i = 0 := by omega
    rw [hslot] at hnone
    cases hnone
  refine ⟨s, hs, hno, ?_, fun h => not_ends_setNx ⟨hfull, hno⟩ h.1⟩
  rw [hn, liveSlots, Finset.filter_eq_empty_iff.mpr fun i _ => ?_]
  · exact Nat.one_pos
  · cases hi : s.kv.slots i with
    | none => simp [entryAt, hi]
    | some t => simp [entryAt, hi, hentry t]

/-- On the new table of one slot both functions insert. -/
theorem new_table_admits : Admits (lfkvNew ℕ 0 (by decide)) [97] 8 0 :=
  (admits_iff_hasFree (fun _ _ _ h => by cases h) (by decide)).mpr ⟨0, by decide, rfl⟩

end Alcove.Lfkv
