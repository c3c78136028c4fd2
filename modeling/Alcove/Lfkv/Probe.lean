import Alcove.Lfkv.Invariant

/-!
# What a probe finds

`LiveAt kv k i`: slot `i` points to a record for the key `k` whose entry is not `NULL`. On a well
formed table the probe finds a live record exactly when there is one (`probe_of_live`,
`probe_found`).
-/

namespace Alcove.Lfkv

variable {V : Type*} {kv : Lfkv V}

/-- Slot `i` holds a live record with the stored key bytes `k`. -/
def LiveAt (kv : Lfkv V) (k : Bytes) (i : ℕ) : Prop :=
  ∃ s, kv.slots i = some s ∧ (kv.recs s).entry ≠ none ∧ (kv.recs s).keyBytes = k

theorem WF.slotKeyEq_iff (hwf : WF kv) {s : SlotId} (hs : s < kv.nrecs) (k : Bytes) :
    slotKeyEq (kv.recs s) (bernsteinHash k) k = true ↔ (kv.recs s).keyBytes = k := by
  rw [(hwf.recOk s hs).slotKeyEq_iff, (hwf.recOk s hs).keyBytes]

theorem Call.Owns.keyBytes (hwf : WF kv) {c : Call V} {s : SlotId} (h : c.Owns kv s) :
    (kv.recs s).keyBytes = c.key := (hwf.slotKeyEq_iff h.1 c.key).mp h.2

/-- A record that the probe loop returns is live and has the key. -/
theorem probeLoop_found {h : UInt32} {k : Bytes} {p i j : ℕ} {tomb : Option ℕ} {s : SlotId}
    (hf : kv.probeLoop h k p i tomb = .found j s) :
    kv.slots j = some s ∧ (kv.recs s).entry ≠ none ∧ slotKeyEq (kv.recs s) h k = true := by
  induction p generalizing i tomb with
  | zero => cases hf
  | succ p ih =>
    unfold probeLoop at hf
    split at hf
    · cases hf
    · rename_i t ht
      split at hf
      · exact ih hf
      · rename_i e he
        split at hf
        · rename_i hkey
          obtain ⟨rfl, rfl⟩ := ProbeResult.found.inj hf
          exact ⟨ht, by simp [he], hkey⟩
        · exact ih hf

theorem probe_found (hwf : WF kv) {k : Bytes} {j : ℕ} {s : SlotId}
    (hf : kv.probe k = .found j s) : kv.slots j = some s ∧ LiveAt kv k j := by
  obtain ⟨hj, he, hkey⟩ := probeLoop_found hf
  exact ⟨hj, s, hj, he, (hwf.slotKeyEq_iff (hwf.recLt hj) k).mp hkey⟩

/-- The probe loop does not pass a live record of the key. -/
theorem probeLoop_of_live {h : UInt32} {k : Bytes} {m : ℕ} {s : SlotId}
    (hc : kv.Covered h m) (hm : kv.slots (kv.slotAt h m) = some s)
    (he : (kv.recs s).entry ≠ none) (hkey : slotKeyEq (kv.recs s) h k = true) :
    ∀ (p q : ℕ) (tomb : Option ℕ), q ≤ m → m < q + p →
      ∃ j t, kv.probeLoop h k p (kv.slotAt h q) tomb = .found j t := by
  intro p
  induction p with
  | zero =>
    intro q tomb hqm hmq
    omega
  | succ p ih =>
    intro q tomb hqm hmq
    rcases Nat.lt_or_eq_of_le hqm with hlt | rfl
    · obtain ⟨t, ht⟩ := Option.ne_none_iff_exists'.mp (hc q hlt)
      have hnext : ∀ tomb', ∃ j t, kv.probeLoop h k p (kv.succ (kv.slotAt h q)) tomb' = .found j t :=
        fun tomb' => by
          rw [kv.succ_slotAt]
          exact ih (q + 1) tomb' hlt (by omega)
      unfold probeLoop
      rw [ht]
      dsimp only
      split
      · exact hnext _
      · split
        · exact ⟨_, _, rfl⟩
        · exact hnext _
    · obtain ⟨e, hee⟩ := Option.ne_none_iff_exists'.mp he
      refine ⟨kv.slotAt h q, s, ?_⟩
      unfold probeLoop
      simp only [hm, hee, hkey, if_true]

/-- **A probe finds a live record of its key when there is one.** -/
theorem probe_of_live (hwf : WF kv) {k : Bytes} {i : ℕ} (hi : LiveAt kv k i) :
    ∃ j s, kv.probe k = .found j s := by
  obtain ⟨s, hs, he, hk⟩ := hi
  have hkey := (hwf.slotKeyEq_iff (hwf.recLt hs) k).mpr hk
  have hpath := hwf.onPath hs
  have hhash : (kv.recs s).khash = bernsteinHash k := by
    rw [← hk, (hwf.recOk s (hwf.recLt hs)).keyBytes]
    exact (hwf.recOk s (hwf.recLt hs)).khash
  rw [hhash] at hpath
  obtain ⟨m, hlt, rfl, hc⟩ := hpath.exists_lt
  rw [probe, kv.home_eq]
  exact probeLoop_of_live hc hs he hkey kv.nslots 0 none (Nat.zero_le m) (by omega)

theorem probe_missing_of_not_live (hwf : WF kv) {k : Bytes} (h : ∀ i, ¬ LiveAt kv k i) :
    ∃ i tomb, kv.probe k = .missing i tomb := by
  cases hp : kv.probe k with
  | found j s => exact absurd (probe_found hwf hp).2 (h j)
  | missing i tomb => exact ⟨i, tomb, rfl⟩

end Alcove.Lfkv
