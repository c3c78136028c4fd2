import Alcove.Lfkv.Solo

/-!
# One thread refines a finite map

The calls that go through the whole table retire the pairs they hit (`ends_sweep`) or list them
(`ends_each`); with the calls on one key, every call run alone on a table with a free slot answers
as the map does (`ends_answers`). A sequence of such calls on a new table is a run of the map
(`soloRun_refines`).
-/

namespace Alcove.Lfkv

open Lib

variable {V : Type*} {kv kv' : Lfkv V} {m : KeyMap V}

section Ends

variable [DecidableEq V] {c : Call V} {now : ℤ} {Q : Lfkv V → Ret V → Prop}

/-! ## The calls on the whole table -/

/-- The pairs that a sweep retires. -/
def Call.hits (c : Call V) (now : ℤ) (q : V × ℤ) : Bool :=
  match c with
  | .clear => true
  | _ => expired q.2 now

/-- What a sweep returns after evicting `n` entries. -/
def Call.swept (c : Call V) (n : ℕ) : Ret V :=
  match c with
  | .evictExpired => .int n
  | _ => .int 0

/-- The pair of `k` was in one of the first `i` slots, and the sweep retires it. -/
def HitBelow (p : V × ℤ → Bool) (kv : Lfkv V) (i : ℕ) (k : Bytes) : Prop :=
  ∃ j < i, ∃ e, LiveEntry kv j k e ∧ p (e.val, e.expiryUs) = true

/-- A sweep of `kv₀` has passed the first `i` slots, with `n` entries evicted. -/
structure Swept (p : V × ℤ → Bool) (kv₀ : Lfkv V) (m₀ : KeyMap V) (i n : ℕ) (kv : Lfkv V) :
    Prop where
  nslots : kv.nslots = kv₀.nslots
  rest : ∀ j ≥ i, ∀ k e, LiveEntry kv j k e ↔ LiveEntry kv₀ j k e
  tracks : ∃ m, Tracks kv m ∧ (∀ k, HitBelow p kv₀ i k → m.find k = none) ∧
    ∀ k, ¬ HitBelow p kv₀ i k → m.find k = m₀.find k
  count : n =
    ((Finset.range i).filter fun j => (kv₀.entryAt j).any fun e => p (e.val, e.expiryUs)).card

section Swept

variable {p : V × ℤ → Bool} {kv₀ : Lfkv V} {m₀ : KeyMap V} {i n : ℕ}

omit [DecidableEq V]

theorem hitBelow_succ {k : Bytes} : HitBelow p kv (i + 1) k ↔
    HitBelow p kv i k ∨ ∃ e, LiveEntry kv i k e ∧ p (e.val, e.expiryUs) = true := by
  constructor
  · rintro ⟨j, hj, he⟩
    rcases Nat.lt_succ_iff_lt_or_eq.mp hj with hlt | rfl
    · exact .inl ⟨j, hlt, he⟩
    · exact .inr he
  · rintro (⟨j, hj, he⟩ | he)
    · exact ⟨j, by omega, he⟩
    · exact ⟨i, Nat.lt_succ_self i, he⟩

theorem swept_zero (h : Tracks kv m) : Swept p kv m 0 0 kv where
  nslots := rfl
  rest := fun _ _ _ _ => Iff.rfl
  tracks := by
    refine ⟨m, h, fun k hk => ?_, fun _ _ => rfl⟩
    obtain ⟨j, hj, -⟩ := hk
    omega
  count := by simp

/-- A slot that is not hit is passed. -/
theorem Swept.skip (h : Swept p kv₀ m₀ i n kv)
    (hmiss : ∀ k e, LiveEntry kv₀ i k e → p (e.val, e.expiryUs) = false) :
    Swept p kv₀ m₀ (i + 1) n kv where
  nslots := h.nslots
  rest := fun j hj => h.rest j (by omega)
  tracks := by
    obtain ⟨m, hm, hgone, hkept⟩ := h.tracks
    have hiff : ∀ k, HitBelow p kv₀ (i + 1) k ↔ HitBelow p kv₀ i k := by
      intro k
      rw [hitBelow_succ, or_iff_left]
      rintro ⟨e, he, hp⟩
      rw [hmiss k e he] at hp
      cases hp
    exact ⟨m, hm, fun k hk => hgone k ((hiff k).mp hk), fun k hk => hkept k fun h => hk ((hiff k).mpr h)⟩
  count := by
    have hnone : ((kv₀.entryAt i).any fun e => p (e.val, e.expiryUs)) = false := by
      rw [Option.any_eq_false]
      intro e he
      obtain ⟨k, hk⟩ := entryAt_eq_some he
      simpa using hmiss k e hk
    rw [Finset.range_add_one, Finset.filter_insert, hnone, h.count]
    rfl

/-- A slot that is hit is passed, and its entry retired. -/
theorem Swept.hit (h : Swept p kv₀ m₀ i n kv) {s : SlotId} {e : LfEntry V}
    (hi : kv.slots i = some s) (he : (kv.recs s).entry = some e)
    (hp : p (e.val, e.expiryUs) = true) :
    ∃ kv', kv.casEntry s (some e) none = some kv' ∧
      Swept p kv₀ m₀ (i + 1) (n + 1) kv'.countSub := by
  obtain ⟨m, hm, hgone, hkept⟩ := h.tracks
  obtain ⟨kv', hcas, htracks, -⟩ := hm.retire hi he rfl
  have hset := setAt_of_casEntry hm.wf hi rfl hcas
  have hlive : LiveEntry kv₀ i (kv.recs s).keyBytes e :=
    (h.rest i (Nat.le_refl i) _ _).mp ⟨s, hi, he, rfl⟩
  refine ⟨kv', hcas, hset.nslots.trans h.nslots, fun j hj k e' => ?_,
    ⟨_, htracks, fun k hk => ?_, fun k hk => ?_⟩, ?_⟩
  · have hold : LiveEntry kv' j k e' ↔ LiveEntry kv j k e' := hset.other j (by omega) k e'
    exact hold.trans (h.rest j (by omega) k e')
  · by_cases hkk : k = (kv.recs s).keyBytes
    · simp [KeyMap.update, hkk]
    · rcases hitBelow_succ.mp hk with hk | ⟨e', he', -⟩
      · simpa [KeyMap.update, Function.update_of_ne hkk] using hgone k hk
      · exact absurd (he'.key_unique hlive).1 hkk
  · rw [hitBelow_succ, not_or] at hk
    have hkk : k ≠ (kv.recs s).keyBytes := by
      rintro rfl
      exact hk.2 ⟨e, hlive, hp⟩
    simpa [KeyMap.update, Function.update_of_ne hkk] using hkept k hk.1
  · have hany : ((kv₀.entryAt i).any fun e => p (e.val, e.expiryUs)) = true := by
      rw [hlive.entryAt, Option.any_some, hp]
    rw [Finset.range_add_one, Finset.filter_insert, if_pos hany, h.count,
      Finset.card_insert_of_notMem (by simp)]

/-- A sweep that has passed every slot. -/
theorem Swept.done (h₀ : Tracks kv₀ m₀) (h : Swept p kv₀ m₀ kv₀.nslots n kv) :
    Tracks kv (m₀.remove p) ∧ n = m₀.countPairs p := by
  obtain ⟨m, hm, hgone, hkept⟩ := h.tracks
  have hhit : ∀ k v x, m₀.find k = some (v, x) →
      (HitBelow p kv₀ kv₀.nslots k ↔ p (v, x) = true) := by
    intro k v x hk
    obtain ⟨i, e, hi, rfl, rfl⟩ := (h₀.find k v x).mp hk
    constructor
    · rintro ⟨j, -, e', he', hp⟩
      obtain rfl := h₀.unique k i j hi.liveAt he'.liveAt
      rwa [(hi.key_unique he').2]
    · intro hp
      obtain ⟨s, hs, -⟩ := id hi
      exact ⟨i, h₀.wf.lt hs, e, hi, hp⟩
  have hrem : m = m₀.remove p := by
    ext1
    funext k
    show m.find k = (m₀.find k).filter fun q => !p q
    cases hk : m₀.find k with
    | none =>
      have hnot : ¬ HitBelow p kv₀ kv₀.nslots k := by
        rintro ⟨j, -, e, he, -⟩
        rw [h₀.find_of_live he] at hk
        cases hk
      rw [hkept k hnot, hk]
      rfl
    | some q =>
      have hq := hhit k q.1 q.2 hk
      cases hp : p q with
      | true =>
        rw [hgone k (hq.mpr hp)]
        simp [Option.filter, hp]
      | false =>
        have hnot : ¬ HitBelow p kv₀ kv₀.nslots k := by
          rw [hq, hp]
          exact Bool.false_ne_true
        rw [hkept k hnot, hk]
        simp [Option.filter, hp]
  exact ⟨hrem ▸ hm, by rw [h.count, h₀.countPairs]⟩

end Swept

/-- **A sweep retires the pairs it hits, and counts them.** -/
theorem ends_sweep {kv₀ : Lfkv V} {m₀ : KeyMap V} (h₀ : Tracks kv₀ m₀) (hc : c.Sweeps) :
    ∀ {d i n : ℕ} {kv : Lfkv V}, i + d = kv₀.nslots → 0 < d →
      Swept (c.hits now) kv₀ m₀ i n kv →
      Ends c now (fun kv' r => Tracks kv' (m₀.remove (c.hits now)) ∧
        r = c.swept (m₀.countPairs (c.hits now))) kv (.sweep i n) := by
  intro d
  induction d with
  | zero => intro i n kv _ hd; omega
  | succ d ih =>
    intro i n kv hd _ h
    -- what follows when slot `i` has been passed
    have hnext : ∀ {n : ℕ} {kv kv' : Lfkv V}, kv'.nslots = kv₀.nslots →
        Swept (c.hits now) kv₀ m₀ (i + 1) n kv →
        Ends c now (fun kv' r => Tracks kv' (m₀.remove (c.hits now)) ∧
          r = c.swept (m₀.countPairs (c.hits now))) kv (c.sweepNext kv' i n) := by
      intro n kv kv' hn h
      unfold Call.sweepNext
      split
      · exact ih (by omega) (by omega) h
      · have hi : i + 1 = kv₀.nslots := by omega
        rw [hi] at h
        obtain ⟨htracks, rfl⟩ := h.done h₀
        cases c with
        | evictExpired => exact ends_ret ⟨htracks, rfl⟩
        | clear => exact ends_ret ⟨htracks, rfl⟩
        | _ => exact hc.elim
    refine ends_step fun addr => ?_
    cases hs : kv.slots i with
    | none =>
      simp only [step, hs]
      refine hnext h.nslots (h.skip fun k e he => ?_)
      obtain ⟨s, hs', -⟩ := (h.rest i le_rfl k e).mpr he
      rw [hs] at hs'
      cases hs'
    | some s =>
      simp only [step, hs]
      refine ends_step fun addr => ?_
      cases he : (kv.recs s).entry with
      | none =>
        simp only [step, he]
        refine hnext h.nslots (h.skip fun k e he' => ?_)
        obtain ⟨s', hs', he', -⟩ := (h.rest i le_rfl k e).mpr he'
        obtain rfl := Option.some.inj (hs.symm.trans hs')
        rw [he] at he'
        cases he'
      | some e =>
        have hhit : (c = .clear ∨ entryExpired e now = true) ↔
            c.hits now (e.val, e.expiryUs) = true := by
          cases c with
          | evictExpired => simp [Call.hits, entryExpired, expired]
          | clear => simp [Call.hits]
          | _ => exact hc.elim
        simp only [step, he]
        split
        · rename_i hcond
          refine ends_step fun addr => ?_
          obtain ⟨kv', hcas, h'⟩ := h.hit hs he (hhit.mp hcond)
          simp only [step, hcas]
          refine ends_step fun addr => ?_
          exact hnext ((casEntry_ext hcas).nslots.trans h.nslots) h'
        · rename_i hcond
          refine hnext h.nslots (h.skip fun k e' he' => ?_)
          obtain ⟨s', hs', he'', -⟩ := (h.rest i le_rfl k e').mpr he'
          obtain rfl := Option.some.inj (hs.symm.trans hs')
          obtain rfl := Option.some.inj (he.symm.trans he'')
          exact Bool.eq_false_iff.mpr fun hp => hcond (hhit.mpr hp)

/-- What `lfkv_foreach` has listed after the first `i` slots. -/
def listed (kv : Lfkv V) (now : ℤ) (i : ℕ) : List (Bytes × V × ℤ) :=
  (List.range i).flatMap fun j =>
    match kv.entryAt j with
    | some e => if entryExpired e now then [] else [(kv.keyAt j, e.val, e.expiryUs)]
    | none => []

section Listed

omit [DecidableEq V]

theorem listed_succ_of_none {i : ℕ} (h : ∀ e, kv.entryAt i = some e → entryExpired e now = true) :
    kv.listed now (i + 1) = kv.listed now i := by
  rw [listed, List.range_succ, List.flatMap_append, List.flatMap_singleton]
  cases he : kv.entryAt i with
  | none => exact List.append_nil _
  | some e =>
    dsimp only
    rw [if_pos (h e he)]
    exact List.append_nil _

theorem listed_succ_of_some {i : ℕ} {e : LfEntry V} (he : kv.entryAt i = some e)
    (hlive : entryExpired e now = false) :
    kv.listed now (i + 1) = kv.listed now i ++ [(kv.keyAt i, e.val, e.expiryUs)] := by
  rw [listed, List.range_succ, List.flatMap_append, List.flatMap_singleton, he]
  dsimp only
  rw [if_neg (by simp [hlive])]
  rfl

theorem mem_listed (h : Abs kv m) {k : Bytes} {v : V} {x : ℤ} :
    (k, v, x) ∈ kv.listed now kv.nslots ↔ m.find k = some (v, x) ∧ expired x now = false := by
  rw [listed, List.mem_flatMap]
  constructor
  · rintro ⟨j, -, hj⟩
    cases he : kv.entryAt j with
    | none => simp [he] at hj
    | some e =>
      obtain ⟨k', hk'⟩ := entryAt_eq_some he
      simp only [he] at hj
      split at hj
      · cases hj
      · rename_i hlive
        rw [List.mem_singleton, hk'.keyAt] at hj
        cases hj
        exact ⟨h.find_of_live hk', Bool.eq_false_iff.mpr hlive⟩
  · rintro ⟨hk, hx⟩
    obtain ⟨j, e, hj, rfl, rfl⟩ := (h.find k v x).mp hk
    have hlive : entryExpired e now = false := hx
    have hlt : j < kv.nslots := by
      obtain ⟨s, hs, -⟩ := id hj
      exact h.wf.lt hs
    refine ⟨j, List.mem_range.mpr hlt, ?_⟩
    simp [hj.entryAt, hj.keyAt, hlive]

theorem nodup_listed (h : Abs kv m) : ((kv.listed now kv.nslots).map Prod.fst).Nodup := by
  have hkey : ∀ j k, k ∈ List.map Prod.fst (match kv.entryAt j with
      | some e => if entryExpired e now then [] else [(kv.keyAt j, e.val, e.expiryUs)]
      | none => []) → LiveAt kv k j := by
    intro j k hk
    cases he : kv.entryAt j with
    | none => simp [he] at hk
    | some e =>
      obtain ⟨k', hk'⟩ := entryAt_eq_some he
      simp only [he] at hk
      split at hk
      · cases hk
      · obtain rfl : k = k' := by simpa [hk'.keyAt] using hk
        exact hk'.liveAt
  rw [listed, List.map_flatMap, List.nodup_flatMap]
  refine ⟨fun j _ => ?_, ?_⟩
  · cases kv.entryAt j with
    | none => exact List.nodup_nil
    | some e =>
      dsimp only
      split
      · exact List.nodup_nil
      · exact List.nodup_singleton _
  · refine List.nodup_range.pairwise_of_forall_ne fun i _ j _ hij => ?_
    intro k hki hkj
    exact hij (h.unique k i j (hkey i k hki) (hkey j k hkj))

end Listed

/-- **`lfkv_foreach` lists every slot that has an unexpired entry.** -/
theorem ends_each : ∀ {d i : ℕ}, i + d = kv.nslots → 0 < d →
    Ends .foreach now (fun kv' r => kv' = kv ∧ r = .items (kv.listed now kv.nslots)) kv
      (.each i (kv.listed now i)) := by
  intro d
  induction d with
  | zero => intro i _ hd; omega
  | succ d ih =>
    intro i hd _
    have hnext : Ends .foreach now
        (fun kv' r => kv' = kv ∧ r = .items (kv.listed now kv.nslots)) kv
        (eachNext kv i (kv.listed now (i + 1))) := by
      unfold eachNext
      split
      · exact ih (by omega) (by omega)
      · have hi : i + 1 = kv.nslots := by omega
        exact ends_ret ⟨rfl, by rw [hi]⟩
    refine ends_step fun addr => ?_
    cases hs : kv.slots i with
    | none =>
      have hnone : kv.listed now (i + 1) = kv.listed now i :=
        listed_succ_of_none fun e he => by simp [entryAt, hs] at he
      rw [hnone] at hnext
      simp only [step, hs]
      exact hnext
    | some s =>
      simp only [step, hs]
      refine ends_step fun addr => ?_
      have hentry : kv.entryAt i = (kv.recs s).entry := by rw [entryAt, hs, Option.bind_some]
      cases he : (kv.recs s).entry with
      | none =>
        have hnone : kv.listed now (i + 1) = kv.listed now i :=
          listed_succ_of_none fun e he' => by simp [hentry, he] at he'
        rw [hnone] at hnext
        simp only [step, he]
        exact hnext
      | some e =>
        rw [he] at hentry
        simp only [step, he]
        split
        · rename_i hexp
          have hnone : kv.listed now (i + 1) = kv.listed now i :=
            listed_succ_of_none fun e' he' => by
              obtain rfl := Option.some.inj (hentry.symm.trans he')
              exact hexp
          rw [hnone] at hnext
          exact hnext
        · rename_i hlive
          have hkey : kv.keyAt i = (kv.recs s).keyBytes := by rw [keyAt, hs, Option.elim_some]
          rw [listed_succ_of_some hentry (Bool.eq_false_iff.mpr hlive), hkey] at hnext
          exact hnext

/-! ## Refinement -/

variable (now) in
/-- **A call run alone on a table with a free slot ends, and answers as the map does.** -/
theorem ends_answers (h : Tracks kv m) (hfree : HasFree kv) (hshort : c.Short) :
    Ends c now (fun kv' r => ∃ m', m.Answers now c r m' ∧ Tracks kv' m') kv (c.start kv true) := by
  have hkeyed : c.Keyed → Ends c now (fun kv' r =>
      ∃ m', (r = (onPair now c (m.find c.key)).2 ∧
        m' = m.update c.key (onPair now c (m.find c.key)).1) ∧ Tracks kv' m') kv
      (c.start kv true) := fun hk => by
    refine (ends_keyed h (fun _ => hfree) hshort hk).mono ?_
    rintro ⟨kv', pc⟩ ⟨r, hr, htracks, hret⟩
    exact ⟨r, hr, _, ⟨hret, rfl⟩, htracks⟩
  have hsweep : c.Sweeps → Ends c now (fun kv' r => Tracks kv' (m.remove (c.hits now)) ∧
      r = c.swept (m.countPairs (c.hits now))) kv (.sweep 0 0) := fun hc =>
    ends_sweep h hc (Nat.zero_add _) kv.nslots_pos (swept_zero h)
  cases c with
  | count =>
    refine ends_step fun addr => ends_ret ⟨m, ⟨?_, rfl⟩, h⟩
    have hcount : kv.liveSlots = m.countPairs fun _ => true := by
      rw [h.countPairs, liveSlots]
      congr 1
    rw [h.counted.toNat, hcount]
  | foreach =>
    refine (ends_each (Nat.zero_add _) kv.nslots_pos).mono ?_
    rintro ⟨kv', pc⟩ ⟨r, hr, rfl, rfl⟩
    exact ⟨_, hr, m, ⟨rfl, _, rfl, nodup_listed h.toAbs, fun k v x => mem_listed h.toAbs⟩, h⟩
  | evictExpired =>
    refine (hsweep trivial).mono ?_
    rintro ⟨kv', pc⟩ ⟨r, hr, htracks, rfl⟩
    exact ⟨_, hr, _, ⟨rfl, rfl⟩, htracks⟩
  | clear =>
    refine (hsweep trivial).mono ?_
    rintro ⟨kv', pc⟩ ⟨r, hr, htracks, rfl⟩
    have hempty : m.remove (Call.hits .clear now) = KeyMap.empty := by
      ext1
      funext k
      show (m.find k).filter (fun _ => false) = none
      cases m.find k <;> rfl
    rw [hempty] at htracks
    exact ⟨_, hr, _, ⟨rfl, rfl⟩, htracks⟩
  | _ => exact hkeyed trivial

end Ends

/-! ## Sequences of calls -/

section Runs

variable [DecidableEq V]

/-- Calls by one thread, one after the other, each with the time it read and what it returned;
each starts on a table with a free slot. -/
inductive SoloRun : Lfkv V → List (Call V × ℤ × Ret V) → Lfkv V → Prop
  | nil (kv : Lfkv V) : SoloRun kv [] kv
  | cons {kv kv' kv'' : Lfkv V} {c : Call V} {now : ℤ} {r : Ret V}
      {hist : List (Call V × ℤ × Ret V)} (addrs : List ℕ) (hfree : HasFree kv)
      (hcall : addrs.foldl (soloStep c now) (kv, c.start kv true) = (kv', .ret r))
      (rest : SoloRun kv' hist kv'') : SoloRun kv ((c, now, r) :: hist) kv''

/-- The same calls on the map, with the same returns. -/
inductive MapRun : KeyMap V → List (Call V × ℤ × Ret V) → KeyMap V → Prop
  | nil (m : KeyMap V) : MapRun m [] m
  | cons {m m' m'' : KeyMap V} {c : Call V} {now : ℤ} {r : Ret V}
      {hist : List (Call V × ℤ × Ret V)} (hcall : m.Answers now c r m')
      (rest : MapRun m' hist m'') : MapRun m ((c, now, r) :: hist) m''

/-- A call that has returned has done what the map does. -/
theorem answers_of_returned {c : Call V} {now : ℤ} {r : Ret V} (h : Tracks kv m)
    (hfree : HasFree kv) (hshort : c.Short) {addrs : List ℕ}
    (hcall : addrs.foldl (soloStep c now) (kv, c.start kv true) = (kv', .ret r)) :
    ∃ m', m.Answers now c r m' ∧ Tracks kv' m' := by
  have hends := ends_answers now h hfree hshort
  have hrest : ∀ x : Lfkv V × Pc V, (∃ r, x.2 = .ret r ∧ ∃ m', m.Answers now c r m' ∧ Tracks x.1 m') →
      ∀ a, soloStep c now x a = x := by
    rintro ⟨kv, pc⟩ ⟨r, rfl, -⟩ a
    rfl
  have hdone := @Inevitable.of_foldl _ _ _ _ _ _ hends hrest addrs (by rw [hcall]; intro a; rfl)
  rw [hcall] at hdone
  obtain ⟨r', hr, hanswers⟩ := hdone
  obtain rfl : r = r' := by simpa using hr
  exact hanswers

theorem mapRun_of_soloRun {hist : List (Call V × ℤ × Ret V)} (h : SoloRun kv hist kv')
    (hshort : ∀ x ∈ hist, x.1.Short) (htracks : Tracks kv m) :
    ∃ m', MapRun m hist m' ∧ Tracks kv' m' := by
  induction h generalizing m with
  | nil kv => exact ⟨m, .nil m, htracks⟩
  | cons addrs hfree hcall _ ih =>
    have hhead := hshort _ List.mem_cons_self
    obtain ⟨m', hanswers, htracks'⟩ := answers_of_returned htracks hfree hhead hcall
    obtain ⟨m'', hrun, htracks''⟩ := ih (fun x hx => hshort x (List.mem_cons_of_mem _ hx)) htracks'
    exact ⟨m'', .cons hanswers hrun, htracks''⟩

/-- **One thread and a finite map**: a sequence of calls on a new table, each starting while a
slot is free, with keys below `2 ^ 32` bytes and every allocation succeeding, returns what the
same calls return on a finite map; the counter of the table is the number of its live slots; and
the next call of this kind returns, too. -/
theorem soloRun_refines {b : ℕ} {hb : b < 64} {hist : List (Call V × ℤ × Ret V)}
    (h : SoloRun (lfkvNew V b hb) hist kv) (hshort : ∀ x ∈ hist, x.1.Short) :
    (∃ m, MapRun KeyMap.empty hist m ∧ Abs kv m) ∧ kv.count.toNat = kv.liveSlots ∧
      ∀ (c : Call V) (now : ℤ), c.Short → HasFree kv → ∀ addr : ℕ → ℕ,
        ∃ n kv' r, ((List.range n).map addr).foldl (soloStep c now) (kv, c.start kv true) =
          (kv', .ret r) := by
  obtain ⟨m, hrun, htracks⟩ :=
    mapRun_of_soloRun h hshort ⟨abs_lfkvNew b hb, counted_lfkvNew b hb⟩
  refine ⟨⟨m, hrun, htracks.toAbs⟩, htracks.counted.toNat, fun c now hc hfree addr => ?_⟩
  obtain ⟨n, r, hr, -⟩ := (ends_answers now htracks hfree hc).exists_foldl addr
  exact ⟨n, _, r, Prod.ext rfl hr⟩

end Runs

/-- A sequence on a table of 4 slots: a deadline that is reached between two lookups, the deleted
key inserted anew, and a key with an expiry evicted. -/
def dayOfKeys : List (Call ℕ × ℤ × Ret ℕ) :=
  [(.set [107] 10, 1, .int 0), (.setExpiry [107] 5, 2, .int 1), (.get [107], 3, .val (some 10)),
    (.get [107], 5, .val none), (.setNx [107] 11, 6, .int 1), (.setExpiry [107] 7, 6, .int 1),
    (.evictExpired, 8, .int 1), (.count, 9, .int 0)]

theorem soloRun_refines_dayOfKeys :
    ∃ kv : Lfkv ℕ, (∃ m, MapRun KeyMap.empty dayOfKeys m ∧ Abs kv m) ∧ kv.liveSlots = 0 := by
  have hfree : ∀ kv : Lfkv ℕ, 0 < kv.nslots → kv.slots 0 = none → HasFree kv :=
    fun kv h hs => ⟨0, h, hs⟩
  obtain ⟨kv, hrun, hcount⟩ : ∃ kv, SoloRun (lfkvNew ℕ 2 (by decide)) dayOfKeys kv ∧
      kv.count.toNat = 0 :=
    ⟨_, .cons (List.replicate 4 1) (hfree _ (by decide) rfl) rfl <|
      .cons (List.replicate 4 2) (hfree _ (by decide) rfl) rfl <|
      .cons (List.replicate 3 0) (hfree _ (by decide) rfl) rfl <|
      .cons (List.replicate 5 0) (hfree _ (by decide) rfl) rfl <|
      .cons (List.replicate 6 3) (hfree _ (by decide) rfl) rfl <|
      .cons (List.replicate 6 4) (hfree _ (by decide) rfl) rfl <|
      .cons (List.replicate 10 0) (hfree _ (by decide) rfl) rfl <|
      .cons (List.replicate 1 0) (hfree _ (by decide) rfl) rfl <|
      .nil _, rfl⟩
  obtain ⟨hmap, hlive, -⟩ := soloRun_refines hrun (by decide)
  exact ⟨kv, hmap, hlive.symm.trans hcount⟩

/-! ## Where the table is no map -/

/-- A key of `2 ^ 32` bytes is stored with the length 0, and the lookup after it finds nothing. -/
theorem get_after_set_long {k : Bytes} (hk : k.length = 2 ^ 32) (v : ℕ) :
    ∃ kv, SoloRun (lfkvNew ℕ 1 (by decide))
      [(.set k v, 0, .int 0), (.get k, 0, .val none)] kv := by
  set kv₀ := lfkvNew ℕ 1 (by decide)
  set h := kv₀.home (bernsteinHash k)
  set fresh := (Call.set k v).freshSlot 1
  have hsucc : kv₀.succ h ≠ h := by
    have hlt : h < kv₀.nslots := (kv₀.onPath_home (bernsteinHash k)).lt
    have hn : kv₀.nslots = 2 := rfl
    rw [succ, and_mask, hn]
    omega
  obtain ⟨kv₁, hset, hslots, hrec, hn⟩ : ∃ kv₁ : Lfkv ℕ,
      [1, 1, 1].foldl (soloStep (.set k v) 0) (kv₀, (Call.set k v).start kv₀ true) =
        (kv₁, .ret (.int 0)) ∧ kv₁.slots = Function.update kv₀.slots h (some 0) ∧
      kv₁.recs 0 = fresh ∧ kv₁.nslots = 2 := ⟨_, rfl, rfl, rfl, rfl⟩
  have hhome : kv₁.home (bernsteinHash k) = h := by
    rw [home, mask, hn]
    rfl
  have hnext : kv₁.slots (kv₁.succ h) = none := by
    have hs : kv₁.succ h = kv₀.succ h := by
      rw [succ, mask, hn]
      rfl
    rw [hs, hslots, Function.update_of_ne hsucc]
    rfl
  have hkey : slotKeyEq (kv₁.recs 0) (bernsteinHash k) k = false := by
    rw [hrec]
    simp [slotKeyEq, fresh, Call.freshSlot, slotAlloc, Call.key, hk]
  have hget : [0, 0, 0].foldl (soloStep (.get k) 0) (kv₁, (Call.get k).start kv₁ true) =
      (kv₁, .ret (.val none)) := by
    have hslot : kv₁.slots h = some 0 := by rw [hslots, Function.update_self]
    have hentry : (kv₁.recs 0).entry = some ⟨1, v, 0⟩ := by
      rw [hrec]
      rfl
    simp [soloStep, step, Call.start, Call.probeStart, Call.hash, Call.key, hhome, hslot, hentry,
      hkey, Call.probeNext, hn, hnext, Call.missing, Call.absent]
  have hfree : HasFree kv₁ := ⟨kv₁.succ h, by rw [succ, and_mask]; exact Nat.mod_lt _ kv₁.nslots_pos,
    hnext⟩
  exact ⟨kv₁, .cons [1, 1, 1] ⟨0, by decide, rfl⟩ hset (.cons [0, 0, 0] hfree hget (.nil _))⟩

/-- **The bounds of the refinement are real**: a negative expiry counts as reached, a key of
`2 ^ 32` bytes is not found again, and a write whose allocation fails returns -1. -/
theorem soloRun_bounds :
    (∃ kv, SoloRun (lfkvNew ℕ 2 (by decide)) [(.set [107] 10, 1, .int 0),
      (.setExpiry [107] (-5), 1, .int 1), (.get [107], 1, .val none)] kv) ∧
    (∃ kv, SoloRun (lfkvNew ℕ 1 (by decide)) [(.set (List.replicate (2 ^ 32) 0) 10, 0, .int 0),
      (.get (List.replicate (2 ^ 32) 0), 0, .val none)] kv) ∧
    (run Sys.next (Sys.init ℕ 2 (by decide)) [.invoke 0 (.set [107] 10) 1 false]).map
      (fun s => s.threads 0) = some (some ⟨.set [107] 10, 1, .ret (.int (-1))⟩) := by
  have hfree : ∀ kv : Lfkv ℕ, 0 < kv.nslots → kv.slots 0 = none → HasFree kv :=
    fun kv h hs => ⟨0, h, hs⟩
  refine ⟨⟨_, .cons (List.replicate 3 1) (hfree _ (by decide) rfl) rfl <|
    .cons (List.replicate 4 2) (hfree _ (by decide) rfl) rfl <|
    .cons (List.replicate 5 0) (hfree _ (by decide) rfl) rfl <| .nil _⟩, ?_, rfl⟩
  exact get_after_set_long List.length_replicate 10

end Alcove.Lfkv
