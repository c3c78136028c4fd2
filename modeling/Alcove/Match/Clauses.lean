import Alcove.Match.Instances

/-!
# The clause that runs

A variable of a pattern is found in the new frame with the sub-value of a place where it stands, and
`matchcmd` runs the first clause whose pattern has the value as a lax instance. So a pattern succeeds on
the values that are instances of it, unless one becomes an instance only where values that are not true
are taken for each other or for the end of a list, or anything for a `t` that was read.
-/

namespace Alcove.Match

open Binding Params Template

/-! ## The variables in the frame -/

/-- The value of a name in one frame. -/
def valueOf (scan : Scan Exp) (f : Frame Exp) (x : CStr) : Option Exp :=
  (f.find scan x).bind (f.read x)

/-- What the frame holds was bound, and what was bound has a place. -/
structure Carries (f : Frame Exp) (bs : List Bound) : Prop where
  slot : ∀ i, i < f.nInline → ∃ b ∈ bs, f.inlineKeys i = some b.1 ∧ f.inlineVals i = some b.2
  entry : ∀ x w, f.entry x = some w → (x, w) ∈ bs
  named : ∀ b ∈ bs, b.1 ∈ f.names ∨ (f.entry b.1).isSome = true

theorem carries_fresh (stale : Stale Exp) : Carries (.fresh stale) [] where
  slot i hi := absurd hi (Nat.not_lt_zero i)
  entry x w h := by cases h
  named b hb := by cases hb

section Bind

variable {f : Frame Exp} {bs : List Bound} (b : Bound)

theorem bindVar_inline (h : f.nInline < envInlineSlots) : f.bindVar b.1 b.2 =
    { f with
      inlineKeys := Function.update f.inlineKeys f.nInline (some b.1)
      inlineVals := Function.update f.inlineVals f.nInline (some b.2)
      nInline := f.nInline + 1 } := if_pos h

theorem bindVar_dict (h : ¬ f.nInline < envInlineSlots) : f.bindVar b.1 b.2 = f.define b.1 b.2 :=
  if_neg h

theorem entry_define (x : CStr) :
    (f.define b.1 b.2).entry x = if x = b.1 then some b.2 else f.entry x := by
  rw [Frame.entry, Frame.define, Option.bind_some, Scope.find_set, Frame.entry]
  cases f.d <;> rfl

theorem Carries.bindVar (h : Carries f bs) : Carries (f.bindVar b.1 b.2) (bs ++ [b]) := by
  have hold : ∀ {x : CStr}, x ∈ f.names → x ∈ (f.bindVar b.1 b.2).names := fun {x} hx => by
    obtain ⟨i, hi, hk⟩ := Frame.mem_names.mp hx
    refine Frame.mem_names.mpr ⟨i, ?_⟩
    by_cases hn : f.nInline < envInlineSlots
    · rw [bindVar_inline b hn]
      exact ⟨Nat.lt_succ_of_lt hi, (Function.update_of_ne (Nat.ne_of_lt hi) _ _).trans hk⟩
    · rw [bindVar_dict b hn]
      exact ⟨hi, hk⟩
  by_cases hn : f.nInline < envInlineSlots
  · have hentry : ∀ x, (f.bindVar b.1 b.2).entry x = f.entry x := fun x => by
      rw [bindVar_inline b hn]
      rfl
    refine ⟨fun i hi => ?_, fun x w hw => ?_, fun c hc => ?_⟩
    · rw [bindVar_inline b hn] at hi ⊢
      rcases Nat.lt_succ_iff_lt_or_eq.mp hi with hlt | rfl
      · obtain ⟨c, hc, hk, hv⟩ := h.slot i hlt
        exact ⟨c, List.mem_append_left _ hc, (Function.update_of_ne (Nat.ne_of_lt hlt) _ _).trans hk,
          (Function.update_of_ne (Nat.ne_of_lt hlt) _ _).trans hv⟩
      · exact ⟨b, by simp, Function.update_self .., Function.update_self ..⟩
    · exact List.mem_append_left _ (h.entry x w (hentry x ▸ hw))
    · rcases List.mem_append.mp hc with hc | hc
      · exact (h.named c hc).imp hold fun hs => hentry c.1 ▸ hs
      · obtain rfl := List.mem_singleton.mp hc
        refine .inl (Frame.mem_names.mpr ⟨f.nInline, ?_⟩)
        rw [bindVar_inline c hn]
        exact ⟨Nat.lt_succ_self _, Function.update_self ..⟩
  · refine ⟨fun i hi => ?_, fun x w hw => ?_, fun c hc => ?_⟩
    · rw [bindVar_dict b hn] at hi ⊢
      obtain ⟨c, hc, hkv⟩ := h.slot i hi
      exact ⟨c, List.mem_append_left _ hc, hkv⟩
    · rw [bindVar_dict b hn, entry_define] at hw
      split at hw
      · next hx => cases hw; subst hx; exact List.mem_append_right _ (List.mem_singleton_self _)
      · exact List.mem_append_left _ (h.entry x w hw)
    · have hentry : ∀ x, x = b.1 ∨ (f.entry x).isSome = true → ((f.bindVar b.1 b.2).entry x).isSome :=
        fun x hx => by
          rw [bindVar_dict b hn, entry_define]
          split
          · rfl
          · next hne => exact hx.resolve_left hne
      rcases List.mem_append.mp hc with hc | hc
      · exact (h.named c hc).imp hold fun hs => hentry c.1 (.inr hs)
      · obtain rfl := List.mem_singleton.mp hc
        exact .inr (hentry c.1 (.inl rfl))

end Bind

theorem Carries.bindAll {f : Frame Exp} {bs : List Bound} (h : Carries f bs) (cs : List Bound) :
    Carries (bindAll f cs) (bs ++ cs) := by
  induction cs generalizing f bs with
  | nil => simpa using h
  | cons c cs ih => simpa [Match.bindAll] using ih (h.bindVar c)

/-- The two directions in which the slots are searched. -/
def scans : List (Scan Exp) := [scanUp, scanDown]

theorem scan_some {scan : Scan Exp} (h : scan ∈ scans) {f : Frame Exp} {x : CStr} {i : ℕ}
    (hi : scan f x = some i) : i < f.nInline ∧ f.inlineKeys i = some x := by
  simp only [scans, List.mem_cons, List.not_mem_nil, or_false] at h
  rcases h with rfl | rfl
  · exact lt_of_scanUp hi
  · exact lt_of_scanDown hi

theorem scan_none {scan : Scan Exp} (h : scan ∈ scans) {f : Frame Exp} {x : CStr} :
    scan f x = none ↔ x ∉ f.names := by
  simp only [scans, List.mem_cons, List.not_mem_nil, or_false] at h
  rcases h with rfl | rfl
  · exact scanUp_eq_none
  · exact scanDown_eq_none

/-- **What was bound is found, with a value that it was bound to.** -/
theorem Carries.valueOf {f : Frame Exp} {bs : List Bound} (h : Carries f bs) {scan : Scan Exp}
    (hscan : scan ∈ scans) {x : CStr} (hx : x ∈ bs.map Prod.fst) :
    ∃ w, (x, w) ∈ bs ∧ valueOf scan f x = some w := by
  obtain ⟨b, hb, rfl⟩ := List.mem_map.mp hx
  cases hs : scan f b.1 with
  | some i =>
    obtain ⟨hi, hk⟩ := scan_some hscan hs
    obtain ⟨c, hc, hck, hcv⟩ := h.slot i hi
    have hname : c.1 = b.1 := Option.some.inj (hck.symm.trans hk)
    refine ⟨c.2, hname ▸ hc, ?_⟩
    rw [Match.valueOf, Frame.find, hs]
    exact hcv
  | none =>
    have hentry : (f.entry b.1).isSome = true :=
      (h.named b hb).resolve_left ((scan_none hscan).mp hs)
    obtain ⟨w, hw⟩ := Option.isSome_iff_exists.mp hentry
    refine ⟨w, h.entry b.1 w hw, ?_⟩
    rw [Match.valueOf, Frame.find, hs]
    simp only [hentry, if_true]
    exact hw

/-! ## One pattern -/

variable {σ : Type} {R : Runtime σ}

/-- Each variable of the pattern is found in the frame, with the sub-value of a place where it stands. -/
def Binds (p v : Exp) (f : Frame Exp) : Prop :=
  ∀ bs, Instance exact p (.value v) bs → ∀ scan ∈ scans, ∀ x ∈ bs.map Prod.fst,
    ∃ w, (x, w) ∈ bs ∧ valueOf scan f x = some w

/-- `alc_match_pat` succeeds if and only if the value is an instance of the pattern, and then binds its
variables. -/
def MatchesInstances (R : Runtime σ) (p v : Exp) (s : σ) : Prop :=
  ((∃ f s', alcMatchPat R p v (.fresh R.stale) s = (.matched f, s')) ↔ exact.Takes p v) ∧
    ∀ f s', alcMatchPat R p v (.fresh R.stale) s = (.matched f, s') → Binds p v f

theorem exact_lax {p v : Exp} (h : exact.Takes p v) : lax.Takes p v := by
  obtain ⟨bs, hbs⟩ := h
  obtain ⟨cs, hcs, -⟩ := hbs.lax
  exact ⟨cs, hcs⟩

/-- A success is a lax instance, and the state stays. -/
theorem lax_of_matched {p v : Exp} {f f' : Frame Exp} {s s' : σ} (hp : IsPattern p)
    (h : alcMatchPat R p v f s = (.matched f', s')) : lax.Takes p v ∧ s' = s := by
  rcases decides (R := R) p (.value v) hp f s with ⟨bs, hbs, hrun⟩ | ⟨-, hrun⟩
  · rw [against, h] at hrun
    exact ⟨⟨bs, hbs⟩, congrArg Prod.snd hrun⟩
  · rw [against, h] at hrun
    cases hrun

theorem noMatch_of_not_lax {p v : Exp} (hp : IsPattern p) (h : ¬ lax.Takes p v) (f : Frame Exp) (s : σ) :
    alcMatchPat R p v f s = (.noMatch, s) := by
  rcases decides (R := R) p (.value v) hp f s with ⟨bs, hbs, -⟩ | ⟨-, hrun⟩
  · exact absurd ⟨bs, hbs⟩ h
  · exact hrun

/-- **On a lax instance the code succeeds, with the variables of the pattern in the frame.** -/
theorem matched_of_lax {p v : Exp} (hp : IsPattern p) (h : lax.Takes p v) (s : σ) :
    ∃ f, alcMatchPat R p v (.fresh R.stale) s = (.matched f, s) ∧ Binds p v f := by
  rcases decides (R := R) p (.value v) hp (.fresh R.stale) s with ⟨bs, hbs, hrun⟩ | ⟨hno, -⟩
  · refine ⟨_, hrun, fun cs hcs scan hscan x hx => ?_⟩
    obtain ⟨bs', hbs', rfl⟩ := hcs.lax
    obtain rfl := hbs.unique hbs'
    obtain ⟨b, hb, rfl⟩ := List.mem_map.mp hx
    obtain ⟨hmem, hb⟩ := List.mem_filter.mp hb
    obtain ⟨w, hw, hval⟩ := ((carries_fresh R.stale).bindAll bs).valueOf hscan
      (List.mem_map_of_mem hmem)
    exact ⟨w, List.mem_filter.mpr ⟨hw, hb⟩, hval⟩
  · obtain ⟨bs, hbs⟩ := h
    exact absurd hbs (hno bs)

theorem matchesInstances_iff {p v : Exp} (hp : IsPattern p) (s : σ) :
    MatchesInstances R p v s ↔ (lax.Takes p v → exact.Takes p v) := by
  constructor
  · intro h hlax
    obtain ⟨f, hrun, -⟩ := matched_of_lax hp hlax s
    exact h.1.mp ⟨f, s, hrun⟩
  · intro h
    refine ⟨⟨fun ⟨f, s', hrun⟩ => h (lax_of_matched hp hrun).1, fun hex => ?_⟩, fun f s' hrun => ?_⟩
    · obtain ⟨f, hrun, -⟩ := matched_of_lax hp (exact_lax hex) s
      exact ⟨f, s, hrun⟩
    · obtain ⟨f', hrun', hb⟩ := matched_of_lax hp (lax_of_matched hp hrun).1 s
      rw [hrun] at hrun'
      cases hrun'
      exact hb

/-! ## The clauses -/

/-- The patterns of the clauses. -/
def ClausePatterns : List Exp → Prop
  | p :: _ :: more => IsPattern p ∧ ClausePatterns more
  | _ => True

open Classical in
/-- The clauses from the first on that has the value as an instance, or what is left without one. -/
noncomputable def firstClause (v : Exp) : List Exp → List Exp
  | p :: form :: more => if exact.Takes p v then p :: form :: more else firstClause v more
  | clauses => clauses

/-- The form is the result of the first clause, and its frame binds the variables of the pattern. -/
def Agrees (v : Exp) : Selected → List Exp → Prop
  | .clause form f more, p :: form' :: more' => form = form' ∧ more = more' ∧ Binds p v f
  | .default form, [form'] => form = form'
  | .none, [] => True
  | _, _ => False

/-- Before the first clause with the value as an instance no pattern takes the value. -/
def Undisturbed (v : Exp) : List Exp → Prop
  | p :: _ :: more => exact.Takes p v ∨ ¬ lax.Takes p v ∧ Undisturbed v more
  | _ => True

/-- `matchcmd` runs the result of the first clause whose pattern has the value of the form as an
instance. -/
def RunsFirst (R : Runtime σ) (form : Exp) (clauses : List Exp) (s : σ) : Prop :=
  ∃ selected,
    matchcmd R (form :: clauses) s =
      (.ok (runSelected R selected (R.eval form none s).2).1,
        (runSelected R selected (R.eval form none s).2).2) ∧
    selectClause R (R.eval form none s).1 clauses (R.eval form none s).2 =
      (.ok selected, (R.eval form none s).2) ∧
    Agrees (R.eval form none s).1 selected (firstClause (R.eval form none s).1 clauses)

theorem firstClause_of_takes {v p form : Exp} {more : List Exp} (h : exact.Takes p v) :
    firstClause v (p :: form :: more) = p :: form :: more := by
  rw [firstClause, if_pos h]

theorem firstClause_of_not_takes {v p form : Exp} {more : List Exp} (h : ¬ exact.Takes p v) :
    firstClause v (p :: form :: more) = firstClause v more := by
  rw [firstClause, if_neg h]

theorem length_firstClause (v : Exp) (clauses : List Exp) :
    (firstClause v clauses).length ≤ clauses.length := by
  induction clauses using List.twoStepInduction with
  | nil => exact Nat.le_refl _
  | singleton form => exact Nat.le_refl _
  | cons_cons p form more ih =>
    by_cases h : exact.Takes p v
    · rw [firstClause_of_takes h]
    · rw [firstClause_of_not_takes h]
      exact ih.trans (by simp; omega)

/-- A clause is not one that comes after it. -/
theorem not_agrees {v form : Exp} {f : Frame Exp} {more : List Exp} :
    ¬ Agrees v (.clause form f more) (firstClause v more) := by
  intro h
  have hlen := length_firstClause v more
  cases hc : firstClause v more with
  | nil => rw [hc] at h; exact h
  | cons p rest =>
    cases rest with
    | nil => rw [hc] at h; exact h
    | cons form' more' =>
      rw [hc] at h hlen
      obtain ⟨-, rfl, -⟩ := h
      rw [List.length_cons, List.length_cons] at hlen
      omega

/-- **The loop selects the first clause if and only if no pattern before it takes the value.** -/
theorem agrees_iff {v : Exp} {clauses : List Exp} (h : ClausePatterns clauses) (s : σ) :
    (∃ selected, selectClause R v clauses s = (.ok selected, s) ∧
      Agrees v selected (firstClause v clauses)) ↔ Undisturbed v clauses := by
  induction clauses using List.twoStepInduction with
  | nil => exact iff_of_true ⟨.none, rfl, trivial⟩ trivial
  | singleton form => exact iff_of_true ⟨.default form, rfl, rfl⟩ trivial
  | cons_cons p form more ih =>
    obtain ⟨hp, hmore⟩ := h
    by_cases hlax : lax.Takes p v
    · obtain ⟨f, hrun, hbinds⟩ := matched_of_lax (R := R) hp hlax s
      have hsel : selectClause R v (p :: form :: more) s = (.ok (.clause form f more), s) := by
        rw [selectClause, hrun]
      rw [hsel]
      by_cases hex : exact.Takes p v
      · rw [firstClause_of_takes hex]
        exact iff_of_true ⟨_, rfl, rfl, rfl, hbinds⟩ (.inl hex)
      · rw [firstClause_of_not_takes hex]
        refine iff_of_false (fun ⟨selected, hs, ha⟩ => ?_) fun hu => ?_
        · cases hs
          exact not_agrees ha
        · exact (hu.resolve_left hex).1 hlax
    · have hex : ¬ exact.Takes p v := fun hex => hlax (exact_lax hex)
      have hsel : selectClause R v (p :: form :: more) s = selectClause R v more s := by
        rw [selectClause, noMatch_of_not_lax hp hlax]
      rw [hsel, firstClause_of_not_takes hex, ih hmore]
      exact ⟨fun hu => .inr ⟨hlax, hu⟩, fun hu => (hu.resolve_left hex).2⟩

theorem runsFirst_iff {form : Exp} {clauses : List Exp} {s : σ} (h : ClausePatterns clauses)
    (hv : (R.eval form none s).1 ≠ .null) (he : isError (R.eval form none s).1 = false) :
    RunsFirst R form clauses s ↔ Undisturbed (R.eval form none s).1 clauses := by
  rw [← agrees_iff (R := R) h (R.eval form none s).2]
  constructor
  · rintro ⟨selected, -, hs, ha⟩
    exact ⟨selected, hs, ha⟩
  · rintro ⟨selected, hs, ha⟩
    have hnull : (R.eval form none s).1.isNull = false := by
      cases hval : (R.eval form none s).1 <;> simp_all [Exp.isNull]
    refine ⟨selected, ?_, hs, ha⟩
    simp only [matchcmd, hnull, he, hs, Bool.or_self, Bool.false_eq_true, if_false]

/-- A runtime where each form is its own value. -/
def quiet : Runtime Unit := ⟨fun e _ s => (e, s), fun _ _ s => (.nil, s), ⟨fun _ => none, fun _ => none⟩⟩

/-- A small number. -/
def small (n : ℕ) : Exp := .fix (makeFix n)

theorem not_exact_small {n : ℕ} {v : Exp} (h : equalLiteral (small n) v = false) :
    ¬ exact.Takes (small n) v := by
  rintro ⟨bs, hbs⟩
  have hl := (instance_literal (by rfl)).mp hbs
  simp [exact_literal, h] at hl

theorem lax_small_zero : lax.Takes (small 0) .nil := ⟨[], .literal rfl (by
  rw [small, lax_of_not_istrue rfl (by decide)]
  rfl)⟩

theorem sym_ne_null (a : String) : sym a ≠ .null := fun h => by cases h

end Alcove.Match
