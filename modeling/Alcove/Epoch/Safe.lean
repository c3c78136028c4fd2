import Alcove.Epoch.Guarded

/-!
# Epoch-based reclamation is safe

While `epoch_global` does not wrap, a pointer that some thread may still use is not freed, and no
pointer is freed twice (`retired_safe`). After 2^64 - 1 retirements it wraps to 0, the value that
stands for a thread that has not registered (`used_after_free`).
-/

namespace Alcove.Epoch

open Lib

variable {s s' : State}

/-! ## The invariant -/

/-- What holds in every state reached before `epoch_global` wraps. -/
structure Inv (s : State) : Prop where
  reg : Reg s
  placed : ∃ loc, Placed s loc
  guarded : Guarded s

namespace Inv

variable {t : ℕ} {r : Reactor}

/-- A pointer in a slot is in no list. -/
theorem slot_not_listed (h : Inv s) {x p : ℕ} (hx : s.slots x = some p) (j : ℕ) :
    ∀ node ∈ (s.epochThreads j).retireHead, node.ptr ≠ p := by
  obtain ⟨loc, hloc⟩ := h.placed
  rintro node hn rfl
  have hslot := hloc.slot x _ hx
  have hlisted := hloc.listed j node hn
  rw [hslot] at hlisted
  cases hlisted

/-- A new object is in no list. -/
theorem fresh_not_listed (h : Inv s) (j : ℕ) :
    ∀ node ∈ (s.epochThreads j).retireHead, node.ptr ≠ s.fresh := by
  obtain ⟨loc, hloc⟩ := h.placed
  intro node hn hfresh
  have hunborn := hloc.unborn s.fresh le_rfl
  have hlisted := hloc.listed j node hn
  rw [hfresh, hunborn] at hlisted
  cases hlisted

/-- A thread moves on; it takes up no pointer. -/
theorem move (h : Inv s) (hidx : r.myIdx = (s.reactors t).myIdx) (hsub : r.pc ≠ .registerSub)
    (hret : ∀ p, r.pc ≠ .retire p)
    (hreg : RegAt s.epochNthreads s.epochGlobal s.quiescent r)
    (hheld : ∀ p ∈ r.held, p ∈ (s.reactors t).held)
    (hspares : ∀ u i x, (s.reactors u).myIdx = some i → (s.reactors u).held ≠ [] →
      s.quiescent i ≤ x → (s.reactors t).pc.Spares i x → r.pc.Spares i x) :
    Inv (s.setReactor t r) where
  reg := h.reg.move hidx hsub hreg
  placed := by
    obtain ⟨loc, hloc⟩ := h.placed
    exact ⟨loc, hloc.move hret fun p hp => hloc.held t p (hheld p hp)⟩
  guarded := h.guarded.move rfl rfl (fun p hp => ⟨hidx, .inl (hheld p hp)⟩) (.inr ⟨hidx, hspares⟩)

/-- A thread enters or leaves `epoch_register` without an index. -/
theorem enter (h : Inv s) {n : ℕ} (hreg : Reg ({ s with epochNthreads := n }.setReactor t r))
    (hret : ∀ p, r.pc ≠ .retire p) (hheld : r.held = []) (hspares : ∀ i x, r.pc.Spares i x) :
    Inv ({ s with epochNthreads := n }.setReactor t r) where
  reg := hreg
  placed := by
    obtain ⟨loc, hloc⟩ := h.placed
    have hcongr : Placed { s with epochNthreads := n } loc :=
      hloc.congr rfl rfl rfl rfl fun _ => List.Sublist.refl _
    refine ⟨loc, hcongr.move hret fun p hp => ?_⟩
    rw [hheld] at hp
    cases hp
  guarded := by
    refine h.guarded.move rfl rfl (fun p hp => ?_) (.inl hspares)
    rw [hheld] at hp
    cases hp

/-- A thread advertises the epoch it has loaded. -/
theorem announce (h : Inv s) {i g : ℕ} {e : EpochThread} (hi : (s.reactors t).myIdx = some i)
    (hg : (s.reactors t).pc.loadedEpoch = some g) (he : e.quiescent = g)
    (hidx : r.myIdx = (s.reactors t).myIdx) (hheld : r.held = [])
    (hpc : r.pc = .idle ∨ r.pc = .gcLoad)
    (hlist : e.retireHead.Sublist (s.epochThreads i).retireHead) :
    Inv ((s.setThread i e).setReactor t r) where
  reg := h.reg.announce hi hg he hidx hheld hpc
  placed := by
    obtain ⟨loc, hloc⟩ := h.placed
    have hcongr : Placed (s.setThread i e) loc := by
      refine hloc.congr rfl rfl rfl rfl fun j => ?_
      show (Function.update s.epochThreads i e j).retireHead.Sublist _
      by_cases hj : j = i
      · rw [hj, Function.update_self]
        exact hlist
      · rw [Function.update_of_ne hj]
    refine ⟨loc, hcongr.move (fun p hp => ?_) fun p hp => ?_⟩
    · rcases hpc with hpc | hpc <;> rw [hpc] at hp <;> cases hp
    · rw [hheld] at hp
      cases hp
  guarded := by
    refine h.guarded.announce h.reg hi hidx hheld (fun i x => ?_) hlist
    rcases hpc with hpc | hpc <;> rw [hpc] <;> trivial

/-- A thread loads the pointer of a slot. -/
theorem load (h : Inv s) {x i : ℕ} (hi : (s.reactors t).myIdx = some i)
    (hpc : (s.reactors t).pc = .idle) :
    Inv (s.setReactor t
      { s.reactors t with held := (s.slots x).toList ++ (s.reactors t).held }) where
  reg := by
    refine h.reg.move rfl (by rw [hpc]; simp) ((h.reg.regAt t).step rfl (fun _ => ?_) id ?_ ?_)
    · simp [hi, hpc, Pc.registering, Pc.ticking]
    · exact (h.reg.regAt t).loaded
    · simp [hpc, Pc.joining]
  placed := by
    obtain ⟨loc, hloc⟩ := h.placed
    refine ⟨loc, hloc.move (by rw [hpc]; simp) fun p hp => ?_⟩
    rcases List.mem_append.mp hp with hp | hp
    · rw [hloc.slot x p (Option.mem_toList.mp hp)]
      simp [Loc.usable]
    · exact hloc.held t p hp
  guarded := by
    refine h.guarded.move rfl rfl (fun p hp => ⟨rfl, ?_⟩) (.inr ⟨rfl, fun _ _ _ _ _ _ => id⟩)
    rcases List.mem_append.mp hp with hp | hp
    · exact .inr (h.slot_not_listed (Option.mem_toList.mp hp))
    · exact .inl hp

/-- A thread frees the object of a node. -/
theorem free (h : Inv s) {i k safe : ℕ} {cur : RetireNode} {e : EpochThread}
    (hi : (s.reactors t).myIdx = some i) (hpc : (s.reactors t).pc = .gcWalk safe k)
    (hcur : (s.epochThreads i).retireHead[k]? = some cur) (hlt : cur.retireEpoch < safe)
    (he : e.retireHead = (s.epochThreads i).retireHead.eraseIdx k)
    (hq : e.quiescent = s.quiescent i) :
    Inv { s.setThread i e with
      freed := Function.update s.freed cur.ptr (s.freed cur.ptr + 1) } := by
  have hmem : cur ∈ (s.epochThreads i).retireHead := List.mem_of_getElem? hcur
  -- whoever held the object would be spared
  have hnobody : ∀ u, cur.ptr ∉ (s.reactors u).held := by
    intro u hu
    obtain ⟨m, hm⟩ := Option.ne_none_iff_exists'.mp
      ((h.reg.regAt u).holds (List.ne_nil_of_mem hu)).1
    have hspares := h.guarded.spares u m t i cur hmem ⟨hm, hu⟩ hi
    rw [hpc] at hspares
    change safe ≤ cur.retireEpoch at hspares
    omega
  have hthreads : ∀ j, (Function.update s.epochThreads i e j).quiescent = s.quiescent j ∧
      (Function.update s.epochThreads i e j).retireHead.Sublist (s.epochThreads j).retireHead := by
    intro j
    by_cases hj : j = i
    · rw [hj, Function.update_self, hq, he]
      exact ⟨rfl, List.eraseIdx_sublist _ _⟩
    · rw [Function.update_of_ne hj]
      exact ⟨rfl, List.Sublist.refl _⟩
  refine ⟨h.reg.congr rfl rfl (fun j => (hthreads j).1) rfl, ?_,
    h.guarded.congr rfl (fun j => (hthreads j).1) fun j => (hthreads j).2⟩
  obtain ⟨loc, hloc⟩ := h.placed
  exact ⟨_, hloc.free hcur he hnobody⟩

/-- A thread swaps the pointer of a slot. -/
theorem swap (h : Inv s) {x i : ℕ} {new : Bool} (hi : (s.reactors t).myIdx = some i)
    (hpc : (s.reactors t).pc = .idle) (hidx : r.myIdx = (s.reactors t).myIdx)
    (hheld : r.held = if new then s.fresh :: (s.reactors t).held else (s.reactors t).held)
    (hrpc : r.pc = (s.slots x).elim .idle .retire) :
    Inv ({ s with
      slots := Function.update s.slots x (if new then some s.fresh else none)
      fresh := if new then s.fresh + 1 else s.fresh }.setReactor t r) where
  reg := by
    have hmove : Reg (s.setReactor t r) := by
      refine h.reg.move hidx ?_ ((h.reg.regAt t).step hidx (fun _ => ⟨?_, ?_, ?_⟩) ?_ ?_ ?_)
      · rw [hrpc]
        cases s.slots x <;> simp
      · rw [hidx, hi]
        simp
      · rw [hrpc]
        cases s.slots x <;> rfl
      · rw [hrpc]
        cases s.slots x <;> rfl
      · intro _
        rw [hpc]
        rfl
      · intro g hg
        rw [hrpc] at hg
        cases hx : s.slots x <;> rw [hx] at hg <;> cases hg
      · rw [hrpc]
        cases s.slots x <;> exact .inl rfl
    exact hmove.congr rfl rfl (fun _ => rfl) rfl
  placed := by
    obtain ⟨loc, hloc⟩ := h.placed
    exact hloc.swap hheld hrpc
  guarded := by
    refine h.guarded.move rfl rfl (fun p hp => ⟨hidx, ?_⟩) (.inl fun i y => ?_)
    · rw [hheld] at hp
      split at hp
      · rcases List.mem_cons.mp hp with rfl | hp
        · exact .inr h.fresh_not_listed
        · exact .inl hp
      · exact .inl hp
    · rw [hrpc]
      cases s.slots x <;> trivial

/-- A thread retires its pointer; the epoch does not wrap. -/
theorem retire (h : Inv s) {i p : ℕ} {ok : Bool} {e : EpochThread}
    (hi : (s.reactors t).myIdx = some i) (hpc : (s.reactors t).pc = .retire p)
    (hwrap : s.epochGlobal < uint64Max)
    (he : e.retireHead = ⟨p, s.epochGlobal⟩ :: (s.epochThreads i).retireHead)
    (hq : e.quiescent = s.quiescent i) (hidx : r.myIdx = (s.reactors t).myIdx)
    (hheld : r.held = (s.reactors t).held) (hrpc : r.pc = .idle)
    (hs' : s' = { s with epochGlobal := (s.epochGlobal + 1) % 2 ^ 64 }.setReactor t r) :
    Inv (if ok then s'.setThread i e else s') := by
  have hadvance : (s.epochGlobal + 1) % 2 ^ 64 = s.epochGlobal + 1 :=
    Nat.mod_eq_of_lt (by unfold uint64Max at hwrap; omega)
  rw [hadvance] at hs'
  have hidle : ∀ i x, r.pc.Spares i x := by
    intro i x
    rw [hrpc]
    trivial
  have hreg : Reg s' := by
    subst hs'
    refine (h.reg.advance (Nat.le_succ _)).move hidx ?_
      (((h.reg.advance (Nat.le_succ _)).regAt t).step hidx (fun _ => ⟨?_, ?_, ?_⟩) ?_ ?_ ?_)
    · rw [hrpc]
      simp
    · rw [hidx, hi]
      simp
    · rw [hrpc]
      rfl
    · rw [hrpc]
      rfl
    · intro _
      show (s.reactors t).pc.registering = false
      rw [hpc]
      rfl
    · intro x hx
      rw [hrpc] at hx
      cases hx
    · rw [hrpc]
      exact .inl rfl
  have hquiescent : ∀ j, (Function.update s.epochThreads i e j).quiescent = s.quiescent j := by
    intro j
    by_cases hj : j = i
    · rw [hj, Function.update_self, hq]
    · rw [Function.update_of_ne hj]
      rfl
  refine ⟨?_, ?_, ?_⟩
  · cases ok with
    | false => exact hreg
    | true =>
      subst hs'
      exact hreg.congr rfl rfl hquiescent rfl
  · obtain ⟨loc, hloc⟩ := h.placed
    have hcongr : Placed { s with epochGlobal := s.epochGlobal + 1 } loc :=
      hloc.congr rfl rfl rfl rfl fun _ => List.Sublist.refl _
    subst hs'
    exact hcongr.retire hpc hrpc hheld he rfl
  · subst hs'
    cases ok with
    | false => exact h.guarded.move rfl rfl (fun q hq => ⟨hidx, .inl (hheld ▸ hq)⟩) (.inl hidle)
    | true => exact h.guarded.retire h.reg hi hidx hheld hidle he hq rfl

/-- A step of a thread inside a call, registered with the index `i`. -/
theorem stepAt (h : Inv s) {i : ℕ} {ok : Bool} (hi : (s.reactors t).myIdx = some i)
    (hwrap : ∀ p, (s.reactors t).pc = .retire p → s.epochGlobal < uint64Max) :
    Inv (s.stepAt t i (s.reactors t) ok) := by
  have hregAt := h.reg.regAt t
  -- a call of the collector holds on to what the thread holds
  have hkeep : ∀ pc : Pc, pc.registering = false → pc.ticking = false → pc.loadedEpoch = none →
      pc.joining = false → (s.reactors t).pc.registering = false →
      RegAt s.epochNthreads s.epochGlobal s.quiescent { s.reactors t with pc := pc } := by
    intro pc hr ht hl hj hold
    refine hregAt.step rfl (fun _ => ⟨?_, hr, ht⟩) (fun _ => hold) (fun x hx => ?_) (.inl hj)
    · simp [hi]
    · rw [hl] at hx
      cases hx
  unfold State.stepAt
  split
  next hpc =>
    refine h.move rfl (by simp) (by simp) (hregAt.step rfl ?_ ?_ ?_ (.inl rfl)) (fun _ => id) ?_
    · intro hne
      have := (hregAt.holds hne).2.1
      rw [hpc] at this
      cases this
    · intro hr
      cases hr
    · intro x hx
      obtain rfl := Option.some.inj hx
      exact ⟨h.reg.global, le_rfl⟩
    · exact fun _ _ _ _ _ _ _ => trivial
  next g hpc =>
    have hnil : (s.reactors t).held = [] := by
      by_contra hne
      have := (hregAt.holds hne).2.1
      rw [hpc] at this
      cases this
    exact h.announce hi (by rw [hpc]; rfl) rfl rfl hnil (.inl rfl) (List.nil_sublist _)
  next hpc =>
    refine h.move rfl (by simp) (by simp) (hregAt.step rfl ?_ ?_ ?_ (.inl rfl)) (fun _ => id) ?_
    · intro hne
      have := (hregAt.holds hne).2.2
      rw [hpc] at this
      cases this
    · intro _
      rw [hpc]
      rfl
    · intro x hx
      obtain rfl := Option.some.inj hx
      exact ⟨h.reg.global, le_rfl⟩
    · exact fun _ _ _ _ _ _ _ => trivial
  next g hpc =>
    have hnil : (s.reactors t).held = [] := by
      by_contra hne
      have := (hregAt.holds hne).2.2
      rw [hpc] at this
      cases this
    refine h.announce hi (by rw [hpc]; rfl) rfl rfl hnil ?_ (List.Sublist.refl _)
    show (if _ then _ else _) = _ ∨ _
    split
    · exact .inr rfl
    · exact .inl rfl
  next hpc =>
    have hold : (s.reactors t).pc.registering = false := by rw [hpc]; rfl
    dsimp only
    split
    · exact h.move rfl (by simp) (by simp) (hkeep _ rfl rfl rfl rfl hold) (fun _ => id)
        fun _ _ _ _ _ _ _ => trivial
    · refine h.move rfl (by simp) (by simp) (hkeep _ rfl rfl rfl rfl hold) (fun _ => id) ?_
      intro u j x hj _ _ _
      -- every index is still ahead of the scan
      have hlt := (h.reg.regAt u).idx j hj
      exact .inr ⟨Nat.zero_le _, by omega⟩
  next n k mn hpc =>
    have hold : (s.reactors t).pc.registering = false := by rw [hpc]; rfl
    have hspares : ∀ u j x, (s.reactors u).myIdx = some j → (s.reactors u).held ≠ [] →
        s.quiescent j ≤ x → (s.reactors t).pc.Spares j x →
        State.minQuiescent (s.quiescent k) mn ≤ x ∨ k + 1 ≤ j ∧ j < n := by
      intro u j x hj hne hq hs
      rw [hpc] at hs
      change mn ≤ x ∨ k ≤ j ∧ j < n at hs
      have hpos := (h.reg.regAt u).started j hj ((h.reg.regAt u).holds hne).2.1
      unfold State.minQuiescent
      by_cases hkj : k = j
      · subst hkj
        rw [if_neg hpos]
        split <;> omega
      · split
        · omega
        · split <;> omega
    show Inv (s.setReactor t { s.reactors t with pc := ite _ _ _ })
    split
    · exact h.move rfl (by simp) (by simp) (hkeep _ rfl rfl rfl rfl hold) (fun _ => id) hspares
    · split
      · exact h.move rfl (by simp) (by simp) (hkeep _ rfl rfl rfl rfl hold) (fun _ => id)
          fun _ _ _ _ _ _ _ => trivial
      · refine h.move rfl (by simp) (by simp) (hkeep _ rfl rfl rfl rfl hold) (fun _ => id) ?_
        intro u j x hj hne hq hs
        rcases hspares u j x hj hne hq hs with hle | hlt
        · exact hle
        · omega
  next safe k hpc =>
    have hold : (s.reactors t).pc.registering = false := by rw [hpc]; rfl
    dsimp only
    split
    next =>
      exact h.move rfl (by simp) (by simp) (hkeep _ rfl rfl rfl rfl hold) (fun _ => id)
        fun _ _ _ _ _ _ _ => trivial
    next cur hcur =>
      split
      next hlt => exact h.free hi hpc hcur hlt rfl rfl
      next =>
        refine h.move rfl (by simp) (by simp) (hkeep _ rfl rfl rfl rfl hold) (fun _ => id) ?_
        intro u j x _ _ _ hs
        rw [hpc] at hs
        exact hs
  next p hpc =>
    exact h.retire (r := { s.reactors t with pc := .idle }) hi hpc (hwrap p hpc) rfl rfl rfl rfl rfl
      rfl
  next => exact h

/-- **A step keeps the invariant**, unless it wraps `epoch_global`. -/
theorem next (h : Inv s) {l : Label} (hwrap : retires s l = true → s.epochGlobal < uint64Max)
    (hs : s.next l = some s') : Inv s' := by
  have hnone : ∀ {t}, (s.reactors t).myIdx = none → (s.reactors t).held = [] := by
    intro t hidx
    by_contra hne
    exact ((h.reg.regAt t).holds hne).1 hidx
  have hregistering : ∀ {t}, (s.reactors t).pc.registering = true → (s.reactors t).held = [] := by
    intro t hpc
    by_contra hne
    have := ((h.reg.regAt t).holds hne).2.1
    rw [hpc] at this
    cases this
  cases l with
  | register t =>
    simp only [State.next] at hs
    split at hs
    next hpc hidx =>
      obtain rfl := Option.some.inj hs
      refine h.move rfl (by simp) (by simp) ((h.reg.regAt t).step rfl ?_ ?_ ?_ (.inr hidx))
        (fun _ => id) fun _ _ _ _ _ _ _ => trivial
      · exact fun hne => absurd (hnone hidx) hne
      · intro hr
        cases hr
      · intro x hx
        cases hx
    next => exact Option.some.inj hs ▸ h
    next => cases hs
  | tick t =>
    simp only [State.next] at hs
    split at hs
    next i hpc hidx =>
      obtain rfl := Option.some.inj hs
      refine h.move rfl (by simp) (by simp) ((h.reg.regAt t).step rfl ?_ ?_ ?_ (.inl rfl)) ?_
        fun _ _ _ _ _ _ _ => trivial
      · exact fun hne => absurd rfl hne
      · intro _
        rw [hpc]
        rfl
      · intro x hx
        cases hx
      · intro p hp
        cases hp
    next => exact Option.some.inj hs ▸ h
    next => cases hs
  | gc t =>
    simp only [State.next] at hs
    split at hs
    next i hpc hidx =>
      obtain rfl := Option.some.inj hs
      refine h.move rfl (by simp) (by simp) ((h.reg.regAt t).step rfl ?_ ?_ ?_ (.inl rfl))
        (fun _ => id) fun _ _ _ _ _ _ _ => trivial
      · intro _
        simp [hidx, Pc.registering, Pc.ticking]
      · intro _
        rw [hpc]
        rfl
      · intro x hx
        cases hx
    next => exact Option.some.inj hs ▸ h
    next => cases hs
  | step t ok =>
    simp only [State.next] at hs
    split at hs
    next => cases hs
    next _ hpc =>
      have hheld := hregistering (t := t) (by rw [hpc]; rfl)
      have hidx := (h.reg.regAt t).joining (by rw [hpc]; rfl)
      split at hs
      next hmax =>
        obtain rfl := Option.some.inj hs
        exact h.enter (h.reg.overflow hmax rfl hidx hheld rfl) (by simp) hheld fun _ _ => trivial
      next hmax =>
        obtain rfl := Option.some.inj hs
        exact h.enter (h.reg.enroll (by omega) hheld rfl rfl) (by simp) hheld fun _ _ => trivial
    next _ hpc =>
      obtain rfl := Option.some.inj hs
      have hheld := hregistering (t := t) (by rw [hpc]; rfl)
      have hidx := (h.reg.regAt t).joining (by rw [hpc]; rfl)
      exact h.enter (h.reg.giveBack hpc rfl hidx hheld rfl) (by simp) hheld fun _ _ => trivial
    next i hidx _ _ _ =>
      obtain rfl := Option.some.inj hs
      refine h.stepAt hidx fun p hp => hwrap ?_
      simp [retires, hp]
    next => cases hs
  | load t x =>
    simp only [State.next] at hs
    split at hs
    next i hpc hidx =>
      obtain rfl := Option.some.inj hs
      exact h.load hidx hpc
    next => cases hs
  | use t p =>
    simp only [State.next] at hs
    split at hs
    next => exact Option.some.inj hs ▸ h
    next => cases hs
  | swap t x new =>
    simp only [State.next] at hs
    split at hs
    next i hpc hidx =>
      obtain rfl := Option.some.inj hs
      exact h.swap hidx hpc rfl rfl rfl
    next => cases hs

end Inv

theorem inv_init : Inv State.init := ⟨reg_init, ⟨_, placed_init⟩, guarded_init⟩

/-! ## Runs -/

/-- The step does not wrap `epoch_global`. -/
def noWrap (s : State) (l : Label) : Bool := !retires s l || s.epochGlobal < uint64Max

theorem Inv.run {ls : List Label} (hp : Path State.next (fun s l => noWrap s l = true) s ls s')
    (h : Inv s) : Inv s' := by
  refine hp.invariant (fun s l s' hinv hok hstep => hinv.next ?_ hstep) h
  intro hr
  simpa [noWrap, hr] using hok

/-- **No pointer is used after it was freed, and none is freed twice**, in every run in which
`epoch_global` does not wrap. -/
theorem retired_safe {ls : List Label}
    (hp : Path State.next (fun s l => noWrap s l = true) State.init ls s) :
    (∀ t p, s.next (.use t p) ≠ none → s.freed p = 0) ∧ ∀ p, s.freed p ≤ 1 := by
  obtain ⟨loc, hloc⟩ := (inv_init.run hp).placed
  constructor
  · intro t p huse
    have hmem : p ∈ (s.reactors t).held := by
      by_contra hno
      exact huse (if_neg hno)
    rw [hloc.freed, if_neg (hloc.held t p hmem).2]
  · intro p
    rw [hloc.freed]
    split <;> omega

/-- A run in which a reader holds a retired object through one collection, and gives it up before
the next. -/
theorem retired_safe_freed :
    ∃ ls s, run (guarded State.next noWrap) State.init ls = some s ∧ s.freed 0 = 1 ∧
      (∀ t p, s.next (.use t p) ≠ none → s.freed p = 0) ∧ ∀ p, s.freed p ≤ 1 := by
  obtain ⟨s, hrun, hfreed⟩ : ∃ s, run (guarded State.next noWrap) State.init
      [.register 0, .step 0 true, .step 0 true, .step 0 true,
        .register 1, .step 1 true, .step 1 true, .step 1 true,
        .swap 0 5 true, .load 1 5, .swap 0 5 false, .step 0 true,
        .gc 0, .step 0 true, .step 0 true, .step 0 true, .step 0 true, .step 0 true,
        .use 1 0, .tick 1, .step 1 true, .step 1 true, .tick 0, .step 0 true, .step 0 true,
        .gc 0, .step 0 true, .step 0 true, .step 0 true, .step 0 true, .step 0 true] = some s ∧
      s.freed 0 = 1 := ⟨_, rfl, rfl⟩
  exact ⟨_, s, hrun, hfreed, retired_safe (path_of_run_guarded hrun)⟩

/-! ## The wrap -/

/-- Thread 0 alone is registered, the object `p` is in slot 0, and the global epoch is `g`. -/
def solo (g p : ℕ) (held : List ℕ) : State where
  epochGlobal := g
  epochNthreads := 1
  epochThreads := Function.update (fun _ => ⟨0, [], 0⟩) 0 ⟨1, [], 0⟩
  reactors := Function.update (fun _ => ⟨none, [], .idle⟩) 0 ⟨some 0, held, .idle⟩
  slots := Function.update (fun _ => none) 0 (some p)
  fresh := p + 1
  freed := fun _ => 0

/-- Thread 0 replaces the object in slot 0; there is no memory for a node, so it is leaked. -/
theorem solo_replace (g p : ℕ) (held : List ℕ) :
    run State.next (solo g p held) [.swap 0 0 true, .step 0 false] =
      some (solo ((g + 1) % 2 ^ 64) (p + 1) ((p + 1) :: held)) := by
  simp [run, State.next, solo, State.setReactor, State.stepAt]

theorem solo_reach (n : ℕ) (held : List ℕ) :
    ∃ ls held', run State.next (solo 1 0 held) ls = some (solo ((n + 1) % 2 ^ 64) n held') := by
  induction n with
  | zero => exact ⟨[], held, rfl⟩
  | succ n ih =>
    obtain ⟨ls, held', hrun⟩ := ih
    have hnext := solo_replace ((n + 1) % 2 ^ 64) n held'
    rw [Nat.mod_add_mod] at hnext
    exact ⟨_, _, run_append hrun hnext⟩

/-- At the epoch 0 a reader advertises what stands for no epoch: a collection passes over it and
frees the object it holds. -/
theorem solo_use (p : ℕ) (held : List ℕ) :
    ∃ s, run State.next (solo 0 p held)
      [.register 1, .step 1 true, .step 1 true, .step 1 true, .load 1 0,
        .swap 0 0 false, .step 0 true, .tick 0, .step 0 true, .step 0 true,
        .gc 0, .step 0 true, .step 0 true, .step 0 true, .step 0 true, .step 0 true] = some s ∧
      s.freed p = 1 ∧ (s.reactors 1).held = [p] :=
  ⟨_, rfl, Function.update_self p _ _, rfl⟩

/-- After 2^64 - 1 retirements a thread may use a pointer that has been freed. -/
theorem used_after_free :
    ∃ ls s p, run State.next State.init ls = some s ∧ s.freed p = 1 ∧
      s.next (.use 1 p) ≠ none := by
  have hstart : run State.next State.init
      [.register 0, .step 0 true, .step 0 true, .step 0 true, .swap 0 0 true] =
      some (solo 1 0 [0]) := by
    simp [run, State.next, State.init, solo, State.setReactor, State.setThread, State.stepAt,
      epochMaxThreads]
  obtain ⟨ls, held, hreach⟩ := solo_reach (2 ^ 64 - 1) [0]
  obtain ⟨s, huse, hfreed, hheld⟩ := solo_use (2 ^ 64 - 1) held
  refine ⟨_, s, _, run_append hstart (run_append hreach huse), hfreed, ?_⟩
  simp [State.next, hheld]

end Alcove.Epoch
