import Alcove.Epoch.Registry

/-!
# Where the objects are

An object is in a slot, on its way to a retire list, in the list of one index, leaked or freed
(`Loc`). `Placed` says that the state agrees with such a map of the objects, so that an object has
one node at most and is freed once at most.
-/

namespace Alcove.Epoch

open Lib

variable {s s' : State}

/-- Where an object is. -/
inductive Loc
  | unborn
  | slot (x : ℕ)
  /-- removed by the thread, which is about to retire it -/
  | pending (t : ℕ)
  | listed (i : ℕ)
  /-- retired without a node -/
  | leaked
  | freed
  deriving DecidableEq

/-- An object that a thread may hold. -/
def Loc.usable (l : Loc) : Prop := l ≠ .unborn ∧ l ≠ .freed

/-- The objects are where `loc` says. -/
structure Placed (s : State) (loc : ℕ → Loc) : Prop where
  slot : ∀ x p, s.slots x = some p → loc p = .slot x
  pending : ∀ t p, (s.reactors t).pc = .retire p → loc p = .pending t
  listed : ∀ i, ∀ node ∈ (s.epochThreads i).retireHead, loc node.ptr = .listed i
  nodup : ∀ i, ((s.epochThreads i).retireHead.map RetireNode.ptr).Nodup
  freed : ∀ p, s.freed p = if loc p = .freed then 1 else 0
  unborn : ∀ p, s.fresh ≤ p → loc p = .unborn
  held : ∀ t, ∀ p ∈ (s.reactors t).held, (loc p).usable

theorem placed_init : Placed State.init fun _ => .unborn where
  slot := by
    intro x p h
    cases h
  pending := by
    intro t p h
    cases h
  listed := by
    intro i node h
    cases h
  nodup := fun _ => List.nodup_nil
  freed := fun _ => rfl
  unborn := fun _ _ => rfl
  held := by
    intro t p h
    cases h

namespace Placed

variable {loc : ℕ → Loc} {t : ℕ} {r : Reactor}

/-- A thread moves on without a pointer to retire, and holds nothing that is gone. -/
theorem move (h : Placed s loc) (hpc : ∀ p, r.pc ≠ .retire p)
    (hheld : ∀ p ∈ r.held, (loc p).usable) : Placed (s.setReactor t r) loc where
  slot := h.slot
  pending := forall_setReactor (P := fun t r => ∀ p, r.pc = .retire p → loc p = .pending t)
    (fun p hp => absurd hp (hpc p)) fun t' _ => h.pending t'
  listed := h.listed
  nodup := h.nodup
  freed := h.freed
  unborn := h.unborn
  held := forall_setReactor (P := fun _ r => ∀ p ∈ r.held, (loc p).usable) hheld
    fun t' _ => h.held t'

/-- The lists only lose nodes. -/
theorem congr (h : Placed s loc) (hslots : s'.slots = s.slots) (hfresh : s'.fresh = s.fresh)
    (hfreed : s'.freed = s.freed) (hr : s'.reactors = s.reactors)
    (hlist : ∀ i, (s'.epochThreads i).retireHead.Sublist (s.epochThreads i).retireHead) :
    Placed s' loc where
  slot := by
    rw [hslots]
    exact h.slot
  pending := by
    rw [hr]
    exact h.pending
  listed := fun i node hn => h.listed i node ((hlist i).subset hn)
  nodup := fun i => (h.nodup i).sublist ((hlist i).map _)
  freed := by
    rw [hfreed]
    exact h.freed
  unborn := by
    rw [hfresh]
    exact h.unborn
  held := by
    rw [hr]
    exact h.held

/-- A node leaves its list and its object is freed, which nobody holds. -/
theorem free (h : Placed s loc) {i k : ℕ} {cur : RetireNode} {e : EpochThread}
    (hcur : (s.epochThreads i).retireHead[k]? = some cur)
    (he : e.retireHead = (s.epochThreads i).retireHead.eraseIdx k)
    (hheld : ∀ t, cur.ptr ∉ (s.reactors t).held) :
    Placed { s.setThread i e with
      freed := Function.update s.freed cur.ptr (s.freed cur.ptr + 1) }
      (Function.update loc cur.ptr .freed) := by
  obtain ⟨hk, hget⟩ := List.getElem?_eq_some_iff.mp hcur
  have hmem : cur ∈ (s.epochThreads i).retireHead := hget ▸ List.getElem_mem hk
  have hloc := h.listed i cur hmem
  have hne : ∀ {p l}, loc p = l → l ≠ .listed i → p ≠ cur.ptr := by
    rintro p l hl hnot rfl
    exact hnot (hl.symm.trans hloc)
  have hkeep : ∀ {p l}, loc p = l → l ≠ .listed i →
      Function.update loc cur.ptr Loc.freed p = l := by
    intro p l hl hnot
    rw [Function.update_of_ne (hne hl hnot), hl]
  have hlists : ∀ j, ((s.setThread i e).epochThreads j).retireHead =
      if j = i then (s.epochThreads i).retireHead.eraseIdx k else (s.epochThreads j).retireHead := by
    intro j
    show (Function.update s.epochThreads i e j).retireHead = _
    rw [Function.update_apply]
    split
    · exact he
    · rfl
  -- the other nodes of the list have other objects
  have hother : ∀ node ∈ (s.epochThreads i).retireHead.eraseIdx k, node.ptr ≠ cur.ptr := by
    intro node hn hp
    obtain ⟨a, hak, ha⟩ := List.mem_eraseIdx_iff_getElem?.mp hn
    have hsame : ((s.epochThreads i).retireHead.map RetireNode.ptr)[a]? =
        ((s.epochThreads i).retireHead.map RetireNode.ptr)[k]? := by
      rw [List.getElem?_map, List.getElem?_map, ha, hcur, Option.map_some, Option.map_some, hp]
    have hlt : a < ((s.epochThreads i).retireHead.map RetireNode.ptr).length := by
      rw [List.length_map]
      exact (List.getElem?_eq_some_iff.mp ha).1
    exact hak ((List.getElem?_inj hlt (h.nodup i)).mp hsame)
  refine ⟨fun x p hx => hkeep (h.slot x p hx) (by simp), fun t p hp => hkeep (h.pending t p hp)
    (by simp), fun j node hn => ?_, fun j => ?_, fun p => ?_, fun p hp => hkeep (h.unborn p hp)
    (by simp), fun t p hp => ?_⟩
  · rw [hlists] at hn
    split at hn
    · rename_i hji
      rw [Function.update_of_ne (hother node hn), hji]
      exact h.listed i node (List.mem_of_mem_eraseIdx hn)
    · rename_i hji
      exact hkeep (h.listed j node hn) (by simpa using hji)
  · rw [hlists]
    split
    · exact (h.nodup i).sublist ((List.eraseIdx_sublist _ _).map _)
    · exact h.nodup j
  · show Function.update s.freed cur.ptr (s.freed cur.ptr + 1) p = _
    by_cases hp : p = cur.ptr
    · subst hp
      simp [h.freed, hloc]
    · simp [Function.update_of_ne hp, h.freed]
  · have hpc : p ≠ cur.ptr := by
      rintro rfl
      exact hheld t hp
    rw [Function.update_of_ne hpc]
    exact h.held t p hp

/-- One object changes its place. -/
theorem relocate (h : Placed s loc) {p : ℕ} {l : Loc} (hl : l.usable) (hloc : loc p ≠ .freed)
    (hslot : ∀ x q, s'.slots x = some q →
      q ≠ p ∧ s.slots x = some q ∨ q = p ∧ l = .slot x)
    (hpending : ∀ t q, (s'.reactors t).pc = .retire q →
      q ≠ p ∧ (s.reactors t).pc = .retire q ∨ q = p ∧ l = .pending t)
    (hlisted : ∀ i, ∀ node ∈ (s'.epochThreads i).retireHead,
      node.ptr ≠ p ∧ node ∈ (s.epochThreads i).retireHead ∨ node.ptr = p ∧ l = .listed i)
    (hnodup : ∀ i, ((s'.epochThreads i).retireHead.map RetireNode.ptr).Nodup)
    (hfreed : s'.freed = s.freed) (hfresh : ∀ q, s'.fresh ≤ q → q ≠ p ∧ s.fresh ≤ q)
    (hheld : ∀ t, ∀ q ∈ (s'.reactors t).held, q = p ∨ q ∈ (s.reactors t).held) :
    Placed s' (Function.update loc p l) := by
  have hkeep : ∀ {q l'}, q ≠ p ∧ loc q = l' ∨ q = p ∧ l = l' →
      Function.update loc p l q = l' := by
    rintro q l' (⟨hne, hq⟩ | ⟨rfl, rfl⟩)
    · rw [Function.update_of_ne hne, hq]
    · exact Function.update_self _ _ _
  refine ⟨fun x q hx => hkeep ?_, fun t q hq => hkeep ?_, fun i node hn => hkeep ?_, hnodup,
    fun q => ?_, fun q hq => hkeep (.inl ⟨(hfresh q hq).1, h.unborn q (hfresh q hq).2⟩),
    fun t q hq => ?_⟩
  · exact (hslot x q hx).imp_left fun hq => ⟨hq.1, h.slot x q hq.2⟩
  · exact (hpending t q hq).imp_left fun hq => ⟨hq.1, h.pending t q hq.2⟩
  · exact (hlisted i node hn).imp_left fun hn => ⟨hn.1, h.listed i node hn.2⟩
  · rw [hfreed, h.freed]
    by_cases hq : q = p
    · subst hq
      rw [Function.update_self, if_neg hloc, if_neg hl.2]
    · rw [Function.update_of_ne hq]
  · by_cases hqp : q = p
    · subst hqp
      rw [Function.update_self]
      exact hl
    · rw [Function.update_of_ne hqp]
      exact h.held t q ((hheld t q hq).resolve_left hqp)

/-- The thread retires its pending object: a node for it enters the list of the thread, or it is
leaked. -/
theorem retire (h : Placed s loc) {i p g : ℕ} {e : EpochThread} {ok : Bool}
    (hp : (s.reactors t).pc = .retire p) (hr : r.pc = .idle)
    (hheld : r.held = (s.reactors t).held)
    (he : e.retireHead = ⟨p, g⟩ :: (s.epochThreads i).retireHead)
    (hs' : s' = if ok then (s.setReactor t r).setThread i e else s.setReactor t r) :
    ∃ loc', Placed s' loc' := by
  have hloc := h.pending t p hp
  have hreactor : s'.reactors = (s.setReactor t r).reactors := by
    subst hs'
    split <;> rfl
  have hlists : ∀ j, (s'.epochThreads j).retireHead = (s.epochThreads j).retireHead ∨
      ok = true ∧ j = i ∧ (s'.epochThreads j).retireHead = ⟨p, g⟩ :: (s.epochThreads i).retireHead := by
    intro j
    subst hs'
    cases ok with
    | false => exact .inl rfl
    | true =>
      by_cases hj : j = i
      · refine .inr ⟨rfl, hj, ?_⟩
        show (Function.update s.epochThreads i e j).retireHead = _
        rw [hj, Function.update_self, he]
      · refine .inl ?_
        show (Function.update s.epochThreads i e j).retireHead = _
        rw [Function.update_of_ne hj]
  have hother : ∀ j, ∀ node ∈ (s.epochThreads j).retireHead, node.ptr ≠ p := by
    intro j node hn hnp
    have hlisted := h.listed j node hn
    rw [hnp, hloc] at hlisted
    cases hlisted
  refine ⟨_, h.relocate (p := p) (l := if ok then .listed i else .leaked) ?_ (by simp [hloc]) ?_ ?_ ?_ ?_
    ?_ ?_ ?_⟩
  · cases ok <;> simp [Loc.usable]
  · intro x q hx
    have hx' : s.slots x = some q := by
      subst hs'
      cases ok <;> exact hx
    refine .inl ⟨?_, hx'⟩
    rintro rfl
    have hslot := h.slot x q hx'
    rw [hloc] at hslot
    cases hslot
  · rw [hreactor]
    refine forall_setReactor (P := fun t' r => ∀ q, r.pc = .retire q →
      q ≠ p ∧ (s.reactors t').pc = .retire q ∨ q = p ∧ (if ok then .listed i else .leaked) =
        Loc.pending t') (fun q hq => by rw [hr] at hq; cases hq) fun t' hne q hq => .inl ⟨?_, hq⟩
    rintro rfl
    have hpend := h.pending t' q hq
    rw [hloc] at hpend
    exact hne (Loc.pending.inj hpend).symm
  · intro j node hn
    rcases hlists j with hj | ⟨hok, hji, hj⟩
    · rw [hj] at hn
      exact .inl ⟨hother j node hn, hn⟩
    · rw [hj] at hn
      rcases List.mem_cons.mp hn with rfl | hn
      · exact .inr ⟨rfl, by rw [hok, hji]; rfl⟩
      · exact .inl ⟨hother i node hn, hji ▸ hn⟩
  · intro j
    rcases hlists j with hj | ⟨-, -, hj⟩
    · rw [hj]
      exact h.nodup j
    · rw [hj, List.map_cons, List.nodup_cons]
      refine ⟨fun hmem => ?_, h.nodup i⟩
      obtain ⟨node, hn, hnp⟩ := List.mem_map.mp hmem
      exact hother i node hn hnp
  · subst hs'
    split <;> rfl
  · intro q hq
    have hq' : s.fresh ≤ q := by
      subst hs'
      cases ok <;> exact hq
    refine ⟨?_, hq'⟩
    rintro rfl
    rw [h.unborn q hq'] at hloc
    cases hloc
  · rw [hreactor]
    exact forall_setReactor (P := fun t' r => ∀ q ∈ r.held, q = p ∨ q ∈ (s.reactors t').held)
      (fun q hq => .inr (hheld ▸ hq)) fun t' _ q hq => .inr hq

/-- A thread takes the content of a slot out, to retire it. -/
theorem unlink (h : Placed s loc) {x : ℕ} (hpc : r.pc = (s.slots x).elim .idle .retire)
    (hheld : r.held = (s.reactors t).held) :
    ∃ loc', Placed ({ s with slots := Function.update s.slots x none }.setReactor t r) loc' := by
  have hslots : ∀ y q, Function.update s.slots x none y = some q → y ≠ x ∧ s.slots y = some q := by
    intro y q hy
    by_cases hyx : y = x
    · rw [hyx, Function.update_self] at hy
      cases hy
    · rw [Function.update_of_ne hyx] at hy
      exact ⟨hyx, hy⟩
  cases hx : s.slots x with
  | none =>
    rw [hx] at hpc
    refine ⟨loc, fun y q hy => h.slot y q (hslots y q hy).2, ?_, h.listed, h.nodup, h.freed,
      h.unborn, ?_⟩
    · exact forall_setReactor (P := fun t r => ∀ p, r.pc = .retire p → loc p = .pending t)
        (fun p hp => by rw [hpc] at hp; cases hp) fun t' _ => h.pending t'
    · exact forall_setReactor (P := fun _ r => ∀ p ∈ r.held, (loc p).usable)
        (fun p hp => h.held t p (hheld ▸ hp)) fun t' _ => h.held t'
  | some p =>
    rw [hx] at hpc
    have hloc := h.slot x p hx
    refine ⟨_, h.relocate (p := p) (l := .pending t) (by simp [Loc.usable]) (by simp [hloc]) ?_ ?_ ?_
      h.nodup rfl ?_ ?_⟩
    · intro y q hy
      obtain ⟨hyx, hy⟩ := hslots y q hy
      refine .inl ⟨?_, hy⟩
      rintro rfl
      have hslot := h.slot y q hy
      rw [hloc] at hslot
      exact hyx (Loc.slot.inj hslot).symm
    · refine forall_setReactor (P := fun t' r => ∀ q, r.pc = .retire q →
        q ≠ p ∧ (s.reactors t').pc = .retire q ∨ q = p ∧ Loc.pending t = .pending t') ?_ ?_
      · intro q hq
        rw [hpc] at hq
        exact .inr ⟨(Pc.retire.inj hq).symm, rfl⟩
      · intro t' _ q hq
        refine .inl ⟨?_, hq⟩
        rintro rfl
        have hpend := h.pending t' q hq
        rw [hloc] at hpend
        cases hpend
    · intro i node hn
      refine .inl ⟨?_, hn⟩
      intro hnp
      have hlisted := h.listed i node hn
      rw [hnp, hloc] at hlisted
      cases hlisted
    · intro q hq
      refine ⟨?_, hq⟩
      rintro rfl
      rw [h.unborn q hq] at hloc
      cases hloc
    · exact forall_setReactor (P := fun t' r => ∀ q ∈ r.held, q = p ∨ q ∈ (s.reactors t').held)
        (fun q hq => .inr (hheld ▸ hq)) fun t' _ q hq => .inr hq

/-- A thread puts a new object into a slot, and may use it. -/
theorem publish (h : Placed s loc) {x : ℕ} (hpc : r.pc = (s.reactors t).pc) (hheld : r.held = s.fresh :: (s.reactors t).held) :
    ∃ loc', Placed ({ s with
      slots := Function.update s.slots x (some s.fresh), fresh := s.fresh + 1 }.setReactor t r)
        loc' := by
  have hloc := h.unborn s.fresh le_rfl
  have hne : ∀ {q l}, loc q = l → l ≠ .unborn → q ≠ s.fresh := by
    rintro q l hl hnot rfl
    exact hnot (hl.symm.trans hloc)
  refine ⟨_, h.relocate (l := .slot x) (p := s.fresh) (by simp [Loc.usable]) (by simp [hloc]) ?_
    ?_ (fun i node hn => .inl ⟨hne (h.listed i node hn) (by simp), hn⟩) h.nodup rfl ?_ ?_⟩
  · intro y q hy
    change Function.update s.slots x (some s.fresh) y = some q at hy
    by_cases hyx : y = x
    · rw [hyx, Function.update_self] at hy
      exact .inr ⟨(Option.some.inj hy).symm, by rw [hyx]⟩
    · rw [Function.update_of_ne hyx] at hy
      exact .inl ⟨hne (h.slot y q hy) (by simp), hy⟩
  · exact forall_setReactor (P := fun t' r => ∀ q, r.pc = .retire q →
      q ≠ s.fresh ∧ (s.reactors t').pc = .retire q ∨ q = s.fresh ∧ Loc.slot x = .pending t')
      (fun q hq => .inl ⟨hne (h.pending t q (hpc ▸ hq)) (by simp), hpc ▸ hq⟩)
      fun t' _ q hq => .inl ⟨hne (h.pending t' q hq) (by simp), hq⟩
  · intro q hq
    change s.fresh + 1 ≤ q at hq
    exact ⟨by omega, by omega⟩
  · exact forall_setReactor (P := fun t' r => ∀ q ∈ r.held,
      q = s.fresh ∨ q ∈ (s.reactors t').held) (fun q hq => List.mem_cons.mp (hheld ▸ hq))
      fun t' _ q hq => .inr hq

/-- The swap of a slot for a new object, or for `NULL`. -/
theorem swap (h : Placed s loc) {x : ℕ} {new : Bool}
    (hheld : r.held = if new then s.fresh :: (s.reactors t).held else (s.reactors t).held)
    (hpc : r.pc = (s.slots x).elim .idle .retire) :
    ∃ loc', Placed ({ s with
      slots := Function.update s.slots x (if new then some s.fresh else none)
      fresh := if new then s.fresh + 1 else s.fresh }.setReactor t r) loc' := by
  cases new with
  | false => exact h.unlink hpc hheld
  | true =>
    obtain ⟨loc₁, h₁⟩ := h.unlink (t := t) (r := { r with held := (s.reactors t).held }) hpc rfl
    have hself : (Function.update s.reactors t { r with held := (s.reactors t).held }) t =
        { r with held := (s.reactors t).held } := Function.update_self _ _ _
    obtain ⟨loc₂, h₂⟩ := h₁.publish (x := x) (t := t) (r := r)
      (congrArg Reactor.pc hself).symm
      (hheld.trans (congrArg (s.fresh :: ·) (congrArg Reactor.held hself).symm))
    refine ⟨loc₂, ?_⟩
    simpa only [State.setReactor, Function.update_idem, if_true] using h₂

end Placed

end Alcove.Epoch
