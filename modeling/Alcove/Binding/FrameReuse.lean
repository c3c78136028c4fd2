import Alcove.Binding.Code

/-!
# Code that runs in a frame that is reused

The same code runs in a frame of the caller that was emptied for it, and in a new frame whose `root`
is another environment. Where the closures that there are do not reach the caller's frame
(`Site.held`), and where each free name of the code has the same binder from both roots
(`HeapSim.agree`), every operation returns the same and keeps the two heaps alike.

**Main result:** `Code.exec_sim`.
-/

namespace Alcove.Binding

variable {V : Type}

/-- A tail call: the number of the caller's frame and how many environments there are, the `root` of
the frame that is reused and of the new one, the global environment, and what the code knows. -/
structure Site where
  env : ℕ
  count : ℕ
  root : ℕ
  captured : ℕ
  global : ℕ
  free : List CStr
  held : List ℕ

namespace Site

variable (x : Site)

/-- The code runs in the caller's frame. -/
def reuse : Activation := ⟨x.env, x.count, x.free, x.held⟩

/-- The code runs in a new frame. -/
def anew : Activation := ⟨x.count, x.count + 1, x.free, x.held⟩

/-- The two numbers of one environment. -/
def Rel (i j : ℕ) : Prop :=
  (i = x.env ∧ j = x.count) ∨ (∃ k, i = x.count + k ∧ j = x.count + 1 + k) ∨
    (i = j ∧ i < x.count ∧ i ≠ x.env)

/-- The two numbers of an environment that a handle or a `root` refers to. -/
def Ref (inner : List Bool) : Bool → ℕ → ℕ → Prop
  | true, i, j => (i = x.env ∧ j = x.count) ∨ (i = x.root ∧ j = x.captured) ∨
      ∃ k, inner[k]? = some true ∧ i = x.count + k ∧ j = x.count + 1 + k
  | false, i, j => (i = j ∧ i ∈ x.held) ∨
      ∃ k, inner[k]? = some false ∧ i = x.count + k ∧ j = x.count + 1 + k

/-- A frame that is known under the numbers `i` and `j`, and its roots. -/
def Pair (inner : List Bool) (h h' : Heap V) (b : Bool) (i j : ℕ) : Prop :=
  ∃ e e' r r', h.envs[i]? = some e ∧ h'.envs[j]? = some e' ∧ e.Alike e'.toFrame ∧
    e.root = some r ∧ e'.root = some r' ∧ x.Ref inner b r r'

end Site

/-- **The heaps of the two runs.** -/
structure HeapSim (x : Site) (inner : List Bool) (h h' : Heap V) : Prop where
  env_lt : x.env < x.count
  count : h.envs.length = x.count + inner.length
  count' : h'.envs.length = x.count + 1 + inner.length
  old : ∀ i < x.count, i ≠ x.env → h.envs[i]? = h'.envs[i]?
  frame : ∃ e e', h.envs[x.env]? = some e ∧ h'.envs[x.count]? = some e' ∧ e.Alike e'.toFrame ∧
    e.root = some x.root ∧ e'.root = some x.captured
  made : ∀ k b, inner[k]? = some b → x.Pair inner h h' b (x.count + k) (x.count + 1 + k)
  held_old : ∀ i ∈ x.held, i < x.count ∧ i ≠ x.env
  held_root : ∀ i ∈ x.held, ∀ e r, h.envs[i]? = some e → e.root = some r → r ∈ x.held
  global_old : x.global < x.count ∧ x.global ≠ x.env
  global_root : ∃ e, h.envs[x.global]? = some e ∧ e.root = none
  single : h.SingleRoot x.global
  single' : h'.SingleRoot x.global
  agree : ∀ key ∈ x.free, h.binder (some x.root) key = h'.binder (some x.captured) key

namespace HeapSim

variable {x : Site} {inner : List Bool} {h h' : Heap V} {i j : ℕ} {b : Bool} {key : CStr}

theorem root_lt (sim : HeapSim x inner h h') : x.root < x.env := by
  obtain ⟨e, -, he, -, -, hr, -⟩ := sim.frame
  exact h.rooted x.env e x.root he hr

theorem captured_lt (sim : HeapSim x inner h h') : x.captured < x.count := by
  obtain ⟨-, e', -, he', -, -, hr'⟩ := sim.frame
  exact h'.rooted x.count e' x.captured he' hr'

theorem lt_inner {k : ℕ} (hk : inner[k]? = some b) : k < inner.length :=
  (List.getElem?_eq_some_iff.mp hk).1

theorem ref_lt (sim : HeapSim x inner h h') (href : x.Ref inner b i j) :
    i < h.envs.length ∧ j < h'.envs.length := by
  have hroot := sim.root_lt
  have hcaptured := sim.captured_lt
  have henv := sim.env_lt
  rw [sim.count, sim.count']
  cases b with
  | true =>
    obtain ⟨rfl, rfl⟩ | ⟨rfl, rfl⟩ | ⟨k, hk, rfl, rfl⟩ := href
    · omega
    · omega
    · have := lt_inner hk
      omega
  | false =>
    obtain ⟨rfl, hi⟩ | ⟨k, hk, rfl, rfl⟩ := href
    · have := (sim.held_old i hi).1
      omega
    · have := lt_inner hk
      omega

/-- Two numbers of one environment have frames that are alike. -/
theorem pair (sim : HeapSim x inner h h') (hrel : x.Rel i j) (hi : i < h.envs.length) :
    ∃ e e', h.envs[i]? = some e ∧ h'.envs[j]? = some e' ∧ e.Alike e'.toFrame ∧
      e.root.isNone = e'.root.isNone := by
  obtain ⟨rfl, rfl⟩ | ⟨k, rfl, rfl⟩ | ⟨rfl, hlt, hne⟩ := hrel
  · obtain ⟨e, e', he, he', halike, hr, hr'⟩ := sim.frame
    exact ⟨e, e', he, he', halike, by rw [hr, hr']; rfl⟩
  · rw [sim.count] at hi
    have hk : inner[k]? = some inner[k] := List.getElem?_eq_getElem (by omega)
    obtain ⟨e, e', r, r', he, he', halike, hr, hr', -⟩ := sim.made k _ hk
    exact ⟨e, e', he, he', halike, by rw [hr, hr']; rfl⟩
  · have he : h.envs[i]? = some h.envs[i] := List.getElem?_eq_getElem hi
    exact ⟨_, _, he, (sim.old i hlt hne) ▸ he, Frame.Alike.refl _, rfl⟩

/-! ## Names -/

/-- The two searches end in the same environment, or find none. -/
def Found (x : Site) : Option ℕ → Option ℕ → Prop
  | none, none => True
  | some i, some j => x.Rel i j
  | _, _ => False

/-- A name looked up from an environment whose chain does not meet the frame. -/
theorem binder_outer (sim : HeapSim x inner h h') (href : x.Ref inner false i j) (key : CStr) :
    Found x (h.binder (some i) key) (h'.binder (some j) key) := by
  induction i using Nat.strong_induction_on generalizing j with
  | _ i ih =>
    obtain ⟨rfl, hi⟩ | ⟨k, hk, rfl, rfl⟩ := href
    · obtain ⟨hlt, hne⟩ := sim.held_old i hi
      have hi' : i < h.envs.length := by rw [sim.count]; omega
      have he : h.envs[i]? = some h.envs[i] := List.getElem?_eq_getElem hi'
      have he' := (sim.old i hlt hne) ▸ he
      rw [Heap.binder_some he, Heap.binder_some he']
      split
      · exact .inr (.inr ⟨rfl, hlt, hne⟩)
      · cases hr : (h.envs[i]).root with
        | none => trivial
        | some r => exact ih r (h.rooted i _ r he hr) (.inl ⟨rfl, sim.held_root i hi _ r he hr⟩)
    · obtain ⟨e, e', r, r', he, he', halike, hr, hr', href'⟩ := sim.made k false hk
      rw [Heap.binder_some he, Heap.binder_some he', ← halike.binds]
      split
      · exact .inr (.inl ⟨k, rfl, rfl⟩)
      · rw [hr, hr']
        exact ih r (h.rooted _ e r he hr) href'

/-- A name looked up from an environment whose chain meets the frame is bound in the frame or below
it, or the search goes on from the two roots. -/
theorem binder_inner (sim : HeapSim x inner h h') (href : x.Ref inner true i j) (key : CStr) :
    (∃ b b', h.binder (some i) key = some b ∧ h'.binder (some j) key = some b' ∧ x.Rel b b' ∧
        (b = x.env ∨ x.count ≤ b) ∧ x.count ≤ b') ∨
      (h.binder (some i) key = h.binder (some x.root) key ∧
        h'.binder (some j) key = h'.binder (some x.captured) key) := by
  induction i using Nat.strong_induction_on generalizing j with
  | _ i ih =>
    obtain ⟨rfl, rfl⟩ | ⟨rfl, rfl⟩ | ⟨k, hk, rfl, rfl⟩ := href
    · obtain ⟨e, e', he, he', halike, hr, hr'⟩ := sim.frame
      rw [Heap.binder_some he, Heap.binder_some he', ← halike.binds, hr, hr']
      split
      · exact .inl ⟨_, _, rfl, rfl, .inl ⟨rfl, rfl⟩, .inl rfl, Nat.le_refl _⟩
      · exact .inr ⟨rfl, rfl⟩
    · exact .inr ⟨rfl, rfl⟩
    · obtain ⟨e, e', r, r', he, he', halike, hr, hr', href'⟩ := sim.made k true hk
      rw [Heap.binder_some he, Heap.binder_some he', ← halike.binds, hr, hr']
      split
      · exact .inl ⟨_, _, rfl, rfl, .inr (.inl ⟨k, rfl, rfl⟩), .inr (by omega), by omega⟩
      · exact ih r (h.rooted _ e r he hr) href'

/-- Free names are bound alike from the two roots. -/
theorem binder_free (sim : HeapSim x inner h h') (hkey : key ∈ x.free) :
    Found x (h.binder (some x.root) key) (h'.binder (some x.captured) key) := by
  have hroot := sim.root_lt
  have henv := sim.env_lt
  rw [← sim.agree key hkey]
  cases hb : h.binder (some x.root) key with
  | none => trivial
  | some b =>
    have := Heap.binder_le hb
    exact .inr (.inr ⟨rfl, by omega, by omega⟩)

theorem own_reuse : x.reuse.own i = true ↔ i = x.env ∨ x.count ≤ i := by
  show (decide (i = x.env) || decide (x.count ≤ i)) = true ↔ _
  rw [Bool.or_eq_true, decide_eq_true_eq, decide_eq_true_eq]

theorem own_anew : x.anew.own i = true ↔ x.count ≤ i := by
  show (decide (i = x.count) || decide (x.count + 1 ≤ i)) = true ↔ _
  rw [Bool.or_eq_true, decide_eq_true_eq, decide_eq_true_eq]
  omega

/-- What a search from the old root finds is not the code's own. -/
theorem not_own_root (sim : HeapSim x inner h h') (key : CStr) :
    (h.binder (some x.root) key).any x.reuse.own = false := by
  have hroot := sim.root_lt
  have henv := sim.env_lt
  cases hb : h.binder (some x.root) key with
  | none => rfl
  | some b =>
    have hle := Heap.binder_le hb
    rw [Option.any_some, Bool.eq_false_iff, ne_eq, own_reuse]
    omega

theorem not_own_captured (sim : HeapSim x inner h h') (key : CStr) :
    (h'.binder (some x.captured) key).any x.anew.own = false := by
  have hcaptured := sim.captured_lt
  cases hb : h'.binder (some x.captured) key with
  | none => rfl
  | some b =>
    have hle := Heap.binder_le hb
    rw [Option.any_some, Bool.eq_false_iff, ne_eq, own_anew]
    omega

variable {vm : Vm V}

/-- **What code sees is the same in both runs, and is bound alike.** -/
theorem sees (sim : HeapSim x inner vm.heap h') (href : x.Ref inner b i j) (key : CStr) :
    x.reuse.sees ⟨vm, inner⟩ (i, b) key = x.anew.sees ⟨{ vm with heap := h' }, inner⟩ (j, b) key ∧
      (x.reuse.sees ⟨vm, inner⟩ (i, b) key = true →
        Found x (vm.heap.binder (some i) key) (h'.binder (some j) key)) := by
  cases b with
  | false => exact ⟨rfl, fun _ => sim.binder_outer href key⟩
  | true =>
    obtain ⟨b, b', hb, hb', hrel, hown, hown'⟩ | ⟨hb, hb'⟩ := sim.binder_inner href key
    · have hleft : x.reuse.own b = true := own_reuse.mpr hown
      have hright : x.anew.own b' = true := own_anew.mpr hown'
      simp only [Activation.sees, hb, hb', Option.any_some, hleft, hright, Bool.or_true]
      exact ⟨trivial, fun _ => hrel⟩
    · have hleft : (vm.heap.binder (some i) key).any x.reuse.own = false := by
        rw [hb]
        exact sim.not_own_root key
      have hright : (h'.binder (some j) key).any x.anew.own = false := by
        rw [hb']
        exact sim.not_own_captured key
      simp only [Activation.sees, hleft, hright, Bool.or_false, Bool.not_true, Bool.false_or]
      refine ⟨rfl, fun hfree => ?_⟩
      rw [hb, hb']
      exact sim.binder_free (List.contains_iff_mem.mp hfree)

/-! ## Bindings -/

/-- The two searches met the same binding, in frames that are alike. -/
def Met (x : Site) (h h' : Heap V) (scan : Scan V) (key : CStr) (m m' : Option (ℕ × Place)) : Prop :=
  (m = none ∧ m' = none) ∨ ∃ i j p e e', m = some (i, p) ∧ m' = some (j, p) ∧ x.Rel i j ∧
    h.envs[i]? = some e ∧ h'.envs[j]? = some e' ∧ e.Alike e'.toFrame ∧
    e.root.isNone = e'.root.isNone ∧ e.find scan key = some p

theorem walk (sim : HeapSim x inner h h')
    (hfound : Found x (h.binder (some i) key) (h'.binder (some j) key)) {scan : Scan V}
    (halike : ∀ e e' : Frame V, e.Alike e' → scan e key = scan e' key)
    (hscan : ∀ e : Frame V, (e.find scan key).isSome = e.binds key) :
    Met x h h' scan key (h.walk scan (some i) key) (h'.walk scan (some j) key) := by
  rw [Heap.walk_eq_binder hscan, Heap.walk_eq_binder hscan]
  cases hb : h.binder (some i) key with
  | none =>
    cases hb' : h'.binder (some j) key with
    | none => exact .inl ⟨rfl, rfl⟩
    | some b' => rw [hb, hb'] at hfound; exact hfound.elim
  | some b =>
    cases hb' : h'.binder (some j) key with
    | none => rw [hb, hb'] at hfound; exact hfound.elim
    | some b' =>
      rw [hb, hb'] at hfound
      obtain ⟨e, he, hbinds⟩ := Heap.exists_of_binder hb
      obtain ⟨f, f', hf, hf', hsame, hnone⟩ :=
        sim.pair hfound (List.getElem?_eq_some_iff.mp he).1
      obtain rfl : e = f := Option.some.inj (he.symm.trans hf)
      rw [← hscan] at hbinds
      obtain ⟨p, hp⟩ := Option.isSome_iff_exists.mp hbinds
      have hp' : f'.find scan key = some p := by rw [← hsame.find (halike _ _ hsame), hp]
      refine .inr ⟨b, b', p, e, f', ?_, ?_, hfound, hf, hf', hsame, hnone, hp⟩
      · rw [Option.bind_some, hf, Option.bind_some, hp]
        rfl
      · rw [Option.bind_some, hf', Option.bind_some, hp']
        rfl

theorem walk_up (sim : HeapSim x inner h h')
    (hfound : Found x (h.binder (some i) key) (h'.binder (some j) key)) :
    Met x h h' scanUp key (h.walk scanUp (some i) key) (h'.walk scanUp (some j) key) :=
  sim.walk hfound (fun _ _ halike => halike.scanUp key) fun _ => rfl

theorem walk_down (sim : HeapSim x inner h h')
    (hfound : Found x (h.binder (some i) key) (h'.binder (some j) key)) :
    Met x h h' scanDown key (h.walk scanDown (some i) key) (h'.walk scanDown (some j) key) :=
  sim.walk hfound (fun _ _ halike => halike.scanDown key) fun e => e.isSome_find_scanDown key

/-! ## Changes -/

theorem rel_iff {k l : ℕ} (henv : x.env < x.count) (hij : x.Rel i j) (hkl : x.Rel k l) :
    i = k ↔ j = l := by
  obtain ⟨rfl, rfl⟩ | ⟨m, rfl, rfl⟩ | ⟨rfl, hlt, hne⟩ := hij <;>
    obtain ⟨rfl, rfl⟩ | ⟨m', rfl, rfl⟩ | ⟨rfl, hlt', hne'⟩ := hkl <;> omega

theorem modify_pair {f : Frame V → Frame V} {k l : ℕ} {e e' : Env V}
    (hf : ∀ e e' : Frame V, e.Alike e' → (f e).Alike (f e')) (hiff : i = k ↔ j = l)
    (he : h.envs[k]? = some e) (he' : h'.envs[l]? = some e') (halike : e.Alike e'.toFrame) :
    ∃ n n', (h.modify i f).envs[k]? = some n ∧ (h'.modify j f).envs[l]? = some n' ∧
      n.Alike n'.toFrame ∧ n.root = e.root ∧ n'.root = e'.root := by
  rw [Heap.getElem?_modify, Heap.getElem?_modify, he, he', Option.map_some, Option.map_some]
  by_cases hik : i = k
  · rw [if_pos hik, if_pos (hiff.mp hik)]
    exact ⟨_, _, rfl, rfl, hf _ _ halike, rfl, rfl⟩
  · rw [if_neg hik, if_neg (mt hiff.mpr hik)]
    exact ⟨_, _, rfl, rfl, halike, rfl, rfl⟩

/-- **The same change under both numbers of an environment**, if free names stay bound alike. -/
theorem modify (sim : HeapSim x inner h h') {f : Frame V → Frame V} (hrel : x.Rel i j)
    (hf : ∀ e e' : Frame V, e.Alike e' → (f e).Alike (f e'))
    (hagree : ∀ key ∈ x.free, (h.modify i f).binder (some x.root) key =
      (h'.modify j f).binder (some x.captured) key) :
    HeapSim x inner (h.modify i f) (h'.modify j f) where
  env_lt := sim.env_lt
  count := by rw [← sim.count, Heap.modify, List.length_modify]
  count' := by rw [← sim.count', Heap.modify, List.length_modify]
  old := by
    intro k hk hne
    have hiff : i = k ↔ j = k := rel_iff sim.env_lt hrel (.inr (.inr ⟨rfl, hk, hne⟩))
    rw [Heap.getElem?_modify, Heap.getElem?_modify, sim.old k hk hne]
    by_cases hik : i = k
    · simp only [hik, hiff.mp hik]
    · simp only [if_neg hik, if_neg (mt hiff.mpr hik)]
  frame := by
    obtain ⟨e, e', he, he', halike, hr, hr'⟩ := sim.frame
    have hiff : i = x.env ↔ j = x.count := rel_iff sim.env_lt hrel (.inl ⟨rfl, rfl⟩)
    obtain ⟨n, n', hn, hn', hnn, hroot, hroot'⟩ := modify_pair hf hiff he he' halike
    exact ⟨n, n', hn, hn', hnn, hroot.trans hr, hroot'.trans hr'⟩
  made := by
    intro k b hk
    obtain ⟨e, e', r, r', he, he', halike, hr, hr', href⟩ := sim.made k b hk
    have hiff := rel_iff sim.env_lt hrel (.inr (.inl ⟨k, rfl, rfl⟩))
    obtain ⟨n, n', hn, hn', hnn, hroot, hroot'⟩ := modify_pair hf hiff he he' halike
    exact ⟨n, n', r, r', hn, hn', hnn, hroot.trans hr, hroot'.trans hr', href⟩
  held_old := sim.held_old
  held_root := by
    intro k hk e r he hr
    rw [Heap.getElem?_modify, Option.map_eq_some_iff] at he
    obtain ⟨old, hold, rfl⟩ := he
    refine sim.held_root k hk old r hold ?_
    split at hr <;> exact hr
  global_old := sim.global_old
  global_root := by
    obtain ⟨e, he, hr⟩ := sim.global_root
    rw [Heap.getElem?_modify, he, Option.map_some]
    refine ⟨_, rfl, ?_⟩
    split <;> exact hr
  single := sim.single.modify
  single' := sim.single'.modify
  agree := hagree

/-- A change of what the code made. -/
theorem modify_own (sim : HeapSim x inner h h') {f : Frame V → Frame V} (hrel : x.Rel i j)
    (hi : i = x.env ∨ x.count ≤ i) (hj : x.count ≤ j)
    (hf : ∀ e e' : Frame V, e.Alike e' → (f e).Alike (f e')) :
    HeapSim x inner (h.modify i f) (h'.modify j f) := by
  have hroot := sim.root_lt
  have henv := sim.env_lt
  have hcaptured := sim.captured_lt
  refine sim.modify hrel hf fun key hkey => ?_
  rw [Heap.binder_modify_of_lt (by omega), Heap.binder_modify_of_lt (by omega), sim.agree key hkey]

/-- A change of the global environment. -/
theorem modify_global (sim : HeapSim x inner h h') {f : Frame V → Frame V}
    (hf : ∀ e e' : Frame V, e.Alike e' → (f e).Alike (f e')) :
    HeapSim x inner (h.modify x.global f) (h'.modify x.global f) := by
  have hroot := sim.root_lt
  have henv := sim.env_lt
  have hcaptured := sim.captured_lt
  obtain ⟨hlt, hne⟩ := sim.global_old
  obtain ⟨e, he, hr⟩ := sim.global_root
  refine sim.modify (.inr (.inr ⟨rfl, hlt, hne⟩)) hf fun key hkey => ?_
  rw [Heap.binder_modify_root sim.single he hr (by rw [sim.count]; omega),
    Heap.binder_modify_root sim.single' (sim.old _ hlt hne ▸ he) hr (by rw [sim.count']; omega),
    sim.agree key hkey]

/-- An assignment to a binding that both searches met. -/
theorem write (sim : HeapSim x inner h h') {p : Place} {e : Env V} {e' : Env V} {v : V}
    (hrel : x.Rel i j) (he : h.envs[i]? = some e) (he' : h'.envs[j]? = some e')
    (halike : e.Alike e'.toFrame) (hp : e.find scanUp key = some p) :
    HeapSim x inner (h.write key v (i, p)) (h'.write key v (j, p)) := by
  refine sim.modify hrel (fun _ _ h => h.write key v p) fun name hname => ?_
  have hp' : e'.find scanUp key = some p := by rw [← halike.find (halike.scanUp key), hp]
  rw [Heap.binder_modify, Heap.binder_modify, sim.agree name hname]
  · intro old hold
    obtain rfl : old = e' := Option.some.inj (hold.symm.trans he')
    exact Frame.binds_write hp' name
  · intro old hold
    obtain rfl : old = e := Option.some.inj (hold.symm.trans he)
    exact Frame.binds_write hp name

theorem ref_append {c : Bool} (href : x.Ref inner b i j) : x.Ref (inner ++ [c]) b i j := by
  have hmono : ∀ {k : ℕ} {d : Bool}, inner[k]? = some d → (inner ++ [c])[k]? = some d := by
    intro k d hk
    rw [List.getElem?_append_left (lt_inner hk), hk]
  cases b with
  | true =>
    obtain hframe | hroot | ⟨k, hk, hi, hj⟩ := href
    · exact .inl hframe
    · exact .inr (.inl hroot)
    · exact .inr (.inr ⟨k, hmono hk, hi, hj⟩)
  | false =>
    obtain hheld | ⟨k, hk, hi, hj⟩ := href
    · exact .inl hheld
    · exact .inr ⟨k, hmono hk, hi, hj⟩

/-- **A new environment.** -/
theorem push (sim : HeapSim x inner h h') (href : x.Ref inner b i j) (stale : Stale V)
    (hr : ∀ r ∈ some i, r < h.envs.length) (hr' : ∀ r ∈ some j, r < h'.envs.length) :
    HeapSim x (inner ++ [b]) (h.push ⟨Frame.fresh stale, some i⟩ hr)
      (h'.push ⟨Frame.fresh stale, some j⟩ hr') := by
  have hroot := sim.root_lt
  have henv := sim.env_lt
  have hcaptured := sim.captured_lt
  have hcount := sim.count
  have hcount' := sim.count'
  have hold : ∀ k < h.envs.length, (h.push ⟨Frame.fresh stale, some i⟩ hr).envs[k]? = h.envs[k]? :=
    fun k hk => List.getElem?_append_left hk
  have hold' : ∀ k < h'.envs.length,
      (h'.push ⟨Frame.fresh stale, some j⟩ hr').envs[k]? = h'.envs[k]? :=
    fun k hk => List.getElem?_append_left hk
  refine ⟨henv, ?_, ?_, ?_, ?_, ?_, sim.held_old, ?_, sim.global_old, ?_, ?_, ?_, ?_⟩
  · simp only [Heap.push, List.length_append, List.length_singleton]
    omega
  · simp only [Heap.push, List.length_append, List.length_singleton]
    omega
  · intro k hk hne
    rw [hold k (by omega), hold' k (by omega), sim.old k hk hne]
  · rw [hold x.env (by omega), hold' x.count (by omega)]
    exact sim.frame
  · intro k c hk
    rcases Nat.lt_or_ge k inner.length with hlt | hge
    · rw [List.getElem?_append_left hlt] at hk
      obtain ⟨e, e', r, r', he, he', halike, her, her', href'⟩ := sim.made k c hk
      exact ⟨e, e', r, r', by rw [hold _ (by omega), he], by rw [hold' _ (by omega), he'], halike,
        her, her', ref_append href'⟩
    · obtain ⟨hlen, -⟩ := List.getElem?_eq_some_iff.mp hk
      simp only [List.length_append, List.length_singleton] at hlen
      obtain rfl : k = inner.length := by omega
      rw [List.getElem?_concat_length] at hk
      obtain rfl := Option.some.inj hk
      refine ⟨⟨Frame.fresh stale, some i⟩, ⟨Frame.fresh stale, some j⟩, i, j, ?_, ?_,
        Frame.Alike.refl _, rfl, rfl, ref_append href⟩
      · rw [Heap.push, ← hcount, List.getElem?_concat_length]
      · rw [Heap.push, ← hcount', List.getElem?_concat_length]
  · intro k hk e r he her
    have := (sim.held_old k hk).1
    rw [hold k (by omega)] at he
    exact sim.held_root k hk e r he her
  · have := sim.global_old.1
    rw [hold x.global (by omega)]
    exact sim.global_root
  · exact sim.single.push (Option.some_ne_none _)
  · exact sim.single'.push (Option.some_ne_none _)
  · intro key hkey
    rw [Heap.binder_push (by omega), Heap.binder_push (by omega), sim.agree key hkey]

/-! ## Handles -/

/-- The two numbers of an environment that code refers to. -/
def Referred (x : Site) (inner : List Bool) : Option (ℕ × Bool) → Option (ℕ × Bool) → Prop
  | none, none => True
  | some (i, b), some (j, c) => b = c ∧ x.Ref inner b i j
  | _, _ => False

theorem refer (vm vm' : Vm V) (handle : Handle) : Referred x inner
    (x.reuse.refer ⟨vm, inner⟩ handle) (x.anew.refer ⟨vm', inner⟩ handle) := by
  cases handle with
  | frame => exact ⟨rfl, .inl ⟨rfl, rfl⟩⟩
  | made k =>
    show Referred x inner ((inner[k]?).map _) ((inner[k]?).map _)
    cases hk : inner[k]? with
    | none => trivial
    | some b =>
      refine ⟨rfl, ?_⟩
      cases b with
      | true => exact .inr (.inr ⟨k, hk, rfl, rfl⟩)
      | false => exact .inr ⟨k, hk, rfl, rfl⟩
  | held i =>
    show Referred x inner (if i ∈ x.held then some (i, false) else none)
      (if i ∈ x.held then some (i, false) else none)
    split
    · exact ⟨rfl, .inl ⟨rfl, ‹i ∈ x.held›⟩⟩
    · trivial

/-- Where code runs: in an environment that it made, or in the global one. -/
def Running (x : Site) (inner : List Bool) (h h' : Heap V) (i j : ℕ) (b : Bool) : Prop :=
  x.Ref inner b i j ∧ x.Rel i j ∧ h.isRoot i = h'.isRoot j ∧
    ((i = x.env ∨ x.count ≤ i) ∧ x.count ≤ j ∨ i = x.global ∧ j = x.global)

theorem running_own (sim : HeapSim x inner h h') (href : x.Ref inner b i j) (hrel : x.Rel i j)
    (hi : i = x.env ∨ x.count ≤ i) (hj : x.count ≤ j) : Running x inner h h' i j b := by
  obtain ⟨e, e', he, he', -, hnone⟩ := sim.pair hrel (sim.ref_lt href).1
  refine ⟨href, hrel, ?_, .inl ⟨hi, hj⟩⟩
  rw [Heap.isRoot, Heap.isRoot, he, he']
  exact hnone

theorem runsIn {vm : Vm V} (sim : HeapSim x inner vm.heap h') (handle : Handle) :
    (x.reuse.runsIn ⟨vm, inner⟩ handle = none ∧
        x.anew.runsIn ⟨{ vm with heap := h' }, inner⟩ handle = none) ∨
      ∃ i j b, x.reuse.runsIn ⟨vm, inner⟩ handle = some (i, b) ∧
        x.anew.runsIn ⟨{ vm with heap := h' }, inner⟩ handle = some (j, b) ∧
        Running x inner vm.heap h' i j b := by
  cases handle with
  | frame =>
    exact .inr ⟨_, _, _, rfl, rfl, sim.running_own (.inl ⟨rfl, rfl⟩) (.inl ⟨rfl, rfl⟩) (.inl rfl)
      (Nat.le_refl _)⟩
  | made k =>
    show ((inner[k]?).map (fun b => (x.count + k, b)) = none ∧
        (inner[k]?).map (fun b => (x.count + 1 + k, b)) = none) ∨
      ∃ i j b, (inner[k]?).map (fun b => (x.count + k, b)) = some (i, b) ∧
        (inner[k]?).map (fun b => (x.count + 1 + k, b)) = some (j, b) ∧ _
    cases hk : inner[k]? with
    | none => exact .inl ⟨rfl, rfl⟩
    | some b =>
      have href : x.Ref inner b (x.count + k) (x.count + 1 + k) := by
        cases b with
        | true => exact .inr (.inr ⟨k, hk, rfl, rfl⟩)
        | false => exact .inr ⟨k, hk, rfl, rfl⟩
      exact .inr ⟨_, _, b, rfl, rfl, sim.running_own href (.inr (.inl ⟨k, rfl, rfl⟩))
        (.inr (Nat.le_add_right _ _)) (by omega)⟩
  | held i =>
    show ((if vm.heap.isRoot i then if i ∈ x.held then some (i, false) else none else none) = none ∧
        (if h'.isRoot i then if i ∈ x.held then some (i, false) else none else none) = none) ∨
      ∃ k l b, (if vm.heap.isRoot i then if i ∈ x.held then some (i, false) else none else none) =
          some (k, b) ∧
        (if h'.isRoot i then if i ∈ x.held then some (i, false) else none else none) =
          some (l, b) ∧ _
    by_cases hheld : i ∈ x.held
    · obtain ⟨hlt, hne⟩ := sim.held_old i hheld
      have hroot : vm.heap.isRoot i = h'.isRoot i := by
        rw [Heap.isRoot, Heap.isRoot, sim.old i hlt hne]
      simp only [if_pos hheld]
      rw [← hroot]
      by_cases hi : vm.heap.isRoot i
      · simp only [if_pos hi]
        have hlen : i < vm.heap.envs.length := by rw [sim.count]; omega
        have hglobal : i = x.global := by
          refine sim.single i _ (List.getElem?_eq_getElem hlen) ?_
          rw [Heap.isRoot, List.getElem?_eq_getElem hlen] at hi
          simpa using hi
        exact .inr ⟨i, i, false, rfl, rfl, .inl ⟨rfl, hheld⟩, .inr (.inr ⟨rfl, hlt, hne⟩), hroot,
          .inr ⟨hglobal, hglobal⟩⟩
      · simp only [if_neg hi]
        exact .inl ⟨trivial, trivial⟩
    · simp only [if_neg hheld, ite_self]
      exact .inl ⟨trivial, trivial⟩

/-- **The same change where code runs.** -/
theorem modify_running (sim : HeapSim x inner h h') {f : Frame V → Frame V}
    (hrun : Running x inner h h' i j b)
    (hf : ∀ e e' : Frame V, e.Alike e' → (f e).Alike (f e')) :
    HeapSim x inner (h.modify i f) (h'.modify j f) := by
  obtain ⟨-, hrel, -, ⟨hi, hj⟩ | ⟨rfl, rfl⟩⟩ := hrun
  · exact sim.modify_own hrel hi hj hf
  · exact sim.modify_global hf

/-! ## Lookups and assignments -/

theorem Met.read {scan : Scan V} {m m' : Option (ℕ × Place)} (hmet : Met x h h' scan key m m')
    (hscan : scan = scanUp ∨ scan = scanDown) : m.bind (h.read key) = m'.bind (h'.read key) := by
  obtain ⟨rfl, rfl⟩ | ⟨i, j, p, e, e', rfl, rfl, -, he, he', halike, -, hp⟩ := hmet
  · rfl
  · rw [Option.bind_some, Option.bind_some, Heap.read, Heap.read, he, he']
    refine halike.read fun k hk => ?_
    obtain rfl : p = .slot k := hk
    exact Frame.lt_of_find hscan hp

variable (σ : State V) {sym : Symbol V}

theorem lookup (hmet : Met x σ.heap h' scanDown sym.text (σ.heap.walk scanDown (some i) sym.text)
      (h'.walk scanDown (some j) sym.text)) :
    Binding.lookup σ sym (some i) = Binding.lookup { σ with heap := h' } sym (some j) := by
  rw [Binding.lookup, Binding.lookup, hmet.read (.inr rfl)]

theorem lookupScoped (hmet : Met x σ.heap h' scanUp sym.text (σ.heap.walk scanUp (some i) sym.text)
      (h'.walk scanUp (some j) sym.text)) :
    Binding.lookupScoped σ sym (some i) = Binding.lookupScoped { σ with heap := h' } sym (some j) := by
  have hread := hmet.read (.inl rfl)
  rw [Binding.lookupScoped, Binding.lookupScoped]
  dsimp only
  obtain ⟨hm, hm'⟩ | ⟨k, l, p, e, e', hm, hm', -, he, he', -, hnone, -⟩ := hmet
  · rw [hm, hm']
  · rw [hm, hm', Option.bind_some, Option.bind_some] at hread
    have hroot : σ.heap.isRoot k = h'.isRoot l := by
      rw [Heap.isRoot, Heap.isRoot, he, he']
      exact hnone
    rw [hm, hm']
    dsimp only
    rw [hread, hroot]

variable {p : Process V} {guard : Bool} {v : V}

/-- A store to the binding that was met. -/
theorem storeFound (sim : HeapSim x inner p.heap h') {k l : ℕ} {place : Place} {e e' : Env V}
    (hrel : x.Rel k l) (he : p.heap.envs[k]? = some e) (he' : h'.envs[l]? = some e')
    (halike : e.Alike e'.toFrame) (hnone : e.root.isNone = e'.root.isNone)
    (hp : e.find scanUp key = some place) :
    ∃ h₁, ({ p with heap := h' } : Process V).storeFound guard key v (l, place) =
        ({ (p.storeFound guard key v (k, place)).1 with heap := h₁ },
          (p.storeFound guard key v (k, place)).2) ∧
      HeapSim x inner (p.storeFound guard key v (k, place)).1.heap h₁ := by
  have hwrite := sim.write (v := v) hrel he he' halike hp
  cases place with
  | slot m => exact ⟨_, rfl, hwrite⟩
  | dict =>
    have hroot : p.heap.isRoot k = h'.isRoot l := by
      rw [Heap.isRoot, Heap.isRoot, he, he']
      exact hnone
    simp only [Process.storeFound, hroot]
    split
    · exact ⟨h', rfl, sim⟩
    · exact ⟨_, rfl, hwrite⟩

theorem assignStoreSymbol (guard : Bool) (v : V) (sim : HeapSim x inner p.heap h') (hrun : Running x inner p.heap h' i j b)
    (hfound : Found x (p.heap.binder (some i) key) (h'.binder (some j) key)) :
    ∃ h₁, ({ p with heap := h' } : Process V).assignStoreSymbol guard key j v =
        ({ (p.assignStoreSymbol guard key i v).1 with heap := h₁ },
          (p.assignStoreSymbol guard key i v).2) ∧
      HeapSim x inner (p.assignStoreSymbol guard key i v).1.heap h₁ := by
  rw [Process.assignStoreSymbol_eq, Process.assignStoreSymbol_eq]
  obtain ⟨hm, hm'⟩ | ⟨k, l, place, e, e', hm, hm', hrel, he, he', halike, hnone, hp⟩ :=
    sim.walk_up hfound
  · rw [hm, hm', hrun.2.2.1]
    dsimp only
    split
    · exact ⟨h', rfl, sim⟩
    · exact ⟨_, rfl, sim.modify_running hrun fun _ _ halike => halike.define key v⟩
  · rw [hm, hm']
    exact sim.storeFound hrel he he' halike hnone hp

theorem setqStoreSymbol (sim : HeapSim x inner p.heap h') (href : x.Ref inner b i j)
    (hfound : Found x (p.heap.binder (some i) key) (h'.binder (some j) key)) :
    ∃ h₁, ({ p with heap := h' } : Process V).setqStoreSymbol key j v =
        { p.setqStoreSymbol key i v with heap := h₁ } ∧
      HeapSim x inner (p.setqStoreSymbol key i v).heap h₁ := by
  rw [Process.setqStoreSymbol, Process.setqStoreSymbol]
  obtain ⟨hm, hm'⟩ | ⟨k, l, place, e, e', hm, hm', hrel, he, he', halike, hnone, hp⟩ :=
    sim.walk_up hfound
  · obtain ⟨hi, hj⟩ := sim.ref_lt href
    rw [hm, hm', sim.single.outermost hi]
    dsimp only
    rw [sim.single'.outermost hj]
    exact ⟨_, rfl, sim.modify_global fun _ _ halike => halike.define key v⟩
  · rw [hm, hm']
    have hwrite := sim.write (v := v) hrel he he' halike hp
    cases place with
    | slot m => exact ⟨_, rfl, hwrite⟩
    | dict => exact ⟨_, rfl, hwrite⟩

end HeapSim

/-! ## Operations -/

/-- The state with another heap. -/
def Run.withHeap (s : Run V) (h : Heap V) : Run V := ⟨{ s.vm with heap := h }, s.inner⟩

/-- The same operation in both runs. -/
def ExecSim (x : Site) : Option (Run V × Response V) → Option (Run V × Response V) → Prop
  | none, none => True
  | some (s, r), some (t, r') => r = r' ∧ ∃ h, t = s.withHeap h ∧ HeapSim x s.inner s.vm.heap h
  | _, _ => False

section Exec

variable {x : Site} {s : Run V} {h : Heap V}

theorem Run.push_sim (sim : HeapSim x s.inner s.vm.heap h) {i j : ℕ} {b : Bool}
    (href : x.Ref s.inner b i j) (stale : Stale V) :
    ExecSim x (s.push ⟨Frame.fresh stale, some i⟩ b)
      ((s.withHeap h).push ⟨Frame.fresh stale, some j⟩ b) := by
  obtain ⟨hi, hj⟩ := sim.ref_lt href
  have hr : ∀ r ∈ some i, r < s.vm.heap.envs.length := by rintro r ⟨⟩; exact hi
  have hr' : ∀ r ∈ some j, r < h.envs.length := by rintro r ⟨⟩; exact hj
  have hpush : s.push ⟨Frame.fresh stale, some i⟩ b = some _ := dif_pos hr
  have hpush' : (s.withHeap h).push ⟨Frame.fresh stale, some j⟩ b = some _ := dif_pos hr'
  rw [hpush, hpush']
  exact ⟨rfl, _, rfl, sim.push href stale hr hr'⟩

theorem Op.make_sim (sim : HeapSim x s.inner s.vm.heap h) (root : Handle) (stale : Stale V) :
    ExecSim x ((Op.make root stale).exec x.reuse s)
      ((Op.make root stale).exec x.anew (s.withHeap h)) := by
  have href : HeapSim.Referred x s.inner (x.reuse.refer ⟨s.vm, s.inner⟩ root)
    (x.anew.refer ⟨(s.withHeap h).vm, s.inner⟩ root) := HeapSim.refer _ _ root
  show ExecSim x ((x.reuse.refer ⟨s.vm, s.inner⟩ root).bind _)
    ((x.anew.refer ⟨(s.withHeap h).vm, s.inner⟩ root).bind _)
  revert href
  rcases x.reuse.refer ⟨s.vm, s.inner⟩ root with - | ⟨i, b⟩ <;>
    rcases x.anew.refer ⟨(s.withHeap h).vm, s.inner⟩ root with - | ⟨j, c⟩
  · exact fun _ => trivial
  · exact False.elim
  · exact False.elim
  · rintro ⟨rfl, href⟩
    exact Run.push_sim sim href stale

theorem Op.makeBeside_sim (sim : HeapSim x s.inner s.vm.heap h) (env : Handle) (stale : Stale V) :
    ExecSim x ((Op.makeBeside env stale).exec x.reuse s)
      ((Op.makeBeside env stale).exec x.anew (s.withHeap h)) := by
  cases env with
  | held i => trivial
  | frame =>
    obtain ⟨e, e', he, he', -, hr, hr'⟩ := sim.frame
    have hroot : (s.vm.heap.envs[x.env]?).bind Env.root = some x.root := by
      rw [he, Option.bind_some, hr]
    have hroot' : (h.envs[x.count]?).bind Env.root = some x.captured := by
      rw [he', Option.bind_some, hr']
    show ExecSim x (s.push ⟨_, (s.vm.heap.envs[x.env]?).bind Env.root⟩ true)
      ((s.withHeap h).push ⟨_, (h.envs[x.count]?).bind Env.root⟩ true)
    have href : x.Ref s.inner true x.root x.captured := .inr (.inl ⟨rfl, rfl⟩)
    rw [hroot, hroot']
    exact Run.push_sim sim href stale
  | made k =>
    show ExecSim x (((s.inner[k]?).map _).bind _) (((s.inner[k]?).map _).bind _)
    cases hk : s.inner[k]? with
    | none => trivial
    | some b =>
      obtain ⟨e, e', r, r', he, he', -, hr, hr', href⟩ := sim.made k b hk
      have hroot : (s.vm.heap.envs[x.count + k]?).bind Env.root = some r := by
        rw [he, Option.bind_some, hr]
      have hroot' : (h.envs[x.count + 1 + k]?).bind Env.root = some r' := by
        rw [he', Option.bind_some, hr']
      show ExecSim x (s.push ⟨_, (s.vm.heap.envs[x.count + k]?).bind Env.root⟩ b)
        ((s.withHeap h).push ⟨_, (h.envs[x.count + 1 + k]?).bind Env.root⟩ b)
      rw [hroot, hroot']
      exact Run.push_sim sim href stale

/-- A lookup through the cache depends on the heap only where it misses. -/
theorem Vm.loadGlobal_withHeap {vm : Vm V} (bc idx : ℕ) (noGcache : Bool) (n : ℕ) {i j : ℕ}
    {sym : Symbol V} (hlookup : Binding.lookupScoped vm.toState sym (some i) =
      Binding.lookupScoped { vm.toState with heap := h } sym (some j)) :
    ({ vm with heap := h } : Vm V).loadGlobal bc idx noGcache n sym j =
        ({ (vm.loadGlobal bc idx noGcache n sym i).1 with heap := h },
          (vm.loadGlobal bc idx noGcache n sym i).2) ∧
      (vm.loadGlobal bc idx noGcache n sym i).1.heap = vm.heap := by
  have hhit : ({ vm with heap := h } : Vm V).hit bc idx = vm.hit bc idx := rfl
  unfold loadGlobal
  rw [hhit]
  cases vm.hit bc idx with
  | some v => exact ⟨rfl, rfl⟩
  | none =>
    dsimp only
    rw [← hlookup]
    rcases Binding.lookupScoped vm.toState sym (some i) with ⟨- | v, isGlobal, sym'⟩
    · exact ⟨rfl, rfl⟩
    · dsimp only
      split
      · exact ⟨rfl, rfl⟩
      · exact ⟨rfl, rfl⟩

/-- An operation that starts from an environment in which code runs. -/
theorem exec_runsIn (sim : HeapSim x s.inner s.vm.heap h) (env : Handle)
    {f f' : ℕ × Bool → Option (Run V × Response V)}
    (hf : ∀ i j b, HeapSim.Running x s.inner s.vm.heap h i j b → ExecSim x (f (i, b)) (f' (j, b))) :
    ExecSim x ((x.reuse.runsIn s env).bind f) ((x.anew.runsIn (s.withHeap h) env).bind f') := by
  obtain ⟨hnone, hnone'⟩ | ⟨i, j, b, hi, hj, hrun⟩ := sim.runsIn env
  · have hleft : x.reuse.runsIn s env = none := hnone
    have hright : x.anew.runsIn (s.withHeap h) env = none := hnone'
    rw [hleft, hright]
    trivial
  · have hleft : x.reuse.runsIn s env = some (i, b) := hi
    have hright : x.anew.runsIn (s.withHeap h) env = some (j, b) := hj
    rw [hleft, hright]
    exact hf i j b hrun

/-- An operation on a name that the code sees. -/
theorem exec_sees (sim : HeapSim x s.inner s.vm.heap h) {i j : ℕ} {b : Bool} {key : CStr}
    (hrun : HeapSim.Running x s.inner s.vm.heap h i j b) {o o' : Option (Run V × Response V)}
    (ho : HeapSim.Found x (s.vm.heap.binder (some i) key) (h.binder (some j) key) → ExecSim x o o') :
    ExecSim x (if x.reuse.sees s (i, b) key then o else none)
      (if x.anew.sees (s.withHeap h) (j, b) key then o' else none) := by
  obtain ⟨hsees, hfound⟩ := sim.sees hrun.1 key
  have hleft : x.reuse.sees s (i, b) key = x.anew.sees (s.withHeap h) (j, b) key := hsees
  rw [← hleft]
  split
  · exact ho (hfound ‹_›)
  · trivial

/-- **Every operation does the same in both runs.** -/
theorem Op.exec_sim (sim : HeapSim x s.inner s.vm.heap h) (o : Op V) :
    ExecSim x (o.exec x.reuse s) (o.exec x.anew (s.withHeap h)) := by
  cases o with
  | make root stale => exact make_sim sim root stale
  | makeBeside env stale => exact makeBeside_sim sim env stale
  | change env f =>
    show ExecSim x ((x.reuse.runsIn s env).map _) ((x.anew.runsIn (s.withHeap h) env).map _)
    rw [Option.map_eq_bind, Option.map_eq_bind]
    refine exec_runsIn sim env fun i j b hrun => ?_
    exact ⟨rfl, _, rfl, sim.modify_running hrun f.alike⟩
  | view env f =>
    show ExecSim x ((x.reuse.runsIn s env).map _) ((x.anew.runsIn (s.withHeap h) env).map _)
    rw [Option.map_eq_bind, Option.map_eq_bind]
    refine exec_runsIn sim env fun i j b hrun => ?_
    obtain ⟨e, e', he, he', halike, -⟩ := sim.pair hrun.2.1 (sim.ref_lt hrun.1).1
    refine ⟨?_, h, rfl, sim⟩
    show Except.ok ((s.vm.heap.envs[i]?).bind _) = Except.ok ((h.envs[j]?).bind _)
    rw [he, he']
    exact congrArg Except.ok (f.alike _ _ halike)
  | lookup n env =>
    refine exec_runsIn sim env fun i j b hrun => ?_
    show ExecSim x ((s.vm.symbols[n]?).bind _) ((s.vm.symbols[n]?).bind _)
    cases s.vm.symbols[n]? with
    | none => trivial
    | some sym =>
      refine exec_sees sim hrun fun hfound => ?_
      have hlookup := HeapSim.lookup s.vm.toState (sim.walk_down hfound)
      refine ⟨congrArg (fun r => Except.ok r.1) hlookup, h, ?_, sim⟩
      let t (sym : Symbol V) : Run V :=
        ⟨{ s.vm with heap := h, symbols := s.vm.symbols.set n sym }, s.inner⟩
      exact congrArg (fun r => t r.2) hlookup.symm
  | loadGlobal bc idx noGcache n env =>
    refine exec_runsIn sim env fun i j b hrun => ?_
    show ExecSim x ((s.vm.symbols[n]?).bind _) ((s.vm.symbols[n]?).bind _)
    cases s.vm.symbols[n]? with
    | none => trivial
    | some sym =>
      refine exec_sees sim hrun fun hfound => ?_
      have hlookup := HeapSim.lookupScoped s.vm.toState (sim.walk_up hfound)
      obtain ⟨hload, hheap⟩ := Vm.loadGlobal_withHeap bc idx noGcache n hlookup
      have hsim : HeapSim x s.inner (s.vm.loadGlobal bc idx noGcache n sym i).1.heap h := by
        rw [hheap]
        exact sim
      refine ⟨congrArg (fun r => Except.ok r.2) hload.symm, h, ?_, hsim⟩
      exact congrArg (fun r => (⟨r.1, s.inner⟩ : Run V)) hload
  | assign isSymbol guard key env v =>
    refine exec_runsIn sim env fun i j b hrun => exec_sees sim hrun fun hfound => ?_
    obtain ⟨h₁, heq, hsim⟩ :=
      HeapSim.assignStoreSymbol (p := s.vm.toProcess) guard v sim hrun hfound
    show ExecSim x (if isSymbol && isReservedName s.vm.toState key then _ else _)
      (if isSymbol && isReservedName s.vm.toState key then _ else _)
    split
    · exact ⟨rfl, h, rfl, sim⟩
    · let response (refused : ℤ) : Response V :=
        if refused = 0 then .ok (some v) else .error .readOnlyCallback
      refine ⟨congrArg (fun r => response r.2) heq.symm, h₁, ?_, hsim⟩
      exact congrArg (fun r => (⟨{ s.vm with toProcess := r.1 }, s.inner⟩ : Run V)) heq
  | setq key env v =>
    refine exec_runsIn sim env fun i j b hrun => exec_sees sim hrun fun hfound => ?_
    obtain ⟨h₁, heq, hsim⟩ :=
      HeapSim.setqStoreSymbol (p := s.vm.toProcess) (v := v) sim hrun.1 hfound
    show ExecSim x (if isReservedName s.vm.toState key then _ else _)
      (if isReservedName s.vm.toState key then _ else _)
    split
    · exact ⟨rfl, h, rfl, sim⟩
    · refine ⟨rfl, h₁, ?_, hsim⟩
      exact congrArg (fun p => (⟨{ s.vm with toProcess := p }, s.inner⟩ : Run V)) heq
  | readSymbol text => exact ⟨rfl, h, rfl, sim⟩
  | registerCmd name v => exact ⟨rfl, h, rfl, sim⟩
  | bumpGen => exact ⟨rfl, h, rfl, sim⟩

/-- **The code returns the same in both runs**, and leaves the environments alike. -/
theorem Code.exec_sim (sim : HeapSim x s.inner s.vm.heap h) (code : Code V) :
    (code.exec x.reuse s = none ∧ code.exec x.anew (s.withHeap h) = none) ∨
      ∃ v vm inner h₁, code.exec x.reuse s = some (v, vm) ∧
        code.exec x.anew (s.withHeap h) = some (v, { vm with heap := h₁ }) ∧
        HeapSim x inner vm.heap h₁ := by
  induction code generalizing s h with
  | ret v => exact .inr ⟨v, s.vm, s.inner, h, rfl, rfl, sim⟩
  | op o next ih =>
    have hop := o.exec_sim sim
    rw [exec, exec]
    revert hop
    rcases o.exec x.reuse s with - | ⟨s₁, r⟩ <;>
      rcases o.exec x.anew (s.withHeap h) with - | ⟨t₁, r'⟩
    · exact fun _ => .inl ⟨rfl, rfl⟩
    · exact False.elim
    · exact False.elim
    · rintro ⟨rfl, h₁, rfl, hsim⟩
      exact ih r hsim

end Exec

end Alcove.Binding
