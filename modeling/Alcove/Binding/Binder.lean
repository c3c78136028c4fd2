import Mathlib.Data.List.Find
import Alcove.Binding.Machine

/-!
# The environment that binds a name

A walk along the `root` chain ends in the first environment that binds the name (`Heap.binder`), in
whichever direction it scans the slots. So two walks meet the same binding where they meet the same
environment, and what is left in the arrays of a frame beyond its live slots is not seen
(`Frame.Alike`).

**Main results:** `Heap.walk_eq_binder`, and how the changes of a heap move the binder of a name:
`Heap.binder_push`, `Heap.binder_modify_of_lt`, `Heap.binder_write`, `Heap.binder_modify_root`.
-/

namespace Alcove.Binding

variable {V : Type}

/-! ## Frames with the same live slots -/

/-- The frames differ in what is left beyond their live slots only. -/
structure Frame.Alike (e e' : Frame V) : Prop where
  count : e.nInline = e'.nInline
  keys : ∀ i < e.nInline, e.inlineKeys i = e'.inlineKeys i
  vals : ∀ i < e.nInline, e.inlineVals i = e'.inlineVals i
  dict : e.d = e'.d

namespace Frame

/-- Some slot or the dict binds the name. -/
def binds (e : Frame V) (key : CStr) : Bool := (e.find scanUp key).isSome

variable {e e' : Frame V} {key : CStr}

theorem Alike.refl (e : Frame V) : e.Alike e := ⟨rfl, fun _ _ => rfl, fun _ _ => rfl, rfl⟩

theorem Alike.scanUp (h : e.Alike e') (key : CStr) : scanUp e key = scanUp e' key := by
  rw [Binding.scanUp, Binding.scanUp, ← h.count]
  refine List.find?_congr fun i hi => ?_
  rw [h.keys i (List.mem_range.mp hi)]

theorem Alike.scanDown (h : e.Alike e') (key : CStr) : scanDown e key = scanDown e' key := by
  rw [Binding.scanDown, Binding.scanDown, ← h.count]
  refine List.find?_congr fun i hi => ?_
  rw [h.keys i (List.mem_range.mp (List.mem_reverse.mp hi))]

theorem Alike.entry (h : e.Alike e') (key : CStr) : e.entry key = e'.entry key := by
  rw [Frame.entry, Frame.entry, h.dict]

theorem Alike.find {scan : Scan V} (h : e.Alike e') (hscan : scan e key = scan e' key) :
    e.find scan key = e'.find scan key := by
  rw [Frame.find, Frame.find, hscan, h.entry]

theorem Alike.binds (h : e.Alike e') (key : CStr) : e.binds key = e'.binds key := by
  rw [Frame.binds, Frame.binds, h.find (h.scanUp key)]

theorem scanUp_isSome : (scanUp e key).isSome = true ↔ key ∈ e.names := by
  rw [Option.isSome_iff_ne_none, ne_eq, scanUp_eq_none, not_not]

theorem scanDown_isSome : (scanDown e key).isSome = true ↔ key ∈ e.names := by
  rw [Option.isSome_iff_ne_none, ne_eq, scanDown_eq_none, not_not]

theorem isSome_find {scan : Scan V} (e : Frame V) (key : CStr) :
    (e.find scan key).isSome = ((scan e key).isSome || (e.entry key).isSome) := by
  rw [Frame.find]
  cases scan e key with
  | some i => rfl
  | none => cases (e.entry key).isSome <;> rfl

/-- **Whether a name is found does not depend on the direction.** -/
theorem isSome_find_scanDown (e : Frame V) (key : CStr) :
    (e.find scanDown key).isSome = e.binds key := by
  rw [binds, isSome_find, isSome_find]
  congr 1
  rw [Bool.eq_iff_iff, scanDown_isSome, scanUp_isSome]

/-- A slot that was found is a live one. -/
theorem lt_of_find {i : ℕ} {scan : Scan V} (hscan : scan = scanUp ∨ scan = scanDown)
    (h : e.find scan key = some (.slot i)) : i < e.nInline := by
  rw [find] at h
  split at h
  · rename_i j hj
    obtain rfl : j = i := by simpa using h
    rcases hscan with rfl | rfl
    · exact (lt_of_scanUp hj).1
    · exact (lt_of_scanDown hj).1
  · split at h <;> cases h

theorem entry_write_dict {v : V} (h : (e.entry key).isSome) (key' : CStr) :
    ((e.write key v .dict).entry key').isSome = (e.entry key').isSome := by
  cases hd : e.d with
  | none => rw [entry, hd] at h; cases h
  | some d =>
    have hentry : (e.write key v .dict).entry key' = (d.assign key v).find key' := by
      rw [entry, write, hd]
      rfl
    rw [hentry, Scope.find_assign]
    split
    · rename_i hkey
      rw [hkey, h]
      rfl
    · rw [entry, hd]
      rfl

/-- **An assignment to a binding keeps what is bound.** -/
theorem binds_write {p : Place} {v : V} {scan : Scan V} (h : e.find scan key = some p)
    (key' : CStr) : (e.write key v p).binds key' = e.binds key' := by
  cases p with
  | slot i => rfl
  | dict =>
    have hentry : (e.entry key).isSome := by
      rw [find] at h
      split at h
      · cases h
      · split at h
        · assumption
        · cases h
    rw [binds, binds, isSome_find, isSome_find, entry_write_dict hentry]
    rfl

theorem Alike.read (h : e.Alike e') {p : Place} (hp : ∀ i, p = .slot i → i < e.nInline) :
    e.read key p = e'.read key p := by
  cases p with
  | slot i => exact h.vals i (hp i rfl)
  | dict => exact h.entry key

theorem Alike.write (h : e.Alike e') (key : CStr) (v : V) (p : Place) :
    (e.write key v p).Alike (e'.write key v p) := by
  cases p with
  | slot j =>
    refine ⟨h.count, h.keys, fun i hi => ?_, h.dict⟩
    show Function.update e.inlineVals j (some v) i = Function.update e'.inlineVals j (some v) i
    rw [Function.update_apply, Function.update_apply, h.vals i hi]
  | dict =>
    refine ⟨h.count, h.keys, h.vals, ?_⟩
    show e.d.map _ = e'.d.map _
    rw [h.dict]

theorem Alike.define (h : e.Alike e') (key : CStr) (v : V) :
    (e.define key v).Alike (e'.define key v) := by
  refine ⟨h.count, h.keys, h.vals, ?_⟩
  show some _ = some _
  rw [h.dict]

theorem Alike.bindVar (h : e.Alike e') (name : CStr) (v : V) :
    (e.bindVar name v).Alike (e'.bindVar name v) := by
  rw [Frame.bindVar, Frame.bindVar, ← h.count]
  split
  · refine ⟨rfl, fun i hi => ?_, fun i hi => ?_, h.dict⟩
    · show Function.update _ _ _ i = Function.update _ _ _ i
      rw [Function.update_apply, Function.update_apply]
      split
      · rfl
      · exact h.keys i (by dsimp only at hi; omega)
    · show Function.update _ _ _ i = Function.update _ _ _ i
      rw [Function.update_apply, Function.update_apply]
      split
      · rfl
      · exact h.vals i (by dsimp only at hi; omega)
  · exact h.define name v

end Frame

/-! ## The binder of a name -/

namespace Heap

/-- The first environment of the chain that binds the name. -/
def binder (h : Heap V) (env : Option ℕ) (key : CStr) : Option ℕ :=
  (h.chain env).find? fun i => (h.envs[i]?).any fun e => e.binds key

variable {h : Heap V} {env : Option ℕ} {key : CStr} {i j : ℕ}

/-- **A walk finds the name in the environment that binds it.** -/
theorem walk_eq_binder {scan : Scan V} (hscan : ∀ e : Frame V, (e.find scan key).isSome = e.binds key) :
    h.walk scan env key = (h.binder env key).bind fun i =>
      (h.envs[i]?).bind fun e => (e.find scan key).map fun p => (i, p) := by
  rw [walk, binder]
  induction h.chain env with
  | nil => rfl
  | cons i envs ih =>
    rw [List.findSome?_cons, List.find?_cons]
    cases he : h.envs[i]? with
    | none => exact ih
    | some e =>
      rw [Option.bind_some, Option.any_some, ← hscan]
      cases hp : e.find scan key with
      | none => exact ih
      | some p =>
        show some (i, p) = (h.envs[i]?).bind fun e => (e.find scan key).map fun p => (i, p)
        rw [he, Option.bind_some, hp]
        rfl

theorem binder_none : h.binder none key = none := rfl

/-- **The binder along `root`.** -/
theorem binder_some {e : Env V} (he : h.envs[i]? = some e) :
    h.binder (some i) key = if e.binds key then some i else h.binder e.root key := by
  rw [binder, chain_some, List.find?_cons, he, Option.any_some]
  cases e.binds key <;> rfl

theorem binder_skip {e : Env V} (he : h.envs[i]? = some e) (hbinds : e.binds key = false) :
    h.binder (some i) key = h.binder e.root key := by
  rw [binder_some he, hbinds, if_neg Bool.false_ne_true]

/-- The binder is an environment of the chain. -/
theorem binder_le (hb : h.binder (some i) key = some j) : j ≤ i := by
  induction i using Nat.strong_induction_on with
  | _ i ih =>
    cases he : h.envs[i]? with
    | none =>
      rw [binder, chain_some, he, List.find?_cons, he] at hb
      cases hb
    | some e =>
      rw [binder_some he] at hb
      split at hb
      · exact Nat.le_of_eq (Option.some.inj hb).symm
      · cases hr : e.root with
        | none => rw [hr] at hb; cases hb
        | some r =>
          rw [hr] at hb
          have hlt := h.rooted i e r he hr
          exact Nat.le_trans (ih r hlt hb) (Nat.le_of_lt hlt)

theorem exists_of_binder (hb : h.binder env key = some j) :
    ∃ e, h.envs[j]? = some e ∧ e.binds key = true := by
  have hfound := List.find?_some hb
  cases he : h.envs[j]? with
  | none => rw [he] at hfound; cases hfound
  | some e => exact ⟨e, rfl, by rwa [he] at hfound⟩

/-! ## Changes of the heap -/

/-- Two heaps whose environments have the same roots and bind the same names up to one of them. -/
theorem binder_congr {h' : Heap V} (hsame : ∀ j ≤ i,
    (h.envs[j]?).map (fun e => (e.root, e.binds key)) =
      (h'.envs[j]?).map fun e => (e.root, e.binds key)) :
    h.binder (some i) key = h'.binder (some i) key := by
  induction i using Nat.strong_induction_on with
  | _ i ih =>
    have hi := hsame i (Nat.le_refl i)
    cases he : h.envs[i]? with
    | none =>
      rw [he, Option.map_none, eq_comm, Option.map_eq_none_iff] at hi
      rw [binder, binder, chain_some, chain_some, he, hi, List.find?_cons, List.find?_cons, he, hi]
      rfl
    | some e =>
      rw [he, Option.map_some, eq_comm, Option.map_eq_some_iff] at hi
      obtain ⟨e', he', heq⟩ := hi
      obtain ⟨hroot, hbinds⟩ := Prod.mk.inj heq
      rw [binder_some he, binder_some he', hbinds, hroot]
      cases hr : e.root with
      | none => rfl
      | some r =>
        have hlt := h.rooted i e r he hr
        rw [ih r hlt fun j hj => hsame j (by omega)]

/-- A new environment is met by no search that starts in an old one. -/
theorem binder_push {e : Env V} {hr : ∀ r ∈ e.root, r < h.envs.length} (hi : i < h.envs.length) :
    (h.push e hr).binder (some i) key = h.binder (some i) key := by
  refine binder_congr fun j hj => ?_
  rw [push, List.getElem?_append_left (by omega)]

/-- A search does not meet environments that are newer than where it starts. -/
theorem binder_modify_of_lt {f : Frame V → Frame V} (hij : i < j) :
    (h.modify j f).binder (some i) key = h.binder (some i) key := by
  refine binder_congr fun k hk => ?_
  rw [getElem?_modify]
  cases h.envs[k]? with
  | none => rfl
  | some e => rw [Option.map_some, if_neg (by omega)]

/-- A change that keeps what is bound. -/
theorem binder_modify {f : Frame V → Frame V}
    (hf : ∀ e : Env V, h.envs[j]? = some e → (f e.toFrame).binds key = e.binds key) :
    (h.modify j f).binder env key = h.binder env key := by
  cases env with
  | none => rfl
  | some i =>
    refine binder_congr fun k _ => ?_
    rw [getElem?_modify]
    cases he : h.envs[k]? with
    | none => rfl
    | some e =>
      rw [Option.map_some, Option.map_some, Option.map_some]
      split
      · rename_i hjk
        subst hjk
        rw [← hf e he]
      · rfl

/-! ## One global environment -/

/-- The environment `g` is the only one without a `root`. -/
def SingleRoot (h : Heap V) (g : ℕ) : Prop :=
  ∀ (i : ℕ) (e : Env V), h.envs[i]? = some e → e.root = none → i = g

variable {g : ℕ}

theorem SingleRoot.modify (hg : h.SingleRoot g) {f : Frame V → Frame V} :
    (h.modify i f).SingleRoot g := by
  intro j e he hr
  rw [getElem?_modify, Option.map_eq_some_iff] at he
  obtain ⟨old, hold, rfl⟩ := he
  refine hg j old hold ?_
  split at hr <;> exact hr

theorem SingleRoot.push (hg : h.SingleRoot g) {e : Env V} {hr : ∀ r ∈ e.root, r < h.envs.length}
    (hsome : e.root ≠ none) : (h.push e hr).SingleRoot g := by
  intro j e' he hr'
  rw [Heap.push] at he
  rcases Nat.lt_trichotomy j h.envs.length with hlt | rfl | hgt
  · rw [List.getElem?_append_left hlt] at he
    exact hg j e' he hr'
  · rw [List.getElem?_concat_length] at he
    obtain rfl := Option.some.inj he
    exact absurd hr' hsome
  · rw [List.getElem?_eq_none (by simp; omega)] at he
    cases he

/-- Every chain ends in the global environment. -/
theorem SingleRoot.outermost (hg : h.SingleRoot g) (hi : i < h.envs.length) : h.outermost i = g := by
  rw [Heap.outermost]
  induction i using Nat.strong_induction_on with
  | _ i ih =>
    rw [chain_some]
    have he : h.envs[i]? = some h.envs[i] := List.getElem?_eq_getElem hi
    rw [he, Option.bind_some]
    cases hr : (h.envs[i]).root with
    | none => exact hg i _ he hr
    | some r =>
      have hlt := h.rooted i _ r he hr
      have hlast := ih r hlt (Nat.lt_trans hlt hi)
      rw [chain_some, List.getLastD_cons] at hlast
      rw [List.getLastD_cons, chain_some, List.getLastD_cons, hlast]

/-- **A change of the global environment**, where every chain ends. -/
theorem binder_modify_root (hg : h.SingleRoot g) {f : Frame V → Frame V} {e : Env V}
    (he : h.envs[g]? = some e) (hroot : e.root = none) (hi : i < h.envs.length) :
    (h.modify g f).binder (some i) key =
      if (h.binder (some i) key).all (· = g) then
        if (f e.toFrame).binds key then some g else none
      else h.binder (some i) key := by
  induction i using Nat.strong_induction_on with
  | _ i ih =>
    obtain ⟨ei, hei⟩ : ∃ ei, h.envs[i]? = some ei := ⟨_, List.getElem?_eq_getElem hi⟩
    rw [binder_some hei]
    by_cases hig : i = g
    · subst hig
      obtain rfl : e = ei := Option.some.inj (he.symm.trans hei)
      have hnew : (h.modify i f).envs[i]? = some { e with toFrame := f e.toFrame } := by
        rw [getElem?_modify, he, Option.map_some, if_pos rfl]
      rw [binder_some hnew, hroot]
      cases e.binds key <;> simp [binder_none]
    · have hnew : (h.modify g f).envs[i]? = some ei := by
        rw [getElem?_modify, hei, Option.map_some, if_neg (Ne.symm hig)]
      rw [binder_some hnew]
      cases ei.binds key with
      | true => simp [hig]
      | false =>
        cases hr : ei.root with
        | none => exact absurd (hg i ei hei hr) hig
        | some r =>
          have hlt := h.rooted i ei r hei hr
          exact ih r hlt (Nat.lt_trans hlt hi)

end Heap

end Alcove.Binding
