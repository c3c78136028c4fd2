import Alcove.Equality.Structural

/-!
# The parts of `iso`

What one call of `isoequal` does to two lists, two sequences, two tables or two persistent maps, over
nested calls that are right (`Right`).

**Main results:** `isoPairs_iff`, `isEqv_iff`, `dict_iff`, `set_iff`, `hamt_iff`. The walk along two
lists needs that no list ends with a cell that holds nil (`NoNilCell`), and `hamt_iso` that each key
is found with a value.
-/

namespace Alcove.Equality

open Hamt (sameValue hamtHashkey DistinctKeys)

/-! ## Nesting -/

/-- A value that is nested at most `n` deep. -/
inductive Nested (h : Heap) : ℕ → Ptr → Prop
  | atom {n : ℕ} {p : Ptr} (hcell : h.cell p = none) (hp : h.container p = none) : Nested h n p
  | last {n : ℕ} {p x xs : Ptr} (hp : h.cell p = some (x, xs)) (hx : Nested h n x)
      (hend : h.cell xs = none) (hxs : Nested h n xs) : Nested h (n + 1) p
  | more {n : ℕ} {p x xs : Ptr} (hp : h.cell p = some (x, xs)) (hx : Nested h n x)
      (hcell : (h.cell xs).isSome) (hxs : Nested h (n + 1) xs) : Nested h (n + 1) p
  | container {n : ℕ} {p : Ptr} {kind : Kind} {f : Slot → Option Ptr}
      (hp : h.container p = some (kind, f)) (hf : ∀ s x, f s = some x → Nested h n x) :
      Nested h (n + 1) p

/-- A list, or the rest of one, whose elements are nested at most `n` deep. -/
def Tail (h : Heap) (n : ℕ) (p : Ptr) : Prop :=
  if (h.cell p).isSome then Nested h (n + 1) p else Nested h n p

section Nested

variable {h : Heap} {n : ℕ} {p x xs : Ptr}

theorem Nested.of_cell (hn : Nested h n p) (hp : h.cell p = some (x, xs)) :
    ∃ k, n = k + 1 ∧ Nested h k x ∧ Tail h k xs := by
  cases hn with
  | atom hcell =>
    rw [hp] at hcell
    cases hcell
  | last hp' hx hend hxs =>
    rw [hp] at hp'
    cases hp'
    exact ⟨_, rfl, hx, by rwa [Tail, hend]⟩
  | more hp' hx hcell hxs =>
    rw [hp] at hp'
    cases hp'
    exact ⟨_, rfl, hx, by rwa [Tail, if_pos hcell]⟩
  | container hp' =>
    rw [cell_of_container hp'] at hp
    cases hp

theorem Nested.of_container {kind : Kind} {f : Slot → Option Ptr} (hn : Nested h n p)
    (hp : h.container p = some (kind, f)) :
    ∃ k, n = k + 1 ∧ ∀ s x, f s = some x → Nested h k x := by
  cases hn with
  | atom _ hp' =>
    rw [hp] at hp'
    cases hp'
  | last hp' =>
    rw [cell_of_container hp] at hp'
    cases hp'
  | more hp' =>
    rw [cell_of_container hp] at hp'
    cases hp'
  | container hp' hf =>
    rw [hp] at hp'
    cases hp'
    exact ⟨_, rfl, hf⟩

end Nested

/-! ## Lists that end with nil -/

/-- No list ends with a cell that holds nil. -/
def NoNilCell (h : Heap) : Prop :=
  ∀ p x xs, h.cell p = some (x, xs) → ¬ (isNil x = true ∧ isNil xs = true)

/-! ## Calls that end at once -/

section Calls

variable {h : Heap} {room : ℕ} {a b : Ptr}

/-- What `isoequal` does before it looks at two objects. -/
theorem isoequal_succ : h.isoequal (room + 1) a b = true ↔
    identical a b = true ∨ (isNil a = true ∧ isNil b = true) ∨
      h.isoObjects (h.isoequal room) a b = true := by
  rw [Heap.isoequal, Bool.or_eq_true, Bool.or_eq_true, Bool.and_eq_true, or_assoc]

theorem isoequal_zero : h.isoequal 0 a b = true ↔
    identical a b = true ∨ (isNil a = true ∧ isNil b = true) := by
  rw [Heap.isoequal, Bool.or_eq_true, Bool.and_eq_true]

/-- A pair and what is no pair are equal when both are nil. -/
theorem isoequal_of_pair (hpair : (h.pairOf a).isSome ≠ (h.pairOf b).isSome) :
    h.isoequal room a b = true ↔ isNil a = true ∧ isNil b = true := by
  have hne : identical a b ≠ true := by
    rw [Ne, identical_iff]
    rintro ⟨rfl, -⟩
    exact hpair rfl
  cases room with
  | zero => rw [isoequal_zero, or_iff_right hne]
  | succ room =>
    rw [isoequal_succ, or_iff_right hne, or_iff_left_iff_imp]
    intro hobj
    have hequal : h.isequal a b = true ∨ False := by
      rw [Heap.isoObjects] at hobj
      unfold Heap.pairOf at hpair
      cases ha : h.look a with
      | none => simp [ha] at hobj
      | some o =>
        cases hb : h.look b with
        | none => simp [ha, hb] at hobj
        | some o' =>
          rw [ha, hb] at hobj hpair
          cases o <;> cases o' <;> simp_all [Object.boxedCells]
    rcases isequal_iff.mp (hequal.resolve_right id) with ⟨rfl, -⟩ | hnil | ⟨o, o', ha, hb, -⟩
    · exact absurd rfl hpair
    · exact hnil
    · unfold Heap.pairOf at hpair
      rw [ha, hb] at hpair
      exact absurd rfl hpair

theorem isNil_null : isNil .null = true := rfl

theorem isoequal_null_left : h.isoequal room .null b = true ↔ isNil b = true := by
  have hid : identical .null b = true → isNil b = true := by
    rw [identical_iff]
    rintro ⟨rfl, -⟩
    rfl
  have hobj : ∀ eq, h.isoObjects eq .null b = false := fun _ => rfl
  cases room with
  | zero => simpa [isoequal_zero, isNil_null] using hid
  | succ room => simpa [isoequal_succ, hobj, isNil_null] using hid

theorem isoequal_null_right : h.isoequal room a .null = true ↔ isNil a = true := by
  have hid : identical a .null = true → isNil a = true := by
    rw [identical_iff]
    rintro ⟨rfl, -⟩
    rfl
  have hobj : ∀ eq, h.isoObjects eq a .null = false := by
    intro eq
    unfold Heap.isoObjects
    cases h.look a with
    | none => rfl
    | some o => cases o <;> rfl
  cases room with
  | zero => simpa [isoequal_zero, isNil_null] using hid
  | succ room => simpa [isoequal_succ, hobj, isNil_null] using hid

end Calls

/-! ## The walk along two lists -/

section Pairs

variable {h : Heap} {n : ℕ} {eq : Ptr → Ptr → Bool} {a b : Ptr}

/-- A call that is right about values nested at most `n` deep. -/
structure Right (h : Heap) (n : ℕ) (eq : Ptr → Ptr → Bool) : Prop where
  nested : ∀ x y, Nested h n x → Nested h n y → (eq x y = true ↔ Structural h x y)
  pair : ∀ x y, (h.pairOf x).isSome ≠ (h.pairOf y).isSome →
    (eq x y = true ↔ isNil x = true ∧ isNil y = true)
  nullLeft : ∀ y, eq .null y = true ↔ isNil y = true
  nullRight : ∀ x, eq x .null = true ↔ isNil x = true

theorem structural_of_isNil (ha : isNil a = true) (hb : isNil b = true) : Structural h a b :=
  .equal (isequal_iff.mpr (.inr (.inl ⟨ha, hb⟩)))

/-- A cell is not related to nil. -/
theorem not_structural_nil {p : Ptr × Ptr} (ha : h.cell a = some p) (hb : isNil b = true) :
    ¬ Structural h a b := by
  intro hab
  rcases hab.cell_inv ha with rfl | ⟨y, ys, hb', -⟩
  · rw [cell_of_isNil hb] at ha
    cases ha
  · rw [cell_of_isNil hb] at hb'
    cases hb'

theorem pairOf_of_cell {p : Ptr × Ptr} (ha : h.cell a = some p) : h.pairOf a = some p := by
  rw [Heap.pairOf, (look_of_cell ha).1]

theorem cell_of_pairOf_none (ha : h.pairOf a = none) : h.cell a = none := by
  rw [Heap.cell, ha]
  split <;> rfl

/-- A pair is related to what is no pair when both are nil. -/
theorem structural_of_pair (hpair : (h.pairOf a).isSome ≠ (h.pairOf b).isSome) :
    Structural h a b ↔ isNil a = true ∧ isNil b = true := by
  refine ⟨fun hab => ?_, fun hnil => structural_of_isNil hnil.1 hnil.2⟩
  -- one of them would be a cell and the other not
  have hcell : ∀ {x y : Ptr} {p : Ptr × Ptr}, Structural h x y → h.cell x = some p →
      h.pairOf y = none → False := by
    intro x y p hxy hx hy
    rcases hxy.cell_inv hx with rfl | ⟨z, zs, hz, -⟩
    · rw [cell_of_pairOf_none hy] at hx
      cases hx
    · rw [cell_of_pairOf_none hy] at hz
      cases hz
  have hother : ∀ {x y : Ptr} {p : Ptr × Ptr}, Structural h x y → h.pairOf x = some p →
      h.pairOf y = none → isNil x = true ∧ isNil y = true := by
    intro x y p hxy hx hy
    by_cases hnil : isNil x = true
    · refine ⟨hnil, ?_⟩
      rw [isNil_iff] at hnil
      rcases hnil with rfl | rfl
      · cases hx
      · cases hxy with
        | equal heq =>
          rcases isequal_iff.mp heq with ⟨rfl, -⟩ | ⟨-, hn⟩ | ⟨o, o', ho, -, -⟩
          · rw [hx] at hy
            cases hy
          · exact hn
          · exact absurd ho (not_plain_of_isNil rfl)
        | cell hx' => cases (cell_of_isNil (h := h) (a := .ref 0) rfl).symm.trans hx'
        | container hx' =>
          obtain ⟨-, -, -, -, hn⟩ := look_of_container hx'
          cases hn
    · have hx' : h.cell x = some p := by rw [Heap.cell, if_neg hnil, hx]
      exact (hcell hxy hx' hy).elim
  cases ha : h.pairOf a with
  | none =>
    cases hb : h.pairOf b with
    | none =>
      rw [ha, hb] at hpair
      exact absurd rfl hpair
    | some q => exact (hother hab.symm hb ha).symm
  | some p =>
    cases hb : h.pairOf b with
    | none => exact hother hab ha hb
    | some q =>
      rw [ha, hb] at hpair
      exact absurd rfl hpair

/-- What a cell holds was there before it. -/
theorem rank_of_cell {x xs : Ptr} (ha : h.cell a = some (x, xs)) :
    xs.rank < a.rank ∧ ∀ bits, x ≠ .boxed bits := by
  obtain ⟨hlook, -⟩ := look_of_cell ha
  cases a with
  | ref i =>
    have hbefore := h.older i (.pair x xs) hlook
    have hx : x.Before i := hbefore x List.mem_cons_self
    have hxs : xs.Before i := hbefore xs (List.mem_cons_of_mem _ List.mem_cons_self)
    constructor
    · cases xs with
      | ref j => exact Nat.succ_lt_succ hxs
      | _ => exact Nat.succ_pos i
    · rintro bits rfl
      exact hx
  | _ => cases hlook

theorem not_boxed_next {x xs : Ptr} (ha : h.cell a = some (x, xs)) : ∀ bits, xs ≠ .boxed bits := by
  obtain ⟨hlook, -⟩ := look_of_cell ha
  cases a with
  | ref i =>
    rintro bits rfl
    exact h.older i (.pair x (.boxed bits)) hlook _ (List.mem_cons_of_mem _ List.mem_cons_self)
  | _ => cases hlook

/-- Two lists are related when their first elements are and what follows is. -/
theorem structural_cell {x xs y ys : Ptr} (ha : h.cell a = some (x, xs))
    (hb : h.cell b = some (y, ys)) :
    Structural h a b ↔ Structural h x y ∧ Structural h xs ys := by
  refine ⟨fun hab => ?_, fun hxy => .cell ha hb hxy.1 hxy.2⟩
  rcases hab.cell_inv ha with rfl | ⟨y', ys', hb', hx, hxs⟩
  · rw [ha] at hb
    cases hb
    exact ⟨.refl (rank_of_cell ha).2, .refl (not_boxed_next ha)⟩
  · rw [hb] at hb'
    cases hb'
    exact ⟨hx, hxs⟩

theorem Tail.nested (ht : Tail h n a) (ha : h.cell a = none) : Nested h n a := by
  rwa [Tail, ha] at ht

/-- **The walk compares lists structurally**, where no list ends with a cell that holds nil. -/
theorem isoPairs_iff (hright : Right h n eq) (hno : NoNilCell h) {fuel : ℕ}
    (hfuel : a.rank ≤ fuel) (ha : Tail h n a) (hb : Tail h n b) :
    h.isoPairs eq fuel a b = true ↔ Structural h a b := by
  -- the loop has ended
  have hend : ∀ {a b : Ptr}, Tail h n a → Tail h n b → h.pairOf a = none ∨ h.pairOf b = none →
      (eq a b = true ↔ Structural h a b) := by
    intro a b ha hb hnone
    by_cases hpair : (h.pairOf a).isSome = (h.pairOf b).isSome
    · have hboth : h.pairOf a = none ∧ h.pairOf b = none := by
        rcases hnone with hn | hn
        · rw [hn] at hpair
          exact ⟨hn, by simpa using hpair.symm⟩
        · rw [hn] at hpair
          exact ⟨by simpa using hpair, hn⟩
      exact hright.nested a b (ha.nested (cell_of_pairOf_none hboth.1))
        (hb.nested (cell_of_pairOf_none hboth.2))
    · rw [hright.pair a b hpair, structural_of_pair hpair]
  induction fuel generalizing a b with
  | zero =>
    refine hend ha hb (.inl ?_)
    cases a with
    | ref i => exact absurd hfuel (Nat.not_succ_le_zero i)
    | _ => rfl
  | succ fuel ih =>
    rw [Heap.isoPairs]
    split
    · rename_i x xs y ys hpa hpb
      have hnull : ∀ (f : ℕ) (q : Ptr), h.isoPairs eq f .null q = eq .null q := by
        intro f q
        cases f <;> rfl
      have hnull' : ∀ (f : ℕ) (q : Ptr), h.isoPairs eq f q .null = eq q .null := by
        intro f q
        cases f with
        | zero => rfl
        | succ f =>
          rw [Heap.isoPairs]
          split
          · rename_i hq
            cases hq
          · rfl
      have hnilPair : ∀ {c y ys : Ptr}, isNil c = true → h.pairOf c = some (y, ys) →
          y = .null ∧ ys = .null := by
        intro c y ys hc hp
        rcases isNil_iff.mp hc with rfl | rfl
        · cases hp
        · have hl : h.look (.ref 0) = some (.pair .null .null) := h.nilAt
          rw [Heap.pairOf, hl] at hp
          cases hp
          exact ⟨rfl, rfl⟩
      rw [Bool.and_eq_true]
      by_cases hna : isNil a = true
      · obtain ⟨rfl, rfl⟩ := hnilPair hna hpa
        rw [hnull, hright.nullLeft, hright.nullLeft]
        by_cases hnb : isNil b = true
        · obtain ⟨rfl, rfl⟩ := hnilPair hnb hpb
          exact iff_of_true ⟨rfl, rfl⟩ (structural_of_isNil hna hnb)
        · have hcb : h.cell b = some (y, ys) := by rw [Heap.cell, if_neg hnb, hpb]
          exact iff_of_false (hno b y ys hcb) fun hab => not_structural_nil hcb hna hab.symm
      · have hca : h.cell a = some (x, xs) := by rw [Heap.cell, if_neg hna, hpa]
        by_cases hnb : isNil b = true
        · obtain ⟨rfl, rfl⟩ := hnilPair hnb hpb
          rw [hnull', hright.nullRight, hright.nullRight]
          exact iff_of_false (hno a x xs hca) (not_structural_nil hca hnb)
        · have hcb : h.cell b = some (y, ys) := by rw [Heap.cell, if_neg hnb, hpb]
          rw [Tail, hca, Option.isSome_some, if_pos rfl] at ha
          rw [Tail, hcb, Option.isSome_some, if_pos rfl] at hb
          obtain ⟨k, hk, hx, hxs⟩ := ha.of_cell hca
          obtain ⟨k', hk', hy, hys⟩ := hb.of_cell hcb
          obtain rfl := Nat.succ.inj hk
          obtain rfl := Nat.succ.inj hk'
          have hrank : xs.rank ≤ fuel := by
            have hlt := (rank_of_cell hca).1
            omega
          exact (and_congr (hright.nested x y hx hy) (ih hrank hxs hys)).trans
            (structural_cell hca hcb).symm
    · rename_i hnone
      refine hend ha hb ?_
      cases hpa : h.pairOf a with
      | none => exact .inl rfl
      | some p =>
        cases hpb : h.pairOf b with
        | none => exact .inr rfl
        | some q => exact (hnone _ _ _ _ hpa hpb).elim

end Pairs

/-! ## Elements -/

section Elements

variable {R : Ptr → Ptr → Prop} {eq : Ptr → Ptr → Bool}

/-- Two containers have elements at the same places, and they are related. -/
def Match (R : Ptr → Ptr → Prop) (f g : Slot → Option Ptr) : Prop :=
  (∀ s, (f s).isSome = (g s).isSome) ∧ ∀ s x y, f s = some x → g s = some y → R x y

/-- The elements of a list by their index. -/
def listSlots (xs : List Ptr) : Slot → Option Ptr
  | .index i => xs[i]?
  | _ => none

theorem isSome_getElem (xs : List Ptr) (i : ℕ) : xs[i]?.isSome = decide (i < xs.length) := by
  by_cases hi : i < xs.length
  · rw [List.getElem?_eq_getElem hi, decide_eq_true hi]
    rfl
  · rw [List.getElem?_eq_none (Nat.le_of_not_lt hi), decide_eq_false hi]
    rfl

theorem match_list {xs ys : List Ptr} : Match R (listSlots xs) (listSlots ys) ↔
    List.Forall₂ R xs ys := by
  rw [List.forall₂_iff_get]
  constructor
  · rintro ⟨hslots, helems⟩
    have hlen : xs.length = ys.length := by
      have hiff : ∀ i, i < xs.length ↔ i < ys.length := by
        intro i
        have hi : xs[i]?.isSome = ys[i]?.isSome := hslots (.index i)
        rw [isSome_getElem, isSome_getElem] at hi
        exact decide_eq_decide.mp hi
      have h1 := hiff xs.length
      have h2 := hiff ys.length
      omega
    refine ⟨hlen, fun i hx hy => helems (.index i) _ _ ?_ ?_⟩
    · exact List.getElem?_eq_getElem hx
    · exact List.getElem?_eq_getElem hy
  · rintro ⟨hlen, helems⟩
    refine ⟨fun s => ?_, fun s x y hx hy => ?_⟩
    · cases s with
      | index i =>
        show xs[i]?.isSome = ys[i]?.isSome
        rw [isSome_getElem, isSome_getElem, hlen]
      | _ => rfl
    · cases s with
      | index i =>
        obtain ⟨hi, rfl⟩ := List.getElem?_eq_some_iff.mp hx
        obtain ⟨hj, rfl⟩ := List.getElem?_eq_some_iff.mp hy
        exact helems i hi hj
      | _ => cases hx

theorem isEqv_iff {xs ys : List Ptr} (heq : ∀ x ∈ xs, ∀ y ∈ ys, (eq x y = true ↔ R x y)) :
    xs.isEqv ys eq = true ↔ List.Forall₂ R xs ys := by
  induction xs generalizing ys with
  | nil => cases ys <;> simp
  | cons x xs ih =>
    cases ys with
    | nil => simp
    | cons y ys =>
      rw [List.isEqv_cons_cons, Bool.and_eq_true, List.forall₂_cons,
        heq x List.mem_cons_self y List.mem_cons_self,
        ih fun x hx y hy => heq x (List.mem_cons_of_mem _ hx) y (List.mem_cons_of_mem _ hy)]

end Elements

/-! ## Entries -/

section Entries

variable {α β : Type} {R : α → β → Prop} {xs : List α} {ys : List β}

/-- When each of the one list is related to one of the other and none to two, the lists are of equal
length exactly when the other is met everywhere. -/
theorem covers_iff (hxs : xs.Nodup) (hys : ys.Nodup) (hcov : ∀ x ∈ xs, ∃ y ∈ ys, R x y)
    (hinj : ∀ x ∈ xs, ∀ x' ∈ xs, ∀ y ∈ ys, R x y → R x' y → x = x')
    (huniq : ∀ x ∈ xs, ∀ y ∈ ys, ∀ y' ∈ ys, R x y → R x y' → y = y') :
    xs.length = ys.length ↔ ∀ y ∈ ys, ∃ x ∈ xs, R x y := by
  choose f hf using hcov
  have hmem : ∀ y, y ∈ xs.pmap f (fun _ hx => hx) ↔ ∃ x hx, f x hx = y := by
    intro y
    rw [List.mem_pmap]
  have hnodup : (xs.pmap f fun _ hx => hx).Nodup := hxs.pmap fun x hx x' hx' hfx =>
    hinj x hx x' hx' (f x hx) (hf x hx).1 (hf x hx).2 (hfx ▸ (hf x' hx').2)
  have hsub : xs.pmap f (fun _ hx => hx) ⊆ ys := by
    intro y hy
    obtain ⟨x, hx, rfl⟩ := (hmem y).mp hy
    exact (hf x hx).1
  have hsubperm := List.subperm_of_subset hnodup hsub
  constructor
  · intro hlen y hy
    have hperm := hsubperm.perm_of_length_le (by rw [List.length_pmap, hlen])
    obtain ⟨x, hx, rfl⟩ := (hmem y).mp (hperm.mem_iff.mpr hy)
    exact ⟨x, hx, (hf x hx).2⟩
  · intro hback
    have hsub' : ys ⊆ xs.pmap f fun _ hx => hx := by
      intro y hy
      obtain ⟨x, hx, hxy⟩ := hback y hy
      exact (hmem y).mpr ⟨x, hx, huniq x hx _ (hf x hx).1 y hy (hf x hx).2 hxy⟩
    have hle := (List.subperm_of_subset hys hsub').length_le
    have hge := hsubperm.length_le
    rw [List.length_pmap] at hle hge
    omega

end Entries

section Dicts

variable {V W : Type} {d : Dict V} {d' : Dict W}

theorem mem_keys (hd : d.Ok) (k : CStr) : k ∈ d.entries.map Prod.fst ↔ (d.find k).isSome = true := by
  rw [← not_iff_not, ← hd.find_eq_none, Bool.not_eq_true, Option.isSome_eq_false_iff,
    Option.isNone_iff_eq_none]

/-- **Two tables have the same keys** when they have equally many and each of the one is in the
other. -/
theorem keys_iff (hd : d.Ok) (hd' : d'.Ok) :
    (d.used = d'.used ∧ ∀ kv ∈ d.entries, (d'.find kv.1).isSome = true) ↔
      ∀ k, (d.find k).isSome = (d'.find k).isSome := by
  have hsub : (∀ kv ∈ d.entries, (d'.find kv.1).isSome = true) ↔
      ∀ k ∈ d.entries.map Prod.fst, k ∈ d'.entries.map Prod.fst := by
    simp only [List.forall_mem_map, mem_keys hd']
  have hlen : d.used = d'.used ↔
      (d.entries.map Prod.fst).length = (d'.entries.map Prod.fst).length := by
    rw [hd.used_eq, hd'.used_eq, List.length_map, List.length_map]
  rw [hsub, hlen]
  constructor
  · rintro ⟨hlen, hcov⟩ k
    have hback := (covers_iff hd.distinct hd'.distinct (R := Eq) (fun k hk => ⟨k, hcov k hk, rfl⟩)
      (by rintro _ - _ - _ - rfl rfl; rfl) (by rintro _ - _ - _ - rfl rfl; rfl)).mp hlen
    rw [Bool.eq_iff_iff, ← mem_keys hd, ← mem_keys hd']
    refine ⟨hcov k, fun hk => ?_⟩
    obtain ⟨k', hk', rfl⟩ := hback k hk
    exact hk'
  · intro hkeys
    have hiff : ∀ k, k ∈ d.entries.map Prod.fst ↔ k ∈ d'.entries.map Prod.fst := by
      intro k
      rw [mem_keys hd, mem_keys hd', hkeys]
    have hperm := (List.perm_ext_iff_of_nodup hd.distinct hd'.distinct).mpr hiff
    exact ⟨hperm.length_eq, fun k hk => (hiff k).mp hk⟩

end Dicts

section Maps

variable {R : Ptr → Ptr → Prop} {eq : Ptr → Ptr → Bool}

/-- The elements of a dict by their names. -/
def dictSlots (d : Dict Ptr) : Slot → Option Ptr
  | .name key => d.find key
  | _ => none

theorem dict_iff {d d' : Dict Ptr} (hd : d.Ok) (hd' : d'.Ok)
    (heq : ∀ k x k' y, d.find k = some x → d'.find k' = some y → (eq x y = true ↔ R x y)) :
    (d.used = d'.used && d.entries.all fun kv => (d'.find kv.1).any (eq kv.2)) = true ↔
      Match R (dictSlots d) (dictSlots d') := by
  rw [Bool.and_eq_true, decide_eq_true_iff, List.all_eq_true]
  have hany : ∀ kv : CStr × Ptr, (d'.find kv.1).any (eq kv.2) = true ↔
      ∃ y, d'.find kv.1 = some y ∧ eq kv.2 y = true := fun kv => Option.any_eq_true _ _
  constructor
  · rintro ⟨hused, hall⟩
    have hkeys := (keys_iff hd hd').mp ⟨hused, fun kv hkv => by
      obtain ⟨y, hy, -⟩ := (hany kv).mp (hall kv hkv)
      rw [hy]
      rfl⟩
    refine ⟨fun s => ?_, fun s x y hx hy => ?_⟩
    · cases s with
      | name k => exact hkeys k
      | _ => rfl
    · cases s with
      | name k =>
        have hx' : d.find k = some x := hx
        have hy' : d'.find k = some y := hy
        obtain ⟨z, hz, hxz⟩ := (hany (k, x)).mp (hall (k, x) (hd.find_eq_some.mp hx'))
        obtain rfl : y = z := Option.some.inj (hy'.symm.trans hz)
        exact (heq k x k y hx' hy').mp hxz
      | _ => cases hx
  · rintro ⟨hslots, helems⟩
    obtain ⟨hused, hfound⟩ := (keys_iff hd hd').mpr fun k => hslots (.name k)
    refine ⟨hused, fun kv hkv => (hany kv).mpr ?_⟩
    obtain ⟨y, hy⟩ := Option.isSome_iff_exists.mp (hfound kv hkv)
    have hx : d.find kv.1 = some kv.2 := hd.find_eq_some.mpr hkv
    exact ⟨y, hy, (heq kv.1 kv.2 kv.1 y hx hy).mpr (helems (.name kv.1) kv.2 y hx hy)⟩

/-- The names of a set. -/
def setSlots (d : Dict Ptr) : Slot → Option Ptr
  | .name key => (d.find key).map fun _ => .null
  | _ => none

theorem set_iff {d d' : Dict Ptr} (hd : d.Ok) (hd' : d'.Ok) (hR : R .null .null) :
    (d.used = d'.used && d.entries.all fun kv => (d'.find kv.1).isSome) = true ↔
      Match R (setSlots d) (setSlots d') := by
  rw [Bool.and_eq_true, decide_eq_true_iff, List.all_eq_true, keys_iff hd hd']
  constructor
  · intro hkeys
    refine ⟨fun s => ?_, fun s x y hx hy => ?_⟩
    · cases s with
      | name k =>
        show ((d.find k).map _).isSome = ((d'.find k).map _).isSome
        rw [Option.isSome_map, Option.isSome_map, hkeys]
      | _ => rfl
    · cases s with
      | name k =>
        obtain ⟨-, -, rfl⟩ := Option.map_eq_some_iff.mp (show (d.find k).map _ = some x from hx)
        obtain ⟨-, -, rfl⟩ := Option.map_eq_some_iff.mp (show (d'.find k).map _ = some y from hy)
        exact hR
      | _ => cases hx
  · rintro ⟨hslots, -⟩ k
    have hk : ((d.find k).map fun _ => Ptr.null).isSome = ((d'.find k).map fun _ => Ptr.null).isSome :=
      hslots (.name k)
    rwa [Option.isSome_map, Option.isSome_map] at hk

/-- The elements of a persistent map by their keys. -/
def hamtSlots (m : Hamt.Map Ptr) : Slot → Option Ptr
  | .key k => (m.entries.find? fun e => Hamt.isequal e.1 k).map Prod.snd
  | _ => none

/-- No two entries of a map have equal keys. -/
theorem entry_unique {es : List (Hamt.Key × Ptr)} (hd : DistinctKeys es) {e e' : Hamt.Key × Ptr}
    (he : e ∈ es) (he' : e' ∈ es) (heq : Hamt.isequal e.1 e'.1 = true) : e = e' := by
  have hpair : es.Pairwise fun a b => Hamt.isequal a.1 b.1 = false := List.pairwise_map.mp hd
  by_contra hne
  have hsymm : Std.Symm fun a b : Hamt.Key × Ptr => Hamt.isequal a.1 b.1 = false :=
    ⟨fun a b hab => by rwa [Hamt.isequal_comm]⟩
  have hfalse := hpair.forall he he' hne
  rw [heq] at hfalse
  cases hfalse

theorem hamtSlots_iff {m : Hamt.Map Ptr} (hm : m.Inv hamtHashkey) {k : Hamt.Key} {x : Ptr} :
    hamtSlots m (.key k) = some x ↔ ∃ e ∈ m.entries, Hamt.isequal e.1 k = true ∧ e.2 = x := by
  rw [hamtSlots, Option.map_eq_some_iff]
  constructor
  · rintro ⟨e, he, rfl⟩
    have hk := List.find?_some he
    exact ⟨e, List.mem_of_find?_eq_some he, hk, rfl⟩
  · rintro ⟨e, he, heq, rfl⟩
    cases hf : m.entries.find? fun e => Hamt.isequal e.1 k with
    | none =>
      have hno := List.find?_eq_none.mp hf e he
      exact absurd heq hno
    | some e' =>
      have hsame : e' = e := by
        refine entry_unique hm.distinct (List.mem_of_find?_eq_some hf) he ?_
        have hk := List.find?_some hf
        exact Hamt.isequal_trans hk (by rw [Hamt.isequal_comm, heq])
      exact ⟨e', rfl, by rw [hsame]⟩

/-- What `hamt_iso` asks for. -/
theorem hamtIso_iff {m m' : Hamt.Map Ptr} (hm : m.Inv hamtHashkey) :
    Heap.hamtIso eq m m' = true ↔ m.count = m'.count ∧ ∀ e ∈ m.entries,
      ∃ v, m'.lookup hamtHashkey e.1 = some (some v) ∧ v ≠ .null ∧ eq e.2 v = true := by
  rw [Heap.hamtIso, hm.visit, Bool.and_eq_true, decide_eq_true_iff, List.all_eq_true]
  refine and_congr_right fun _ => forall₂_congr fun e he => ?_
  split
  · rename_i v hv
    rw [Bool.and_eq_true, decide_eq_true_iff]
    constructor
    · exact fun h => ⟨v, hv, h⟩
    · rintro ⟨v', hv', h⟩
      rw [hv] at hv'
      cases hv'
      exact h
  · rename_i hno
    refine iff_of_false Bool.false_ne_true ?_
    rintro ⟨v, hv, -⟩
    exact hno v hv

/-- A lookup that finds a value finds the one of an equal key. -/
theorem entry_of_lookup {m : Hamt.Map Ptr} (hm : m.Inv hamtHashkey) {k : Hamt.Key} {v : Ptr}
    (hv : m.lookup hamtHashkey k = some (some v)) :
    ∃ e ∈ m.entries, Hamt.isequal e.1 k = true ∧ e.2 = v := by
  obtain ⟨r, hr, hfound⟩ := hm.lookup k
  rw [hv] at hr
  obtain rfl := Option.some.inj hr
  obtain ⟨k', hmem, heq⟩ := hfound
  exact ⟨(k', v), hmem, heq, rfl⟩

/-- **`hamt_iso` compares maps structurally**, where every key is found with a value. -/
theorem hamt_iff {m m' : Hamt.Map Ptr} (hm : m.Inv hamtHashkey) (hm' : m'.Inv hamtHashkey)
    (heq : ∀ k x k' y, hamtSlots m (.key k) = some x → hamtSlots m' (.key k') = some y →
      (eq x y = true ↔ R x y)) :
    Heap.hamtIso eq m m' = true ↔ Match R (hamtSlots m) (hamtSlots m') ∧ ∀ e ∈ m.entries,
      ∃ v, m'.lookup hamtHashkey e.1 = some (some v) ∧ v ≠ .null := by
  have hnodup : ∀ {m : Hamt.Map Ptr}, m.Inv hamtHashkey → m.entries.Nodup := by
    intro m hm
    refine (List.pairwise_map.mp hm.distinct).imp ?_
    rintro a _ hab rfl
    rw [Hamt.isequal_self] at hab
    cases hab
  have hsym : ∀ {a b : Hamt.Key}, Hamt.isequal a b = true → Hamt.isequal b a = true := by
    intro a b hab
    rw [Hamt.isequal_comm, hab]
  have hself : ∀ {m : Hamt.Map Ptr}, m.Inv hamtHashkey → ∀ e ∈ m.entries,
      hamtSlots m (.key e.1) = some e.2 := fun hm e he =>
    (hamtSlots_iff hm).mpr ⟨e, he, Hamt.isequal_self _, rfl⟩
  have hcovers : (∀ e ∈ m.entries, ∃ e' ∈ m'.entries, Hamt.isequal e.1 e'.1 = true) →
      (m.count = m'.count ↔ ∀ e' ∈ m'.entries, ∃ e ∈ m.entries, Hamt.isequal e.1 e'.1 = true) := by
    intro hcov
    rw [hm.count, hm'.count, Int.natCast_inj]
    refine covers_iff (hnodup hm) (hnodup hm') hcov (fun e he e' he' f _ h1 h2 => ?_)
      fun e _ f hf f' hf' h1 h2 => ?_
    · exact entry_unique hm.distinct he he' (Hamt.isequal_trans h1 (hsym h2))
    · exact entry_unique hm'.distinct hf hf' (Hamt.isequal_trans (hsym h1) h2)
  rw [hamtIso_iff hm]
  constructor
  · rintro ⟨hcount, hall⟩
    have hcov : ∀ e ∈ m.entries, ∃ e' ∈ m'.entries, Hamt.isequal e.1 e'.1 = true := by
      intro e he
      obtain ⟨v, hv, -⟩ := hall e he
      obtain ⟨e', he', hk, -⟩ := entry_of_lookup hm' hv
      exact ⟨e', he', hsym hk⟩
    have hback := (hcovers hcov).mp hcount
    refine ⟨⟨fun s => ?_, fun s x y hx hy => ?_⟩, fun e he => ?_⟩
    · cases s with
      | key k =>
        rw [Bool.eq_iff_iff, Option.isSome_iff_exists, Option.isSome_iff_exists]
        simp only [hamtSlots_iff hm, hamtSlots_iff hm']
        constructor
        · rintro ⟨-, e, he, hk, -⟩
          obtain ⟨e', he', hee⟩ := hcov e he
          exact ⟨e'.2, e', he', Hamt.isequal_trans (hsym hee) hk, rfl⟩
        · rintro ⟨-, e', he', hk, -⟩
          obtain ⟨e, he, hee⟩ := hback e' he'
          exact ⟨e.2, e, he, Hamt.isequal_trans hee hk, rfl⟩
      | _ => rfl
    · cases s with
      | key k =>
        obtain ⟨e, he, hk, rfl⟩ := (hamtSlots_iff hm).mp hx
        obtain ⟨e', he', hk', rfl⟩ := (hamtSlots_iff hm').mp hy
        obtain ⟨v, hv, -, hev⟩ := hall e he
        obtain ⟨e'', he'', hk'', rfl⟩ := entry_of_lookup hm' hv
        have hsame : e' = e'' := entry_unique hm'.distinct he' he''
          (Hamt.isequal_trans hk' (hsym (Hamt.isequal_trans hk'' hk)))
        subst hsame
        exact (heq k e.2 k e'.2 hx hy).mp hev
      | _ => cases hx
    · obtain ⟨v, hv, hne, -⟩ := hall e he
      exact ⟨v, hv, hne⟩
  · rintro ⟨⟨hslots, helems⟩, hfound⟩
    have hcov : ∀ e ∈ m.entries, ∃ e' ∈ m'.entries, Hamt.isequal e.1 e'.1 = true := by
      intro e he
      obtain ⟨v, hv, -⟩ := hfound e he
      obtain ⟨e', he', hk, -⟩ := entry_of_lookup hm' hv
      exact ⟨e', he', hsym hk⟩
    have hback : ∀ e' ∈ m'.entries, ∃ e ∈ m.entries, Hamt.isequal e.1 e'.1 = true := by
      intro e' he'
      have hsome : (hamtSlots m (.key e'.1)).isSome = true := by
        rw [hslots, hself hm' e' he']
        rfl
      obtain ⟨x, hx⟩ := Option.isSome_iff_exists.mp hsome
      obtain ⟨e, he, hk, -⟩ := (hamtSlots_iff hm).mp hx
      exact ⟨e, he, hk⟩
    refine ⟨(hcovers hcov).mpr hback, fun e he => ?_⟩
    obtain ⟨v, hv, hne⟩ := hfound e he
    obtain ⟨e', he', hk, rfl⟩ := entry_of_lookup hm' hv
    have hx := hself hm e he
    have hy : hamtSlots m' (.key e.1) = some e'.2 := (hamtSlots_iff hm').mpr ⟨e', he', hk, rfl⟩
    exact ⟨e'.2, hv, hne, (heq _ _ _ _ hx hy).mpr (helems _ _ _ hx hy)⟩

end Maps

end Alcove.Equality
