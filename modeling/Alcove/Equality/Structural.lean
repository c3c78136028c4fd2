import Alcove.Equality.Heap

/-!
# Structural equality

What `iso` is for: two values are structurally equal when they are equal atoms, or containers of one
kind with the same length or the same keys whose elements are structurally equal. A list is a chain
of cells; `nil_singleton` is none of them.

**Main results:** `Structural.refl`, `Structural.symm`, `Structural.trans`, `Structural.length`. It is
an equivalence relation, and lists with different numbers of elements are not related.
-/

namespace Alcove.Equality

open Hamt (sameValue hamtHashkey)

namespace Heap

variable (h : Heap)

/-- A pair that holds an element of a list. -/
def cell (p : Ptr) : Option (Ptr × Ptr) := if isNil p then none else h.pairOf p

end Heap

/-- The kinds of containers, but for lists. -/
inductive Kind
  | vector | deque | dict | set | hamt
  deriving DecidableEq

/-- Where a container has an element. -/
inductive Slot
  | index (i : ℕ)
  | name (key : CStr)
  | key (k : Hamt.Key)

/-- The kind of a container and its elements. A set has names only; the keys of a hamt are taken up
to `isequal`. -/
def Object.container : Object → Option (Kind × (Slot → Option Ptr))
  | plain _ | pair _ _ => none
  | deque vals => some (.deque, fun
    | .index i => vals[i]?
    | _ => none)
  | dict d => some (.dict, fun
    | .name key => d.find key
    | _ => none)
  | set d => some (.set, fun
    | .name key => (d.find key).map fun _ => .null
    | _ => none)
  | hamt m => some (.hamt, fun
    | .key k => (m.entries.find? fun e => Hamt.isequal e.1 k).map Prod.snd
    | _ => none)
  | o => o.boxedCells.map fun cells => (.vector, fun
    | .index i => cells[i]?
    | _ => none)

/-- The kind and the elements of the container that a pointer leads to. -/
def Heap.container (h : Heap) (p : Ptr) : Option (Kind × (Slot → Option Ptr)) :=
  (h.look p).bind Object.container

/-- Structural equality. -/
inductive Structural (h : Heap) : Ptr → Ptr → Prop
  | equal {a b : Ptr} (hab : h.isequal a b = true) : Structural h a b
  | cell {a b x xs y ys : Ptr} (ha : h.cell a = some (x, xs)) (hb : h.cell b = some (y, ys))
      (hx : Structural h x y) (hxs : Structural h xs ys) : Structural h a b
  | container {a b : Ptr} {kind : Kind} {f g : Slot → Option Ptr}
      (ha : h.container a = some (kind, f)) (hb : h.container b = some (kind, g))
      (hslots : ∀ s, (f s).isSome = (g s).isSome)
      (helems : ∀ s x y, f s = some x → g s = some y → Structural h x y) : Structural h a b

/-! ## Equal atoms -/

section Atoms

variable {h : Heap} {a b c : Ptr}

theorem identical_iff : identical a b = true ↔ a = b ∧ ∀ bits, a ≠ .boxed bits := by
  cases a <;> simp [identical]

/-- What `isequal` compares. -/
theorem isequal_iff : h.isequal a b = true ↔ (a = b ∧ ∀ bits, a ≠ .boxed bits) ∨
    (isNil a = true ∧ isNil b = true) ∨
    ∃ o o', h.look a = some (.plain o) ∧ h.look b = some (.plain o') ∧ sameValue o o' = true := by
  rw [Heap.isequal, Bool.or_eq_true, Bool.or_eq_true, identical_iff, Bool.and_eq_true, or_assoc]
  refine or_congr_right (or_congr_right ?_)
  split
  · rename_i o o' ha hb
    simp [ha, hb]
  · rename_i hno
    refine iff_of_false Bool.false_ne_true ?_
    rintro ⟨o, o', ha, hb, -⟩
    exact hno o o' ha hb

theorem isNil_iff : isNil a = true ↔ a = .null ∨ a = .ref 0 := by
  unfold isNil
  split <;> simp_all

/-- Nil leads to no object but the empty pair. -/
theorem look_of_isNil (ha : isNil a = true) :
    h.look a = none ∨ h.look a = some (.pair .null .null) := by
  rcases isNil_iff.mp ha with rfl | rfl
  · exact .inl rfl
  · exact .inr h.nilAt

/-- A container is equal to itself only. -/
theorem eq_of_isequal {o : Object} (ha : h.look a = some o) (hplain : ∀ p, o ≠ .plain p)
    (hnil : isNil a = false) (hab : h.isequal a b = true) : a = b := by
  rcases isequal_iff.mp hab with ⟨heq, -⟩ | ⟨hna, -⟩ | ⟨p, -, hp, -, -⟩
  · exact heq
  · rw [hnil] at hna
    cases hna
  · rw [ha] at hp
    exact absurd (Option.some.inj hp) (hplain p)

theorem sameValue_comm (o o' : Hamt.Obj) : sameValue o o' = sameValue o' o := by
  cases o <;> cases o' <;> simp [sameValue, Hamt.floatEq_comm, Bool.beq_comm]

theorem isequal_symm (hab : h.isequal a b = true) : h.isequal b a = true := by
  rw [isequal_iff] at hab ⊢
  rcases hab with ⟨rfl, hbox⟩ | ⟨hna, hnb⟩ | ⟨o, o', ha, hb, hs⟩
  · exact .inl ⟨rfl, hbox⟩
  · exact .inr (.inl ⟨hnb, hna⟩)
  · exact .inr (.inr ⟨o', o, hb, ha, by rw [sameValue_comm, hs]⟩)

theorem not_plain_of_isNil {o : Hamt.Obj} (ha : isNil a = true) : h.look a ≠ some (.plain o) := by
  rcases look_of_isNil (h := h) ha with hl | hl
  · rw [hl]
    rintro ⟨⟩
  · rw [hl]
    rintro ⟨⟩

theorem isequal_trans (hab : h.isequal a b = true) (hbc : h.isequal b c = true) :
    h.isequal a c = true := by
  rcases isequal_iff.mp hab with ⟨rfl, -⟩ | ⟨hna, hnb⟩ | ⟨o, o', ha, hb, hs⟩
  · exact hbc
  · rcases isequal_iff.mp hbc with ⟨rfl, -⟩ | ⟨-, hnc⟩ | ⟨o, o', hb, -, -⟩
    · exact hab
    · exact isequal_iff.mpr (.inr (.inl ⟨hna, hnc⟩))
    · exact absurd hb (not_plain_of_isNil hnb)
  · rcases isequal_iff.mp hbc with ⟨rfl, -⟩ | ⟨hnb, -⟩ | ⟨p, p', hb', hc, hs'⟩
    · exact hab
    · exact absurd hb (not_plain_of_isNil hnb)
    · rw [hb] at hb'
      cases hb'
      exact isequal_iff.mpr (.inr (.inr ⟨o, p', ha, hc, Hamt.sameValue_trans hs hs'⟩))

end Atoms

/-! ## An equivalence relation -/

section Containers

variable {h : Heap} {a b c x xs : Ptr}

theorem look_of_cell (ha : h.cell a = some (x, xs)) :
    h.look a = some (.pair x xs) ∧ isNil a = false := by
  rw [Heap.cell] at ha
  split at ha
  · cases ha
  · rename_i hnil
    rw [Heap.pairOf] at ha
    split at ha
    · rename_i hlook
      cases ha
      exact ⟨hlook, by simpa using hnil⟩
    · cases ha

theorem cell_of_look (ha : h.look a = some (.pair x xs)) (hnil : isNil a = false) :
    h.cell a = some (x, xs) := by
  rw [Heap.cell, hnil, Heap.pairOf, ha]
  rfl

theorem eq_of_cell (ha : h.cell a = some (x, xs)) (hab : h.isequal a b = true) : a = b := by
  obtain ⟨hlook, hnil⟩ := look_of_cell ha
  exact eq_of_isequal hlook (by rintro p ⟨⟩) hnil hab

/-- What a container is not. -/
theorem look_of_container {kf : Kind × (Slot → Option Ptr)} (ha : h.container a = some kf) :
    ∃ o, h.look a = some o ∧ o.container = some kf ∧ (∀ p, o ≠ .plain p) ∧ isNil a = false := by
  obtain ⟨o, ho, hc⟩ := Option.bind_eq_some_iff.mp ha
  refine ⟨o, ho, hc, ?_, ?_⟩
  · rintro p rfl
    cases hc
  · rw [← Bool.not_eq_true]
    intro hnil
    rcases look_of_isNil (h := h) hnil with hl | hl
    · rw [hl] at ho
      cases ho
    · rw [hl] at ho
      cases ho
      cases hc

theorem eq_of_container {kf : Kind × (Slot → Option Ptr)} (ha : h.container a = some kf)
    (hab : h.isequal a b = true) : a = b := by
  obtain ⟨o, hlook, -, hplain, hnil⟩ := look_of_container ha
  exact eq_of_isequal hlook hplain hnil hab

theorem cell_of_container {kf : Kind × (Slot → Option Ptr)} (ha : h.container a = some kf) :
    h.cell a = none := by
  obtain ⟨o, hlook, hc, -, -⟩ := look_of_container ha
  cases hcell : h.cell a with
  | none => rfl
  | some p =>
    rw [(look_of_cell hcell).1] at hlook
    cases hlook
    cases hc

namespace Structural

theorem refl (ha : ∀ bits, a ≠ .boxed bits) : Structural h a a :=
  .equal (isequal_iff.mpr (.inl ⟨rfl, ha⟩))

theorem symm (hab : Structural h a b) : Structural h b a := by
  induction hab with
  | equal hab => exact .equal (isequal_symm hab)
  | cell ha hb _ _ ihx ihxs => exact .cell hb ha ihx ihxs
  | container ha hb hslots _ ih =>
    exact .container hb ha (fun s => (hslots s).symm) fun s x y hx hy => ih s y x hy hx

theorem trans (hab : Structural h a b) (hbc : Structural h b c) : Structural h a c := by
  induction hab generalizing c with
  | equal hab =>
    cases hbc with
    | equal hbc => exact .equal (isequal_trans hab hbc)
    | cell hb hc hx hxs =>
      obtain rfl := eq_of_cell hb (isequal_symm hab)
      exact .cell hb hc hx hxs
    | container hb hc hslots helems =>
      obtain rfl := eq_of_container hb (isequal_symm hab)
      exact .container hb hc hslots helems
  | @cell a b x xs y ys ha hb hx hxs ihx ihxs =>
    cases hbc with
    | equal hbc =>
      obtain rfl := eq_of_cell hb hbc
      exact .cell ha hb hx hxs
    | cell hb' hc hx' hxs' =>
      rw [hb] at hb'
      cases hb'
      exact .cell ha hc (ihx hx') (ihxs hxs')
    | container hb' hc _ _ =>
      rw [cell_of_container hb'] at hb
      cases hb
  | @container a b kind f g ha hb hslots helems ih =>
    cases hbc with
    | equal hbc =>
      obtain rfl := eq_of_container hb hbc
      exact .container ha hb hslots helems
    | cell hb' hc _ _ =>
      rw [cell_of_container hb] at hb'
      cases hb'
    | container hb' hc hslots' helems' =>
      rw [hb] at hb'
      cases hb'
      refine .container ha hc (fun s => (hslots s).trans (hslots' s)) fun s x z hx hz => ?_
      -- the container between has an element there too
      have hsome : (g s).isSome := by rw [← hslots s, hx]; rfl
      obtain ⟨y, hy⟩ := Option.isSome_iff_exists.mp hsome
      exact ih s x y hx hy (helems' s y z hy hz)

/-- What a list is related to, other than itself. -/
theorem cell_inv (hab : Structural h a b) (ha : h.cell a = some (x, xs)) :
    a = b ∨ ∃ y ys, h.cell b = some (y, ys) ∧ Structural h x y ∧ Structural h xs ys := by
  cases hab with
  | equal hab => exact .inl (eq_of_cell ha hab)
  | cell ha' hb hx hxs =>
    rw [ha] at ha'
    cases ha'
    exact .inr ⟨_, _, hb, hx, hxs⟩
  | container ha' =>
    rw [cell_of_container ha'] at ha
    cases ha

/-- What a container is related to, other than itself. -/
theorem container_inv {kind : Kind} {f : Slot → Option Ptr} (hab : Structural h a b)
    (ha : h.container a = some (kind, f)) :
    a = b ∨ ∃ g, h.container b = some (kind, g) ∧ (∀ s, (f s).isSome = (g s).isSome) ∧
      ∀ s x y, f s = some x → g s = some y → Structural h x y := by
  cases hab with
  | equal hab => exact .inl (eq_of_container ha hab)
  | cell ha' =>
    rw [cell_of_container ha] at ha'
    cases ha'
  | container ha' hb hslots helems =>
    rw [ha] at ha'
    cases ha'
    exact .inr ⟨_, hb, hslots, helems⟩

end Structural

end Containers

/-! ## The number of elements of a list -/

/-- A list of `n` elements. -/
inductive HasLength (h : Heap) : Ptr → ℕ → Prop
  | nil {p : Ptr} (hp : isNil p = true) : HasLength h p 0
  | cell {p x xs : Ptr} {n : ℕ} (hp : h.cell p = some (x, xs)) (hxs : HasLength h xs n) :
      HasLength h p (n + 1)

section Length

variable {h : Heap} {a b : Ptr} {m n : ℕ}

theorem cell_of_isNil (ha : isNil a = true) : h.cell a = none := by rw [Heap.cell, if_pos ha]

/-- A list has one length. -/
theorem HasLength.unique (hm : HasLength h a m) (hn : HasLength h a n) : m = n := by
  induction hm generalizing n with
  | nil hp =>
    cases hn with
    | nil => rfl
    | cell hp' =>
      rw [cell_of_isNil hp] at hp'
      cases hp'
  | cell hp _ ih =>
    cases hn with
    | nil hp' =>
      rw [cell_of_isNil hp'] at hp
      cases hp
    | cell hp' hxs =>
      rw [hp] at hp'
      cases hp'
      rw [ih hxs]

/-- **Lists with different numbers of elements are not related.** -/
theorem Structural.length (hab : Structural h a b) (hm : HasLength h a m) (hn : HasLength h b n) :
    m = n := by
  induction hm generalizing b n with
  | @nil a hp =>
    cases hn with
    | nil => rfl
    | cell hb =>
      rcases hab.symm.cell_inv hb with rfl | ⟨y, ys, ha, -, -⟩
      · rw [cell_of_isNil hp] at hb
        cases hb
      · rw [cell_of_isNil hp] at ha
        cases ha
  | @cell a x xs m ha hxs ih =>
    rcases hab.cell_inv ha with rfl | ⟨y, ys, hb, -, hss⟩
    · exact (HasLength.cell ha hxs).unique hn
    · cases hn with
      | nil hb' =>
        rw [cell_of_isNil hb'] at hb
        cases hb
      | cell hb' hys =>
        rw [hb] at hb'
        cases hb'
        rw [ih hss hys]

end Length

end Alcove.Equality
