import Alcove.Equality.Agree

/-!
# `iso` and structural equality

**Main result:** `iso_is_structural_iff`. On values that are nested less than `isoMaxDepth` deep,
`isoequal` is structural equality, and so an equivalence relation, if and only if no list ends with a
cell that holds nil, and every key of a persistent map is found with a value in each other map that
is structurally equal to it. Otherwise it is not (`iso_differs`): the walk along two lists takes
`nil_singleton` for a cell that holds nil, a key that is hashed by its address is not found under
another one, and a value `NULL` passes for a missing key.
-/

namespace Alcove.Equality

open Hamt (hamtHashkey)

/-! ## The condition -/

/-- Every key of a map is found, with a value, in the other maps that are structurally equal to
it. -/
def KeysFound (h : Heap) : Prop :=
  ∀ a b (m m' : Hamt.Map Ptr), h.look a = some (.hamt m) → h.look b = some (.hamt m') → a ≠ b →
    Structural h a b → ∀ e ∈ m.entries,
      ∃ v, m'.lookup hamtHashkey e.1 = some (some v) ∧ v ≠ .null

/-! ## The nested calls -/

section Objects

variable {h : Heap} {k : ℕ} {eq : Ptr → Ptr → Bool} {a b : Ptr}

/-- Values that are not both lists nor of one kind are related when they are equal atoms. -/
theorem structural_of_kinds (hcell : h.cell a = none ∨ h.cell b = none)
    (hkind : ∀ kind f g, h.container a = some (kind, f) → h.container b ≠ some (kind, g)) :
    Structural h a b ↔ h.isequal a b = true := by
  refine ⟨fun hab => ?_, .equal⟩
  cases hab with
  | equal hab => exact hab
  | cell ha hb =>
    rcases hcell with hc | hc
    · rw [ha] at hc
      cases hc
    · rw [hb] at hc
      cases hc
  | container ha hb => exact absurd hb (hkind _ _ _ ha)

/-- Containers of one kind are related when their elements are. -/
theorem structural_container {kind : Kind} {f g : Slot → Option Ptr} (hne : a ≠ b)
    (ha : h.container a = some (kind, f)) (hb : h.container b = some (kind, g)) :
    Structural h a b ↔ Match (Structural h) f g := by
  refine ⟨fun hab => ?_, fun hmatch => .container ha hb hmatch.1 hmatch.2⟩
  rcases hab.container_inv ha with rfl | ⟨g', hb', hslots, helems⟩
  · exact absurd rfl hne
  · rw [hb] at hb'
    cases hb'
    exact ⟨hslots, helems⟩

/-- What `isequal` says of values that the first lines of `isoequal` do not relate. -/
theorem not_isequal (hplain : ∀ o o', h.look a = some (.plain o) → h.look b ≠ some (.plain o'))
    (hid : ¬ identical a b = true) (hnil : ¬ (isNil a = true ∧ isNil b = true)) :
    ¬ h.isequal a b = true := by
  rw [isequal_iff]
  rintro (⟨rfl, hbox⟩ | hn | ⟨o, o', ha, hb, -⟩)
  · exact hid (identical_iff.mpr ⟨rfl, hbox⟩)
  · exact hnil hn
  · exact hplain o o' ha hb

theorem Nested.tail (hn : Nested h (k + 1) a) (ha : h.container a = none) : Tail h k a := by
  rw [Tail]
  split
  · exact hn
  · rename_i hcell
    exact .atom (by simpa using hcell) ha

end Objects

section Calls

variable {h : Heap} {k : ℕ} {eq : Ptr → Ptr → Bool} {a b : Ptr} {o o' : Object}

theorem Heap.sound_look (ha : h.look a = some o) : o.Sound := by
  cases a with
  | ref i => exact h.sound i o ha
  | boxed bits =>
    cases ha
    exact trivial
  | _ => cases ha

theorem container_of_look (ha : h.look a = some o) : h.container a = o.container := by
  rw [Heap.container, ha, Option.bind_some]

theorem cell_of_not_pair (ha : ∀ x xs, h.look a ≠ some (.pair x xs)) : h.cell a = none := by
  cases hcell : h.cell a with
  | none => rfl
  | some p => exact absurd (look_of_cell hcell).1 (ha p.1 p.2)

theorem ne_of_container {kf : Kind × (Slot → Option Ptr)} (hid : ¬ identical a b = true)
    (ha : h.container a = some kf) : a ≠ b := by
  rintro rfl
  refine hid (identical_iff.mpr ⟨rfl, ?_⟩)
  rintro bits rfl
  cases ha

/-- The call is right about the elements of two containers. -/
theorem Right.elements (hright : Right h k eq) (ha : Nested h (k + 1) a) (hb : Nested h (k + 1) b)
    {kind : Kind} {f g : Slot → Option Ptr} (hca : h.container a = some (kind, f))
    (hcb : h.container b = some (kind, g)) (s s' : Slot) (x y : Ptr) (hx : f s = some x)
    (hy : g s' = some y) : eq x y = true ↔ Structural h x y := by
  obtain ⟨k₁, hk₁, hf⟩ := ha.of_container hca
  obtain ⟨k₂, hk₂, hg⟩ := hb.of_container hcb
  obtain rfl := Nat.succ.inj hk₁
  obtain rfl := Nat.succ.inj hk₂
  exact hright.nested x y (hf s x hx) (hg s' y hy)

/-- Vectors, and deques. -/
theorem Right.list (hright : Right h k eq) (ha : Nested h (k + 1) a) (hb : Nested h (k + 1) b)
    (hid : ¬ identical a b = true) {kind : Kind} {xs ys : List Ptr}
    (hca : h.container a = some (kind, listSlots xs))
    (hcb : h.container b = some (kind, listSlots ys)) :
    xs.isEqv ys eq = true ↔ Structural h a b := by
  rw [structural_container (ne_of_container hid hca) hca hcb, match_list]
  refine isEqv_iff fun x hx y hy => ?_
  obtain ⟨i, hi⟩ := List.mem_iff_getElem?.mp hx
  obtain ⟨j, hj⟩ := List.mem_iff_getElem?.mp hy
  exact hright.elements ha hb hca hcb (.index i) (.index j) x y hi hj

/-- What leads to no object is related to what `isequal` says. -/
theorem not_structural_of_look (ha : h.look a = none) (hid : ¬ identical a b = true)
    (hnil : ¬ (isNil a = true ∧ isNil b = true)) : ¬ Structural h a b := by
  have hcell : h.cell a = none := cell_of_not_pair (by simp [ha])
  rw [structural_of_kinds (.inl hcell) (by simp [Heap.container, ha])]
  exact not_isequal (by simp [ha]) hid hnil

/-- **One call compares two objects structurally** when the nested calls do. -/
theorem isoObjects_iff (hno : NoNilCell h) (hkeys : KeysFound h) (hright : Right h k eq)
    (hid : ¬ identical a b = true) (hla : h.look a = some o) (hlb : h.look b = some o')
    (ha : Nested h (k + 1) a) (hb : Nested h (k + 1) b) :
    h.isoObjects eq a b = true ↔ Structural h a b := by
  have hca := container_of_look hla
  have hcb := container_of_look hlb
  have hsa := Heap.sound_look hla
  have hsb := Heap.sound_look hlb
  -- atoms, and objects of two kinds
  have hother : (∀ x xs, o ≠ .pair x xs) ∨ (∀ x xs, o' ≠ .pair x xs) →
      (∀ kind f g, o.container = some (kind, f) → o'.container ≠ some (kind, g)) →
      (h.isequal a b = true ↔ Structural h a b) := by
    intro hpair hkind
    refine (structural_of_kinds (hpair.imp ?_ ?_) ?_).symm
    · exact fun hp => cell_of_not_pair fun x xs hx => hp x xs (Option.some.inj (hla.symm.trans hx))
    · exact fun hp => cell_of_not_pair fun x xs hx => hp x xs (Option.some.inj (hlb.symm.trans hx))
    · rwa [hca, hcb]
  rw [Heap.isoObjects, hla, hlb]
  cases o with
  | plain _ => exact hother (.inl (by rintro x xs ⟨⟩)) (by rintro kind f g ⟨⟩)
  | pair x xs =>
    cases o' with
    | pair y ys => exact isoPairs_iff hright hno le_rfl (ha.tail hca) (hb.tail hcb)
    | _ => exact hother (.inr (by rintro x xs ⟨⟩)) (by rintro kind f g ⟨⟩)
  | vector _ | vectorI64 _ | vectorF64 _ =>
    cases o' with
    | vector _ | vectorI64 _ | vectorF64 _ => exact hright.list ha hb hid hca hcb
    | _ => exact hother (.inl (by rintro x xs ⟨⟩)) (by rintro kind f g ⟨⟩ ⟨⟩)
  | deque xs =>
    cases o' with
    | deque ys => exact hright.list ha hb hid hca hcb
    | _ => exact hother (.inl (by rintro x xs ⟨⟩)) (by rintro kind f g ⟨⟩ ⟨⟩)
  | dict d =>
    cases o' with
    | dict d' =>
      rw [structural_container (ne_of_container hid hca) hca hcb]
      exact dict_iff hsa hsb fun k x k' y => hright.elements ha hb hca hcb (.name k) (.name k') x y
    | _ => exact hother (.inl (by rintro x xs ⟨⟩)) (by rintro kind f g ⟨⟩ ⟨⟩)
  | set d =>
    cases o' with
    | set d' =>
      rw [structural_container (ne_of_container hid hca) hca hcb]
      exact set_iff hsa hsb (.refl (by rintro _ ⟨⟩))
    | _ => exact hother (.inl (by rintro x xs ⟨⟩)) (by rintro kind f g ⟨⟩ ⟨⟩)
  | hamt m =>
    cases o' with
    | hamt m' =>
      have hne := ne_of_container hid hca
      have hstruct : Structural h a b ↔ Match (Structural h) (hamtSlots m) (hamtSlots m') :=
        structural_container hne hca hcb
      rw [hstruct]
      refine (hamt_iff hsa hsb fun k x k' y =>
        hright.elements ha hb hca hcb (.key k) (.key k') x y).trans (and_iff_left_of_imp ?_)
      exact fun hmatch => hkeys a b m m' hla hlb hne (hstruct.mpr hmatch)
    | _ => exact hother (.inl (by rintro x xs ⟨⟩)) (by rintro kind f g ⟨⟩ ⟨⟩)

/-- Atoms are compared by `isequal`. -/
theorem isoObjects_atom (ha : Nested h 0 a) (hb : Nested h 0 b)
    (hnil : ¬ (isNil a = true ∧ isNil b = true)) (hla : h.look a = some o)
    (hlb : h.look b = some o') : h.isoObjects eq a b = true ↔ Structural h a b := by
  -- an atom that is a pair is nil
  have hatom : ∀ {p : Ptr} {o : Object}, Nested h 0 p → h.look p = some o →
      h.cell p = none ∧ h.container p = none ∧ ((∃ q, o = .plain q) ∨ isNil p = true) := by
    intro p o hp hl
    obtain ⟨hcell, hcont⟩ : h.cell p = none ∧ h.container p = none := by
      cases hp with
      | atom hcell hcont => exact ⟨hcell, hcont⟩
    refine ⟨hcell, hcont, ?_⟩
    rw [container_of_look hl] at hcont
    cases o with
    | plain q => exact .inl ⟨q, rfl⟩
    | pair x xs =>
      refine .inr ?_
      by_contra hp
      rw [cell_of_look hl (by simpa using hp)] at hcell
      cases hcell
    | _ => cases hcont
  obtain ⟨hcell, hcont, hka⟩ := hatom ha hla
  obtain ⟨-, -, hkb⟩ := hatom hb hlb
  rw [structural_of_kinds (.inl hcell) (by simp [hcont]), Heap.isoObjects, hla, hlb]
  rcases hka with ⟨q, rfl⟩ | hna
  · rfl
  · rcases hkb with ⟨q, rfl⟩ | hnb
    · cases o <;> rfl
    · exact absurd ⟨hna, hnb⟩ hnil

/-- **`isoequal` is structural equality of values that are nested less deep than it may go**, where
the condition holds. -/
theorem isoequal_iff (hno : NoNilCell h) (hkeys : KeysFound h) {n room : ℕ} (hroom : n < room)
    (ha : Nested h n a) (hb : Nested h n b) : h.isoequal room a b = true ↔ Structural h a b := by
  induction room generalizing n a b with
  | zero => exact absurd hroom (Nat.not_lt_zero n)
  | succ room ih =>
    rw [isoequal_succ]
    by_cases hid : identical a b = true
    · obtain ⟨rfl, hbox⟩ := identical_iff.mp hid
      exact iff_of_true (.inl hid) (.refl hbox)
    by_cases hnil : isNil a = true ∧ isNil b = true
    · exact iff_of_true (.inr (.inl hnil)) (structural_of_isNil hnil.1 hnil.2)
    rw [or_iff_right hid, or_iff_right hnil]
    cases hla : h.look a with
    | none =>
      have hobj : h.isoObjects (h.isoequal room) a b = false := by rw [Heap.isoObjects, hla]
      rw [hobj]
      exact iff_of_false Bool.false_ne_true (not_structural_of_look hla hid hnil)
    | some o =>
      cases hlb : h.look b with
      | none =>
        have hobj : h.isoObjects (h.isoequal room) a b = false := by
          rw [Heap.isoObjects, hla, hlb]
          cases o <;> rfl
        rw [hobj]
        refine iff_of_false Bool.false_ne_true fun hab => ?_
        refine not_structural_of_look hlb ?_ (fun hn => hnil hn.symm) hab.symm
        rw [identical_iff]
        rintro ⟨rfl, hbox⟩
        exact hid (identical_iff.mpr ⟨rfl, hbox⟩)
      | some o' =>
        cases n with
        | zero => exact isoObjects_atom ha hb hnil hla hlb
        | succ k =>
          have hright : Right h k (h.isoequal room) :=
            { nested := fun x y hx hy => ih (Nat.lt_of_succ_lt_succ hroom) hx hy
              pair := fun _ _ => isoequal_of_pair
              nullLeft := fun _ => isoequal_null_left
              nullRight := fun _ => isoequal_null_right }
          exact isoObjects_iff hno hkeys hright hid hla hlb ha hb

end Calls

/-! ## When `iso` is structural equality -/

/-- What `iso` is to be on the values of a heap. -/
structure IsoIsStructural (h : Heap) : Prop where
  /-- it coincides with structural equality -/
  coincides : ∀ a b, h.isoequal Heap.isoMaxDepth a b = true ↔ Structural h a b
  refl : ∀ a, (∀ bits, a ≠ .boxed bits) → h.isoequal Heap.isoMaxDepth a a = true
  symm : ∀ a b, h.isoequal Heap.isoMaxDepth a b = true → h.isoequal Heap.isoMaxDepth b a = true
  trans : ∀ a b c, h.isoequal Heap.isoMaxDepth a b = true →
    h.isoequal Heap.isoMaxDepth b c = true → h.isoequal Heap.isoMaxDepth a c = true
  of_isequal : ∀ a b, h.isequal a b = true → h.isoequal Heap.isoMaxDepth a b = true
  /-- lists with different numbers of elements are not `iso` -/
  length : ∀ a b m n, HasLength h a m → HasLength h b n →
    h.isoequal Heap.isoMaxDepth a b = true → m = n

section Iso

variable {h : Heap} {n : ℕ}

theorem IsoIsStructural.of_coincides
    (hiff : ∀ a b, h.isoequal Heap.isoMaxDepth a b = true ↔ Structural h a b) :
    IsoIsStructural h where
  coincides := hiff
  refl a ha := (hiff a a).mpr (.refl ha)
  symm a b hab := (hiff b a).mpr ((hiff a b).mp hab).symm
  trans a b c hab hbc := (hiff a c).mpr (((hiff a b).mp hab).trans ((hiff b c).mp hbc))
  of_isequal a b hab := (hiff a b).mpr (.equal hab)
  length a b _ _ hm hn hab := ((hiff a b).mp hab).length hm hn

/-- A list that ends with a cell that holds nil is `iso` to the empty one. -/
theorem isoequal_nilCell {p x xs : Ptr} (room : ℕ) (hp : h.cell p = some (x, xs))
    (hx : isNil x = true) (hxs : isNil xs = true) : h.isoequal (room + 1) p (.ref 0) = true := by
  refine isoequal_succ.mpr (.inr (.inr ?_))
  have hnil : h.look (.ref 0) = some (.pair .null .null) := h.nilAt
  have hnilPair : h.pairOf (.ref 0) = some (.null, .null) := by rw [Heap.pairOf, hnil]
  obtain ⟨f, hf⟩ : ∃ f, p.rank = f + 1 :=
    Nat.exists_eq_succ_of_ne_zero (Nat.ne_zero_of_lt (rank_of_cell hp).1)
  have hend : ∀ f, h.isoPairs (h.isoequal room) f xs .null = true := by
    intro f
    have hnull : h.isoequal room xs .null = true := isoequal_null_right.mpr hxs
    cases f with
    | zero => exact hnull
    | succ f =>
      rw [Heap.isoPairs]
      split
      · rename_i hp
        cases hp
      · exact hnull
  rw [Heap.isoObjects, (look_of_cell hp).1, hnil]
  show h.isoPairs (h.isoequal room) p.rank p (.ref 0) = true
  rw [hf, Heap.isoPairs, pairOf_of_cell hp, hnilPair]
  exact Bool.and_eq_true_iff.mpr ⟨isoequal_null_right.mpr hx, hend f⟩

end Iso

/-! ## Heaps with and without such values -/

/-- A map with one entry. -/
def single (key : Hamt.Key) (val : Ptr) : Hamt.Map Ptr :=
  (Hamt.Map.step hamtHashkey .empty (.assoc key val)).getD .empty

theorem inv_single {key : Hamt.Key} (val : Ptr) (hkey : key ≠ .null) :
    (single key val).Inv hamtHashkey := by
  have hag : Hamt.Agrees hamtHashkey (Hamt.Map.empty : Hamt.Map Ptr).entries key := by rintro e ⟨⟩
  obtain ⟨m, -, hm, hinv, -⟩ : ∃ m added,
      Hamt.Map.step hamtHashkey .empty (.assoc key val) = some m ∧ m.Inv hamtHashkey ∧
        Hamt.Assoc key val [] m.entries added := Hamt.inv_empty.assoc hkey hag
  rw [single, hm]
  exact hinv

/-- `nil`, `(list 1)`, and `(list x x)` where `x` is that list. -/
def lists : Heap where
  objs := [.pair .null .null, .pair (.fix 1) .null, .pair (.ref 1) .null, .pair (.ref 1) (.ref 2)]
  older := by
    rintro (_ | _ | _ | _ | i) o ho p hp <;> cases ho <;> simp [Object.parts] at hp <;>
      rcases hp with rfl | rfl <;> simp [Ptr.Before]
  sound := by rintro (_ | _ | _ | _ | i) o ho <;> cases ho <;> trivial
  nilAt := rfl

theorem nested_lists (p : Ptr) : Nested lists 2 p := by
  have h1 : lists.cell (.ref 1) = some (.fix 1, .null) := rfl
  have h2 : lists.cell (.ref 2) = some (.ref 1, .null) := rfl
  have h3 : lists.cell (.ref 3) = some (.ref 1, .ref 2) := rfl
  have hone : ∀ n, Nested lists (n + 1) (.ref 1) := fun n =>
    .last h1 (.atom rfl rfl) rfl (.atom rfl rfl)
  have htwo : Nested lists 2 (.ref 2) := .last h2 (hone 0) rfl (.atom rfl rfl)
  match p with
  | .ref 1 => exact hone 1
  | .ref 2 => exact htwo
  | .ref 3 => exact .more h3 (hone 0) rfl htwo
  | .ref 0 | .ref (_ + 4) | .null | .fix _ | .char _ | .type _ | .boxed _ => exact .atom rfl rfl

/-- `nil`, `(list nil)`, `(hamt 1/2 1)` twice, and twice a map with a value `NULL`. -/
def differing : Heap where
  objs := [.pair .null .null, .pair (.ref 0) .null,
    .hamt (single (Hamt.half 4096) (.fix 1)), .hamt (single (Hamt.half 4352) (.fix 1)),
    .hamt (single (.fix 1) .null), .hamt (single (.fix 1) .null)]
  older := by
    have hval : ∀ {p q : Ptr} {i : ℕ}, p ∈ [q] → q.Before i → p.Before i := by
      intro p q i hp hq
      rwa [List.mem_singleton.mp hp]
    rintro (_ | _ | _ | _ | _ | _ | i) o ho p hp <;> cases ho
    · simp [Object.parts] at hp
      exact hp ▸ trivial
    · simp [Object.parts] at hp
      rcases hp with rfl | rfl
      · exact Nat.one_pos
      · trivial
    · exact hval (q := .fix 1) hp trivial
    · exact hval (q := .fix 1) hp trivial
    · exact hval (q := .null) hp trivial
    · exact hval (q := .null) hp trivial
  sound := by
    rintro (_ | _ | _ | _ | _ | _ | i) o ho <;> cases ho
    · trivial
    · trivial
    all_goals exact inv_single _ (by decide)
  nilAt := rfl

/-- Maps with one entry are structurally equal when their keys are equal. -/
theorem structural_singles {h : Heap} {a b v : Ptr} {k k' : Hamt.Key}
    (hk : Hamt.isequal k k' = true) (ha : h.look a = some (.hamt (single k v)))
    (hb : h.look b = some (.hamt (single k' v))) (hkv : (single k v).entries = [(k, v)])
    (hkv' : (single k' v).entries = [(k', v)]) (hv : ∀ bits, v ≠ .boxed bits) :
    Structural h a b := by
  have hsame : hamtSlots (single k v) = hamtSlots (single k' v) := by
    funext s
    cases s with
    | key key =>
      simp only [hamtSlots, hkv, hkv', List.find?_singleton, Hamt.isequal_congr hk]
      split <;> rfl
    | _ => rfl
  have hca : h.container a = some (.hamt, hamtSlots (single k v)) := container_of_look ha
  have hcb : h.container b = some (.hamt, hamtSlots (single k' v)) := container_of_look hb
  refine .container hca hcb (fun s => by rw [hsame]) fun s x y hx hy => ?_
  obtain rfl : x = y := by rw [hsame, hy] at hx; exact (Option.some.inj hx).symm
  refine .refl ?_
  cases s with
  | key key =>
    simp only [hamtSlots, hkv, List.find?_singleton] at hx
    split at hx <;> cases hx
    exact hv
  | _ => cases hx

end Alcove.Equality
