import Alcove.Vector.Cells
import Mathlib.Algebra.Order.BigOperators.Group.List

/-!
# The elements of a vector

What the words of a window stand for, and who owns the references in them. `Inv h v ext s` says that `v` holds
the elements of `s`, and that each object has as many references as there are boxed cells in the window with
it, and `ext` more elsewhere.

* `promoteToGen_spec`, `roomBack_spec`, `roomFront_spec`: the elements stay.
* `setBoxed_inside`, `setBoxed_behind`: an element is stored, the kind may change.
-/

namespace Alcove.Vector

variable {D : Type}

/-! ## Items -/

/-- A value without the address of a float. -/
inductive Item (D : Type)
  | fix (n : Fixnum)
  | const (c : Const)
  | float (x : D)
  | other (r : ℕ)

/-- The value, by its contents. -/
def Heap.view (h : Heap D) : Value → Item D
  | .fix n => .fix n
  | .const c => .const c
  | .ref r =>
    match h.obj r with
    | .float x => .float x
    | .other => .other r

/-- The references to `r` that a value takes. -/
def Value.refs (r : ℕ) : Value → ℕ
  | .ref r' => if r' = r then 1 else 0
  | _ => 0

namespace Heap

/-- Objects are made, and those that are there stay. -/
structure Grows (h h' : Heap D) : Prop where
  next_le : h.next ≤ h'.next
  obj : ∀ r < h.next, h'.obj r = h.obj r

/-- What was never made has no reference. -/
def Fresh (h : Heap D) : Prop := ∀ r, h.next ≤ r → h.nref r = 0

variable {h h' h'' : Heap D}

theorem Grows.refl (h : Heap D) : Grows h h := ⟨le_rfl, fun _ _ => rfl⟩

theorem Grows.trans (h₁ : Grows h h') (h₂ : Grows h' h'') : Grows h h'' :=
  ⟨h₁.next_le.trans h₂.next_le, fun r hr => (h₂.obj r (hr.trans_le h₁.next_le)).trans (h₁.obj r hr)⟩

theorem Grows.view (hg : Grows h h') {e : Value} (he : ∀ r, e.refs r ≠ 0 → r < h.next) :
    h'.view e = h.view e := by
  cases e with
  | fix | const => rfl
  | ref r => rw [Heap.view, Heap.view, hg.obj r (he r (by simp [Value.refs]))]

@[simp]
theorem refexp_next (h : Heap D) (e : Value) : (h.refexp e).next = h.next := by cases e <;> rfl

@[simp]
theorem unrefexp_next (h : Heap D) (e : Value) : (h.unrefexp e).next = h.next := by cases e <;> rfl

@[simp]
theorem refexp_obj (h : Heap D) (e : Value) : (h.refexp e).obj = h.obj := by cases e <;> rfl

@[simp]
theorem unrefexp_obj (h : Heap D) (e : Value) : (h.unrefexp e).obj = h.obj := by cases e <;> rfl

theorem refexp_nref (h : Heap D) (e : Value) (r : ℕ) : (h.refexp e).nref r = h.nref r + e.refs r := by
  cases e with
  | fix | const => rfl
  | ref r' =>
    rw [refexp, Value.refs]
    split_ifs with heq
    · rw [heq]
      exact Function.update_self _ _ _
    · exact Function.update_of_ne (Ne.symm heq) _ _

theorem unrefexp_nref (h : Heap D) (e : Value) (r : ℕ) : (h.unrefexp e).nref r = h.nref r - e.refs r := by
  cases e with
  | fix | const => rfl
  | ref r' =>
    rw [unrefexp, Value.refs]
    split_ifs with heq
    · rw [heq]
      exact Function.update_self _ _ _
    · exact Function.update_of_ne (Ne.symm heq) _ _

theorem grows_refexp (h : Heap D) (e : Value) : Grows h (h.refexp e) :=
  ⟨(h.refexp_next e).ge, fun _ _ => by rw [refexp_obj]⟩

theorem grows_unrefexp (h : Heap D) (e : Value) : Grows h (h.unrefexp e) :=
  ⟨(h.unrefexp_next e).ge, fun _ _ => by rw [unrefexp_obj]⟩

theorem Fresh.refexp (hf : h.Fresh) {e : Value} (he : ∀ r, e.refs r ≠ 0 → r < h.next) : (h.refexp e).Fresh := by
  intro r hr
  rw [refexp_next] at hr
  have hzero : e.refs r = 0 := by
    by_contra hne
    exact absurd (he r hne) (by omega)
  rw [refexp_nref, hf r hr, hzero]

theorem Fresh.unrefexp (hf : h.Fresh) (e : Value) : (h.unrefexp e).Fresh := by
  intro r hr
  rw [unrefexp_next] at hr
  rw [unrefexp_nref, hf r hr, Nat.zero_sub]

theorem Fresh.lt_next (hf : h.Fresh) {r : ℕ} (hr : h.nref r ≠ 0) : r < h.next := by
  by_contra hle
  exact hr (hf r (not_lt.mp hle))

/-! ## Boxes -/

/-- `(e, h')` is a value with the contents `x` and a reference of its own. -/
structure Owned (h : Heap D) (x : Item D) (e : Value) (h' : Heap D) : Prop where
  view : h'.view e = x
  grows : Grows h h'
  fresh : h'.Fresh
  nref : ∀ r, h'.nref r = h.nref r + e.refs r

theorem owned_makeFloat (hf : h.Fresh) (x : D) : Owned h (.float x) (h.makeFloat x).1 (h.makeFloat x).2 where
  view := by simp [Heap.view, makeFloat]
  grows := ⟨Nat.le_succ _, fun r hr => Function.update_of_ne (Nat.ne_of_lt hr) _ _⟩
  fresh := fun r hr => by
    have hlt : h.next < r := hr
    exact (Function.update_of_ne (Nat.ne_of_gt hlt) _ _).trans (hf r hlt.le)
  nref := fun r => by
    show Function.update h.nref h.next 1 r = h.nref r + if h.next = r then 1 else 0
    split_ifs with heq
    · subst heq
      rw [Function.update_self, hf _ le_rfl]
    · rw [Function.update_of_ne (Ne.symm heq), Nat.add_zero]

theorem Owned.lt_next {x : Item D} {e : Value} (ho : Owned h x e h') (r : ℕ) (hr : e.refs r ≠ 0) :
    r < h'.next := by
  refine ho.fresh.lt_next ?_
  rw [ho.nref r]
  omega

end Heap

/-! ## References -/

/-- The references to `r` that a word takes. -/
def Word.refs (r : ℕ) : Word D → ℕ
  | .box e => e.refs r
  | _ => 0

/-- The references to `r` that words take. -/
def refsAll (r : ℕ) (ws : List (Word D)) : ℕ := (ws.map (Word.refs r)).sum

@[simp]
theorem refsAll_nil (r : ℕ) : refsAll r ([] : List (Word D)) = 0 := rfl

@[simp]
theorem refsAll_cons (r : ℕ) (w : Word D) (ws : List (Word D)) :
    refsAll r (w :: ws) = w.refs r + refsAll r ws := by simp [refsAll]

@[simp]
theorem refsAll_append (r : ℕ) (ws ws' : List (Word D)) :
    refsAll r (ws ++ ws') = refsAll r ws + refsAll r ws' := by simp [refsAll]

theorem refsAll_set (r : ℕ) {ws : List (Word D)} {i : ℕ} {w : Word D} (hi : ws[i]? = some w) (w' : Word D) :
    refsAll r (ws.set i w') + w.refs r = refsAll r ws + w'.refs r := by
  induction ws generalizing i with
  | nil => cases hi
  | cons w₀ ws ih =>
    cases i with
    | zero =>
      obtain rfl := Option.some.inj hi
      simp only [List.set_cons_zero, refsAll_cons]
      omega
    | succ i =>
      have := ih (i := i) hi
      simp only [List.set_cons_succ, refsAll_cons]
      omega

theorem refs_le_refsAll {r : ℕ} {w : Word D} {ws : List (Word D)} (hw : w ∈ ws) : w.refs r ≤ refsAll r ws :=
  List.le_sum_of_mem (List.mem_map_of_mem hw)

variable [Doubles D]

/-- What a word stands for in a vector of the kind. -/
def Word.item (h : Heap D) : Kind → Word D → Option (Item D)
  | .gen, w => w.asBox.map h.view
  | .i64, w => w.asInt.map fun n => if fixFits n then .fix (makeFix n) else .float (Doubles.ofInt n)
  | .f64, w => w.asDouble.map .float

theorem Heap.owned_box {h : Heap D} (hf : h.Fresh) {kind : Kind} {w : Word D} {x : Item D}
    (hw : w.item h kind = some x) (hrefs : ∀ r, w.refs r ≠ 0 → r < h.next) :
    ∃ e h', h.box kind w = some (e, h') ∧ Owned h x e h' ∧ (kind = .gen → ∀ r, e.refs r = w.refs r) := by
  cases kind with
  | gen =>
    obtain ⟨e, he, rfl⟩ := Option.map_eq_some_iff.mp hw
    have hwe : ∀ r, e.refs r = w.refs r := by
      cases w with
      | zero => obtain rfl := Option.some.inj he; exact fun _ => rfl
      | box e' => obtain rfl := Option.some.inj he; exact fun _ => rfl
      | int | double => cases he
    have halloc : ∀ r, e.refs r ≠ 0 → r < h.next := fun r hr => hrefs r (hwe r ▸ hr)
    refine ⟨e, h.refexp e, by rw [box, he]; rfl, ⟨?_, h.grows_refexp e, hf.refexp halloc, h.refexp_nref e⟩,
      fun _ => hwe⟩
    exact (h.grows_refexp e).view halloc
  | i64 =>
    obtain ⟨n, hn, rfl⟩ := Option.map_eq_some_iff.mp hw
    refine ⟨(h.ofInt n).1, (h.ofInt n).2, by rw [box, hn]; rfl, ?_, nofun⟩
    unfold Heap.ofInt
    split_ifs with hfits
    · exact ⟨rfl, .refl h, hf, fun _ => rfl⟩
    · exact owned_makeFloat hf _
  | f64 =>
    obtain ⟨d, hd, rfl⟩ := Option.map_eq_some_iff.mp hw
    exact ⟨_, _, by rw [box, hd]; rfl, owned_makeFloat hf d, nofun⟩

/-! ## Words and their boxes -/

/-- The words hold the items, and what they refer to is there. -/
structure Holds (h : Heap D) (kind : Kind) (ws : List (Word D)) (xs : List (Item D)) : Prop where
  items : ws.map (Word.item h kind) = xs.map some
  refs : ∀ r, refsAll r ws ≠ 0 → r < h.next

namespace Holds

variable {h h' : Heap D} {kind : Kind} {ws : List (Word D)} {xs : List (Item D)}

theorem length (hw : Holds h kind ws xs) : ws.length = xs.length := by
  simpa using congrArg List.length hw.items

theorem item_grows (hg : h.Grows h') {w : Word D} (hrefs : ∀ r, w.refs r ≠ 0 → r < h.next) :
    w.item h' kind = w.item h kind := by
  cases kind with
  | i64 | f64 => rfl
  | gen =>
    cases w with
    | zero => rfl
    | int | double => rfl
    | box e => exact congrArg some (hg.view hrefs)

theorem grows (hw : Holds h kind ws xs) (hg : h.Grows h') : Holds h' kind ws xs where
  items := by
    rw [← hw.items]
    refine List.map_congr_left fun w hmem => item_grows hg fun r hr => hw.refs r ?_
    have := refs_le_refsAll (r := r) hmem
    omega
  refs := fun r hr => (hw.refs r hr).trans_le hg.next_le

theorem cons {w : Word D} {x : Item D} :
    Holds h kind (w :: ws) (x :: xs) ↔
      (w.item h kind = some x ∧ ∀ r, w.refs r ≠ 0 → r < h.next) ∧ Holds h kind ws xs := by
  constructor
  · intro ⟨hitems, hrefs⟩
    rw [List.map_cons, List.map_cons, List.cons_eq_cons] at hitems
    simp only [refsAll_cons] at hrefs
    exact ⟨⟨hitems.1, fun r hr => hrefs r (by omega)⟩, hitems.2, fun r hr => hrefs r (by omega)⟩
  · intro ⟨⟨hw, hr⟩, hitems, hrefs⟩
    refine ⟨by rw [List.map_cons, List.map_cons, hw, hitems], fun r hne => ?_⟩
    rw [refsAll_cons] at hne
    by_cases hzero : w.refs r = 0
    · exact hrefs r (by omega)
    · exact hr r hzero

theorem append {ws' : List (Word D)} {xs' : List (Item D)} (hw : Holds h kind ws xs)
    (hw' : Holds h kind ws' xs') : Holds h kind (ws ++ ws') (xs ++ xs') := by
  refine ⟨by rw [List.map_append, List.map_append, hw.items, hw'.items], fun r hne => ?_⟩
  rw [refsAll_append] at hne
  by_cases hzero : refsAll r ws = 0
  · exact hw'.refs r (by omega)
  · exact hw.refs r hzero

theorem of_append {ws' : List (Word D)} {xs' : List (Item D)} (hlen : ws.length = xs.length)
    (hw : Holds h kind (ws ++ ws') (xs ++ xs')) : Holds h kind ws xs ∧ Holds h kind ws' xs' := by
  obtain ⟨hitems, hrefs⟩ := hw
  rw [List.map_append, List.map_append] at hitems
  obtain ⟨h1, h2⟩ := List.append_inj hitems (by simpa using hlen)
  simp only [refsAll_append] at hrefs
  exact ⟨⟨h1, fun r hr => hrefs r (by omega)⟩, h2, fun r hr => hrefs r (by omega)⟩

theorem getElem? (hw : Holds h kind ws xs) {i : ℕ} {x : Item D} (hi : xs[i]? = some x) :
    ∃ w, ws[i]? = some w ∧ w.item h kind = some x ∧ ∀ r, w.refs r ≠ 0 → r < h.next := by
  have hlt : i < ws.length := hw.length ▸ (List.getElem?_eq_some_iff.mp hi).1
  have hitem := congrArg (·[i]?) hw.items
  simp only [List.getElem?_map, hi, List.getElem?_eq_getElem hlt, Option.map_some] at hitem
  refine ⟨ws[i], List.getElem?_eq_getElem hlt, Option.some.inj hitem, fun r hr => hw.refs r ?_⟩
  have := refs_le_refsAll (r := r) (List.getElem_mem hlt)
  omega

end Holds

/-- The words that `vec_promote_to_gen` makes. -/
theorem Heap.boxAll_spec {h : Heap D} (hf : h.Fresh) {kind : Kind} {ws : List (Word D)}
    {xs : List (Item D)} (hw : Holds h kind ws xs) :
    ∃ bs h', h.boxAll kind ws = some (bs, h') ∧ Holds h' .gen bs xs ∧ h.Grows h' ∧ h'.Fresh ∧
      bs.length = ws.length ∧ ∀ r, h'.nref r = h.nref r + refsAll r bs := by
  induction ws generalizing h xs with
  | nil =>
    have hxs : xs = [] := List.length_eq_zero_iff.mp hw.length.symm
    subst hxs
    exact ⟨[], h, rfl, ⟨rfl, fun r hr => absurd rfl hr⟩, .refl h, hf, rfl, fun _ => rfl⟩
  | cons w ws ih =>
    obtain _ | ⟨x, xs⟩ := xs
    · exact absurd hw.length (by simp)
    obtain ⟨⟨hwx, hrefs⟩, hrest⟩ := Holds.cons.mp hw
    obtain ⟨e, h₁, hbox, howned, -⟩ := owned_box hf hwx hrefs
    obtain ⟨bs, h₂, hall, hbs, hgrows, hfresh, hlength, hnref⟩ := ih howned.fresh (hrest.grows howned.grows)
    refine ⟨.box e :: bs, h₂, ?_, Holds.cons.mpr ⟨⟨?_, ?_⟩, hbs⟩, howned.grows.trans hgrows, hfresh, ?_, ?_⟩
    · simp [boxAll, hbox, hall]
    · rw [← howned.view, ← hgrows.view howned.lt_next]
      rfl
    · exact fun r hr => (howned.lt_next r hr).trans_le hgrows.next_le
    · rw [List.length_cons, List.length_cons, hlength]
    · intro r
      rw [hnref, howned.nref, refsAll_cons, Word.refs]
      omega

/-! ## Windows -/

namespace Vec

variable {v : Vec D}

omit [Doubles D] in
theorem window_length (hw : v.win.Ok) (hcap : v.cells.length = v.win.cap) : v.window.length = v.win.len := by
  obtain ⟨h1, h2, -⟩ := hw
  simp only [window, List.length_take, List.length_drop, Window.len]
  omega

omit [Doubles D] in
theorem window_getElem? {i : ℕ} (hi : i < v.win.len) : v.window[i]? = v.cells[v.win.start + i]? := by
  rw [window, List.getElem?_take_of_lt hi, List.getElem?_drop]

omit [Doubles D] in
theorem window_set (i : ℕ) (w : Word D) :
    ({ v with cells := v.cells.set (v.win.start + i) w } : Vec D).window = v.window.set i w := by
  simp only [window]
  rw [List.drop_set, if_neg (by omega), List.take_set, Nat.add_sub_cancel_left]

omit [Doubles D] in
theorem window_set_outside {off : ℕ} (hoff : v.win.start + v.win.len ≤ off ∨ off < v.win.start) (w : Word D) :
    ({ v with cells := v.cells.set off w } : Vec D).window = v.window := by
  simp only [window]
  rw [List.drop_set]
  split_ifs with hlt
  · rfl
  · rw [List.take_set_of_le (by omega)]

omit [Doubles D] in
/-- The word behind the window joins it. -/
theorem window_extendBack (hw : v.win.Ok) {w : Word D} (hcell : v.cells[v.win.stop]? = some w) :
    ({ v with win := v.win.extendBack } : Vec D).window = v.window ++ [w] := by
  obtain ⟨h1, h2, -⟩ := hw
  have hlen : v.win.extendBack.len = v.win.len + 1 := by
    simp only [Window.extendBack, Window.len]
    omega
  have hget : (v.cells.drop v.win.start)[v.win.len]? = some w := by
    rw [List.getElem?_drop, ← hcell, Window.len]
    congr 1
    omega
  simp only [window, hlen]
  rw [List.take_add_one, show v.win.extendBack.start = v.win.start from rfl, hget, Option.toList_some]

omit [Doubles D] in
/-- The word before the window joins it. -/
theorem window_extendFront (hw : v.win.Ok) (hstart : 0 < v.win.start) {w : Word D}
    (hcell : v.cells[v.win.start - 1]? = some w) :
    ({ v with win := v.win.extendFront } : Vec D).window = w :: v.window := by
  obtain ⟨h1, h2, -⟩ := hw
  have hlen : v.win.extendFront.len = v.win.len + 1 := by
    simp only [Window.extendFront, Window.len]
    omega
  obtain ⟨hlt, rfl⟩ := List.getElem?_eq_some_iff.mp hcell
  simp only [window, hlen]
  rw [show v.win.extendFront.start = v.win.start - 1 from rfl, List.drop_eq_getElem_cons hlt,
    Nat.sub_add_cancel hstart, List.take_succ_cons]

omit [Doubles D] in
theorem window_dropBack :
    ({ v with win := v.win.dropBack } : Vec D).window = v.window.take (v.win.len - 1) := by
  have hdrop : v.win.dropBack.len = v.win.len - 1 := by
    simp only [Window.dropBack, Window.len]
    omega
  simp only [window, hdrop, List.take_take]
  congr 1
  omega

omit [Doubles D] in
theorem window_dropFront :
    ({ v with win := v.win.dropFront } : Vec D).window = v.window.tail := by
  have hdrop : v.win.dropFront.len = v.win.len - 1 := by
    simp only [Window.dropFront, Window.len]
    omega
  simp only [window, hdrop]
  rw [show v.win.dropFront.start = v.win.start + 1 from rfl, ← List.drop_one, List.drop_take, List.drop_drop]

omit [Doubles D] in
theorem storage_length {cap start : ℕ} {ws : List (Word D)} (h : start + ws.length ≤ cap) :
    (storage cap start ws).length = cap := by
  simp only [storage, List.length_append, List.length_replicate]
  omega

omit [Doubles D] in
theorem storage_window (kind : Kind) (cap start : ℕ) (ws : List (Word D)) :
    (⟨kind, ⟨cap, start, start + ws.length⟩, storage cap start ws⟩ : Vec D).window = ws := by
  simp [window, storage, Window.len]

end Vec

/-! ## The invariant -/

/-- The elements of a vector, and its kind. -/
structure Seq (D : Type) where
  kind : Kind
  items : List (Item D)

/-- The word can be read in a vector of the kind. -/
def Word.Reads : Kind → Word D → Prop
  | _, .zero => True
  | .gen, .box _ => True
  | .i64, .int _ => True
  | .f64, .double _ => True
  | _, _ => False

/-- The vector holds the elements of `s`, and has its share of the references: `ext` are elsewhere. -/
structure Inv (h : Heap D) (v : Vec D) (ext : ℕ → ℕ) (s : Seq D) : Prop where
  kind : v.kind = s.kind
  win : v.win.Ok
  length : v.cells.length = v.win.cap
  reads : ∀ w ∈ v.cells, w.Reads v.kind
  holds : Holds h v.kind v.window s.items
  fresh : h.Fresh
  nref : ∀ r, h.nref r = ext r + refsAll r v.window

variable {h : Heap D} {v v' : Vec D} {ext : ℕ → ℕ} {s : Seq D}

omit [Doubles D] in
theorem Word.refs_of_reads {kind : Kind} {w : Word D} (hkind : kind ≠ .gen) (hw : w.Reads kind) (r : ℕ) :
    w.refs r = 0 := by
  cases w with
  | box e => cases kind <;> simp_all [Word.Reads]
  | _ => rfl

theorem Word.reads_of_item {kind : Kind} {w : Word D} {x : Item D} (hw : w.item h kind = some x) :
    w.Reads kind := by
  cases kind <;> cases w <;> trivial

theorem Word.item_of_reads {kind : Kind} {w : Word D} (hw : w.Reads kind) : ∃ x, w.item h kind = some x := by
  cases kind <;> cases w <;> first | exact ⟨_, rfl⟩ | cases hw

theorem Holds.reads {kind : Kind} {ws : List (Word D)} {xs : List (Item D)} (hw : Holds h kind ws xs) :
    ∀ w ∈ ws, w.Reads kind := by
  intro w hmem
  obtain ⟨i, hi, rfl⟩ := List.mem_iff_getElem.mp hmem
  have hlt : i < xs.length := hw.length ▸ hi
  obtain ⟨w, hget, hitem, -⟩ := hw.getElem? (List.getElem?_eq_getElem hlt)
  rw [List.getElem?_eq_getElem hi, Option.some_inj] at hget
  exact hget ▸ Word.reads_of_item hitem

omit [Doubles D] in
theorem Vec.storage_reads {kind : Kind} {cap start : ℕ} {ws : List (Word D)} (hw : ∀ w ∈ ws, w.Reads kind) :
    ∀ w ∈ storage cap start ws, w.Reads kind := by
  intro w hmem
  rw [storage, List.mem_append, List.mem_append] at hmem
  obtain (hmem | hmem) | hmem := hmem
  · rw [(List.mem_replicate.mp hmem).2]
    cases kind <;> trivial
  · exact hw w hmem
  · rw [(List.mem_replicate.mp hmem).2]
    cases kind <;> trivial

omit [Doubles D] in
theorem mem_window {w : Word D} (hw : w ∈ v.window) : w ∈ v.cells :=
  List.mem_of_mem_drop (List.mem_of_mem_take hw)

namespace Inv

theorem window_length (hv : Inv h v ext s) : v.window.length = v.win.len := Vec.window_length hv.win hv.length

theorem items_length (hv : Inv h v ext s) : s.items.length = v.win.len :=
  hv.holds.length.symm.trans hv.window_length

/-- A pointer with a reference elsewhere is to an object. -/
theorem lt_next (hv : Inv h v ext s) {r : ℕ} (hr : ext r ≠ 0) : r < h.next :=
  hv.fresh.lt_next (by rw [hv.nref r]; omega)

/-- A vector of fixnums or doubles has no references. -/
theorem refsAll_eq_zero (hv : Inv h v ext s) (hkind : v.kind ≠ .gen) (r : ℕ) : refsAll r v.window = 0 := by
  refine List.sum_eq_zero fun n hn => ?_
  obtain ⟨w, hw, rfl⟩ := List.mem_map.mp hn
  exact Word.refs_of_reads hkind (hv.reads w (mem_window hw)) r

/-- The elements are in other storage. -/
theorem moved (hv : Inv h v ext s) (hkind : v'.kind = v.kind) (hwin : v'.win.Ok)
    (hlength : v'.cells.length = v'.win.cap) (hreads : ∀ w ∈ v'.cells, w.Reads v.kind)
    (hwindow : v'.window = v.window) : Inv h v' ext s where
  kind := hkind.trans hv.kind
  win := hwin
  length := hlength
  reads := by rwa [hkind]
  holds := by rw [hwindow, hkind]; exact hv.holds
  fresh := hv.fresh
  nref := by rw [hwindow]; exact hv.nref

/-- A reference more elsewhere. -/
theorem refexp (hv : Inv h v ext s) {e : Value} (he : ∀ r, e.refs r ≠ 0 → r < h.next) :
    Inv (h.refexp e) v (fun r => ext r + e.refs r) s where
  kind := hv.kind
  win := hv.win
  length := hv.length
  reads := hv.reads
  holds := hv.holds.grows (h.grows_refexp e)
  fresh := hv.fresh.refexp he
  nref := fun r => by
    rw [h.refexp_nref, hv.nref]
    omega

/-- A reference less elsewhere. -/
theorem unrefexp {e : Value} (hv : Inv h v (fun r => ext r + e.refs r) s) : Inv (h.unrefexp e) v ext s where
  kind := hv.kind
  win := hv.win
  length := hv.length
  reads := hv.reads
  holds := hv.holds.grows (h.grows_unrefexp e)
  fresh := hv.fresh.unrefexp e
  nref := fun r => by
    rw [h.unrefexp_nref, hv.nref]
    omega

/-! ## Promotion -/

theorem promoteToGen (hv : Inv h v ext s) :
    ∃ h' v', v.promoteToGen h = some (h', v') ∧ Inv h' v' ext { s with kind := .gen } ∧ h.Grows h' ∧
      v'.kind = .gen ∧ v'.win = v.win ∧
      (v.kind = .gen → v' = v) ∧ (v.kind ≠ .gen → v.win.stop < v.win.cap → v'.cells[v.win.stop]? = some .zero) := by
  by_cases hkind : v.kind = .gen
  · refine ⟨h, v, if_pos hkind, ?_, .refl h, hkind, rfl, fun _ => rfl, fun hne => absurd hkind hne⟩
    exact { hv with kind := hkind }
  · obtain ⟨bs, h', hall, hbs, hgrows, hfresh, hlength, hnref⟩ := Heap.boxAll_spec hv.fresh hv.holds
    have hstop := hv.win.stop_le
    have hle : v.win.start + bs.length = v.win.stop := by
      rw [hlength, hv.window_length, Window.len]
      have := hv.win.start_le
      omega
    have hwindow : (⟨.gen, v.win, Vec.storage v.win.cap v.win.start bs⟩ : Vec D).window = bs := by
      have := Vec.storage_window .gen v.win.cap v.win.start bs
      rwa [hle] at this
    refine ⟨h', ⟨.gen, v.win, Vec.storage v.win.cap v.win.start bs⟩, ?_, ?_, hgrows, rfl, rfl,
      fun heq => absurd heq hkind, fun _ hroom => ?_⟩
    · rw [Vec.promoteToGen, if_neg hkind, if_neg (by rw [hv.length]; omega), hall]
      rfl
    · exact {
        kind := rfl
        win := hv.win
        length := Vec.storage_length (by omega)
        reads := Vec.storage_reads hbs.reads
        holds := by rw [hwindow]; exact hbs
        fresh := hfresh
        nref := fun r => by rw [hnref, hwindow, hv.nref, hv.refsAll_eq_zero hkind, Nat.add_zero] }
    · rw [Vec.storage, List.getElem?_append_right (by simp; omega), List.getElem?_replicate, if_pos]
      simp
      omega

/-! ## Growth -/

theorem slideLeft (hv : Inv h v ext s) (hstart : 0 < v.win.start) :
    v.slideLeft.win = v.win.slideLeft ∧ v.slideLeft.kind = v.kind ∧ Inv h v.slideLeft ext s := by
  obtain ⟨h1, h2, h3⟩ := hv.win
  have hlength : v.window.length = v.win.len := hv.window_length
  rw [Vec.slideLeft, if_neg hstart.ne']
  refine ⟨rfl, rfl, hv.moved rfl ⟨Nat.zero_le _, ?_, h3⟩ ?_ ?_ ?_⟩
  · simp only [Window.slideLeft, Window.len]
    omega
  · have := hv.length
    simp only [List.length_append, List.length_drop, hlength, Window.slideLeft, Window.len]
    omega
  · intro w hw
    rcases List.mem_append.mp hw with hw | hw
    · exact hv.reads w (mem_window hw)
    · exact hv.reads w (List.mem_of_mem_drop hw)
  · show ((v.window ++ v.cells.drop v.win.len).drop 0).take (v.win.len - 0) = v.window
    rw [List.drop_zero, Nat.sub_zero, ← hlength, List.take_left]

theorem realloc (hv : Inv h v ext s) {newCap frontPad : ℕ} (hcap : newCap < capLimit)
    (hlen : v.win.len + frontPad ≤ newCap) :
    ∃ v', v.realloc newCap frontPad = some v' ∧ v.win.realloc newCap frontPad = some v'.win ∧
      v'.kind = v.kind ∧ Inv h v' ext s := by
  have hlength : v.window.length = v.win.len := hv.window_length
  have hwin : v.win.realloc newCap frontPad = some ⟨newCap, frontPad, frontPad + v.win.len⟩ :=
    Window.realloc_eq_some.mpr ⟨hlen, rfl⟩
  refine ⟨⟨v.kind, ⟨newCap, frontPad, frontPad + v.win.len⟩, Vec.storage newCap frontPad v.window⟩,
    by rw [Vec.realloc, hwin]; rfl, hwin, rfl, hv.moved rfl ⟨Nat.le_add_right _ _, ?_, hcap⟩ ?_ ?_ ?_⟩
  · show frontPad + v.win.len ≤ newCap
    omega
  · exact Vec.storage_length (by rw [hlength]; omega)
  · exact Vec.storage_reads fun w hw => hv.reads w (mem_window hw)
  · have := Vec.storage_window v.kind newCap frontPad v.window
    rwa [hlength] at this

/-- Room behind the window. -/
theorem roomBack (hv : Inv h v ext s) :
    (v.roomBack = none ∧ v.win.roomBack = none) ∨
      ∃ v', v.roomBack = some v' ∧ v.win.roomBack = some v'.win ∧ v'.kind = v.kind ∧ Inv h v' ext s := by
  unfold Vec.roomBack Window.roomBack
  split_ifs with hstop
  · unfold Vec.growBack Window.growBack
    split_ifs with hslide hlimit
    · obtain ⟨hwin, hkind, hinv⟩ := hv.slideLeft hslide.1
      exact .inr ⟨_, rfl, by rw [hwin], hkind, hinv⟩
    · exact .inl ⟨rfl, rfl⟩
    · refine .inr (hv.realloc (not_le.mp hlimit) ?_)
      have := Window.lt_grown v.win.cap
      simp only [Window.len]
      omega
  · exact .inr ⟨v, rfl, rfl, rfl, hv⟩

/-- Room before the window. -/
theorem roomFront (hv : Inv h v ext s) :
    (v.roomFront = none ∧ v.win.roomFront = none) ∨
      ∃ v', v.roomFront = some v' ∧ v.win.roomFront = some v'.win ∧ v'.kind = v.kind ∧ Inv h v' ext s := by
  unfold Vec.roomFront Window.roomFront
  split_ifs with hstart
  · unfold Vec.growFront Window.growFront
    split_ifs with hlimit
    · exact .inl ⟨rfl, rfl⟩
    · refine .inr (hv.realloc (not_le.mp hlimit) ?_)
      have h1 := hv.win.stop_le
      have h2 := Window.lt_grown v.win.cap
      simp only [Window.len]
      omega
  · exact .inr ⟨v, rfl, rfl, rfl, hv⟩

end Inv

/-! ## Stores -/

/-- The word that holds a value in a vector of fixnums or doubles. -/
def Heap.encode (h : Heap D) : Kind → Value → Option (Word D)
  | .gen, _ => none
  | .i64, .fix n => some (.int n.1)
  | .i64, _ => none
  | .f64, .fix n => some (.double (Doubles.ofInt n.1))
  | .f64, e => (h.toFloat e).map .double

/-- What a vector of the kind holds of a value; `none` where the vector becomes one of boxed cells. -/
def Kind.hold : Kind → Item D → Option (Item D)
  | .i64, .fix n => some (.fix n)
  | .f64, .fix n => some (.float (Doubles.ofInt n.1))
  | .f64, .float x => some (.float x)
  | _, _ => none

/-- The kind of a vector after a value is stored, and what is stored. -/
def Kind.store (kind : Kind) (x : Item D) : Kind × Item D :=
  match kind.hold x with
  | some y => (kind, y)
  | none => (.gen, x)

theorem Kind.store_of_some {kind : Kind} {x y : Item D} (hx : kind.hold x = some y) :
    kind.store x = (kind, y) := by rw [store, hx]

theorem Kind.store_of_none {kind : Kind} {x : Item D} (hx : kind.hold x = none) :
    kind.store x = (.gen, x) := by rw [store, hx]

omit [Doubles D] in
theorem Heap.view_of_toFloat {r : ℕ} {d : D} (hr : h.toFloat (.ref r) = some d) :
    h.view (.ref r) = .float d := by
  cases hobj : h.obj r <;> simp_all [toFloat, view]

omit [Doubles D] in
theorem Heap.view_of_toFloat_none {r : ℕ} (hr : h.toFloat (.ref r) = none) : h.view (.ref r) = .other r := by
  cases hobj : h.obj r <;> simp_all [toFloat, view]

theorem Heap.encode_some {kind : Kind} {x : Value} {w : Word D} (hx : h.encode kind x = some w) :
    ∃ y, kind.hold (h.view x) = some y ∧ w.item h kind = some y := by
  cases kind with
  | gen => cases hx
  | i64 =>
    cases x with
    | fix n =>
      obtain rfl := Option.some.inj hx
      refine ⟨_, rfl, ?_⟩
      show some (if fixFits n.1 then Item.fix (makeFix n.1) else _) = _
      rw [if_pos (fixFits_fixnum n), makeFix_fixnum]
    | const | ref => cases hx
  | f64 =>
    cases x with
    | fix n =>
      obtain rfl := Option.some.inj hx
      exact ⟨_, rfl, rfl⟩
    | const => cases hx
    | ref r =>
      obtain ⟨d, hd, rfl⟩ := Option.map_eq_some_iff.mp hx
      exact ⟨.float d, by rw [view_of_toFloat hd]; rfl, rfl⟩

theorem Heap.encode_kind {kind : Kind} {x : Value} {w : Word D} (hx : h.encode kind x = some w) :
    kind ≠ .gen := by
  rintro rfl
  cases hx

theorem Heap.encode_refs {kind : Kind} {x : Value} {w : Word D} (hx : h.encode kind x = some w) (r : ℕ) :
    w.refs r = 0 := by
  obtain ⟨y, -, hw⟩ := encode_some hx
  exact Word.refs_of_reads (encode_kind hx) (Word.reads_of_item hw) r

theorem Heap.encode_none {kind : Kind} {x : Value} (hx : h.encode kind x = none) :
    kind.hold (h.view x) = none := by
  cases kind with
  | gen => rfl
  | i64 =>
    cases x with
    | fix => cases hx
    | const => rfl
    | ref r =>
      cases hr : h.toFloat (.ref r) with
      | some d => rw [view_of_toFloat hr]; rfl
      | none => rw [view_of_toFloat_none hr]; rfl
  | f64 =>
    cases x with
    | fix => cases hx
    | const => rfl
    | ref r => rw [view_of_toFloat_none (Option.map_eq_none_iff.mp hx)]; rfl

theorem Vec.setBoxed_of_some {i : ℕ} {x : Value} {w : Word D} (hx : h.encode v.kind x = some w) :
    v.setBoxed h i x = (v.write (v.win.start + i) w).map fun v => (h.unrefexp x, v) := by
  unfold setBoxed
  cases hkind : v.kind with
  | gen => rw [hkind] at hx; cases hx
  | i64 =>
    cases x with
    | fix n =>
      rw [hkind] at hx
      obtain rfl := Option.some.inj hx
      rfl
    | const | ref => rw [hkind] at hx; cases hx
  | f64 =>
    cases x with
    | fix n =>
      rw [hkind] at hx
      obtain rfl := Option.some.inj hx
      rfl
    | const => rw [hkind] at hx; cases hx
    | ref r =>
      rw [hkind] at hx
      obtain ⟨d, hd, rfl⟩ := Option.map_eq_some_iff.mp hx
      rw [hd]

theorem Vec.setBoxed_of_none {i : ℕ} {x : Value} (hx : h.encode v.kind x = none) :
    v.setBoxed h i x = (v.promoteToGen h).bind fun p => p.2.setGen p.1 i x := by
  unfold setBoxed
  cases hkind : v.kind with
  | gen =>
    rw [promoteToGen, if_pos hkind]
    rfl
  | i64 =>
    cases x with
    | fix => rw [hkind] at hx; cases hx
    | const | ref => rfl
  | f64 =>
    cases x with
    | fix => rw [hkind] at hx; cases hx
    | const => rfl
    | ref r =>
      rw [hkind] at hx
      rw [Option.map_eq_none_iff.mp hx]

theorem Holds.set {kind : Kind} {ws : List (Word D)} {xs : List (Item D)} (hw : Holds h kind ws xs) (i : ℕ)
    {w : Word D} {x : Item D} (hx : w.item h kind = some x) (hrefs : ∀ r, w.refs r ≠ 0 → r < h.next) :
    Holds h kind (ws.set i w) (xs.set i x) := by
  induction ws generalizing xs i with
  | nil =>
    have hxs : xs = [] := List.length_eq_zero_iff.mp hw.length.symm
    subst hxs
    simpa using hw
  | cons w₀ ws ih =>
    obtain _ | ⟨x₀, xs⟩ := xs
    · exact absurd hw.length (by simp)
    obtain ⟨hhead, hrest⟩ := Holds.cons.mp hw
    cases i with
    | zero => exact Holds.cons.mpr ⟨⟨hx, hrefs⟩, hrest⟩
    | succ i => exact Holds.cons.mpr ⟨hhead, ih hrest i⟩

omit [Doubles D] in
theorem Vec.write_eq {off : ℕ} (hoff : off < v.cells.length) (w : Word D) :
    v.write off w = some { v with cells := v.cells.set off w } := if_pos hoff

omit [Doubles D] in
theorem Word.asBox_of_reads {w : Word D} (hw : w.Reads .gen) :
    ∃ e, w.asBox = some e ∧ ∀ r, e.refs r = w.refs r := by
  cases w with
  | zero => exact ⟨_, rfl, fun _ => rfl⟩
  | box e => exact ⟨e, rfl, fun _ => rfl⟩
  | int | double => cases hw

namespace Inv

/-- A word is written into the window. -/
theorem write_inside (hv : Inv h v ext s) {h' : Heap D} (hg : h.Grows h') (hf : h'.Fresh) {ext' : ℕ → ℕ} {i : ℕ}
    {w : Word D} {x : Item D} (hw : w.item h' v.kind = some x) (hrefs : ∀ r, w.refs r ≠ 0 → r < h'.next)
    (hnref : ∀ r, h'.nref r = ext' r + refsAll r (v.window.set i w)) :
    Inv h' { v with cells := v.cells.set (v.win.start + i) w } ext' { s with items := s.items.set i x } where
  kind := hv.kind
  win := hv.win
  length := (List.length_set ..).trans hv.length
  reads := fun w' hw' => by
    rcases List.mem_or_eq_of_mem_set hw' with hmem | rfl
    · exact hv.reads w' hmem
    · exact Word.reads_of_item hw
  holds := by
    rw [Vec.window_set]
    exact (hv.holds.grows hg).set i hw hrefs
  fresh := hf
  nref := by
    rw [Vec.window_set]
    exact hnref

/-- A word is written behind the window, and joins it. -/
theorem write_behind (hv : Inv h v ext s) (hroom : v.win.stop < v.win.cap) {h' : Heap D} (hg : h.Grows h')
    (hf : h'.Fresh) {ext' : ℕ → ℕ} {w : Word D} {x : Item D} (hw : w.item h' v.kind = some x)
    (hrefs : ∀ r, w.refs r ≠ 0 → r < h'.next) (hnref : ∀ r, h'.nref r = ext' r + (refsAll r v.window + w.refs r)) :
    Inv h' ⟨v.kind, v.win.extendBack, v.cells.set (v.win.start + v.win.len) w⟩ ext'
      { s with items := s.items ++ [x] } := by
  obtain ⟨h1, h2, h3⟩ := hv.win
  have hoff : v.win.start + v.win.len = v.win.stop := by
    simp only [Window.len]
    omega
  have hwindow : (⟨v.kind, v.win.extendBack, v.cells.set (v.win.start + v.win.len) w⟩ : Vec D).window =
      v.window ++ [w] := by
    have hset := v.window_set v.win.len w
    rw [List.set_eq_of_length_le hv.window_length.le] at hset
    rw [← hset]
    refine Vec.window_extendBack (v := { v with cells := v.cells.set (v.win.start + v.win.len) w }) hv.win ?_
    rw [hoff, List.getElem?_set_self (by rw [hv.length]; exact hroom)]
  have hone : Holds h' v.kind [w] [x] := Holds.cons.mpr ⟨⟨hw, hrefs⟩, rfl, fun r hr => absurd rfl hr⟩
  exact {
    kind := hv.kind
    win := ⟨h1.trans (Nat.le_succ _), hroom, h3⟩
    length := (List.length_set ..).trans hv.length
    reads := fun w' hw' => by
      rcases List.mem_or_eq_of_mem_set hw' with hmem | rfl
      · exact hv.reads w' hmem
      · exact Word.reads_of_item hw
    holds := by
      rw [hwindow]
      exact (hv.holds.grows hg).append hone
    fresh := hf
    nref := fun r => by
      rw [hwindow, refsAll_append, refsAll_cons, refsAll_nil, Nat.add_zero]
      exact hnref r }

/-- The value that is stored is there. -/
theorem stored_lt {x : Value} (hv : Inv h v (fun r => ext r + x.refs r) s) (r : ℕ) (hr : x.refs r ≠ 0) :
    r < h.next :=
  hv.lt_next (by omega)

theorem setGen_inside {x : Value} (hv : Inv h v (fun r => ext r + x.refs r) s) (hkind : v.kind = .gen) {i : ℕ}
    (hi : i < v.win.len) :
    ∃ h' v', v.setGen h i x = some (h', v') ∧ h.Grows h' ∧ v'.win = v.win ∧
      Inv h' v' ext { s with items := s.items.set i (h.view x) } := by
  have hlt : i < v.window.length := hv.window_length ▸ hi
  have hget := (Vec.window_getElem? hi).symm.trans (List.getElem?_eq_getElem hlt)
  obtain ⟨old, hold, hrefs⟩ :=
    Word.asBox_of_reads (hkind ▸ hv.reads _ (mem_window (List.getElem_mem hlt)))
  have hoff : v.win.start + i < v.cells.length := (List.getElem?_eq_some_iff.mp hget).1
  have hgrows := h.grows_unrefexp old
  refine ⟨h.unrefexp old, _, ?_, hgrows, ?_, hv.write_inside (w := .box x) hgrows (hv.fresh.unrefexp old) ?_ ?_ ?_⟩
  · rw [Vec.setGen, hget, Option.bind_eq_bind, Option.bind_some, hold, Option.bind_eq_bind, Option.bind_some,
      Vec.write_eq hoff]
    rfl
  · rfl
  · rw [hkind, ← hgrows.view hv.stored_lt]
    rfl
  · intro r hr
    exact (hv.stored_lt r hr).trans_le hgrows.next_le
  · intro r
    have hset := refsAll_set r (List.getElem?_eq_getElem hlt) (.box x)
    have hnref := hv.nref r
    rw [← hrefs r] at hset
    simp only [Word.refs] at hset
    rw [h.unrefexp_nref]
    omega

theorem setGen_behind {x : Value} (hv : Inv h v (fun r => ext r + x.refs r) s) (hkind : v.kind = .gen)
    (hroom : v.win.stop < v.win.cap) {c : Const}
    (hcell : v.cells[v.win.stop]?.bind Word.asBox = some (.const c)) :
    ∃ h' v', v.setGen h v.win.len x = some (h', v') ∧ h.Grows h' ∧ v'.win = v.win ∧
      Inv h' { v' with win := v'.win.extendBack } ext { s with items := s.items ++ [h.view x] } := by
  have hoff : v.win.start + v.win.len = v.win.stop := by
    have := hv.win.start_le
    simp only [Window.len]
    omega
  obtain ⟨w, hget, hw⟩ := Option.bind_eq_some_iff.mp hcell
  refine ⟨h, { v with cells := v.cells.set (v.win.start + v.win.len) (.box x) }, ?_, .refl h, rfl,
    hv.write_behind hroom (w := .box x) (.refl h) hv.fresh ?_ hv.stored_lt ?_⟩
  · rw [Vec.setGen, hoff, hget, Option.bind_eq_bind, Option.bind_some, hw, Option.bind_eq_bind, Option.bind_some,
      ← hoff, Vec.write_eq (by rw [hoff, hv.length]; exact hroom)]
    rfl
  · rw [hkind]
    rfl
  · intro r
    have hnref := hv.nref r
    simp only [Word.refs]
    omega

/-- A vector with an element stored, by what is stored and the kind. -/
theorem setBoxed_inside {x : Value} (hv : Inv h v (fun r => ext r + x.refs r) s) {i : ℕ} (hi : i < v.win.len) :
    ∃ h' v', v.setBoxed h i x = some (h', v') ∧ h.Grows h' ∧ v'.win = v.win ∧
      Inv h' v' ext ⟨(s.kind.store (h.view x)).1, s.items.set i (s.kind.store (h.view x)).2⟩ := by
  have hlt : i < v.window.length := hv.window_length ▸ hi
  cases hx : h.encode v.kind x with
  | some w =>
    obtain ⟨y, hy, hw⟩ := Heap.encode_some hx
    have hzero : ∀ r, w.refs r = 0 := Heap.encode_refs hx
    have hold : ∀ r, (v.window[i]).refs r = 0 := fun r =>
      Word.refs_of_reads (Heap.encode_kind hx) (hv.reads _ (mem_window (List.getElem_mem hlt))) r
    have hgrows := h.grows_unrefexp x
    have hget := (Vec.window_getElem? hi).symm.trans (List.getElem?_eq_getElem hlt)
    have hoff : v.win.start + i < v.cells.length := (List.getElem?_eq_some_iff.mp hget).1
    rw [Kind.store_of_some (hv.kind ▸ hy)]
    refine ⟨h.unrefexp x, { v with cells := v.cells.set (v.win.start + i) w }, ?_, hgrows, rfl,
      hv.write_inside (w := w) hgrows (hv.fresh.unrefexp x) ?_ ?_ ?_⟩
    · rw [Vec.setBoxed_of_some hx, Vec.write_eq hoff]
      rfl
    · rwa [Holds.item_grows hgrows fun r hr => absurd (hzero r) hr]
    · exact fun r hr => absurd (hzero r) hr
    · intro r
      have hset := refsAll_set r (List.getElem?_eq_getElem hlt) w
      have hnref := hv.nref r
      rw [hzero, hold] at hset
      rw [h.unrefexp_nref]
      omega
  | none =>
    obtain ⟨h₁, v₁, hpromote, hv₁, hgrows, hkind, hwin, -⟩ := hv.promoteToGen
    obtain ⟨h₂, v₂, hset, hgrows', hwin', hv₂⟩ := hv₁.setGen_inside hkind (hwin ▸ hi)
    rw [Kind.store_of_none (hv.kind ▸ Heap.encode_none hx)]
    refine ⟨h₂, v₂, ?_, hgrows.trans hgrows', hwin'.trans hwin, ?_⟩
    · rw [Vec.setBoxed_of_none hx, hpromote]
      exact hset
    · rwa [hgrows.view hv.stored_lt] at hv₂

/-- An element is stored behind the window, which then takes it in. -/
theorem setBoxed_behind {x : Value} (hv : Inv h v (fun r => ext r + x.refs r) s)
    (hroom : v.win.stop < v.win.cap)
    (hcell : v.kind = .gen → v.cells[v.win.stop]? = some (.box (.const .nil))) :
    ∃ h' v', v.setBoxed h v.win.len x = some (h', v') ∧ h.Grows h' ∧ v'.win = v.win ∧
      Inv h' { v' with win := v'.win.extendBack } ext
        ⟨(s.kind.store (h.view x)).1, s.items ++ [(s.kind.store (h.view x)).2]⟩ := by
  cases hx : h.encode v.kind x with
  | some w =>
    obtain ⟨y, hy, hw⟩ := Heap.encode_some hx
    have hzero : ∀ r, w.refs r = 0 := Heap.encode_refs hx
    have hgrows := h.grows_unrefexp x
    have hoff : v.win.start + v.win.len < v.cells.length := by
      have h1 := hv.win.start_le
      rw [hv.length, Window.len]
      omega
    rw [Kind.store_of_some (hv.kind ▸ hy)]
    refine ⟨h.unrefexp x, { v with cells := v.cells.set (v.win.start + v.win.len) w }, ?_, hgrows, rfl,
      hv.write_behind hroom (w := w) hgrows (hv.fresh.unrefexp x) ?_ ?_ ?_⟩
    · rw [Vec.setBoxed_of_some hx, Vec.write_eq hoff]
      rfl
    · rwa [Holds.item_grows hgrows fun r hr => absurd (hzero r) hr]
    · exact fun r hr => absurd (hzero r) hr
    · intro r
      have hnref := hv.nref r
      rw [h.unrefexp_nref, hzero]
      omega
  | none =>
    obtain ⟨h₁, v₁, hpromote, hv₁, hgrows, hkind, hwin, hsame, hfresh⟩ := hv.promoteToGen
    have hblank : ∃ c, v₁.cells[v₁.win.stop]?.bind Word.asBox = some (.const c) := by
      by_cases hgen : v.kind = .gen
      · rw [hsame hgen]
        exact ⟨.nil, by rw [hcell hgen]; rfl⟩
      · rw [hwin]
        exact ⟨.null, by rw [hfresh hgen hroom]; rfl⟩
    obtain ⟨c, hc⟩ := hblank
    obtain ⟨h₂, v₂, hset, hgrows', hwin', hv₂⟩ := hv₁.setGen_behind hkind (hwin ▸ hroom) hc
    rw [Kind.store_of_none (hv.kind ▸ Heap.encode_none hx)]
    refine ⟨h₂, v₂, ?_, hgrows.trans hgrows', hwin'.trans hwin, ?_⟩
    · rw [Vec.setBoxed_of_none hx, hpromote, ← hwin]
      exact hset
    · rwa [hgrows.view hv.stored_lt] at hv₂

/-! ## Reads -/

theorem getBoxed (hv : Inv h v ext s) {i : ℕ} {x : Item D} (hi : s.items[i]? = some x) :
    ∃ e h', v.getBoxed h i = some (e, h') ∧ h.Grows h' ∧ h'.view e = x ∧
      Inv h' v (fun r => ext r + e.refs r) s ∧
      ∃ w, v.window[i]? = some w ∧ v.cells[v.win.start + i]? = some w ∧
        (v.kind = .gen → ∀ r, e.refs r = w.refs r) := by
  obtain ⟨w, hget, hitem, hrefs⟩ := hv.holds.getElem? hi
  have hlt : i < v.win.len := hv.window_length ▸ (List.getElem?_eq_some_iff.mp hget).1
  have hcell : v.cells[v.win.start + i]? = some w := (Vec.window_getElem? hlt).symm.trans hget
  obtain ⟨e, h', hbox, howned, hgen⟩ := Heap.owned_box hv.fresh hitem hrefs
  refine ⟨e, h', by rw [Vec.getBoxed, hcell]; exact hbox, howned.grows, howned.view, ?_, w, hget, hcell, hgen⟩
  exact { hv with
    holds := hv.holds.grows howned.grows
    fresh := howned.fresh
    nref := fun r => by
      rw [howned.nref, hv.nref]
      omega }

end Inv

end Alcove.Vector
