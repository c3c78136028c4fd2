import Alcove.Vector.Elements

/-!
# A vector is a sequence

The builtins on a plain sequence of elements (`Seq.exec`), and that the vector agrees with it.

**Main result:** `vectors_agree`. In any sequence of calls on a vector that `vec` or `vector` has made, with
any other use of the objects in between, each call has the result that the sequence gives, except that a
vector whose capacity is at its limit does not grow.
-/

namespace Alcove.Vector

open Lib

variable {D : Type} [Doubles D]

/-! ## The sequence -/

/-- A call with the values replaced. -/
def Call.map {α β : Type} (f : α → β) : Call α → Call β
  | .push x => .push (f x)
  | .pop => .pop
  | .unshift x => .unshift (f x)
  | .shift => .shift
  | .set i x => .set (f i) (f x)
  | .ref i => .ref (f i)
  | .len => .len

/-- The index that an item stands for. -/
def Item.index : Item D → Option ℤ
  | .fix n => some n.1
  | .float x => some (if Doubles.isNaN x then -1 else Doubles.toInt x)
  | _ => none

namespace Seq

variable (s : Seq D)

/-- The sequence with one element more behind it, as a vector of its kind holds it. -/
def push (x : Item D) : Seq D := ⟨(s.kind.store x).1, s.items ++ [(s.kind.store x).2]⟩

/-- The sequence with one element more before it. -/
def unshift (x : Item D) : Seq D := ⟨(s.kind.store x).1, (s.kind.store x).2 :: s.items⟩

/-- The sequence with another element at `i`. -/
def set (i : ℕ) (x : Item D) : Seq D := ⟨(s.kind.store x).1, s.items.set i (s.kind.store x).2⟩

/-- The place that an index means. -/
def place (i : Item D) : Except VecError ℕ :=
  match i.index with
  | none => .error .badArgs
  | some n => if n < 0 ∨ s.items.length ≤ n then .error .outOfRange else .ok n.toNat

/-- A call. -/
def exec : Call (Item D) → Except VecError (Item D) × Seq D
  | .push x => (.ok x, s.push x)
  | .pop =>
    match s.items.getLast? with
    | none => (.error .empty, s)
    | some x => (.ok x, { s with items := s.items.dropLast })
  | .unshift x => (.ok x, s.unshift x)
  | .shift =>
    match s.items with
    | [] => (.error .empty, s)
    | x :: xs => (.ok x, { s with items := xs })
  | .set i x =>
    match s.place i with
    | .error err => (.error err, s)
    | .ok i => (.ok x, s.set i x)
  | .ref i =>
    match s.place i with
    | .error err => (.error err, s)
    | .ok i => (.ok ((s.items[i]?).getD (.const .null)), s)
  | .len => (.ok (.fix (makeFix s.items.length)), s)

end Seq

/-! ## Calls -/

/-- The references that the arguments of a call take. -/
def Call.refs (r : ℕ) : Call Value → ℕ
  | .push x | .unshift x | .ref x => x.refs r
  | .set i x => i.refs r + x.refs r
  | .pop | .shift | .len => 0

/-- The references that a result takes. -/
def resultRefs (r : ℕ) : Except VecError Value → ℕ
  | .ok x => x.refs r
  | .error _ => 0

/-- The operation on the window where a call adds an element. -/
def Call.adds {α : Type} : Call α → Option EndOp
  | .push _ => some .push
  | .unshift _ => some .unshift
  | _ => none

/-- The result `res` of `call`, and what the elements are afterwards: as the sequence has it, or the vector
cannot grow. -/
def Agrees (w : Window) (call : Call (Item D)) (res : Except VecError (Item D)) (s s' : Seq D) : Prop :=
  (res, s') = s.exec call ∨
    (∃ op, call.adds = some op ∧ w.step op = none) ∧ res = .error .growFailed ∧ s' = s

/-- A call ends, without a fault, and its result is as `Agrees` says. -/
def Executes (h : Heap D) (v : Vec D) (ext : ℕ → ℕ) (s : Seq D) (call : Call Value) : Prop :=
  ∃ res h' v' s', v.exec h call = some (res, h', v') ∧ h.Grows h' ∧
    Inv h' v' (fun r => ext r + resultRefs r res) s' ∧
    Agrees v.win (call.map h.view) (res.map h'.view) s s'

variable {h : Heap D} {v : Vec D} {ext : ℕ → ℕ} {s : Seq D}

theorem Heap.index_view (i : Value) : h.index i = (h.view i).index := by
  cases i with
  | fix | const => rfl
  | ref r => cases hobj : h.obj r <;> simp [index, view, toFloat, Item.index, hobj]

omit [Doubles D] in
theorem Heap.view_congr {h h' : Heap D} (hobj : h'.obj = h.obj) (e : Value) : h'.view e = h.view e := by
  cases e with
  | fix | const => rfl
  | ref r => rw [view, view, hobj]

namespace Inv

/-- A new cell of boxed storage is set to nil. -/
theorem clear (hv : Inv h v ext s) {off : ℕ} (hoff : off < v.win.cap)
    (hout : v.win.start + v.win.len ≤ off ∨ off < v.win.start) :
    ∃ v', v.clear off = some v' ∧ v'.kind = v.kind ∧ v'.win = v.win ∧ Inv h v' ext s ∧
      (v.kind = .gen → v'.cells[off]? = some (.box (.const .nil))) := by
  unfold Vec.clear
  split_ifs with hgen
  · have hlt : off < v.cells.length := hv.length ▸ hoff
    refine ⟨_, Vec.write_eq hlt _, rfl, rfl, hv.moved rfl hv.win ((List.length_set ..).trans hv.length) ?_ ?_,
      fun _ => List.getElem?_set_self hlt⟩
    · intro w hw
      rcases List.mem_or_eq_of_mem_set hw with hmem | rfl
      · exact hv.reads w hmem
      · rw [hgen]
        trivial
    · exact Vec.window_set_outside hout _
  · exact ⟨v, rfl, rfl, rfl, hv, fun heq => absurd heq hgen⟩

omit [Doubles D] in
theorem len_add (hv : v.win.Ok) : v.win.start + v.win.len = v.win.stop := by
  have := hv.start_le
  simp only [Window.len]
  omega

theorem push (x : Value) (hv : Inv h v (fun r => ext r + x.refs r) s) : Executes h v ext s (.push x) := by
  rcases hv.roomBack with ⟨hnone, hwin⟩ | ⟨v₁, hsome, hwin, -, hv₁⟩
  · refine ⟨.error .growFailed, h.unrefexp x, v, s, ?_, h.grows_unrefexp x, hv.unrefexp,
      .inr ⟨⟨.push, rfl, ?_⟩, rfl, rfl⟩⟩
    · show v.push h x = _
      rw [Vec.push, hnone]
    · rw [Window.step, hwin]
      rfl
  · obtain ⟨-, -, hroom⟩ := hv.win.roomBack hwin
    obtain ⟨v₂, hclear, hkind, hwin₂, hv₂, hnil⟩ := hv₁.clear hroom (.inl (len_add hv₁.win).le)
    have hv₂' := hv₂.refexp hv₂.stored_lt
    obtain ⟨h₃, v₃, hset, hgrows, hwin₃, hv₃⟩ := hv₂'.setBoxed_behind (by rwa [hwin₂]) (by rwa [hkind, hwin₂])
    rw [(h.grows_refexp x).view hv.stored_lt] at hv₃
    refine ⟨.ok x, h₃, { v₃ with win := v₃.win.extendBack }, s.push (h.view x), ?_,
      (h.grows_refexp x).trans hgrows, hv₃, .inl ?_⟩
    · show v.push h x = _
      simp only [Vec.push, hsome, hclear, hset, Option.bind_eq_bind, Option.bind_some]
      rfl
    · show (Except.ok (h₃.view x), _) = (Except.ok (h.view x), _)
      rw [((h.grows_refexp x).trans hgrows).view hv.stored_lt]

omit [Doubles D] in
theorem clear_withWin (w : Window) (off : ℕ) :
    ({ v with win := w } : Vec D).clear off = (v.clear off).map fun v => { v with win := w } := by
  unfold Vec.clear Vec.write
  split_ifs <;> rfl

/-- The window takes in the cell before it. -/
theorem extendFront (hv : Inv h v ext s) (hstart : 0 < v.win.start)
    (hcell : v.kind = .gen → v.cells[v.win.start - 1]? = some (.box (.const .nil))) :
    ∃ y, Inv h { v with win := v.win.extendFront } ext { s with items := y :: s.items } := by
  obtain ⟨h1, h2, h3⟩ := hv.win
  have hlt : v.win.start - 1 < v.cells.length := by
    rw [hv.length]
    omega
  have hget := List.getElem?_eq_getElem hlt
  have hreads := hv.reads _ (List.getElem_mem hlt)
  obtain ⟨y, hy⟩ := Word.item_of_reads (h := h) hreads
  have hzero : ∀ r, (v.cells[v.win.start - 1]).refs r = 0 := by
    intro r
    by_cases hgen : v.kind = .gen
    · rw [Option.some.inj (hget.symm.trans (hcell hgen))]
      rfl
    · exact Word.refs_of_reads hgen hreads r
  have hwindow := Vec.window_extendFront hv.win hstart hget
  refine ⟨y, {
    kind := hv.kind
    win := ⟨(Nat.sub_le _ _).trans h1, h2, h3⟩
    length := hv.length
    reads := hv.reads
    holds := ?_
    fresh := hv.fresh
    nref := fun r => ?_ }⟩
  · rw [hwindow]
    exact Holds.cons.mpr ⟨⟨hy, fun r hr => absurd (hzero r) hr⟩, hv.holds⟩
  · rw [hwindow, refsAll_cons, hzero, Nat.zero_add]
    exact hv.nref r

theorem unshift (x : Value) (hv : Inv h v (fun r => ext r + x.refs r) s) :
    Executes h v ext s (.unshift x) := by
  rcases hv.roomFront with ⟨hnone, hwin⟩ | ⟨v₁, hsome, hwin, -, hv₁⟩
  · refine ⟨.error .growFailed, h.unrefexp x, v, s, ?_, h.grows_unrefexp x, hv.unrefexp,
      .inr ⟨⟨.unshift, rfl, ?_⟩, rfl, rfl⟩⟩
    · show v.unshift h x = _
      rw [Vec.unshift, hnone]
    · rw [Window.step, hwin]
      rfl
  · obtain ⟨⟨h1, h2, -⟩, -, hroom⟩ := hv.win.roomFront hwin
    have hbefore : v₁.win.start - 1 < v₁.win.cap := by omega
    obtain ⟨v₂, hclear, hkind, hwin₂, hv₂, hnil⟩ := hv₁.clear hbefore (.inr (by omega))
    obtain ⟨y, hv₃⟩ := hv₂.extendFront (by rwa [hwin₂]) (by rwa [hkind, hwin₂])
    have hpos : 0 < v₂.win.extendFront.len := by
      simp only [Window.extendFront, Window.len, hwin₂]
      omega
    obtain ⟨h₄, v₄, hset, hgrows, -, hv₄⟩ := (hv₃.refexp hv₃.stored_lt).setBoxed_inside (i := 0) hpos
    rw [(h.grows_refexp x).view hv.stored_lt] at hv₄
    refine ⟨.ok x, h₄, v₄, s.unshift (h.view x), ?_, (h.grows_refexp x).trans hgrows, hv₄, .inl ?_⟩
    · show v.unshift h x = _
      rw [hwin₂] at hset
      simp only [Vec.unshift, hsome, clear_withWin, Window.extendFront, hclear, Option.bind_eq_bind,
        Option.map_some, Option.bind_some]
      simp only [Window.extendFront] at hset
      rw [hset]
      rfl
    · show (Except.ok (h₄.view x), _) = (Except.ok (h.view x), _)
      rw [((h.grows_refexp x).trans hgrows).view hv.stored_lt]

/-- The reference of an element is given up. -/
theorem release (hv : Inv h v ext s) {i : ℕ} {w : Word D} (hcell : v.cells[v.win.start + i]? = some w) :
    ∃ h', v.release h i = some h' ∧ h.Grows h' ∧ h'.Fresh ∧ h'.obj = h.obj ∧
      ∀ r, h'.nref r = h.nref r - w.refs r := by
  have hreads := hv.reads w (List.mem_of_getElem? hcell)
  unfold Vec.release
  split_ifs with hgen
  · rw [hgen] at hreads
    obtain ⟨e, he, hrefs⟩ := Word.asBox_of_reads hreads
    refine ⟨h.unrefexp e, by rw [hcell, Option.bind_some, he]; rfl, h.grows_unrefexp e, hv.fresh.unrefexp e,
      h.unrefexp_obj e, fun r => ?_⟩
    rw [h.unrefexp_nref, hrefs]
  · refine ⟨h, rfl, .refl h, hv.fresh, rfl, fun r => ?_⟩
    rw [Word.refs_of_reads hgen hreads, Nat.sub_zero]

/-- A part of the window, without the word `w`. -/
theorem part (hv : Inv h v ext s) (win : Window) (hwin : win.Ok) (hcap : win.cap = v.win.cap)
    {ws : List (Word D)} {w : Word D} {xs : List (Item D)} (hwindow : ({ v with win := win } : Vec D).window = ws)
    (hholds : Holds h v.kind ws xs) (hrefs : ∀ r, refsAll r v.window = refsAll r ws + w.refs r) {h' : Heap D}
    (hgrows : h.Grows h') (hfresh : h'.Fresh) (hnref : ∀ r, h'.nref r = h.nref r - w.refs r) :
    Inv h' { v with win := win } ext { s with items := xs } where
  kind := hv.kind
  win := hwin
  length := hv.length.trans hcap.symm
  reads := hv.reads
  holds := by
    rw [hwindow]
    exact hholds.grows hgrows
  fresh := hfresh
  nref := fun r => by
    rw [hnref, hv.nref, hrefs, hwindow]
    omega

theorem pop (hv : Inv h v ext s) : Executes h v ext s .pop := by
  have hitems := hv.items_length
  have hlength := hv.window_length
  rcases List.eq_nil_or_concat s.items with hnil | ⟨xs, x, hxs⟩
  · refine ⟨.error .empty, h, v, s, if_pos ?_, .refl h, hv, .inl ?_⟩
    · rw [← hitems, hnil, List.length_nil]
    · show _ = s.exec .pop
      rw [Seq.exec, hnil]
      rfl
  · rw [List.concat_eq_append] at hxs
    have hlen : v.win.len = xs.length + 1 := by rw [← hitems, hxs, List.length_append, List.length_singleton]
    obtain ⟨ws, w, hws⟩ : ∃ ws w, v.window = ws ++ [w] := by
      rcases List.eq_nil_or_concat v.window with hnil | ⟨ws, w, hws⟩
      · rw [hnil, List.length_nil] at hlength
        omega
      · exact ⟨ws, w, by rw [hws, List.concat_eq_append]⟩
    have hwslen : ws.length = xs.length := by
      rw [hws, List.length_append, List.length_singleton] at hlength
      omega
    have hlast : s.items[xs.length]? = some x := by rw [hxs, List.getElem?_concat_length]
    obtain ⟨e, h₁, hget, hgrows, hview, hv₁, w', hw', hcell, -⟩ := hv.getBoxed hlast
    obtain ⟨h₂, hrelease, hgrows', hfresh, hobj, hnref⟩ := hv₁.release hcell
    obtain rfl : w = w' := by
      rw [hws, ← hwslen, List.getElem?_concat_length] at hw'
      exact Option.some.inj hw'
    have hwindow : ({ v with win := v.win.dropBack } : Vec D).window = ws := by
      rw [Vec.window_dropBack, hws, hlen, Nat.add_sub_cancel, ← hwslen, List.take_left]
    have hholds : Holds h₁ v.kind ws xs := by
      have := hv₁.holds
      rw [hws, hxs] at this
      exact (this.of_append hwslen).1
    have hview₂ : h₂.view e = x := (Heap.view_congr hobj e).trans hview
    refine ⟨.ok e, h₂, { v with win := v.win.dropBack }, { s with items := xs }, ?_, hgrows.trans hgrows',
      hv₁.part v.win.dropBack ?_ rfl hwindow hholds ?_ hgrows' hfresh hnref, .inl ?_⟩
    · show v.pop h = _
      rw [Vec.pop, if_neg (by omega), hlen, Nat.add_sub_cancel]
      simp only [hget, hrelease, Option.bind_eq_bind, Option.bind_some]
      rfl
    · obtain ⟨h1, h2, h3⟩ := hv.win
      refine ⟨?_, (Nat.sub_le _ _).trans h2, h3⟩
      simp only [Window.len] at hlen
      simp only [Window.dropBack]
      omega
    · intro r
      rw [hws, refsAll_append, refsAll_cons, refsAll_nil, Nat.add_zero]
    · show (Except.ok (h₂.view e), _) = s.exec .pop
      rw [hview₂, Seq.exec, hxs, List.getLast?_concat, List.dropLast_concat]

theorem shift (hv : Inv h v ext s) : Executes h v ext s .shift := by
  have hitems := hv.items_length
  have hlength := hv.window_length
  cases hxs : s.items with
  | nil =>
    refine ⟨.error .empty, h, v, s, if_pos ?_, .refl h, hv, .inl ?_⟩
    · rw [← hitems, hxs, List.length_nil]
    · show _ = s.exec .shift
      rw [Seq.exec, hxs]
      rfl
  | cons x xs =>
    have hlen : v.win.len = xs.length + 1 := by rw [← hitems, hxs, List.length_cons]
    obtain ⟨w, ws, hws⟩ : ∃ w ws, v.window = w :: ws :=
      List.exists_cons_of_ne_nil fun hnil => by simp [hnil] at hlength; omega
    have hfirst : s.items[0]? = some x := by rw [hxs, List.getElem?_cons_zero]
    obtain ⟨e, h₁, hget, hgrows, hview, hv₁, w', hw', hcell, -⟩ := hv.getBoxed hfirst
    obtain ⟨h₂, hrelease, hgrows', hfresh, hobj, hnref⟩ := hv₁.release hcell
    obtain rfl : w = w' := by
      rw [hws, List.getElem?_cons_zero] at hw'
      exact Option.some.inj hw'
    have hwindow : ({ v with win := v.win.dropFront } : Vec D).window = ws := by
      rw [Vec.window_dropFront, hws, List.tail_cons]
    have hholds : Holds h₁ v.kind ws xs := by
      have := hv₁.holds
      rw [hws, hxs] at this
      exact (Holds.cons.mp this).2
    have hview₂ : h₂.view e = x := (Heap.view_congr hobj e).trans hview
    refine ⟨.ok e, h₂, { v with win := v.win.dropFront }, { s with items := xs }, ?_, hgrows.trans hgrows',
      hv₁.part v.win.dropFront ?_ rfl hwindow hholds ?_ hgrows' hfresh hnref, .inl ?_⟩
    · show v.shift h = _
      rw [Vec.shift, if_neg (by omega)]
      simp only [hget, hrelease, Option.bind_eq_bind, Option.bind_some]
      rfl
    · obtain ⟨h1, h2, h3⟩ := hv.win
      refine ⟨?_, h2, h3⟩
      simp only [Window.len] at hlen
      simp only [Window.dropFront]
      omega
    · intro r
      rw [hws, refsAll_cons, Nat.add_comm]
    · show (Except.ok (h₂.view e), _) = s.exec .shift
      rw [hview₂, Seq.exec, hxs]

theorem congr (hv : Inv h v ext s) {ext' : ℕ → ℕ} (hext : ∀ r, ext' r = ext r) : Inv h v ext' s := by
  rwa [funext hext]

/-- The place of an index is in the window, or the call has an error. -/
theorem place (hv : Inv h v ext s) (i : Value) :
    (h.index i = none ∧ s.place (h.view i) = .error .badArgs) ∨
      ∃ n : ℤ, h.index i = some n ∧
        (((n < 0 ∨ v.win.len ≤ n) ∧ s.place (h.view i) = .error .outOfRange) ∨
          (¬ (n < 0 ∨ v.win.len ≤ n) ∧ s.place (h.view i) = .ok n.toNat)) := by
  rw [Heap.index_view, Seq.place]
  cases (h.view i).index with
  | none => exact .inl ⟨rfl, rfl⟩
  | some n =>
    refine .inr ⟨n, rfl, ?_⟩
    simp only [hv.items_length]
    split_ifs with hout
    · exact .inl ⟨hout, rfl⟩
    · exact .inr ⟨hout, rfl⟩

theorem set (i x : Value) (hv : Inv h v (fun r => ext r + (i.refs r + x.refs r)) s) :
    Executes h v ext s (.set i x) := by
  have hcast : Inv h v (fun r => ext r + x.refs r + i.refs r) s := hv.congr fun r => by omega
  have hgrows := (h.grows_unrefexp i).trans ((h.unrefexp i).grows_unrefexp x)
  rcases hv.place i with ⟨hindex, hplace⟩ | ⟨n, hindex, ⟨hout, hplace⟩ | ⟨hin, hplace⟩⟩
  · refine ⟨.error .badArgs, _, v, s, ?_, hgrows, hcast.unrefexp.unrefexp, .inl ?_⟩
    · show v.set h i x = _
      rw [Vec.set, hindex]
    · show _ = s.exec (.set (h.view i) (h.view x))
      rw [Seq.exec, hplace]
      rfl
  · refine ⟨.error .outOfRange, _, v, s, ?_, hgrows, hcast.unrefexp.unrefexp, .inl ?_⟩
    · show v.set h i x = _
      rw [Vec.set, hindex]
      exact if_pos hout
    · show _ = s.exec (.set (h.view i) (h.view x))
      rw [Seq.exec, hplace]
      rfl
  · have hlt : ∀ r, x.refs r ≠ 0 → r < h.next := fun r hr => hv.lt_next (by omega)
    have hcast' : Inv (h.refexp x) v (fun r => ext r + x.refs r + i.refs r + x.refs r) s := hcast.refexp hlt
    obtain ⟨h₁, v₁, hset, hgrows₁, -, hv₁⟩ := hcast'.setBoxed_inside (i := n.toNat) (by omega)
    have hall : h.Grows (h₁.unrefexp i) := ((h.grows_refexp x).trans hgrows₁).trans (h₁.grows_unrefexp i)
    rw [(h.grows_refexp x).view hlt] at hv₁
    refine ⟨.ok x, h₁.unrefexp i, v₁, s.set n.toNat (h.view x), ?_, hall, hv₁.unrefexp, .inl ?_⟩
    · show v.set h i x = _
      rw [Vec.set, hindex]
      simp only [if_neg hin, hset, Option.bind_eq_bind, Option.bind_some]
      rfl
    · show (Except.ok ((h₁.unrefexp i).view x), _) = s.exec (.set (h.view i) (h.view x))
      rw [Seq.exec, hplace, hall.view hlt]

theorem ref (i : Value) (hv : Inv h v (fun r => ext r + i.refs r) s) : Executes h v ext s (.ref i) := by
  rcases hv.place i with ⟨hindex, hplace⟩ | ⟨n, hindex, ⟨hout, hplace⟩ | ⟨hin, hplace⟩⟩
  · refine ⟨.error .badArgs, _, v, s, ?_, h.grows_unrefexp i, hv.unrefexp, .inl ?_⟩
    · show v.ref h i = _
      rw [Vec.ref, hindex]
    · show _ = s.exec (.ref (h.view i))
      rw [Seq.exec, hplace]
      rfl
  · refine ⟨.error .outOfRange, _, v, s, ?_, h.grows_unrefexp i, hv.unrefexp, .inl ?_⟩
    · show v.ref h i = _
      rw [Vec.ref, hindex]
      exact if_pos hout
    · show _ = s.exec (.ref (h.view i))
      rw [Seq.exec, hplace]
      rfl
  · have hlt : n.toNat < s.items.length := by
      rw [hv.items_length]
      omega
    obtain ⟨e, h₁, hget, hgrows, hview, hv₁, -⟩ := hv.getBoxed (List.getElem?_eq_getElem hlt)
    have hcast : Inv h₁ v (fun r => ext r + e.refs r + i.refs r) s := hv₁.congr fun r => by omega
    refine ⟨.ok e, h₁.unrefexp i, v, s, ?_, hgrows.trans (h₁.grows_unrefexp i), hcast.unrefexp, .inl ?_⟩
    · show v.ref h i = _
      rw [Vec.ref, hindex]
      simp only [if_neg hin, hget, Option.bind_eq_bind, Option.bind_some]
      rfl
    · show (Except.ok ((h₁.unrefexp i).view e), _) = s.exec (.ref (h.view i))
      rw [Seq.exec, hplace, Heap.view_congr (h₁.unrefexp_obj i), hview]
      simp only [List.getElem?_eq_getElem hlt, Option.getD_some]

/-- **A call.** -/
theorem exec (call : Call Value) (hv : Inv h v (fun r => ext r + call.refs r) s) : Executes h v ext s call := by
  cases call with
  | push x => exact hv.push x
  | pop => exact pop hv
  | unshift x => exact hv.unshift x
  | shift => exact shift hv
  | set i x => exact hv.set i x
  | ref i => exact hv.ref i
  | len =>
    refine ⟨.ok (.fix (makeFix v.win.len)), h, v, s, rfl, .refl h, hv, .inl ?_⟩
    show _ = s.exec .len
    rw [Seq.exec, hv.items_length]
    rfl

end Inv

/-! ## Sessions -/

/-- The vector, the objects and the references elsewhere. -/
structure State (D : Type) where
  heap : Heap D
  vec : Vec D
  ext : ℕ → ℕ

/-- An entry of a trace: the window before the call, the call and its result. -/
structure Entry (D : Type) where
  win : Window
  call : Call (Item D)
  res : Except VecError (Item D)

/-- Calls on the vector, and what happens between them (`other`): the rest of the program makes objects, and
takes and gives up references of its own. -/
inductive Session : State D → List (Entry D) → State D → Prop
  | nil (st : State D) : Session st [] st
  | other {st st' : State D} {h : Heap D} {ext : ℕ → ℕ} {trace : List (Entry D)} (hgrows : st.heap.Grows h)
      (hfresh : h.Fresh) (hnref : ∀ r, h.nref r = ext r + refsAll r st.vec.window)
      (rest : Session ⟨h, st.vec, ext⟩ trace st') : Session st trace st'
  | call {h h' : Heap D} {v v' : Vec D} {ext : ℕ → ℕ} {call : Call Value} {res : Except VecError Value}
      {trace : List (Entry D)} {st' : State D} (hexec : v.exec h call = some (res, h', v'))
      (rest : Session ⟨h', v', fun r => ext r + resultRefs r res⟩ trace st') :
      Session ⟨h, v, fun r => ext r + call.refs r⟩ (⟨v.win, call.map h.view, res.map h'.view⟩ :: trace) st'

/-- The sequence has the results of a trace, one after the other. -/
inductive Follows : Seq D → List (Entry D) → Seq D → Prop
  | nil (s : Seq D) : Follows s [] s
  | cons {s s' s'' : Seq D} {entry : Entry D} {trace : List (Entry D)}
      (hagrees : Agrees entry.win entry.call entry.res s s') (rest : Follows s' trace s'') :
      Follows s (entry :: trace) s''

theorem Session.follows {st st' : State D} {trace : List (Entry D)} (hsession : Session st trace st')
    (hinv : Inv st.heap st.vec st.ext s) : ∃ s', Follows s trace s' ∧ Inv st'.heap st'.vec st'.ext s' := by
  induction hsession generalizing s with
  | nil st => exact ⟨s, .nil s, hinv⟩
  | other hgrows hfresh hnref _ ih =>
    exact ih { hinv with holds := hinv.holds.grows hgrows, fresh := hfresh, nref := hnref }
  | call hexec _ ih =>
    obtain ⟨res, h', v', s', hexec', -, hinv', hagrees⟩ := hinv.exec
    obtain ⟨rfl, rfl, rfl⟩ : _ = _ ∧ _ = _ ∧ _ = _ := by
      simpa using hexec.symm.trans hexec'
    obtain ⟨s'', hfollows, hinv''⟩ := ih hinv'
    exact ⟨s'', .cons hagrees hfollows, hinv''⟩

/-! ## Construction -/

/-- `isnumber` or `isfloat`, and the double. -/
def Item.toDouble : Item D → Option D
  | .fix n => some (Doubles.ofInt n.1)
  | .float x => some x
  | _ => none

/-- `isnumber` -/
def Item.isFix : Item D → Bool
  | .fix _ => true
  | _ => false

/-- The elements of `vec`. -/
def Seq.filled (n : ℕ) : Item D → Seq D
  | .fix k => ⟨.i64, List.replicate n (.fix k)⟩
  | .float x => ⟨.f64, List.replicate n (.float x)⟩
  | x => ⟨.gen, List.replicate n x⟩

/-- The elements of `vector`. -/
def Seq.ofItems (xs : List (Item D)) : Seq D :=
  if xs.isEmpty || xs.any (fun x => x.toDouble.isNone) then ⟨.gen, xs⟩
  else if xs.all Item.isFix then ⟨.i64, xs⟩
  else ⟨.f64, xs.map fun x => .float (x.toDouble.getD (Doubles.ofInt 0))⟩

theorem holds_replicate {h : Heap D} {kind : Kind} {w : Word D} {x : Item D} (hw : w.item h kind = some x)
    (hrefs : ∀ r, w.refs r ≠ 0 → r < h.next) (n : ℕ) :
    Holds h kind (List.replicate n w) (List.replicate n x) := by
  induction n with
  | zero => exact ⟨rfl, fun r hr => absurd rfl hr⟩
  | succ n ih => exact Holds.cons.mpr ⟨⟨hw, hrefs⟩, ih⟩

omit [Doubles D] in
theorem refsAll_replicate (r n : ℕ) (w : Word D) : refsAll r (List.replicate n w) = n * w.refs r := by
  rw [refsAll, List.map_replicate, List.sum_replicate_nat]

omit [Doubles D] in
theorem window_whole (kind : Kind) {n : ℕ} {cells : List (Word D)} (hn : cells.length = n) :
    (⟨kind, ⟨n, 0, n⟩, cells⟩ : Vec D).window = cells := by
  simp [Vec.window, Window.len, ← hn]

/-- A vector whose window is all of its storage. -/
theorem Inv.whole {h : Heap D} {kind : Kind} {n : ℕ} (hn : n < capLimit) {cells : List (Word D)}
    (hlength : cells.length = n) {xs : List (Item D)} (hholds : Holds h kind cells xs) (hfresh : h.Fresh)
    {ext : ℕ → ℕ} (hnref : ∀ r, h.nref r = ext r + refsAll r cells) :
    Inv h ⟨kind, ⟨n, 0, n⟩, cells⟩ ext ⟨kind, xs⟩ where
  kind := rfl
  win := ⟨Nat.zero_le _, le_rfl, hn⟩
  length := hlength
  reads := hholds.reads
  holds := by
    rw [window_whole kind hlength]
    exact hholds
  fresh := hfresh
  nref := by
    rw [window_whole kind hlength]
    exact hnref

omit [Doubles D] in
theorem refexp_iterate (h : Heap D) (e : Value) (n : ℕ) :
    h.Grows ((fun h => h.refexp e)^[n] h) ∧ ((fun h => h.refexp e)^[n] h).obj = h.obj ∧
      ((fun h => h.refexp e)^[n] h).next = h.next ∧
      ∀ r, ((fun h => h.refexp e)^[n] h).nref r = h.nref r + n * e.refs r := by
  induction n with
  | zero => exact ⟨.refl h, rfl, rfl, fun r => by simp⟩
  | succ n ih =>
    obtain ⟨hgrows, hobj, hnext, hnref⟩ := ih
    rw [Function.iterate_succ_apply']
    refine ⟨hgrows.trans (Heap.grows_refexp _ e), (Heap.refexp_obj _ e).trans hobj,
      (Heap.refexp_next _ e).trans hnext, fun r => ?_⟩
    rw [Heap.refexp_nref, hnref, Nat.add_assoc, Nat.succ_mul]

omit [Doubles D] in
theorem vec_of_float {h : Heap D} {fill : Value} {x : D} (hx : h.toFloat fill = some x) (n : ℕ) :
    vec h n fill = (h.unrefexp fill, ⟨.f64, ⟨n, 0, n⟩, List.replicate n (.double x)⟩) := by
  unfold vec makeVector
  rw [hx]

omit [Doubles D] in
theorem vec_of_fix (h : Heap D) (k : Fixnum) (n : ℕ) :
    vec h n (.fix k) = (h, ⟨.i64, ⟨n, 0, n⟩, List.replicate n (.int k.1)⟩) := rfl

omit [Doubles D] in
theorem vec_of_other {h : Heap D} {fill : Value} (hfloat : h.toFloat fill = none) (hfix : ∀ k, fill ≠ .fix k)
    (n : ℕ) :
    vec h n fill = (((fun h => h.refexp fill)^[n] h).unrefexp fill,
      ⟨.gen, ⟨n, 0, n⟩, List.replicate n (.box fill)⟩) := by
  unfold vec makeVector
  rw [hfloat]
  cases fill with
  | fix k => exact absurd rfl (hfix k)
  | const | ref => rfl

section Built

variable {n : ℕ} {fill : Value}

theorem Inv.vec_other (hfresh : h.Fresh) (hn : n < capLimit) (hnref : ∀ r, h.nref r = ext r + fill.refs r)
    (hfloat : h.toFloat fill = none) (hfix : ∀ k, fill ≠ .fix k) :
    Inv (vec h n fill).1 (vec h n fill).2 ext ⟨.gen, List.replicate n (h.view fill)⟩ := by
  have hlt : ∀ r, fill.refs r ≠ 0 → r < h.next := fun r hr => hfresh.lt_next (by rw [hnref]; omega)
  obtain ⟨hgrows, hobj, hnext, hcount⟩ := refexp_iterate h fill n
  have hfresh' : ((fun h => h.refexp fill)^[n] h).Fresh := fun r hr => by
    rw [hnext] at hr
    have hzero : fill.refs r = 0 := by
      by_contra hne
      exact absurd (hlt r hne) (by omega)
    rw [hcount, hfresh r hr, hzero, Nat.mul_zero]
  rw [vec_of_other hfloat hfix]
  refine Inv.unrefexp (.whole hn (List.length_replicate ..) (holds_replicate ?_ ?_ n) hfresh' fun r => ?_)
  · rw [← Heap.view_congr hobj]
    rfl
  · exact fun r hr => (hlt r hr).trans_le hgrows.next_le
  · rw [hcount, hnref, refsAll_replicate, Word.refs]

theorem Inv.vec (hfresh : h.Fresh) (hn : n < capLimit) (hnref : ∀ r, h.nref r = ext r + fill.refs r) :
    Inv (vec h n fill).1 (vec h n fill).2 ext (.filled n (h.view fill)) := by
  cases fill with
  | fix k =>
    refine .whole hn (List.length_replicate ..) (holds_replicate ?_ (fun _ hr => absurd rfl hr) n) hfresh
      fun r => ?_
    · show some (if fixFits k.1 then Item.fix (makeFix k.1) else _) = _
      rw [if_pos (fixFits_fixnum k), makeFix_fixnum]
    · rw [hnref, refsAll_replicate]
      rfl
  | const c => exact .vec_other hfresh hn hnref rfl fun k => by simp
  | ref r =>
    cases hr : h.toFloat (.ref r) with
    | none =>
      have hinv := Inv.vec_other hfresh hn hnref hr fun k => by simp
      rwa [Heap.view_of_toFloat_none hr] at hinv ⊢
    | some x =>
      have hitem : (Word.double x).item h .f64 = some (.float x) := rfl
      rw [vec_of_float hr, Heap.view_of_toFloat hr]
      show Inv (h.unrefexp (.ref r)) _ ext ⟨.f64, List.replicate n (.float x)⟩
      refine Inv.unrefexp (.whole hn (List.length_replicate ..)
        (holds_replicate hitem (fun _ hr => absurd rfl hr) n) hfresh fun r => ?_)
      rw [hnref, refsAll_replicate]
      rfl

/-- The references that values take. -/
def valueRefs (r : ℕ) (es : List Value) : ℕ := (es.map (Value.refs r)).sum

theorem valueRefs_cons (r : ℕ) (e : Value) (es : List Value) :
    valueRefs r (e :: es) = e.refs r + valueRefs r es := List.sum_cons

theorem Heap.toDouble_view (e : Value) :
    (h.view e).toDouble.isNone = (!e.isFix && (h.toFloat e).isNone) := by
  cases e with
  | fix | const => rfl
  | ref r => cases hobj : h.obj r <;> simp [view, toFloat, Item.toDouble, Value.isFix, hobj]

omit [Doubles D] in
theorem Heap.isFix_view (e : Value) : (h.view e).isFix = e.isFix := by
  cases e with
  | fix | const => rfl
  | ref r => cases hobj : h.obj r <;> simp [view, Item.isFix, Value.isFix, hobj]

theorem holds_boxes {es : List Value} (hlt : ∀ r, valueRefs r es ≠ 0 → r < h.next) :
    Holds h .gen (es.map .box) (es.map h.view) ∧ ∀ r, refsAll r (es.map Word.box : List (Word D)) = valueRefs r es := by
  have hrefs : ∀ r, refsAll r (es.map Word.box : List (Word D)) = valueRefs r es := by
    intro r
    rw [refsAll, List.map_map]
    rfl
  refine ⟨⟨?_, fun r hr => hlt r (hrefs r ▸ hr)⟩, hrefs⟩
  rw [List.map_map, List.map_map]
  rfl

theorem holds_ints {es : List Value} (hfix : ∀ e ∈ es, e.isFix = true) :
    Holds h .i64 (es.map fun e => .int e.fixVal) (es.map h.view) ∧
      (∀ r, refsAll r (es.map fun e => (.int e.fixVal : Word D)) = 0) ∧ ∀ r, valueRefs r es = 0 := by
  induction es with
  | nil => exact ⟨⟨rfl, fun r hr => absurd rfl hr⟩, fun _ => rfl, fun _ => rfl⟩
  | cons e es ih =>
    obtain ⟨hholds, hwords, hvalues⟩ := ih fun e he => hfix e (List.mem_cons_of_mem _ he)
    have he := hfix e List.mem_cons_self
    cases e with
    | fix k =>
      refine ⟨Holds.cons.mpr ⟨⟨?_, fun r hr => absurd rfl hr⟩, hholds⟩, fun r => ?_, fun r => ?_⟩
      · show some (if fixFits k.1 then Item.fix (makeFix k.1) else _) = _
        rw [if_pos (fixFits_fixnum k), makeFix_fixnum]
        rfl
      · rw [List.map_cons, refsAll_cons, hwords]
        rfl
      · rw [valueRefs_cons, hvalues]
        rfl
    | const | ref => cases he

theorem tightenDoubles_fix (h : Heap D) (k : Fixnum) (es : List Value) :
    tightenDoubles h (.fix k :: es) =
      (.double (Doubles.ofInt k.1) :: (tightenDoubles h es).1, (tightenDoubles h es).2) := rfl

theorem tightenDoubles_other (h : Heap D) {e : Value} (he : ∀ k, e ≠ .fix k) (es : List Value) :
    tightenDoubles h (e :: es) =
      (.double ((h.toFloat e).getD (Doubles.ofInt 0)) :: (tightenDoubles (h.unrefexp e) es).1,
        (tightenDoubles (h.unrefexp e) es).2) := by
  cases e with
  | fix k => exact absurd rfl (he k)
  | const | ref => rfl

theorem Heap.toDouble_getD {e : Value} (he : ∀ k, e ≠ .fix k) (d : D) :
    (h.view e).toDouble.getD d = (h.toFloat e).getD d := by
  cases e with
  | fix k => exact absurd rfl (he k)
  | const => rfl
  | ref r => cases hobj : h.obj r <;> simp [view, toFloat, Item.toDouble, hobj]

/-- The words of doubles, and the heap without the references of the boxes. -/
structure Tightened (h : Heap D) (es : List Value) (ws : List (Word D)) (h' : Heap D) : Prop where
  holds : Holds h' .f64 ws (es.map fun e => .float ((h.view e).toDouble.getD (Doubles.ofInt 0)))
  refs : ∀ r, refsAll r ws = 0
  obj : h'.obj = h.obj
  next : h'.next = h.next
  nref : ∀ r, h'.nref r = h.nref r - valueRefs r es

theorem Tightened.cons {es : List Value} {ws : List (Word D)} {h₁ h' : Heap D} {e : Value}
    (ht : Tightened h₁ es ws h') (hobj : h₁.obj = h.obj) (hnext : h₁.next = h.next)
    (hnref : ∀ r, h₁.nref r = h.nref r - e.refs r) :
    Tightened h (e :: es) (.double ((h.view e).toDouble.getD (Doubles.ofInt 0)) :: ws) h' where
  holds := by
    have hmap : es.map (fun e => Item.float ((h₁.view e).toDouble.getD (Doubles.ofInt 0))) =
        es.map fun e => .float ((h.view e).toDouble.getD (Doubles.ofInt 0)) :=
      List.map_congr_left fun e _ => by rw [Heap.view_congr hobj]
    exact Holds.cons.mpr ⟨⟨rfl, fun r hr => absurd rfl hr⟩, hmap ▸ ht.holds⟩
  refs := fun r => by
    rw [refsAll_cons, ht.refs]
    rfl
  obj := ht.obj.trans hobj
  next := ht.next.trans hnext
  nref := fun r => by
    rw [ht.nref, hnref, valueRefs_cons]
    omega

theorem tightened (h : Heap D) (es : List Value) :
    Tightened h es (tightenDoubles h es).1 (tightenDoubles h es).2 := by
  induction es generalizing h with
  | nil =>
    exact ⟨⟨rfl, fun r hr => absurd rfl hr⟩, fun _ => rfl, rfl, rfl, fun _ => (Nat.sub_zero _).symm⟩
  | cons e es ih =>
    by_cases hfix : ∃ k, e = .fix k
    · obtain ⟨k, rfl⟩ := hfix
      rw [tightenDoubles_fix]
      exact (ih h).cons (e := .fix k) rfl rfl fun _ => (Nat.sub_zero _).symm
    · have he : ∀ k, e ≠ .fix k := fun k hk => hfix ⟨k, hk⟩
      rw [tightenDoubles_other h he, ← Heap.toDouble_getD he]
      exact (ih _).cons (h.unrefexp_obj e) (h.unrefexp_next e) (h.unrefexp_nref e)

theorem Inv.vector {es : List Value} (hfresh : h.Fresh) (hn : es.length < capLimit)
    (hnref : ∀ r, h.nref r = ext r + valueRefs r es) :
    Inv (vector h es).1 (vector h es).2 ext (.ofItems (es.map h.view)) := by
  have hlt : ∀ r, valueRefs r es ≠ 0 → r < h.next := fun r hr => hfresh.lt_next (by rw [hnref]; omega)
  have hany : (es.map h.view).any (fun x => x.toDouble.isNone) =
      es.any fun e => !e.isFix && (h.toFloat e).isNone := by
    rw [List.any_map]
    exact congrArg es.any (funext h.toDouble_view)
  have hall : (es.map h.view).all Item.isFix = es.all Value.isFix := by
    rw [List.all_map]
    exact congrArg es.all (funext h.isFix_view)
  rw [Seq.ofItems, Alcove.Vector.vector, hany, hall, List.isEmpty_map]
  dsimp only
  split_ifs with hgen hfix
  · obtain ⟨hholds, hrefs⟩ := holds_boxes hlt
    exact .whole hn (List.length_map _) hholds hfresh fun r => by rw [hnref, hrefs]
  · obtain ⟨hholds, hwords, hvalues⟩ := holds_ints (h := h) (List.all_eq_true.mp hfix)
    exact .whole hn (List.length_map _) hholds hfresh fun r => by rw [hnref, hwords, hvalues]
  · have ht := tightened h es
    have hlength : (tightenDoubles h es).1.length = es.length := by
      rw [ht.holds.length, List.length_map]
    rw [List.map_map]
    refine .whole hn hlength ht.holds (fun r hr => ?_) fun r => ?_
    · rw [ht.next] at hr
      rw [ht.nref, hfresh r hr, Nat.zero_sub]
    · rw [ht.nref, ht.refs, hnref]
      omega

end Built

/-- A vector that `vec` or `vector` has made of values that are owned, and its elements. -/
inductive Built : State D → Seq D → Prop
  | vec {h : Heap D} {ext : ℕ → ℕ} {n : ℕ} {fill : Value} (hfresh : h.Fresh) (hn : n < capLimit)
      (hnref : ∀ r, h.nref r = ext r + fill.refs r) :
      Built ⟨(vec h n fill).1, (vec h n fill).2, ext⟩ (.filled n (h.view fill))
  | vector {h : Heap D} {ext : ℕ → ℕ} {es : List Value} (hfresh : h.Fresh) (hn : es.length < capLimit)
      (hnref : ∀ r, h.nref r = ext r + valueRefs r es) :
      Built ⟨(vector h es).1, (vector h es).2, ext⟩ (.ofItems (es.map h.view))

/-- **Vectors.** In any sequence of calls on a vector that was made by `vec` or `vector` the results are those
of the sequence, and in the end the window lies in the storage, each object has the references of the boxed
cells and those elsewhere, and the next call does not fail to end either. -/
theorem vectors_agree {st st' : State D} {s : Seq D} (hbuilt : Built st s) {trace : List (Entry D)}
    (hsession : Session st trace st') :
    ∃ s', Follows s trace s' ∧ Inv st'.heap st'.vec st'.ext s' ∧
      ∀ call ext, (∀ r, st'.ext r = ext r + call.refs r) → Executes st'.heap st'.vec ext s' call := by
  have hinv : Inv st.heap st.vec st.ext s := by
    cases hbuilt with
    | vec hfresh hn hnref => exact .vec hfresh hn hnref
    | vector hfresh hn hnref => exact .vector hfresh hn hnref
  obtain ⟨s', hfollows, hinv'⟩ := hsession.follows hinv
  exact ⟨s', hfollows, hinv', fun call ext hext => (hinv'.congr fun r => (hext r).symm).exec⟩

/-- Doubles that are whole numbers. -/
instance : Doubles ℤ where
  ofInt n := n
  toInt x := x
  isNaN _ := false

/-- No objects. -/
def Heap.none : Heap ℤ := ⟨fun _ => .other, fun _ => 0, 0⟩

theorem built_fix {n : ℕ} (hn : n < capLimit) (k : Fixnum) :
    Built ⟨Heap.none, (vec Heap.none n (.fix k)).2, fun _ => 0⟩ (.filled n (.fix k)) := by
  have hbuilt : Built ⟨(vec Heap.none n (.fix k)).1, (vec Heap.none n (.fix k)).2, fun _ => 0⟩
      (.filled n (Heap.none.view (.fix k))) := .vec (fun _ _ => rfl) hn fun _ => rfl
  exact hbuilt

/-- `(vec-push! (vec 2 7) 8)` -/
theorem vectors_agree_push :
    ∃ s', Follows (.filled 2 (.fix (makeFix 7)))
      [⟨⟨2, 0, 2⟩, .push (.fix (makeFix 8)), (.ok (.fix (makeFix 8)) : Except VecError (Item ℤ))⟩] s' := by
  have hexec : (vec Heap.none 2 (.fix (makeFix 7))).2.exec Heap.none (.push (.fix (makeFix 8))) =
      some (.ok (.fix (makeFix 8)), Heap.none, ⟨.i64, ⟨8, 0, 3⟩,
        [.int 7, .int 7, .int 8, .zero, .zero, .zero, .zero, .zero]⟩) := rfl
  obtain ⟨s', hfollows, -⟩ := vectors_agree (built_fix (by decide) (makeFix 7)) (.call hexec (.nil _))
  exact ⟨s', hfollows⟩

/-- `(vec 2147483647 0)` does not take another element. -/
theorem push_grow_failed :
    ∃ (st : State ℤ) (s : Seq ℤ), Built st s ∧
      (st.vec.exec st.heap (.push (.fix (makeFix 0)))).map Prod.fst = some (.error .growFailed) ∧
      (s.exec (.push (.fix (makeFix 0)))).1 = .ok (.fix (makeFix 0)) := by
  have hfull {v : Vec ℤ} (hwin : v.win = ⟨2 ^ 31 - 1, 0, 2 ^ 31 - 1⟩) (h : Heap ℤ) (x : Value) :
      v.push h x = some (.error .growFailed, h.unrefexp x, v) := by
    have hroom : v.roomBack = none := by
      rw [Vec.roomBack, Vec.growBack, hwin, if_pos rfl, if_neg (by decide), if_pos (by decide)]
    rw [Vec.push, hroom]
  have hn : 2 ^ 31 - 1 < capLimit := by decide
  refine ⟨_, _, built_fix hn (makeFix 0), ?_, rfl⟩
  show (Vec.push (vec Heap.none (2 ^ 31 - 1) (.fix (makeFix 0))).2 Heap.none _).map Prod.fst = _
  rw [vec_of_fix, hfull rfl]
  rfl

end Alcove.Vector
