import Alcove.Sequence.Printer

/-!
# What a traversal sees of nil elements

`Built` is what the builders make of element values, in either tier, and `Sees` that a traversal does
for a collection what it should do for its elements, whatever a callback computes.

**Main results:** `Built.stored`, and `sees_iff`. `length`, `nth` and `seq` see all elements; `map`,
`each`, `filter`, `reduce` and `reverse` do exactly when no element is a NULL pointer, `reverse` only
of lists; the printer writes all of a list exactly when its first element is not NULL.
-/

namespace Alcove.Sequence

/-! ## Built collections -/

/-- `isnumber(c)` -/
def isFix : Exp → Bool
  | .fix _ => true
  | _ => false

/-- `isnumber(c) || isfloat(c)` -/
def isNum : Exp → Bool
  | .fix _ => true
  | .float _ => true
  | _ => false

/-- A number as a float -/
def asFloat : Exp → Exp
  | .fix n => .float (doubleOfInt n.1)
  | v => v

/-- The elements of a vector of the arguments: fixnums among floats become floats. -/
def tightened (args : List Exp) : List Exp :=
  if args.all isNum && !args.all isFix then args.map asFloat else args

/-- The number of cells of `(vec n init)` -/
def cellCount : Exp → ℕ
  | .fix n => n.1.toNat
  | _ => 0

/-- The collection is built from the elements. -/
inductive Built : Exp → List Exp → Prop
  | list (xs : List Exp) : Built (listcmd xs) xs
  | opList {xs stack rest : List Exp} {v : Exp}
      (h : opList xs.length (xs.reverse ++ stack) = v :: rest) : Built v xs
  | emptyTail : Built .null []
  | cons {tail : Exp} {xs : List Exp} (x : Exp) (ht : Built tail xs) (hl : notAList tail = false) :
      Built (conscmd x tail) (x :: xs)
  | opCons {tail x v : Exp} {xs stack rest : List Exp} (ht : Built tail xs)
      (hl : notAList tail = false) (h : opCons (tail :: x :: stack) = v :: rest) : Built v (x :: xs)
  | vector (xs : List Exp) : Built (vectorcmd xs) (tightened xs)
  | vec {n fill v : Exp} (h : veccmd n fill = .ok v) :
      Built v (List.replicate (cellCount n) fill)
  | opVecNew {n fill v : Exp} {stack : List Exp}
      (h : opVecNew (fill :: n :: stack) = .ok (v :: stack)) :
      Built v (List.replicate (cellCount n) fill)
  | map {σ : Type} {fn : Exp → Comp σ Exp} {coll : Exp} {s s' : σ} {ys : List Exp}
      (h : mapResults fn coll s = .ok (ys, s')) : Built (Exp.ofList ys) ys
  | deque (xs : List Exp) : Built (dequecmd xs) xs
  | pushRight {d d' x : Exp} {xs : List Exp} (hd : Built d xs)
      (h : pushrightbangcmd d x = .ok d') : Built d' (xs ++ [x])
  | pushLeft {d d' x : Exp} {xs : List Exp} (hd : Built d xs)
      (h : pushleftbangcmd d x = .ok d') : Built d' (x :: xs)
  | popRight {d d' x : Exp} {xs : List Exp} (hd : Built d xs)
      (h : poprightbangcmd d = .ok (x, d')) : Built d' xs.dropLast
  | popLeft {d d' x : Exp} {xs : List Exp} (hd : Built d xs)
      (h : popleftbangcmd d = .ok (x, d')) : Built d' xs.tail

variable {coll : Exp} {xs : List Exp}

theorem stored_conscmd {tail : Exp} (x : Exp) (h : Stored tail xs) (hl : notAList tail = false) :
    Stored (conscmd x tail) (x :: xs) := by
  have hcons : conscmd x tail = Exp.ofList (x :: xs) := by
    cases h with
    | null => rfl
    | list => cases xs <;> rfl
    | _ => cases hl
  exact hcons ▸ Stored.list (x :: xs)

theorem allFix_eq_some {xs : List Exp} {ns : List Fixnum} (h : allFix xs = some ns) :
    xs = ns.map .fix := by
  induction xs generalizing ns with
  | nil =>
    cases h
    rfl
  | cons x xs ih =>
    cases x with
    | fix n =>
      obtain ⟨ms, hms, rfl⟩ := Option.map_eq_some_iff.mp h
      rw [ih hms, List.map_cons]
    | _ => cases h

theorem allFix_isSome (xs : List Exp) : (allFix xs).isSome = xs.all isFix := by
  induction xs with
  | nil => rfl
  | cons x xs ih => cases x <;> simp [allFix, isFix, ih]

theorem allNum_eq_some {xs : List Exp} {ds : List UInt64} (h : allNum xs = some ds) :
    xs.map asFloat = ds.map .float := by
  induction xs generalizing ds with
  | nil =>
    cases h
    rfl
  | cons x xs ih =>
    cases x with
    | fix n =>
      obtain ⟨es, hes, rfl⟩ := Option.map_eq_some_iff.mp h
      rw [List.map_cons, ih hes]
      rfl
    | float b =>
      obtain ⟨es, hes, rfl⟩ := Option.map_eq_some_iff.mp h
      rw [List.map_cons, ih hes]
      rfl
    | _ => cases h

theorem allNum_isSome (xs : List Exp) : (allNum xs).isSome = xs.all isNum := by
  induction xs with
  | nil => rfl
  | cons x xs ih => cases x <;> simp [allNum, isNum, ih]

theorem stored_vectorcmd (args : List Exp) : Stored (vectorcmd args) (tightened args) := by
  have hfix := allFix_isSome args
  have hnum := allNum_isSome args
  rw [vectorcmd, vecTighten, tightened, ← hfix, ← hnum]
  cases hempty : args.isEmpty with
  | true =>
    rw [List.isEmpty_iff.mp hempty]
    exact Stored.vector []
  | false =>
    rw [if_neg Bool.false_ne_true]
    cases hf : allFix args with
    | some ns =>
      rw [if_neg (by simp), allFix_eq_some hf]
      exact Stored.vectorI64 ns
    | none =>
      cases hn : allNum args with
      | some ds =>
        rw [if_pos (by rfl), allNum_eq_some hn]
        exact Stored.vectorF64 ds
      | none => exact Stored.vector args

theorem stored_makeVector {n : ℕ} {fill v : Exp} (h : makeVector n fill = some v) :
    Stored v (List.replicate n fill) := by
  unfold makeVector at h
  split at h
  · cases h
  · cases fill with
    | fix k =>
      cases h
      simpa using Stored.vectorI64 (List.replicate n k)
    | float b =>
      cases h
      simpa using Stored.vectorF64 (List.replicate n b)
    | _ =>
      cases h
      exact Stored.vector _

theorem stored_veccmd {n fill v : Exp} (h : veccmd n fill = .ok v) :
    Stored v (List.replicate (cellCount n) fill) := by
  cases n with
  | fix n =>
    rw [veccmd] at h
    cases hv : makeVector n.1.toNat fill with
    | none =>
      rw [hv] at h
      cases h
    | some w =>
      rw [hv] at h
      cases h
      exact stored_makeVector hv
  | _ => cases h

theorem dequePush_eq {name : String} {push : List Exp → Exp → List Exp} {d d' x : Exp}
    (hd : Stored d xs) (h : dequePush name push d x = .ok d') : d' = .deque (push xs x) := by
  cases hd with
  | deque =>
    cases h
    rfl
  | list => cases xs <;> cases h
  | _ => cases h

theorem dequePop_eq {name : String} {last : List Exp → Option Exp} {rest : List Exp → List Exp}
    {d d' x : Exp} (hd : Stored d xs) (h : dequePop name last rest d = .ok (x, d')) :
    d' = .deque (rest xs) := by
  cases hd with
  | deque =>
    cases h
    rfl
  | list => cases xs <;> cases h
  | _ => cases h

theorem Built.stored (h : Built coll xs) : Stored coll xs := by
  induction h with
  | list xs => exact Stored.list xs
  | opList h =>
    rw [opList_stack] at h
    cases h
    exact Stored.list _
  | emptyTail => exact Stored.null
  | cons x _ hl ih => exact stored_conscmd x ih hl
  | opCons _ hl h ih =>
    cases h
    exact stored_conscmd _ ih hl
  | vector xs => exact stored_vectorcmd xs
  | vec h => exact stored_veccmd h
  | opVecNew h => exact stored_veccmd (opVecNew_stack.mp h)
  | map _ => exact Stored.list _
  | deque xs => exact Stored.deque xs
  | pushRight _ h ih => exact dequePush_eq ih h ▸ Stored.deque _
  | pushLeft _ h ih => exact dequePush_eq ih h ▸ Stored.deque _
  | popRight _ h ih => exact dequePop_eq ih h ▸ Stored.deque _
  | popLeft _ h ih => exact dequePop_eq ih h ▸ Stored.deque _

/-! ## Traversals -/

inductive Traversal
  | length | nth | map | each | filter | reduce | reverse | seq | print

/-- The traversal does for the collection what it should do for its elements. -/
def Sees : Traversal → Exp → List Exp → Prop
  | .length, coll, xs =>
    ∀ σ : Type, lengthcmd coll = (pure (.fix (makeFix xs.length)) : Comp σ Exp)
  | .nth, coll, xs => ∀ (σ : Type) (i : Fixnum),
    nthcmd (.fix i) coll = (pure (elementAt xs i.1) : Comp σ Exp) ∧
      nthcmd coll (.fix i) = (pure (elementAt xs i.1) : Comp σ Exp)
  | .map, coll, xs => ∀ (σ : Type) (fn : Exp → Comp σ Exp),
    mapcmd fn coll = Exp.ofList <$> xs.mapM fun x => nilOfNull <$> fn x
  | .each, coll, xs => ∀ (σ : Type) (body : Exp → Comp σ Unit), eachcmd body coll = xs.forM body
  | .filter, coll, xs => ∀ (σ : Type) (pred : Exp → Comp σ Exp),
    filtercmd pred coll = Exp.ofList <$> xs.filterM fun x => truthy <$> pred x
  | .reduce, coll, xs => ∀ (σ : Type) (fast : Option FastOp) (fn : Exp → Exp → Comp σ Exp) (acc : Exp),
    reducecmd fast fn acc coll = xs.foldlM (reduceStep fast fn) (nilOfNull acc)
  | .reverse, coll, xs =>
    ∀ σ : Type, reversecmd coll = (pure (Exp.ofList xs.reverse) : Comp σ Exp)
  | .seq, coll, xs => ∀ σ : Type, seqcmd coll = (pure (Exp.ofList xs) : Comp σ Exp)
  | .print, coll, xs => ∀ (P : Texts) (left : ℕ),
    printNode P (left + 1) coll = collText P left coll xs

/-- When it does: what its loop stops at does not occur. -/
def Meets (coll : Exp) (xs : List Exp) : Traversal → Prop
  | .length | .nth | .seq => True
  | .map | .each | .filter | .reduce => Exp.null ∉ xs
  | .reverse => notAList coll = false ∧ Exp.null ∉ xs
  | .print => notAList coll = false → xs.head? ≠ some .null

theorem takeWhile_nonNull : xs.takeWhile nonNull = xs ↔ Exp.null ∉ xs := by
  rw [List.takeWhile_eq_self_iff]
  simp only [nonNull_iff, ne_eq]
  exact ⟨fun h hmem => h _ hmem rfl, fun h x hx hnull => h (hnull ▸ hx)⟩

/-- A callback that counts its calls. -/
def tick : Comp ℕ Exp := fun s => .ok (.t, s + 1)

/-- A round of a loop counts one call. -/
def Counts {β : Type} (step : β → Exp → Comp ℕ β) : Prop :=
  ∀ acc x s, ∃ acc', step acc x s = .ok (acc', s + 1)

theorem Counts.foldlM {β : Type} {step : β → Exp → Comp ℕ β} (h : Counts step) (acc : β) (s : ℕ)
    (xs : List Exp) : ∃ acc', xs.foldlM step acc s = .ok (acc', s + xs.length) := by
  induction xs generalizing acc s with
  | nil => exact ⟨acc, rfl⟩
  | cons x xs ih =>
    obtain ⟨acc₁, h₁⟩ := h acc x s
    obtain ⟨acc₂, h₂⟩ := ih acc₁ (s + 1)
    refine ⟨acc₂, ?_⟩
    rw [List.length_cons, show s + (xs.length + 1) = s + 1 + xs.length by omega, ← h₂]
    exact congrArg (· >>= fun p => xs.foldlM step p.1 p.2) h₁

theorem map_ok {σ β δ : Type} {f : β → δ} {m : Comp σ β} {s s' : σ} {a : β} (h : m s = .ok (a, s')) :
    (f <$> m) s = .ok (f a, s') := by
  change (m s >>= fun p => pure (f p.1, p.2)) = _
  rw [h]
  rfl

/-- Loops over the elements and over those before the first NULL count the same calls only when no
element is NULL. -/
theorem Counts.notMem {β δ : Type} {step : β → Exp → Comp ℕ β} (h : Counts step) {acc : β}
    {f : β → δ} (heq : f <$> (xs.takeWhile nonNull).foldlM step acc = f <$> xs.foldlM step acc) :
    Exp.null ∉ xs := by
  obtain ⟨a, ha⟩ := h.foldlM acc 0 (xs.takeWhile nonNull)
  obtain ⟨b, hb⟩ := h.foldlM acc 0 xs
  have hrun := congrFun heq 0
  rw [map_ok ha, map_ok hb] at hrun
  have hlen : (xs.takeWhile nonNull).length = xs.length := by
    simpa using (Prod.mk.inj (Except.ok.inj hrun)).2
  exact takeWhile_nonNull.mp ((List.takeWhile_sublist _).eq_of_length hlen)

theorem mapM_eq_foldlM {σ : Type} (fn : Exp → Comp σ Exp) (xs : List Exp) :
    (xs.mapM fun x => nilOfNull <$> fn x) = xs.foldlM (mapStep fn) [] := by
  rw [foldlM_mapStep]
  simp only [List.nil_append, id_map']

theorem filterM_eq_foldlM {σ : Type} (pred : Exp → Comp σ Exp) (xs : List Exp) :
    (xs.filterM fun x => truthy <$> pred x) = xs.foldlM (filterStep pred) [] := by
  rw [foldlM_filterStep, List.reverse_nil, List.filterM]
  rfl

theorem ofList_inj {xs ys : List Exp} (h : Exp.ofList xs = Exp.ofList ys) : xs = ys := by
  have hcells : ∀ xs ys : List Exp, Exp.cells .null xs = Exp.cells .null ys → xs = ys := by
    intro xs
    induction xs with
    | nil =>
      intro ys h
      cases ys with
      | nil => rfl
      | cons y ys => cases h
    | cons x xs ih =>
      intro ys h
      cases ys with
      | nil => cases h
      | cons y ys =>
        injection h with hx hrest
        rw [hx, ih ys hrest]
  cases xs with
  | nil =>
    cases ys with
    | nil => rfl
    | cons y ys => cases h
  | cons x xs =>
    cases ys with
    | nil => cases h
    | cons y ys => exact hcells _ _ h

theorem pure_inj {σ β : Type} {a b : β} (s : σ) (h : (pure a : Comp σ β) = pure b) : a = b :=
  (Prod.mk.inj (Except.ok.inj (congrFun h s))).1

theorem sees_reverse_iff (h : Stored coll xs) :
    Sees .reverse coll xs ↔ notAList coll = false ∧ Exp.null ∉ xs := by
  cases hl : notAList coll with
  | true =>
    refine iff_of_false (fun hs => ?_) (fun hm => Bool.noConfusion hm.1)
    have hrun := congrFun (hs Unit) ()
    rw [reversecmd, hl] at hrun
    cases hrun
  | false =>
    constructor
    · intro hs
      have hrev := hs Unit
      rw [reversecmd_eq h hl] at hrev
      have heq := List.reverse_injective (ofList_inj (pure_inj () hrev))
      exact ⟨rfl, takeWhile_nonNull.mp heq⟩
    · rintro ⟨-, hn⟩ σ
      rw [reversecmd_eq h hl, takeWhile_nonNull.mpr hn]

theorem sees_print_iff (h : Stored coll xs) :
    Sees .print coll xs ↔ (notAList coll = false → xs.head? ≠ some .null) := by
  cases hl : notAList coll with
  | true =>
    refine iff_of_true (fun P left => printNode_cells P left h hl) (fun hf => ?_)
    cases hf
  | false =>
    have htext : ∀ (P : Texts) (left : ℕ), collText P left coll xs = listText (printNode P left) xs := by
      intro P left
      cases h with
      | null => rfl
      | list => cases xs <;> rfl
      | _ => cases hl
    have hprint : ∀ (P : Texts) (left : ℕ),
        printNode P (left + 1) coll = printNode P (left + 1) (Exp.ofList xs) := by
      intro P left
      cases h with
      | null => rfl
      | list => rfl
      | _ => cases hl
    constructor
    · intro hs _
      have hone := hs ⟨fun _ _ => [], fun _ => []⟩ 0
      rw [hprint, htext] at hone
      exact (printNode_list_iff _ 0 xs).mp hone
    · intro hne P left
      rw [hprint, htext]
      exact (printNode_list_iff P left xs).mpr (hne rfl)

theorem sees_iff (h : Built coll xs) (T : Traversal) : Sees T coll xs ↔ Meets coll xs T := by
  have hstored := h.stored
  cases T with
  | length => exact iff_of_true (fun σ => lengthcmd_eq hstored) trivial
  | nth => exact iff_of_true (fun σ i => nthcmd_eq hstored i) trivial
  | seq => exact iff_of_true (fun σ => seqcmd_eq hstored) trivial
  | map =>
    constructor
    · intro hs
      have heq := hs ℕ fun _ => tick
      rw [mapcmd_eq hstored, mapM_eq_foldlM, mapM_eq_foldlM] at heq
      exact Counts.notMem (fun _ _ _ => ⟨_, rfl⟩) heq
    · intro hn σ fn
      rw [mapcmd_eq hstored, takeWhile_nonNull.mpr hn]
  | each =>
    constructor
    · intro hs
      have heq := hs ℕ fun _ => (fun _ => ()) <$> tick
      rw [eachcmd_eq hstored, ← foldlM_forM, ← foldlM_forM] at heq
      exact Counts.notMem (fun _ _ _ => ⟨_, rfl⟩) (congrArg (id <$> ·) heq)
    · intro hn σ body
      rw [eachcmd_eq hstored, takeWhile_nonNull.mpr hn]
  | filter =>
    constructor
    · intro hs
      have heq := hs ℕ fun _ => tick
      rw [filtercmd_eq hstored, filterM_eq_foldlM, filterM_eq_foldlM] at heq
      exact Counts.notMem (fun _ _ _ => ⟨_, rfl⟩) heq
    · intro hn σ pred
      rw [filtercmd_eq hstored, takeWhile_nonNull.mpr hn]
  | reduce =>
    constructor
    · intro hs
      have heq := hs ℕ none (fun _ _ => tick) .nil
      rw [reducecmd_eq hstored] at heq
      exact Counts.notMem (fun _ _ _ => ⟨_, rfl⟩) (congrArg (id <$> ·) heq)
    · intro hn σ fast fn acc
      rw [reducecmd_eq hstored, takeWhile_nonNull.mpr hn]
  | reverse => exact sees_reverse_iff hstored
  | print => exact sees_print_iff hstored

theorem map_sees_singleton_nil : Sees .map (listcmd [.t, .nil]) [.t, .nil] :=
  (sees_iff (Built.list [.t, .nil]) .map).mpr (by simp [Meets])

/-- `(map f (list (cdr (list t)) t))` calls `f` on nothing. -/
theorem map_stops_at_nil : ¬ ∀ (coll : Exp) (xs : List Exp), Built coll xs →
    ∀ T : Traversal, Sees T coll xs := by
  intro h
  have hbuilt : Built (listcmd [cdrcmd (listcmd [.t]), .t]) [.null, .t] := Built.list _
  have hs := h _ _ hbuilt .map ℕ fun _ => tick
  have hrun := congrFun hs 0
  cases hrun

end Alcove.Sequence
