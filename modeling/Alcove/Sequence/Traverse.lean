import Alcove.Sequence.Builders
import Alcove.Value.Utf8
import Mathlib.Data.List.Basic

/-!
# Traversals

`length`, `nth`, `map`, `filter`, `reduce`, `each`, `reverse` and `seq`. All but `length` and
`reverse` take the cells of any collection as a list first (`collToList`); what a callback does is a
computation that may change a state, raise an error and return either shape of nil. The loops
`while (ispair(cur) && cur->content)` of `map`, `filter`, `reduce`, `each` and `reverse` are `walk`.

**Main results:** `walk_cells`, `mapcmd_eq`, `filtercmd_eq`, `reducecmd_eq`, `eachcmd_eq`,
`reversecmd_eq`, `lengthcmd_eq`, `nthcmd_eq`, `seqcmd_eq`. On a collection that stores given elements
the loops run over the elements before the first NULL, and `length`, `nth` and `seq` over all of them.
-/

namespace Alcove.Sequence

variable {σ β γ : Type}

/-- What a builtin that calls back computes. -/
abbrev Comp (σ : Type) := StateT σ (Except Failure)

/-- `if (!res) res = NIL_EXP;` -/
def nilOfNull : Exp → Exp
  | .null => .nil
  | v => v

/-- `res != NULL && res != NIL_EXP` -/
def truthy : Exp → Bool
  | .null => false
  | .nil => false
  | _ => true

/-- `NOT_A_LIST` -/
def notAList : Exp → Bool
  | .null => false
  | .nil => false
  | .pair _ _ => false
  | _ => true

/-- `!e` -/
def nonNull (e : Exp) : Bool := !e.isNull

@[simp]
theorem nonNull_iff {e : Exp} : nonNull e = true ↔ e ≠ .null := by
  cases e <;> simp [nonNull, Exp.isNull]

/-! ## The sequence protocol -/

/-- `coll_assoc_to_list` -/
def collAssocToList : Exp → Option Exp
  | .set d => some (Exp.ofList (d.entries.map Prod.snd))
  | .dict d => some (Exp.ofList (d.entries.map fun kv => Exp.cells .null [.string kv.1, kv.2]))
  | .hamt entries => some (Exp.ofList (entries.map fun kv => Exp.cells .null [kv.1, kv.2]))
  | _ => none

/-- `coll_to_list` -/
def collToList : Exp → Option Exp
  | .null => some .nil
  | .nil => some .nil
  | .pair content next => some (.pair content next)
  | .vector cells => some (Exp.ofList cells)
  | .vectorI64 cells => some (Exp.ofList (cells.map boxI64))
  | .vectorF64 cells => some (Exp.ofList (cells.map .float))
  | .string text => some (Exp.ofList ((utf8Chars text.bytes).map .char))
  | .deque vals => some (Exp.ofList vals)
  | coll => collAssocToList coll

/-- The list of a collection, or the error of a builtin that needs one. -/
def toSeq (message : String) (coll : Exp) : Comp σ Exp :=
  match collToList coll with
  | some seq => pure seq
  | none => throw (.illegalValue message)

/-! ## The loops -/

/-- `while (ispair(cur) && cur->content) { ...; cur = cur->next; }` -/
def walk (body : β → Exp → Comp σ β) : β → Exp → Comp σ β
  | acc, .pair content next =>
    if content.isNull then pure acc
    else body acc content >>= fun acc => walk body acc next
  | acc, _ => pure acc

/-- A round of `map`: the result gets a node behind those of the earlier rounds. -/
def mapStep (fn : Exp → Comp σ Exp) (done : List Exp) (x : Exp) : Comp σ (List Exp) := do
  let res ← fn x
  pure (done ++ [nilOfNull res])

/-- The nodes that `map` links. -/
def mapResults (fn : Exp → Comp σ Exp) (xs : Exp) : Comp σ (List Exp) := do
  let seq ← toSeq "map: second argument is not a sequence" xs
  walk (mapStep fn) [] seq

/-- `(map fn list)` -/
def mapcmd (fn : Exp → Comp σ Exp) (xs : Exp) : Comp σ Exp := Exp.ofList <$> mapResults fn xs

/-- A round of `filter` -/
def filterStep (pred : Exp → Comp σ Exp) (kept : List Exp) (x : Exp) : Comp σ (List Exp) := do
  let res ← pred x
  pure (if truthy res then kept ++ [x] else kept)

/-- `(filter pred xs)` -/
def filtercmd (pred : Exp → Comp σ Exp) (xs : Exp) : Comp σ Exp := do
  let seq ← toSeq "filter: second argument is not a sequence" xs
  Exp.ofList <$> walk (filterStep pred) [] seq

/-- The operation of a compiled `(fn (a b) (op a b))` -/
inductive FastOp
  | add | sub | mul

def FastOp.eval : FastOp → ℤ → ℤ → ℤ
  | add, a, b => a + b
  | sub, a, b => a - b
  | mul, a, b => a * b

/-- A round of `reduce`: two fixnums with a fixnum result do not call the function that is known to
do just that. -/
def reduceStep (fast : Option FastOp) (fn : Exp → Exp → Comp σ Exp) (acc x : Exp) : Comp σ Exp :=
  match fast, acc, x with
  | some op, .fix a, .fix b =>
    if fixFits (op.eval a.1 b.1) then pure (.fix (makeFix (op.eval a.1 b.1)))
    else nilOfNull <$> fn acc x
  | _, _, _ => nilOfNull <$> fn acc x

/-- `(reduce fn init xs)` -/
def reducecmd (fast : Option FastOp) (fn : Exp → Exp → Comp σ Exp) (acc xs : Exp) : Comp σ Exp := do
  let seq ← toSeq "reduce: third argument is not a sequence" xs
  walk (reduceStep fast fn) (nilOfNull acc) seq

/-- `(each var coll body ...)`: the body with the variable bound to a value. -/
def eachcmd (body : Exp → Comp σ Unit) (coll : Exp) : Comp σ Unit := do
  let seq ← toSeq "Illegal value (not seq) in each" coll
  walk (fun _ x => body x) () seq

/-- `(reverse xs)` -/
def reversecmd (xs : Exp) : Comp σ Exp :=
  if notAList xs then throw (.illegalValue "reverse: argument is not a list")
  else Exp.ofList <$> walk (fun acc x => pure (x :: acc)) [] xs

/-- `(seq coll)` -/
def seqcmd (coll : Exp) : Comp σ Exp := toSeq "seq: argument is not a sequence" coll

/-- The loop of `length` along `next` -/
def countPairs : Exp → ℕ
  | .pair _ next => countPairs next + 1
  | .nil => 1
  | _ => 0

/-- `(length x)`, from either tier -/
def lengthcmd : Exp → Comp σ Exp
  | .null => pure (.fix (makeFix 0))
  | .nil => pure (.fix (makeFix 0))
  | .string text => pure (.fix (makeFix (utf8Strlen text)))
  | .pair content next => pure (.fix (makeFix (countPairs (.pair content next))))
  | .vector cells => pure (.fix (makeFix cells.length))
  | .vectorI64 cells => pure (.fix (makeFix cells.length))
  | .vectorF64 cells => pure (.fix (makeFix cells.length))
  | .blob bytes => pure (.fix (makeFix bytes.length))
  | .deque vals => pure (.fix (makeFix vals.length))
  | _ => throw (.illegalValue "length: not a list/string/vector/blob")

/-- `while (idx > 0 && ispair(cur) && cur->next)`, and the content where it stops at the index. -/
def nthWalk : ℤ → Exp → Exp
  | idx, .pair content next =>
    if 0 < idx then (if next.isNull then .nil else nthWalk (idx - 1) next)
    else if idx = 0 then nilOfNull content else .nil
  | _, _ => .nil

/-- `(nth i coll)`, also with the operands swapped. -/
def nthcmd (a b : Exp) : Comp σ Exp :=
  let (idx, coll) := match a, b with
    | .fix i, b => (some i, b)
    | a, .fix i => (some i, a)
    | a, _ => (none, a)
  match idx, coll with
  | some _, .null => pure .nil
  | some i, coll => do
    let seq ← toSeq "nth: not a sequence" coll
    pure (nthWalk i.1 seq)
  | none, _ => pure .nil

/-! ## Collections and their elements -/

/-- The collection holds the elements: an empty list has either shape of nil. -/
inductive Stored : Exp → List Exp → Prop
  | null : Stored .null []
  | list (xs : List Exp) : Stored (Exp.ofList xs) xs
  | vector (xs : List Exp) : Stored (.vector xs) xs
  | vectorI64 (ns : List Fixnum) : Stored (.vectorI64 (ns.map (·.1))) (ns.map .fix)
  | vectorF64 (ds : List UInt64) : Stored (.vectorF64 ds) (ds.map .float)
  | deque (xs : List Exp) : Stored (.deque xs) xs

variable {coll : Exp} {xs : List Exp}

theorem boxI64_fixnum (n : Fixnum) : boxI64 n.1 = .fix n := by
  rw [boxI64, if_pos (fixFits_fixnum n), makeFix_fixnum]

theorem Stored.collToList (h : Stored coll xs) : collToList coll = some (Exp.ofList xs) := by
  cases h with
  | null => rfl
  | list => cases xs <;> rfl
  | vector => rfl
  | vectorI64 ns =>
    have hbox : (ns.map (·.1)).map boxI64 = ns.map Exp.fix := by
      rw [List.map_map]
      exact List.map_congr_left fun n _ => boxI64_fixnum n
    rw [Sequence.collToList, hbox]
  | vectorF64 ds => rfl
  | deque => rfl

theorem Stored.toSeq (h : Stored coll xs) (message : String) :
    (toSeq message coll : Comp σ Exp) = pure (Exp.ofList xs) := by
  rw [Sequence.toSeq, h.collToList]

/-! ## What the loops run over -/

theorem walk_cells (body : β → Exp → Comp σ β) (acc : β) :
    walk body acc (Exp.cells .null xs) = (xs.takeWhile nonNull).foldlM body acc := by
  induction xs generalizing acc with
  | nil => rfl
  | cons x xs ih =>
    rw [Exp.cells, walk, List.takeWhile_cons, nonNull]
    cases x.isNull with
    | true => rfl
    | false =>
      simp only [Bool.not_false, Bool.false_eq_true, if_false, if_true, List.foldlM_cons]
      exact bind_congr fun acc => ih acc

theorem walk_ofList (body : β → Exp → Comp σ β) (acc : β) :
    walk body acc (Exp.ofList xs) = (xs.takeWhile nonNull).foldlM body acc := by
  cases xs with
  | nil => rfl
  | cons x xs => exact walk_cells body acc

theorem foldlM_mapStep (fn : Exp → Comp σ Exp) (done : List Exp) :
    xs.foldlM (mapStep fn) done = (done ++ ·) <$> xs.mapM fun x => nilOfNull <$> fn x := by
  induction xs generalizing done with
  | nil => simp
  | cons x xs ih =>
    simp only [List.foldlM_cons, mapStep, ih, List.mapM_cons, bind_assoc, pure_bind, map_eq_pure_bind,
      List.append_assoc, List.singleton_append]

/-- Both append or prepend a kept element, one to what is kept and one to its reverse. -/
theorem foldlM_filterStep (pred : Exp → Comp σ Exp) (kept : List Exp) :
    xs.foldlM (filterStep pred) kept =
      List.reverse <$> xs.filterAuxM (fun x => truthy <$> pred x) kept.reverse := by
  induction xs generalizing kept with
  | nil => simp [List.filterAuxM]
  | cons x xs ih =>
    simp only [List.foldlM_cons, filterStep, List.filterAuxM, map_bind, bind_map_left, bind_assoc,
      pure_bind]
    refine bind_congr fun res => ?_
    cases truthy res with
    | true => rw [if_pos rfl, ih, List.reverse_append]; rfl
    | false => rw [if_neg Bool.false_ne_true, ih]; rfl

theorem foldlM_cons_reverse (acc : List Exp) :
    xs.foldlM (fun acc x => (pure (x :: acc) : Comp σ (List Exp))) acc = pure (xs.reverse ++ acc) := by
  induction xs generalizing acc with
  | nil => rfl
  | cons x xs ih => simp [ih]

/-! ## The traversals of a collection -/

theorem mapcmd_eq (h : Stored coll xs) (fn : Exp → Comp σ Exp) :
    mapcmd fn coll = Exp.ofList <$> (xs.takeWhile nonNull).mapM fun x => nilOfNull <$> fn x := by
  rw [mapcmd, mapResults, h.toSeq, pure_bind, walk_ofList, foldlM_mapStep]
  simp only [List.nil_append, id_map']

theorem filtercmd_eq (h : Stored coll xs) (pred : Exp → Comp σ Exp) :
    filtercmd pred coll =
      Exp.ofList <$> (xs.takeWhile nonNull).filterM fun x => truthy <$> pred x := by
  rw [filtercmd, h.toSeq, pure_bind, walk_ofList, foldlM_filterStep, List.reverse_nil, List.filterM]
  rfl

theorem reducecmd_eq (h : Stored coll xs) (fast : Option FastOp) (fn : Exp → Exp → Comp σ Exp)
    (acc : Exp) : reducecmd fast fn acc coll =
      (xs.takeWhile nonNull).foldlM (reduceStep fast fn) (nilOfNull acc) := by
  rw [reducecmd, h.toSeq, pure_bind, walk_ofList]

theorem foldlM_forM (body : Exp → Comp σ Unit) (xs : List Exp) :
    xs.foldlM (fun _ x => body x) () = xs.forM body := by
  induction xs with
  | nil => rfl
  | cons x xs ih =>
    rw [List.foldlM_cons]
    exact bind_congr fun _ => ih

theorem eachcmd_eq (h : Stored coll xs) (body : Exp → Comp σ Unit) :
    eachcmd body coll = (xs.takeWhile nonNull).forM body := by
  rw [eachcmd, h.toSeq, pure_bind, walk_ofList, foldlM_forM]

theorem reversecmd_eq (h : Stored coll xs) (hl : notAList coll = false) :
    reversecmd coll = (pure (Exp.ofList (xs.takeWhile nonNull).reverse) : Comp σ Exp) := by
  rw [reversecmd, hl, if_neg Bool.false_ne_true]
  cases h with
  | null => rfl
  | list => rw [walk_ofList, foldlM_cons_reverse, map_pure, List.append_nil]
  | _ => cases hl

theorem seqcmd_eq (h : Stored coll xs) : seqcmd coll = (pure (Exp.ofList xs) : Comp σ Exp) :=
  h.toSeq _

theorem countPairs_cells (xs : List Exp) : countPairs (Exp.cells .null xs) = xs.length := by
  induction xs with
  | nil => rfl
  | cons x xs ih => rw [Exp.cells, countPairs, ih, List.length_cons]

theorem lengthcmd_eq (h : Stored coll xs) :
    lengthcmd coll = (pure (.fix (makeFix xs.length)) : Comp σ Exp) := by
  cases h with
  | list =>
    cases xs with
    | nil => rfl
    | cons x xs =>
      have hcount := countPairs_cells (x :: xs)
      rw [Exp.cells] at hcount
      rw [Exp.ofList_of_ne_nil (List.cons_ne_nil x xs), Exp.cells, lengthcmd, hcount]
  | _ => simp [lengthcmd]

/-- The element at an index, as either shape of nil is returned; nil out of range. -/
def elementAt (xs : List Exp) (i : ℤ) : Exp :=
  if i < 0 then .nil else nilOfNull (xs[i.toNat]?.getD .nil)

theorem elementAt_neg {i : ℤ} (hi : i < 0) : elementAt xs i = .nil := if_pos hi

theorem elementAt_nil (i : ℤ) : elementAt [] i = .nil := by
  rw [elementAt]
  split <;> rfl

theorem elementAt_cons {i : ℤ} (hi : 0 < i) (x : Exp) :
    elementAt (x :: xs) i = elementAt xs (i - 1) := by
  have hback : (x :: xs)[i.toNat]? = xs[(i - 1).toNat]? := by
    rw [show i.toNat = (i - 1).toNat + 1 by omega, List.getElem?_cons_succ]
  rw [elementAt, elementAt, if_neg (by omega), if_neg (by omega), hback]

theorem nthWalk_cells (i : ℤ) (x : Exp) (xs : List Exp) :
    nthWalk i (Exp.cells .null (x :: xs)) = elementAt (x :: xs) i := by
  induction xs generalizing i x with
  | nil =>
    rw [Exp.cells, Exp.cells, nthWalk]
    rcases lt_trichotomy i 0 with hi | rfl | hi
    · rw [if_neg (by omega), if_neg (by omega), elementAt_neg hi]
    · rfl
    · rw [if_pos hi, elementAt_cons hi, elementAt_nil]
      rfl
  | cons y ys ih =>
    rw [Exp.cells, nthWalk, ih]
    rcases lt_trichotomy i 0 with hi | rfl | hi
    · rw [if_neg (by omega), if_neg (by omega), elementAt_neg hi]
    · rfl
    · rw [if_pos hi, elementAt_cons hi]
      rfl

theorem nthWalk_ofList (i : ℤ) (xs : List Exp) : nthWalk i (Exp.ofList xs) = elementAt xs i := by
  cases xs with
  | nil => rw [elementAt_nil]; rfl
  | cons x xs => exact nthWalk_cells i x xs

theorem nthcmd_eq (h : Stored coll xs) (i : Fixnum) :
    nthcmd (.fix i) coll = (pure (elementAt xs i.1) : Comp σ Exp) ∧
      nthcmd coll (.fix i) = (pure (elementAt xs i.1) : Comp σ Exp) := by
  have hseq : (do let seq ← toSeq "nth: not a sequence" coll; pure (nthWalk i.1 seq)) =
      (pure (elementAt xs i.1) : Comp σ Exp) := by
    rw [h.toSeq, pure_bind, nthWalk_ofList]
  cases h with
  | null => exact ⟨by rw [elementAt_nil]; rfl, by rw [elementAt_nil]; rfl⟩
  | list => cases xs <;> exact ⟨hseq, hseq⟩
  | _ => exact ⟨hseq, hseq⟩

end Alcove.Sequence
