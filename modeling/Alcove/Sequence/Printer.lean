import Alcove.Json.Encode
import Alcove.Sequence.Traverse

/-!
# The printer of lists, vectors and deques

`print_node` down to a number of levels, beyond which it writes three dots. The text of a value that
is not nil, a fixnum, a list, a vector or a deque is a parameter (`Texts`). A list is written pair by
pair: the content of the first one only when it is not NULL, and at most 10000 more. `listText` and
`collText` are the texts of elements, whatever holds them.

**Main results:** `printNode_list_iff` and `printNode_cells`. A list is written as the text of its
elements exactly when its first element is not NULL, a vector or a deque always.
-/

namespace Alcove.Sequence

/-- The parts of the printer that look at no list, vector or deque: the value of another type, at a
number of levels, and `%lf`. -/
structure Texts where
  other : ℕ → Exp → List UInt8
  double : UInt64 → List UInt8

/-- `\x1B[92m%lld\x1B[39m` -/
def numberText (n : ℤ) : List UInt8 :=
  [0x1B, 91, 57, 50, 109] ++ Json.formatInt n ++ [0x1B, 91, 51, 57, 109]

/-- `nil` -/
def nilText : List UInt8 := [110, 105, 108]

/-- Three dots -/
def dots : List UInt8 := [46, 46, 46]

variable {α : Type} (text : Exp → List UInt8)

/-- The loop over the cells of a vector or the nodes of a deque: a space before each but the first. -/
def printCells (text : α → List UInt8) : Bool → List α → List UInt8
  | _, [] => []
  | first, x :: xs => (if first then [] else [32]) ++ text x ++ printCells text false xs

/-- `while ((node = node->next))`, after `elcount` rounds. -/
def printNext : ℕ → Exp → List UInt8
  | _, .null => []
  | elcount, .pair content next =>
    32 :: text content ++
      if 10000 ≤ elcount + 1 then 32 :: dots else printNext (elcount + 1) next
  | elcount, .nil => 32 :: text .null ++ if 10000 ≤ elcount + 1 then 32 :: dots else []
  | _, node => [32, 46, 32] ++ text node

/-- `print_node` with a number of levels left under `PRINT_NODE_MAX_DEPTH` -/
def printNode (P : Texts) : ℕ → Exp → List UInt8
  | 0, _ => dots
  | left + 1, node =>
    match node with
    | .null => nilText
    | .nil => nilText
    | .fix n => numberText n.1
    | .pair content next =>
      if content.isNull && next.isNull then nilText
      else [40] ++ (if content.isNull then [] else printNode P left content) ++
        printNext (printNode P left) 0 next ++ [41]
    | .vector cells => [35, 91] ++ printCells (printNode P left) true cells ++ [93]
    | .vectorI64 cells => [35, 91] ++ printCells numberText true cells ++ [93]
    | .vectorF64 cells => [35, 91] ++ printCells P.double true cells ++ [93]
    | .deque vals => [40] ++ printCells (printNode P left) true vals ++ [41]
    | node => P.other left node

/-! ## The text of elements -/

/-- The elements of a list: after 10001 of them, three dots. -/
def listText (xs : List Exp) : List UInt8 :=
  if xs.isEmpty then nilText
  else [40] ++ List.intercalate [32] ((xs.take 10001).map text) ++
    (if 10001 ≤ xs.length then 32 :: dots else []) ++ [41]

/-- A number in a vector of numbers -/
def scalarText (P : Texts) : Exp → List UInt8
  | .fix n => numberText n.1
  | .float bits => P.double bits
  | _ => []

/-- The elements of a collection of the same type as `coll`. -/
def collText (P : Texts) (left : ℕ) (coll : Exp) (xs : List Exp) : List UInt8 :=
  match coll with
  | .vector _ => [35, 91] ++ List.intercalate [32] (xs.map (printNode P left)) ++ [93]
  | .vectorI64 _ => [35, 91] ++ List.intercalate [32] (xs.map (scalarText P)) ++ [93]
  | .vectorF64 _ => [35, 91] ++ List.intercalate [32] (xs.map (scalarText P)) ++ [93]
  | .deque _ => [40] ++ List.intercalate [32] (xs.map (printNode P left)) ++ [41]
  | _ => listText (printNode P left) xs

theorem intercalate_eq_flatMap (text : α → List UInt8) (x : α) (xs : List α) :
    List.intercalate [32] ((x :: xs).map text) = text x ++ xs.flatMap (fun y => 32 :: text y) := by
  induction xs generalizing x with
  | nil => simp
  | cons y ys ih =>
    rw [List.map_cons, List.map_cons, List.intercalate_cons_cons, ← List.map_cons, ih]
    simp

theorem printCells_rest (text : α → List UInt8) (xs : List α) :
    printCells text false xs = xs.flatMap (fun y => 32 :: text y) := by
  induction xs with
  | nil => rfl
  | cons x xs ih => rw [printCells, ih, List.flatMap_cons]; rfl

theorem printCells_eq (text : α → List UInt8) (xs : List α) :
    printCells text true xs = List.intercalate [32] (xs.map text) := by
  cases xs with
  | nil => rfl
  | cons x xs =>
    rw [intercalate_eq_flatMap, printCells, printCells_rest]
    rfl

theorem printNext_cells {k : ℕ} (hk : k < 10000) (xs : List Exp) :
    printNext text k (Exp.cells .null xs) =
      (xs.take (10000 - k)).flatMap (fun y => 32 :: text y) ++
        if 10000 ≤ k + xs.length then 32 :: dots else [] := by
  induction xs generalizing k with
  | nil =>
    rw [List.length_nil, if_neg (by omega), List.take_nil]
    rfl
  | cons x xs ih =>
    obtain ⟨n, hn⟩ : ∃ n, 10000 - k = n + 1 := ⟨10000 - k - 1, by omega⟩
    rw [Exp.cells, printNext, hn, List.take_succ_cons, List.flatMap_cons, List.length_cons]
    by_cases hlast : 10000 ≤ k + 1
    · have hn0 : n = 0 := by omega
      rw [if_pos hlast, if_pos (by omega), hn0, List.take_zero, List.flatMap_nil, List.append_nil]
    · have hn' : n = 10000 - (k + 1) := by omega
      rw [if_neg hlast, ih (by omega), hn', List.append_assoc,
        show k + 1 + xs.length = k + (xs.length + 1) by omega]

/-- What is written of a list behind its first pair. -/
theorem listText_cons (x : Exp) (xs : List Exp) :
    listText text (x :: xs) = [40] ++ text x ++ printNext text 0 (Exp.cells .null xs) ++ [41] := by
  rw [listText, if_neg (by simp), List.take_succ_cons, intercalate_eq_flatMap,
    printNext_cells text (by decide), List.length_cons]
  simp only [Nat.add_le_add_iff_right, show 10001 = 10000 + 1 from rfl, Nat.sub_zero, Nat.zero_add,
    List.append_assoc]

theorem length_printNode_null (P : Texts) (left : ℕ) : (printNode P left .null).length = 3 := by
  cases left <;> rfl

theorem printNode_list_iff (P : Texts) (left : ℕ) (xs : List Exp) :
    printNode P (left + 1) (Exp.ofList xs) = listText (printNode P left) xs ↔
      xs.head? ≠ some .null := by
  cases xs with
  | nil => simp [Exp.ofList, printNode, listText]
  | cons x xs =>
    rw [Exp.ofList_of_ne_nil (List.cons_ne_nil x xs), Exp.cells, printNode, listText_cons,
      List.head?_cons]
    cases hx : x.isNull with
    | false =>
      have hne : x ≠ .null := nonNull_iff.mp (by rw [nonNull, hx]; rfl)
      simp [hne]
    | true =>
      obtain rfl : x = .null := by cases x <;> first | rfl | cases hx
      have hlen := length_printNode_null P left
      refine iff_of_false (fun heq => ?_) (by simp)
      cases xs with
      | nil => simp [Exp.cells, nilText, Exp.isNull] at heq
      | cons y ys =>
        have hlength := congrArg List.length heq
        simp [Exp.cells, Exp.isNull, hlen] at hlength

/-- A vector or a deque is written cell by cell. -/
theorem printNode_cells (P : Texts) (left : ℕ) {coll : Exp} {xs : List Exp} (h : Stored coll xs)
    (hl : notAList coll = true) : printNode P (left + 1) coll = collText P left coll xs := by
  cases h with
  | null => cases hl
  | list => cases xs <;> cases hl
  | vector => rw [printNode, collText, printCells_eq]
  | vectorI64 ns => rw [printNode, collText, printCells_eq, List.map_map, List.map_map]; rfl
  | vectorF64 ds => rw [printNode, collText, printCells_eq, List.map_map]; rfl
  | deque => rw [printNode, collText, printCells_eq]

end Alcove.Sequence
