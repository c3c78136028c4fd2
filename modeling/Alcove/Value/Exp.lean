import Alcove.Lib.Checked
import Alcove.Value.Dict

/-!
# Values

`exp_t` as a tree. A tagged immediate or a heap object is one constructor with the fields that its
type uses; the two shapes of nil, the NULL pointer and the singleton `NIL_EXP` (an empty pair), are
`null` and `nil`, and any other pair is a `pair` of its `content` and `next`, as the source walks it.
`Exp.elems` is the loop over a list that stops at the first cell without content. A fixnum carries
its range (`Fixnum`), a float is its 64 bits.
-/

namespace Alcove

open Lib

/-! ## Immediates and floats -/

/-- The value of a tagged fixnum: three bits of the 64 hold the tag. -/
def Fixnum : Type := {n : ℤ // Fits 61 n}
  deriving DecidableEq

/-- `FIX_VAL(MAKE_FIX(v))`: the upper three bits are shifted out. -/
def makeFix (v : ℤ) : Fixnum :=
  ⟨v.bmod (2 ^ 61), by
    have hlo := Int.le_bmod (x := v) (m := 2 ^ 61) (by decide)
    have hhi := Int.bmod_lt (x := v) (m := 2 ^ 61) (by decide)
    constructor <;> omega⟩

/-- `FIX_FITS` -/
def fixFits (v : ℤ) : Bool := (makeFix v).1 = v

/-- A number between two powers of two, rounded to 53 bits (ties to even), as a double. -/
def doubleOfNat (m : ℕ) : UInt64 :=
  if m = 0 then 0
  else
    let e := m.log2
    if e ≤ 52 then UInt64.ofNat ((e + 1023) * 2 ^ 52 + (m * 2 ^ (52 - e) - 2 ^ 52))
    else
      let q := m / 2 ^ (e - 52)
      let r := m % 2 ^ (e - 52)
      let half := 2 ^ (e - 53)
      let rounded := if half < r ∨ r = half ∧ q % 2 = 1 then q + 1 else q
      UInt64.ofNat ((e + 1023) * 2 ^ 52 + (rounded - 2 ^ 52))

/-- `(double)v` -/
def doubleOfInt (v : ℤ) : UInt64 :=
  if v < 0 then doubleOfNat v.natAbs + 0x8000000000000000 else doubleOfNat v.natAbs

/-- `(double)f` of a float, both as bits; a signalling NaN becomes quiet. -/
def doubleOfFloat (bits : UInt32) : UInt64 :=
  let sign := bits.toNat / 2 ^ 31 * 2 ^ 63
  let e := bits.toNat / 2 ^ 23 % 256
  let f := bits.toNat % 2 ^ 23
  UInt64.ofNat <| sign +
    if e = 255 then
      if f = 0 then 2047 * 2 ^ 52 else 2047 * 2 ^ 52 + 2 ^ 51 + f % 2 ^ 22 * 2 ^ 29
    else if e = 0 then
      if f = 0 then 0 else (f.log2 + 874) * 2 ^ 52 + (f * 2 ^ (52 - f.log2) - 2 ^ 52)
    else (e + 896) * 2 ^ 52 + f * 2 ^ 29

/-! ## Values -/

/-- The types of a value that no codec looks into; a type that a module registered has its id and the
object its payload. -/
inductive ForeignType
  | error | internal | internalExpander | ffi | tree | circular | continuation | port | weak
  | custom (id : ℕ) (ptr : ℕ)
  deriving DecidableEq

/-- `exp_t *` -/
inductive Exp
  | null
  | nil
  | t
  | fix (n : Fixnum)
  | char (c : UInt32)
  | type (id : UInt32)
  | float (bits : UInt64)
  | string (text : CStr)
  | symbol (text : CStr)
  | blob (bytes : List UInt8)
  | rational (num den : ℤ)
  | decimal (coef : ℤ) (scale : ℤ)
  | pair (content next : Exp)
  | vector (cells : List Exp)
  | vectorI64 (cells : List ℤ)
  | vectorF64 (cells : List UInt64)
  | dict (d : Dict Exp)
  | set (d : Dict Exp)
  | deque (vals : List Exp)
  | hamt (entries : List (Exp × Exp))
  | lambda (multi : Bool) (name : CStr) (params body : Exp)
  | expander (name : CStr) (params body : Exp)
  | foreign (type : ForeignType)

namespace Exp

/-- `!e` -/
def isNull : Exp → Bool
  | null => true
  | _ => false

/-- The contents that `for (p = v; p && ispair(p) && p->content; p = p->next)` meets. -/
def elems : Exp → List Exp
  | pair null _ => []
  | pair content next => content :: elems next
  | _ => []

/-- The list that `list_append_owned` builds, with its last cell before `tail`. -/
def cells (tail : Exp) : List Exp → Exp
  | [] => tail
  | x :: xs => pair x (cells tail xs)

/-- A fresh list, or nil when it has no element. -/
def ofList (xs : List Exp) : Exp := if xs.isEmpty then nil else cells null xs

@[simp]
theorem elems_null : elems null = [] := rfl

@[simp]
theorem elems_nil : elems nil = [] := rfl

@[simp]
theorem elems_pair {content next : Exp} (h : content ≠ null) :
    elems (pair content next) = content :: elems next := by
  cases content <;> first | rfl | exact absurd rfl h

@[simp]
theorem elems_pair_null {next : Exp} : elems (pair null next) = [] := rfl

/-- Both shapes of nil end a list. -/
theorem elems_cells {xs : List Exp} {tail : Exp} (hxs : ∀ x ∈ xs, x ≠ null)
    (htail : tail = null ∨ tail = nil) : elems (cells tail xs) = xs := by
  induction xs with
  | nil => rcases htail with rfl | rfl <;> rfl
  | cons x xs ih =>
    rw [cells, elems_pair (hxs x List.mem_cons_self), ih fun y hy => hxs y (List.mem_cons_of_mem _ hy)]

theorem ofList_of_ne_nil {xs : List Exp} (h : xs ≠ []) : ofList xs = cells null xs := by
  cases xs with
  | nil => exact absurd rfl h
  | cons x xs => rfl

end Exp

theorem makeFix_val {v : ℤ} (h : Fits 61 v) : (makeFix v).1 = v := by
  obtain ⟨h1, h2⟩ := h
  apply Int.bmod_eq_of_le
  · omega
  · omega

theorem fixFits_iff {v : ℤ} : fixFits v ↔ Fits 61 v := by
  rw [fixFits, decide_eq_true_iff]
  exact ⟨fun h => h ▸ (makeFix v).2, makeFix_val⟩

theorem makeFix_fixnum (n : Fixnum) : makeFix n.1 = n := Subtype.ext (makeFix_val n.2)

theorem fixFits_fixnum (n : Fixnum) : fixFits n.1 := fixFits_iff.mpr n.2

end Alcove
