import Alcove.Sequence.Traverse
import Alcove.Numeric.Unrounded
import Alcove.Numeric.Rounded
import Alcove.Value.Binary64
import Mathlib.Data.Int.ConditionallyCompleteOrder
import Mathlib.Data.List.Sort

/-!
# `sort` and `sort-by`

`sort_cmp_default` orders fixnums, floats and strings by value, a fixnum and a float as doubles, and
everything else by type. So the numbers are not in their order where a rational or a decimal is among them,
and a float that several fixnums round to is equal to all of them (`sort_iff`).

`qsort` is a parameter: it sorts where the comparison is a strict weak order.
-/

namespace Alcove.Sort

open Lib Numeric Binary64 Sequence

/-! ## The comparison -/

/-- `EXP_MAXSIZE` -/
def expMaxsize : ℕ := 27

/-- `TYPEOF_E` of a value that no codec looks into. -/
def foreignTypeOf : ForeignType → ℤ
  | .error => 8
  | .internal => 11
  | .internalExpander => 13
  | .ffi => 14
  | .tree => 15
  | .circular => 16
  | .continuation => 24
  | .port => 25
  | .weak => 26
  | .custom id _ => id

/-- `TYPEOF_E`; `t` is a symbol and `nil` a pair. -/
def typeOf : Exp → ℤ
  | .null => 0
  | .type _ => 0
  | .symbol _ => 1
  | .t => 1
  | .fix _ => 2
  | .float _ => 3
  | .string _ => 4
  | .char _ => 5
  | .vector _ => 7
  | .vectorI64 _ => 7
  | .vectorF64 _ => 7
  | .nil => 9
  | .pair _ _ => 9
  | .lambda _ _ _ _ => 10
  | .expander _ _ _ => 12
  | .blob _ => 17
  | .dict _ => 18
  | .deque _ => 19
  | .set _ => 20
  | .hamt _ => 21
  | .rational _ _ => 22
  | .decimal _ _ => 23
  | .foreign type => foreignTypeOf type

/-- `x < y ? -1 : x > y ? 1 : 0` -/
def compareDoubles (x y : UInt64) : ℤ := if lt x y then -1 else if lt y x then 1 else 0

/-- `sort_cmp_default` -/
def sortCmpDefault : Exp → Exp → ℤ
  | .fix a, .fix b => Builtin.threeWay a.1 b.1
  | .float x, .float y =>
    if Hamt.isNaN x then if Hamt.isNaN y then 0 else 1
    else if Hamt.isNaN y then -1
    else compareDoubles x y
  | .fix a, .float y => if Hamt.isNaN y then -1 else compareDoubles (doubleOfInt a.1) y
  | .float x, .fix b => if Hamt.isNaN x then 1 else compareDoubles x (doubleOfInt b.1)
  | .string s, .string t => Builtin.strcmp s.bytes t.bytes
  | x, y => typeOf x - typeOf y

/-! ## The builtins -/

inductive SortError (E : Type)
  | notAList
  | tooLarge
  | raised (e : E)

/-- `qsort` on an array of any type. -/
abbrev Qsort : Type 1 := ∀ {α : Type}, (α → α → ℤ) → List α → List α

/-- `INT_MAX` -/
def intMax : ℕ := 2 ^ 31 - 1

/-- `sort` of a list. -/
def sortElems {E : Type} (qsort : Qsort) (xs : List Exp) : Except (SortError E) Exp :=
  if intMax < xs.length then .error .tooLarge
  else .ok (.ofList (qsort sortCmpDefault xs))

/-- `(sort xs)` -/
def sortcmd {E : Type} (qsort : Qsort) : Exp → Except (SortError E) Exp
  | .null => .ok .nil
  | .nil => .ok .nil
  | .pair content next => sortElems qsort (Exp.elems (.pair content next))
  | _ => .error .notAList

/-- The elements with their keys, where the function was called `i` times already. The function may have
another result each time it is called. -/
def keyed {E : Type} (fn : ℕ → Exp → Except E Exp) : ℕ → List Exp → Except E (List (Exp × Exp))
  | _, [] => .ok []
  | i, x :: xs => do
    let key ← fn i x
    let rest ← keyed fn (i + 1) xs
    return (x, nilOfNull key) :: rest

/-- `sort_cmp_by` -/
def sortCmpBy (a b : Exp × Exp) : ℤ := sortCmpDefault a.2 b.2

/-- `sort-by` of a list. -/
def sortByElems {E : Type} (qsort : Qsort) (fn : ℕ → Exp → Except E Exp) (xs : List Exp) :
    Except (SortError E) Exp :=
  if intMax < xs.length then .error .tooLarge
  else
    match keyed fn 0 xs with
    | .error e => .error (.raised e)
    | .ok pairs => .ok (.ofList ((qsort sortCmpBy pairs).map Prod.fst))

/-- `(sort-by key-fn xs)` -/
def sortbycmd {E : Type} (qsort : Qsort) (fn : ℕ → Exp → Except E Exp) : Exp → Except (SortError E) Exp
  | .null => .ok .nil
  | .nil => .ok .nil
  | .pair content next => sortByElems qsort fn (Exp.elems (.pair content next))
  | _ => .error .notAList

/-! ## Sorting right -/

/-- A comparison is a strict weak order on a list. -/
structure StrictWeak {α : Type} (cmp : α → α → ℤ) (xs : List α) : Prop where
  swap : ∀ x ∈ xs, ∀ y ∈ xs, cmp x y < 0 ↔ 0 < cmp y x
  trans : ∀ x ∈ xs, ∀ y ∈ xs, ∀ z ∈ xs, cmp x y < 0 → cmp y z < 0 → cmp x z < 0
  equal_trans : ∀ x ∈ xs, ∀ y ∈ xs, ∀ z ∈ xs, cmp x y = 0 → cmp y z = 0 → cmp x z = 0

/-- `qsort` sorts where the comparison is a strict weak order. -/
def Sorts (qsort : Qsort) : Prop :=
  ∀ {α : Type} (cmp : α → α → ℤ) (xs : List α), StrictWeak cmp xs →
    (qsort cmp xs).Perm xs ∧ (qsort cmp xs).Pairwise fun x y => cmp x y ≤ 0

/-- The number that a value is exactly: a fixnum, a rational, a decimal, or a float that is an integer. -/
def exactValue : Exp → Option ℚ
  | .fix n => some n.1
  | .rational num den => some (num / den)
  | .decimal coef scale => some (decValue coef scale)
  | .float bits => (toInt? bits).map fun z : ℤ => (z : ℚ)
  | _ => none

/-- The comparison of the numbers in a list is that of their values. -/
def Numerical (keys : List Exp) : Prop :=
  ∀ v ∈ keys, ∀ w ∈ keys, ∀ p q, exactValue v = some p → exactValue w = some q →
    (sortCmpDefault v w < 0 ↔ p < q)

/-- `(sort xs)` is right for the list `xs`: the comparison is a strict weak order of its elements and that of
its numbers, and the result are the elements in this order. -/
def SortRight (xs : Exp) : Prop :=
  StrictWeak sortCmpDefault xs.elems ∧ Numerical xs.elems ∧
    ∀ qsort, Sorts qsort → ∃ ys : List Exp, sortcmd qsort xs = (.ok (.ofList ys) : Except (SortError Empty) Exp) ∧
      ys.Perm xs.elems ∧ ys.Pairwise fun x y => sortCmpDefault x y ≤ 0

/-- `(sort-by fn xs)` is right for the list `xs`, whose elements have the keys in `pairs`. -/
def SortByRight {E : Type} (fn : ℕ → Exp → Except E Exp) (xs : Exp) (pairs : List (Exp × Exp)) : Prop :=
  StrictWeak sortCmpBy pairs ∧ Numerical (pairs.map Prod.snd) ∧
    ∀ qsort, Sorts qsort → ∃ qs : List (Exp × Exp), sortbycmd qsort fn xs = .ok (.ofList (qs.map Prod.fst)) ∧
      qs.Perm pairs ∧ (qs.map Prod.fst).Perm xs.elems ∧ qs.Pairwise fun a b => sortCmpBy a b ≤ 0

/-- A rational or a decimal. -/
def isFraction : Exp → Bool
  | .rational _ _ => true
  | .decimal _ _ => true
  | _ => false

/-- The lists that are sorted right: a fixnum and a float that are equal as doubles are equal, and two numbers
of which one is a rational or a decimal are in the order of their types. -/
structure Ordered (keys : List Exp) : Prop where
  exact : ∀ n bits, .fix n ∈ keys → .float bits ∈ keys → Hamt.isNaN bits = false →
    units (doubleOfInt n.1) = units bits → units bits = n.1 * one
  typed : ∀ v ∈ keys, ∀ w ∈ keys, (isFraction v || isFraction w) = true →
    ∀ p q, exactValue v = some p → exactValue w = some q → (typeOf v < typeOf w ↔ p < q)

/-- Registered types are numbered from `EXP_MAXSIZE` on. -/
def Registered : Exp → Prop
  | .foreign (.custom id _) => expMaxsize ≤ id
  | _ => True

/-! ## The comparison is symmetric -/

theorem threeWay_swap (a b : ℤ) : Builtin.threeWay b a = -Builtin.threeWay a b := by
  unfold Builtin.threeWay
  split <;> split <;> omega

theorem strcmp_swap (s t : List UInt8) : Builtin.strcmp t s = -Builtin.strcmp s t := by
  fun_induction Builtin.strcmp s t with
  | case1 => rfl
  | case2 => rfl
  | case3 => rfl
  | case4 a as bs ih => simpa [Builtin.strcmp] using ih
  | case5 a as b bs hne =>
    rw [Builtin.strcmp, if_neg (Ne.symm hne)]
    exact threeWay_swap _ _

theorem compareDoubles_swap (x y : UInt64) : compareDoubles y x = -compareDoubles x y := by
  unfold compareDoubles
  cases hxy : lt x y with
  | false => cases hyx : lt y x <;> rfl
  | true =>
    have hyx : lt y x = false := by
      simp only [lt, Bool.and_eq_true, decide_eq_true_eq] at hxy
      simp only [lt, Bool.and_eq_false_iff, decide_eq_false_iff_not]
      omega
    rw [hyx]
    rfl

theorem sortCmpDefault_swap (v w : Exp) : sortCmpDefault w v = -sortCmpDefault v w := by
  unfold sortCmpDefault
  split
  · exact threeWay_swap _ _
  · split <;> split <;> first | rfl | exact compareDoubles_swap _ _
  · split
    · rfl
    · exact compareDoubles_swap _ _
  · split
    · rfl
    · exact compareDoubles_swap _ _
  · exact strcmp_swap _ _
  · rename_i h1 h2 h3 h4 h5
    split <;> first | omega | simp_all

/-! ## The comparison within a type and between types -/

theorem threeWay_le {a b : ℤ} : Builtin.threeWay a b ≤ 0 ↔ a ≤ b := by
  unfold Builtin.threeWay
  split_ifs <;> omega

theorem threeWay_lt {a b : ℤ} : Builtin.threeWay a b < 0 ↔ a < b := by
  unfold Builtin.threeWay
  split_ifs <;> omega

theorem strcmp_trans {s t u : List UInt8} (h1 : Builtin.strcmp s t ≤ 0) (h2 : Builtin.strcmp t u ≤ 0) :
    Builtin.strcmp s u ≤ 0 := by
  induction s generalizing t u with
  | nil => cases u <;> simp [Builtin.strcmp]
  | cons a as ih =>
    cases t with
    | nil => simp [Builtin.strcmp] at h1
    | cons b bs =>
      cases u with
      | nil => simp [Builtin.strcmp] at h2
      | cons c cs =>
        rw [Builtin.strcmp] at h1 h2 ⊢
        split at h1
        case isTrue hab =>
          subst hab
          split at h2
          case isTrue hbc =>
            rw [if_pos hbc]
            exact ih h1 h2
          case isFalse hbc =>
            rw [if_neg hbc]
            exact h2
        case isFalse hab =>
          rw [threeWay_le] at h1
          have hne : a.toNat ≠ b.toNat := fun he => hab (UInt8.toNat_inj.mp he)
          split at h2
          case isTrue hbc =>
            subst hbc
            rw [if_neg hab, threeWay_le]
            exact h1
          case isFalse hbc =>
            rw [threeWay_le] at h2
            have hac : a ≠ c := by
              rintro rfl
              omega
            rw [if_neg hac, threeWay_le]
            omega

theorem compareDoubles_le {x y : UInt64} (hx : Hamt.isNaN x = false) (hy : Hamt.isNaN y = false) :
    compareDoubles x y ≤ 0 ↔ units x ≤ units y := by
  simp only [compareDoubles, lt, hx, hy, Bool.not_false, Bool.true_and, decide_eq_true_eq]
  split_ifs <;> omega

theorem compareDoubles_lt {x y : UInt64} (hx : Hamt.isNaN x = false) (hy : Hamt.isNaN y = false) :
    compareDoubles x y < 0 ↔ units x < units y := by
  simp only [compareDoubles, lt, hx, hy, Bool.not_false, Bool.true_and, decide_eq_true_eq]
  split_ifs <;> omega

/-- A value as the comparison sees it: a fixnum, a double, a string, or something else of a type. -/
inductive Sight : Exp → Prop
  | fix (n : Fixnum) : Sight (.fix n)
  | float (bits : UInt64) : Sight (.float bits)
  | string (text : CStr) : Sight (.string text)
  | other {v : Exp} (hfix : ∀ n, v ≠ .fix n) (hfloat : ∀ bits, v ≠ .float bits) (hstring : ∀ text, v ≠ .string text)
      (hlow : typeOf v ≤ 1 ∨ 5 ≤ typeOf v) : Sight v

theorem sight {v : Exp} (h : Registered v) : Sight v := by
  cases v with
  | fix n => exact .fix n
  | float bits => exact .float bits
  | string text => exact .string text
  | foreign type =>
    refine .other ?_ ?_ ?_ ?_ <;> try simp
    cases type with
    | custom id ptr =>
      have hid : expMaxsize ≤ id := h
      unfold expMaxsize at hid
      simp only [typeOf, foreignTypeOf]
      omega
    | _ => simp [typeOf, foreignTypeOf]
  | _ => exact .other (by simp) (by simp) (by simp) (by simp [typeOf])

theorem sortCmpDefault_other {v w : Exp} (h : (∀ n, v ≠ .fix n) ∧ (∀ bits, v ≠ .float bits) ∧ ∀ text, v ≠ .string text) :
    sortCmpDefault v w = typeOf v - typeOf w := by
  obtain ⟨h1, h2, h3⟩ := h
  unfold sortCmpDefault
  split <;> first | rfl | simp_all

/-- The place of a type in the order; fixnums and floats have one place. -/
def rank (v : Exp) : ℤ := if typeOf v = 3 then 2 else typeOf v

theorem lt_of_rank_lt {v w : Exp} (hv : Registered v) (hw : Registered w) (h : rank v < rank w) :
    sortCmpDefault v w < 0 := by
  have hother {u : Exp} (hfix : ∀ n, u ≠ .fix n) (hfloat : ∀ bits, u ≠ .float bits)
      (hstring : ∀ text, u ≠ .string text) (hlow : typeOf u ≤ 1 ∨ 5 ≤ typeOf u) (x : Exp) :
      sortCmpDefault u x = typeOf u - typeOf x ∧ sortCmpDefault x u = typeOf x - typeOf u ∧
        rank u = typeOf u := by
    have hu := sortCmpDefault_other (w := x) ⟨hfix, hfloat, hstring⟩
    refine ⟨hu, ?_, if_neg (by omega)⟩
    rw [sortCmpDefault_swap, hu]
    omega
  cases sight hv with
  | other h1 h2 h3 h4 =>
    obtain ⟨hc, -, hr⟩ := hother h1 h2 h3 h4 w
    rw [hc]
    rw [hr] at h
    unfold rank at h
    split at h <;> omega
  | fix n =>
    cases sight hw with
    | other h1 h2 h3 h4 =>
      obtain ⟨-, hc, hr⟩ := hother h1 h2 h3 h4 (.fix n)
      rw [hr, show rank (.fix n) = 2 from rfl] at h
      rw [hc, show typeOf (.fix n) = 2 from rfl]
      omega
    | string text => simp [sortCmpDefault, typeOf]
    | _ => simp [rank, typeOf] at h
  | float bits =>
    cases sight hw with
    | other h1 h2 h3 h4 =>
      obtain ⟨-, hc, hr⟩ := hother h1 h2 h3 h4 (.float bits)
      rw [hr, show rank (.float bits) = 2 from rfl] at h
      rw [hc, show typeOf (.float bits) = 3 from rfl]
      omega
    | string text => simp [sortCmpDefault, typeOf]
    | _ => simp [rank, typeOf] at h
  | string text =>
    cases sight hw with
    | other h1 h2 h3 h4 =>
      obtain ⟨-, hc, hr⟩ := hother h1 h2 h3 h4 (.string text)
      rw [hr, show rank (.string text) = 4 from rfl] at h
      rw [hc, show typeOf (.string text) = 4 from rfl]
      omega
    | _ => simp [rank, typeOf] at h

theorem rank_le {v w : Exp} (hv : Registered v) (hw : Registered w) (h : sortCmpDefault v w ≤ 0) :
    rank v ≤ rank w := by
  by_contra hlt
  have hcmp := lt_of_rank_lt hw hv (by omega)
  rw [sortCmpDefault_swap] at hcmp
  omega

/-- A fixnum or a float as a double; a NaN is above the others. -/
def weight : Exp → WithTop ℤ
  | .fix n => units (doubleOfInt n.1)
  | .float bits => if Hamt.isNaN bits then ⊤ else units bits
  | _ => ⊤

theorem fix_le_float {n : Fixnum} {bits : UInt64} :
    sortCmpDefault (.fix n) (.float bits) ≤ 0 ↔ weight (.fix n) ≤ weight (.float bits) := by
  simp only [sortCmpDefault, weight]
  cases hb : Hamt.isNaN bits with
  | true => simp
  | false =>
    simp only [Bool.false_eq_true, if_false]
    rw [compareDoubles_le (isNaN_doubleOfInt n.2) hb]
    exact WithTop.coe_le_coe.symm

theorem float_le_fix {n : Fixnum} {bits : UInt64} :
    sortCmpDefault (.float bits) (.fix n) ≤ 0 ↔ weight (.float bits) ≤ weight (.fix n) := by
  simp only [sortCmpDefault, weight]
  cases hb : Hamt.isNaN bits with
  | true => simp
  | false =>
    simp only [Bool.false_eq_true, if_false]
    rw [compareDoubles_le hb (isNaN_doubleOfInt n.2)]
    exact WithTop.coe_le_coe.symm

theorem float_le_float {x y : UInt64} :
    sortCmpDefault (.float x) (.float y) ≤ 0 ↔ weight (.float x) ≤ weight (.float y) := by
  simp only [sortCmpDefault, weight]
  cases hx : Hamt.isNaN x with
  | true => cases hy : Hamt.isNaN y <;> simp
  | false =>
    cases hy : Hamt.isNaN y with
    | true => simp
    | false =>
      simp only [Bool.false_eq_true, if_false]
      rw [compareDoubles_le hx hy]
      exact WithTop.coe_le_coe.symm

theorem weight_le_of_fix {m n : Fixnum} (h : sortCmpDefault (.fix m) (.fix n) ≤ 0) :
    weight (.fix m) ≤ weight (.fix n) :=
  WithTop.coe_le_coe.mpr (units_mono m.2 n.2 (threeWay_le.mp h))

/-! ## The comparison is transitive -/

/-- Three numbers; `h` is for a float between two fixnums. -/
theorem numbers_trans {x y z : Exp} (hx : rank x = 2) (hy : rank y = 2) (hz : rank z = 2)
    (hrx : Registered x) (hry : Registered y) (hrz : Registered z)
    (h : ∀ m n bits, x = .fix m → y = .float bits → z = .fix n → weight (.fix m) = weight (.float bits) →
      weight (.float bits) = weight (.fix n) → m = n)
    (h1 : sortCmpDefault x y ≤ 0) (h2 : sortCmpDefault y z ≤ 0) : sortCmpDefault x z ≤ 0 := by
  have hnumber {v : Exp} (hv : rank v = 2) (hr : Registered v) :
      (∃ n, v = .fix n) ∨ ∃ bits, v = .float bits := by
    cases sight hr with
    | fix n => exact .inl ⟨n, rfl⟩
    | float bits => exact .inr ⟨bits, rfl⟩
    | string text => exact absurd hv (by rw [show rank (.string text) = 4 from rfl]; decide)
    | other _ _ _ hlow =>
      unfold rank at hv
      split at hv <;> omega
  rcases hnumber hx hrx with ⟨m, rfl⟩ | ⟨a, rfl⟩ <;> rcases hnumber hy hry with ⟨k, rfl⟩ | ⟨b, rfl⟩ <;>
    rcases hnumber hz hrz with ⟨n, rfl⟩ | ⟨c, rfl⟩
  · rw [sortCmpDefault, threeWay_le] at h1 h2 ⊢
    omega
  · exact fix_le_float.mpr ((weight_le_of_fix h1).trans (fix_le_float.mp h2))
  · -- the weights of the fixnums may be equal though the fixnums are not
    have h1' := fix_le_float.mp h1
    have h2' := float_le_fix.mp h2
    rw [sortCmpDefault, threeWay_le]
    by_contra hlt
    have hle : weight (.fix n) ≤ weight (.fix m) := weight_le_of_fix (threeWay_le.mpr (by omega))
    have heq := h m n b rfl rfl rfl (h1'.antisymm (h2'.trans hle)) (h2'.antisymm (hle.trans h1'))
    rw [heq] at hlt
    omega
  · exact fix_le_float.mpr ((fix_le_float.mp h1).trans (float_le_float.mp h2))
  · exact float_le_fix.mpr ((float_le_fix.mp h1).trans (weight_le_of_fix h2))
  · exact float_le_float.mpr ((float_le_fix.mp h1).trans (fix_le_float.mp h2))
  · exact float_le_fix.mpr ((float_le_float.mp h1).trans (float_le_fix.mp h2))
  · exact float_le_float.mpr ((float_le_float.mp h1).trans (float_le_float.mp h2))

theorem le_trans_of {x y z : Exp} (hrx : Registered x) (hry : Registered y) (hrz : Registered z)
    (h : ∀ m n bits, x = .fix m → y = .float bits → z = .fix n → weight (.fix m) = weight (.float bits) →
      weight (.float bits) = weight (.fix n) → m = n)
    (h1 : sortCmpDefault x y ≤ 0) (h2 : sortCmpDefault y z ≤ 0) : sortCmpDefault x z ≤ 0 := by
  have hxy := rank_le hrx hry h1
  have hyz := rank_le hry hrz h2
  rcases (hxy.trans hyz).lt_or_eq with hlt | heq
  · exact (lt_of_rank_lt hrx hrz hlt).le
  have hy : rank y = rank x := by omega
  cases sight hrx with
  | fix n => exact numbers_trans rfl (hy.trans rfl) (heq.symm.trans rfl) hrx hry hrz h h1 h2
  | float bits => exact numbers_trans rfl (hy.trans rfl) (heq.symm.trans rfl) hrx hry hrz h h1 h2
  | string text =>
    have hstring {v : Exp} (hv : rank v = 4) (hr : Registered v) : ∃ text, v = .string text := by
      cases sight hr with
      | string text => exact ⟨text, rfl⟩
      | fix n => exact absurd hv (by rw [show rank (.fix n) = 2 from rfl]; decide)
      | float bits => exact absurd hv (by rw [show rank (.float bits) = 2 from rfl]; decide)
      | other _ _ _ hlow =>
        unfold rank at hv
        split at hv <;> omega
    obtain ⟨u, rfl⟩ := hstring (hy.trans rfl) hry
    obtain ⟨t, rfl⟩ := hstring (heq.symm.trans rfl) hrz
    exact strcmp_trans h1 h2
  | other hfix hfloat hstring hlow =>
    rw [sortCmpDefault_other ⟨hfix, hfloat, hstring⟩] at h1 ⊢
    have hx : rank x = typeOf x := if_neg (by omega)
    unfold rank at hx heq
    split at heq <;> split at heq <;> omega

/-- The comparison is a strict weak order of a list where no float is equal to two fixnums. -/
theorem strictWeak_of {α : Type} (key : α → Exp) {xs : List α} (hreg : ∀ x ∈ xs, Registered (key x))
    (h : Ordered (xs.map key)) : StrictWeak (fun x y => sortCmpDefault (key x) (key y)) xs := by
  have hswap (x y : α) : sortCmpDefault (key y) (key x) = -sortCmpDefault (key x) (key y) :=
    sortCmpDefault_swap _ _
  have htrans {x y z : α} (hx : x ∈ xs) (hy : y ∈ xs) (hz : z ∈ xs)
      (h1 : sortCmpDefault (key x) (key y) ≤ 0) (h2 : sortCmpDefault (key y) (key z) ≤ 0) :
      sortCmpDefault (key x) (key z) ≤ 0 := by
    refine le_trans_of (hreg x hx) (hreg y hy) (hreg z hz) (fun m n bits hm hb hn hmb hbn => ?_) h1 h2
    have hmem {u : α} (hu : u ∈ xs) {v : Exp} (huv : key u = v) : v ∈ xs.map key :=
      huv ▸ List.mem_map_of_mem hu
    cases hnan : Hamt.isNaN bits with
    | true =>
      rw [weight, weight, hnan, if_pos rfl] at hmb
      cases hmb
    | false =>
      rw [weight, weight, hnan, if_neg (by decide)] at hmb hbn
      have hm' := h.exact m bits (hmem hx hm) (hmem hy hb) hnan (WithTop.coe_inj.mp hmb)
      have hn' := h.exact n bits (hmem hz hn) (hmem hy hb) hnan (WithTop.coe_inj.mp hbn.symm)
      have hone : (one : ℤ) ≠ 0 := by exact_mod_cast one_pos.ne'
      exact Subtype.ext (mul_right_cancel₀ hone (hm'.symm.trans hn'))
  constructor
  · intro x _ y _
    rw [hswap x y]
    omega
  · intro x hx y hy z hz h1 h2
    have hle := htrans hx hy hz h1.le h2.le
    rcases hle.lt_or_eq with hlt | heq
    · exact hlt
    · have hback := htrans hz hx hy (by rw [hswap x z]; omega) h1.le
      rw [hswap y z] at hback
      omega
  · intro x hx y hy z hz h1 h2
    have hle := htrans hx hy hz h1.le h2.le
    have hge := htrans hz hy hx (by rw [hswap y z]; omega) (by rw [hswap x y]; omega)
    rw [hswap x z] at hge
    omega

/-! ## The comparison of numbers -/

theorem sortCmpDefault_fraction {v w : Exp} (h : (isFraction v || isFraction w) = true) :
    sortCmpDefault v w = typeOf v - typeOf w := by
  have hother {u : Exp} (hu : isFraction u = true) (x : Exp) : sortCmpDefault u x = typeOf u - typeOf x := by
    apply sortCmpDefault_other
    cases u <;> simp_all [isFraction]
  rcases (Bool.or_eq_true _ _).mp h with hv | hw
  · exact hother hv w
  · rw [sortCmpDefault_swap, hother hw v]
    omega

theorem isNaN_of_toInt? {bits : UInt64} {z : ℤ} (h : toInt? bits = some z) : Hamt.isNaN bits = false :=
  Persist.isNaN_of_isFinite (toInt?_eq_some.mp h).1

theorem fix_float_order {n : Fixnum} {bits : UInt64} {z : ℤ} (h : toInt? bits = some z)
    (hexact : units (doubleOfInt n.1) = units bits → units bits = n.1 * one) :
    (sortCmpDefault (.fix n) (.float bits) < 0 ↔ n.1 < z) ∧
      (sortCmpDefault (.float bits) (.fix n) < 0 ↔ z < n.1) := by
  have hz := (toInt?_eq_some.mp h).2
  have hnan := isNaN_of_toInt? h
  have hone : (one : ℤ) ≠ 0 := by exact_mod_cast one_pos.ne'
  obtain ⟨h1, h2⟩ := units_lt_iff n.2 hz fun he =>
    mul_right_cancel₀ hone ((hexact he).symm.trans hz)
  simp only [sortCmpDefault, hnan, Bool.false_eq_true, if_false]
  rw [compareDoubles_lt (isNaN_doubleOfInt n.2) hnan, compareDoubles_lt hnan (isNaN_doubleOfInt n.2)]
  exact ⟨h1, h2⟩

theorem float_order {a b : UInt64} {y z : ℤ} (ha : toInt? a = some y) (hb : toInt? b = some z) :
    sortCmpDefault (.float a) (.float b) < 0 ↔ y < z := by
  have hone : (0 : ℤ) < one := by exact_mod_cast one_pos
  simp only [sortCmpDefault, isNaN_of_toInt? ha, isNaN_of_toInt? hb, Bool.false_eq_true, if_false]
  rw [compareDoubles_lt (isNaN_of_toInt? ha) (isNaN_of_toInt? hb), (toInt?_eq_some.mp ha).2,
    (toInt?_eq_some.mp hb).2, mul_lt_mul_iff_of_pos_right hone]

theorem exactValue_cases {v : Exp} {p : ℚ} (h : exactValue v = some p) :
    (∃ n : Fixnum, v = .fix n ∧ p = n.1) ∨ (∃ bits, ∃ z : ℤ, v = .float bits ∧ toInt? bits = some z ∧ p = z) ∨
      isFraction v = true := by
  cases v with
  | fix n => exact .inl ⟨n, rfl, (Option.some.inj h).symm⟩
  | float bits =>
    obtain ⟨z, hz, rfl⟩ := Option.map_eq_some_iff.mp h
    exact .inr (.inl ⟨bits, z, rfl, hz, rfl⟩)
  | rational => exact .inr (.inr rfl)
  | decimal => exact .inr (.inr rfl)
  | _ => cases h

/-- A list of numbers in the order of their values. -/
theorem numerical_of {keys : List Exp} (h : Ordered keys) : Numerical keys := by
  intro v hv w hw p q hp hq
  have htyped (hf : (isFraction v || isFraction w) = true) : sortCmpDefault v w < 0 ↔ p < q := by
    rw [← h.typed v hv w hw hf p q hp hq, sortCmpDefault_fraction hf]
    omega
  rcases exactValue_cases hp with ⟨m, rfl, rfl⟩ | ⟨a, y, rfl, hy, rfl⟩ | hf
  · rcases exactValue_cases hq with ⟨n, rfl, rfl⟩ | ⟨b, z, rfl, hz, rfl⟩ | hf
    · rw [sortCmpDefault, threeWay_lt, Int.cast_lt]
    · rw [(fix_float_order hz (h.exact m b hv hw (isNaN_of_toInt? hz))).1, Int.cast_lt]
    · exact htyped (by rw [hf, Bool.or_true])
  · rcases exactValue_cases hq with ⟨n, rfl, rfl⟩ | ⟨b, z, rfl, hz, rfl⟩ | hf
    · rw [(fix_float_order hy (h.exact n a hw hv (isNaN_of_toInt? hy))).2, Int.cast_lt]
    · rw [float_order hy hz, Int.cast_lt]
    · exact htyped (by rw [hf, Bool.or_true])
  · exact htyped (by rw [hf, Bool.true_or])

theorem ordered_of {keys : List Exp} (h : Numerical keys) : Ordered keys := by
  constructor
  · intro n bits hn hbits hnan heq
    have hunits : units bits = roundInt n.1 * one := heq.symm.trans (units_doubleOfInt n.2)
    have hround : exactValue (.float bits) = some (roundInt n.1 : ℚ) := by
      rw [exactValue, toInt?_eq_some.mpr ⟨isFinite_of_units n.2 heq, hunits⟩]
      rfl
    -- equal doubles compare as 0, so neither value is less
    have hlt := h _ hn _ hbits _ _ rfl hround
    have hgt := h _ hbits _ hn _ _ hround rfl
    simp only [sortCmpDefault, hnan, Bool.false_eq_true, if_false] at hlt hgt
    rw [compareDoubles_lt (isNaN_doubleOfInt n.2) hnan, Int.cast_lt] at hlt
    rw [compareDoubles_lt hnan (isNaN_doubleOfInt n.2), Int.cast_lt] at hgt
    have hfix : roundInt n.1 = n.1 := by omega
    rw [hunits, hfix]
  · intro v hv w hw hf p q hp hq
    rw [← h v hv w hw p q hp hq, sortCmpDefault_fraction hf]
    omega

/-! ## The results -/

theorem StrictWeak.le_trans {α : Type} {cmp : α → α → ℤ} {xs : List α} (h : StrictWeak cmp xs) {a b c : α}
    (ha : a ∈ xs) (hb : b ∈ xs) (hc : c ∈ xs) (hab : cmp a b ≤ 0) (hbc : cmp b c ≤ 0) : cmp a c ≤ 0 := by
  by_contra hac
  have hca : cmp c a < 0 := (h.swap c hc a ha).mpr (by omega)
  rcases hab.lt_or_eq with hlt | heq
  · have hcb := (h.swap c hc b hb).mp (h.trans c hc a ha b hb hca hlt)
    omega
  · rcases hbc.lt_or_eq with hlt | heq'
    · have hba := (h.swap b hb a ha).mp (h.trans b hb c hc a ha hlt hca)
      omega
    · have := h.equal_trans a ha b hb c hc heq heq'
      omega

theorem StrictWeak.total {α : Type} {cmp : α → α → ℤ} {xs : List α} (h : StrictWeak cmp xs) {a b : α}
    (ha : a ∈ xs) (hb : b ∈ xs) : cmp a b ≤ 0 ∨ cmp b a ≤ 0 := by
  by_contra hn
  have hba := (h.swap b hb a ha).mpr (by omega)
  omega

theorem StrictWeak.exists_sorted {α : Type} {cmp : α → α → ℤ} {xs : List α} (h : StrictWeak cmp xs) :
    ∃ ys : List α, ys.Perm xs ∧ ys.Pairwise fun x y => cmp x y ≤ 0 := by
  let le (a b : {x // x ∈ xs}) : Bool := decide (cmp a b ≤ 0)
  have hpairwise : (xs.attach.mergeSort le).Pairwise fun a b => le a b = true := by
    refine List.pairwise_mergeSort (fun a b c hab hbc => ?_) (fun a b => ?_) _
    · simp only [le, decide_eq_true_eq] at hab hbc ⊢
      exact h.le_trans a.2 b.2 c.2 hab hbc
    · simp only [le, Bool.or_eq_true, decide_eq_true_eq]
      exact h.total a.2 b.2
  refine ⟨(xs.attach.mergeSort le).map Subtype.val, ?_, ?_⟩
  · have hperm := (List.mergeSort_perm xs.attach le).map Subtype.val
    rwa [List.attach_map_subtype_val] at hperm
  · rw [List.pairwise_map]
    exact hpairwise.imp fun hab => of_decide_eq_true hab

/-- There is a `qsort` as the builtins need it. -/
theorem exists_sorts : ∃ qsort : Qsort, Sorts @qsort := by
  classical
  refine ⟨fun cmp xs => if h : StrictWeak cmp xs then h.exists_sorted.choose else xs, fun cmp xs h => ?_⟩
  simp only [dif_pos h]
  exact h.exists_sorted.choose_spec

/-- The pairs of the elements with their keys. -/
theorem keyed_elems {E : Type} {fn : ℕ → Exp → Except E Exp} {i : ℕ} {xs : List Exp} {pairs : List (Exp × Exp)}
    (h : keyed fn i xs = .ok pairs) : pairs.map Prod.fst = xs := by
  induction xs generalizing i pairs with
  | nil =>
    cases h
    rfl
  | cons x xs ih =>
    rw [keyed] at h
    cases hkey : fn i x with
    | error e => simp [hkey, bind, Except.bind] at h
    | ok key =>
      cases hrest : keyed fn (i + 1) xs with
      | error e => simp [hkey, hrest, bind, Except.bind] at h
      | ok rest =>
        simp only [hkey, hrest, bind, Except.bind, pure, Except.pure, Except.ok.injEq] at h
        subst h
        rw [List.map_cons, ih hrest]

theorem sortcmd_list {E : Type} (qsort : Qsort) {xs : Exp} (hxs : notAList xs = false)
    (hnil : qsort sortCmpDefault [] = []) :
    sortcmd (E := E) @qsort xs = sortElems @qsort xs.elems := by
  cases xs with
  | null => simp [sortcmd, sortElems, hnil, Exp.ofList]
  | nil => simp [sortcmd, sortElems, hnil, Exp.ofList]
  | pair content next => rfl
  | _ => cases hxs

theorem sorts_nil {qsort : Qsort} (h : Sorts @qsort) {α : Type} (cmp : α → α → ℤ) : qsort cmp [] = [] :=
  (h cmp [] ⟨by simp, by simp, by simp⟩).1.eq_nil

theorem sortbycmd_list {E : Type} (qsort : Qsort) (fn : ℕ → Exp → Except E Exp) {xs : Exp}
    (hxs : notAList xs = false) (hnil : qsort sortCmpBy [] = []) :
    sortbycmd @qsort fn xs = sortByElems @qsort fn xs.elems := by
  cases xs with
  | null => simp [sortbycmd, sortByElems, keyed, hnil, Exp.ofList]
  | nil => simp [sortbycmd, sortByElems, keyed, hnil, Exp.ofList]
  | pair content next => rfl
  | _ => cases hxs

theorem sortRight_iff {xs : Exp} (hxs : notAList xs = false) (hreg : ∀ x ∈ xs.elems, Registered x) :
    SortRight xs ↔ Ordered xs.elems ∧ xs.elems.length ≤ intMax := by
  constructor
  · rintro ⟨-, hnum, hsort⟩
    refine ⟨ordered_of hnum, ?_⟩
    by_contra hlen
    obtain ⟨qsort, hq⟩ := exists_sorts
    obtain ⟨ys, hys, -⟩ := hsort @qsort @hq
    rw [sortcmd_list @qsort hxs (sorts_nil @hq _), sortElems, if_pos (by omega)] at hys
    cases hys
  · rintro ⟨hord, hlen⟩
    have hweak : StrictWeak sortCmpDefault xs.elems :=
      strictWeak_of id hreg (by rwa [List.map_id])
    refine ⟨hweak, numerical_of hord, fun qsort hq => ⟨qsort sortCmpDefault xs.elems, ?_, hq _ _ hweak⟩⟩
    rw [sortcmd_list @qsort hxs (sorts_nil @hq _), sortElems, if_neg (by omega)]

theorem sortByRight_iff {E : Type} {fn : ℕ → Exp → Except E Exp} {xs : Exp} {pairs : List (Exp × Exp)}
    (hxs : notAList xs = false) (hkeys : keyed fn 0 xs.elems = .ok pairs)
    (hreg : ∀ p ∈ pairs, Registered p.2) :
    SortByRight fn xs pairs ↔ Ordered (pairs.map Prod.snd) ∧ xs.elems.length ≤ intMax := by
  constructor
  · rintro ⟨-, hnum, hsort⟩
    refine ⟨ordered_of hnum, ?_⟩
    by_contra hlen
    obtain ⟨qsort, hq⟩ := exists_sorts
    obtain ⟨qs, hqs, -⟩ := hsort @qsort @hq
    rw [sortbycmd_list @qsort fn hxs (sorts_nil @hq _), sortByElems, if_pos (by omega)] at hqs
    cases hqs
  · rintro ⟨hord, hlen⟩
    have hweak : StrictWeak sortCmpBy pairs := strictWeak_of Prod.snd hreg hord
    refine ⟨hweak, numerical_of hord, fun qsort hq => ?_⟩
    obtain ⟨hperm, hsorted⟩ := hq _ _ hweak
    refine ⟨qsort sortCmpBy pairs, ?_, hperm, ?_, hsorted⟩
    · rw [sortbycmd_list @qsort fn hxs (sorts_nil @hq _), sortByElems, if_neg (by omega), hkeys]
    · rw [← keyed_elems hkeys]
      exact hperm.map _

end Alcove.Sort
