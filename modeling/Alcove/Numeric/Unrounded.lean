import Alcove.Numeric.Tiers

/-!
# Doubles without rounding

Rational numbers with infinities and a NaN have the laws that `LawfulDouble` asks for. On numbers that
a double holds exactly, and whose results it holds exactly, they compute as doubles do.
-/

namespace Alcove.Numeric

open Lib

/-- A rational number, an infinity (negative for `true`), or no number. -/
inductive Unrounded
  | fin (q : ℚ)
  | inf (negative : Bool)
  | nan
  deriving DecidableEq

namespace Unrounded

def neg : Unrounded → Unrounded
  | fin q => fin (-q)
  | inf s => inf (!s)
  | nan => nan

def add : Unrounded → Unrounded → Unrounded
  | fin p, fin q => fin (p + q)
  | fin _, inf s => inf s
  | inf s, fin _ => inf s
  | inf s, inf t => if s = t then inf s else nan
  | _, _ => nan

/-- An infinity with the sign of a number. -/
def scaled (s : Bool) (q : ℚ) : Unrounded := if q = 0 then nan else inf (s != decide (q < 0))

def mul : Unrounded → Unrounded → Unrounded
  | fin p, fin q => fin (p * q)
  | fin p, inf s => scaled s p
  | inf s, fin q => scaled s q
  | inf s, inf t => inf (s != t)
  | _, _ => nan

def div : Unrounded → Unrounded → Unrounded
  | fin p, fin q => if q = 0 then scaled false p else fin (p / q)
  | fin _, inf _ => fin 0
  | inf s, fin q => if q = 0 then inf s else scaled s q
  | _, _ => nan

def lt : Unrounded → Unrounded → Bool
  | fin p, fin q => p < q
  | fin _, inf s => !s
  | inf s, fin _ => s
  | inf s, inf t => s && !t
  | _, _ => false

def le : Unrounded → Unrounded → Bool
  | fin p, fin q => p ≤ q
  | fin _, inf s => !s
  | inf s, fin _ => s
  | inf s, inf t => s || !t
  | _, _ => false

def fmod : Unrounded → Unrounded → Unrounded
  | fin p, fin q => fin (p - (if 0 ≤ p / q then (p / q).floor else (p / q).ceil) * q)
  | fin p, inf _ => fin p
  | _, _ => nan

def pow : Unrounded → Unrounded → Unrounded
  | fin p, fin q => if q.den = 1 then fin (p ^ q.num) else nan
  | _, _ => nan

instance : Double Unrounded where
  ofInt n := fin n
  arith
    | .add => add
    | .sub => fun x y => add x (neg y)
    | .mul => mul
    | .div => div
  fmod := fmod
  pow := pow
  neg := neg
  lt := lt
  le := le
  isZero x := x = fin 0
  isInf
    | inf _ => true
    | _ => false

theorem lt_fin (p q : ℚ) : lt (fin p) (fin q) = decide (p < q) := rfl

theorem le_fin (p q : ℚ) : le (fin p) (fin q) = decide (p ≤ q) := rfl

instance : LawfulDouble Unrounded where
  isZero_ofInt n := by simp [Double.isZero, Double.ofInt]
  isInf_ofInt _ _ := rfl
  add_comm_ofInt n x := by
    show add (fin n) x = add x (fin n)
    cases x with
    | fin q => rw [add, add, add_comm]
    | inf s => rfl
    | nan => rfl
  mul_comm_ofInt n x := by
    show mul (fin n) x = mul x (fin n)
    cases x with
    | fin q => rw [mul, mul, mul_comm]
    | inf s => rfl
    | nan => rfl
  one_mul x := by
    show mul (fin ((1 : ℤ) : ℚ)) x = x
    cases x with
    | fin q => simp [mul]
    | inf s => cases s <;> simp [mul, scaled]
    | nan => rfl
  lt_ofInt m n _ _ := by
    show lt (fin m) (fin n) = _
    simp [lt_fin]
  le_ofInt m n _ _ := by
    show le (fin m) (fin n) = _
    simp [le_fin]
  sub_lt_zero x y := by
    show lt (add x (neg y)) (fin ((0 : ℤ) : ℚ)) = lt x y
    rcases x with p | s | _ <;> rcases y with q | t | _
    · simp [neg, add, lt_fin]
    all_goals first | rfl | (cases s <;> cases t <;> rfl)
  zero_lt_sub x y := by
    show lt (fin ((0 : ℤ) : ℚ)) (add x (neg y)) = lt y x
    rcases x with p | s | _ <;> rcases y with q | t | _
    · simp [neg, add, lt_fin]
    all_goals first | rfl | (cases s <;> cases t <;> rfl) | (cases t <;> rfl)
  sub_le_zero x y := by
    show le (add x (neg y)) (fin ((0 : ℤ) : ℚ)) = _
    rcases x with p | s | _ <;> rcases y with q | t | _
    · simp [neg, add, le_fin, Double.le, Double.isInf]
    all_goals first | rfl | (cases s <;> cases t <;> rfl) | (cases s <;> rfl) | (cases t <;> rfl)
  zero_le_sub x y := by
    show le (fin ((0 : ℤ) : ℚ)) (add x (neg y)) = _
    rcases x with p | s | _ <;> rcases y with q | t | _
    · simp [neg, add, le_fin, Double.le, Double.isInf]
    all_goals first | rfl | (cases s <;> cases t <;> rfl) | (cases s <;> rfl) | (cases t <;> rfl)

end Unrounded

end Alcove.Numeric
