import Mathlib.Data.Int.ModEq
import Mathlib.Data.List.Basic
import Mathlib.Algebra.Group.Nat.Defs
import Mathlib.Tactic.Ring

/-!
# Numbers as bytes

Fixed-width numbers written most significant byte first (`putBe`, `getBe`) or least significant
byte first (`putLe`, `getLe`), and the sign extension of a narrow two's complement field (`sext`).
-/

namespace Alcove.Lib

/-- The low `n` bytes of `v`, most significant first. -/
def putBe : ℕ → ℕ → List UInt8
  | 0, _ => []
  | n + 1, v => UInt8.ofNat (v >>> (8 * n)) :: putBe n v

/-- The number whose bytes are given, most significant first. -/
def getBe (bytes : List UInt8) : ℕ := bytes.foldl (fun v b => v <<< 8 ||| b.toNat) 0

/-- The low `n` bytes of `v`, least significant first. -/
def putLe (n v : ℕ) : List UInt8 := (putBe n v).reverse

/-- The number whose bytes are given, least significant first. -/
def getLe (bytes : List UInt8) : ℕ := getBe bytes.reverse

/-- The low `8 * n` bits of `v` as a signed number: shifted up to bit 63, and arithmetically down
again. -/
def sext (v n : ℕ) : ℤ := ((BitVec.ofNat 64 v <<< (64 - n * 8)).sshiftRight (64 - n * 8)).toInt

@[simp]
theorem length_putBe (n v : ℕ) : (putBe n v).length = n := by
  induction n with
  | zero => rfl
  | succ n ih => simp [putBe, ih]

@[simp]
theorem length_putLe (n v : ℕ) : (putLe n v).length = n := by simp [putLe]

theorem shiftLeft_or_byte (v : ℕ) (b : UInt8) : v <<< 8 ||| b.toNat = v * 256 + b.toNat := by
  rw [← Nat.shiftLeft_add_eq_or_of_lt b.toNat_lt, Nat.shiftLeft_eq]

theorem foldl_putBe (n v acc : ℕ) :
    (putBe n v).foldl (fun v b => v <<< 8 ||| b.toNat) acc = acc * 256 ^ n + v % 256 ^ n := by
  induction n generalizing acc with
  | zero => simp [putBe, Nat.mod_one]
  | succ n ih =>
    have hbyte : (UInt8.ofNat (v >>> (8 * n))).toNat = v / 256 ^ n % 256 := by
      rw [UInt8.toNat_ofNat', Nat.shiftRight_eq_div_pow, Nat.pow_mul]
    rw [putBe, List.foldl_cons, ih, shiftLeft_or_byte, hbyte, Nat.pow_succ, Nat.mod_mul]
    ring

/-- **What is written is read back**, up to the width. -/
theorem getBe_putBe (n v : ℕ) : getBe (putBe n v) = v % 256 ^ n := by
  rw [getBe, foldl_putBe, Nat.zero_mul, Nat.zero_add]

theorem getBe_putBe_of_lt {n v : ℕ} (h : v < 256 ^ n) : getBe (putBe n v) = v := by
  rw [getBe_putBe, Nat.mod_eq_of_lt h]

theorem getLe_putLe_of_lt {n v : ℕ} (h : v < 256 ^ n) : getLe (putLe n v) = v := by
  rw [getLe, putLe, List.reverse_reverse, getBe_putBe_of_lt h]

theorem foldl_getBe (bytes : List UInt8) (acc : ℕ) :
    bytes.foldl (fun v b => v <<< 8 ||| b.toNat) acc =
      acc * 256 ^ bytes.length + getBe bytes := by
  induction bytes generalizing acc with
  | nil => simp [getBe]
  | cons b bytes ih =>
    rw [getBe, List.foldl_cons, List.foldl_cons, ih, ih, shiftLeft_or_byte, shiftLeft_or_byte,
      List.length_cons, Nat.pow_succ]
    ring

@[simp]
theorem getBe_nil : getBe [] = 0 := rfl

theorem getBe_cons (b : UInt8) (bytes : List UInt8) :
    getBe (b :: bytes) = b.toNat * 256 ^ bytes.length + getBe bytes := by
  rw [getBe, List.foldl_cons, foldl_getBe, shiftLeft_or_byte, Nat.zero_mul, Nat.zero_add]

theorem getBe_lt (bytes : List UInt8) : getBe bytes < 256 ^ bytes.length := by
  induction bytes with
  | nil => simp
  | cons b bytes ih =>
    have hb : b.toNat + 1 ≤ 256 := b.toNat_lt
    calc getBe (b :: bytes) < b.toNat * 256 ^ bytes.length + 256 ^ bytes.length := by
          rw [getBe_cons]
          omega
      _ = (b.toNat + 1) * 256 ^ bytes.length := by ring
      _ ≤ 256 * 256 ^ bytes.length := Nat.mul_le_mul_right _ hb
      _ = 256 ^ (b :: bytes).length := by rw [List.length_cons, Nat.pow_succ, Nat.mul_comm]

theorem putBe_add (n v k : ℕ) : putBe n (k * 256 ^ n + v) = putBe n v := by
  induction n generalizing k with
  | zero => rfl
  | succ n ih =>
    have hsplit : k * 256 ^ (n + 1) + v = 256 ^ n * (k * 256) + v := by rw [Nat.pow_succ]; ring
    have hhead : (k * 256 ^ (n + 1) + v) / 256 ^ n = k * 256 + v / 256 ^ n := by
      rw [hsplit, Nat.mul_add_div (Nat.pow_pos (by decide))]
    have htail : k * 256 ^ (n + 1) + v = k * 256 * 256 ^ n + v := by rw [Nat.pow_succ]; ring
    have hpow : 2 ^ (8 * n) = 256 ^ n := by rw [Nat.pow_mul]
    rw [putBe, putBe, Nat.shiftRight_eq_div_pow, Nat.shiftRight_eq_div_pow, hpow, hhead, htail, ih]
    congr 1
    apply UInt8.toNat_inj.mp
    simp [UInt8.toNat_ofNat']

/-- **Bytes are read and written back unchanged.** -/
theorem putBe_getBe (bytes : List UInt8) : putBe bytes.length (getBe bytes) = bytes := by
  induction bytes with
  | nil => rfl
  | cons b bytes ih =>
    have hhead : getBe (b :: bytes) / 256 ^ bytes.length = b.toNat := by
      rw [getBe_cons, Nat.mul_comm, Nat.mul_add_div (Nat.pow_pos (by decide)),
        Nat.div_eq_of_lt (getBe_lt bytes), Nat.add_zero]
    have hpow : 2 ^ (8 * bytes.length) = 256 ^ bytes.length := by rw [Nat.pow_mul]
    rw [List.length_cons, putBe, Nat.shiftRight_eq_div_pow, hpow, hhead, getBe_cons, putBe_add, ih]
    simp

/-- The sign extension of the `n` low bytes is the number they stand for in two's complement. -/
theorem sext_eq {n : ℕ} (hn : n ∈ [1, 2, 4, 8]) (v : ℕ) : sext v n = (v : ℤ).bmod (256 ^ n) := by
  have hcases : n = 1 ∨ n = 2 ∨ n = 4 ∨ n = 8 := by simpa using hn
  rcases hcases with rfl | rfl | rfl | rfl <;>
    · simp only [sext, BitVec.toInt_sshiftRight, BitVec.toInt_shiftLeft, BitVec.toNat_ofNat,
        Int.shiftRight_eq_div_pow, Nat.shiftLeft_eq]
      simp only [Int.bmod_def]
      omega

end Alcove.Lib
