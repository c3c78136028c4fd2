import Mathlib.Data.List.TakeWhile

/-!
# Texts

The text of a string, a symbol or a dict key is a C string: the bytes before a NUL. A `CStr` holds
these bytes and cannot hold a NUL; storing `n` bytes as a text keeps those before the first NUL
(`CStr.ofBytes`). `bernsteinHashZ` is the hash of `dict.h`.
-/

namespace Alcove

/-- A NUL-terminated text, without its terminator. -/
structure CStr where
  bytes : List UInt8
  noNul : 0 ∉ bytes
  deriving DecidableEq

namespace CStr

/-- The text that a NUL-terminated copy of `bytes` holds. -/
def ofBytes (bytes : List UInt8) : CStr where
  bytes := bytes.takeWhile (· ≠ 0)
  noNul h := by simpa using List.mem_takeWhile_imp h

/-- `strlen` -/
def length (s : CStr) : ℕ := s.bytes.length

theorem ext {s t : CStr} (h : s.bytes = t.bytes) : s = t := by
  cases s
  cases t
  congr

theorem ofBytes_of_noNul {bytes : List UInt8} (h : 0 ∉ bytes) : (ofBytes bytes).bytes = bytes := by
  apply List.takeWhile_eq_self_iff.mpr
  intro b hb
  have hne : b ≠ 0 := fun h0 => h (h0 ▸ hb)
  simpa using hne

@[simp]
theorem ofBytes_bytes (s : CStr) : ofBytes s.bytes = s := ext (ofBytes_of_noNul s.noNul)

/-- A copy is shorter than the bytes it was made from exactly when they hold a NUL. -/
theorem length_ofBytes_eq_iff {bytes : List UInt8} :
    (ofBytes bytes).length = bytes.length ↔ 0 ∉ bytes := by
  constructor
  · intro h
    have hall : bytes.takeWhile (· ≠ 0) = bytes := (List.takeWhile_prefix _).eq_of_length h
    rw [← hall]
    exact (ofBytes bytes).noNul
  · intro h
    rw [length, ofBytes_of_noNul h]

end CStr

/-- `bernstein_seed` -/
def bernsteinSeed : UInt32 := 3102

/-- `bernstein_hash_z` -/
def bernsteinHashZ (key : CStr) : UInt32 :=
  key.bytes.foldl (fun hash c => (hash + hash <<< 5) ^^^ c.toUInt32) bernsteinSeed

end Alcove
