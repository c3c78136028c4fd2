import Alcove.Json.Encode
import Alcove.Numeric.Decimal
import Alcove.Numeric.Rational
import Alcove.Hamt.Node

/-!
# Sets

The members of a set of `set.h` are the values of a table whose keys say what they are: the kind of
the member and its text (`setKeyForValue`). A set keeps a copy of a member (`setValueClone`).
-/

namespace Alcove

open Json Numeric

/-- The value of an exact number. -/
def Numeric.Exact.toExp : Exact → Exp
  | fix n => .fix (makeFix n)
  | rat num den => .rational num den

/-- `make_rational` -/
def expOfRational (num den : ℤ) : Option Exp := (makeRational num den).join.map Exact.toExp

/-- `make_decimal_raw` -/
def expOfDecimal (coef scale : ℤ) : Option Exp :=
  (makeDecimalRaw coef scale).join.map fun p => .decimal p.1 p.2

/-- `set_key_hex_append` -/
def setKeyHex (bytes : List UInt8) : List UInt8 :=
  bytes.flatMap fun b => [hexDigit (b.toNat / 16), hexDigit (b.toNat % 16)]

/-- `%016llx` -/
def formatHex64 (bits : UInt64) : List UInt8 :=
  (List.range 16).reverse.map fun i => hexDigit (bits.toNat / 16 ^ i % 16)

/-- `set_key_for_value` -/
def setKeyForValue : Exp → Option CStr
  | .null | .nil | .pair .null .null => some (.ofBytes [0x4e, 0x3a])
  | .t => some (.ofBytes [0x54, 0x3a])
  | .fix n => some (.ofBytes (0x49 :: 0x3a :: formatInt n.1))
  | .char c => some (.ofBytes (0x43 :: 0x3a :: formatNat c.toNat))
  | .float bits => some (.ofBytes (0x46 :: 0x3a :: formatHex64 (if Hamt.isZero bits then 0 else bits)))
  | .rational num den => some (.ofBytes (0x52 :: 0x3a :: (formatInt num ++ 0x2f :: formatInt den)))
  | .decimal coef scale => some (.ofBytes (0x44 :: 0x3a :: decToStr coef scale))
  | .string text => some (.ofBytes (0x53 :: 0x3a :: setKeyHex text.bytes))
  | .symbol text => some (.ofBytes (0x59 :: 0x3a :: setKeyHex text.bytes))
  | .blob bytes => some (.ofBytes (0x42 :: 0x3a :: setKeyHex bytes))
  | _ => none

/-- `set_value_clone` -/
def setValueClone : Exp → Option Exp
  | .null | .nil | .pair .null .null => some .nil
  | .rational num den => expOfRational num den
  | .decimal coef scale => expOfDecimal coef scale
  | .t => some .t
  | .fix n => some (.fix n)
  | .char c => some (.char c)
  | .float bits => some (.float bits)
  | .string text => some (.string text)
  | .symbol text => some (.symbol text)
  | .blob bytes => some (.blob bytes)
  | _ => none

/-- What `set_insert_value` puts into the table. -/
def setEntry (v : Exp) : Option (CStr × Exp) := do
  let key ← setKeyForValue v
  let stored ← setValueClone v
  return (key, stored)

/-! ## Copies -/

/-- **A reduced fraction is built back from its parts.** -/
theorem expOfRational_eq {num den : ℤ} (h : (Exact.rat num den).WellFormed) :
    expOfRational num den = some (.rational num den) := by
  obtain ⟨hn, hd, hpos, hgcd, hfix⟩ := h
  have hnum : ((num : ℚ) / den).num = num := Rat.num_div_eq_of_coprime hpos hgcd
  have hden : (((num : ℚ) / den).den : ℤ) = den := Rat.den_div_eq_of_coprime hpos hgcd
  rw [expOfRational, makeRational_eq hn hd hpos.ne', if_neg fun h => absurd h.1 (by omega),
    Exact.ofRat, hnum, hden, if_neg hfix]
  rfl

theorem expOfDecimal_eq {coef scale : ℤ} (h : DecimalNormal coef scale) :
    expOfDecimal coef scale = some (.decimal coef scale) := by
  rw [expOfDecimal, makeDecimalRaw_eq h]
  rfl

end Alcove
