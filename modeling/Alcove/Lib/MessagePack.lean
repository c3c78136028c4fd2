import Alcove.Lib.Bytes

/-!
# The MessagePack format

Messages with byte-string keys (`Msg`) and their encodings. `Wire m s r` says that the bytes `s`
begin with an encoding of `m` and that `r` is what follows it; of several widths for a number or a
length (`Header`), every one that holds it is an encoding.
-/

namespace Alcove.Lib

/-- A message. -/
inductive Msg
  | nil
  | bool (b : Bool)
  | int (n : ℤ)
  | float32 (bits : UInt32)
  | float64 (bits : UInt64)
  | str (s : List UInt8)
  | bin (s : List UInt8)
  | arr (ms : List Msg)
  | map (kvs : List (List UInt8 × Msg))

namespace Msg

/-- `s` begins with a length `n`: in the tag itself from `fixTag` on, or after one of the tags, most
significant byte first, in the number of bytes of the tag. -/
inductive Header (fixTag fixLim : ℕ) (tags : List (UInt8 × ℕ)) (n : ℕ) :
    List UInt8 → List UInt8 → Prop
  | fix {r : List UInt8} (h : n < fixLim) :
      Header fixTag fixLim tags n (UInt8.ofNat (fixTag + n) :: r) r
  | wide {tag : UInt8} {w : ℕ} {r : List UInt8} (htag : (tag, w) ∈ tags) (h : n < 256 ^ w) :
      Header fixTag fixLim tags n (tag :: (putBe w n ++ r)) r

/-- The length of a string. -/
def StrHeader (n : ℕ) : List UInt8 → List UInt8 → Prop :=
  Header 0xa0 32 [(0xd9, 1), (0xda, 2), (0xdb, 4)] n

/-- The length of a byte string, which has no short form. -/
def BinHeader (n : ℕ) : List UInt8 → List UInt8 → Prop :=
  Header 0 0 [(0xc4, 1), (0xc5, 2), (0xc6, 4)] n

/-- The number of elements of an array. -/
def ArrHeader (n : ℕ) : List UInt8 → List UInt8 → Prop := Header 0x90 16 [(0xdc, 2), (0xdd, 4)] n

/-- The number of entries of a map. -/
def MapHeader (n : ℕ) : List UInt8 → List UInt8 → Prop := Header 0x80 16 [(0xde, 2), (0xdf, 4)] n

/-- The tags of the unsigned integers with their widths. -/
def uintTags : List (UInt8 × ℕ) := [(0xcc, 1), (0xcd, 2), (0xce, 4), (0xcf, 8)]

/-- The tags of the signed integers with their widths. -/
def sintTags : List (UInt8 × ℕ) := [(0xd0, 1), (0xd1, 2), (0xd2, 4), (0xd3, 8)]

/-- Encodings one after the other. -/
inductive Chain (R : Msg → List UInt8 → List UInt8 → Prop) :
    List Msg → List UInt8 → List UInt8 → Prop
  | nil {s : List UInt8} : Chain R [] s s
  | cons {m : Msg} {ms : List Msg} {s t r : List UInt8} (head : R m s t) (tail : Chain R ms t r) :
      Chain R (m :: ms) s r

/-- The encodings of keys and values in turn. -/
inductive Entries (R : Msg → List UInt8 → List UInt8 → Prop) :
    List (List UInt8 × Msg) → List UInt8 → List UInt8 → Prop
  | nil {s : List UInt8} : Entries R [] s s
  | cons {k : List UInt8} {m : Msg} {kvs : List (List UInt8 × Msg)} {s t u r : List UInt8}
      (key : StrHeader k.length s (k ++ t)) (val : R m t u) (tail : Entries R kvs u r) :
      Entries R ((k, m) :: kvs) s r

/-- **The format**: `s` is an encoding of the message followed by `r`. -/
inductive Wire : Msg → List UInt8 → List UInt8 → Prop
  | nil {r : List UInt8} : Wire .nil (0xc0 :: r) r
  | false {r : List UInt8} : Wire (.bool false) (0xc2 :: r) r
  | true {r : List UInt8} : Wire (.bool true) (0xc3 :: r) r
  | positive {n : ℕ} {r : List UInt8} (h : n < 128) : Wire (.int n) (UInt8.ofNat n :: r) r
  | negative {n : ℕ} {r : List UInt8} (h0 : 0 < n) (h : n ≤ 32) :
      Wire (.int (-n)) (UInt8.ofNat (256 - n) :: r) r
  | uint {tag : UInt8} {w n : ℕ} {r : List UInt8} (htag : (tag, w) ∈ uintTags) (h : n < 256 ^ w) :
      Wire (.int n) (tag :: (putBe w n ++ r)) r
  | sint {tag : UInt8} {w : ℕ} {n : ℤ} {r : List UInt8} (htag : (tag, w) ∈ sintTags)
      (hlo : -(256 ^ w / 2) ≤ n) (hhi : n < 256 ^ w / 2) :
      Wire (.int n) (tag :: (putBe w (n % 256 ^ w).toNat ++ r)) r
  | float32 {bits : UInt32} {r : List UInt8} :
      Wire (.float32 bits) (0xca :: (putBe 4 bits.toNat ++ r)) r
  | float64 {bits : UInt64} {r : List UInt8} :
      Wire (.float64 bits) (0xcb :: (putBe 8 bits.toNat ++ r)) r
  | str {s t r : List UInt8} (h : StrHeader s.length t (s ++ r)) : Wire (.str s) t r
  | bin {s t r : List UInt8} (h : BinHeader s.length t (s ++ r)) : Wire (.bin s) t r
  | arr {ms : List Msg} {s t r : List UInt8} (h : ArrHeader ms.length s t)
      (elems : Chain Wire ms t r) : Wire (.arr ms) s r
  | map {kvs : List (List UInt8 × Msg)} {s t r : List UInt8} (h : MapHeader kvs.length s t)
      (entries : Entries Wire kvs t r) : Wire (.map kvs) s r

/-- The message and those inside it. -/
inductive Sub : Msg → Msg → Prop
  | refl {m : Msg} : Sub m m
  | arr {x m : Msg} {ms : List Msg} (hm : m ∈ ms) (h : Sub x m) : Sub x (.arr ms)
  | map {x : Msg} {kv : List UInt8 × Msg} {kvs : List (List UInt8 × Msg)} (hm : kv ∈ kvs)
      (h : Sub x kv.2) : Sub x (.map kvs)

end Msg

end Alcove.Lib
