import Alcove.Json.Decode
import Mathlib.Data.Nat.Digits.Defs

/-!
# The JSON encoder

`js_encode` of `json.h`: the bytes it appends to the buffer, or failure. `room` is what is left of
`jsMaxDepth` for nested calls. The text of a float is the C library's `%.17g` (`fmt17`).

Encoding and decoding give the value back up to what the format does not keep apart (`Image`): the
shapes of nil, symbols and strings, chars and fixnums, vectors and lists, and the order of a dict's
table.
-/

namespace Alcove.Json

open Lib

/-! ## Texts and numbers -/

/-- A digit of `%x`. -/
def hexDigit (n : ℕ) : UInt8 := if n < 10 then UInt8.ofNat (0x30 + n) else UInt8.ofNat (0x57 + n)

/-- What `js_put_string` puts for a byte. -/
def jsEscape (c : UInt8) : List UInt8 :=
  if c = 0x22 then [0x5c, 0x22]
  else if c = 0x5c then [0x5c, 0x5c]
  else if c = 0x08 then [0x5c, 0x62]
  else if c = 0x0c then [0x5c, 0x66]
  else if c = 0x0a then [0x5c, 0x6e]
  else if c = 0x0d then [0x5c, 0x72]
  else if c = 0x09 then [0x5c, 0x74]
  else if c < 0x20 then [0x5c, 0x75, 0x30, 0x30, hexDigit (c.toNat / 16), hexDigit (c.toNat % 16)]
  else [c]

/-- `js_put_string` -/
def jsPutString (s : CStr) : List UInt8 := 0x22 :: (s.bytes.flatMap jsEscape ++ [0x22])

/-- `%u` -/
def formatNat (n : ℕ) : List UInt8 :=
  if n = 0 then [0x30] else (Nat.digits 10 n).reverse.map fun d => UInt8.ofNat (0x30 + d)

/-- `%lld` -/
def formatInt (v : ℤ) : List UInt8 :=
  if v < 0 then 0x2d :: formatNat v.natAbs else formatNat v.natAbs

/-- `d == d && d != 1.0 / 0.0 && d != -1.0 / 0.0` -/
def isFinite (bits : UInt64) : Bool := bits.toNat / 2 ^ 52 % 2 ^ 11 ≠ 2 ^ 11 - 1

/-- `strpbrk(tmp, ".eE")` -/
def hasPoint (tmp : List UInt8) : Bool := tmp.any fun c => c == 0x2e || c == 0x65 || c == 0x45

/-- The text of a finite float, with `.0` where it would read as an integer. -/
def formatFloat (fmt17 : UInt64 → List UInt8) (bits : UInt64) : List UInt8 :=
  if hasPoint (fmt17 bits) then fmt17 bits else fmt17 bits ++ [0x2e, 0x30]

/-! ## Containers and values -/

/-- `js_newline_indent` -/
def jsNewlineIndent (indent depth : ℕ) : List UInt8 :=
  if indent = 0 then [] else 0x0a :: List.replicate (indent * depth) 0x20

/-- What stands between the brackets: the items with a comma before each but the first. -/
def jsItems (indent depth : ℕ) (first : Bool) : List (Option (List UInt8)) → Option (List UInt8)
  | [] => some (if first then [] else jsNewlineIndent indent depth)
  | item :: items => do
    let x ← item
    let xs ← jsItems indent depth false items
    return (if first then [] else [0x2c]) ++ jsNewlineIndent indent (depth + 1) ++ x ++ xs

/-- A key and its value. -/
def jsMember (indent : ℕ) (encode : Exp → Option (List UInt8)) (kv : CStr × Exp) :
    Option (List UInt8) := do
  let x ← encode kv.2
  return jsPutString kv.1 ++ 0x3a :: ((if indent = 0 then [] else [0x20]) ++ x)

/-- `vec_get_boxed` of an integer cell. -/
def boxI64 (v : ℤ) : Exp := if fixFits v then .fix (makeFix v) else .float (doubleOfInt v)

section

variable (fmt17 : UInt64 → List UInt8)

/-- The branches of `js_encode` at `depth`, over the nested call. -/
def jsEncodeValue (indent depth : ℕ) (encode : Exp → Option (List UInt8)) :
    Exp → Option (List UInt8)
  | .null | .nil => some [0x6e, 0x75, 0x6c, 0x6c]
  | .t => some [0x74, 0x72, 0x75, 0x65]
  | .fix n => some (formatInt n.1)
  | .char c => some (formatNat c.toNat)
  | .float bits => if isFinite bits then some (formatFloat fmt17 bits) else none
  | .string text | .symbol text => some (jsPutString text)
  | .pair content next => do
    let xs ← jsItems indent depth true ((Exp.pair content next).elems.map encode)
    return 0x5b :: (xs ++ [0x5d])
  | .vector cells => do
    let xs ← jsItems indent depth true (cells.map encode)
    return 0x5b :: (xs ++ [0x5d])
  | .vectorI64 cells => do
    let xs ← jsItems indent depth true ((cells.map boxI64).map encode)
    return 0x5b :: (xs ++ [0x5d])
  | .vectorF64 cells => do
    let xs ← jsItems indent depth true ((cells.map Exp.float).map encode)
    return 0x5b :: (xs ++ [0x5d])
  | .dict d => do
    let xs ← jsItems indent depth true (d.entries.map (jsMember indent encode))
    return 0x7b :: (xs ++ [0x7d])
  | _ => none

/-- `js_encode` at depth `jsMaxDepth + 1 - room`. -/
def jsEncode (indent : ℕ) : ℕ → Exp → Option (List UInt8)
  | 0, _ => none
  | room + 1, v => jsEncodeValue fmt17 indent (jsMaxDepth - room) (jsEncode indent room) v

/-- How `json-encode` ends: with an error, with the end of the process, or with a string. -/
inductive Encoded
  | error
  | shutdown
  | string (text : CStr)

/-- The indent that the second argument stands for. -/
def indentOf : Exp → Option ℕ
  | .nil => some 0
  | .fix n => if n.1 < 0 ∨ 16 < n.1 then none else some n.1.toNat
  | _ => none

/-- `make_string(m.b, (int)m.len)` -/
def makeStringInt (m : List UInt8) : Encoded :=
  let length := (m.length : ℤ).bmod (2 ^ 32)
  if length < 0 then .shutdown else .string (CStr.ofBytes (m.take length.toNat))

/-- `json-encode`; without a second argument `indexp` is nil. -/
def jsonencodecmd (v indexp : Exp) : Encoded :=
  match indentOf indexp with
  | none => .error
  | some indent =>
    match jsEncode fmt17 indent (jsMaxDepth + 1) v with
    | none => .error
    | some m => makeStringInt m

end

/-! ## The values of the codec -/

variable (fmt17 : UInt64 → List UInt8) (strtod : List UInt8 → UInt64)

/-- What is taken of the C library at a finite float: `%.17g` writes a number of JSON, `strtod` reads it
back, and `.0` after its last digit makes no difference. -/
structure Inverts (bits : UInt64) : Prop where
  number : ∃ x : JsonNumber, x.Valid ∧ x.text = fmt17 bits
  reads : strtod (fmt17 bits) = bits
  reads_point : hasPoint (fmt17 bits) = false → strtod (fmt17 bits ++ [0x2e, 0x30]) = bits

/-- A value built from nil, t, fixnums, finite floats, chars, strings, symbols, proper lists, vectors and
dicts that nest at most `n` deep; no element of a list is the NULL pointer. -/
inductive Plain : ℕ → Exp → Prop
  | null {n : ℕ} : Plain n .null
  | nil {n : ℕ} : Plain n .nil
  | t {n : ℕ} : Plain n .t
  | fix {n : ℕ} (i : Fixnum) : Plain n (.fix i)
  | char {n : ℕ} (c : UInt32) : Plain n (.char c)
  | float {n : ℕ} {bits : UInt64} (hfin : isFinite bits) (h : Inverts fmt17 strtod bits) :
      Plain n (.float bits)
  | string {n : ℕ} (text : CStr) : Plain n (.string text)
  | symbol {n : ℕ} (text : CStr) : Plain n (.symbol text)
  | list {n : ℕ} {xs : List Exp} {tail : Exp} (hne : xs ≠ []) (hnull : ∀ x ∈ xs, x ≠ .null)
      (htail : tail = .null ∨ tail = .nil) (h : ∀ x ∈ xs, Plain n x) : Plain (n + 1) (.cells tail xs)
  | vector {n : ℕ} {cells : List Exp} (h : ∀ x ∈ cells, Plain n x) : Plain (n + 1) (.vector cells)
  | vectorI64 {n : ℕ} {cells : List ℤ} (hfits : ∀ v ∈ cells, Fits 64 v)
      (h : ∀ v ∈ cells, ¬ fixFits v → Inverts fmt17 strtod (doubleOfInt v)) :
      Plain (n + 1) (.vectorI64 cells)
  | vectorF64 {n : ℕ} {cells : List UInt64} (hfin : ∀ bits ∈ cells, isFinite bits)
      (h : ∀ bits ∈ cells, Inverts fmt17 strtod bits) : Plain (n + 1) (.vectorF64 cells)
  | dict {n : ℕ} {d : Dict Exp} (hok : d.Ok) (h : ∀ kv ∈ d.entries, Plain n kv.2) :
      Plain (n + 1) (.dict d)

/-- **The documented image of a value**: symbols as strings, chars as their code points, vectors as
lists, and every nil, empty list or empty vector as nil. -/
inductive Image : Exp → Exp → Prop
  | null : Image .null .nil
  | nil : Image .nil .nil
  | t : Image .t .t
  | fix (i : Fixnum) : Image (.fix i) (.fix i)
  | char (c : UInt32) : Image (.char c) (.fix (makeFix c.toNat))
  | float (bits : UInt64) : Image (.float bits) (.float bits)
  | string (text : CStr) : Image (.string text) (.string text)
  | symbol (text : CStr) : Image (.symbol text) (.string text)
  | list {xs ys : List Exp} {tail : Exp} (htail : tail = .null ∨ tail = .nil)
      (h : List.Forall₂ Image xs ys) : Image (.cells tail xs) (Exp.ofList ys)
  | vector {cells ys : List Exp} (h : List.Forall₂ Image cells ys) :
      Image (.vector cells) (Exp.ofList ys)
  | vectorI64 (cells : List ℤ) : Image (.vectorI64 cells) (Exp.ofList (cells.map boxI64))
  | vectorF64 (cells : List UInt64) : Image (.vectorF64 cells) (Exp.ofList (cells.map Exp.float))
  | dict {d d' : Dict Exp} (hused : d'.used = d.used)
      (h : ∀ key, Option.Rel Image (d.find key) (d'.find key)) : Image (.dict d) (.dict d')

end Alcove.Json
