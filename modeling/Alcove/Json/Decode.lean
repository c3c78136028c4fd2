import Alcove.Lib.Cursor
import Alcove.Lib.JsonGrammar
import Alcove.Value.Exp

/-!
# The JSON decoder

`js_decode` of `json.h` on a buffer of `len` bytes, with its position as the state of a `Cursor`. Every
`b[i]` is a read that may overrun, and every `while (1)` a loop whose rounds are counted. `strtod` is
the C library's.
-/

namespace Alcove.Json

open Lib Cursor

/-- `JS_MAX_DEPTH` -/
def jsMaxDepth : ℕ := 512

/-- `INT_MAX` -/
def intMax : ℕ := 2 ^ 31 - 1

/-! ## Strings -/

/-- `chr2hex`, where a digit has a value. -/
def chr2hex (c : UInt8) : Option ℕ :=
  if isDigit c then some (c.toNat - 0x30)
  else if 0x41 ≤ c ∧ c ≤ 0x46 then some (c.toNat - 0x41 + 10)
  else if 0x61 ≤ c ∧ c ≤ 0x66 then some (c.toNat - 0x61 + 10)
  else none

/-- `utf8_encode` -/
def utf8Encode (cp : ℕ) : List UInt8 :=
  if cp < 0x80 then [UInt8.ofNat cp]
  else if cp < 0x800 then [UInt8.ofNat (0xc0 ||| cp >>> 6), UInt8.ofNat (0x80 ||| cp &&& 0x3f)]
  else if cp < 0x10000 then
    [UInt8.ofNat (0xe0 ||| cp >>> 12), UInt8.ofNat (0x80 ||| cp >>> 6 &&& 0x3f),
      UInt8.ofNat (0x80 ||| cp &&& 0x3f)]
  else
    [UInt8.ofNat (0xf0 ||| cp >>> 18), UInt8.ofNat (0x80 ||| cp >>> 12 &&& 0x3f),
      UInt8.ofNat (0x80 ||| cp >>> 6 &&& 0x3f), UInt8.ofNat (0x80 ||| cp &&& 0x3f)]

/-- The value of four digits. -/
def hexValue : List UInt8 → Option ℕ :=
  List.foldlM (fun v c => (chr2hex c).map fun d => v <<< 4 ||| d) 0

/-- `js_hex4(b, len, *pos + i, &v)`; the position stays. -/
def jsHex4 (i : ℕ) : Cursor UInt8 (Option ℕ) := do
  let inside ← avail (i + 4)
  if inside then
    let h₁ ← peek i
    let h₂ ← peek (i + 1)
    let h₃ ← peek (i + 2)
    let h₄ ← peek (i + 3)
    return hexValue [h₁, h₂, h₃, h₄]
  else return none

/-- The second half of a surrogate pair, after the first. -/
def jsDecodeLow (cp : ℕ) : Cursor UInt8 (List UInt8) := do
  let inside ← avail 6
  let backslash ← test 0 (· == 0x5c)
  let u ← test 1 (· == 0x75)
  if inside && backslash && u then
    match ← jsHex4 2 with
    | some lo =>
      if lo < 0xdc00 ∨ 0xdfff < lo then fail
      else (fun _ => utf8Encode (0x10000 + (cp - 0xd800) <<< 10 + (lo - 0xdc00))) <$> skip 6
    | none => fail
  else fail

/-- What an escape `\u` stands for, after the letter. -/
def jsDecodeUnicode : Cursor UInt8 (List UInt8) := do
  match ← jsHex4 0 with
  | some cp =>
    if cp = 0 then fail
    else
      skip 4
      if 0xd800 ≤ cp ∧ cp ≤ 0xdbff then jsDecodeLow cp
      else if 0xdc00 ≤ cp ∧ cp ≤ 0xdfff then fail
      else return utf8Encode cp
  | none => fail

/-- The letters of the short escapes, with what they stand for. -/
def shortEscapes : List (UInt8 × UInt8) :=
  [(0x22, 0x22), (0x5c, 0x5c), (0x2f, 0x2f), (0x62, 0x08), (0x66, 0x0c), (0x6e, 0x0a),
    (0x72, 0x0d), (0x74, 0x09)]

/-- What an escape stands for, after the reverse solidus. -/
def jsDecodeEscape : Cursor UInt8 (List UInt8) := do
  let inside ← avail 1
  if inside then
    let esc ← next
    match shortEscapes.lookup esc with
    | some c => return [c]
    | none => if esc = 0x75 then jsDecodeUnicode else fail
  else fail

/-- A round of the loop of `js_decode_string`, with the bytes put so far. -/
def jsDecodeChar (m : List UInt8) : Cursor UInt8 (List UInt8 ⊕ List UInt8) := do
  let inside ← avail 1
  if inside then
    let c ← next
    if c = 0x22 then return .inr m
    else if c < 0x20 then fail
    else if c ≠ 0x5c then return .inl (m ++ [c])
    else (fun x => .inl (m ++ x)) <$> jsDecodeEscape
  else fail

/-- `make_string(m.b, (int)m.len)`: a text beyond `INT_MAX` ends the process. -/
def makeString (m : List UInt8) : Cursor UInt8 CStr :=
  if intMax < m.length then exhausted else return CStr.ofBytes m

/-- `js_decode_string`, after the opening quote. -/
def jsDecodeString : Cursor UInt8 CStr := do
  let m ← loop jsDecodeChar []
  makeString m

/-! ## Numbers -/

/-- `js_skip_ws` -/
def jsSkipWs : Cursor UInt8 Unit := skipWhile isWs

/-- A digit is required, and all that follow are passed over. -/
def jsDigits : Cursor UInt8 Unit := do
  let digit ← test 0 isDigit
  if digit then skipWhile isDigit else fail

/-- The digits before the point, with no leading zero. -/
def jsIntPart : Cursor UInt8 Unit := do
  let digit ← test 0 isDigit
  if digit then
    let zero ← test 0 (· == 0x30)
    let more ← test 1 isDigit
    if zero && more then fail else skipWhile isDigit
  else fail

/-- The exponent, after its letter. -/
def jsExponent : Cursor UInt8 Unit := do
  let _ ← skipIf fun c => c == 0x2b || c == 0x2d
  jsDigits

/-- The part of a number that follows the byte that announces it. -/
def jsPart (f : UInt8 → Bool) (part : Cursor UInt8 Unit) : Cursor UInt8 Bool := do
  let found ← skipIf f
  if found then (fun _ => true) <$> part else return false

/-- The scan of `js_decode_number`, and its `isfloat_tok`. -/
def jsScanNumber : Cursor UInt8 Bool := do
  let _ ← skipIf (· == 0x2d)
  jsIntPart
  let point ← jsPart (· == 0x2e) jsDigits
  let e ← jsPart (fun c => c == 0x65 || c == 0x45) jsExponent
  return point || e

/-- The digits of a decimal number. -/
def decValue (ds : List UInt8) : ℕ := ds.foldl (fun v d => v * 10 + (d.toNat - 0x30)) 0

/-- `strtoll(tmp, NULL, 10)` of a sign and digits, or `ERANGE`. -/
def strtoll (tok : List UInt8) : Option ℤ :=
  let v : ℤ := match tok with
    | 0x2d :: ds => -decValue ds
    | ds => decValue ds
  if Fits 64 v then some v else none

section

variable (strtod : List UInt8 → UInt64)

/-- The value of a number token; a token that fills `tmp` is parsed as a double. -/
def numberValue (isfloatTok : Bool) (tok : List UInt8) : Exp :=
  if 64 ≤ tok.length then .float (strtod tok)
  else if isfloatTok then .float (strtod tok)
  else match strtoll tok with
    | some v => if fixFits v then .fix (makeFix v) else .float (strtod tok)
    | none => .float (strtod tok)

/-- `js_decode_number` -/
def jsDecodeNumber : Cursor UInt8 Exp :=
  (fun x => numberValue strtod x.1 x.2) <$> span jsScanNumber

/-! ## Containers and values -/

/-- A round of the loop of `js_decode_array`, with the elements appended so far. -/
def jsDecodeElement (decode : Cursor UInt8 Exp) (els : List Exp) :
    Cursor UInt8 (List Exp ⊕ List Exp) := do
  let el ← decode
  jsSkipWs
  let comma ← skipIf (· == 0x2c)
  if comma then return .inl (els ++ [el])
  else
    let close ← skipIf (· == 0x5d)
    if close then return .inr (els ++ [el]) else fail

/-- `js_decode_array`, after the bracket. -/
def jsDecodeArray (decode : Cursor UInt8 Exp) : Cursor UInt8 Exp := do
  jsSkipWs
  let close ← skipIf (· == 0x5d)
  if close then return .nil else Exp.cells .null <$> loop (jsDecodeElement decode) []

/-- A round of the loop of `js_decode_object`, with the dict built so far. -/
def jsDecodeMember (decode : Cursor UInt8 Exp) (d : Dict Exp) :
    Cursor UInt8 (Dict Exp ⊕ Dict Exp) := do
  jsSkipWs
  let quote ← skipIf (· == 0x22)
  if quote then
    let key ← jsDecodeString
    jsSkipWs
    let colon ← skipIf (· == 0x3a)
    if colon then
      let val ← decode
      jsSkipWs
      let comma ← skipIf (· == 0x2c)
      if comma then return .inl (d.set key val)
      else
        let close ← skipIf (· == 0x7d)
        if close then return .inr (d.set key val) else fail
    else fail
  else fail

/-- `js_decode_object`, after the brace. -/
def jsDecodeObject (decode : Cursor UInt8 Exp) : Cursor UInt8 Exp := do
  jsSkipWs
  let close ← skipIf (· == 0x7d)
  if close then return .dict Dict.create else Exp.dict <$> loop (jsDecodeMember decode) Dict.create

/-- `*pos + n <= len && memcmp(b + *pos, word, n) == 0`, then `*pos += n`. -/
def jsWord (word : List UInt8) : Cursor UInt8 Bool := do
  let inside ← avail word.length
  if inside then
    let bytes ← slice word.length
    if bytes = word then (fun _ => true) <$> skip word.length else return false
  else return false

/-- The branches of `js_decode` on `c = b[*pos]`, over the nested call at `depth + 1`. -/
def jsDecodeValue (decode : Cursor UInt8 Exp) (c : UInt8) : Cursor UInt8 Exp :=
  if c = 0x7b then do
    skip 1
    jsDecodeObject decode
  else if c = 0x5b then do
    skip 1
    jsDecodeArray decode
  else if c = 0x22 then do
    skip 1
    Exp.string <$> jsDecodeString
  else if c = 0x74 then do
    if ← jsWord [0x74, 0x72, 0x75, 0x65] then return .t else fail
  else if c = 0x66 then do
    if ← jsWord [0x66, 0x61, 0x6c, 0x73, 0x65] then return .nil else fail
  else if c = 0x6e then do
    if ← jsWord [0x6e, 0x75, 0x6c, 0x6c] then return .nil else fail
  else if c = 0x2d ∨ isDigit c then jsDecodeNumber strtod
  else fail

/-- `js_decode(b, len, pos, depth)` with `fuel` activations left. -/
def jsDecode : ℕ → ℕ → Cursor UInt8 Exp
  | 0, _ => exhausted
  | fuel + 1, depth =>
    if jsMaxDepth < depth then fail
    else do
      jsSkipWs
      let inside ← avail 1
      if inside then
        let c ← peek 0
        jsDecodeValue strtod (jsDecode fuel (depth + 1)) c
      else fail

/-- The calls of `json-decode` on the text of its argument. -/
def jsDecodeText : Cursor UInt8 Exp := do
  let ret ← jsDecode strtod (jsMaxDepth + 2) 0
  jsSkipWs
  return ret

/-- `json-decode` -/
def jsondecodecmd (s : CStr) : Option Exp :=
  match jsDecodeText strtod s.bytes 0 with
  | .ok ret pos => if pos = s.length then some ret else none
  | _ => none

end

end Alcove.Json
