import Mathlib.Data.List.Basic

/-!
# The JSON grammar of RFC 8259

JSON texts as byte strings, with every byte from 0x80 on taken for part of a character. The syntax
trees (`Json`) keep the tokens as they are written; `Derives j s r` says that `s` begins with a value
whose tree is `j`, without white space around it, and that `r` is what follows it.
-/

namespace Alcove.Lib

/-- `%x20 / %x09 / %x0A / %x0D` -/
def isWs (c : UInt8) : Bool := c == 0x20 || c == 0x09 || c == 0x0a || c == 0x0d

/-- `DIGIT` -/
def isDigit (c : UInt8) : Bool := 0x30 ≤ c && c ≤ 0x39

/-- `HEXDIG`, in either case -/
def isHexDigit (c : UInt8) : Bool :=
  isDigit c || (0x41 ≤ c && c ≤ 0x46) || (0x61 ≤ c && c ≤ 0x66)

/-- A character of a string as it is written: itself, an escape of one letter, or four digits. -/
inductive JsonChar
  | raw (c : UInt8)
  | esc (c : UInt8)
  | hex (h₁ h₂ h₃ h₄ : UInt8)

namespace JsonChar

/-- The bytes of a character. -/
def text : JsonChar → List UInt8
  | raw c => [c]
  | esc c => [0x5c, c]
  | hex h₁ h₂ h₃ h₄ => [0x5c, 0x75, h₁, h₂, h₃, h₄]

/-- `unescaped = %x20-21 / %x23-5B / %x5D-10FFFF`, and the letters that may follow a reverse
solidus. -/
def Valid : JsonChar → Prop
  | raw c => 0x20 ≤ c ∧ c ≠ 0x22 ∧ c ≠ 0x5c
  | esc c => c ∈ [0x22, 0x5c, 0x2f, 0x62, 0x66, 0x6e, 0x72, 0x74]
  | hex h₁ h₂ h₃ h₄ => isHexDigit h₁ ∧ isHexDigit h₂ ∧ isHexDigit h₃ ∧ isHexDigit h₄

end JsonChar

/-- The value of a hexadecimal digit. -/
def hexDigitValue (c : UInt8) : ℕ :=
  if isDigit c then c.toNat - 0x30
  else if c ≤ 0x46 then c.toNat - 0x41 + 10
  else c.toNat - 0x61 + 10

/-- The code unit that four digits name. -/
def codeUnit (h₁ h₂ h₃ h₄ : UInt8) : ℕ :=
  ((hexDigitValue h₁ * 16 + hexDigitValue h₂) * 16 + hexDigitValue h₃) * 16 + hexDigitValue h₄

/-- The first half of a surrogate pair. -/
def IsHigh (cp : ℕ) : Prop := 0xd800 ≤ cp ∧ cp ≤ 0xdbff

/-- The second half of a surrogate pair. -/
def IsLow (cp : ℕ) : Prop := 0xdc00 ≤ cp ∧ cp ≤ 0xdfff

/-- No digits name the code unit 0, and those that name surrogates come in pairs. -/
inductive Proper : List JsonChar → Prop
  | nil : Proper []
  | raw {c : UInt8} {cs : List JsonChar} (h : Proper cs) : Proper (.raw c :: cs)
  | esc {c : UInt8} {cs : List JsonChar} (h : Proper cs) : Proper (.esc c :: cs)
  | scalar {h₁ h₂ h₃ h₄ : UInt8} {cs : List JsonChar} (hzero : codeUnit h₁ h₂ h₃ h₄ ≠ 0)
      (hhigh : ¬ IsHigh (codeUnit h₁ h₂ h₃ h₄)) (hlow : ¬ IsLow (codeUnit h₁ h₂ h₃ h₄))
      (h : Proper cs) : Proper (.hex h₁ h₂ h₃ h₄ :: cs)
  | pair {h₁ h₂ h₃ h₄ l₁ l₂ l₃ l₄ : UInt8} {cs : List JsonChar}
      (hhigh : IsHigh (codeUnit h₁ h₂ h₃ h₄)) (hlow : IsLow (codeUnit l₁ l₂ l₃ l₄))
      (h : Proper cs) : Proper (.hex h₁ h₂ h₃ h₄ :: .hex l₁ l₂ l₃ l₄ :: cs)

/-- A number as it is written: `[ minus ] int [ frac ] [ exp ]`. -/
structure JsonNumber where
  minus : Bool
  int : List UInt8
  frac : Option (List UInt8)
  exp : Option (UInt8 × Option UInt8 × List UInt8)

namespace JsonNumber

/-- `1*DIGIT` -/
def Digits (ds : List UInt8) : Prop := ds ≠ [] ∧ ∀ d ∈ ds, isDigit d

/-- `frac = decimal-point 1*DIGIT` -/
def fracText : Option (List UInt8) → List UInt8
  | none => []
  | some ds => 0x2e :: ds

/-- `exp = e [ minus / plus ] 1*DIGIT` -/
def expText : Option (UInt8 × Option UInt8 × List UInt8) → List UInt8
  | none => []
  | some (e, sign, ds) => e :: (sign.toList ++ ds)

/-- The bytes of a number. -/
def text (n : JsonNumber) : List UInt8 :=
  (if n.minus then [0x2d] else []) ++ n.int ++ fracText n.frac ++ expText n.exp

/-- `int = zero / ( digit1-9 *DIGIT )`, and digits where they are required. -/
structure Valid (n : JsonNumber) : Prop where
  int : Digits n.int
  noLeadingZero : n.int.head? = some 0x30 → n.int = [0x30]
  frac : ∀ ds, n.frac = some ds → Digits ds
  exp : ∀ e sign ds, n.exp = some (e, sign, ds) →
    (e = 0x65 ∨ e = 0x45) ∧ (∀ c, sign = some c → c = 0x2b ∨ c = 0x2d) ∧ Digits ds

end JsonNumber

/-- A syntax tree. -/
inductive Json
  | null
  | bool (b : Bool)
  | number (n : JsonNumber)
  | string (cs : List JsonChar)
  | array (js : List Json)
  | object (kvs : List (List JsonChar × Json))

namespace Json

/-- `ws` -/
inductive Ws : List UInt8 → List UInt8 → Prop
  | nil {s : List UInt8} : Ws s s
  | cons {c : UInt8} {s r : List UInt8} (hc : isWs c) (h : Ws s r) : Ws (c :: s) r

/-- `string = quotation-mark *char quotation-mark` -/
inductive DerivesString (cs : List JsonChar) : List UInt8 → List UInt8 → Prop
  | mk {r : List UInt8} (h : ∀ c ∈ cs, c.Valid) :
      DerivesString cs (0x22 :: (cs.flatMap JsonChar.text ++ 0x22 :: r)) r

/-- `value *( value-separator value )`, with the white space around the values. -/
inductive Elements (R : Json → List UInt8 → List UInt8 → Prop) :
    List Json → List UInt8 → List UInt8 → Prop
  | one {j : Json} {s t u r : List UInt8} (hs : Ws s t) (hj : R j t u) (hr : Ws u r) :
      Elements R [j] s r
  | cons {j : Json} {js : List Json} {s t u v r : List UInt8} (hs : Ws s t) (hj : R j t u)
      (hv : Ws u (0x2c :: v)) (tail : Elements R js v r) : Elements R (j :: js) s r

/-- `member = string name-separator value`, with the white space around its parts. -/
inductive Member (R : Json → List UInt8 → List UInt8 → Prop) :
    List JsonChar × Json → List UInt8 → List UInt8 → Prop
  | mk {k : List JsonChar} {j : Json} {s t u v w x r : List UInt8} (hs : Ws s t) (hk : DerivesString k t u)
      (hcolon : Ws u (0x3a :: v)) (hv : Ws v w) (hj : R j w x) (hr : Ws x r) : Member R (k, j) s r

/-- `member *( value-separator member )` -/
inductive Members (R : Json → List UInt8 → List UInt8 → Prop) :
    List (List JsonChar × Json) → List UInt8 → List UInt8 → Prop
  | one {kv : List JsonChar × Json} {s r : List UInt8} (h : Member R kv s r) : Members R [kv] s r
  | cons {kv : List JsonChar × Json} {kvs : List (List JsonChar × Json)} {s v r : List UInt8}
      (h : Member R kv s (0x2c :: v)) (tail : Members R kvs v r) : Members R (kv :: kvs) s r

/-- **The grammar**: `value = false / null / true / object / array / number / string`. -/
inductive Derives : Json → List UInt8 → List UInt8 → Prop
  | null {r : List UInt8} : Derives .null (0x6e :: 0x75 :: 0x6c :: 0x6c :: r) r
  | true {r : List UInt8} : Derives (.bool true) (0x74 :: 0x72 :: 0x75 :: 0x65 :: r) r
  | false {r : List UInt8} : Derives (.bool false) (0x66 :: 0x61 :: 0x6c :: 0x73 :: 0x65 :: r) r
  | number {n : JsonNumber} {r : List UInt8} (h : n.Valid) : Derives (.number n) (n.text ++ r) r
  | string {cs : List JsonChar} {s r : List UInt8} (h : DerivesString cs s r) :
      Derives (.string cs) s r
  | emptyArray {s r : List UInt8} (h : Ws s (0x5d :: r)) : Derives (.array []) (0x5b :: s) r
  | array {js : List Json} {s r : List UInt8} (h : Elements Derives js s (0x5d :: r)) :
      Derives (.array js) (0x5b :: s) r
  | emptyObject {s r : List UInt8} (h : Ws s (0x7d :: r)) : Derives (.object []) (0x7b :: s) r
  | object {kvs : List (List JsonChar × Json)} {s r : List UInt8}
      (h : Members Derives kvs s (0x7d :: r)) : Derives (.object kvs) (0x7b :: s) r

/-- The strings of the tree are proper, and each of its values is inside at most `n` containers. -/
inductive Acceptable : ℕ → Json → Prop
  | null {n : ℕ} : Acceptable n .null
  | bool {n : ℕ} (b : Bool) : Acceptable n (.bool b)
  | number {n : ℕ} (x : JsonNumber) : Acceptable n (.number x)
  | string {n : ℕ} {cs : List JsonChar} (h : Proper cs) : Acceptable n (.string cs)
  | emptyArray {n : ℕ} : Acceptable n (.array [])
  | array {n : ℕ} {js : List Json} (h : ∀ j ∈ js, Acceptable n j) : Acceptable (n + 1) (.array js)
  | emptyObject {n : ℕ} : Acceptable n (.object [])
  | object {n : ℕ} {kvs : List (List JsonChar × Json)} (hkeys : ∀ kv ∈ kvs, Proper kv.1)
      (h : ∀ kv ∈ kvs, Acceptable n kv.2) : Acceptable (n + 1) (.object kvs)

/-- The strings of the tree are proper, and its containers nest at most `n` deep. -/
inductive NestsWithin : ℕ → Json → Prop
  | null {n : ℕ} : NestsWithin n .null
  | bool {n : ℕ} (b : Bool) : NestsWithin n (.bool b)
  | number {n : ℕ} (x : JsonNumber) : NestsWithin n (.number x)
  | string {n : ℕ} {cs : List JsonChar} (h : Proper cs) : NestsWithin n (.string cs)
  | array {n : ℕ} {js : List Json} (h : ∀ j ∈ js, NestsWithin n j) : NestsWithin (n + 1) (.array js)
  | object {n : ℕ} {kvs : List (List JsonChar × Json)} (hkeys : ∀ kv ∈ kvs, Proper kv.1)
      (h : ∀ kv ∈ kvs, NestsWithin n kv.2) : NestsWithin (n + 1) (.object kvs)

/-- The two ways to count differ at the containers that are empty. -/
theorem NestsWithin.acceptable {n : ℕ} {j : Json} (h : NestsWithin n j) : Acceptable n j := by
  induction h with
  | null => exact .null
  | bool b => exact .bool b
  | number x => exact .number x
  | string h => exact .string h
  | array _ ih => exact .array ih
  | object hkeys _ ih => exact .object hkeys ih

/-- `JSON-text = ws value ws` -/
def Text (j : Json) (b : List UInt8) : Prop := ∃ s r, Ws b s ∧ Derives j s r ∧ Ws r []

end Json

end Alcove.Lib
