import Alcove.Json.Complete
import Alcove.Json.Encode
import Mathlib.Data.Nat.Digits.Lemmas

/-!
# Encoding to JSON and back

What the encoder writes for a value derives a tree of the grammar that does not depend on the indent
(`Encodes`), and the tree means the image of the value; the decoder accepts it.

**Main result:** `json_roundTrip`.
-/

namespace Alcove.Json

open Lib Cursor Json

variable {fmt17 : UInt64 → List UInt8} {strtod : List UInt8 → UInt64} {n k : ℕ}
  {s t u r bytes : List UInt8}

/-! ## Numbers -/

theorem digit_toNat (hn : n < 10) : (UInt8.ofNat (0x30 + n)).toNat = 0x30 + n := by
  rw [UInt8.toNat_ofNat']
  omega

theorem isDigit_digit (hn : n < 10) : isDigit (UInt8.ofNat (0x30 + n)) := by
  have hval := digit_toNat hn
  simp only [isDigit, Bool.and_eq_true, decide_eq_true_eq, UInt8.le_iff_toNat_le, hval,
    UInt8.reduceToNat]
  omega

/-- The value of digits that are written out, the last one first. -/
theorem decValue_ofDigits {ds : List ℕ} (hds : ∀ d ∈ ds, d < 10) :
    decValue (ds.reverse.map fun d => UInt8.ofNat (0x30 + d)) = Nat.ofDigits 10 ds := by
  induction ds with
  | nil => rfl
  | cons d ds ih =>
    have hd := digit_toNat (hds d List.mem_cons_self)
    have ih' := ih fun d' hd' => hds d' (List.mem_cons_of_mem _ hd')
    unfold decValue at ih' ⊢
    rw [List.reverse_cons, List.map_append, List.foldl_append, ih', Nat.ofDigits_cons]
    simp only [List.map_cons, List.map_nil, List.foldl_cons, List.foldl_nil, hd]
    omega

/-- **The digits of a number stand for it.** -/
theorem decValue_formatNat (n : ℕ) : decValue (formatNat n) = n := by
  unfold formatNat
  split
  · next h0 => rw [h0]; rfl
  · rw [decValue_ofDigits fun d hd => Nat.digits_lt_base (by decide) hd, Nat.ofDigits_digits]

theorem digits_formatNat (n : ℕ) : JsonNumber.Digits (formatNat n) := by
  unfold formatNat
  split
  · exact ⟨by simp, by simp [isDigit]⟩
  · next h0 =>
    refine ⟨by simpa [Nat.digits_eq_nil_iff_eq_zero] using h0, ?_⟩
    intro c hc
    obtain ⟨d, hd, rfl⟩ := List.mem_map.mp hc
    exact isDigit_digit (Nat.digits_lt_base (by decide) (List.mem_reverse.mp hd))

theorem head_formatNat (n : ℕ) (h : (formatNat n).head? = some 0x30) : formatNat n = [0x30] := by
  unfold formatNat at h ⊢
  split
  · rfl
  · next h0 =>
    exfalso
    rw [if_neg h0, List.head?_map, List.head?_reverse] at h
    have hne : Nat.digits 10 n ≠ [] := Nat.digits_ne_nil_iff_ne_zero.mpr h0
    rw [List.getLast?_eq_getLast_of_ne_nil hne, Option.map_some, Option.some.injEq,
      ← UInt8.toNat_inj, digit_toNat (Nat.digits_lt_base (by decide) (List.getLast_mem hne))] at h
    have hlast := Nat.getLast_digit_ne_zero 10 h0
    have : (0x30 : UInt8).toNat = 0x30 := rfl
    omega

theorem length_formatNat (hk : 0 < k) (hn : n < 10 ^ k) : (formatNat n).length ≤ k := by
  unfold formatNat
  split
  · exact hk
  · rw [List.length_map, List.length_reverse]
    exact (Nat.digits_length_le_iff (by decide) n).mpr hn

/-- The number that `%lld` writes. -/
def intNumber (v : ℤ) : JsonNumber := ⟨decide (v < 0), formatNat v.natAbs, none, none⟩

theorem text_intNumber (v : ℤ) : (intNumber v).text = formatInt v := by
  unfold intNumber JsonNumber.text formatInt
  by_cases hv : v < 0 <;> simp [hv, JsonNumber.fracText, JsonNumber.expText]

theorem valid_intNumber (v : ℤ) : (intNumber v).Valid where
  int := digits_formatNat _
  noLeadingZero := head_formatNat _
  frac := by simp [intNumber]
  exp := by simp [intNumber]

theorem strtoll_formatInt {v : ℤ} (hv : Fits 64 v) : strtoll (formatInt v) = some v := by
  have hval := decValue_formatNat v.natAbs
  unfold strtoll formatInt
  by_cases h : v < 0
  · simp only [if_pos h, hval]
    rw [show -(v.natAbs : ℤ) = v by omega, if_pos hv]
  · simp only [if_neg h]
    split
    · next ds heq =>
      have hdigit := (digits_formatNat v.natAbs).2 0x2d (heq ▸ List.mem_cons_self)
      cases hdigit
    · rw [hval, show (v.natAbs : ℤ) = v by omega, if_pos hv]

/-- **A fixnum is read back.** -/
theorem valueOf_intNumber {v : ℤ} (hv : fixFits v) : valueOf strtod (intNumber v) = .fix (makeFix v) := by
  obtain ⟨hlo, hhi⟩ := fixFits_iff.mp hv
  have hlen : (formatInt v).length ≤ 20 := by
    have hnat := length_formatNat (k := 19) (by decide) (show v.natAbs < 10 ^ 19 by omega)
    unfold formatInt
    split
    · rw [List.length_cons]
      omega
    · omega
  have hstrtoll : strtoll (formatInt v) = some v := strtoll_formatInt ⟨by omega, by omega⟩
  have htok : ((intNumber v).frac.isSome || (intNumber v).exp.isSome) = false := rfl
  rw [valueOf, text_intNumber, htok, numberValue, if_neg (by omega), if_neg (by simp), hstrtoll]
  exact if_pos hv

theorem zero_notMem_digits {ds : List UInt8} (h : JsonNumber.Digits ds) : 0 ∉ ds := by
  intro h0
  cases h.2 0 h0

theorem zero_notMem_text {x : JsonNumber} (hx : x.Valid) : 0 ∉ x.text := by
  obtain ⟨minus, int, frac, exp⟩ := x
  unfold JsonNumber.text
  simp only [List.mem_append, not_or]
  refine ⟨⟨⟨?_, zero_notMem_digits hx.int⟩, ?_⟩, ?_⟩
  · cases minus <;> simp
  · cases frac with
    | none => simp [JsonNumber.fracText]
    | some ds => simpa [JsonNumber.fracText] using zero_notMem_digits (hx.frac ds rfl)
  · cases exp with
    | none => simp [JsonNumber.expText]
    | some e =>
      obtain ⟨e, sign, ds⟩ := e
      obtain ⟨he, hsign, hds⟩ := hx.exp e sign ds rfl
      have h0 := zero_notMem_digits hds
      cases sign with
      | none =>
        rcases he with rfl | rfl <;> simpa [JsonNumber.expText] using h0
      | some c =>
        rcases he with rfl | rfl <;> rcases hsign c rfl with rfl | rfl <;>
          simpa [JsonNumber.expText] using h0

theorem hasPoint_digits {ds : List UInt8} (h : JsonNumber.Digits ds) : hasPoint ds = false := by
  apply List.any_eq_false.mpr
  intro d hd
  have hdigit := h.2 d hd
  simp only [isDigit, Bool.and_eq_true, decide_eq_true_eq, UInt8.le_iff_toNat_le,
    UInt8.reduceToNat] at hdigit
  simp only [Bool.or_eq_true, beq_iff_eq, ← UInt8.toNat_inj, UInt8.reduceToNat]
  omega

/-- The text of a number shows whether it has more than digits. -/
theorem hasPoint_text {x : JsonNumber} (hx : x.Valid) :
    hasPoint x.text = (x.frac.isSome || x.exp.isSome) := by
  obtain ⟨minus, int, frac, exp⟩ := x
  have hint : int.any (fun c => c == 0x2e || c == 0x65 || c == 0x45) = false :=
    hasPoint_digits hx.int
  have hminus : (if minus then [0x2d] else []).any
      (fun c : UInt8 => c == 0x2e || c == 0x65 || c == 0x45) = false := by
    cases minus <;> rfl
  rw [hasPoint, JsonNumber.text, List.any_append, List.any_append, List.any_append, hminus, hint]
  cases frac with
  | some ds => simp [JsonNumber.fracText]
  | none =>
    cases exp with
    | none => rfl
    | some e =>
      obtain ⟨e, sign, ds⟩ := e
      rcases (hx.exp e sign ds rfl).1 with rfl | rfl <;> rfl

/-- **A finite float is read back.** -/
theorem exists_floatNumber {bits : UInt64} (h : Inverts fmt17 strtod bits) :
    ∃ x : JsonNumber, x.Valid ∧ x.text = formatFloat fmt17 bits ∧
      valueOf strtod x = .float bits := by
  obtain ⟨x, hx, htext⟩ := h.number
  have hfloat (y : JsonNumber) (hy : (y.frac.isSome || y.exp.isSome) = true)
      (hread : strtod y.text = bits) : valueOf strtod y = .float bits := by
    rw [valueOf, hy, numberValue, hread, if_pos rfl, ite_self]
  unfold formatFloat
  cases hpoint : hasPoint (fmt17 bits) with
  | true =>
    rw [if_pos rfl]
    refine ⟨x, hx, htext, hfloat x ?_ (htext ▸ h.reads)⟩
    rw [← hasPoint_text hx, htext, hpoint]
  | false =>
    rw [if_neg (by simp)]
    have hnone : x.frac = none ∧ x.exp = none := by
      have := hasPoint_text hx
      rw [htext, hpoint] at this
      simpa using this.symm
    have htext' : JsonNumber.text { x with frac := some [0x30] } = fmt17 bits ++ [0x2e, 0x30] := by
      rw [← htext]
      obtain ⟨minus, int, frac, exp⟩ := x
      obtain ⟨rfl, rfl⟩ := hnone
      simp [JsonNumber.text, JsonNumber.fracText, JsonNumber.expText]
    refine ⟨{ x with frac := some [0x30] }, ?_, htext', hfloat _ rfl (htext' ▸ h.reads_point hpoint)⟩
    exact { hx with frac := by simp [JsonNumber.Digits, isDigit] }

/-! ## Strings -/

theorem hexDigit_valid : ∀ n < 16, isHexDigit (hexDigit n) ∧ hexDigitValue (hexDigit n) = n := by
  decide

/-- The escape of a byte spells the byte. -/
theorem exists_spells_escape {c : UInt8} (hc : c ≠ 0) :
    ∃ x : JsonChar, x.text = jsEscape c ∧ x.Valid ∧ Spells [x] [c] := by
  have hshort {e : UInt8} (hlookup : shortEscapes.lookup e = some c)
      (he : e ∈ [0x22, 0x5c, 0x2f, 0x62, 0x66, 0x6e, 0x72, 0x74]) :
      ∃ x : JsonChar, x.text = [0x5c, e] ∧ x.Valid ∧ Spells [x] [c] :=
    ⟨.esc e, rfl, he, .esc hlookup .nil⟩
  unfold jsEscape
  split
  · next h => exact hshort (by rw [h]; decide) (by simp)
  split
  · next h => exact hshort (by rw [h]; decide) (by simp)
  split
  · next h => exact hshort (by rw [h]; decide) (by simp)
  split
  · next h => exact hshort (by rw [h]; decide) (by simp)
  split
  · next h => exact hshort (by rw [h]; decide) (by simp)
  split
  · next h => exact hshort (by rw [h]; decide) (by simp)
  split
  · next h => exact hshort (by rw [h]; decide) (by simp)
  split
  · next hctl =>
    have hlt : c.toNat < 0x20 := UInt8.lt_iff_toNat_lt.mp hctl
    have hpos : c.toNat ≠ 0 := fun h => hc (UInt8.toNat_inj.mp h)
    obtain ⟨hhex, hval⟩ := hexDigit_valid (c.toNat / 16) (by omega)
    obtain ⟨hhex', hval'⟩ := hexDigit_valid (c.toNat % 16) (by omega)
    have hunit : codeUnit 0x30 0x30 (hexDigit (c.toNat / 16)) (hexDigit (c.toNat % 16)) = c.toNat := by
      rw [codeUnit, hval, hval', show hexDigitValue 0x30 = 0 from rfl]
      omega
    have hspells : Spells [.hex 0x30 0x30 (hexDigit (c.toNat / 16)) (hexDigit (c.toNat % 16))]
        (utf8Encode (codeUnit 0x30 0x30 (hexDigit (c.toNat / 16)) (hexDigit (c.toNat % 16))) ++ []) :=
      .scalar (by rwa [hunit]) (by unfold IsHigh; omega) (by unfold IsLow; omega) .nil
    rw [hunit, utf8Encode, if_pos (by omega), UInt8.ofNat_toNat] at hspells
    refine ⟨.hex 0x30 0x30 (hexDigit (c.toNat / 16)) (hexDigit (c.toNat % 16)), rfl, ?_, hspells⟩
    exact ⟨by decide, by decide, hhex, hhex'⟩
  · next hquote hback _ _ _ _ _ hctl =>
    exact ⟨.raw c, rfl, ⟨UInt8.not_lt.mp hctl, hquote, hback⟩, .raw .nil⟩

theorem exists_spells_bytes {bs : List UInt8} (hbs : 0 ∉ bs) :
    ∃ cs, Spells cs bs ∧ (∀ c ∈ cs, c.Valid) ∧ cs.flatMap JsonChar.text = bs.flatMap jsEscape := by
  induction bs with
  | nil => exact ⟨[], .nil, by simp, rfl⟩
  | cons c bs ih =>
    obtain ⟨x, htext, hx, hspells⟩ := exists_spells_escape (c := c) fun h => hbs (h ▸ List.mem_cons_self)
    obtain ⟨cs, hcs, hvalid, hflat⟩ := ih fun h => hbs (List.mem_cons_of_mem _ h)
    refine ⟨x :: cs, hspells.append hcs, ?_, ?_⟩
    · intro c' hc'
      rcases List.mem_cons.mp hc' with rfl | hc'
      · exact hx
      · exact hvalid c' hc'
    · rw [List.flatMap_cons, List.flatMap_cons, htext, hflat]

/-- **What is put for a text is a string that spells it.** -/
theorem exists_derivesString (text : CStr) : ∃ cs, Spells cs text.bytes ∧
    ∀ r, DerivesString cs (jsPutString text ++ r) r := by
  obtain ⟨cs, hspells, hvalid, hflat⟩ := exists_spells_bytes text.noNul
  refine ⟨cs, hspells, fun r => ?_⟩
  have hput : jsPutString text ++ r = 0x22 :: (cs.flatMap JsonChar.text ++ 0x22 :: r) := by
    rw [hflat, jsPutString]
    simp
  rw [hput]
  exact .mk hvalid

theorem zero_notMem_charText {x : JsonChar} (hx : x.Valid) : 0 ∉ x.text := by
  cases x with
  | raw c =>
    have hne : c ≠ 0 := by
      rintro rfl
      exact absurd hx.1 (by decide)
    simpa [JsonChar.text] using hne.symm
  | esc c =>
    have hne : c ≠ 0 := by
      rintro rfl
      simp [JsonChar.Valid] at hx
    simpa [JsonChar.text] using hne.symm
  | hex h₁ h₂ h₃ h₄ =>
    obtain ⟨hx₁, hx₂, hx₃, hx₄⟩ := hx
    have hne {h : UInt8} (hh : isHexDigit h) : 0 ≠ h := by
      rintro rfl
      cases hh
    simp [JsonChar.text, hne hx₁, hne hx₂, hne hx₃, hne hx₄]

theorem zero_notMem_jsPutString (text : CStr) : 0 ∉ jsPutString text := by
  obtain ⟨cs, -, hvalid, hflat⟩ := exists_spells_bytes text.noNul
  rw [jsPutString, ← hflat]
  intro h0
  have h0' : 0 ∈ cs.flatMap JsonChar.text := by simpa using h0
  obtain ⟨c, hc, h0c⟩ := List.mem_flatMap.mp h0'
  exact zero_notMem_charText (hvalid c hc) h0c

/-! ## Containers -/

/-- The bytes hold no NUL, and are a text of the tree whatever follows them. -/
def Writes (j : Json) (item : Option (List UInt8)) : Prop :=
  ∃ x, item = some x ∧ 0 ∉ x ∧ ∀ r, Derives j (x ++ r) r

/-- The same of a member. -/
def WritesMember (kv : List JsonChar × Json) (item : Option (List UInt8)) : Prop :=
  ∃ x, item = some x ∧ 0 ∉ x ∧ ∀ s t r, Ws s (x ++ t) → Ws t r → Member Derives kv s r

theorem ws_jsNewlineIndent (indent depth : ℕ) (r : List UInt8) :
    Ws (jsNewlineIndent indent depth ++ r) r := by
  have hspaces (m : ℕ) : Ws (List.replicate m 0x20 ++ r) r := by
    induction m with
    | zero => exact .nil
    | succ m ih =>
      rw [List.replicate_succ, List.cons_append]
      exact .cons rfl ih
  unfold jsNewlineIndent
  split
  · exact .nil
  · exact .cons rfl (hspaces _)

theorem ws_append (h : Ws s t) (r : List UInt8) : Ws (s ++ r) (t ++ r) := by
  induction h with
  | nil => exact .nil
  | cons hc _ ih => exact .cons hc ih

theorem zero_notMem_jsNewlineIndent (indent depth : ℕ) : 0 ∉ jsNewlineIndent indent depth := by
  unfold jsNewlineIndent
  split
  · simp
  · simp [List.mem_replicate]

/-- What follows an item. -/
theorem jsItems_elements (indent depth : ℕ) {js : List Json} {items : List (Option (List UInt8))}
    (h : List.Forall₂ Writes js items) : ∃ xs, jsItems indent depth false items = some xs ∧ 0 ∉ xs ∧
      ∀ j t s r, Derives j t (xs ++ r) → Ws s t → Elements Derives (j :: js) s r := by
  induction h with
  | nil =>
    refine ⟨_, rfl, zero_notMem_jsNewlineIndent indent depth, fun j t s r hj hs => ?_⟩
    exact .one hs hj (ws_jsNewlineIndent indent depth r)
  | @cons j' item js items hitem _ ih =>
    obtain ⟨x, rfl, hx, hder⟩ := hitem
    obtain ⟨xs, hxs, h0, hrest⟩ := ih
    refine ⟨[0x2c] ++ jsNewlineIndent indent (depth + 1) ++ x ++ xs, by simp [jsItems, hxs], ?_, ?_⟩
    · simp [zero_notMem_jsNewlineIndent, hx, h0]
    · intro j t s r hj hs
      have hcomma : [0x2c] ++ jsNewlineIndent indent (depth + 1) ++ x ++ xs ++ r =
          0x2c :: (jsNewlineIndent indent (depth + 1) ++ (x ++ (xs ++ r))) := by simp
      rw [hcomma] at hj
      exact .cons hs hj .nil (hrest j' _ _ r (hder _) (ws_jsNewlineIndent _ _ _))

/-- **The items of an array are its elements.** -/
theorem jsItems_array {indent depth : ℕ} {js : List Json} {items : List (Option (List UInt8))}
    (h : List.Forall₂ Writes js items) : Writes (.array js) (do
      let xs ← jsItems indent depth true items
      return 0x5b :: (xs ++ [0x5d])) := by
  cases h with
  | nil => exact ⟨[0x5b, 0x5d], rfl, by simp, fun r => .emptyArray .nil⟩
  | @cons j item js items hitem hitems =>
    obtain ⟨x, rfl, hx, hder⟩ := hitem
    obtain ⟨xs, hxs, h0, hrest⟩ := jsItems_elements indent depth hitems
    refine ⟨0x5b :: (jsNewlineIndent indent (depth + 1) ++ x ++ xs ++ [0x5d]),
      by simp [jsItems, hxs], ?_, fun r => ?_⟩
    · simp [zero_notMem_jsNewlineIndent, hx, h0]
    · have hels := hrest j _ _ (0x5d :: r) (hder _)
        (ws_jsNewlineIndent indent (depth + 1) (x ++ (xs ++ 0x5d :: r)))
      have hbytes : (0x5b :: (jsNewlineIndent indent (depth + 1) ++ x ++ xs ++ [0x5d]) : List UInt8) ++ r =
          0x5b :: (jsNewlineIndent indent (depth + 1) ++ (x ++ (xs ++ 0x5d :: r))) := by simp
      rw [hbytes]
      exact .array hels

/-- What follows a member. -/
theorem jsItems_members (indent depth : ℕ) {kvs : List (List JsonChar × Json)}
    {items : List (Option (List UInt8))} (h : List.Forall₂ WritesMember kvs items) :
    ∃ xs, jsItems indent depth false items = some xs ∧ 0 ∉ xs ∧
      ∀ kv x, (∀ s t r, Ws s (x ++ t) → Ws t r → Member Derives kv s r) →
        ∀ s r, Ws s (x ++ (xs ++ r)) → Members Derives (kv :: kvs) s r := by
  induction h with
  | nil =>
    refine ⟨_, rfl, zero_notMem_jsNewlineIndent indent depth, fun kv x hkv s r hs => ?_⟩
    exact .one (hkv s _ r hs (ws_jsNewlineIndent indent depth r))
  | @cons kv' item kvs items hitem _ ih =>
    obtain ⟨x', rfl, hx', hkv'⟩ := hitem
    obtain ⟨xs, hxs, h0, hrest⟩ := ih
    refine ⟨[0x2c] ++ jsNewlineIndent indent (depth + 1) ++ x' ++ xs, by simp [jsItems, hxs], ?_, ?_⟩
    · simp [zero_notMem_jsNewlineIndent, hx', h0]
    · intro kv x hkv s r hs
      have hcomma : [0x2c] ++ jsNewlineIndent indent (depth + 1) ++ x' ++ xs ++ r =
          0x2c :: (jsNewlineIndent indent (depth + 1) ++ (x' ++ (xs ++ r))) := by simp
      rw [hcomma] at hs
      exact .cons (hkv s _ _ hs .nil) (hrest kv' x' hkv' _ r (ws_jsNewlineIndent _ _ _))

/-- **The items of an object are its members.** -/
theorem jsItems_object {indent depth : ℕ} {kvs : List (List JsonChar × Json)}
    {items : List (Option (List UInt8))} (h : List.Forall₂ WritesMember kvs items) :
    Writes (.object kvs) (do
      let xs ← jsItems indent depth true items
      return 0x7b :: (xs ++ [0x7d])) := by
  cases h with
  | nil => exact ⟨[0x7b, 0x7d], rfl, by simp, fun r => .emptyObject .nil⟩
  | @cons kv item kvs items hitem hitems =>
    obtain ⟨x, rfl, hx, hkv⟩ := hitem
    obtain ⟨xs, hxs, h0, hrest⟩ := jsItems_members indent depth hitems
    refine ⟨0x7b :: (jsNewlineIndent indent (depth + 1) ++ x ++ xs ++ [0x7d]),
      by simp [jsItems, hxs], ?_, fun r => ?_⟩
    · simp [zero_notMem_jsNewlineIndent, hx, h0]
    · have hmem := hrest kv x hkv _ (0x7d :: r)
        (ws_jsNewlineIndent indent (depth + 1) (x ++ (xs ++ 0x7d :: r)))
      have hbytes : (0x7b :: (jsNewlineIndent indent (depth + 1) ++ x ++ xs ++ [0x7d]) : List UInt8) ++ r =
          0x7b :: (jsNewlineIndent indent (depth + 1) ++ (x ++ (xs ++ 0x7d :: r))) := by simp
      rw [hbytes]
      exact .object hmem

theorem jsMember_writes {indent : ℕ} {encode : Exp → Option (List UInt8)} {kv : CStr × Exp}
    {cs : List JsonChar} {j : Json} (hcs : ∀ r, DerivesString cs (jsPutString kv.1 ++ r) r)
    (h : Writes j (encode kv.2)) : WritesMember (cs, j) (jsMember indent encode kv) := by
  obtain ⟨x, hx, h0, hder⟩ := h
  have hsp : Ws ((if indent = 0 then [] else [0x20]) ++ x) x ∧
      0 ∉ (if indent = 0 then [] else [0x20] : List UInt8) := by
    split
    · exact ⟨.nil, by simp⟩
    · exact ⟨.cons rfl .nil, by simp⟩
  refine ⟨jsPutString kv.1 ++ 0x3a :: ((if indent = 0 then [] else [0x20]) ++ x),
    by simp [jsMember, hx], ?_, fun s t r hs ht => ?_⟩
  · simp only [List.mem_append, List.mem_cons, not_or]
    exact ⟨zero_notMem_jsPutString kv.1, by decide, hsp.2, h0⟩
  · rw [List.append_assoc, List.cons_append] at hs
    exact .mk hs (hcs _) .nil (ws_append hsp.1 t) (hder t) ht

/-! ## Values -/

/-- A tree that means the image of the value, and that is written for it whatever the indent. -/
def Encodes (fmt17 : UInt64 → List UInt8) (strtod : List UInt8 → UInt64) (n : ℕ) (v : Exp) : Prop :=
  ∃ j v', Acceptable n j ∧ Means strtod j v' ∧ Image v v' ∧
    ∀ indent room, n < room → Writes j (jsEncode fmt17 indent room v)

variable {v : Exp} {j : Json}

/-- A value that is not a container. -/
theorem encodes_leaf {v' : Exp} (hacc : Acceptable n j) (hv : Means strtod j v') (himg : Image v v')
    (h : ∀ indent depth encode, Writes j (jsEncodeValue fmt17 indent depth encode v)) :
    Encodes fmt17 strtod n v := by
  refine ⟨j, v', hacc, hv, himg, fun indent room hroom => ?_⟩
  obtain ⟨room, rfl⟩ := Nat.exists_eq_add_one.mpr (Nat.zero_lt_of_lt hroom)
  exact h indent _ _

theorem writes_number {x : JsonNumber} (hx : x.Valid) : Writes (.number x) (some x.text) :=
  ⟨x.text, rfl, zero_notMem_text hx, fun _ => .number hx⟩

theorem encodes_fix (i : Fixnum) : Encodes fmt17 strtod n (.fix i) := by
  have hval : Means strtod (.number (intNumber i.1)) (.fix i) := by
    have hmeans : Means strtod _ _ := Means.number (intNumber i.1)
    rwa [valueOf_intNumber (fixFits_fixnum i), makeFix_fixnum] at hmeans
  apply encodes_leaf (.number _) hval (.fix i)
  intro indent depth encode
  have hwrites := writes_number (valid_intNumber i.1)
  rwa [text_intNumber] at hwrites

theorem encodes_char (c : UInt32) : Encodes fmt17 strtod n (.char c) := by
  have hlt := UInt32.toNat_lt c
  have hval : Means strtod (.number (intNumber c.toNat)) (.fix (makeFix c.toNat)) := by
    have hmeans : Means strtod _ _ := Means.number (intNumber c.toNat)
    rwa [valueOf_intNumber (fixFits_iff.mpr ⟨by omega, by omega⟩)] at hmeans
  apply encodes_leaf (.number _) hval (.char c)
  intro indent depth encode
  have hwrites := writes_number (valid_intNumber c.toNat)
  rwa [text_intNumber, formatInt, if_neg (by omega)] at hwrites

theorem encodes_float {bits : UInt64} (hfin : isFinite bits) (h : Inverts fmt17 strtod bits) :
    Encodes fmt17 strtod n (.float bits) := by
  obtain ⟨x, hx, htext, hvalue⟩ := exists_floatNumber h
  apply encodes_leaf (.number x) (hvalue ▸ Means.number x) (.float bits)
  intro indent depth encode
  have hwrites := writes_number hx
  rw [htext] at hwrites
  simpa only [jsEncodeValue, if_pos hfin] using hwrites

theorem encodes_text {text : CStr} (himg : Image v (.string text))
    (h : ∀ indent depth encode, jsEncodeValue fmt17 indent depth encode v = some (jsPutString text)) :
    Encodes fmt17 strtod n v := by
  obtain ⟨cs, hspells, hder⟩ := exists_derivesString text
  have hval : Means strtod _ _ := Means.string hspells
  rw [CStr.ofBytes_bytes] at hval
  apply encodes_leaf (.string hspells.proper) hval himg
  intro indent depth encode
  rw [h]
  exact ⟨_, rfl, zero_notMem_jsPutString text, fun r => .string (hder r)⟩

theorem encodes_all {xs : List Exp} (h : ∀ x ∈ xs, Encodes fmt17 strtod n x) :
    ∃ js ys, (∀ j ∈ js, Acceptable n j) ∧ List.Forall₂ (Means strtod) js ys ∧
      List.Forall₂ Image xs ys ∧ ∀ indent room, n < room →
        List.Forall₂ Writes js (xs.map (jsEncode fmt17 indent room)) := by
  induction xs with
  | nil => exact ⟨[], [], by simp, .nil, .nil, fun _ _ _ => .nil⟩
  | cons x xs ih =>
    obtain ⟨j, y, hacc, hmeans, himg, hwrites⟩ := h x List.mem_cons_self
    obtain ⟨js, ys, haccs, hmeanss, himgs, hwritess⟩ := ih fun x hx => h x (List.mem_cons_of_mem _ hx)
    refine ⟨j :: js, y :: ys, ?_, .cons hmeans hmeanss, .cons himg himgs, fun indent room hroom =>
      .cons (hwrites indent room hroom) (hwritess indent room hroom)⟩
    intro j' hj'
    rcases List.mem_cons.mp hj' with rfl | hj'
    · exact hacc
    · exact haccs j' hj'

/-- A value that is written as an array of its elements. -/
theorem encodes_array (xs : List Exp) (hxs : ∀ x ∈ xs, Encodes fmt17 strtod n x)
    (himg : ∀ ys, List.Forall₂ Image xs ys → Image v (Exp.ofList ys))
    (h : ∀ indent depth encode, jsEncodeValue fmt17 indent depth encode v = do
      let items ← jsItems indent depth true (xs.map encode)
      return 0x5b :: (items ++ [0x5d])) : Encodes fmt17 strtod (n + 1) v := by
  obtain ⟨js, ys, hacc, hmeans, hys, hwrites⟩ := encodes_all hxs
  refine ⟨.array js, _, .array hacc, .array hmeans, himg ys hys, fun indent room hroom => ?_⟩
  obtain ⟨room, rfl⟩ := Nat.exists_eq_add_one.mpr (Nat.zero_lt_of_lt hroom)
  rw [jsEncode, h]
  exact jsItems_array (hwrites indent room (by omega))

theorem encodes_entries {es : List (CStr × Exp)} (h : ∀ kv ∈ es, Encodes fmt17 strtod n kv.2) :
    ∃ kvs es', (∀ kv ∈ kvs, Proper kv.1) ∧ (∀ kv ∈ kvs, Acceptable n kv.2) ∧
      Entries (Means strtod) kvs es' ∧ Dict.RelEntries Image es es' ∧ ∀ indent room, n < room →
        List.Forall₂ WritesMember kvs (es.map (jsMember indent (jsEncode fmt17 indent room))) := by
  induction es with
  | nil => exact ⟨[], [], by simp, by simp, .nil, .nil, fun _ _ _ => .nil⟩
  | cons kv es ih =>
    obtain ⟨j, y, hacc, hmeans, himg, hwrites⟩ := h kv List.mem_cons_self
    obtain ⟨kvs, es', hkeys, haccs, hentries, hrel, hwritess⟩ :=
      ih fun kv hkv => h kv (List.mem_cons_of_mem _ hkv)
    obtain ⟨cs, hspells, hder⟩ := exists_derivesString kv.1
    refine ⟨(cs, j) :: kvs, (CStr.ofBytes kv.1.bytes, y) :: es', ?_, ?_, .cons hspells hmeans hentries,
      .cons ⟨(CStr.ofBytes_bytes kv.1).symm, himg⟩ hrel, fun indent room hroom =>
        .cons (jsMember_writes hder (hwrites indent room hroom)) (hwritess indent room hroom)⟩
    · intro kv' hkv'
      rcases List.mem_cons.mp hkv' with rfl | hkv'
      · exact hspells.proper
      · exact hkeys kv' hkv'
    · intro kv' hkv'
      rcases List.mem_cons.mp hkv' with rfl | hkv'
      · exact hacc
      · exact haccs kv' hkv'

theorem encodes_dict {d : Dict Exp} (hok : d.Ok)
    (h : ∀ kv ∈ d.entries, Encodes fmt17 strtod n kv.2) : Encodes fmt17 strtod (n + 1) (.dict d) := by
  obtain ⟨kvs, es, hkeys, hacc, hentries, hrel, hwrites⟩ := encodes_entries h
  refine ⟨.object kvs, _, .object hkeys hacc, .object hentries,
    .dict (hok.used_ofList_rel hrel) (hok.rel_ofList hrel), fun indent room hroom => ?_⟩
  obtain ⟨room, rfl⟩ := Nat.exists_eq_add_one.mpr (Nat.zero_lt_of_lt hroom)
  rw [jsEncode]
  exact jsItems_object (hwrites indent room (by omega))

/-! ## Vectors of numbers -/

theorem cells_cases {xs : List Exp} {tail : Exp} (htail : tail = .null ∨ tail = .nil)
    (h : Exp.cells tail xs = v) : v = .null ∨ v = .nil ∨ ∃ content next, v = .pair content next := by
  cases xs with
  | nil => rcases htail with rfl | rfl <;> simp [← h, Exp.cells]
  | cons x xs => exact .inr (.inr ⟨_, _, h.symm⟩)

/-- A number is its own image. -/
theorem Image.eq_self {y : Exp} (hv : (∃ i, v = .fix i) ∨ ∃ bits, v = .float bits) (h : Image v y) :
    y = v := by
  cases h with
  | fix | float => rfl
  | list htail =>
    rcases cells_cases htail rfl with h | h | ⟨_, _, h⟩ <;>
      · rw [h] at hv
        simp at hv
  | _ => simp at hv

theorem image_eq_self {ys xs : List Exp} (hx : ∀ x ∈ xs, (∃ i, x = .fix i) ∨ ∃ bits, x = .float bits)
    (h : List.Forall₂ Image xs ys) : ys = xs := by
  induction h with
  | nil => rfl
  | @cons x y xs ys hxy _ ih =>
    have htail := ih fun x hx' => hx x (List.mem_cons_of_mem _ hx')
    rw [hxy.eq_self (hx x List.mem_cons_self), htail]

theorem doubleOfNat_lt {m : ℕ} (hm : m < 2 ^ 64) : (doubleOfNat m).toNat < 1088 * 2 ^ 52 := by
  unfold doubleOfNat
  split
  · decide
  · next h0 =>
    have hlog : m.log2 < 64 := (Nat.log2_lt h0).mpr hm
    have hlt : m < 2 ^ (m.log2 + 1) := Nat.lt_log2_self
    simp only
    split
    · next he =>
      have hfrac : m * 2 ^ (52 - m.log2) < 2 ^ 53 := by
        calc m * 2 ^ (52 - m.log2) < 2 ^ (m.log2 + 1) * 2 ^ (52 - m.log2) :=
              Nat.mul_lt_mul_of_pos_right hlt (Nat.two_pow_pos _)
          _ = 2 ^ 53 := by
              rw [← Nat.pow_add]
              congr 1
              omega
      have hexp : (m.log2 + 1023) * 2 ^ 52 ≤ 1086 * 2 ^ 52 := Nat.mul_le_mul_right _ (by omega)
      rw [UInt64.toNat_ofNat']
      omega
    · next he =>
      have hq : m / 2 ^ (m.log2 - 52) < 2 ^ 53 := by
        rw [Nat.div_lt_iff_lt_mul (Nat.two_pow_pos _), ← Nat.pow_add]
        rwa [show 53 + (m.log2 - 52) = m.log2 + 1 by omega]
      have hexp : (m.log2 + 1023) * 2 ^ 52 ≤ 1086 * 2 ^ 52 := Nat.mul_le_mul_right _ (by omega)
      rw [UInt64.toNat_ofNat']
      split <;> omega

/-- The double nearest to an integer of 64 bits is finite. -/
theorem isFinite_doubleOfInt {i : ℤ} (h : Fits 64 i) : isFinite (doubleOfInt i) := by
  obtain ⟨hlo, hhi⟩ := h
  have hlt := doubleOfNat_lt (m := i.natAbs) (by omega)
  unfold isFinite doubleOfInt
  rw [decide_eq_true_iff]
  split
  · rw [UInt64.toNat_add, show (0x8000000000000000 : UInt64).toNat = 2 ^ 63 from rfl]
    omega
  · omega

theorem encodes_vectorI64 {cells : List ℤ} (hfits : ∀ i ∈ cells, Fits 64 i)
    (h : ∀ i ∈ cells, ¬ fixFits i → Inverts fmt17 strtod (doubleOfInt i)) :
    Encodes fmt17 strtod (n + 1) (.vectorI64 cells) := by
  apply encodes_array (cells.map boxI64)
  · intro x hx
    obtain ⟨i, hi, rfl⟩ := List.mem_map.mp hx
    unfold boxI64
    split
    · exact encodes_fix _
    · next hfix => exact encodes_float (isFinite_doubleOfInt (hfits i hi)) (h i hi hfix)
  · intro ys hys
    rw [image_eq_self ?_ hys]
    · exact .vectorI64 cells
    · intro x hx
      obtain ⟨i, hi, rfl⟩ := List.mem_map.mp hx
      unfold boxI64
      split
      · exact .inl ⟨_, rfl⟩
      · exact .inr ⟨_, rfl⟩
  · intro indent depth encode
    rfl

theorem encodes_vectorF64 {cells : List UInt64} (hfin : ∀ bits ∈ cells, isFinite bits)
    (h : ∀ bits ∈ cells, Inverts fmt17 strtod bits) :
    Encodes fmt17 strtod (n + 1) (.vectorF64 cells) := by
  apply encodes_array (cells.map Exp.float)
  · intro x hx
    obtain ⟨bits, hbits, rfl⟩ := List.mem_map.mp hx
    exact encodes_float (hfin bits hbits) (h bits hbits)
  · intro ys hys
    rw [image_eq_self ?_ hys]
    · exact .vectorF64 cells
    · intro x hx
      obtain ⟨bits, -, rfl⟩ := List.mem_map.mp hx
      exact .inr ⟨bits, rfl⟩
  · intro indent depth encode
    rfl

/-! ## The round trip -/

/-- **Every value of the codec is written as a tree that means its image.** -/
theorem encodes_of_plain (h : Plain fmt17 strtod n v) : Encodes fmt17 strtod n v := by
  induction h with
  | null =>
    exact encodes_leaf .null .null .null fun _ _ _ => ⟨_, rfl, by decide, fun _ => .null⟩
  | nil => exact encodes_leaf .null .null .nil fun _ _ _ => ⟨_, rfl, by decide, fun _ => .null⟩
  | t => exact encodes_leaf (.bool true) .true .t fun _ _ _ => ⟨_, rfl, by decide, fun _ => .true⟩
  | fix i => exact encodes_fix i
  | char c => exact encodes_char c
  | float hfin h => exact encodes_float hfin h
  | string text => exact encodes_text (.string text) fun _ _ _ => rfl
  | symbol text => exact encodes_text (.symbol text) fun _ _ _ => rfl
  | @list n xs tail hne hnull htail _ ih =>
    apply encodes_array xs ih fun ys hys => .list htail hys
    intro indent depth encode
    have helems := Exp.elems_cells hnull htail
    cases xs with
    | nil => exact absurd rfl hne
    | cons x xs =>
      rw [Exp.cells] at helems ⊢
      rw [jsEncodeValue, helems]
  | vector _ ih => exact encodes_array _ ih (fun ys hys => .vector hys) fun _ _ _ => rfl
  | vectorI64 hfits h => exact encodes_vectorI64 hfits h
  | vectorF64 hfin h => exact encodes_vectorF64 hfin h
  | dict hok _ ih => exact encodes_dict hok ih

theorem bmod_of_le {m : ℕ} (h : m ≤ intMax) : (m : ℤ).bmod (2 ^ 32) = m := by
  have h' : m ≤ 2 ^ 31 - 1 := h
  apply Int.bmod_eq_of_le <;> omega

theorem makeStringInt_of_le (h : bytes.length ≤ intMax) :
    makeStringInt bytes = .string (CStr.ofBytes bytes) := by
  unfold makeStringInt
  simp only [bmod_of_le h]
  rw [if_neg (by omega), Int.toNat_natCast, List.take_length]

/-- **A value is encoded, and its encoding decodes to its image**, one and the same for every indent,
as far as a string can hold the encoding. -/
theorem json_roundTrip (fmt17 : UInt64 → List UInt8) (strtod : List UInt8 → UInt64) {v : Exp}
    (hv : Plain fmt17 strtod jsMaxDepth v) : ∃ v', Image v v' ∧ ∀ indexp indent,
      indentOf indexp = some indent → ∃ bytes, jsEncode fmt17 indent (jsMaxDepth + 1) v = some bytes ∧
        (bytes.length ≤ intMax → ∃ s, jsonencodecmd fmt17 v indexp = .string s ∧ s.bytes = bytes ∧
          jsondecodecmd strtod s = some v') := by
  obtain ⟨j, v', hacc, hmeans, himg, hwrites⟩ := encodes_of_plain hv
  refine ⟨v', himg, fun indexp indent hindent => ?_⟩
  obtain ⟨bytes, hbytes, h0, hder⟩ := hwrites indent (jsMaxDepth + 1) (by omega)
  refine ⟨bytes, hbytes, fun hlen => ?_⟩
  have htext : (CStr.ofBytes bytes).bytes = bytes := CStr.ofBytes_of_noNul h0
  refine ⟨CStr.ofBytes bytes, ?_, htext, ?_⟩
  · rw [jsonencodecmd, hindent]
    simp only [hbytes]
    exact makeStringInt_of_le hlen
  · have hder' := hder []
    rw [List.append_nil] at hder'
    apply jsondecodecmd_of_means (j := j)
    · rwa [CStr.length, htext]
    · rw [htext]
      exact ⟨_, _, .nil, hder', .nil⟩
    · exact hacc
    · exact hmeans

/-- The round trip of `[1.0]`, where the text of the float is `1`. -/
theorem json_roundTrip_one : ∃ v', Image (.vectorF64 [0x3ff0000000000000]) v' ∧ ∀ indexp indent,
    indentOf indexp = some indent →
      ∃ bytes, jsEncode (fun _ => [0x31]) indent (jsMaxDepth + 1) (.vectorF64 [0x3ff0000000000000]) =
          some bytes ∧
        (bytes.length ≤ intMax → ∃ s, jsonencodecmd (fun _ => [0x31])
            (.vectorF64 [0x3ff0000000000000]) indexp = .string s ∧ s.bytes = bytes ∧
          jsondecodecmd (fun _ => 0x3ff0000000000000) s = some v') := by
  apply json_roundTrip
  apply Plain.vectorF64
  · intro bits hbits
    rw [List.mem_singleton.mp hbits]
    decide
  · intro bits hbits
    rw [List.mem_singleton.mp hbits]
    refine ⟨⟨⟨false, [0x31], none, none⟩, ⟨?_, ?_, ?_, ?_⟩, rfl⟩, rfl, fun _ => rfl⟩ <;>
      simp [JsonNumber.Digits, isDigit]

/-- **No string holds an encoding of more than `INT_MAX` bytes**: a text of `2 ^ 30` line feeds ends the
process. -/
theorem exists_shutdown : ∃ text : CStr, text.length ≤ intMax ∧
    ∀ fmt17 s, jsonencodecmd fmt17 (.string text) .nil ≠ .string s := by
  obtain ⟨m, hm⟩ : ∃ m, m = 2 ^ 30 := ⟨_, rfl⟩
  obtain ⟨text, htext⟩ : ∃ text : CStr, text.bytes = List.replicate m 0x0a :=
    ⟨⟨List.replicate m 0x0a, by simp [List.mem_replicate]⟩, rfl⟩
  have hlen (m : ℕ) : ((List.replicate m 0x0a).flatMap jsEscape).length = 2 * m := by
    rw [List.length_flatMap, List.map_replicate, List.sum_replicate]
    simp [jsEscape, Nat.mul_comm]
  have hput : (jsPutString text).length = 2 ^ 31 + 2 := by
    rw [jsPutString, List.length_cons, List.length_append, htext, hlen, List.length_singleton]
    omega
  refine ⟨text, ?_, fun fmt17 s => ?_⟩
  · rw [CStr.length, htext, List.length_replicate, hm]
    decide
  · have hencode : jsonencodecmd fmt17 (.string text) .nil = makeStringInt (jsPutString text) := rfl
    have hbmod : ((2 ^ 31 + 2 : ℕ) : ℤ).bmod (2 ^ 32) < 0 := by decide
    rw [hencode]
    unfold makeStringInt
    simp only [hput, if_pos hbmod]
    simp

end Alcove.Json
