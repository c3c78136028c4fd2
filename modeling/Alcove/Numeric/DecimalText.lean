import Alcove.Json.RoundTrip
import Alcove.Numeric.DecimalExact

/-!
# Decimals as texts

`dec_parse`, and `dec_to_str` with it. The parser counts the digits after the point, and builds the
decimal of the digits as an integer; the printer pads the digits so that one stands before the
point.

**Main result.** `decimal_text`: a decimal is read back from what is written for it, and a text of digits
with at most one point is read as the decimal of its value.
-/

namespace Alcove.Numeric

open Lib

/-! ## The parser -/

/-- What `over` reports: too many digits, or no decimal. -/
inductive DecParseErr
  | overflow
  | malformed
  deriving DecidableEq

/-- The locals of the loop of `dec_parse`. -/
structure DecScan where
  coef : ℤ
  scale : ℤ
  seen : Bool
  dot : Bool
  ndig : ℕ

/-- The loop of `dec_parse`. -/
def decParseLoop : List UInt8 → DecScan → Option (Except DecParseErr DecScan)
  | [], st => some (.ok st)
  | c :: s, st =>
    if c = 0x2e then
      if st.dot then some (.error .malformed) else decParseLoop s { st with dot := true }
    else if !isDigit c then some (.error .malformed)
    else if 38 < st.ndig + 1 then some (.error .overflow)
    else do
      let tens ← checked 128 (st.coef * 10)
      let coef ← checked 128 (tens + (c.toNat - 0x30 : ℕ))
      decParseLoop s ⟨coef, if st.dot then st.scale + 1 else st.scale, true, st.dot, st.ndig + 1⟩

/-- `dec_parse` -/
def decParse (s : List UInt8) : Option (Except DecParseErr (ℤ × ℤ)) := do
  let signed : Bool := s.head? == some 0x2b || s.head? == some 0x2d
  match ← decParseLoop (if signed then s.tail else s) ⟨0, 0, false, false, 0⟩ with
  | .error e => return .error e
  | .ok st =>
    if !st.seen then return .error .malformed
    let coef ← negIf 128 (s.head? = some 0x2d) st.coef
    match ← makeDecimalRaw coef st.scale with
    | none => return .error .overflow
    | some d => return .ok d

/-! ## Texts -/

/-- A point and the digits after it. -/
def fracText : Option (List UInt8) → List UInt8
  | none => []
  | some f => 0x2e :: f

/-- `[+-]?digits` with at most one point. -/
structure DecText where
  sign : Option Bool
  int : List UInt8
  frac : Option (List UInt8)

namespace DecText

/-- The digits, without the point. -/
def digits (t : DecText) : List UInt8 := t.int ++ t.frac.getD []

/-- How the text is written; `true` is the minus sign. -/
def text (t : DecText) : List UInt8 :=
  (match t.sign with
    | none => []
    | some true => [0x2d]
    | some false => [0x2b]) ++
    t.int ++ fracText t.frac

/-- At least one digit, and no more than 38. -/
structure Valid (t : DecText) : Prop where
  digit : ∀ c ∈ t.digits, isDigit c
  nonempty : t.digits ≠ []
  few : t.digits.length ≤ 38

/-- The digits as an integer, with the sign. -/
def coef (t : DecText) : ℤ :=
  if t.sign = some true then -(Json.decValue t.digits : ℤ) else Json.decValue t.digits

/-- The number of digits after the point. -/
def scale (t : DecText) : ℤ := (t.frac.getD []).length

end DecText

/-! ## Reading digits -/

/-- The value of further digits. -/
def digitsFrom (k : ℕ) (ds : List UInt8) : ℕ := ds.foldl (fun v d => v * 10 + (d.toNat - 0x30)) k

theorem isDigit_iff (c : UInt8) : isDigit c ↔ 0x30 ≤ c.toNat ∧ c.toNat ≤ 0x39 := by
  simp only [isDigit, Bool.and_eq_true, decide_eq_true_eq, UInt8.le_iff_toNat_le, UInt8.reduceToNat]

/-- One more digit. -/
theorem digit_lt {c : UInt8} (hc : isDigit c) {k n : ℕ} (hk : k < 10 ^ n) :
    k * 10 + (c.toNat - 0x30) < 10 ^ (n + 1) := by
  have := (isDigit_iff c).1 hc
  rw [pow_succ]
  omega

theorem digitsFrom_lt {ds : List UInt8} (hds : ∀ c ∈ ds, isDigit c) {k n : ℕ} (hk : k < 10 ^ n) :
    digitsFrom k ds < 10 ^ (n + ds.length) := by
  induction ds generalizing k n with
  | nil => exact hk
  | cons c ds ih =>
    have := ih (fun d hd => hds d (List.mem_cons_of_mem _ hd)) (digit_lt (hds c List.mem_cons_self) hk)
    rwa [List.length_cons, Nat.add_comm ds.length, ← Nat.add_assoc]

/-- Numbers of 38 digits fit. -/
theorem fits_of_digits {k n : ℕ} (hk : k < 10 ^ n) (hn : n ≤ 38) : Fits 128 (k : ℤ) := by
  have hpow : (10 : ℤ) ^ n ≤ 10 ^ 38 := pow_le_pow_right₀ (by norm_num) hn
  have hk' : (k : ℤ) < 10 ^ n := by exact_mod_cast hk
  exact fits_of_nonneg (by positivity) ((hk'.trans_le hpow).trans (by norm_num))

/-- One step of the loop, at a digit. -/
theorem decParseLoop_digit {c : UInt8} (hc : isDigit c) (s : List UInt8) {k n : ℕ} (scale : ℤ)
    (seen dot : Bool) (hk : k < 10 ^ n) (hn : n + 1 ≤ 38) :
    decParseLoop (c :: s) ⟨k, scale, seen, dot, n⟩ =
      decParseLoop s ⟨(k * 10 + (c.toNat - 0x30) : ℕ), if dot then scale + 1 else scale, true, dot,
        n + 1⟩ := by
  have hpoint : c ≠ 0x2e := by
    rintro rfl
    exact absurd hc (by decide)
  have hlt := digit_lt hc hk
  have htens : checked 128 ((k : ℤ) * 10) = some ((k * 10 : ℕ) : ℤ) := by
    rw [Nat.cast_mul, Nat.cast_ofNat, ← Nat.cast_ofNat (R := ℤ) (n := 10), ← Nat.cast_mul]
    exact checked_eq_some (fits_of_digits (lt_of_le_of_lt (Nat.le_add_right ..) hlt) hn)
  have hsum : checked 128 (((k * 10 : ℕ) : ℤ) + (c.toNat - 0x30 : ℕ)) =
      some ((k * 10 + (c.toNat - 0x30) : ℕ) : ℤ) := by
    rw [← Nat.cast_add]
    exact checked_eq_some (fits_of_digits hlt hn)
  rw [decParseLoop, if_neg hpoint, hc, if_neg (by decide), if_neg (not_lt.2 hn), htens]
  refine (Option.bind_some ..).trans ?_
  rw [hsum]
  exact Option.bind_some ..

/-- The loop over digits. -/
theorem decParseLoop_digits {ds : List UInt8} (hds : ∀ c ∈ ds, isDigit c) (rest : List UInt8)
    {k n : ℕ} (scale : ℤ) (seen dot : Bool) (hk : k < 10 ^ n) (hn : n + ds.length ≤ 38) :
    decParseLoop (ds ++ rest) ⟨k, scale, seen, dot, n⟩ = decParseLoop rest
      ⟨digitsFrom k ds, if dot then scale + ds.length else scale, seen || !ds.isEmpty, dot,
        n + ds.length⟩ := by
  induction ds generalizing k n scale seen with
  | nil => simp [digitsFrom]
  | cons c ds ih =>
    have hc := hds c List.mem_cons_self
    rw [List.length_cons] at hn
    rw [List.cons_append, decParseLoop_digit hc _ scale seen dot hk (by omega),
      ih (fun d hd => hds d (List.mem_cons_of_mem _ hd)) _ _ (digit_lt hc hk) (by omega)]
    congr 2
    · cases dot
      · rfl
      · simp only [if_true, List.length_cons]
        push_cast
        ring
    · simp
    · rw [List.length_cons]
      omega

/-! ## Reading a text -/

/-- The loop over the digits and the point of a text. -/
theorem decParseLoop_text {int : List UInt8} {frac : Option (List UInt8)}
    (hdigit : ∀ c ∈ int ++ frac.getD [], isDigit c) (hne : int ++ frac.getD [] ≠ [])
    (hfew : (int ++ frac.getD []).length ≤ 38) :
    decParseLoop (int ++ fracText frac) ⟨0, 0, false, false, 0⟩ =
      some (.ok ⟨(Json.decValue (int ++ frac.getD []) : ℕ), (frac.getD []).length, true, frac.isSome,
        (int ++ frac.getD []).length⟩) := by
  have hint : ∀ c ∈ int, isDigit c := fun c hc => hdigit c (List.mem_append_left _ hc)
  rw [List.length_append] at hfew
  have hrun := decParseLoop_digits hint (fracText frac) (k := 0) (n := 0) 0 false false (by decide)
    (by omega)
  rw [if_neg Bool.false_ne_true, Bool.false_or, Nat.zero_add] at hrun
  refine hrun.trans ?_
  cases frac with
  | none =>
    have hsome : int.isEmpty = false := by simpa using hne
    simp only [fracText, Option.getD_none, List.append_nil, decParseLoop, hsome]
    rfl
  | some f =>
    have hfrac : ∀ c ∈ f, isDigit c := fun c hc => hdigit c (List.mem_append_right _ hc)
    have hk : digitsFrom 0 int < 10 ^ int.length := by
      have := digitsFrom_lt hint (k := 0) (n := 0) (by decide)
      rwa [Nat.zero_add] at this
    have hlast := decParseLoop_digits hfrac [] 0 (!int.isEmpty) true hk hfew
    rw [List.append_nil] at hlast
    have hsome : (!int.isEmpty || !f.isEmpty) = true := by
      rw [← Bool.not_and, Bool.not_eq_true', ← Bool.not_eq_true, Bool.and_eq_true,
        List.isEmpty_iff, List.isEmpty_iff]
      simpa using hne
    rw [fracText, decParseLoop, if_pos rfl, if_neg Bool.false_ne_true]
    refine hlast.trans ?_
    rw [hsome, decParseLoop, Option.getD_some, List.length_append, Json.decValue, List.foldl_append]
    simp [digitsFrom]

/-- What `over` says of what `make_decimal_raw` made. -/
def parsed : Option (ℤ × ℤ) → Except DecParseErr (ℤ × ℤ)
  | none => .error .overflow
  | some d => .ok d

/-- A run of `dec_parse` that comes to its end. -/
theorem decParse_of {s body : List UInt8} {st : DecScan} {coef : ℤ}
    (hbody : (if (s.head? == some 0x2b || s.head? == some 0x2d) = true then s.tail else s) = body)
    (hloop : decParseLoop body ⟨0, 0, false, false, 0⟩ = some (.ok st)) (hseen : st.seen = true)
    (hneg : negIf 128 (s.head? = some 0x2d) st.coef = some coef) :
    decParse s = parsed <$> makeDecimalRaw coef st.scale := by
  unfold decParse
  dsimp only
  rw [hbody, hloop]
  refine (Option.bind_some ..).trans ?_
  dsimp only
  rw [hseen, if_neg (by decide), hneg]
  refine (Option.bind_some ..).trans ?_
  cases makeDecimalRaw coef st.scale with
  | none => rfl
  | some r => cases r <;> rfl

namespace DecText

variable {t : DecText}

theorem Valid.fits (h : t.Valid) : Fits 128 (Json.decValue t.digits : ℤ) := by
  have hlt := digitsFrom_lt h.digit (k := 0) (n := 0) (by decide)
  rw [Nat.zero_add] at hlt
  exact fits_of_digits hlt h.few

theorem Valid.fits_coef (h : t.Valid) : Fits 128 t.coef := by
  unfold coef
  split
  · refine h.fits.neg fun hmin => ?_
    have hnonneg : (0 : ℤ) ≤ Json.decValue t.digits := Nat.cast_nonneg _
    rw [hmin] at hnonneg
    exact absurd hnonneg (by decide)
  · exact h.fits

/-- A text without a sign does not begin with one. -/
theorem Valid.head {int : List UInt8} {frac : Option (List UInt8)} (h : Valid ⟨none, int, frac⟩) :
    (int ++ fracText frac).head? ≠ some 0x2b ∧ (int ++ fracText frac).head? ≠ some 0x2d := by
  cases int with
  | nil =>
    cases frac with
    | none => exact ⟨by simp [fracText], by simp [fracText]⟩
    | some f => exact ⟨by simp [fracText], by simp [fracText]⟩
  | cons c int =>
    have hc := (isDigit_iff c).1 (h.digit c List.mem_cons_self)
    refine ⟨?_, ?_⟩ <;>
      · rintro heq
        obtain rfl := Option.some.inj heq
        simp at hc

/-- **A text of digits is the decimal that `make_decimal_raw` makes of its digits and their number
after the point.** -/
theorem Valid.parse (h : t.Valid) : decParse t.text = parsed <$> makeDecimalRaw t.coef t.scale := by
  have hcoef := h.fits_coef
  have hloop := decParseLoop_text h.digit h.nonempty h.few
  obtain ⟨sign, int, frac⟩ := t
  cases sign with
  | none =>
    obtain ⟨hplus, hminus⟩ := h.head
    refine decParse_of (s := text ⟨none, int, frac⟩) ?_ hloop rfl ?_
    · refine if_neg fun hsign => ?_
      rw [Bool.or_eq_true, beq_iff_eq, beq_iff_eq] at hsign
      exact hsign.elim hplus hminus
    · exact if_neg hminus
  | some neg =>
    cases neg with
    | true =>
      refine decParse_of (s := text ⟨some true, int, frac⟩) rfl hloop rfl ?_
      rw [coef, if_pos rfl] at hcoef ⊢
      exact (if_pos rfl).trans (checked_eq_some hcoef)
    | false =>
      refine decParse_of (s := text ⟨some false, int, frac⟩) rfl hloop rfl ?_
      rw [coef, if_neg (by simp)]
      exact if_neg (by simp [text])

/-- The number that a text stands for. -/
def value (t : DecText) : ℚ := decValue t.coef t.scale

theorem scale_nonneg (t : DecText) : 0 ≤ t.scale := Nat.cast_nonneg _

theorem Valid.scale_le (h : t.Valid) : t.scale ≤ 38 := by
  have := h.few
  rw [digits, List.length_append] at this
  unfold scale
  omega

end DecText

/-- A decimal is made of its number. -/
theorem DecimalNormal.made {c s : ℤ} (h : DecimalNormal c s) :
    MadeOf (decValue c s) (some (some (c, s))) := by
  have hplaces := decValue_places c h.nonneg h.le
  refine ⟨_, hplaces ▸ HalfAway.intCast _, .inl ⟨c, s, rfl, h, ?_⟩⟩
  rw [← hplaces, mul_div_cancel_right₀ _ (by norm_num)]

/-- **A text is read as the decimal of its value**, where there is one. -/
theorem DecText.Valid.parse_value {t : DecText} (h : t.Valid) {c s : ℤ} (hn : DecimalNormal c s)
    (hv : decValue c s = t.value) : decParse t.text = some (.ok (c, s)) := by
  have hmade : MadeOf t.value (makeDecimalRaw t.coef t.scale) := by
    refine makeDecimalRaw_made h.fits_coef t.scale_nonneg (h.scale_le.trans (by decide)) fun hr => ?_
    exact not_roundsFromZero (decValue_places c hn.nonneg hn.le) (hv ▸ hr.2)
  rw [h.parse, hmade.unique (hv ▸ hn.made)]
  rfl

/-! ## The printer -/

/-- The digits that `dec_to_str` writes, without the point; the last one first. -/
def decPadded (c s : ℤ) : List ℕ :=
  let ds := if c = 0 then [0] else Nat.digits 10 c.natAbs
  ds ++ List.replicate (s.toNat + 1 - ds.length) 0

/-- The bytes of these digits, as they are written. -/
def decWritten (c s : ℤ) : List UInt8 := (decPadded c s).reverse.map fun d => UInt8.ofNat (0x30 + d)

/-- The text that is written for a decimal. -/
def decText (c s : ℤ) : DecText where
  sign := if c < 0 then some true else none
  int := (decWritten c s).take ((decWritten c s).length - s.toNat)
  frac := if 0 < s then some ((decWritten c s).drop ((decWritten c s).length - s.toNat)) else none

variable {c s : ℤ}

theorem text_decText (hs : 0 ≤ s) : (decText c s).text = decToStr c s := by
  show _ = (if c < 0 then [0x2d] else []) ++ if 0 < s then
    (decWritten c s).take ((decWritten c s).length - s.toNat) ++
      0x2e :: (decWritten c s).drop ((decWritten c s).length - s.toNat) else decWritten c s
  unfold DecText.text decText
  dsimp only
  rw [List.append_assoc]
  congr 1
  · by_cases hneg : c < 0
    · rw [if_pos hneg, if_pos hneg]
    · rw [if_neg hneg, if_neg hneg]
  · split
    · rfl
    · next hpos =>
      obtain rfl : s = 0 := le_antisymm (not_lt.1 hpos) hs
      rw [fracText, Int.toNat_zero, Nat.sub_zero, List.take_length, List.append_nil]

theorem digits_decText (hs : 0 ≤ s) : (decText c s).digits = decWritten c s := by
  unfold DecText.digits decText
  dsimp only
  split
  · rw [Option.getD_some, List.take_append_drop]
  · next hpos =>
    obtain rfl : s = 0 := le_antisymm (not_lt.1 hpos) hs
    rw [Option.getD_none, Int.toNat_zero, Nat.sub_zero, List.take_length, List.append_nil]

theorem decPadded_lt {d : ℕ} (h : d ∈ decPadded c s) : d < 10 := by
  obtain h | h := List.mem_append.1 h
  · split at h
    · rw [List.mem_singleton.1 h]
      decide
    · exact Nat.digits_lt_base (by decide) h
  · rw [List.eq_of_mem_replicate h]
    decide

/-- The padding changes no value. -/
theorem ofDigits_decPadded (c s : ℤ) : Nat.ofDigits 10 (decPadded c s) = c.natAbs := by
  unfold decPadded
  dsimp only
  rw [Nat.ofDigits_append_replicate_zero]
  split
  · next hzero =>
    rw [hzero]
    rfl
  · exact Nat.ofDigits_digits 10 _

theorem length_decWritten (h : DecimalNormal c s) :
    s.toNat < (decWritten c s).length ∧ (decWritten c s).length ≤ 29 := by
  have hdigits : (if c = 0 then [0] else Nat.digits 10 c.natAbs).length ≤ 29 := by
    split
    · decide
    · have hlt : c.natAbs < 10 ^ 29 := by exact_mod_cast h.digits
      exact (Nat.digits_length_le_iff (by decide) _).2 hlt
  have hscale : s.toNat ≤ 28 := Int.toNat_le.2 h.le
  rw [decWritten, List.length_map, List.length_reverse, decPadded, List.length_append,
    List.length_replicate]
  omega

/-- The text of a decimal is one of digits with at most one point, and stands for the decimal. -/
theorem decText_spec (h : DecimalNormal c s) :
    (decText c s).Valid ∧ (decText c s).coef = c ∧ (decText c s).scale = s := by
  obtain ⟨hlow, hhigh⟩ := length_decWritten h
  have hdigits := digits_decText (c := c) h.nonneg
  have hvalue : Json.decValue (decWritten c s) = c.natAbs := by
    rw [decWritten, Json.decValue_ofDigits fun d hd => decPadded_lt hd, ofDigits_decPadded]
  refine ⟨⟨?_, ?_, ?_⟩, ?_, ?_⟩
  · rw [hdigits]
    intro b hb
    obtain ⟨d, hd, rfl⟩ := List.mem_map.1 hb
    exact Json.isDigit_digit (decPadded_lt (List.mem_reverse.1 hd))
  · rw [hdigits]
    exact List.ne_nil_of_length_pos (by omega)
  · rw [hdigits]
    omega
  · rw [DecText.coef, hdigits, hvalue]
    unfold decText
    dsimp only
    by_cases hneg : c < 0
    · rw [if_pos hneg, if_pos rfl]
      omega
    · rw [if_neg hneg, if_neg (by simp)]
      omega
  · have hs := h.nonneg
    unfold DecText.scale decText
    dsimp only
    split
    · rw [Option.getD_some, List.length_drop]
      omega
    · simp only [Option.getD_none, List.length_nil]
      omega

theorem length_decToStr (h : DecimalNormal c s) : (decToStr c s).length ≤ 31 := by
  obtain ⟨-, hhigh⟩ := length_decWritten h
  have hdigits := congrArg List.length (digits_decText (c := c) h.nonneg)
  rw [DecText.digits, List.length_append] at hdigits
  rw [← text_decText h.nonneg, DecText.text, List.length_append, List.length_append]
  have hsign : (match (decText c s).sign with
      | none => []
      | some true => [0x2d]
      | some false => [(0x2b : UInt8)]).length ≤ 1 := by
    rcases (decText c s).sign with _ | (_ | _) <;> decide
  have hfrac : (fracText (decText c s).frac).length ≤ ((decText c s).frac.getD []).length + 1 := by
    cases (decText c s).frac with
    | none => exact Nat.zero_le _
    | some f => exact Nat.le_refl _
  omega

/-- What is written for a decimal is read back. -/
theorem decParse_decToStr (h : DecimalNormal c s) :
    decParse (decToStr c s) = some (.ok (c, s)) := by
  obtain ⟨hvalid, hcoef, hscale⟩ := decText_spec h
  rw [← text_decText h.nonneg]
  exact hvalid.parse_value h (by rw [DecText.value, hcoef, hscale])

/-! ## Main result -/

/-- **A decimal is read back from what is written for it**, which fits the buffer with its NUL; and a
text of at most 38 digits with at most one point is read as the decimal of its value. -/
theorem decimal_text :
    (∀ c s, DecimalNormal c s → decParse (decToStr c s) = some (.ok (c, s)) ∧
      (decToStr c s).length + 1 ≤ 48) ∧
    ∀ t : DecText, t.Valid → ∀ c s, DecimalNormal c s → decValue c s = t.value →
      decParse t.text = some (.ok (c, s)) := by
  refine ⟨fun c s h => ⟨decParse_decToStr h, ?_⟩, fun t ht c s hn hv => ht.parse_value hn hv⟩
  have hlen := length_decToStr h
  omega

/-- `-0.5`, with a zero at its end. -/
theorem decimal_text_half :
    decParse [0x2d, 0x30, 0x2e, 0x35, 0x30] = some (.ok (-5, 1)) := by
  have hvalid : DecText.Valid ⟨some true, [0x30], some [0x35, 0x30]⟩ :=
    ⟨by simp [DecText.digits, isDigit], by decide, by decide⟩
  have hnormal : DecimalNormal (-5) 1 := ⟨by decide, by decide, by norm_num, by decide⟩
  refine decimal_text.2 ⟨some true, [0x30], some [0x35, 0x30]⟩ hvalid (-5) 1 hnormal ?_
  show decValue (-5) 1 = decValue (-50) 2
  rw [decValue, decValue, show (1 : ℤ).toNat = 1 from rfl, show (2 : ℤ).toNat = 2 from rfl]
  norm_num

end Alcove.Numeric
