import Alcove.Json.Decode

/-!
# What the JSON decoder accepts

Every run of the decoder stays inside the buffer and ends; what it accepts has a derivation in the
grammar (`jsDecode_reads`), with a tree that is `Acceptable`, and the value it returns is what the tree
means (`Means`).
-/

namespace Alcove.Json

open Lib Cursor Json

/-! ## The meaning of a tree -/

/-- The bytes that the characters of a string stand for. -/
inductive Spells : List JsonChar → List UInt8 → Prop
  | nil : Spells [] []
  | raw {c : UInt8} {cs : List JsonChar} {m : List UInt8} (h : Spells cs m) :
      Spells (.raw c :: cs) (c :: m)
  | esc {c v : UInt8} {cs : List JsonChar} {m : List UInt8} (hc : shortEscapes.lookup c = some v)
      (h : Spells cs m) : Spells (.esc c :: cs) (v :: m)
  | scalar {h₁ h₂ h₃ h₄ : UInt8} {cs : List JsonChar} {m : List UInt8}
      (hzero : codeUnit h₁ h₂ h₃ h₄ ≠ 0) (hhigh : ¬ IsHigh (codeUnit h₁ h₂ h₃ h₄))
      (hlow : ¬ IsLow (codeUnit h₁ h₂ h₃ h₄)) (h : Spells cs m) :
      Spells (.hex h₁ h₂ h₃ h₄ :: cs) (utf8Encode (codeUnit h₁ h₂ h₃ h₄) ++ m)
  | pair {h₁ h₂ h₃ h₄ l₁ l₂ l₃ l₄ : UInt8} {cs : List JsonChar} {m : List UInt8}
      (hhigh : IsHigh (codeUnit h₁ h₂ h₃ h₄)) (hlow : IsLow (codeUnit l₁ l₂ l₃ l₄))
      (h : Spells cs m) :
      Spells (.hex h₁ h₂ h₃ h₄ :: .hex l₁ l₂ l₃ l₄ :: cs)
        (utf8Encode (0x10000 + (codeUnit h₁ h₂ h₃ h₄ - 0xd800) <<< 10 +
          (codeUnit l₁ l₂ l₃ l₄ - 0xdc00)) ++ m)

/-- The members of an object as the entries that are set one after the other. -/
inductive Entries (R : Json → Exp → Prop) : List (List JsonChar × Json) → List (CStr × Exp) → Prop
  | nil : Entries R [] []
  | cons {k : List JsonChar} {m : List UInt8} {j : Json} {v : Exp}
      {kvs : List (List JsonChar × Json)} {es : List (CStr × Exp)} (hk : Spells k m) (hj : R j v)
      (h : Entries R kvs es) : Entries R ((k, j) :: kvs) ((CStr.ofBytes m, v) :: es)

variable {strtod : List UInt8 → UInt64}

/-- The value of a number. -/
def valueOf (strtod : List UInt8 → UInt64) (n : JsonNumber) : Exp :=
  numberValue strtod (n.frac.isSome || n.exp.isSome) n.text

/-- **The value of a tree.** -/
inductive Means (strtod : List UInt8 → UInt64) : Json → Exp → Prop
  | null : Means strtod .null .nil
  | true : Means strtod (.bool true) .t
  | false : Means strtod (.bool false) .nil
  | number (n : JsonNumber) : Means strtod (.number n) (valueOf strtod n)
  | string {cs : List JsonChar} {m : List UInt8} (h : Spells cs m) :
      Means strtod (.string cs) (.string (CStr.ofBytes m))
  | array {js : List Json} {vs : List Exp} (h : List.Forall₂ (Means strtod) js vs) :
      Means strtod (.array js) (Exp.ofList vs)
  | object {kvs : List (List JsonChar × Json)} {es : List (CStr × Exp)}
      (h : Entries (Means strtod) kvs es) : Means strtod (.object kvs) (.dict (Dict.ofList es))

theorem Spells.append {cs cs' : List JsonChar} {m m' : List UInt8} (h : Spells cs m)
    (h' : Spells cs' m') : Spells (cs ++ cs') (m ++ m') := by
  induction h with
  | nil => exact h'
  | raw _ ih => exact .raw ih
  | esc hc _ ih => exact .esc hc ih
  | scalar hzero hhigh hlow _ ih =>
    rw [List.append_assoc]
    exact .scalar hzero hhigh hlow ih
  | pair hhigh hlow _ ih =>
    rw [List.append_assoc]
    exact .pair hhigh hlow ih

theorem Spells.proper {cs : List JsonChar} {m : List UInt8} (h : Spells cs m) : Proper cs := by
  induction h with
  | nil => exact .nil
  | raw _ ih => exact .raw ih
  | esc _ _ ih => exact .esc ih
  | scalar hzero hhigh hlow _ ih => exact .scalar hzero hhigh hlow ih
  | pair hhigh hlow _ ih => exact .pair hhigh hlow ih

/-! ## White space and digits -/

variable {s t r : List UInt8}

theorem ws_dropWhile (s : List UInt8) : Ws s (s.dropWhile isWs) := by
  induction s with
  | nil => exact .nil
  | cons c s ih =>
    by_cases hc : isWs c
    · rw [List.dropWhile_cons_of_pos hc]
      exact .cons hc ih
    · rw [List.dropWhile_cons_of_neg hc]
      exact .nil

theorem Ws.length_le (h : Ws s r) : r.length ≤ s.length := by
  induction h with
  | nil => exact le_rfl
  | cons _ _ ih => exact Nat.le_succ_of_le ih

theorem jsSkipWs_reads (s : List UInt8) : jsSkipWs.Reads s fun _ r => Ws s r :=
  Reads.skipWhile (ws_dropWhile s)

theorem jsDigits_reads (s : List UInt8) :
    jsDigits.Reads s fun _ r => ∃ ds, JsonNumber.Digits ds ∧ s = ds ++ r := by
  apply Reads.bind
  apply Reads.test
  cases s with
  | nil => exact Reads.fail
  | cons c s =>
    rw [List.getElem?_cons_zero, Option.any_some]
    by_cases hc : isDigit c
    · rw [if_pos hc]
      apply Reads.skipWhile
      refine ⟨(c :: s).takeWhile isDigit, ⟨?_, ?_⟩, List.takeWhile_append_dropWhile.symm⟩
      · rw [List.takeWhile_cons_of_pos hc]
        exact List.cons_ne_nil _ _
      · exact fun d hd => List.mem_takeWhile_imp hd
    · rw [if_neg hc]
      exact Reads.fail

/-! ## Numbers -/

theorem jsIntPart_reads (s : List UInt8) :
    jsIntPart.Reads s fun _ r => ∃ ds, JsonNumber.Digits ds ∧
      (ds.head? = some 0x30 → ds = [0x30]) ∧ s = ds ++ r := by
  apply Reads.bind
  apply Reads.test
  cases s with
  | nil => exact Reads.fail
  | cons c s =>
    rw [List.getElem?_cons_zero, Option.any_some]
    by_cases hc : isDigit c
    · rw [if_pos hc]
      apply Reads.bind
      apply Reads.test
      apply Reads.bind
      apply Reads.test
      split
      · exact Reads.fail
      · next hzero =>
        apply Reads.skipWhile
        refine ⟨(c :: s).takeWhile isDigit, ⟨?_, ?_⟩, ?_, List.takeWhile_append_dropWhile.symm⟩
        · rw [List.takeWhile_cons_of_pos hc]
          exact List.cons_ne_nil _ _
        · exact fun d hd => List.mem_takeWhile_imp hd
        · rw [List.takeWhile_cons_of_pos hc, List.head?_cons, Option.some.injEq]
          rintro rfl
          cases s with
          | nil => rfl
          | cons d s =>
            have hd : ¬ isDigit d := by simpa using hzero
            rw [List.takeWhile_cons_of_neg hd]
    · rw [if_neg hc]
      exact Reads.fail

theorem jsExponent_reads (s : List UInt8) :
    jsExponent.Reads s fun _ r => ∃ sign ds, (∀ c, sign = some c → c = 0x2b ∨ c = 0x2d) ∧
      JsonNumber.Digits ds ∧ s = sign.toList ++ ds ++ r := by
  apply Reads.bind
  apply Reads.skipIf
  · rintro c t rfl hc
    apply (jsDigits_reads t).mono
    rintro - r ⟨ds, hds, rfl⟩
    refine ⟨some c, ds, fun c' hc' => ?_, hds, rfl⟩
    obtain rfl : c = c' := Option.some.inj hc'
    simpa using hc
  · intro _
    apply (jsDigits_reads s).mono
    rintro - r ⟨ds, hds, rfl⟩
    exact ⟨none, ds, by simp, hds, rfl⟩

theorem jsPart_reads {f : UInt8 → Bool} {part : Cursor UInt8 Unit}
    {Q : Bool → List UInt8 → Prop}
    (hpart : ∀ c t, s = c :: t → f c → part.Reads t fun _ r => Q true r) (hnone : Q false s) :
    (jsPart f part).Reads s Q := by
  apply Reads.bind
  apply Reads.skipIf
  · intro c t hs hc
    rw [if_pos rfl]
    exact Reads.map (hpart c t hs hc)
  · intro _
    rw [if_neg (by simp)]
    exact Reads.pure hnone

/-- **A number that is scanned is one of the grammar.** -/
theorem jsScanNumber_reads (s : List UInt8) :
    jsScanNumber.Reads s fun isfloatTok r => ∃ n : JsonNumber, n.Valid ∧ s = n.text ++ r ∧
      isfloatTok = (n.frac.isSome || n.exp.isSome) := by
  -- The parts are read one after the other, each into its field of the number.
  have hexp {minus : Bool} {int : List UInt8} {frac : Option (List UInt8)} (t : List UInt8)
      (hint : JsonNumber.Digits int) (hzero : int.head? = some 0x30 → int = [0x30])
      (hfrac : ∀ ds, frac = some ds → JsonNumber.Digits ds)
      (hs : s = (if minus then [0x2d] else []) ++ int ++ JsonNumber.fracText frac ++ t) :
      (jsPart (fun c => c == 0x65 || c == 0x45) jsExponent).Reads t fun e r =>
        ∃ n : JsonNumber, n.Valid ∧ s = n.text ++ r ∧
          (frac.isSome || e) = (n.frac.isSome || n.exp.isSome) := by
    apply jsPart_reads
    · rintro c u rfl hc
      apply (jsExponent_reads u).mono
      rintro - r ⟨sign, ds, hsign, hds, rfl⟩
      refine ⟨⟨minus, int, frac, some (c, sign, ds)⟩, ⟨hint, hzero, hfrac, ?_⟩, ?_, rfl⟩
      · intro e sign' ds' heq
        cases heq
        exact ⟨by simpa using hc, hsign, hds⟩
      · rw [hs, JsonNumber.text, JsonNumber.expText]
        simp
    · refine ⟨⟨minus, int, frac, none⟩, ⟨hint, hzero, hfrac, ?_⟩, ?_, rfl⟩
      · intro e sign ds heq
        cases heq
      · rw [hs, JsonNumber.text, JsonNumber.expText, List.append_nil]
  have hfrac {minus : Bool} (t : List UInt8) (hs : s = (if minus then [0x2d] else []) ++ t) :
      (jsIntPart >>= fun _ => do
        let point ← jsPart (· == 0x2e) jsDigits
        let e ← jsPart (fun c => c == 0x65 || c == 0x45) jsExponent
        return point || e).Reads t fun isfloatTok r => ∃ n : JsonNumber, n.Valid ∧
          s = n.text ++ r ∧ isfloatTok = (n.frac.isSome || n.exp.isSome) := by
    apply Reads.bind
    apply (jsIntPart_reads t).mono
    rintro - u ⟨int, hint, hzero, rfl⟩
    apply Reads.bind
    apply jsPart_reads
    · rintro c v rfl hc
      obtain rfl : c = 0x2e := by simpa using hc
      apply (jsDigits_reads v).mono
      rintro - w ⟨ds, hds, rfl⟩
      have hdigits : ∀ ds', some ds = some ds' → JsonNumber.Digits ds' := by
        rintro _ ⟨⟩
        exact hds
      have hsplit : s = (if minus then [0x2d] else []) ++ int ++ JsonNumber.fracText (some ds) ++ w := by
        rw [hs, JsonNumber.fracText]
        simp
      apply Reads.bind
      apply (hexp w hint hzero hdigits hsplit).mono
      intro e r h
      exact Reads.pure h
    · have hdigits : ∀ ds', none = some ds' → JsonNumber.Digits ds' := by simp
      have hsplit : s = (if minus then [0x2d] else []) ++ int ++ JsonNumber.fracText none ++ u := by
        rw [hs, JsonNumber.fracText]
        simp
      apply Reads.bind
      apply (hexp u hint hzero hdigits hsplit).mono
      intro e r h
      exact Reads.pure h
  apply Reads.bind
  apply Reads.skipIf
  · rintro c t rfl hc
    obtain rfl : c = 0x2d := by simpa using hc
    exact @hfrac true t rfl
  · intro _
    exact @hfrac false s rfl

/-! ## Strings -/

theorem chr2hex_eq (c : UInt8) :
    chr2hex c = if isHexDigit c then some (hexDigitValue c) else none := by
  unfold chr2hex isHexDigit hexDigitValue
  by_cases h1 : isDigit c
  · simp [h1]
  · by_cases h2 : 0x41 ≤ c ∧ c ≤ 0x46
    · simp [h1, h2]
    · by_cases h3 : 0x61 ≤ c ∧ c ≤ 0x66
      · have hgt : ¬ c ≤ 0x46 := fun hle => by
          have := UInt8.le_iff_toNat_le.mp (UInt8.le_trans h3.1 hle)
          simp at this
        simp [h1, h3, hgt]
      · simp [h1, h2, h3]

theorem hexDigitValue_lt {c : UInt8} (h : isHexDigit c) : hexDigitValue c < 16 := by
  have hall : ∀ n < 256, isHexDigit (UInt8.ofNat n) → hexDigitValue (UInt8.ofNat n) < 16 := by
    decide +kernel
  simpa using hall c.toNat c.toNat_lt (by simpa using h)

/-- Four digits have a value when they are digits, and it is the code unit. -/
theorem hexValue_eq_some {h₁ h₂ h₃ h₄ : UInt8} {cp : ℕ} :
    hexValue [h₁, h₂, h₃, h₄] = some cp ↔
      (JsonChar.hex h₁ h₂ h₃ h₄).Valid ∧ cp = codeUnit h₁ h₂ h₃ h₄ := by
  have hor {v : ℕ} {c : UInt8} (hc : isHexDigit c) :
      v <<< 4 ||| hexDigitValue c = v * 16 + hexDigitValue c := by
    rw [← Nat.shiftLeft_add_eq_or_of_lt (hexDigitValue_lt hc), Nat.shiftLeft_eq]
  unfold hexValue JsonChar.Valid codeUnit
  simp only [List.foldlM_cons, List.foldlM_nil, chr2hex_eq]
  by_cases hh₁ : isHexDigit h₁
  · by_cases hh₂ : isHexDigit h₂
    · by_cases hh₃ : isHexDigit h₃
      · by_cases hh₄ : isHexDigit h₄
        · simp [hh₁, hh₂, hh₃, hh₄, hor, eq_comm]
        · simp [hh₁, hh₂, hh₃, hh₄]
      · simp [hh₁, hh₂, hh₃]
    · simp [hh₁, hh₂]
  · simp [hh₁]

theorem jsHex4_reads (i : ℕ) (s : List UInt8) :
    (jsHex4 i).Reads s fun o r => s = r ∧ ∀ cp, o = some cp → ∃ h₁ h₂ h₃ h₄ t,
      s.drop i = h₁ :: h₂ :: h₃ :: h₄ :: t ∧ (JsonChar.hex h₁ h₂ h₃ h₄).Valid ∧
        cp = codeUnit h₁ h₂ h₃ h₄ := by
  apply Reads.bind
  apply Reads.avail
  by_cases hi : i + 4 ≤ s.length
  · rw [if_pos (decide_eq_true hi)]
    have hget (k : ℕ) (hk : i + k < s.length) : s[i + k]? = some s[i + k] :=
      List.getElem?_eq_getElem hk
    apply Reads.bind
    apply Reads.peek (hget 0 (by omega))
    apply Reads.bind
    apply Reads.peek (hget 1 (by omega))
    apply Reads.bind
    apply Reads.peek (hget 2 (by omega))
    apply Reads.bind
    apply Reads.peek (hget 3 (by omega))
    apply Reads.pure
    refine ⟨rfl, fun cp hcp => ⟨_, _, _, _, s.drop (i + 4), ?_, hexValue_eq_some.mp hcp⟩⟩
    rw [List.drop_eq_getElem_cons (by omega), List.drop_eq_getElem_cons (by omega),
      List.drop_eq_getElem_cons (by omega), List.drop_eq_getElem_cons (by omega)]
    rfl
  · rw [if_neg (by simpa using hi)]
    exact Reads.pure ⟨rfl, fun cp hcp => by cases hcp⟩

/-- Characters of a string that stand for the bytes `x` were read between `s` and `r`. -/
def ReadsChars (s : List UInt8) (x r : List UInt8) : Prop :=
  ∃ cs, (∀ c ∈ cs, JsonChar.Valid c) ∧ Spells cs x ∧ s = cs.flatMap JsonChar.text ++ r

/-- So they were, at least one of them. -/
def ReadsSome (s x r : List UInt8) : Prop := ReadsChars s x r ∧ r.length < s.length

theorem ReadsChars.append {x y : List UInt8} (h : ReadsChars s x t) (h' : ReadsChars t y r) :
    ReadsChars s (x ++ y) r := by
  obtain ⟨cs, hcs, hx, rfl⟩ := h
  obtain ⟨cs', hcs', hy, rfl⟩ := h'
  refine ⟨cs ++ cs', fun c hc => ?_, hx.append hy, by simp⟩
  rcases List.mem_append.mp hc with hc | hc
  · exact hcs c hc
  · exact hcs' c hc

theorem length_utf8Encode_le (cp : ℕ) : (utf8Encode cp).length ≤ 4 := by
  unfold utf8Encode
  split
  · simp
  split
  · simp
  split <;> simp

/-- No character stands for more bytes than it is written with. -/
theorem Spells.length_le {cs : List JsonChar} {m : List UInt8} (h : Spells cs m) :
    m.length ≤ (cs.flatMap JsonChar.text).length := by
  induction h with
  | nil => exact le_rfl
  | raw _ ih | esc _ _ ih =>
    rw [List.flatMap_cons, List.length_append, List.length_cons, JsonChar.text]
    simp only [List.length_cons, List.length_nil]
    omega
  | @scalar h₁ h₂ h₃ h₄ cs m _ _ _ _ ih =>
    have := length_utf8Encode_le (codeUnit h₁ h₂ h₃ h₄)
    rw [List.flatMap_cons, List.length_append, List.length_append, JsonChar.text]
    simp only [List.length_cons, List.length_nil]
    omega
  | @pair h₁ h₂ h₃ h₄ l₁ l₂ l₃ l₄ cs m _ _ _ ih =>
    have := length_utf8Encode_le (0x10000 + (codeUnit h₁ h₂ h₃ h₄ - 0xd800) <<< 10 +
      (codeUnit l₁ l₂ l₃ l₄ - 0xdc00))
    rw [List.flatMap_cons, List.flatMap_cons, List.length_append, List.length_append,
      List.length_append, JsonChar.text, JsonChar.text]
    simp only [List.length_cons, List.length_nil]
    omega

theorem jsDecodeLow_reads {h₁ h₂ h₃ h₄ : UInt8} (hvalid : (JsonChar.hex h₁ h₂ h₃ h₄).Valid)
    (hhigh : IsHigh (codeUnit h₁ h₂ h₃ h₄)) (s : List UInt8) :
    (jsDecodeLow (codeUnit h₁ h₂ h₃ h₄)).Reads s
      (ReadsSome ((JsonChar.hex h₁ h₂ h₃ h₄).text ++ s)) := by
  apply Reads.bind
  apply Reads.avail
  apply Reads.bind
  apply Reads.test
  apply Reads.bind
  apply Reads.test
  split
  · next hcond =>
    simp only [Bool.and_eq_true, decide_eq_true_eq] at hcond
    obtain ⟨⟨hlen, hbackslash⟩, hu⟩ := hcond
    apply Reads.bind
    apply (jsHex4_reads 2 s).mono
    rintro o r ⟨rfl, ho⟩
    cases o with
    | none => exact Reads.fail
    | some lo =>
      obtain ⟨l₁, l₂, l₃, l₄, t, hdrop, hvalid', rfl⟩ := ho lo rfl
      obtain ⟨c, d, s', rfl⟩ : ∃ c d s', s = c :: d :: s' := by
        match s, hlen with
        | c :: d :: s', _ => exact ⟨c, d, s', rfl⟩
      obtain rfl : c = 0x5c := by simpa using hbackslash
      obtain rfl : d = 0x75 := by simpa using hu
      obtain rfl : s' = l₁ :: l₂ :: l₃ :: l₄ :: t := by simpa using hdrop
      simp only
      split
      · exact Reads.fail
      · next hlow =>
        have hlow' : IsLow (codeUnit l₁ l₂ l₃ l₄) := by
          unfold IsLow
          omega
        apply Reads.map
        apply Reads.skip hlen
        refine ⟨⟨[.hex h₁ h₂ h₃ h₄, .hex l₁ l₂ l₃ l₄], ?_, ?_, rfl⟩, ?_⟩
        · intro c hc
          rcases List.mem_pair.mp hc with rfl | rfl
          · exact hvalid
          · exact hvalid'
        · simpa using Spells.pair hhigh hlow' .nil
        · simp [JsonChar.text]
          omega
  · exact Reads.fail

theorem jsDecodeUnicode_reads (s : List UInt8) :
    jsDecodeUnicode.Reads s (ReadsSome (0x5c :: 0x75 :: s)) := by
  apply Reads.bind
  apply (jsHex4_reads 0 s).mono
  rintro o r ⟨rfl, ho⟩
  cases o with
  | none => exact Reads.fail
  | some cp =>
    obtain ⟨h₁, h₂, h₃, h₄, t, hdrop, hvalid, rfl⟩ := ho cp rfl
    obtain rfl : s = h₁ :: h₂ :: h₃ :: h₄ :: t := by simpa using hdrop
    simp only
    split
    · exact Reads.fail
    · next hzero =>
      apply Reads.bind
      apply Reads.skip (by simp)
      split
      · next hhigh => exact jsDecodeLow_reads hvalid hhigh t
      split
      · exact Reads.fail
      · next hhigh hlow =>
        apply Reads.pure
        refine ⟨⟨[.hex h₁ h₂ h₃ h₄], ?_, ?_, rfl⟩, ?_⟩
        · intro c hc
          rw [List.mem_singleton.mp hc]
          exact hvalid
        · simpa using Spells.scalar hzero hhigh hlow .nil
        · simp
          omega

theorem jsDecodeEscape_reads (s : List UInt8) :
    jsDecodeEscape.Reads s (ReadsSome (0x5c :: s)) := by
  apply Reads.bind
  apply Reads.avail
  cases s with
  | nil => exact Reads.fail
  | cons esc s =>
    rw [if_pos (by simp)]
    apply Reads.bind
    apply Reads.next
    cases hesc : shortEscapes.lookup esc with
    | some c =>
      apply Reads.pure
      refine ⟨⟨[.esc esc], ?_, .esc hesc .nil, rfl⟩, Nat.lt_succ_of_lt (Nat.lt_succ_self _)⟩
      intro c' hc'
      rw [List.mem_singleton.mp hc']
      have hmem : (esc, c) ∈ shortEscapes := by
        obtain ⟨l₁, l₂, hsplit, -⟩ := List.lookup_eq_some_iff.mp hesc
        rw [hsplit]
        simp
      simp only [shortEscapes, List.mem_cons, Prod.mk.injEq, List.not_mem_nil, or_false] at hmem
      rcases hmem with ⟨rfl, -⟩ | ⟨rfl, -⟩ | ⟨rfl, -⟩ | ⟨rfl, -⟩ | ⟨rfl, -⟩ | ⟨rfl, -⟩ | ⟨rfl, -⟩ |
        ⟨rfl, -⟩ <;> simp [JsonChar.Valid]
    | none =>
      simp only
      split
      · next hu =>
        rw [hu]
        exact jsDecodeUnicode_reads s
      · exact Reads.fail

/-- **A string that is read is one of the grammar.** -/
theorem jsDecodeString_reads (hs : s.length ≤ intMax) :
    jsDecodeString.Reads s fun text r => ∃ cs m, DerivesString cs (0x22 :: s) r ∧ Spells cs m ∧
      text = CStr.ofBytes m := by
  apply Reads.bind
  have hloop : (loop jsDecodeChar []).Reads s fun m r => ReadsChars s m (0x22 :: r) := by
    apply Reads.loop fun m t => ReadsChars s m t
    · intro m t hm
      apply Reads.bind
      apply Reads.avail
      cases t with
      | nil => exact Reads.fail
      | cons c t =>
        rw [if_pos (by simp)]
        apply Reads.bind
        apply Reads.next
        split
        · next hquote =>
          apply Reads.pure
          exact hquote ▸ hm
        split
        · exact Reads.fail
        · next hquote hctl =>
          split
          · next hback =>
            apply Reads.pure
            have hraw : ReadsChars (c :: t) [c] t := by
              refine ⟨[.raw c], ?_, .raw .nil, rfl⟩
              intro c' hc'
              rw [List.mem_singleton.mp hc']
              exact ⟨UInt8.not_lt.mp hctl, hquote, hback⟩
            exact ⟨Nat.lt_succ_self _, hm.append hraw⟩
          · next hback =>
            obtain rfl : c = 0x5c := not_not.mp hback
            apply Reads.map
            apply (jsDecodeEscape_reads t).mono
            exact fun x r hx => ⟨hx.2, hm.append hx.1⟩
    · exact ⟨[], by simp, .nil, rfl⟩
  apply hloop.mono
  rintro m r ⟨cs, hcs, hm, rfl⟩
  have hlen := hm.length_le
  rw [List.length_append] at hs
  unfold makeString
  rw [if_neg (by omega)]
  exact Reads.pure ⟨cs, m, .mk hcs, hm, rfl⟩

/-! ## Containers -/

/-- What the decoder accepts with room for `n` calls, this one included: a value after white space, with
a tree that nests below this call, and what the tree means. -/
def Accepts (strtod : List UInt8 → UInt64) (n : ℕ) (decode : Cursor UInt8 Exp) : Prop :=
  ∀ s, s.length ≤ intMax → decode.Reads s fun v r => r.length < s.length ∧
    ∃ k j t, n = k + 1 ∧ Ws s t ∧ Derives j t r ∧ Acceptable k j ∧ Means strtod j v

variable {decode : Cursor UInt8 Exp} {n : ℕ}

theorem skipIf_eq_reads {c : UInt8} {Q : Bool → List UInt8 → Prop} {s : List UInt8}
    (h : ∀ t, s = c :: t → Q true t) (h' : Q false s) : (skipIf (· == c)).Reads s Q := by
  apply Reads.skipIf
  · rintro c' t rfl hc
    obtain rfl : c' = c := by simpa using hc
    exact h t rfl
  · exact fun _ => h'

/-- The elements `vs` were read between `s` and `t`, each with the separator after it. -/
structure ElementsRead (strtod : List UInt8 → UInt64) (n : ℕ) (s : List UInt8) (vs : List Exp)
    (js : List Json) (t : List UInt8) : Prop where
  means : List.Forall₂ (Means strtod) js vs
  acceptable : ∀ j ∈ js, ∃ k, n = k + 1 ∧ Acceptable k j
  derives : ∀ js' r, Elements Derives js' t r → Elements Derives (js ++ js') s r
  length : t.length ≤ s.length

theorem forall₂_append_one {α β : Type} {R : α → β → Prop} {as : List α} {bs : List β} {a : α} {b : β}
    (h : List.Forall₂ R as bs) (hab : R a b) : List.Forall₂ R (as ++ [a]) (bs ++ [b]) := by
  induction h with
  | nil => exact .cons hab .nil
  | cons head _ ih => exact .cons head ih

theorem jsDecodeElements_reads (h : Accepts strtod n decode) (hs : s.length ≤ intMax) :
    (loop (jsDecodeElement decode) []).Reads s fun vs r => r.length < s.length ∧ ∃ js,
      vs ≠ [] ∧ List.Forall₂ (Means strtod) js vs ∧ (∀ j ∈ js, ∃ k, n = k + 1 ∧ Acceptable k j) ∧
        Elements Derives js s (0x5d :: r) := by
  apply Reads.loop fun vs t => ∃ js, ElementsRead strtod n s vs js t
  · rintro vs t ⟨js, hjs⟩
    apply Reads.bind
    apply (h t (hjs.length.trans hs)).mono
    rintro v u ⟨hlt, k, j, t', hn, hws, hj, hacc, hv⟩
    have hmeans := forall₂_append_one hjs.means hv
    have hall : ∀ j' ∈ js ++ [j], ∃ k, n = k + 1 ∧ Acceptable k j' := by
      intro j' hj'
      rcases List.mem_append.mp hj' with hj' | hj'
      · exact hjs.acceptable j' hj'
      · exact ⟨k, hn, List.mem_singleton.mp hj' ▸ hacc⟩
    have hlen := hjs.length
    apply Reads.bind
    apply (jsSkipWs_reads u).mono
    intro _ w hw
    have hwlen := Ws.length_le hw
    apply Reads.bind
    apply skipIf_eq_reads
    · rintro x rfl
      rw [List.length_cons] at hwlen
      refine Reads.pure ⟨by omega, js ++ [j], hmeans, hall, fun js' r hjs' => ?_, by omega⟩
      rw [List.append_assoc]
      exact hjs.derives _ _ (.cons hws hj hw hjs')
    · apply Reads.bind
      apply skipIf_eq_reads
      · rintro x rfl
        rw [List.length_cons] at hwlen
        exact Reads.pure ⟨by omega, js ++ [j], by simp, hmeans, hall,
          hjs.derives _ _ (.one hws hj hw)⟩
      · exact Reads.fail
  · exact ⟨[], .nil, by simp, fun js' r h => h, le_rfl⟩

theorem Ws.trans (h : Ws s t) (h' : Ws t r) : Ws s r := by
  induction h with
  | nil => exact h'
  | cons hc _ ih => exact .cons hc (ih h')

theorem elements_ws {js : List Json} (hs : Ws s t) (h : Elements Derives js t r) :
    Elements Derives js s r := by
  cases h with
  | one ht hj hr => exact .one (Ws.trans hs ht) hj hr
  | cons ht hj hv tail => exact .cons (Ws.trans hs ht) hj hv tail

theorem acceptable_array {js : List Json} (h : ∀ j ∈ js, ∃ k, n = k + 1 ∧ Acceptable k j) :
    Acceptable n (.array js) := by
  cases n with
  | zero =>
    cases js with
    | nil => exact .emptyArray
    | cons j js =>
      obtain ⟨k, hk, -⟩ := h j List.mem_cons_self
      omega
  | succ n =>
    apply Acceptable.array
    intro j hj
    obtain ⟨k, hk, hacc⟩ := h j hj
    obtain rfl : n = k := Nat.succ.inj hk
    exact hacc

/-- **An array that is read is one of the grammar.** -/
theorem jsDecodeArray_reads (h : Accepts strtod n decode) (hs : s.length ≤ intMax) :
    (jsDecodeArray decode).Reads s fun v r => r.length < s.length + 1 ∧
      ∃ js, Derives (.array js) (0x5b :: s) r ∧ Acceptable n (.array js) ∧
        Means strtod (.array js) v := by
  apply Reads.bind
  apply (jsSkipWs_reads s).mono
  intro _ t ht
  have hlen := Ws.length_le ht
  apply Reads.bind
  apply skipIf_eq_reads
  · rintro r rfl
    rw [List.length_cons] at hlen
    exact Reads.pure ⟨by omega, [], .emptyArray ht, .emptyArray, .array .nil⟩
  · rw [if_neg (by simp)]
    apply Reads.map
    apply (jsDecodeElements_reads h (hlen.trans hs)).mono
    rintro vs r ⟨hlt, js, hne, hmeans, hall, hder⟩
    refine ⟨by omega, js, .array (elements_ws ht hder), acceptable_array hall, ?_⟩
    rw [← Exp.ofList_of_ne_nil hne]
    exact .array hmeans

/-- The members were read between `s` and `t`, each with the separator after it, and make `d`. -/
structure MembersRead (strtod : List UInt8 → UInt64) (n : ℕ) (s : List UInt8) (d : Dict Exp)
    (kvs : List (List JsonChar × Json)) (t : List UInt8) : Prop where
  entries : ∃ es, Entries (Means strtod) kvs es ∧ d = Dict.ofList es
  keys : ∀ kv ∈ kvs, Proper kv.1
  acceptable : ∀ kv ∈ kvs, ∃ k, n = k + 1 ∧ Acceptable k kv.2
  derives : ∀ kvs' r, Members Derives kvs' t r → Members Derives (kvs ++ kvs') s r
  length : t.length ≤ s.length

theorem Entries.append_one {R : Json → Exp → Prop} {kvs : List (List JsonChar × Json)}
    {es : List (CStr × Exp)} {k : List JsonChar} {m : List UInt8} {j : Json} {v : Exp}
    (h : Entries R kvs es) (hk : Spells k m) (hj : R j v) :
    Entries R (kvs ++ [(k, j)]) (es ++ [(CStr.ofBytes m, v)]) := by
  induction h with
  | nil => exact .cons hk hj .nil
  | cons hk' hj' _ ih => exact .cons hk' hj' ih

/-- A member, up to what follows it. -/
theorem jsDecodeMember_reads (h : Accepts strtod n decode) (hs : s.length ≤ intMax) (d : Dict Exp) :
    (jsDecodeMember decode d).Reads s fun y r => ∃ k m j v kk, n = kk + 1 ∧ Spells k m ∧
      Acceptable kk j ∧ Means strtod j v ∧ r.length < s.length ∧ match y with
        | .inl d' => d' = d.set (CStr.ofBytes m) v ∧ Member Derives (k, j) s (0x2c :: r)
        | .inr d' => d' = d.set (CStr.ofBytes m) v ∧ Member Derives (k, j) s (0x7d :: r) := by
  apply Reads.bind
  apply (jsSkipWs_reads s).mono
  intro _ t ht
  have htlen := Ws.length_le ht
  apply Reads.bind
  apply skipIf_eq_reads
  · rintro t rfl
    rw [List.length_cons] at htlen
    rw [if_pos rfl]
    apply Reads.bind
    apply (jsDecodeString_reads (by omega)).mono
    rintro key u ⟨k, m, hk, hm, rfl⟩
    have hulen : u.length < t.length := by
      cases hk with
      | mk =>
        rw [List.length_append, List.length_cons]
        omega
    apply Reads.bind
    apply (jsSkipWs_reads u).mono
    intro _ v hv
    have hvlen := Ws.length_le hv
    apply Reads.bind
    apply skipIf_eq_reads
    · rintro v rfl
      rw [List.length_cons] at hvlen
      rw [if_pos rfl]
      apply Reads.bind
      apply (h v (by omega)).mono
      rintro val w ⟨hwlen, kk, j, v', hn, hws, hj, hacc, hval⟩
      apply Reads.bind
      apply (jsSkipWs_reads w).mono
      intro _ x hx
      have hxlen := Ws.length_le hx
      apply Reads.bind
      apply skipIf_eq_reads
      · rintro r rfl
        rw [List.length_cons] at hxlen
        exact Reads.pure ⟨k, m, j, val, kk, hn, hm, hacc, hval, by omega, rfl,
          .mk ht hk hv hws hj hx⟩
      · rw [if_neg (by simp)]
        apply Reads.bind
        apply skipIf_eq_reads
        · rintro r rfl
          rw [List.length_cons] at hxlen
          exact Reads.pure ⟨k, m, j, val, kk, hn, hm, hacc, hval, by omega, rfl,
            .mk ht hk hv hws hj hx⟩
        · exact Reads.fail
    · exact Reads.fail
  · exact Reads.fail

theorem jsDecodeMembers_reads (h : Accepts strtod n decode) (hs : s.length ≤ intMax) :
    (loop (jsDecodeMember decode) Dict.create).Reads s fun d r => r.length < s.length ∧ ∃ kvs es,
      Entries (Means strtod) kvs es ∧ d = Dict.ofList es ∧ (∀ kv ∈ kvs, Proper kv.1) ∧
        (∀ kv ∈ kvs, ∃ k, n = k + 1 ∧ Acceptable k kv.2) ∧ Members Derives kvs s (0x7d :: r) := by
  apply Reads.loop fun d t => ∃ kvs, MembersRead strtod n s d kvs t
  · rintro d t ⟨kvs, hkvs⟩
    obtain ⟨es, hes, rfl⟩ := hkvs.entries
    have hlen := hkvs.length
    apply (jsDecodeMember_reads h (hlen.trans hs) _).mono
    rintro y r ⟨k, m, j, v, kk, hn, hm, hacc, hv, hlt, hy⟩
    have hentries := hes.append_one hm hv
    have hset : (Dict.ofList es).set (CStr.ofBytes m) v =
        Dict.ofList (es ++ [(CStr.ofBytes m, v)]) := by simp [Dict.ofList]
    have hkeys : ∀ kv ∈ kvs ++ [(k, j)], Proper kv.1 := by
      intro kv hkv
      rcases List.mem_append.mp hkv with hkv | hkv
      · exact hkvs.keys kv hkv
      · exact List.mem_singleton.mp hkv ▸ hm.proper
    have hall : ∀ kv ∈ kvs ++ [(k, j)], ∃ k, n = k + 1 ∧ Acceptable k kv.2 := by
      intro kv hkv
      rcases List.mem_append.mp hkv with hkv | hkv
      · exact hkvs.acceptable kv hkv
      · exact ⟨kk, hn, List.mem_singleton.mp hkv ▸ hacc⟩
    cases y with
    | inl d' =>
      obtain ⟨rfl, hmember⟩ := hy
      refine ⟨hlt, kvs ++ [(k, j)], ⟨_, hentries, hset⟩, hkeys, hall, fun kvs' r' h' => ?_, by omega⟩
      rw [List.append_assoc]
      exact hkvs.derives _ _ (.cons hmember h')
    | inr d' =>
      obtain ⟨rfl, hmember⟩ := hy
      exact ⟨by omega, _, _, hentries, hset, hkeys, hall, hkvs.derives _ _ (.one hmember)⟩
  · exact ⟨[], ⟨[], .nil, rfl⟩, by simp, by simp, fun kvs' r h => h, le_rfl⟩

theorem members_ws {kvs : List (List JsonChar × Json)} (hs : Ws s t)
    (h : Members Derives kvs t r) : Members Derives kvs s r := by
  have hmember {kv : List JsonChar × Json} {r : List UInt8} (h : Member Derives kv t r) :
      Member Derives kv s r := by
    cases h with
    | mk ht hk hcolon hv hj hr => exact .mk (Ws.trans hs ht) hk hcolon hv hj hr
  cases h with
  | one h => exact .one (hmember h)
  | cons h tail => exact .cons (hmember h) tail

theorem acceptable_object {kvs : List (List JsonChar × Json)} (hkeys : ∀ kv ∈ kvs, Proper kv.1)
    (h : ∀ kv ∈ kvs, ∃ k, n = k + 1 ∧ Acceptable k kv.2) : Acceptable n (.object kvs) := by
  cases n with
  | zero =>
    cases kvs with
    | nil => exact .emptyObject
    | cons kv kvs =>
      obtain ⟨k, hk, -⟩ := h kv List.mem_cons_self
      omega
  | succ n =>
    apply Acceptable.object hkeys
    intro kv hkv
    obtain ⟨k, hk, hacc⟩ := h kv hkv
    obtain rfl : n = k := Nat.succ.inj hk
    exact hacc

/-- **An object that is read is one of the grammar.** -/
theorem jsDecodeObject_reads (h : Accepts strtod n decode) (hs : s.length ≤ intMax) :
    (jsDecodeObject decode).Reads s fun v r => r.length < s.length + 1 ∧
      ∃ kvs, Derives (.object kvs) (0x7b :: s) r ∧ Acceptable n (.object kvs) ∧
        Means strtod (.object kvs) v := by
  apply Reads.bind
  apply (jsSkipWs_reads s).mono
  intro _ t ht
  have hlen := Ws.length_le ht
  apply Reads.bind
  apply skipIf_eq_reads
  · rintro r rfl
    rw [List.length_cons] at hlen
    exact Reads.pure ⟨by omega, [], .emptyObject ht, .emptyObject, .object .nil⟩
  · rw [if_neg (by simp)]
    apply Reads.map
    apply (jsDecodeMembers_reads h (hlen.trans hs)).mono
    rintro d r ⟨hlt, kvs, es, hes, rfl, hkeys, hall, hder⟩
    exact ⟨by omega, kvs, .object (members_ws ht hder), acceptable_object hkeys hall, .object hes⟩

/-! ## Values -/

theorem jsWord_reads (word s : List UInt8) :
    (jsWord word).Reads s fun found r => found = true → s = word ++ r := by
  apply Reads.bind
  apply Reads.avail
  by_cases hlen : word.length ≤ s.length
  · rw [if_pos (decide_eq_true hlen)]
    apply Reads.bind
    apply Reads.slice hlen
    split
    · next heq =>
      apply Reads.map
      apply Reads.skip hlen
      intro _
      conv_lhs => rw [← List.take_append_drop word.length s, heq]
    · exact Reads.pure fun h => by cases h
  · rw [if_neg (by simpa using hlen)]
    exact Reads.pure fun h => by cases h

theorem length_text_pos {x : JsonNumber} (h : x.Valid) : 0 < x.text.length := by
  have hint := List.length_pos_iff.mpr h.int.1
  rw [JsonNumber.text]
  simp only [List.length_append]
  omega

/-- The post-condition of a value that begins with the input. -/
def ValueRead (strtod : List UInt8 → UInt64) (n : ℕ) (s : List UInt8) (v : Exp) (r : List UInt8) :
    Prop :=
  r.length < s.length ∧ ∃ j, Derives j s r ∧ Acceptable n j ∧ Means strtod j v

/-- **A value that is read is one of the grammar.** -/
theorem jsDecodeValue_reads (h : Accepts strtod n decode) {c : UInt8}
    (hs : (c :: s).length ≤ intMax) :
    (jsDecodeValue strtod decode c).Reads (c :: s) (ValueRead strtod n (c :: s)) := by
  have hs' : s.length ≤ intMax := by
    rw [List.length_cons] at hs
    omega
  have hskip : 1 ≤ (c :: s).length := Nat.le_add_left ..
  have hword {word : List UInt8} {v : Exp} {Q : Exp → List UInt8 → Prop}
      (hQ : ∀ r, c :: s = word ++ r → Q v r) :
      (jsWord word >>= fun found => if found then return v else fail).Reads (c :: s) Q := by
    apply Reads.bind
    apply (jsWord_reads word (c :: s)).mono
    intro found r hfound
    split
    · next hf => exact Reads.pure (hQ r (hfound hf))
    · exact Reads.fail
  unfold jsDecodeValue
  split
  · next hc =>
    subst hc
    apply Reads.bind
    apply Reads.skip hskip
    apply (jsDecodeObject_reads h hs').mono
    rintro v r ⟨hlt, kvs, hder, hacc, hv⟩
    exact ⟨hlt, _, hder, hacc, hv⟩
  split
  · next hc =>
    subst hc
    apply Reads.bind
    apply Reads.skip hskip
    apply (jsDecodeArray_reads h hs').mono
    rintro v r ⟨hlt, js, hder, hacc, hv⟩
    exact ⟨hlt, _, hder, hacc, hv⟩
  split
  · next hc =>
    subst hc
    apply Reads.bind
    apply Reads.skip hskip
    apply Reads.map
    apply (jsDecodeString_reads hs').mono
    rintro text r ⟨cs, m, hder, hm, rfl⟩
    refine ⟨?_, _, .string hder, .string hm.proper, .string hm⟩
    cases hder with
    | mk =>
      simp
      omega
  split
  · apply hword
    intro r hr
    rw [hr]
    exact ⟨by simp; omega, _, .true, .bool true, .true⟩
  split
  · apply hword
    intro r hr
    rw [hr]
    exact ⟨by simp; omega, _, .false, .bool false, .false⟩
  split
  · apply hword
    intro r hr
    rw [hr]
    exact ⟨by simp; omega, _, .null, .null, .null⟩
  split
  · apply Reads.map
    apply Reads.span
    apply (jsScanNumber_reads (c :: s)).mono
    rintro isfloatTok r ⟨x, hx, hcs, rfl⟩
    refine ⟨x.text, hcs, ?_⟩
    rw [hcs]
    have := length_text_pos hx
    exact ⟨by rw [List.length_append]; omega, _, .number hx, .number x, .number x⟩
  · exact Reads.fail

/-- **What the decoder accepts is a value of the grammar**, nested no deeper than it allows; it stays
inside the buffer, and ends. -/
theorem jsDecode_reads {fuel depth : ℕ} (hdepth : depth + n = jsMaxDepth + 1) (hfuel : n < fuel) :
    Accepts strtod n (jsDecode strtod fuel depth) := by
  induction n generalizing fuel depth with
  | zero =>
    obtain ⟨fuel, rfl⟩ := Nat.exists_eq_add_one.mpr hfuel
    intro s hs
    rw [jsDecode, if_pos (by omega)]
    exact Reads.fail
  | succ n ih =>
    obtain ⟨fuel, rfl⟩ := Nat.exists_eq_add_one.mpr (Nat.zero_lt_of_lt hfuel)
    intro s hs
    rw [jsDecode, if_neg (by omega)]
    apply Reads.bind
    apply (jsSkipWs_reads s).mono
    intro _ t ht
    have hlen := Ws.length_le ht
    apply Reads.bind
    apply Reads.avail
    cases t with
    | nil => exact Reads.fail
    | cons c t =>
      rw [if_pos (by simp)]
      apply Reads.bind
      apply Reads.peek rfl
      apply (jsDecodeValue_reads (ih (by omega) (by omega)) (hlen.trans hs)).mono
      rintro v r ⟨hlt, j, hder, hacc, hv⟩
      exact ⟨by omega, n, j, _, rfl, ht, hder, hacc, hv⟩

end Alcove.Json
