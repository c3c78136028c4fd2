import Alcove.Numeric.DecimalText
import Alcove.Value.Codec
import Alcove.Value.HashMap
import Alcove.Value.Set

/-!
# The keys of set members

What a member of a set is, by its type and its value (`Scalar`): the shapes of nil are one value and so
are the two zeros, a rational and a decimal are the numbers they stand for, texts and blobs are their
bytes. The key of `set_key_for_value` says all of this and nothing else: it can be read back
(`keyScalar`).

**Main results.** `setKey_eq_iff`: two values have one key exactly where they are one scalar.
`setValueClone_key`: a copy has the key of the original.
-/

namespace Alcove

open Lib Json Numeric

/-! ## Scalars -/

/-- A value that a set can hold, by type and value. -/
inductive Scalar
  | nil
  | t
  | fix (n : ℤ)
  | char (c : UInt32)
  | float (bits : UInt64)
  | rational (q : ℚ)
  | decimal (q : ℚ)
  | string (bytes : List UInt8)
  | symbol (bytes : List UInt8)
  | blob (bytes : List UInt8)
  deriving DecidableEq

/-- The scalar of a value. -/
def scalarOf : Exp → Option Scalar
  | .null | .nil | .pair .null .null => some .nil
  | .t => some .t
  | .fix n => some (.fix n.1)
  | .char c => some (.char c)
  | .float bits => some (.float (if Hamt.isZero bits then 0 else bits))
  | .rational num den => some (.rational (num / den))
  | .decimal coef scale => some (.decimal (decValue coef scale))
  | .string text => some (.string text.bytes)
  | .symbol text => some (.symbol text.bytes)
  | .blob bytes => some (.blob bytes)
  | _ => none

/-- A rational is reduced and a decimal is trimmed, as every operation leaves them. -/
def Exp.Canonical : Exp → Prop
  | .rational num den => (Exact.rat num den).WellFormed
  | .decimal coef scale => DecimalNormal coef scale
  | _ => True

/-- The values that are a scalar. -/
inductive Denotes : Exp → Scalar → Prop
  | null : Denotes .null .nil
  | nil : Denotes .nil .nil
  | emptyPair : Denotes (.pair .null .null) .nil
  | t : Denotes .t .t
  | fix {n : Fixnum} {z : ℤ} (h : n.1 = z) : Denotes (.fix n) (.fix z)
  | char (c : UInt32) : Denotes (.char c) (.char c)
  | float {bits z : UInt64} (h : (if Hamt.isZero bits then 0 else bits) = z) :
      Denotes (.float bits) (.float z)
  | rational {num den : ℤ} {q : ℚ} (hw : (Exact.rat num den).WellFormed) (h : (num / den : ℚ) = q) :
      Denotes (.rational num den) (.rational q)
  | decimal {coef scale : ℤ} {q : ℚ} (hn : DecimalNormal coef scale) (h : decValue coef scale = q) :
      Denotes (.decimal coef scale) (.decimal q)
  | string {text : CStr} {bytes : List UInt8} (h : text.bytes = bytes) :
      Denotes (.string text) (.string bytes)
  | symbol {text : CStr} {bytes : List UInt8} (h : text.bytes = bytes) :
      Denotes (.symbol text) (.symbol bytes)
  | blob (bytes : List UInt8) : Denotes (.blob bytes) (.blob bytes)

variable {v w : Exp} {x y : Scalar}

theorem denotes_iff : Denotes v x ↔ v.Canonical ∧ scalarOf v = some x := by
  constructor
  · intro h
    cases h with
    | fix h => exact ⟨trivial, by rw [scalarOf, h]⟩
    | float h => exact ⟨trivial, by rw [scalarOf, h]⟩
    | rational hw h => exact ⟨hw, by rw [scalarOf, h]⟩
    | decimal hn h => exact ⟨hn, by rw [scalarOf, h]⟩
    | string h => exact ⟨trivial, by rw [scalarOf, h]⟩
    | symbol h => exact ⟨trivial, by rw [scalarOf, h]⟩
    | _ => exact ⟨trivial, rfl⟩
  · rintro ⟨hc, h⟩
    unfold scalarOf at h
    split at h
    case h_13 => cases h
    all_goals obtain rfl := Option.some.inj h
    · exact .null
    · exact .nil
    · exact .emptyPair
    · exact .t
    · exact .fix rfl
    · exact .char _
    · exact .float rfl
    · exact .rational hc rfl
    · exact .decimal hc rfl
    · exact .string rfl
    · exact .symbol rfl
    · exact .blob _

/-! ## Canonical values -/

/-- A rational is made reduced. -/
theorem expOfRational_canonical {num den : ℤ} (hn : Fits 64 num) (hd : Fits 64 den)
    (h : expOfRational num den = some v) : v.Canonical := by
  obtain ⟨e, he, rfl⟩ := Option.map_eq_some_iff.1 h
  have hwf := wellFormed_makeRational hn hd (Option.join_eq_some_iff.1 he)
  cases e with
  | fix n => trivial
  | rat n d => exact hwf

/-- A decimal is made with the zeros at its end trimmed. -/
theorem expOfDecimal_canonical {coef scale : ℤ} (hs : 0 ≤ scale)
    (h : expOfDecimal coef scale = some v) : v.Canonical := by
  obtain ⟨⟨c, s⟩, he, rfl⟩ := Option.map_eq_some_iff.1 h
  have hmade := Option.join_eq_some_iff.1 he
  have hnormal {q : ℤ × ℤ} (h0 : 0 ≤ q.2) (hle : q.2 ≤ decMaxScale) (ht : 0 < q.2 → q.1.tmod 10 ≠ 0)
      (hq : (if decMaxScale < (trimZeros coef scale).2 then
        roundScale (trimZeros coef scale).1 (trimZeros coef scale).2
        else some (trimZeros coef scale)) = some q) : DecimalNormal c s := by
    have hr := Option.some.inj ((makeDecimalRaw_of hq).symm.trans hmade)
    split at hr
    · cases hr
    split at hr
    · cases hr
    · next hdigits =>
      obtain rfl := Option.some.inj hr
      exact ⟨h0, hle, not_le.1 hdigits, ht⟩
  by_cases hgt : decMaxScale < (trimZeros coef scale).2
  · cases hround : roundScale (trimZeros coef scale).1 (trimZeros coef scale).2 with
    | none =>
      rw [makeDecimalRaw] at hmade
      dsimp only at hmade
      rw [if_pos hgt, hround] at hmade
      cases hmade
    | some q =>
      have hq := hround
      simp only [roundScale, Option.bind_eq_bind, Option.bind_eq_some_iff] at hq
      obtain ⟨_, -, _, -, _, -, _, -, hq⟩ := hq
      obtain ⟨h0, hle, ht, -⟩ := trimZeros_spec (s := decMaxScale) _ (by decide)
      rw [Option.some.inj hq] at h0 hle ht
      exact hnormal h0 hle ht ((if_pos hgt).trans hround)
  · obtain ⟨h0, -, ht, -⟩ := trimZeros_spec coef hs
    exact hnormal h0 (not_lt.1 hgt) ht (if_neg hgt)
/-! ## Reading a key back -/

/-- The number of some hexadecimal digits. -/
def hexNumber (digits : List UInt8) : ℕ := Nat.ofDigits 16 (digits.reverse.map hexDigitValue)

/-- The scalar that a key is of. -/
def keyScalar : List UInt8 → Option Scalar
  | 0x4e :: _ => some .nil
  | 0x54 :: _ => some .t
  | 0x49 :: _ :: body => (strtoll body).map .fix
  | 0x43 :: _ :: body => some (.char (UInt32.ofNat (Json.decValue body)))
  | 0x46 :: _ :: body => some (.float (UInt64.ofNat (hexNumber body)))
  | 0x52 :: _ :: body => do
    let num ← strtoll (body.takeWhile (· ≠ 0x2f))
    let den ← strtoll (body.dropWhile (· ≠ 0x2f)).tail
    return .rational (num / den)
  | 0x44 :: _ :: body =>
    match decParse body with
    | some (.ok (coef, scale)) => some (.decimal (Numeric.decValue coef scale))
    | _ => none
  | 0x53 :: _ :: body => (hexScan body false []).toOption.map .string
  | 0x59 :: _ :: body => (hexScan body false []).toOption.map .symbol
  | 0x42 :: _ :: body => (hexScan body false []).toOption.map .blob
  | _ => none

/-! ## What the keys are made of -/

/-- The bytes of a key with its tag. -/
theorem key_bytes {tag : UInt8} {body : List UInt8} (htag : tag ≠ 0) (h : 0 ∉ body) :
    (CStr.ofBytes (tag :: 0x3a :: body)).bytes = tag :: 0x3a :: body := by
  refine CStr.ofBytes_of_noNul fun h0 => ?_
  obtain h0 | h0 := List.mem_cons.1 h0
  · exact htag h0.symm
  obtain h0 | h0 := List.mem_cons.1 h0
  · cases h0
  · exact h h0

theorem slash_notMem_formatInt (n : ℤ) : 0x2f ∉ formatInt n := by
  have hdigits (h : 0x2f ∈ formatNat n.natAbs) : False := by
    cases (digits_formatNat n.natAbs).2 0x2f h
  unfold formatInt
  split
  · intro h
    obtain h | h := List.mem_cons.1 h
    · cases h
    · exact hdigits h
  · exact hdigits

/-- The two numbers of a rational. -/
theorem split_slash (n d : ℤ) :
    (formatInt n ++ 0x2f :: formatInt d).takeWhile (· ≠ 0x2f) = formatInt n ∧
      (formatInt n ++ 0x2f :: formatInt d).dropWhile (· ≠ 0x2f) = 0x2f :: formatInt d := by
  have hall : ∀ c ∈ formatInt n, decide (c ≠ 0x2f) = true := fun c hc => by
    refine decide_eq_true fun h => ?_
    rw [h] at hc
    exact slash_notMem_formatInt n hc
  constructor
  · rw [List.takeWhile_append_of_pos hall, List.takeWhile_cons_of_neg (by simp), List.append_nil]
  · rw [List.dropWhile_append_of_pos hall, List.dropWhile_cons_of_neg (by simp)]

/-- The hexadecimal digits of the codec. -/
theorem setKeyHex_eq (bytes : List UInt8) : setKeyHex bytes =
    bytes.flatMap fun b => [hexDigit (b.toNat >>> 4), hexDigit (b.toNat &&& 15)] := by
  unfold setKeyHex
  congr 1
  funext b
  rw [show b.toNat >>> 4 = b.toNat / 16 from Nat.shiftRight_eq_div_pow _ 4,
    show b.toNat &&& 15 = b.toNat % 16 from Nat.and_two_pow_sub_one_eq_mod _ 4]

theorem hexScan_setKeyHex (bytes : List UInt8) : hexScan (setKeyHex bytes) false [] = .ok bytes := by
  rw [setKeyHex_eq]
  exact hexScan_hexDigits bytes []

theorem setKeyHex_noNul (bytes : List UInt8) : 0 ∉ setKeyHex bytes := fun h =>
  absurd ((hexScan_ok_iff _ _ _).1 ⟨_, hexScan_setKeyHex bytes⟩ 0 h) (by decide)

/-- The lower digits of a number. -/
theorem ofDigits_range (b n k : ℕ) :
    Nat.ofDigits b ((List.range k).map fun i => n / b ^ i % b) = n % b ^ k := by
  induction k with
  | zero => simp [Nat.mod_one]
  | succ k ih =>
    rw [List.range_succ, List.map_append, Nat.ofDigits_append, ih, List.length_map, List.length_range,
      Nat.mod_pow_succ]
    simp

theorem hexNumber_formatHex64 (bits : UInt64) : hexNumber (formatHex64 bits) = bits.toNat := by
  have hval : ((formatHex64 bits).reverse.map hexDigitValue) =
      (List.range 16).map fun i => bits.toNat / 16 ^ i % 16 := by
    unfold formatHex64
    rw [← List.map_reverse, List.reverse_reverse, List.map_map]
    exact List.map_congr_left fun i _ => (hexDigit_valid _ (Nat.mod_lt _ (by decide))).2
  rw [hexNumber, hval, ofDigits_range]
  exact Nat.mod_eq_of_lt bits.toNat_lt

theorem formatHex64_noNul (bits : UInt64) : 0 ∉ formatHex64 bits := by
  intro h
  obtain ⟨i, -, hi⟩ := List.mem_map.1 h
  have hhex := (hexDigit_valid (bits.toNat / 16 ^ i % 16) (Nat.mod_lt _ (by decide))).1
  rw [hi] at hhex
  cases hhex

theorem decText_noNul {t : DecText} (h : t.Valid) : 0 ∉ t.text := by
  have hdigit (h0 : 0 ∈ t.digits) : False := by cases h.digit 0 h0
  intro h0
  obtain h0 | h0 := List.mem_append.1 h0
  · obtain h0 | h0 := List.mem_append.1 h0
    · split at h0 <;> simp at h0
    · exact hdigit (List.mem_append_left _ h0)
  · cases hfrac : t.frac with
    | none =>
      rw [hfrac] at h0
      cases h0
    | some f =>
      rw [hfrac] at h0
      obtain h0 | h0 := List.mem_cons.1 h0
      · cases h0
      · refine hdigit (List.mem_append_right _ ?_)
        rwa [hfrac]

/-- A number has one reduced form. -/
theorem reduced_unique {n d n' d' : ℤ} (h : (Exact.rat n d).WellFormed)
    (h' : (Exact.rat n' d').WellFormed) (hq : (n / d : ℚ) = n' / d') : n = n' ∧ d = d' := by
  obtain ⟨-, -, hpos, hgcd, -⟩ := h
  obtain ⟨-, -, hpos', hgcd', -⟩ := h'
  constructor
  · rw [← Rat.num_div_eq_of_coprime hpos hgcd, hq, Rat.num_div_eq_of_coprime hpos' hgcd']
  · rw [← Rat.den_div_eq_of_coprime hpos hgcd, hq, Rat.den_div_eq_of_coprime hpos' hgcd']

/-! ## Keys -/

/-- A key that was written is read back. -/
theorem keyScalar_setKey (h : Denotes v x) :
    ∃ key, setKeyForValue v = some key ∧ keyScalar key.bytes = some x := by
  cases h with
  | null => exact ⟨_, rfl, rfl⟩
  | nil => exact ⟨_, rfl, rfl⟩
  | emptyPair => exact ⟨_, rfl, rfl⟩
  | t => exact ⟨_, rfl, rfl⟩
  | @fix n z h =>
    obtain ⟨hlo, hhi⟩ := n.2
    refine ⟨_, rfl, ?_⟩
    rw [key_bytes (by decide) (formatInt_noNul n.1), keyScalar,
      strtoll_formatInt ⟨by omega, by omega⟩, h]
    rfl
  | char c =>
    refine ⟨_, rfl, ?_⟩
    rw [key_bytes (by decide) (zero_notMem_digits (digits_formatNat c.toNat)), keyScalar,
      Json.decValue_formatNat, UInt32.ofNat_toNat]
  | float h =>
    refine ⟨_, rfl, ?_⟩
    rw [h, key_bytes (by decide) (formatHex64_noNul _), keyScalar, hexNumber_formatHex64,
      UInt64.ofNat_toNat]
  | @rational num den q hw h =>
    obtain ⟨hnum, hden, -⟩ := hw
    have hnul : 0 ∉ formatInt num ++ 0x2f :: formatInt den := by
      simp [formatInt_noNul]
    obtain ⟨htake, hdrop⟩ := split_slash num den
    refine ⟨_, rfl, ?_⟩
    rw [key_bytes (by decide) hnul, keyScalar, htake, hdrop, List.tail_cons, strtoll_formatInt hnum,
      strtoll_formatInt hden, ← h]
    rfl
  | decimal hn h =>
    refine ⟨_, rfl, ?_⟩
    have hnul := decText_noNul (decText_spec hn).1
    rw [text_decText hn.nonneg] at hnul
    rw [key_bytes (by decide) hnul, keyScalar, decParse_decToStr hn]
    exact congrArg _ (congrArg _ h)
  | string h =>
    refine ⟨_, rfl, ?_⟩
    rw [h, key_bytes (by decide) (setKeyHex_noNul _), keyScalar, hexScan_setKeyHex]
    rfl
  | symbol h =>
    refine ⟨_, rfl, ?_⟩
    rw [h, key_bytes (by decide) (setKeyHex_noNul _), keyScalar, hexScan_setKeyHex]
    rfl
  | blob bytes =>
    refine ⟨_, rfl, ?_⟩
    rw [key_bytes (by decide) (setKeyHex_noNul _), keyScalar, hexScan_setKeyHex]
    rfl

/-- A scalar has one key. -/
theorem setKey_of_denotes (hv : Denotes v x) (hw : Denotes w x) :
    setKeyForValue v = setKeyForValue w := by
  cases hv with
  | rational hv h =>
    cases hw with
    | rational hw h' =>
      obtain ⟨rfl, rfl⟩ := reduced_unique hv hw (h.trans h'.symm)
      rfl
  | decimal hv h =>
    cases hw with
    | decimal hw h' =>
      obtain ⟨rfl, rfl⟩ := trimmed_unique hv.nonneg hw.nonneg hv.trimmed hw.trimmed (h.trans h'.symm)
      rfl
  | fix h => cases hw with | fix h' => rw [setKeyForValue, setKeyForValue, h, h']
  | float h => cases hw with | float h' => rw [setKeyForValue, setKeyForValue, h, h']
  | string h => cases hw with | string h' => rw [setKeyForValue, setKeyForValue, h, h']
  | symbol h => cases hw with | symbol h' => rw [setKeyForValue, setKeyForValue, h, h']
  | _ => cases hw <;> rfl

/-- **Two values have one key exactly where they are one scalar.** -/
theorem setKey_eq_iff (hv : Denotes v x) (hw : Denotes w y) :
    setKeyForValue v = setKeyForValue w ↔ x = y := by
  constructor
  · intro h
    obtain ⟨key, hkey, hx⟩ := keyScalar_setKey hv
    obtain ⟨key', hkey', hy⟩ := keyScalar_setKey hw
    obtain rfl := Option.some.inj (hkey.symm.trans (h.trans hkey'))
    exact Option.some.inj (hx.symm.trans hy)
  · rintro rfl
    exact setKey_of_denotes hv hw

/-- What has a key is a scalar. -/
theorem setKey_isSome (v : Exp) : (setKeyForValue v).isSome ↔ (scalarOf v).isSome := by
  unfold setKeyForValue scalarOf
  split <;> simp_all

/-- A copy is the same scalar. -/
theorem setValueClone_denotes (h : Denotes v x) : ∃ w, setValueClone v = some w ∧ Denotes w x := by
  cases h with
  | rational hw h => exact ⟨_, expOfRational_eq hw, .rational hw h⟩
  | decimal hn h => exact ⟨_, expOfDecimal_eq hn, .decimal hn h⟩
  | fix h => exact ⟨_, rfl, .fix h⟩
  | float h => exact ⟨_, rfl, .float h⟩
  | string h => exact ⟨_, rfl, .string h⟩
  | symbol h => exact ⟨_, rfl, .symbol h⟩
  | t => exact ⟨_, rfl, .t⟩
  | char c => exact ⟨_, rfl, .char c⟩
  | blob bytes => exact ⟨_, rfl, .blob bytes⟩
  | _ => exact ⟨_, rfl, .nil⟩

/-- **A copy has the key of the original.** -/
theorem setValueClone_key (h : Denotes v x) :
    ∃ w, setValueClone v = some w ∧ setKeyForValue w = setKeyForValue v := by
  obtain ⟨w, hw, hx⟩ := setValueClone_denotes h
  exact ⟨w, hw, setKey_of_denotes hx h⟩

end Alcove
