import Alcove.Json.RoundTrip
import Alcove.Classes.Registry
import Mathlib.Data.List.DropRight

/-!
# Byte codecs

`base64-encode`, `base64-decode`, `hex-encode` and `hex-decode` of `blob.h`. The encoders hand their text to
`make_string` with an `int` for its length, which ends the process where it is negative.

**Main result.** `codec_roundTrip`: what is encoded is decoded to the same bytes, as far as a string can
hold it, and the decoders accept the texts of their alphabets and no others.
-/

namespace Alcove

open Lib Json

/-! ## The commands -/

/-- How a command ends: with an error of type `ERROR_ILLEGAL_VALUE`, with the end of the process, or
with a value. -/
inductive Coded
  | error (text : List UInt8)
  | shutdown
  | value (v : Exp)

/-- The string that `make_string` builds from an encoding. -/
def Coded.ofEncoded : Encoded → Coded
  | .error => .error []
  | .shutdown => .shutdown
  | .string text => .value (.string text)

/-- `SIZE_MAX` -/
def sizeMax : ℕ := 2 ^ 64 - 1

/-- `blob_or_string_bytes` -/
def blobOrStringBytes : Exp → Option (List UInt8)
  | .blob bytes => some bytes
  | .string text => some text.bytes
  | _ => none

/-- `b64_tab` -/
def b64Tab : List UInt8 :=
  Classes.lit "ABCDEFGHIJKLMNOPQRSTUVWXYZabcdefghijklmnopqrstuvwxyz0123456789+/"

/-- `b64_tab[(w >> shift) & 63]` -/
def b64Char (w shift : ℕ) : UInt8 := b64Tab.getD (w >>> shift &&& 63) 0

/-- The text of up to three bytes. -/
def b64Group (a : UInt8) (b c : Option UInt8) : List UInt8 :=
  let w := a.toNat <<< 16 ||| (b.map UInt8.toNat).getD 0 <<< 8 ||| (c.map UInt8.toNat).getD 0
  [b64Char w 18, b64Char w 12, if b.isSome then b64Char w 6 else 0x3d,
    if c.isSome then b64Char w 0 else 0x3d]

/-- The loop of `base64encodecmd`. -/
def b64Text : List UInt8 → List UInt8
  | [] => []
  | [a] => b64Group a none none
  | [a, b] => b64Group a (some b) none
  | a :: b :: c :: src => b64Group a (some b) (some c) ++ b64Text src

/-- `base64encodecmd` -/
def base64encodecmd (v : Exp) : Coded :=
  match blobOrStringBytes v with
  | none => .error (Classes.lit "base64-encode: arg must be a blob or string")
  | some src =>
    if sizeMax / 2 < src.length then .error (Classes.lit "base64-encode: input too large")
    else .ofEncoded (makeStringInt (b64Text src))

/-- The loop of `base64decodecmd`, with the bits `w` of the last `nb` characters; the error is the first
bad one. -/
def b64Scan : List UInt8 → ℕ → ℕ → List UInt8 → Except UInt8 (ℕ × ℕ × List UInt8)
  | [], w, nb, out => .ok (w, nb, out)
  | c :: src, w, nb, out =>
    match b64Tab.idxOf? c with
    | none => .error c
    | some d =>
      let w := w <<< 6 ||| d
      if nb + 1 = 4 then
        b64Scan src 0 0 (out ++ [UInt8.ofNat (w >>> 16), UInt8.ofNat (w >>> 8), UInt8.ofNat w])
      else b64Scan src w (nb + 1) out

/-- The bytes of the characters that are left over. -/
def b64Rest (w nb : ℕ) : List UInt8 :=
  if nb = 3 then [UInt8.ofNat (w >>> 10), UInt8.ofNat (w >>> 2)]
  else if nb = 2 then [UInt8.ofNat (w >>> 4)]
  else []

/-- `base64decodecmd` -/
def base64decodecmd (v : Exp) : Coded :=
  match v with
  | .string text =>
    let src := text.bytes.rdropWhile (· == 0x3d)
    if text.bytes.length % 4 ≠ 0 ∧ text.bytes.length ≠ 0 ∨ 2 < text.bytes.length - src.length ∨
        src.length % 4 = 1 then
      .error (Classes.lit "base64-decode: bad input length")
    else
      match b64Scan src 0 0 [] with
      | .error c => .error (Classes.lit "base64-decode: bad character '" ++ [c, 0x27])
      | .ok (w, nb, out) => .value (.blob (out ++ b64Rest w nb))
  | _ => .error (Classes.lit "base64-decode: arg must be a string")

/-- `hexencodecmd` -/
def hexencodecmd (v : Exp) : Coded :=
  match blobOrStringBytes v with
  | none => .error (Classes.lit "hex-encode: arg must be a blob or string")
  | some src =>
    if (sizeMax - 1) / 2 < src.length then .error (Classes.lit "hex-encode: input too large")
    else .ofEncoded (makeStringInt
      (src.flatMap fun b => [hexDigit (b.toNat >>> 4), hexDigit (b.toNat &&& 15)]))

/-- The loop of `hexdecodecmd`: the bytes so far, the last one first and with its lower half missing
where `half`; the error is the first bad digit. -/
def hexScan : List UInt8 → Bool → List UInt8 → Except UInt8 (List UInt8)
  | [], _, out => .ok out.reverse
  | c :: src, half, out =>
    match chr2hex c with
    | none => .error c
    | some d =>
      match half, out with
      | true, b :: out => hexScan src false ((b ||| UInt8.ofNat d) :: out)
      | _, out => hexScan src true (UInt8.ofNat (d <<< 4) :: out)

/-- `hexdecodecmd` -/
def hexdecodecmd (v : Exp) : Coded :=
  match v with
  | .string text =>
    if text.bytes.length % 2 ≠ 0 then .error (Classes.lit "hex-decode: odd-length input")
    else
      match hexScan text.bytes false [] with
      | .error c => .error (Classes.lit "hex-decode: bad hex digit '" ++ [c, 0x27])
      | .ok out => .value (.blob out)
  | _ => .error (Classes.lit "hex-decode: arg must be a string")

/-! ## The alphabet -/

/-- **A character of the table is found where it stands.** -/
theorem idxOf_b64Tab : ∀ i < 64, b64Tab.idxOf? (b64Tab.getD i 0) = some i := by
  decide

theorem pad_notMem_b64Tab : (0x3d : UInt8) ∉ b64Tab := by
  decide

theorem idxOf_b64Char (w k : ℕ) : b64Tab.idxOf? (b64Char w k) = some (w / 2 ^ k % 64) := by
  have hdigit : w >>> k &&& 63 = w / 2 ^ k % 64 := by
    rw [Nat.shiftRight_eq_div_pow, show 63 = 2 ^ 6 - 1 from rfl, Nat.and_two_pow_sub_one_eq_mod]
  rw [b64Char, hdigit]
  exact idxOf_b64Tab _ (Nat.mod_lt _ (by decide))

theorem b64Char_mem (w k : ℕ) : b64Char w k ∈ b64Tab := by
  by_contra h
  have := idxOf_b64Char w k
  rw [List.idxOf?_eq_none_iff.2 h] at this
  cases this

/-! ## Scanning characters -/

variable {w k v nb : ℕ} {s out : List UInt8}

/-- The bits with those of one character more. -/
theorem b64_shift (w k v : ℕ) : v <<< 6 ||| w / 2 ^ k % 64 = v * 64 + w / 2 ^ k % 64 := by
  have hlt : w / 2 ^ k % 64 < 2 ^ 6 := Nat.mod_lt _ (by decide)
  rw [← Nat.shiftLeft_add_eq_or_of_lt hlt, Nat.shiftLeft_eq]

/-- One of the first three characters of a group. -/
theorem b64Scan_next (hnb : nb < 3) (w k v : ℕ) (s out : List UInt8) :
    b64Scan (b64Char w k :: s) v nb out = b64Scan s (v * 64 + w / 2 ^ k % 64) (nb + 1) out := by
  rw [b64Scan, idxOf_b64Char]
  dsimp only
  rw [if_neg (by omega), b64_shift]

/-- The fourth character of a group. -/
theorem b64Scan_fourth (w k v : ℕ) (s out : List UInt8) {u : ℕ} (hu : v * 64 + w / 2 ^ k % 64 = u) :
    b64Scan (b64Char w k :: s) v 3 out = b64Scan s 0 0
      (out ++ [UInt8.ofNat (u / 65536), UInt8.ofNat (u / 256), UInt8.ofNat u]) := by
  rw [b64Scan, idxOf_b64Char]
  dsimp only
  rw [if_pos rfl, b64_shift, hu, Nat.shiftRight_eq_div_pow, Nat.shiftRight_eq_div_pow]

/-- The scan ends where no character is bad. -/
theorem b64Scan_ok_iff (s : List UInt8) (w nb : ℕ) (out : List UInt8) :
    (∃ r, b64Scan s w nb out = .ok r) ↔ ∀ c ∈ s, c ∈ b64Tab := by
  induction s generalizing w nb out with
  | nil => exact iff_of_true ⟨_, rfl⟩ (by simp)
  | cons c s ih =>
    rw [b64Scan, List.forall_mem_cons]
    cases hc : b64Tab.idxOf? c with
    | none =>
      refine iff_of_false (fun ⟨_, hr⟩ => by cases hr) fun h => ?_
      exact List.idxOf?_eq_none_iff.1 hc h.1
    | some d =>
      have hmem : c ∈ b64Tab := by
        by_contra h
        rw [List.idxOf?_eq_none_iff.2 h] at hc
        cases hc
      dsimp only
      split <;> rw [ih] <;> exact (and_iff_right hmem).symm

/-! ## Groups -/

/-- The 24 bits of a group. -/
theorem group_word (a b c : UInt8) : a.toNat <<< 16 ||| b.toNat <<< 8 ||| c.toNat =
    a.toNat * 65536 + b.toNat * 256 + c.toNat := by
  have hc : c.toNat < 2 ^ 8 := c.toNat_lt
  have hb : b.toNat * 256 + c.toNat < 2 ^ 16 := by
    have := b.toNat_lt
    omega
  have hlow : b.toNat <<< 8 ||| c.toNat = b.toNat * 256 + c.toNat := by
    rw [← Nat.shiftLeft_add_eq_or_of_lt hc, Nat.shiftLeft_eq]
  rw [Nat.or_assoc, hlow, ← Nat.shiftLeft_add_eq_or_of_lt hb, Nat.shiftLeft_eq, ← Nat.add_assoc]

theorem ofNat_eq {n : ℕ} {a : UInt8} (h : n % 256 = a.toNat) : UInt8.ofNat n = a := by
  rw [← UInt8.toNat_inj, UInt8.toNat_ofNat']
  exact h

/-- A group of three bytes. -/
theorem b64Scan_group (a b c : UInt8) (s out : List UInt8) :
    b64Scan (b64Group a (some b) (some c) ++ s) 0 0 out = b64Scan s 0 0 (out ++ [a, b, c]) := by
  have ha := a.toNat_lt
  have hb := b.toNat_lt
  have hc := c.toNat_lt
  have hword := group_word a b c
  simp only [b64Group, Option.map_some, Option.getD_some, Option.isSome_some, if_true, hword,
    List.cons_append, List.nil_append]
  generalize hw : a.toNat * 65536 + b.toNat * 256 + c.toNat = w
  rw [b64Scan_next (by decide), b64Scan_next (by decide), b64Scan_next (by decide),
    b64Scan_fourth (u := w) w _ _ _ _ (by omega), ofNat_eq (a := a) (by omega),
    ofNat_eq (a := b) (by omega), ofNat_eq (a := c) (by omega)]

/-- What is left of a group of two bytes. -/
theorem b64Scan_two (a b : UInt8) (out : List UInt8) : ∃ c₁ c₂ c₃ w,
    b64Group a (some b) none = [c₁, c₂, c₃, 0x3d] ∧ (∀ c ∈ [c₁, c₂, c₃], c ∈ b64Tab) ∧
      b64Scan [c₁, c₂, c₃] 0 0 out = .ok (w, 3, out) ∧ b64Rest w 3 = [a, b] := by
  have ha := a.toNat_lt
  have hb := b.toNat_lt
  have hword : a.toNat <<< 16 ||| b.toNat <<< 8 ||| 0 = a.toNat * 65536 + b.toNat * 256 + 0 :=
    group_word a b 0
  have hgroup : b64Group a (some b) none = [b64Char (a.toNat * 65536 + b.toNat * 256) 18,
      b64Char (a.toNat * 65536 + b.toNat * 256) 12, b64Char (a.toNat * 65536 + b.toNat * 256) 6,
      0x3d] := by
    simp only [b64Group, Option.map_some, Option.getD_some, Option.map_none, Option.getD_none, hword,
      Option.isSome_some, Option.isSome_none, if_true, Bool.false_eq_true, if_false, Nat.add_zero]
  generalize hw : a.toNat * 65536 + b.toNat * 256 = w at hgroup
  refine ⟨_, _, _, ((0 * 64 + w / 2 ^ 18 % 64) * 64 + w / 2 ^ 12 % 64) * 64 + w / 2 ^ 6 % 64, hgroup,
    by simp [b64Char_mem], ?_, ?_⟩
  · rw [b64Scan_next (by decide), b64Scan_next (by decide), b64Scan_next (by decide)]
    rfl
  · rw [b64Rest, if_pos rfl, Nat.shiftRight_eq_div_pow, Nat.shiftRight_eq_div_pow,
      ofNat_eq (a := a) (by omega), ofNat_eq (a := b) (by omega)]

/-- What is left of a group of one byte. -/
theorem b64Scan_one (a : UInt8) (out : List UInt8) : ∃ c₁ c₂ w,
    b64Group a none none = [c₁, c₂, 0x3d, 0x3d] ∧ (∀ c ∈ [c₁, c₂], c ∈ b64Tab) ∧
      b64Scan [c₁, c₂] 0 0 out = .ok (w, 2, out) ∧ b64Rest w 2 = [a] := by
  have ha := a.toNat_lt
  have hword : a.toNat <<< 16 ||| 0 <<< 8 ||| 0 = a.toNat * 65536 + 0 * 256 + 0 := group_word a 0 0
  have hgroup : b64Group a none none =
      [b64Char (a.toNat * 65536) 18, b64Char (a.toNat * 65536) 12, 0x3d, 0x3d] := by
    simp only [b64Group, Option.map_none, Option.getD_none, hword, Option.isSome_none,
      Bool.false_eq_true, if_false, Nat.zero_mul, Nat.add_zero]
  generalize hw : a.toNat * 65536 = w at hgroup
  refine ⟨_, _, (0 * 64 + w / 2 ^ 18 % 64) * 64 + w / 2 ^ 12 % 64, hgroup, by simp [b64Char_mem],
    ?_, ?_⟩
  · rw [b64Scan_next (by decide), b64Scan_next (by decide)]
    rfl
  · rw [b64Rest, if_neg (by decide), if_pos rfl, Nat.shiftRight_eq_div_pow,
      ofNat_eq (a := a) (by omega)]

/-- **The text of some bytes**: characters of the table and at most two `=`, and a scan of the
characters gives the bytes. -/
theorem b64Text_spec (src out : List UInt8) : ∃ body k w nb out',
    b64Text src = body ++ List.replicate k 0x3d ∧ k ≤ 2 ∧ (∀ c ∈ body, c ∈ b64Tab) ∧
      b64Scan body 0 0 out = .ok (w, nb, out') ∧ out' ++ b64Rest w nb = out ++ src := by
  induction src using b64Text.induct generalizing out with
  | case1 => exact ⟨[], 0, 0, 0, out, rfl, by decide, by simp, rfl, rfl⟩
  | case2 a =>
    obtain ⟨c₁, c₂, w, hgroup, hmem, hscan, hrest⟩ := b64Scan_one a out
    exact ⟨[c₁, c₂], 2, w, 2, out, hgroup, by decide, hmem, hscan, by rw [hrest]⟩
  | case3 a b =>
    obtain ⟨c₁, c₂, c₃, w, hgroup, hmem, hscan, hrest⟩ := b64Scan_two a b out
    exact ⟨[c₁, c₂, c₃], 1, w, 3, out, hgroup, by decide, hmem, hscan, by rw [hrest]⟩
  | case4 a b c src ih =>
    obtain ⟨body, k, w, nb, out', htext, hk, hmem, hscan, hrest⟩ := ih (out ++ [a, b, c])
    refine ⟨b64Group a (some b) (some c) ++ body, k, w, nb, out', ?_, hk, ?_, ?_, ?_⟩
    · rw [b64Text, htext, List.append_assoc]
    · intro x hx
      obtain hx | hx := List.mem_append.1 hx
      · simp only [b64Group, Option.isSome_some, if_true, List.mem_cons, List.not_mem_nil,
          or_false] at hx
        obtain rfl | rfl | rfl | rfl := hx <;> exact b64Char_mem _ _
      · exact hmem x hx
    · rw [b64Scan_group, hscan]
    · rw [hrest, List.append_assoc]
      rfl

theorem length_b64Text (src : List UInt8) : (b64Text src).length = 4 * ((src.length + 2) / 3) := by
  induction src using b64Text.induct with
  | case1 => rfl
  | case2 a => simp [b64Text, b64Group]
  | case3 a b => simp [b64Text, b64Group]
  | case4 a b c src ih =>
    rw [b64Text, List.length_append, ih]
    simp only [b64Group, List.length_cons, List.length_nil]
    omega

/-! ## The padding -/

theorem rdropWhile_pad {body : List UInt8} (h : ∀ c ∈ body, c ∈ b64Tab) (k : ℕ) :
    (body ++ List.replicate k 0x3d).rdropWhile (· == 0x3d) = body := by
  induction k with
  | zero =>
    rw [List.replicate_zero, List.append_nil, List.rdropWhile_eq_self_iff]
    intro hne hlast
    have hmem := h _ (List.getLast_mem hne)
    rw [beq_iff_eq.1 hlast] at hmem
    exact pad_notMem_b64Tab hmem
  | succ k ih =>
    rw [List.replicate_succ', ← List.append_assoc, List.rdropWhile_concat_pos _ _ _ rfl, ih]

/-- A text without its padding. -/
theorem eq_rdropWhile_append (s : List UInt8) : ∃ k, s =
    s.rdropWhile (· == 0x3d) ++ List.replicate k 0x3d := by
  refine ⟨(s.rtakeWhile (· == 0x3d)).length, ?_⟩
  have hpad : s.rtakeWhile (· == 0x3d) =
      List.replicate (s.rtakeWhile (· == 0x3d)).length 0x3d :=
    List.eq_replicate_iff.2 ⟨rfl, fun c hc => by simpa using List.mem_rtakeWhile_imp hc⟩
  rw [← hpad, List.rdropWhile_append_rtakeWhile]

/-- The decoder on characters of the table and a padding that completes them. -/
theorem base64decodecmd_of {t : CStr} {body : List UInt8} {k : ℕ} (ht : t.bytes =
      body ++ List.replicate k 0x3d) (hk : k ≤ 2) (hmem : ∀ c ∈ body, c ∈ b64Tab)
    (hlen : t.bytes.length % 4 = 0) : ∃ w nb out, b64Scan body 0 0 [] = .ok (w, nb, out) ∧
      base64decodecmd (.string t) = .value (.blob (out ++ b64Rest w nb)) := by
  obtain ⟨⟨w, nb, out⟩, hscan⟩ := (b64Scan_ok_iff body 0 0 []).2 hmem
  have hsrc : t.bytes.rdropWhile (· == 0x3d) = body := by rw [ht, rdropWhile_pad hmem]
  have htotal : t.bytes.length = body.length + k := by
    rw [ht, List.length_append, List.length_replicate]
  refine ⟨w, nb, out, hscan, ?_⟩
  rw [base64decodecmd]
  simp only [hsrc]
  rw [if_neg (by omega), hscan]

/-- **The texts that `base64-decode` accepts.** -/
theorem base64decode_accepts (t : CStr) : (∃ v, base64decodecmd (.string t) = .value v) ↔
    t.bytes.length % 4 = 0 ∧ ∃ body k, k ≤ 2 ∧ t.bytes = body ++ List.replicate k 0x3d ∧
      ∀ c ∈ body, c ∈ b64Tab := by
  constructor
  · rintro ⟨v, hv⟩
    rw [base64decodecmd] at hv
    obtain ⟨k, hk⟩ := eq_rdropWhile_append t.bytes
    generalize t.bytes.rdropWhile (· == 0x3d) = src at hv hk
    have htotal : t.bytes.length = src.length + k := by
      rw [hk, List.length_append, List.length_replicate]
    split at hv
    · cases hv
    · next hgood =>
      split at hv
      · cases hv
      · next w nb out hscan =>
        exact ⟨by omega, src, k, by omega, hk, (b64Scan_ok_iff src 0 0 []).1 ⟨_, hscan⟩⟩
  · rintro ⟨hlen, body, k, hk, ht, hmem⟩
    obtain ⟨w, nb, out, -, hrun⟩ := base64decodecmd_of ht hk hmem hlen
    exact ⟨_, hrun⟩

/-- The text of a short enough blob, as a string. -/
theorem base64encodecmd_of {b : List UInt8} (h : (b64Text b).length ≤ intMax) :
    ∃ text : CStr, base64encodecmd (.blob b) = .value (.string text) ∧ text.bytes = b64Text b := by
  have hsize : ¬ sizeMax / 2 < b.length := by
    rw [length_b64Text] at h
    have hbound : intMax ≤ sizeMax / 2 := by decide
    omega
  have hnul : (0 : UInt8) ∉ b64Text b := by
    obtain ⟨body, k, w, nb, out, htext, -, hmem, -⟩ := b64Text_spec b []
    rw [htext]
    intro hmem₀
    obtain h₀ | h₀ := List.mem_append.1 hmem₀
    · exact absurd (hmem 0 h₀) (by decide)
    · cases List.eq_of_mem_replicate h₀
  refine ⟨CStr.ofBytes (b64Text b), ?_, CStr.ofBytes_of_noNul hnul⟩
  rw [base64encodecmd, blobOrStringBytes]
  dsimp only
  rw [if_neg hsize, makeStringInt_of_le h]
  rfl

/-- **What is encoded in base64 is decoded.** -/
theorem base64_roundTrip {b : List UInt8} (h : (b64Text b).length ≤ intMax) :
    ∃ text : CStr, base64encodecmd (.blob b) = .value (.string text) ∧
      base64decodecmd (.string text) = .value (.blob b) := by
  obtain ⟨text, hencode, hbytes⟩ := base64encodecmd_of h
  obtain ⟨body, k, w, nb, out, htext, hk, hmem, hscan, hrest⟩ := b64Text_spec b []
  have hlen : text.bytes.length % 4 = 0 := by
    rw [hbytes, length_b64Text]
    omega
  obtain ⟨w', nb', out', hscan', hdecode⟩ := base64decodecmd_of (hbytes.trans htext) hk hmem hlen
  rw [hscan] at hscan'
  cases hscan'
  exact ⟨text, hencode, by rw [hdecode, hrest, List.nil_append]⟩

/-! ## Hexadecimal digits -/

/-- A digit that was written has its value. -/
theorem chr2hex_hexDigit {n : ℕ} (h : n < 16) : chr2hex (hexDigit n) = some n := by
  obtain ⟨hhex, hval⟩ := hexDigit_valid n h
  rw [chr2hex_eq, if_pos hhex, hval]

/-- The digits of a byte. -/
theorem hexScan_pair (b : UInt8) (s out : List UInt8) :
    hexScan (hexDigit (b.toNat >>> 4) :: hexDigit (b.toNat &&& 15) :: s) false out =
      hexScan s false (b :: out) := by
  have hb := b.toNat_lt
  have hhigh : b.toNat >>> 4 = b.toNat / 16 := Nat.shiftRight_eq_div_pow _ 4
  have hlow : b.toNat &&& 15 = b.toNat % 16 := Nat.and_two_pow_sub_one_eq_mod _ 4
  have hlt : b.toNat % 16 < 2 ^ 4 := Nat.mod_lt _ (by decide)
  have hbyte : UInt8.ofNat ((b.toNat / 16) <<< 4) ||| UInt8.ofNat (b.toNat % 16) = b := by
    rw [← UInt8.ofNat_or, ← Nat.shiftLeft_add_eq_or_of_lt hlt, Nat.shiftLeft_eq]
    exact ofNat_eq (by omega)
  rw [hhigh, hlow, hexScan, chr2hex_hexDigit (by omega)]
  dsimp only
  rw [hexScan, chr2hex_hexDigit (by omega)]
  dsimp only
  rw [hbyte]

theorem hexScan_hexDigits (b out : List UInt8) :
    hexScan (b.flatMap fun b => [hexDigit (b.toNat >>> 4), hexDigit (b.toNat &&& 15)]) false out =
      .ok (out.reverse ++ b) := by
  induction b generalizing out with
  | nil => rw [List.flatMap_nil, hexScan, List.append_nil]
  | cons x b ih =>
    rw [List.flatMap_cons, List.cons_append, List.cons_append, List.nil_append, hexScan_pair, ih,
      List.reverse_cons, List.append_assoc]
    rfl

/-- The scan ends where every character is a digit. -/
theorem hexScan_ok_iff (s : List UInt8) (half : Bool) (out : List UInt8) :
    (∃ r, hexScan s half out = .ok r) ↔ ∀ c ∈ s, isHexDigit c := by
  induction s generalizing half out with
  | nil => exact iff_of_true ⟨_, rfl⟩ (by simp)
  | cons c s ih =>
    rw [hexScan, List.forall_mem_cons, chr2hex_eq]
    by_cases hc : isHexDigit c
    · rw [if_pos hc]
      dsimp only
      split <;> rw [ih] <;> exact (and_iff_right hc).symm
    · rw [if_neg hc]
      exact iff_of_false (fun ⟨_, hr⟩ => by cases hr) fun h => hc h.1

theorem length_hexDigits (b : List UInt8) :
    (b.flatMap fun b => [hexDigit (b.toNat >>> 4), hexDigit (b.toNat &&& 15)]).length =
      2 * b.length := by
  simp [List.length_flatMap, Nat.mul_comm]

/-- **What is encoded in hexadecimal is decoded.** -/
theorem hex_roundTrip {b : List UInt8} (h : 2 * b.length ≤ intMax) :
    ∃ text : CStr, hexencodecmd (.blob b) = .value (.string text) ∧
      hexdecodecmd (.string text) = .value (.blob b) := by
  have hsize : ¬ (sizeMax - 1) / 2 < b.length := by
    have hbound : intMax ≤ (sizeMax - 1) / 2 := by decide
    omega
  have hlength := length_hexDigits b
  have hscan := hexScan_hexDigits b []
  have hdigits := (hexScan_ok_iff _ _ _).1 ⟨_, hscan⟩
  generalize htext : (b.flatMap fun b => [hexDigit (b.toNat >>> 4), hexDigit (b.toNat &&& 15)]) =
    text at hlength hscan hdigits
  have hnul : (0 : UInt8) ∉ text := fun h₀ => absurd (hdigits 0 h₀) (by decide)
  refine ⟨CStr.ofBytes text, ?_, ?_⟩
  · rw [hexencodecmd, blobOrStringBytes]
    dsimp only
    rw [if_neg hsize, htext, makeStringInt_of_le (by omega)]
    rfl
  · rw [hexdecodecmd, CStr.ofBytes_of_noNul hnul, if_neg (by omega), hscan]
    rfl

/-- **The texts that `hex-decode` accepts.** -/
theorem hexdecode_accepts (t : CStr) : (∃ v, hexdecodecmd (.string t) = .value v) ↔
    t.bytes.length % 2 = 0 ∧ ∀ c ∈ t.bytes, isHexDigit c := by
  rw [hexdecodecmd]
  by_cases hlen : t.bytes.length % 2 = 0
  · rw [if_neg (not_not.2 hlen), ← hexScan_ok_iff t.bytes false []]
    cases hexScan t.bytes false [] with
    | error c => exact iff_of_false (fun ⟨_, hr⟩ => by cases hr) fun ⟨_, _, hr⟩ => by cases hr
    | ok out => exact iff_of_true ⟨_, rfl⟩ ⟨hlen, _, rfl⟩
  · rw [if_pos hlen]
    exact iff_of_false (fun ⟨_, hr⟩ => by cases hr) fun h => hlen h.1

/-! ## Both codecs -/

/-- **What is encoded is decoded to the same bytes**, as far as a string can hold the text, and the
decoders accept the texts of their alphabets and no others. -/
theorem codec_roundTrip :
    (∀ b : List UInt8, (b64Text b).length ≤ intMax → ∃ text : CStr,
      base64encodecmd (.blob b) = .value (.string text) ∧
        base64decodecmd (.string text) = .value (.blob b)) ∧
    (∀ b : List UInt8, 2 * b.length ≤ intMax → ∃ text : CStr,
      hexencodecmd (.blob b) = .value (.string text) ∧
        hexdecodecmd (.string text) = .value (.blob b)) ∧
    (∀ t : CStr, (∃ v, base64decodecmd (.string t) = .value v) ↔
      t.bytes.length % 4 = 0 ∧ ∃ body k, k ≤ 2 ∧ t.bytes = body ++ List.replicate k 0x3d ∧
        ∀ c ∈ body, c ∈ b64Tab) ∧
    ∀ t : CStr, (∃ v, hexdecodecmd (.string t) = .value v) ↔
      t.bytes.length % 2 = 0 ∧ ∀ c ∈ t.bytes, isHexDigit c :=
  ⟨fun _ h => base64_roundTrip h, fun _ h => hex_roundTrip h, base64decode_accepts, hexdecode_accepts⟩

theorem codec_roundTrip_two : (∃ text : CStr,
      base64encodecmd (.blob [0x4f, 0x4b]) = .value (.string text) ∧
        base64decodecmd (.string text) = .value (.blob [0x4f, 0x4b])) ∧
    ∃ text : CStr, hexencodecmd (.blob [0x4f, 0x4b]) = .value (.string text) ∧
      hexdecodecmd (.string text) = .value (.blob [0x4f, 0x4b]) :=
  ⟨codec_roundTrip.1 _ (by decide), codec_roundTrip.2.1 _ (by decide)⟩

/-- A text of more than `INT_MAX` bytes ends the process. -/
theorem makeStringInt_shutdown {m : List UInt8} (h : intMax < m.length) (h' : m.length < 2 ^ 32) :
    makeStringInt m = .shutdown := by
  have hlow : 2 ^ 31 ≤ m.length := h
  have hneg : (m.length : ℤ).bmod (2 ^ 32) < 0 := by
    rw [Int.bmod_neg _ _ (by omega)]
    omega
  unfold makeStringInt
  exact if_pos hneg

/-- **No string holds a text of more than `INT_MAX` bytes**: the texts of `3 * 2 ^ 29` bytes end the
process. -/
theorem exists_codec_shutdown : ∃ n, n = 3 * 2 ^ 29 ∧
    base64encodecmd (.blob (List.replicate n 0)) = .shutdown ∧
      hexencodecmd (.blob (List.replicate n 0)) = .shutdown := by
  obtain ⟨n, hn⟩ : ∃ n, n = 3 * 2 ^ 29 := ⟨_, rfl⟩
  have hb : (List.replicate n (0 : UInt8)).length = n := List.length_replicate
  generalize hb' : List.replicate n (0 : UInt8) = b at hb
  have hmax : intMax = 2 ^ 31 - 1 := rfl
  have hsize : sizeMax = 2 ^ 64 - 1 := rfl
  have htext := length_b64Text b
  have hdigits := length_hexDigits b
  refine ⟨n, hn, ?_, ?_⟩ <;> rw [hb']
  · rw [base64encodecmd, blobOrStringBytes]
    dsimp only
    rw [if_neg (by omega), makeStringInt_shutdown (by omega) (by omega)]
    rfl
  · rw [hexencodecmd, blobOrStringBytes]
    dsimp only
    rw [if_neg (by omega), makeStringInt_shutdown (by omega) (by omega)]
    rfl

end Alcove
