import Alcove.Persist.Reload

/-!
# Strict UTF-8

`utf8_valid` of `utf8.h`, which refuses overlong forms, surrogates and codepoints past `U+10FFFF`. Its
position stays at the first byte of a sequence until the sequence is accepted, so that the place
where it fails is `*bad`.

**Main result.** `utf8Valid_spec`: a text is accepted exactly when it is the encoding of a list of
characters, and otherwise `*bad` is the length of its longest prefix that is one.
-/

namespace Alcove

open Lib Cursor Persist

/-! ## The scan -/

/-- The length, the own bits and the least codepoint of a sequence, by its lead byte. -/
def utf8ValidLead (c : UInt8) : Option (ℕ × ℕ × ℕ) :=
  if c &&& 0xE0 = 0xC0 then some (2, (c &&& 0x1F).toNat, 0x80)
  else if c &&& 0xF0 = 0xE0 then some (3, (c &&& 0x0F).toNat, 0x800)
  else if c &&& 0xF8 = 0xF0 then some (4, (c &&& 0x07).toNat, 0x10000)
  else none

/-- The bytes `k`, `k + 1`, … of a sequence, `n` of them. -/
def utf8ValidCont : ℕ → ℕ → ℕ → Cursor UInt8 ℕ
  | 0, _, cp => return cp
  | n + 1, k, cp => do
    let cc ← peek k
    if cc &&& 0xC0 ≠ 0x80 then fail
    else utf8ValidCont n (k + 1) (cp <<< 6 ||| (cc &&& 0x3F).toNat)

/-- One sequence. -/
def utf8ValidSeq : Cursor UInt8 Unit := do
  let c ← peek 0
  if c < 0x80 then skip 1
  else match utf8ValidLead c with
    | none => fail
    | some (len, bits, min) => do
      need len
      let cp ← utf8ValidCont (len - 1) 1 bits
      if cp < min ∨ 0x10FFFF < cp ∨ 0xD800 ≤ cp ∧ cp ≤ 0xDFFF then fail
      else skip len

/-- A round of the loop of `utf8_valid`. -/
def utf8ValidRound (_ : Unit) : Cursor UInt8 (Unit ⊕ Unit) := do
  let inside ← avail 1
  if inside then do
    utf8ValidSeq
    return .inl ()
  else return .inr ()

/-- `utf8_valid`: it ends at the end of the text, or fails at `*bad`. -/
def utf8Valid : Cursor UInt8 Unit := loop utf8ValidRound ()

/-- The encoding of a list of Unicode scalar values. -/
def utf8Text (cs : List Char) : List UInt8 := cs.flatMap fun c => Json.utf8Encode c.toNat

/-! ## One sequence -/

/-- The bytes after a lead byte, from the bits that they carry. -/
def utf8Conts (ms : List ℕ) : List UInt8 := ms.map fun m => UInt8.ofNat (0x80 ||| m)

theorem utf8Conts_cons (m : ℕ) (ms : List ℕ) :
    utf8Conts (m :: ms) = UInt8.ofNat (0x80 ||| m) :: utf8Conts ms := rfl

theorem stays_utf8ValidCont (n k cp : ℕ) : (utf8ValidCont n k cp).Stays := by
  induction n generalizing k cp with
  | zero => exact .pure cp
  | succ n ih =>
    refine .bind (.peek k) fun cc => ?_
    split
    · exact .fail
    · exact ih _ _

theorem failsHere_utf8ValidSeq : utf8ValidSeq.FailsHere := by
  refine .bind (.peek 0) fun c => ?_
  split
  · exact .skip 1
  · split
    · exact Stays.fail.1
    · refine .bind (.need _) fun _ => .bind (stays_utf8ValidCont _ _ _) fun cp => ?_
      split
      · exact Stays.fail.1
      · exact .skip _

/-- Continuation bytes are read from a sequence where they stand. -/
theorem yields_utf8ValidCont {ms : List ℕ} (hms : ∀ m ∈ ms, m < 64) {k cp : ℕ} {s r : List UInt8}
    (hs : s.drop k = utf8Conts ms ++ r) :
    (utf8ValidCont ms.length k cp).Yields s (ms.foldl (fun a m => a * 64 + m) cp) s := by
  induction ms generalizing k cp with
  | nil => exact .pure
  | cons m ms ih =>
    have hm : m < 64 := hms m List.mem_cons_self
    obtain ⟨hlead, hlow⟩ := continuation hm
    have hget : s[k]? = some (UInt8.ofNat (0x80 ||| m)) := by
      rw [← Nat.add_zero k, ← List.getElem?_drop, hs]
      rfl
    refine .bind (.peek hget) ?_
    rw [if_neg (not_not.2 hlead), hlow, ← Nat.shiftLeft_add_eq_or_of_lt hm, Nat.shiftLeft_eq]
    refine ih (fun x hx => hms x (List.mem_cons_of_mem _ hx)) ?_
    rw [← List.drop_drop, hs]
    rfl

/-- A byte from its tag and the bits below it. -/
theorem eq_tagged {c high tag : UInt8} (low : UInt8) (h : c &&& high = tag) (hall : high ||| low = 0xFF) :
    c = UInt8.ofNat (tag.toNat ||| (c &&& low).toNat) := by
  have hbits : c &&& (high ||| low) = (c &&& high) ||| (c &&& low) := by
    rw [← UInt8.toNat_inj]
    simp only [UInt8.toNat_and, UInt8.toNat_or]
    exact Nat.and_or_distrib_left ..
  rw [hall, h] at hbits
  rw [← UInt8.toNat_or, UInt8.ofNat_toNat, ← hbits]
  exact UInt8.and_neg_one.symm

theorem toNat_and_le (c m : UInt8) : (c &&& m).toNat ≤ m.toNat := by
  rw [UInt8.toNat_and]
  exact Nat.and_le_right

/-- The continuation bytes that were read. -/
theorem reads_utf8ValidCont (n k cp : ℕ) {s : List UInt8} (hs : k + n ≤ s.length) :
    (utf8ValidCont n k cp).Reads s fun v r => r = s ∧ ∃ ms : List ℕ, ms.length = n ∧
      (∀ m ∈ ms, m < 64) ∧ v = ms.foldl (fun a m => a * 64 + m) cp ∧
      s.drop k = utf8Conts ms ++ s.drop (k + n) := by
  induction n generalizing k cp with
  | zero => exact .pure ⟨rfl, [], rfl, by simp, rfl, rfl⟩
  | succ n ih =>
    have hk : k < s.length := by omega
    refine .bind (.peek (List.getElem?_eq_getElem hk) ?_)
    split
    · exact .fail
    · next hc =>
      have heq : s[k] = UInt8.ofNat (0x80 ||| (s[k] &&& 0x3F).toNat) := eq_tagged 0x3F (not_not.1 hc) rfl
      have hlow : (s[k] &&& 0x3F).toNat < 64 := Nat.lt_succ_of_le (toNat_and_le s[k] 0x3F)
      refine (ih (k + 1) _ (by omega)).mono ?_
      rintro v r ⟨hr, ms, hlen, hms, hv, hdrop⟩
      refine ⟨hr, _ :: ms, congrArg (· + 1) hlen, List.forall_mem_cons.2 ⟨hlow, hms⟩, ?_, ?_⟩
      · rw [hv, ← Nat.shiftLeft_add_eq_or_of_lt hlow, Nat.shiftLeft_eq]
        rfl
      · rw [List.drop_eq_getElem_cons hk, hdrop, utf8Conts_cons, ← heq, List.cons_append,
          show k + 1 + n = k + (n + 1) by omega]

/-! ## Sequences and codepoints -/

/-- The codepoint `v` is written as the lead byte `c` and continuation bytes that carry `ms`. -/
structure Utf8Seq (c : UInt8) (ms : List ℕ) (v : ℕ) : Prop where
  lead : ¬ c < 0x80
  digits : ∀ m ∈ ms, m < 64
  shape : ∃ bits min, utf8ValidLead c = some (ms.length + 1, bits, min) ∧ min ≤ v ∧
    v = ms.foldl (fun a m => a * 64 + m) bits

theorem utf8Encode_two {x m : ℕ} (hm : m < 64) (hlow : 0x80 ≤ x * 64 + m)
    (hhigh : x < 32) : Json.utf8Encode (x * 64 + m) =
      [UInt8.ofNat (0xC0 ||| x), UInt8.ofNat (0x80 ||| m)] := by
  have h6 : (x * 64 + m) >>> 6 = x := by
    rw [Nat.shiftRight_eq_div_pow]
    omega
  have hand : (x * 64 + m) &&& 0x3F = m := by
    rw [show 0x3F = 2 ^ 6 - 1 from rfl, Nat.and_two_pow_sub_one_eq_mod]
    omega
  rw [Json.utf8Encode, if_neg (by omega), if_pos (by omega), h6, hand]

theorem utf8Encode_three {x m₁ m₂ : ℕ} (h₁ : m₁ < 64) (h₂ : m₂ < 64)
    (hlow : 0x800 ≤ (x * 64 + m₁) * 64 + m₂) (hhigh : x < 16) :
    Json.utf8Encode ((x * 64 + m₁) * 64 + m₂) =
      [UInt8.ofNat (0xE0 ||| x), UInt8.ofNat (0x80 ||| m₁), UInt8.ofNat (0x80 ||| m₂)] := by
  generalize hv : (x * 64 + m₁) * 64 + m₂ = v at hlow ⊢
  have hand (y : ℕ) : y &&& 0x3F = y % 64 := Nat.and_two_pow_sub_one_eq_mod y 6
  have h12 : v >>> 12 = x := by
    rw [Nat.shiftRight_eq_div_pow]
    omega
  have h6 : v >>> 6 &&& 0x3F = m₁ := by
    rw [hand, Nat.shiftRight_eq_div_pow]
    omega
  have h0 : v &&& 0x3F = m₂ := by
    rw [hand]
    omega
  rw [Json.utf8Encode, if_neg (by omega), if_neg (by omega), if_pos (by omega), h12, h6, h0]

theorem utf8Encode_four {x m₁ m₂ m₃ : ℕ} (h₁ : m₁ < 64) (h₂ : m₂ < 64) (h₃ : m₃ < 64)
    (hlow : 0x10000 ≤ ((x * 64 + m₁) * 64 + m₂) * 64 + m₃) :
    Json.utf8Encode (((x * 64 + m₁) * 64 + m₂) * 64 + m₃) =
      [UInt8.ofNat (0xF0 ||| x), UInt8.ofNat (0x80 ||| m₁), UInt8.ofNat (0x80 ||| m₂),
        UInt8.ofNat (0x80 ||| m₃)] := by
  generalize hv : ((x * 64 + m₁) * 64 + m₂) * 64 + m₃ = v at hlow ⊢
  have hand (y : ℕ) : y &&& 0x3F = y % 64 := Nat.and_two_pow_sub_one_eq_mod y 6
  have h18 : v >>> 18 = x := by
    rw [Nat.shiftRight_eq_div_pow]
    omega
  have h12 : v >>> 12 &&& 0x3F = m₁ := by
    rw [hand, Nat.shiftRight_eq_div_pow]
    omega
  have h6 : v >>> 6 &&& 0x3F = m₂ := by
    rw [hand, Nat.shiftRight_eq_div_pow]
    omega
  have h0 : v &&& 0x3F = m₃ := by
    rw [hand]
    omega
  rw [Json.utf8Encode, if_neg (by omega), if_neg (by omega), if_neg (by omega), h18, h12, h6, h0]

/-- A sequence of the right shape is the encoding of its codepoint. -/
theorem Utf8Seq.encode {c : UInt8} {ms : List ℕ} {v : ℕ} (h : Utf8Seq c ms v) :
    Json.utf8Encode v = c :: utf8Conts ms := by
  obtain ⟨-, hdigits, bits, min, hlead, hmin, rfl⟩ := h
  unfold utf8ValidLead at hlead
  split_ifs at hlead with e2 e3 e4
  · simp only [Option.some.injEq, Prod.mk.injEq] at hlead
    obtain ⟨hlen, rfl, rfl⟩ := hlead
    obtain ⟨m, rfl⟩ := List.length_eq_one_iff.1 (Nat.succ.inj hlen).symm
    have hc := eq_tagged 0x1F e2 rfl
    have hx : (c &&& 0x1F).toNat ≤ 31 := toNat_and_le c 0x1F
    generalize (c &&& 0x1F).toNat = x at *
    rw [hc]
    exact utf8Encode_two (hdigits m (by simp)) hmin (by omega)
  · simp only [Option.some.injEq, Prod.mk.injEq] at hlead
    obtain ⟨hlen, rfl, rfl⟩ := hlead
    obtain ⟨m₁, m₂, rfl⟩ := List.length_eq_two.1 (Nat.succ.inj hlen).symm
    have hc := eq_tagged 0x0F e3 rfl
    have hx : (c &&& 0x0F).toNat ≤ 15 := toNat_and_le c 0x0F
    generalize (c &&& 0x0F).toNat = x at *
    rw [hc]
    exact utf8Encode_three (hdigits m₁ (by simp)) (hdigits m₂ (by simp)) hmin (by omega)
  · simp only [Option.some.injEq, Prod.mk.injEq] at hlead
    obtain ⟨hlen, rfl, rfl⟩ := hlead
    obtain ⟨m₁, m₂, m₃, rfl⟩ := List.length_eq_three.1 (Nat.succ.inj hlen).symm
    have hc := eq_tagged 0x07 e4 rfl
    generalize (c &&& 0x07).toNat = x at *
    rw [hc]
    exact utf8Encode_four (hdigits m₁ (by simp)) (hdigits m₂ (by simp)) (hdigits m₃ (by simp)) hmin

/-- A codepoint past ASCII is written as a sequence of the right shape. -/
theorem exists_utf8Seq {v : ℕ} (hlow : 0x80 ≤ v) (hhigh : v < 2 ^ 21) :
    ∃ c ms, Utf8Seq c ms v := by
  have hmod (x : ℕ) : x % 64 < 64 := Nat.mod_lt _ (by decide)
  by_cases h2 : v < 0x800
  · obtain ⟨hl, hm, hv⟩ := lead_two (show v / 64 < 32 by omega)
    refine ⟨UInt8.ofNat (0xC0 ||| v / 64), [v % 64], hl, by simpa using hmod v, v / 64, 0x80, ?_,
      hlow, ?_⟩
    · rw [utf8ValidLead, if_pos hm, hv]
      rfl
    · simp only [List.foldl_cons, List.foldl_nil]
      omega
  by_cases h3 : v < 0x10000
  · obtain ⟨hl, hm, hm', hv⟩ := lead_three (show v / 4096 < 16 by omega)
    refine ⟨UInt8.ofNat (0xE0 ||| v / 4096), [v / 64 % 64, v % 64], hl, by simpa using ⟨hmod _, hmod _⟩,
      v / 4096, 0x800, ?_, not_lt.1 h2, ?_⟩
    · rw [utf8ValidLead, if_neg hm, if_pos hm', hv]
      rfl
    · simp only [List.foldl_cons, List.foldl_nil]
      omega
  · obtain ⟨hl, hm, hm', hm'', hv⟩ := lead_four (show v / 262144 < 8 by omega)
    refine ⟨UInt8.ofNat (0xF0 ||| v / 262144), [v / 4096 % 64, v / 64 % 64, v % 64], hl,
      by simpa using ⟨hmod _, hmod _, hmod _⟩, v / 262144, 0x10000, ?_, not_lt.1 h3, ?_⟩
    · rw [utf8ValidLead, if_neg hm, if_neg hm', if_pos hm'', hv]
      rfl
    · simp only [List.foldl_cons, List.foldl_nil]
      omega

/-! ## What one step accepts -/

/-- The final test of `utf8_valid` is the one for a Unicode scalar value. -/
theorem isValidChar_iff (v : ℕ) :
    v.isValidChar ↔ ¬ (0x10FFFF < v ∨ 0xD800 ≤ v ∧ v ≤ 0xDFFF) := by
  unfold Nat.isValidChar
  omega

/-- A scalar value is accepted, whatever follows it. -/
theorem yields_utf8ValidSeq {v : ℕ} (hv : v.isValidChar) (r : List UInt8) :
    utf8ValidSeq.Yields (Json.utf8Encode v ++ r) () r := by
  have hscalar := (isValidChar_iff v).1 hv
  by_cases h1 : v < 0x80
  · have hlt : UInt8.ofNat v < 0x80 := by
      rw [UInt8.lt_iff_toNat_lt, UInt8.toNat_ofNat']
      exact (Nat.mod_le _ _).trans_lt h1
    rw [Json.utf8Encode, if_pos h1]
    refine .bind (.peek rfl) ?_
    rw [if_pos hlt]
    exact .skip (Nat.le_add_left ..)
  · obtain ⟨c, ms, hseq⟩ := exists_utf8Seq (not_lt.1 h1) (by omega)
    rw [hseq.encode]
    obtain ⟨hlead, hdigits, bits, min, hshape, hmin, hsum⟩ := hseq
    have hlen : ms.length + 1 ≤ (c :: utf8Conts ms ++ r).length := by
      simp [utf8Conts]
    refine .bind (.peek rfl) ?_
    rw [if_neg hlead, hshape]
    refine .bind (.need hlen) (.bind (yields_utf8ValidCont hdigits rfl) ?_)
    rw [← hsum, if_neg (by omega)]
    have hskip := Yields.skip hlen
    rwa [List.cons_append, List.drop_succ_cons, List.drop_left' (by simp [utf8Conts])] at hskip

/-- Whatever is accepted is a scalar value. -/
theorem reads_utf8ValidSeq (c : UInt8) (s : List UInt8) : utf8ValidSeq.Reads (c :: s)
    fun _ r => ∃ v : ℕ, v.isValidChar ∧ c :: s = Json.utf8Encode v ++ r := by
  refine .bind (.peek rfl ?_)
  split
  · next hc =>
    have hlt : c.toNat < 0x80 := UInt8.lt_iff_toNat_lt.1 hc
    refine .skip (Nat.le_add_left ..) ⟨c.toNat, .inl (hlt.trans (by decide)), ?_⟩
    rw [Json.utf8Encode, if_pos hlt, UInt8.ofNat_toNat]
    rfl
  · next hc =>
    split
    · exact .fail
    · next len bits min hshape =>
      refine .bind (.need fun hlen => .bind ?_)
      have hpos : 1 + (len - 1) = len := by
        unfold utf8ValidLead at hshape
        split_ifs at hshape <;> cases hshape <;> rfl
      refine (reads_utf8ValidCont _ _ _ (by rwa [hpos])).mono ?_
      rintro v r ⟨rfl, ms, hms, hdigits, hsum, hdrop⟩
      split
      · exact .fail
      · next hscalar =>
        have hseq : Utf8Seq c ms v :=
          ⟨hc, hdigits, bits, min, by rw [hms, Nat.add_comm, hpos, hshape], by omega, hsum⟩
        refine .skip hlen ⟨v, (isValidChar_iff v).2 fun h => hscalar (.inr h), ?_⟩
        rw [hpos] at hdrop
        rw [hseq.encode, List.cons_append, ← hdrop]
        rfl

/-- One step: it accepts the scalar value that the input begins with, or fails in place when there
is none. -/
theorem utf8ValidSeq_run {b : List UInt8} {pos : ℕ} {c : UInt8} {s : List UInt8}
    (hs : At b pos (c :: s)) :
    (∃ (x : Char) (r : List UInt8) (pos' : ℕ), c :: s = Json.utf8Encode x.toNat ++ r ∧
      utf8ValidSeq b pos = .ok () pos' ∧ At b pos' r) ∨
    utf8ValidSeq b pos = .fail pos ∧
      ∀ (x : Char) (r : List UInt8), c :: s ≠ Json.utf8Encode x.toNat ++ r := by
  have hreads := reads_utf8ValidSeq c s b pos hs
  cases hrun : utf8ValidSeq b pos with
  | overrun | exhausted => simp [hrun] at hreads
  | ok u pos' =>
    rw [hrun] at hreads
    obtain ⟨r, hr, v, hv, heq⟩ := hreads
    exact .inl ⟨.ofNatAux v hv, r, pos', heq, rfl, hr⟩
  | fail pos' =>
    obtain rfl := failsHere_utf8ValidSeq b pos pos' hrun
    refine .inr ⟨rfl, fun x r heq => ?_⟩
    rw [heq] at hs
    obtain ⟨pos'', hok, -⟩ := yields_utf8ValidSeq x.valid r b pos' hs
    rw [hrun] at hok
    cases hok

/-! ## The whole text -/

/-- The encodings of characters form a prefix code. -/
theorem utf8Encode_inj {x y : Char} {r t : List UInt8}
    (h : Json.utf8Encode x.toNat ++ r = Json.utf8Encode y.toNat ++ t) : x = y ∧ r = t := by
  have hbound (z : Char) : z.toNat < 2 ^ 21 := by
    have := (isValidChar_iff _).1 z.valid
    show z.val.toNat < _
    omega
  obtain ⟨c, s, hc, hx⟩ := utf8_roundTrip (hbound x) r
  obtain ⟨c', s', hc', hy⟩ := utf8_roundTrip (hbound y) t
  rw [hc, hc', List.cons_append, List.cons_append] at h
  obtain ⟨rfl, hst⟩ := List.cons.inj h
  rw [← hst] at hy
  obtain ⟨pos, heq, hr⟩ := hx _ 0 (.start _)
  obtain ⟨pos', heq', ht⟩ := hy _ 0 (.start _)
  obtain ⟨hval, rfl⟩ := Scan.ok.inj (heq.symm.trans heq')
  exact ⟨Char.toNat_inj.1 hval, hr.2.symm.trans ht.2⟩

theorem utf8Text_cons (c : Char) (cs : List Char) :
    utf8Text (c :: cs) = Json.utf8Encode c.toNat ++ utf8Text cs := rfl

/-- Where no character follows a text, no longer text is a prefix. -/
theorem utf8Text_longest {r : List UInt8}
    (hr : ∀ (x : Char) (t : List UInt8), r ≠ Json.utf8Encode x.toNat ++ t) (cs ds : List Char)
    {t : List UInt8} (h : utf8Text cs ++ r = utf8Text ds ++ t) :
    (utf8Text ds).length ≤ (utf8Text cs).length := by
  induction cs generalizing ds with
  | nil =>
    cases ds with
    | nil => exact Nat.le_refl _
    | cons d ds =>
      rw [utf8Text_cons, List.append_assoc] at h
      exact absurd h (hr d _)
  | cons c cs ih =>
    cases ds with
    | nil => exact Nat.zero_le _
    | cons d ds =>
      rw [utf8Text_cons, utf8Text_cons, List.append_assoc, List.append_assoc] at h
      obtain ⟨rfl, hrest⟩ := utf8Encode_inj h
      rw [utf8Text_cons, utf8Text_cons, List.length_append, List.length_append]
      exact Nat.add_le_add_left (ih ds hrest) _

/-- The rounds of the loop: they accept the characters that the input begins with, up to its end or
to a position where no character begins. -/
theorem utf8Valid_rounds {b : List UInt8} (n : ℕ) {s : List UInt8} {pos : ℕ} (hs : At b pos s)
    (hn : s.length < n) : ∃ (cs : List Char) (r : List UInt8), s = utf8Text cs ++ r ∧
      (r = [] ∧ rounds utf8ValidRound n () b pos = .ok () b.length ∨
        r ≠ [] ∧ (∀ (x : Char) (t : List UInt8), r ≠ Json.utf8Encode x.toNat ++ t) ∧
          ∃ bad, rounds utf8ValidRound n () b pos = .fail bad ∧ At b bad r) := by
  induction n generalizing s pos with
  | zero => exact absurd hn (Nat.not_lt_zero _)
  | succ n ih =>
    obtain ⟨pos', havail, hpos'⟩ := Yields.avail 1 s b pos hs
    obtain rfl : pos' = pos := (Scan.ok.inj havail).2.symm
    cases s with
    | nil =>
      have hround : utf8ValidRound () b pos' = .ok (.inr ()) pos' := bind_ok havail
      refine ⟨[], [], rfl, .inl ⟨rfl, ?_⟩⟩
      rw [← hs.eq_nil_iff.1 rfl]
      exact bind_ok hround
    | cons c s =>
      obtain ⟨x, r, p, heq, hok, hr⟩ | ⟨hbad, hnone⟩ := utf8ValidSeq_run hs
      · have hround : utf8ValidRound () b pos' = .ok (.inl ()) p := (bind_ok havail).trans (bind_ok hok)
        have hshort : r.length < n := by
          have hlen := hs.length
          have hlen' := hr.length
          have hmoved : 0 < (Json.utf8Encode x.toNat).length := by
            unfold Json.utf8Encode
            split_ifs <;> exact Nat.succ_pos _
          have := congrArg List.length heq
          rw [List.length_append] at this
          omega
        have hstep : rounds utf8ValidRound (n + 1) () b pos' = rounds utf8ValidRound n () b p :=
          bind_ok hround
        obtain ⟨cs, t, hrt, hres⟩ := ih hr hshort
        refine ⟨x :: cs, t, ?_, ?_⟩
        · rw [heq, hrt, utf8Text_cons, List.append_assoc]
        · rwa [hstep]
      · have hround : utf8ValidRound () b pos' = .fail pos' := (bind_ok havail).trans (bind_fail hbad)
        exact ⟨[], c :: s, rfl, .inr ⟨List.cons_ne_nil _ _, hnone, pos', bind_fail hround, hs⟩⟩

/-- **A text is accepted exactly when it is the encoding of a list of Unicode scalar values, and
otherwise `*bad` is the length of the longest prefix that is one.** The scan never reads outside the
text: it ends in one of the two ways. -/
theorem utf8Valid_spec (s : List UInt8) :
    ((∃ cs, utf8Text cs = s) ∧ utf8Valid s 0 = .ok () s.length) ∨
    ((¬ ∃ cs, utf8Text cs = s) ∧ ∃ bad, utf8Valid s 0 = .fail bad ∧
      IsGreatest {k | ∃ cs, utf8Text cs <+: s ∧ (utf8Text cs).length = k} bad) := by
  obtain ⟨cs, r, heq, ⟨rfl, hok⟩ | ⟨hne, hnone, bad, hfail, hbad⟩⟩ :=
    utf8Valid_rounds (s.length + 1) (At.start s) (Nat.lt_succ_self _)
  · exact .inl ⟨⟨cs, by rw [heq, List.append_nil]⟩, hok⟩
  · have hlen := hbad.length
    have hlongest : ∀ ds t, s = utf8Text ds ++ t → (utf8Text ds).length ≤ (utf8Text cs).length :=
      fun ds t ht => utf8Text_longest hnone cs ds (heq.symm.trans ht)
    have hsplit := congrArg List.length heq
    rw [List.length_append] at hsplit
    refine .inr ⟨fun ⟨ds, hds⟩ => ?_, bad, hfail, ⟨cs, ⟨r, heq.symm⟩, by omega⟩, ?_⟩
    · have := hlongest ds [] (by rw [hds, List.append_nil])
      have hpos := List.length_pos_iff.2 hne
      rw [hds] at this
      omega
    · rintro k ⟨ds, ⟨t, ht⟩, rfl⟩
      have := hlongest ds t ht.symm
      omega

end Alcove
