import Alcove.Value.Utf8Stream
import Alcove.Value.Utf8Valid

/-!
# Texts by their codepoints

`utf8_byte_offset`, and `exp_set_text`, which stores the bytes that a builtin has put together. The
length that it hands to `alloc_str` is an `int`, and a text ends at its first NUL.

**Main result.** `stored_iff`: storing the encoding of codepoints gives a text with these codepoints
exactly when none of them is NUL or needs more than 21 bits, and the length fits.
-/

namespace Alcove

open Lib Persist

/-! ## Codepoints and bytes -/

/-- `utf8_byte_offset` -/
def utf8ByteOffset : ℕ → List UInt8 → ℕ
  | 0, _ => 0
  | _ + 1, [] => 0
  | i + 1, c :: cs =>
    let rest := (utf8DecodeAt c cs).2
    (cs.length + 1 - rest.length) + utf8ByteOffset i rest

/-- The bytes that `utf8_encode` writes for a list of codepoints. -/
def utf8Bytes (cps : List UInt32) : List UInt8 := cps.flatMap fun cp => Json.utf8Encode cp.toNat

/-- The codepoint is decoded from its encoding. -/
def Decodable (cp : UInt32) : Prop := cp.toNat < 2 ^ 21

instance (cp : UInt32) : Decidable (Decodable cp) := inferInstanceAs (Decidable (cp.toNat < 2 ^ 21))

theorem utf8Bytes_append (as bs : List UInt32) : utf8Bytes (as ++ bs) = utf8Bytes as ++ utf8Bytes bs :=
  List.flatMap_append

theorem utf8Bytes_cons (cp : UInt32) (cps : List UInt32) :
    utf8Bytes (cp :: cps) = Json.utf8Encode cp.toNat ++ utf8Bytes cps := List.flatMap_cons

theorem utf8Encode_ascii {v : ℕ} (h : v < 0x80) : Json.utf8Encode v = [UInt8.ofNat v] := by
  rw [Json.utf8Encode, if_pos h]

theorem length_utf8Encode_le (v : ℕ) : (Json.utf8Encode v).length ≤ 4 := by
  unfold Json.utf8Encode
  split_ifs <;> simp only [List.length_cons, List.length_nil] <;> omega

/-- The two tables of lead bytes agree. -/
theorem utf8Lead_of_valid {c : UInt8} {n bits min : ℕ} (h : utf8ValidLead c = some (n + 1, bits, min)) :
    ∃ own : UInt32, utf8Lead c = some (n, own) ∧ own.toNat = bits := by
  unfold utf8ValidLead at h
  unfold utf8Lead
  split_ifs at h with e1 e2 e3
  · cases h
    exact ⟨_, if_pos e1, UInt8.toNat_toUInt32 _⟩
  · cases h
    exact ⟨_, by rw [if_neg e1, if_pos e2], UInt8.toNat_toUInt32 _⟩
  · cases h
    exact ⟨_, by rw [if_neg e1, if_neg e2, if_pos e3], UInt8.toNat_toUInt32 _⟩

theorem utf8Conts_and {ms : List ℕ} (hms : ∀ m ∈ ms, m < 64) :
    ∀ b ∈ utf8Conts ms, b &&& 0xC0 = 0x80 := by
  intro b hb
  obtain ⟨m, hm, rfl⟩ := List.mem_map.1 hb
  exact (continuation (hms m hm)).1

/-- The bits gathered from continuation bytes. -/
theorem foldl_utf8Conts {ms : List ℕ} (hms : ∀ m ∈ ms, m < 64) (cp : ℕ) :
    (utf8Conts ms).foldl (fun (cp : ℕ) b => cp <<< 6 ||| (b &&& 0x3F).toNat) cp =
      ms.foldl (fun a m => a * 64 + m) cp := by
  induction ms generalizing cp with
  | nil => rfl
  | cons m ms ih =>
    have hm : m < 64 := hms m List.mem_cons_self
    rw [utf8Conts_cons, List.foldl_cons, List.foldl_cons, (continuation hm).2,
      ← Nat.shiftLeft_add_eq_or_of_lt hm, Nat.shiftLeft_eq]
    exact ih (fun x hx => hms x (List.mem_cons_of_mem _ hx)) _

/-- **A codepoint is decoded from its encoding.** -/
theorem utf8DecodeAt_encode {cp : UInt32} (h : Decodable cp) (r : List UInt8) : ∃ c s,
    Json.utf8Encode cp.toNat = c :: s ∧ utf8DecodeAt c (s ++ r) = (cp, r) := by
  by_cases hascii : cp.toNat < 0x80
  · have hlt : UInt8.ofNat cp.toNat < 0x80 := by
      rw [UInt8.lt_iff_toNat_lt, UInt8.toNat_ofNat']
      exact (Nat.mod_le _ _).trans_lt hascii
    refine ⟨_, [], utf8Encode_ascii hascii, ?_⟩
    rw [List.nil_append, utf8DecodeAt_ascii hlt]
    refine Prod.ext (UInt32.toNat_inj.1 ?_) rfl
    rw [UInt8.toNat_toUInt32, UInt8.toNat_ofNat', Nat.mod_eq_of_lt (by omega)]
  · obtain ⟨c, ms, hseq⟩ := exists_utf8Seq (not_lt.1 hascii) h
    refine ⟨c, utf8Conts ms, hseq.encode, ?_⟩
    obtain ⟨hlead, hdigits, bits, min, hshape, -, hsum⟩ := hseq
    obtain ⟨own, hown, rfl⟩ := utf8Lead_of_valid hshape
    have htake : (utf8Conts ms ++ r).take ms.length = utf8Conts ms :=
      List.take_left' (List.length_map _)
    have hall : (utf8Conts ms).all (fun b => b &&& 0xC0 == 0x80) = true :=
      List.all_eq_true.2 fun b hb => beq_iff_eq.2 (utf8Conts_and hdigits b hb)
    obtain ⟨-, hroom, -⟩ := utf8Lead_bits hlead hown
    have hlen : (utf8Conts ms).length = ms.length := List.length_map _
    rw [utf8DecodeAt_lead hlead hown, htake, hall, hlen, decide_eq_true rfl, Bool.and_self, if_pos rfl,
      List.drop_left' hlen]
    refine Prod.ext (UInt32.toNat_inj.1 ?_) rfl
    rw [toNat_foldl_utf8 _ _ (by rwa [hlen]), foldl_utf8Conts hdigits]
    exact hsum.symm

theorem utf8Chars_encode {cp : UInt32} (h : Decodable cp) (r : List UInt8) :
    utf8Chars (Json.utf8Encode cp.toNat ++ r) = cp :: utf8Chars r := by
  obtain ⟨c, s, hencode, hdecode⟩ := utf8DecodeAt_encode h r
  rw [hencode, List.cons_append, utf8Chars, hdecode]

theorem utf8Chars_bytes {cps : List UInt32} (h : ∀ cp ∈ cps, Decodable cp) (r : List UInt8) :
    utf8Chars (utf8Bytes cps ++ r) = cps ++ utf8Chars r := by
  induction cps with
  | nil => rfl
  | cons cp cps ih =>
    rw [utf8Bytes_cons, List.append_assoc, utf8Chars_encode (h cp List.mem_cons_self),
      ih fun x hx => h x (List.mem_cons_of_mem _ hx), List.cons_append]

theorem utf8Chars_utf8Bytes {cps : List UInt32} (h : ∀ cp ∈ cps, Decodable cp) :
    utf8Chars (utf8Bytes cps) = cps := by
  have hchars := utf8Chars_bytes h []
  rwa [List.append_nil, utf8Chars, List.append_nil] at hchars

/-- The offset of a codepoint is the length of those before it. -/
theorem utf8ByteOffset_bytes {cps : List UInt32} (h : ∀ cp ∈ cps, Decodable cp) (i : ℕ) :
    utf8ByteOffset i (utf8Bytes cps) = (utf8Bytes (cps.take i)).length := by
  induction cps generalizing i with
  | nil =>
    rw [List.take_nil]
    cases i <;> rfl
  | cons cp cps ih =>
    cases i with
    | zero => rfl
    | succ i =>
      obtain ⟨c, s, hencode, hdecode⟩ := utf8DecodeAt_encode (h cp List.mem_cons_self) (utf8Bytes cps)
      rw [List.take_succ_cons, utf8Bytes_cons, utf8Bytes_cons, hencode, List.cons_append,
        utf8ByteOffset, hdecode, ih fun x hx => h x (List.mem_cons_of_mem _ hx)]
      simp only [List.length_append, List.length_cons]
      omega

/-! ## Decoded codepoints have 21 bits -/

theorem foldl_utf8_lt (cont : List UInt8) (cp : ℕ) :
    cont.foldl (fun (cp : ℕ) b => cp <<< 6 ||| (b &&& 0x3F).toNat) cp < (cp + 1) * 64 ^ cont.length := by
  induction cont generalizing cp with
  | nil => simp
  | cons b cont ih =>
    have hlow : (b &&& 0x3F).toNat < 64 := Nat.lt_succ_of_le (toNat_and_le b 0x3F)
    rw [List.foldl_cons, ← Nat.shiftLeft_add_eq_or_of_lt hlow, Nat.shiftLeft_eq]
    have hstep : cp * 2 ^ 6 + (b &&& 0x3F).toNat + 1 ≤ (cp + 1) * 64 := by omega
    rw [List.length_cons, pow_succ' 64, ← mul_assoc]
    exact (ih _).trans_le (Nat.mul_le_mul_right _ hstep)

theorem utf8Lead_room {c : UInt8} {n : ℕ} {bits : UInt32} (h : utf8Lead c = some (n, bits)) :
    (bits.toNat + 1) * 64 ^ n ≤ 2 ^ 21 := by
  have h1 : (c &&& 0x1F).toNat ≤ 31 := toNat_and_le c 0x1F
  have h2 : (c &&& 0x0F).toNat ≤ 15 := toNat_and_le c 0x0F
  have h3 : (c &&& 0x07).toNat ≤ 7 := toNat_and_le c 0x07
  unfold utf8Lead at h
  split_ifs at h
  all_goals
    cases h
    rw [UInt8.toNat_toUInt32]
    omega

theorem decodable_utf8DecodeAt (c : UInt8) (cs : List UInt8) : Decodable (utf8DecodeAt c cs).1 := by
  have hraw : Decodable c.toUInt32 := by
    rw [Decodable, UInt8.toNat_toUInt32]
    exact c.toNat_lt.trans (by decide)
  by_cases hc : c < 0x80
  · rwa [utf8DecodeAt_ascii hc]
  cases hl : utf8Lead c with
  | none => rwa [utf8DecodeAt_stray hl]
  | some p =>
    obtain ⟨n, bits⟩ := p
    rw [utf8DecodeAt_lead hc hl]
    split
    · rename_i hwhole
      have hlen : (cs.take n).length = n := of_decide_eq_true (Bool.and_eq_true_iff.1 hwhole).1
      have hroom := utf8Lead_room hl
      rw [Decodable, toNat_foldl_utf8 _ _ (by rw [hlen]; omega)]
      refine (foldl_utf8_lt _ _).trans_le ?_
      rwa [hlen]
    · exact hraw

theorem decodable_utf8Chars (s : List UInt8) : ∀ cp ∈ utf8Chars s, Decodable cp := by
  induction s using utf8Chars.induct with
  | case1 => simp [utf8Chars]
  | case2 c cs hlen ih =>
    rw [utf8Chars]
    exact List.forall_mem_cons.2 ⟨decodable_utf8DecodeAt c cs, ih⟩

/-! ## Stored bytes -/

/-- `exp_set_text`; `none` where `alloc_str` has no defined result. -/
def expSetText (bytes : List UInt8) : Option CStr :=
  if bytes.length ≤ 7 then some (CStr.ofBytes bytes)
  else
    -- (int)len, and length + 1 in alloc_str
    let length : ℤ := (bytes.length : ℤ).bmod (2 ^ 32)
    if length < 0 ∨ length = 2 ^ 31 - 1 then none else some (CStr.ofBytes (bytes.take length.toNat))

/-- A length that `exp_set_text` stores as it is. -/
def Storable (n : ℕ) : Prop := n < 2 ^ 31 - 1

instance (n : ℕ) : Decidable (Storable n) := inferInstanceAs (Decidable (n < 2 ^ 31 - 1))

/-! ## Bytes that break off -/

theorem utf8Lead_continuation {m : ℕ} (h : m < 64) : utf8Lead (UInt8.ofNat (0x80 ||| m)) = none := by
  decide +revert

/-- Continuation bytes by themselves are a codepoint each. -/
theorem utf8Chars_conts {ms : List ℕ} (hms : ∀ m ∈ ms, m < 64) :
    utf8Chars (utf8Conts ms) = (utf8Conts ms).map UInt8.toUInt32 := by
  induction ms with
  | nil => rw [utf8Conts, List.map_nil, utf8Chars, List.map_nil]
  | cons m ms ih =>
    have hm := utf8Lead_continuation (hms m List.mem_cons_self)
    rw [utf8Conts_cons, utf8Chars, utf8DecodeAt_stray hm, List.map_cons]
    exact congrArg _ (ih fun x hx => hms x (List.mem_cons_of_mem _ hx))

theorem toUInt32_ne_zero {b : UInt8} (h : b ≠ 0) : b.toUInt32 ≠ 0 := by
  intro hz
  refine h (UInt8.toNat_inj.1 ?_)
  rw [← UInt8.toNat_toUInt32, hz]
  rfl

/-- A sequence that was cut short: each of its bytes is a codepoint. -/
theorem utf8Chars_cut {c : UInt8} {ms : List ℕ} {v : ℕ} (h : Utf8Seq c ms v) {j : ℕ} (hj : j < ms.length) :
    utf8Chars (c :: utf8Conts (ms.take j)) = (c :: utf8Conts (ms.take j)).map UInt8.toUInt32 := by
  obtain ⟨hlead, hdigits, bits, min, hshape, -, -⟩ := h
  obtain ⟨own, hown, -⟩ := utf8Lead_of_valid hshape
  have hlen : (utf8Conts (ms.take j)).length = j := by
    rw [utf8Conts, List.length_map, List.length_take_of_le hj.le]
  have hshort : ((utf8Conts (ms.take j)).take ms.length).length ≠ ms.length := by
    rw [List.length_take, hlen]
    omega
  rw [utf8Chars, utf8DecodeAt_lead hlead hown, decide_eq_false hshort, Bool.false_and,
    if_neg Bool.false_ne_true, List.map_cons]
  exact congrArg _ (utf8Chars_conts fun m hm => hdigits m (List.mem_of_mem_take hm))

/-- The first bytes of an encoding: whole codepoints, then at most three bytes of the next one. -/
theorem utf8Chars_take {cps : List UInt32} (h : ∀ cp ∈ cps, Decodable cp) {l : ℕ}
    (hl : l ≤ (utf8Bytes cps).length) : ∃ (m : ℕ) (raw : List UInt32),
      utf8Chars ((utf8Bytes cps).take l) = cps.take m ++ raw ∧ m ≤ cps.length ∧ raw.length ≤ 3 ∧ 0 ∉ raw ∧
        (utf8Bytes (cps.take m)).length + raw.length = l := by
  induction cps generalizing l with
  | nil =>
    obtain rfl : l = 0 := Nat.le_zero.1 hl
    exact ⟨0, [], by rw [List.take_zero, utf8Chars]; rfl, Nat.le_refl _, Nat.zero_le _, List.not_mem_nil, rfl⟩
  | cons cp cps ih =>
    have hcp := h cp List.mem_cons_self
    have hcps : ∀ x ∈ cps, Decodable x := fun x hx => h x (List.mem_cons_of_mem _ hx)
    rw [utf8Bytes_cons] at hl ⊢
    rcases Nat.lt_or_ge l (Json.utf8Encode cp.toNat).length with hlt | hge
    · refine ⟨0, utf8Chars ((Json.utf8Encode cp.toNat).take l), ?_⟩
      rw [List.take_append_of_le_length hlt.le]
      suffices hraw : utf8Chars ((Json.utf8Encode cp.toNat).take l) =
          ((Json.utf8Encode cp.toNat).take l).map UInt8.toUInt32 ∧
            0 ∉ (Json.utf8Encode cp.toNat).take l by
        obtain ⟨hraw, hzero⟩ := hraw
        have hle := length_utf8Encode_le cp.toNat
        have hlen : ((Json.utf8Encode cp.toNat).take l).length = l := List.length_take_of_le hlt.le
        refine ⟨rfl, Nat.zero_le _, ?_, ?_, ?_⟩
        · rw [hraw, List.length_map, hlen]
          omega
        · rw [hraw]
          intro hmem
          obtain ⟨b, hb, hb0⟩ := List.mem_map.1 hmem
          exact toUInt32_ne_zero (fun h0 => hzero (h0 ▸ hb)) hb0
        · rw [hraw, List.length_map, hlen, List.take_zero]
          exact Nat.zero_add l
      cases l with
      | zero =>
        rw [List.take_zero, utf8Chars]
        exact ⟨rfl, List.not_mem_nil⟩
      | succ l =>
        have hwide : 0x80 ≤ cp.toNat := by
          by_contra hascii
          rw [utf8Encode_ascii (not_le.1 hascii)] at hlt
          simp at hlt
        obtain ⟨c, ms, hseq⟩ := exists_utf8Seq hwide hcp
        have hlen : (utf8Conts ms).length = ms.length := List.length_map _
        have hj : l < ms.length := by
          rw [hseq.encode, List.length_cons, hlen] at hlt
          omega
        have htake : (Json.utf8Encode cp.toNat).take (l + 1) = c :: utf8Conts (ms.take l) := by
          rw [hseq.encode, List.take_succ_cons, utf8Conts, ← List.map_take]
          rfl
        rw [htake]
        refine ⟨utf8Chars_cut hseq hj, ?_⟩
        intro hzero
        rcases List.mem_cons.1 hzero with rfl | hmem
        · exact hseq.lead (by decide)
        · have hand := utf8Conts_and (fun m hm => hseq.digits m (List.mem_of_mem_take hm)) 0 hmem
          revert hand
          decide
    · obtain ⟨k, rfl⟩ := Nat.exists_eq_add_of_le hge
      rw [List.length_append] at hl
      obtain ⟨m, raw, hchars, hm, hraw, hzero, hlen⟩ := ih hcps (show k ≤ (utf8Bytes cps).length by omega)
      refine ⟨m + 1, raw, ?_, by rw [List.length_cons]; omega, hraw, hzero, ?_⟩
      · rw [List.take_length_add_append, utf8Chars_encode hcp, hchars, List.take_succ_cons,
          List.cons_append]
      · rw [List.take_succ_cons, utf8Bytes_cons, List.length_append]
        omega

/-! ## What is stored -/

/-- Codepoints that a text can hold. -/
def Textual (cps : List UInt32) : Prop := ∀ cp ∈ cps, cp ≠ 0 ∧ Decodable cp

theorem zero_notMem_utf8Encode {cp : UInt32} (hcp : cp ≠ 0) (h : Decodable cp) :
    0 ∉ Json.utf8Encode cp.toNat := by
  by_cases hascii : cp.toNat < 0x80
  · rw [utf8Encode_ascii hascii, List.mem_singleton]
    intro hzero
    refine hcp (UInt32.toNat_inj.1 ?_)
    have hmod := congrArg UInt8.toNat hzero
    rw [UInt8.toNat_ofNat', Nat.mod_eq_of_lt (by omega)] at hmod
    exact hmod.symm
  · obtain ⟨c, ms, hseq⟩ := exists_utf8Seq (not_lt.1 hascii) h
    rw [hseq.encode]
    intro hzero
    rcases List.mem_cons.1 hzero with rfl | hmem
    · exact hseq.lead (by decide)
    · exact absurd (utf8Conts_and hseq.digits 0 hmem) (by decide)

theorem zero_notMem_utf8Bytes {cps : List UInt32} (h : Textual cps) : 0 ∉ utf8Bytes cps := by
  intro hzero
  obtain ⟨cp, hcp, hmem⟩ := List.mem_flatMap.1 hzero
  exact zero_notMem_utf8Encode (h cp hcp).1 (h cp hcp).2 hmem

theorem length_utf8Bytes_le (cps : List UInt32) : (utf8Bytes cps).length ≤ 4 * cps.length := by
  induction cps with
  | nil => exact Nat.le_refl _
  | cons cp cps ih =>
    have hle := length_utf8Encode_le cp.toNat
    rw [utf8Bytes_cons, List.length_append, List.length_cons]
    omega

theorem expSetText_of_storable {bytes : List UInt8} (h : Storable bytes.length) :
    expSetText bytes = some (CStr.ofBytes bytes) := by
  have hlen : ((bytes.length : ℤ).bmod (2 ^ 32)) = bytes.length := by
    rw [Storable] at h
    rw [Int.bmod_def]
    omega
  rw [expSetText]
  split
  · rfl
  · rw [Storable] at h
    simp only [hlen]
    rw [if_neg (by omega), Int.toNat_natCast, List.take_length]

/-- What is stored are the first bytes up to a NUL: all of them, unless the length was too large. -/
theorem expSetText_eq_some {bytes : List UInt8} {t : CStr} (h : expSetText bytes = some t) :
    ∃ l ≤ bytes.length, t.bytes = bytes.take l ∧
      (Storable bytes.length ∨ l + 2 ^ 32 ≤ bytes.length) := by
  have hprefix (l : ℕ) (hl : l ≤ bytes.length) :
      ∃ l' ≤ l, (CStr.ofBytes (bytes.take l)).bytes = bytes.take l' := by
    have hpre : (CStr.ofBytes (bytes.take l)).bytes <+: bytes.take l := List.takeWhile_prefix _
    refine ⟨_, hpre.length_le.trans (List.length_take_le _ _), ?_⟩
    exact List.prefix_iff_eq_take.1 (hpre.trans (List.take_prefix _ _))
  rw [expSetText] at h
  split at h
  · obtain rfl := Option.some.inj h
    obtain ⟨l', hl', hbytes⟩ := hprefix bytes.length (Nat.le_refl _)
    rw [List.take_length] at hbytes
    refine ⟨l', hl', hbytes, .inl ?_⟩
    rw [Storable]
    omega
  · simp only at h
    split at h
    · cases h
    · rename_i hint
      obtain rfl := Option.some.inj h
      have hbound : ((bytes.length : ℤ).bmod (2 ^ 32)).toNat ≤ bytes.length ∧
          (Storable bytes.length ∨ ((bytes.length : ℤ).bmod (2 ^ 32)).toNat + 2 ^ 32 ≤ bytes.length) := by
        rw [Storable]
        rw [Int.bmod_def] at hint ⊢
        omega
      obtain ⟨hle, hbound⟩ := hbound
      obtain ⟨l', hl', hbytes⟩ := hprefix _ hle
      refine ⟨l', hl'.trans hle, hbytes, hbound.imp_right fun h => ?_⟩
      omega

/-- **Storing codepoints** gives a text with these codepoints exactly when a text can hold them and
their length fits. -/
theorem stored_iff (cps : List UInt32) :
    (∃ t, expSetText (utf8Bytes cps) = some t ∧ utf8Chars t.bytes = cps) ↔
      Textual cps ∧ Storable (utf8Bytes cps).length := by
  constructor
  · rintro ⟨t, ht, hchars⟩
    have hdec : ∀ cp ∈ cps, Decodable cp := hchars ▸ decodable_utf8Chars t.bytes
    obtain ⟨l, hl, hbytes, hsize⟩ := expSetText_eq_some ht
    obtain ⟨m, raw, htake, hm, hraw, hzero, hlen⟩ := utf8Chars_take hdec hl
    rw [hbytes, htake] at hchars
    have hsplit := List.take_append_drop m cps
    have hdrop : cps.drop m = raw :=
      List.append_cancel_left (hsplit.trans hchars.symm)
    have hall : utf8Bytes cps = utf8Bytes (cps.take m) ++ utf8Bytes raw := by
      rw [← utf8Bytes_append, hchars]
    have hshort := length_utf8Bytes_le raw
    have htotal : (utf8Bytes cps).length = (utf8Bytes (cps.take m)).length + (utf8Bytes raw).length := by
      rw [hall, List.length_append]
    refine ⟨fun cp hcp => ⟨?_, hdec cp hcp⟩, hsize.resolve_right (by omega)⟩
    rintro rfl
    -- the encoding of NUL would be a byte of the text
    have hmem : (0 : UInt32) ∈ cps.take m := by
      rw [← hchars] at hcp
      exact (List.mem_append.1 hcp).resolve_right hzero
    have hbyte : (0 : UInt8) ∈ utf8Bytes (cps.take m) := List.mem_flatMap.2 ⟨0, hmem, List.mem_singleton.2 rfl⟩
    refine t.noNul ?_
    rw [hbytes, hall, ← hlen, List.take_length_add_append]
    exact List.mem_append_left _ hbyte
  · rintro ⟨htext, hsize⟩
    refine ⟨_, expSetText_of_storable hsize, ?_⟩
    rw [CStr.ofBytes_of_noNul (zero_notMem_utf8Bytes htext)]
    exact utf8Chars_utf8Bytes fun cp hcp => (htext cp hcp).2

end Alcove
