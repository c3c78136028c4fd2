import Alcove.Lib.While
import Alcove.Value.Utf8Index

/-!
# Byte offsets of characters

The four loops of `utf8.h` over a NUL-terminated text, with the reads they do: a byte after the terminator
has no value, and a loop that reads one has no result. All four step with `utf8_decode_at`, so the offsets
where they stop are the boundaries of characters (`Boundary`).

**Main result.** `utf8_offsets`: the loops end, cut the text at the same places and read nothing after the
terminator.
-/

namespace Alcove

open Lib

/-! ## Reads -/

/-- `s[off]`, up to the terminator. -/
def byteAt (s : CStr) (off : ℕ) : Option UInt8 := (s.bytes ++ [0])[off]?

/-- The loop over the continuation bytes, from the `i`th on: the codepoint, or none where one of them is no
continuation byte. -/
def decodeConts (s : CStr) (off : ℕ) : ℕ → ℕ → UInt32 → Option (Option UInt32)
  | 0, _, cp => some (some cp)
  | left + 1, i, cp => (byteAt s (off + i)).bind fun cc =>
    if cc &&& 0xC0 ≠ 0x80 then some none
    else decodeConts s off left (i + 1) (cp <<< 6 ||| (cc &&& 0x3F).toUInt32)

/-- `utf8_decode_at`: the codepoint and the offset after it. -/
def utf8DecodeOff (s : CStr) (off : ℕ) : Option (UInt32 × ℕ) :=
  (byteAt s off).bind fun c =>
    if c < 0x80 then some (c.toUInt32, off + 1)
    else match utf8Lead c with
      | none => some (c.toUInt32, off + 1)
      | some (n, bits) => (decodeConts s off n 1 bits).map fun
        | some cp => (cp, off + (n + 1))
        | none => (c.toUInt32, off + 1)

/-! ## The loops -/

/-- `utf8_decode_at(s, &off); k++;` -/
def advance (s : CStr) (st : ℕ × ℕ) : Option (ℕ × ℕ) :=
  (utf8DecodeOff s st.1).map fun r => (r.2, st.2 + 1)

/-- `utf8_strlen` -/
def utf8StrlenC (s : CStr) (fuel : ℕ) : Option ℕ :=
  (whileLoop (fun st => (byteAt s st.1).map (· ≠ 0)) (advance s) fuel (0, 0)).map Prod.snd

/-- `utf8_byte_offset` -/
def utf8ByteOffsetC (s : CStr) (i : ℤ) (fuel : ℕ) : Option ℕ :=
  (whileLoop (fun st => (byteAt s st.1).map fun c => c ≠ 0 && (st.2 : ℤ) < i) (advance s) fuel
    (0, 0)).map Prod.fst

/-- `utf8_count_bytes` -/
def utf8CountBytesC (s : CStr) (nbytes : ℕ) (fuel : ℕ) : Option ℕ :=
  (whileLoop (fun st => if st.1 < nbytes then (byteAt s st.1).map (· ≠ 0) else some false) (advance s)
    fuel (0, 0)).map Prod.snd

/-- The loop of `utf8_index` goes on: nothing to return yet, and a byte. The state is the offset, the index
and the codepoint to return. -/
def indexTest (s : CStr) (st : ℕ × ℕ × Option UInt32) : Option Bool :=
  if st.2.2.isSome then some false else (byteAt s st.1).map (· ≠ 0)

/-- The body of the loop of `utf8_index`. -/
def indexStep (s : CStr) (i : ℤ) (st : ℕ × ℕ × Option UInt32) : Option (ℕ × ℕ × Option UInt32) :=
  (utf8DecodeOff s st.1).map fun r =>
    if (st.2.1 : ℤ) = i then (r.2, st.2.1, some r.1) else (r.2, st.2.1 + 1, none)

/-- `utf8_index`: the codepoint, or none for 0. -/
def utf8IndexC (s : CStr) (i : ℤ) (fuel : ℕ) : Option (Option UInt32) :=
  if i < 0 then some none else (whileLoop (indexTest s) (indexStep s i) fuel (0, 0, none)).map fun st => st.2.2

/-! ## One character -/

variable {s : CStr} {off : ℕ}

theorem byteAt_lt (h : off < s.length) : ∃ c, byteAt s off = some c ∧ c ≠ 0 := by
  refine ⟨s.bytes[off], ?_, fun h0 => s.noNul (h0 ▸ List.getElem_mem h)⟩
  rw [byteAt, List.getElem?_append_left h, List.getElem?_eq_getElem h]

theorem byteAt_length : byteAt s s.length = some 0 := by
  rw [byteAt, CStr.length, List.getElem?_append_right (le_refl _), Nat.sub_self]
  rfl

theorem byteAt_le (h : off ≤ s.length) : ∃ c, byteAt s off = some c ∧ (c ≠ 0 ↔ off < s.length) := by
  rcases Nat.lt_or_eq_of_le h with hlt | rfl
  · obtain ⟨c, hc, h0⟩ := byteAt_lt hlt
    exact ⟨c, hc, iff_of_true h0 hlt⟩
  · exact ⟨0, byteAt_length, iff_of_false (fun h => h rfl) (Nat.lt_irrefl _)⟩

/-- The loop stops at the terminator at the latest, which continues nothing. -/
theorem decodeConts_le (left : ℕ) {i : ℕ} (cp : UInt32) (h : off + i ≤ s.length) :
    ∃ r, decodeConts s off left i cp = some r ∧ (r.isSome = true → off + i + left ≤ s.length) := by
  induction left generalizing i cp with
  | zero => exact ⟨some cp, rfl, fun _ => h⟩
  | succ left ih =>
    obtain ⟨c, hc, h0⟩ := byteAt_le h
    rw [decodeConts, hc, Option.bind_some]
    by_cases hcont : c &&& 0xC0 ≠ 0x80
    · rw [if_pos hcont]
      exact ⟨none, rfl, fun h => by cases h⟩
    · rw [if_neg hcont]
      have hne : c ≠ 0 := fun h0 => hcont (by rw [h0]; decide)
      obtain ⟨r, hr, hle⟩ := ih (i := i + 1) (cp <<< 6 ||| (c &&& 0x3F).toUInt32) (h0.mp hne)
      exact ⟨r, hr, fun hs => by have := hle hs; omega⟩

/-- **A step inside the text goes on by a byte at least, and not over the terminator.** -/
theorem utf8DecodeOff_lt (h : off < s.length) :
    ∃ cp next, utf8DecodeOff s off = some (cp, next) ∧ off < next ∧ next ≤ s.length := by
  obtain ⟨c, hc, -⟩ := byteAt_lt h
  rw [utf8DecodeOff, hc, Option.bind_some]
  have hone : off < off + 1 ∧ off + 1 ≤ s.length := ⟨Nat.lt_succ_self off, h⟩
  by_cases hascii : c < 0x80
  · rw [if_pos hascii]
    exact ⟨_, _, rfl, hone⟩
  · rw [if_neg hascii]
    cases hlead : utf8Lead c with
    | none => exact ⟨_, _, rfl, hone⟩
    | some lead =>
      obtain ⟨n, bits⟩ := lead
      obtain ⟨r, hr, hle⟩ := decodeConts_le n bits hone.2
      simp only [hr, Option.map_some]
      cases r with
      | none => exact ⟨_, _, rfl, hone⟩
      | some cp => exact ⟨cp, _, rfl, by omega, by have := hle rfl; omega⟩

/-! ## Boundaries -/

/-- The offset where the `k`th character starts, or where the text ends after `k` characters. -/
inductive Boundary (s : CStr) : ℕ → ℕ → Prop
  | zero : Boundary s 0 0
  | succ {k off next : ℕ} {cp : UInt32} (h : Boundary s k off) (hlt : off < s.length)
      (hcp : utf8DecodeOff s off = some (cp, next)) : Boundary s (k + 1) next

namespace Boundary

variable {k j next : ℕ}

theorem le_length (h : Boundary s k off) : off ≤ s.length := by
  cases h with
  | zero => exact Nat.zero_le _
  | succ _ hlt hcp =>
    obtain ⟨cp, next, hdec, -, hle⟩ := utf8DecodeOff_lt hlt
    rw [hdec] at hcp
    cases hcp
    exact hle

theorem unique (h : Boundary s k off) (h' : Boundary s k next) : off = next := by
  induction k generalizing off next with
  | zero =>
    cases h
    cases h'
    rfl
  | succ k ih =>
    cases h with
    | succ hb _ hcp =>
      cases h' with
      | succ hb' _ hcp' =>
        obtain rfl := ih hb hb'
        rw [hcp] at hcp'
        cases hcp'
        rfl

theorem lt_succ (h : Boundary s k off) (h' : Boundary s (k + 1) next) : off < next := by
  cases h' with
  | succ hb hlt hcp =>
    obtain rfl := h.unique hb
    obtain ⟨cp, next, hdec, hgt, -⟩ := utf8DecodeOff_lt hlt
    rw [hdec] at hcp
    cases hcp
    exact hgt

theorem exists_of_le (h : Boundary s k off) (hj : j ≤ k) : ∃ o, Boundary s j o := by
  induction h with
  | zero => exact ⟨0, by rw [Nat.le_zero.mp hj]; exact .zero⟩
  | succ hb hlt hcp ih =>
    rcases Nat.lt_or_eq_of_le hj with hlt' | rfl
    · exact ih (Nat.lt_succ_iff.mp hlt')
    · exact ⟨_, .succ hb hlt hcp⟩

theorem lt (h : Boundary s k off) (h' : Boundary s j next) (hkj : k < j) : off < next := by
  induction j generalizing next with
  | zero => exact absurd hkj (Nat.not_lt_zero k)
  | succ j ih =>
    obtain ⟨o, ho⟩ := h'.exists_of_le (Nat.le_succ j)
    rcases Nat.lt_succ_iff_lt_or_eq.mp hkj with hlt | rfl
    · exact (ih ho hlt).trans (ho.lt_succ h')
    · exact h.lt_succ h'

/-- **The characters end where the text does.** -/
theorem exists_length (h : Boundary s k off) : ∃ n, k ≤ n ∧ Boundary s n s.length := by
  induction hm : s.length - off using Nat.strong_induction_on generalizing k off with
  | _ m ih =>
  rcases Nat.lt_or_eq_of_le h.le_length with hlt | rfl
  · obtain ⟨cp, next, hdec, hgt, hle⟩ := utf8DecodeOff_lt hlt
    obtain ⟨n, hn, hb⟩ := ih (s.length - next) (by omega) (.succ h hlt hdec) rfl
    exact ⟨n, by omega, hb⟩
  · exact ⟨k, le_refl k, h⟩

end Boundary

/-! ## The loops over boundaries -/

/-- With enough fuel there is this result. -/
def Returns {α : Type} (f : ℕ → Option α) (a : α) : Prop := ∃ N, ∀ n, N ≤ n → f n = some a

theorem Returns.map {α β : Type} {f : ℕ → Option α} {a : α} (h : Returns f a) (g : α → β) :
    Returns (fun n => (f n).map g) (g a) := by
  obtain ⟨N, hN⟩ := h
  exact ⟨N, fun n hn => by dsimp only; rw [hN n hn]; rfl⟩

/-- A loop from one boundary to another: it goes on before and stops there. -/
theorem returns_loop {test : ℕ × ℕ → Option Bool} {k j next : ℕ} (h : Boundary s k off)
    (h' : Boundary s j next) (hkj : k ≤ j)
    (hgo : ∀ i o, k ≤ i → i < j → Boundary s i o → test (o, i) = some true)
    (hstop : test (next, j) = some false) :
    Returns (fun n => whileLoop test (advance s) n (off, k)) (next, j) := by
  induction hm : j - k generalizing k off with
  | zero =>
    obtain rfl : k = j := by omega
    obtain rfl := h.unique h'
    refine ⟨1, fun n hn => ?_⟩
    obtain ⟨n, rfl⟩ := Nat.exists_eq_add_of_le' hn
    exact whileLoop_exit n hstop
  | succ m ih =>
    have hlt : off < s.length := (h.lt h' (by omega)).trans_le h'.le_length
    obtain ⟨cp, o, hdec, -, -⟩ := utf8DecodeOff_lt hlt
    have hb : Boundary s (k + 1) o := .succ h hlt hdec
    obtain ⟨N, hN⟩ := ih hb (by omega) (fun i o hi => hgo i o (by omega)) (by omega)
    refine ⟨N + 1, fun n hn => ?_⟩
    obtain ⟨n, rfl⟩ : ∃ m, n = m + 1 := ⟨n - 1, by omega⟩
    have hstep : advance s (off, k) = some (o, k + 1) := by rw [advance, hdec]; rfl
    exact (whileLoop_round n (hgo k off (le_refl k) (by omega) h) hstep).trans (hN n (by omega))

theorem byteAt_boundary {k n o : ℕ} (h : Boundary s k o) (hn : Boundary s n s.length) (hk : k < n) :
    ∃ c, byteAt s o = some c ∧ c ≠ 0 := byteAt_lt (h.lt hn hk)

theorem returns_strlen {n : ℕ} (hn : Boundary s n s.length) : Returns (utf8StrlenC s) n := by
  refine (returns_loop .zero hn (Nat.zero_le n) (fun i o _ hi ho => ?_) ?_).map Prod.snd
  · obtain ⟨c, hc, h0⟩ := byteAt_boundary ho hn hi
    simp [hc, h0]
  · simp [byteAt_length]

theorem returns_byteOffset {n k o : ℕ} (hn : Boundary s n s.length) (ho : Boundary s k o) (hk : k ≤ n) :
    Returns (utf8ByteOffsetC s k) o := by
  refine (returns_loop .zero ho (Nat.zero_le k) (fun i o' _ hi ho' => ?_) ?_).map Prod.fst
  · obtain ⟨c, hc, h0⟩ := byteAt_boundary ho' hn (hi.trans_le hk)
    simp [hc, h0, hi]
  · obtain ⟨c, hc, -⟩ := byteAt_le ho.le_length
    simp [hc]

theorem returns_countBytes {n k o : ℕ} (hn : Boundary s n s.length) (ho : Boundary s k o) (hk : k ≤ n) :
    Returns (utf8CountBytesC s o) k := by
  refine (returns_loop .zero ho (Nat.zero_le k) (fun i o' _ hi ho' => ?_) ?_).map Prod.snd
  · obtain ⟨c, hc, h0⟩ := byteAt_boundary ho' hn (hi.trans_le hk)
    simp [hc, h0, ho'.lt ho hi]
  · simp

/-- The loop of `utf8_index` from a boundary on: the codepoint at the index, if the text has one. -/
theorem returns_index {n k : ℕ} {i : ℤ} (hn : Boundary s n s.length) (h : Boundary s k off) (hk : k ≤ n)
    (hki : (k : ℤ) ≤ i) {r : Option UInt32}
    (hr : ∀ (j o : ℕ), (j : ℤ) = i → j < n → Boundary s j o → ∃ cp next,
      utf8DecodeOff s o = some (cp, next) ∧ r = some cp)
    (hno : (n : ℤ) ≤ i → r = none) :
    Returns (fun m => (whileLoop (indexTest s) (indexStep s i) m (off, k, none)).map fun st => st.2.2) r := by
  induction hm : n - k generalizing k off with
  | zero =>
    obtain rfl : k = n := by omega
    obtain rfl := h.unique hn
    refine ⟨1, fun m hm => ?_⟩
    obtain ⟨m, rfl⟩ := Nat.exists_eq_add_of_le' hm
    have hend : indexTest s (s.length, k, none) = some false := by simp [indexTest, byteAt_length]
    dsimp only
    rw [whileLoop_exit m hend, hno hki]
    rfl
  | succ m ih =>
    have hlt : off < s.length := h.lt hn (by omega)
    obtain ⟨c, hc, h0⟩ := byteAt_lt hlt
    obtain ⟨cp, o, hdec, -, -⟩ := utf8DecodeOff_lt hlt
    have hgo : indexTest s (off, k, none) = some true := by simp [indexTest, hc, h0]
    by_cases heq : (k : ℤ) = i
    · obtain ⟨cp', next, hdec', rfl⟩ := hr k off heq (by omega) h
      rw [hdec] at hdec'
      cases hdec'
      refine ⟨2, fun m hm => ?_⟩
      obtain ⟨m, rfl⟩ := Nat.exists_eq_add_of_le' hm
      have hstep : indexStep s i (off, k, none) = some (o, k, some cp) := by simp [indexStep, hdec, heq]
      have hend : indexTest s (o, k, some cp) = some false := rfl
      dsimp only
      rw [whileLoop_round (m + 1) hgo hstep, whileLoop_exit m hend]
      rfl
    · obtain ⟨N, hN⟩ := ih (.succ h hlt hdec) (by omega) (by omega) (by omega)
      refine ⟨N + 1, fun m hm => ?_⟩
      obtain ⟨m, rfl⟩ : ∃ l, m = l + 1 := ⟨m - 1, by omega⟩
      have hstep : indexStep s i (off, k, none) = some (o, k + 1, none) := by simp [indexStep, hdec, heq]
      dsimp only
      rw [whileLoop_round m hgo hstep]
      exact hN m (by omega)

/-! ## The characters of the text -/

theorem byteAt_drop {b : UInt8} {cs : List UInt8} (h : s.bytes.drop off = b :: cs) :
    byteAt s off = some b ∧ s.bytes.drop (off + 1) = cs ∧ off < s.length := by
  have hlt : off < s.bytes.length := by
    by_contra hge
    rw [List.drop_eq_nil_of_le (not_lt.mp hge)] at h
    cases h
  rw [List.drop_eq_getElem_cons hlt] at h
  obtain ⟨rfl, rfl⟩ := List.cons.inj h
  refine ⟨?_, rfl, hlt⟩
  rw [byteAt, List.getElem?_append_left hlt, List.getElem?_eq_getElem hlt]

/-- The loop reads the bytes that `utf8DecodeAt` takes at once. -/
theorem decodeConts_eq (left : ℕ) {i : ℕ} (cp : UInt32) (h : off + i ≤ s.length) :
    decodeConts s off left i cp = some
      (if ((s.bytes.drop (off + i)).take left).length = left &&
          ((s.bytes.drop (off + i)).take left).all (fun b => b &&& 0xC0 == 0x80) then
        some (((s.bytes.drop (off + i)).take left).foldl
          (fun (cp : UInt32) b => cp <<< 6 ||| (b &&& 0x3F).toUInt32) cp)
      else none) := by
  induction left generalizing i cp with
  | zero => simp [decodeConts]
  | succ left ih =>
    cases hd : s.bytes.drop (off + i) with
    | nil =>
      have hlen : off + i = s.length := le_antisymm h (List.drop_eq_nil_iff.mp hd)
      rw [decodeConts, hlen, byteAt_length, Option.bind_some, if_pos (by decide)]
      simp
    | cons b cs =>
      obtain ⟨hb, hcs, hlt⟩ := byteAt_drop hd
      rw [decodeConts, hb, Option.bind_some]
      by_cases hcont : b &&& 0xC0 = 0x80
      · rw [if_neg (by simpa using hcont), ih (i := i + 1) _ hlt, ← Nat.add_assoc, hcs]
        simp [hcont]
      · rw [if_pos hcont]
        simp [hcont]

/-- **A step decodes the character at the offset and leaves the rest of the text.** -/
theorem utf8DecodeOff_eq {c : UInt8} {cs : List UInt8} (h : s.bytes.drop off = c :: cs) :
    ∃ next, utf8DecodeOff s off = some ((utf8DecodeAt c cs).1, next) ∧
      s.bytes.drop next = (utf8DecodeAt c cs).2 := by
  obtain ⟨hc, hcs, hlt⟩ := byteAt_drop h
  rw [utf8DecodeOff, hc, Option.bind_some, utf8DecodeAt]
  by_cases hascii : c < 0x80
  · rw [if_pos hascii, if_pos hascii]
    exact ⟨off + 1, rfl, hcs⟩
  · rw [if_neg hascii, if_neg hascii]
    cases hlead : utf8Lead c with
    | none => exact ⟨off + 1, rfl, hcs⟩
    | some lead =>
      obtain ⟨n, bits⟩ := lead
      simp only [decodeConts_eq n bits (i := 1) hlt, hcs, Option.map_some]
      cases hok : decide ((cs.take n).length = n) && (cs.take n).all fun b => b &&& 0xC0 == 0x80 with
      | true =>
        simp only [if_true]
        refine ⟨off + (n + 1), rfl, ?_⟩
        rw [← hcs, List.drop_drop, Nat.add_comm n 1, ← Nat.add_assoc]
      | false =>
        simp only [Bool.false_eq_true, if_false]
        exact ⟨off + 1, rfl, hcs⟩

theorem Boundary.chars {k : ℕ} (h : Boundary s k off) :
    (utf8Chars s.bytes).length = k + (utf8Chars (s.bytes.drop off)).length := by
  induction h with
  | zero => simp
  | @succ k off next cp hb hlt hcp ih =>
    cases hd : s.bytes.drop off with
    | nil => exact absurd (List.drop_eq_nil_iff.mp hd) (not_le.mpr hlt)
    | cons c cs =>
      obtain ⟨next', hdec, hrest⟩ := utf8DecodeOff_eq hd
      rw [hcp] at hdec
      cases hdec
      rw [ih, hd, utf8Chars, List.length_cons, hrest]
      omega

/-- The loop counts the characters of the text. -/
theorem returns_utf8Strlen (s : CStr) : Returns (utf8StrlenC s) (utf8Strlen s) := by
  obtain ⟨n, -, hn⟩ := Boundary.exists_length (.zero : Boundary s 0 0)
  have hchars := hn.chars
  rw [CStr.length, List.drop_length, utf8Chars, List.length_nil, Nat.add_zero] at hchars
  rw [utf8Strlen, hchars]
  exact returns_strlen hn

/-! ## The agreement -/

/-- **The four loops cut a text at the same bytes.** There is a number of characters and an offset for each,
strictly increasing up to the length of the text; each loop ends without a read after the terminator, which
would be no result. -/
theorem utf8_offsets (s : CStr) : ∃ (n : ℕ) (start : ℕ → ℕ),
    Returns (utf8StrlenC s) n ∧
    (∀ i : ℕ, i ≤ n → Returns (utf8ByteOffsetC s i) (start i) ∧ Returns (utf8CountBytesC s (start i)) i) ∧
    (∀ i j, i < j → j ≤ n → start i < start j) ∧ start n = s.length ∧
    (∀ i : ℕ, i < n → ∃ cp next, utf8DecodeOff s (start i) = some (cp, next) ∧
      Returns (utf8IndexC s i) (some cp)) ∧
    ∀ i : ℤ, i < 0 ∨ n ≤ i → Returns (utf8IndexC s i) none := by
  obtain ⟨n, -, hn⟩ := Boundary.exists_length (.zero : Boundary s 0 0)
  have hstart : ∀ i, ∃ o, i ≤ n → Boundary s i o := fun i => by
    by_cases hi : i ≤ n
    · obtain ⟨o, ho⟩ := hn.exists_of_le hi
      exact ⟨o, fun _ => ho⟩
    · exact ⟨0, fun h => absurd h hi⟩
  choose start hb using hstart
  refine ⟨n, start, returns_strlen hn, fun i hi => ?_, fun i j hij hj => ?_, ?_, fun i hi => ?_, fun i hi => ?_⟩
  · exact ⟨returns_byteOffset hn (hb i hi) hi, returns_countBytes hn (hb i hi) hi⟩
  · exact (hb i (hij.le.trans hj)).lt (hb j hj) hij
  · exact (hb n (le_refl n)).unique hn
  · obtain ⟨cp, next, hdec, -, -⟩ := utf8DecodeOff_lt ((hb i hi.le).lt hn hi)
    refine ⟨cp, next, hdec, ?_⟩
    have hloop := returns_index (i := i) (r := some cp) hn .zero (Nat.zero_le n) (by omega)
      (fun j o hj _ ho => by
        obtain rfl : j = i := by omega
        obtain rfl := ho.unique (hb j hi.le)
        exact ⟨cp, next, hdec, rfl⟩) fun hle => by omega
    have hneg : ¬ (i : ℤ) < 0 := by omega
    obtain ⟨N, hN⟩ := hloop
    exact ⟨N, fun m hm => by rw [utf8IndexC, if_neg hneg]; exact hN m hm⟩
  · by_cases hneg : i < 0
    · exact ⟨0, fun m _ => by rw [utf8IndexC, if_pos hneg]⟩
    · have hle : (n : ℤ) ≤ i := hi.resolve_left hneg
      have hloop := returns_index (i := i) (r := none) hn .zero (Nat.zero_le n) (by omega)
        (fun j o hj hlt _ => by omega) fun _ => rfl
      obtain ⟨N, hN⟩ := hloop
      exact ⟨N, fun m hm => by rw [utf8IndexC, if_neg hneg]; exact hN m hm⟩

end Alcove
