import Alcove.Value.Utf8
import Alcove.Persist.Load

/-!
# Decoding a character from a stream

`utf8_decode_stream` against `utf8_decode_at`. The stream has no way back past one byte: a sequence
that breaks off leaves the continuation bytes it had consumed, and the bits it had gathered.

**Main result.** `utf8DecodeStream_agrees`: the two decoders agree exactly where the sequence that
the first byte announces is complete.
-/

namespace Alcove

open Lib Persist

/-! ## The two decoders at one position -/

/-- What follows the bytes of a text: the end of the stream, or a NUL and whatever comes after. -/
inductive Terminator where
  | eof
  | nul (after : List UInt8)

/-- The bytes that are still in the stream at a terminator. -/
def Terminator.bytes : Terminator → List UInt8
  | .eof => []
  | .nul after => 0 :: after

/-- The bytes after `c` are at least the continuation bytes that `c` announces. -/
def Utf8Whole (c : UInt8) (cs : List UInt8) : Prop :=
  ∀ n bits, ¬ c < 0x80 → utf8Lead c = some (n, bits) →
    n ≤ cs.length ∧ ∀ b ∈ cs.take n, b &&& 0xC0 = 0x80

/-- The two decoders at one position of a text `c :: cs`: the same codepoint, the same bytes left,
and for a sequence that is not whole the raw first byte alone. -/
def Utf8Agree (c : UInt8) (cs : List UInt8) (t : Terminator) : Prop :=
  (utf8DecodeStream c).Yields (cs ++ t.bytes) (utf8DecodeAt c cs).1.toNat
      ((utf8DecodeAt c cs).2 ++ t.bytes) ∧
    (¬ Utf8Whole c cs → utf8DecodeAt c cs = (c.toUInt32, cs) ∧
      (utf8DecodeStream c).Yields (cs ++ t.bytes) c.toNat (cs ++ t.bytes))

/-! ## The loop over the stream -/

/-- What `utf8Continue` returns and leaves. The byte that stops it is put back, those before it
are not. -/
def utf8Gather : ℕ → ℕ → List UInt8 → ℕ × List UInt8
  | 0, cp, s => (cp, s)
  | _ + 1, cp, [] => (cp, [])
  | n + 1, cp, c :: s =>
    if c &&& 0xC0 = 0x80 then utf8Gather n (cp <<< 6 ||| (c &&& 0x3F).toNat) s else (cp, c :: s)

theorem yields_utf8Gather (n cp : ℕ) (s : List UInt8) :
    (utf8Continue n cp).Yields s (utf8Gather n cp s).1 (utf8Gather n cp s).2 := by
  induction n generalizing cp s with
  | zero => exact .pure
  | succ n ih =>
    refine .bind (.test 0 _) ?_
    cases s with
    | nil => exact .pure
    | cons c s =>
      rw [List.getElem?_cons_zero, Option.any_some, utf8Gather]
      by_cases hc : c &&& 0xC0 = 0x80
      · rw [decide_eq_true hc, if_pos rfl, if_pos hc]
        exact .bind .next (ih _ s)
      · rw [decide_eq_false hc, if_neg Bool.false_ne_true, if_neg hc]
        exact .pure

/-- The loop over bytes that are all continuations. -/
theorem utf8Gather_append {cont : List UInt8} (h : ∀ b ∈ cont, b &&& 0xC0 = 0x80) (cp : ℕ)
    (s : List UInt8) : utf8Gather cont.length cp (cont ++ s) =
      (cont.foldl (fun (cp : ℕ) b => cp <<< 6 ||| (b &&& 0x3F).toNat) cp, s) := by
  induction cont generalizing cp with
  | nil => rfl
  | cons b cont ih =>
    rw [List.length_cons, List.cons_append, utf8Gather, if_pos (h b List.mem_cons_self),
      ih fun b hb => h b (List.mem_cons_of_mem _ hb)]
    rfl

/-- What the loop leaves is never more than what it was given. -/
theorem length_utf8Gather (n cp : ℕ) (s : List UInt8) :
    (utf8Gather n cp s).2.length ≤ s.length := by
  induction n generalizing cp s with
  | zero => exact Nat.le_refl _
  | succ n ih =>
    cases s with
    | nil => exact Nat.le_refl _
    | cons c s =>
      rw [utf8Gather]
      split
      · exact (ih _ _).trans (Nat.le_succ _)
      · exact Nat.le_refl _

/-- A loop that leaves everything has gathered nothing. -/
theorem utf8Gather_stuck {n cp : ℕ} {s : List UInt8} (h : (utf8Gather n cp s).2 = s) :
    (utf8Gather n cp s).1 = cp := by
  cases n with
  | zero => rfl
  | succ n =>
    cases s with
    | nil => rfl
    | cons c s =>
      rw [utf8Gather] at h ⊢
      split
      · next hc =>
        rw [if_pos hc] at h
        have hlt := length_utf8Gather n (cp <<< 6 ||| (c &&& 0x3F).toNat) s
        rw [h, List.length_cons] at hlt
        omega
      · rfl

/-! ## Codepoints in 32 bits -/

/-- Continuation bytes that keep a codepoint within 32 bits add the same to it in either
arithmetic. -/
theorem toNat_foldl_utf8 (cont : List UInt8) (cp : UInt32)
    (h : (cp.toNat + 1) * 64 ^ cont.length ≤ 2 ^ 32) :
    (cont.foldl (fun (cp : UInt32) b => cp <<< 6 ||| (b &&& 0x3F).toUInt32) cp).toNat =
      cont.foldl (fun (cp : ℕ) b => cp <<< 6 ||| (b &&& 0x3F).toNat) cp.toNat := by
  induction cont generalizing cp with
  | nil => rfl
  | cons b cont ih =>
    have hlow : (b &&& 0x3F).toNat < 64 := by
      rw [UInt8.toNat_and]
      exact Nat.and_le_right.trans_lt (by decide)
    have hpow : 1 ≤ 64 ^ cont.length := Nat.one_le_two_pow.trans (Nat.pow_le_pow_left (by decide) _)
    rw [List.length_cons, pow_succ', ← mul_assoc] at h
    have hcp : (cp.toNat + 1) * 64 ≤ 2 ^ 32 := (Nat.le_mul_of_pos_right _ hpow).trans h
    have hnext : (cp <<< 6 ||| (b &&& 0x3F).toUInt32).toNat =
        cp.toNat <<< 6 ||| (b &&& 0x3F).toNat := by
      have hshift : (cp <<< 6).toNat = cp.toNat <<< 6 := by
        rw [UInt32.toNat_shiftLeft]
        refine Nat.mod_eq_of_lt ?_
        show cp.toNat <<< 6 < 2 ^ 32
        rw [Nat.shiftLeft_eq]
        omega
      rw [UInt32.toNat_or, hshift, UInt8.toNat_toUInt32]
    rw [List.foldl_cons, List.foldl_cons, ih _ ?_, hnext]
    rw [hnext, ← Nat.shiftLeft_add_eq_or_of_lt hlow, Nat.shiftLeft_eq]
    refine (Nat.mul_le_mul_right _ ?_).trans h
    omega

/-- The bits of a lead byte are fewer than the byte has, and leave room for those to come. -/
theorem utf8Lead_bits {c : UInt8} {n : ℕ} {bits : UInt32} (hc : ¬ c < 0x80)
    (h : utf8Lead c = some (n, bits)) :
    bits.toNat ≠ c.toNat ∧ (bits.toNat + 1) * 64 ^ n ≤ 2 ^ 32 ∧
      utf8DecodeStream c = utf8Continue n bits.toNat := by
  have hmask (m : UInt8) : (c &&& m).toNat ≤ m.toNat := by
    rw [UInt8.toNat_and]
    exact Nat.and_le_right
  have hlow : 128 ≤ c.toNat := by
    rw [UInt8.lt_iff_toNat_lt] at hc
    exact not_lt.1 hc
  have h1 : (c &&& 0x1F).toNat ≤ 31 := hmask 0x1F
  have h2 : (c &&& 0x0F).toNat ≤ 15 := hmask 0x0F
  have h3 : (c &&& 0x07).toNat ≤ 7 := hmask 0x07
  unfold utf8Lead at h
  unfold utf8DecodeStream
  rw [if_neg hc]
  split_ifs at h with e1 e2 e3
  · cases h
    rw [if_pos e1, UInt8.toNat_toUInt32]
    exact ⟨(h1.trans_lt (by omega)).ne, by omega, rfl⟩
  · cases h
    rw [if_neg e1, if_pos e2, UInt8.toNat_toUInt32]
    exact ⟨(h2.trans_lt (by omega)).ne, by omega, rfl⟩
  · cases h
    rw [if_neg e1, if_neg e2, if_pos e3, UInt8.toNat_toUInt32]
    exact ⟨(h3.trans_lt (by omega)).ne, by omega, rfl⟩

/-! ## Whole sequences, and those that break off -/

variable {c : UInt8} {cs : List UInt8}

theorem utf8DecodeAt_ascii (h : c < 0x80) (cs : List UInt8) :
    utf8DecodeAt c cs = (c.toUInt32, cs) := by
  rw [utf8DecodeAt, if_pos h]

theorem utf8DecodeAt_stray (h : utf8Lead c = none) (cs : List UInt8) :
    utf8DecodeAt c cs = (c.toUInt32, cs) := by
  rw [utf8DecodeAt, h]
  exact ite_self _

theorem utf8DecodeAt_lead {n : ℕ} {bits : UInt32} (hc : ¬ c < 0x80)
    (h : utf8Lead c = some (n, bits)) (cs : List UInt8) : utf8DecodeAt c cs =
      if (cs.take n).length = n && (cs.take n).all (fun b => b &&& 0xC0 == 0x80) then
        ((cs.take n).foldl (fun (cp : UInt32) b => cp <<< 6 ||| (b &&& 0x3F).toUInt32) bits,
          cs.drop n)
      else (c.toUInt32, cs) := by
  rw [utf8DecodeAt, if_neg hc, h]

theorem utf8DecodeStream_ascii (h : c < 0x80) (s : List UInt8) :
    (utf8DecodeStream c).Yields s c.toNat s := by
  rw [utf8DecodeStream, if_pos h]
  exact .pure

theorem utf8DecodeStream_stray (h : utf8Lead c = none) (s : List UInt8) :
    (utf8DecodeStream c).Yields s c.toNat s := by
  unfold utf8Lead at h
  unfold utf8DecodeStream
  split_ifs at h with e1 e2 e3
  rw [if_neg e1, if_neg e2, if_neg e3]
  split <;> exact .pure

/-- A whole sequence: the loop reads it, and so does `utf8_decode_at`. -/
theorem Utf8Whole.agree (h : Utf8Whole c cs) (t : List UInt8) :
    (utf8DecodeStream c).Yields (cs ++ t) (utf8DecodeAt c cs).1.toNat
      ((utf8DecodeAt c cs).2 ++ t) := by
  by_cases hc : c < 0x80
  · rw [utf8DecodeAt_ascii hc]
    exact utf8DecodeStream_ascii hc _
  cases hl : utf8Lead c with
  | none =>
    rw [utf8DecodeAt_stray hl]
    exact utf8DecodeStream_stray hl _
  | some p =>
    obtain ⟨n, bits⟩ := p
    obtain ⟨hn, hall⟩ := h n bits hc hl
    obtain ⟨-, hroom, hstream⟩ := utf8Lead_bits hc hl
    have hlen : (cs.take n).length = n := List.length_take_of_le hn
    have hcont : (cs.take n).all (fun b => b &&& 0xC0 == 0x80) = true :=
      List.all_eq_true.2 fun b hb => beq_iff_eq.2 (hall b hb)
    have hrun := utf8Gather_append hall bits.toNat (cs.drop n ++ t)
    rw [hlen, ← List.append_assoc, List.take_append_drop] at hrun
    have hyields := yields_utf8Gather n bits.toNat (cs ++ t)
    rw [hrun] at hyields
    rw [hstream, utf8DecodeAt_lead hc hl, hlen, hcont, decide_eq_true rfl, Bool.and_self,
      if_pos rfl, toNat_foldl_utf8 _ _ (by rwa [hlen])]
    exact hyields

/-- A sequence that breaks off is its first byte alone to `utf8_decode_at`. -/
theorem utf8DecodeAt_broken (h : ¬ Utf8Whole c cs) : utf8DecodeAt c cs = (c.toUInt32, cs) := by
  by_cases hc : c < 0x80
  · exact utf8DecodeAt_ascii hc cs
  cases hl : utf8Lead c with
  | none => exact utf8DecodeAt_stray hl cs
  | some p =>
    obtain ⟨n, bits⟩ := p
    rw [utf8DecodeAt_lead hc hl, if_neg]
    intro hb
    rw [Bool.and_eq_true, decide_eq_true_eq, List.length_take, List.all_eq_true] at hb
    refine h fun m bits' _ hl' => ?_
    obtain ⟨rfl, rfl⟩ := Prod.mk.inj (Option.some.inj (hl.symm.trans hl'))
    exact ⟨by omega, fun b hm => beq_iff_eq.1 (hb.2 b hm)⟩

/-- The stream never gives back the first byte of a sequence that breaks off. -/
theorem utf8DecodeStream_broken (h : ¬ Utf8Whole c cs) (s : List UInt8) :
    ¬ (utf8DecodeStream c).Yields s c.toNat s := by
  intro hy
  refine h fun n bits hc hl => ?_
  obtain ⟨hne, -, hstream⟩ := utf8Lead_bits hc hl
  rw [hstream] at hy
  obtain ⟨pos, heq, hs⟩ := hy s 0 (.start s)
  obtain ⟨pos', heq', hs'⟩ := yields_utf8Gather n bits.toNat s s 0 (.start s)
  obtain ⟨hval, rfl⟩ := Scan.ok.inj (heq'.symm.trans heq)
  exact absurd ((utf8Gather_stuck (hs'.2.symm.trans hs.2)).symm.trans hval) hne

/-! ## Agreement -/

/-- **The stream decodes a character as `utf8_decode_at` does exactly where the first byte is
followed by all the continuation bytes it announces.** An ASCII byte and a stray one announce
none. -/
theorem utf8DecodeStream_agrees (c : UInt8) (cs : List UInt8) (t : Terminator) :
    Utf8Agree c cs t ↔ Utf8Whole c cs := by
  constructor
  · intro ⟨hsame, _⟩
    by_contra h
    rw [utf8DecodeAt_broken h, UInt8.toNat_toUInt32] at hsame
    exact utf8DecodeStream_broken h _ hsame
  · exact fun h => ⟨h.agree t.bytes, fun hn => absurd h hn⟩

/-- A lead byte at the end of its stream comes back as its own five bits. -/
theorem utf8DecodeStream_truncated : utf8DecodeStream 0xC3 [] 0 = .ok 0x03 0 ∧
    utf8DecodeAt 0xC3 [] = (0xC3, []) ∧ ¬ Utf8Agree 0xC3 [] .eof := by
  have hstream : utf8DecodeStream 0xC3 [] 0 = .ok 0x03 0 := by decide
  refine ⟨hstream, by decide, fun h => ?_⟩
  obtain ⟨pos, heq, -⟩ := h.1 [] 0 (.start [])
  exact absurd (Scan.ok.inj (hstream.symm.trans heq)).1 (by decide)

end Alcove
