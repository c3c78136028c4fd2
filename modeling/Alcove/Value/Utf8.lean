import Alcove.Value.Text

/-!
# Characters of a text

The lenient decoding of `utf8.h`: a lead byte that its continuation bytes do not follow is a
character by itself. The terminator of a text continues nothing, so a character never reaches over
the end.
-/

namespace Alcove

/-- The continuation bytes that a lead byte announces, and its own bits. -/
def utf8Lead (c : UInt8) : Option (ℕ × UInt32) :=
  if c &&& 0xE0 = 0xC0 then some (1, (c &&& 0x1F).toUInt32)
  else if c &&& 0xF0 = 0xE0 then some (2, (c &&& 0x0F).toUInt32)
  else if c &&& 0xF8 = 0xF0 then some (3, (c &&& 0x07).toUInt32)
  else none

/-- `utf8_decode_at`: the codepoint at the byte `c`, and the bytes after it. -/
def utf8DecodeAt (c : UInt8) (cs : List UInt8) : UInt32 × List UInt8 :=
  if c < 0x80 then (c.toUInt32, cs)
  else match utf8Lead c with
    | none => (c.toUInt32, cs)
    | some (n, bits) =>
      let cont := cs.take n
      if cont.length = n && cont.all (fun b => b &&& 0xC0 == 0x80) then
        (cont.foldl (fun cp b => cp <<< 6 ||| (b &&& 0x3F).toUInt32) bits, cs.drop n)
      else (c.toUInt32, cs)

theorem length_utf8DecodeAt (c : UInt8) (cs : List UInt8) :
    (utf8DecodeAt c cs).2.length ≤ cs.length := by
  unfold utf8DecodeAt
  split
  · exact Nat.le_refl _
  · split
    · exact Nat.le_refl _
    · simp only
      split
      · rw [List.length_drop]
        exact Nat.sub_le _ _
      · exact Nat.le_refl _

/-- The codepoints of a text. -/
def utf8Chars : List UInt8 → List UInt32
  | [] => []
  | c :: cs =>
    have := length_utf8DecodeAt c cs
    (utf8DecodeAt c cs).1 :: utf8Chars (utf8DecodeAt c cs).2
termination_by s => s.length
decreasing_by simp only [List.length_cons]; omega

/-- `utf8_strlen` -/
def utf8Strlen (s : CStr) : ℕ := (utf8Chars s.bytes).length

end Alcove
