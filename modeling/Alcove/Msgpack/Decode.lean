import Alcove.Lib.Cursor
import Alcove.Lib.MessagePack
import Alcove.Value.Exp

/-!
# The MessagePack decoder

`mp_decode` of `msgpack.h` on a buffer of `len` bytes, with its position as the state of a `Cursor`:
every `b[i]` of the source is a read that may overrun, and every nested call takes one of the `fuel`
activations. `mpDecodeTag` is the body after the tag was read, over the nested call.

**Main results:** `mpDecode_holds`: the decoder stays inside the buffer, nests at most
`mpMaxDepth + 2` activations, and what it accepts is an encoding whose image it returns.
`mpDecode_wire`: it accepts every encoding that is not nested too deep.
-/

namespace Alcove.Msgpack

open Lib Cursor

/-- `MP_MAX_DEPTH` -/
def mpMaxDepth : ℕ := 512

/-- `INT_MAX` -/
def intMax : ℕ := 2 ^ 31 - 1

/-- `MP_NEED(nb)`, then `mp_get_be(b, *pos, nb)` and `*pos += nb`. -/
def mpGetField (nb : ℕ) : Cursor UInt8 ℕ := do
  need nb
  let bytes ← slice nb
  skip nb
  return getBe bytes

/-- The `n` bytes from the position on, and `*pos += n`. -/
def mpTake (n : ℕ) : Cursor UInt8 (List UInt8) := do
  let bytes ← slice n
  skip n
  return bytes

/-- An integer as a fixnum, or as a float when it does not fit. -/
def ofInt (v : ℤ) : Exp := if fixFits v then .fix (makeFix v) else .float (doubleOfInt v)

/-- The arms of `uint8` to `uint64`. -/
def mpDecodeUint (nb : ℕ) : Cursor UInt8 Exp := do
  let uv ← mpGetField nb
  if (nb < 8 ∨ uv ≤ 2 ^ 63 - 1) ∧ fixFits uv then
    return .fix (makeFix uv)
  else
    return .float (doubleOfNat uv)

/-- The arms of `int8` to `int64`. -/
def mpDecodeSint (nb : ℕ) : Cursor UInt8 Exp := do
  let uv ← mpGetField nb
  return ofInt (sext uv nb)

/-- A length field that has to be covered by what is left of the input. -/
def mpGetLength (nb : ℕ) : Cursor UInt8 ℕ := do
  let n ← mpGetField nb
  let left ← remaining
  if left < n then fail else return n

/-- The arms of `str8` to `str32`. -/
def mpDecodeStr (nb : ℕ) : Cursor UInt8 Exp := do
  let n ← mpGetLength nb
  if intMax < n then fail
  else
    let s ← mpTake n
    return .string (CStr.ofBytes s)

/-- The arms of `bin8` to `bin32`. -/
def mpDecodeBin (nb : ℕ) : Cursor UInt8 Exp := do
  let n ← mpGetLength nb
  let s ← mpTake n
  return .blob s

/-- `mp_decode_array`: the elements, as they are appended to the list. -/
def mpDecodeArray (decode : Cursor UInt8 Exp) : ℕ → Cursor UInt8 (List Exp)
  | 0 => return []
  | n + 1 => do
    let el ← decode
    let els ← mpDecodeArray decode n
    return el :: els

/-- `mp_decode_map`, with the dict built so far. -/
def mpDecodeMap (decode : Cursor UInt8 Exp) : ℕ → Dict Exp → Cursor UInt8 Exp
  | 0, d => return .dict d
  | n + 1, d => do
    let key ← decode
    match key with
    | .string key => do
      let val ← decode
      mpDecodeMap decode n (d.set key val)
    | _ => fail

/-- The `switch` of `mp_decode` on the tags that hold no value themselves. -/
def mpDecodeSwitch (decode : Cursor UInt8 Exp) (c : UInt8) : Cursor UInt8 Exp :=
  if c = 0xc0 ∨ c = 0xc2 then return .nil
  else if c = 0xc3 then return .t
  else if c = 0xcc then mpDecodeUint 1
  else if c = 0xcd then mpDecodeUint 2
  else if c = 0xce then mpDecodeUint 4
  else if c = 0xcf then mpDecodeUint 8
  else if c = 0xd0 then mpDecodeSint 1
  else if c = 0xd1 then mpDecodeSint 2
  else if c = 0xd2 then mpDecodeSint 4
  else if c = 0xd3 then mpDecodeSint 8
  else if c = 0xca then (fun bits => .float (doubleOfFloat (UInt32.ofNat bits))) <$> mpGetField 4
  else if c = 0xcb then (fun bits => .float (UInt64.ofNat bits)) <$> mpGetField 8
  else if c = 0xd9 then mpDecodeStr 1
  else if c = 0xda then mpDecodeStr 2
  else if c = 0xdb then mpDecodeStr 4
  else if c = 0xc4 then mpDecodeBin 1
  else if c = 0xc5 then mpDecodeBin 2
  else if c = 0xc6 then mpDecodeBin 4
  else if c = 0xdc then mpGetLength 2 >>= fun n => Exp.ofList <$> mpDecodeArray decode n
  else if c = 0xdd then mpGetLength 4 >>= fun n => Exp.ofList <$> mpDecodeArray decode n
  else if c = 0xde then mpGetLength 2 >>= fun n => mpDecodeMap decode n Dict.create
  else if c = 0xdf then mpGetLength 4 >>= fun n => mpDecodeMap decode n Dict.create
  else fail

/-- The body of `mp_decode` after `c = b[(*pos)++]`, over the nested call at `depth + 1`. -/
def mpDecodeTag (decode : Cursor UInt8 Exp) (c : UInt8) : Cursor UInt8 Exp :=
  if c ≤ 0x7f then return .fix (makeFix c.toNat)
  else if 0xe0 ≤ c then return .fix (makeFix (c.toNat - 256))
  else if c &&& 0xe0 = 0xa0 then do
    need (c &&& 0x1f).toNat
    let s ← mpTake (c &&& 0x1f).toNat
    return .string (CStr.ofBytes s)
  else if c &&& 0xf0 = 0x90 then Exp.ofList <$> mpDecodeArray decode (c &&& 0x0f).toNat
  else if c &&& 0xf0 = 0x80 then mpDecodeMap decode (c &&& 0x0f).toNat Dict.create
  else mpDecodeSwitch decode c

/-- `mp_decode(b, len, pos, depth)` with `fuel` activations left. -/
def mpDecode : ℕ → ℕ → Cursor UInt8 Exp
  | 0, _ => exhausted
  | fuel + 1, depth =>
    if mpMaxDepth < depth then fail
    else do
      let inside ← avail 1
      if inside then
        let c ← next
        mpDecodeTag (mpDecode fuel (depth + 1)) c
      else fail

/-- `msgpack-decode` of a blob with these bytes. -/
def msgpackdecodecmd (b : List UInt8) : Option Exp :=
  match mpDecode (mpMaxDepth + 2) 0 b 0 with
  | .ok v pos => if pos = b.length then some v else none
  | _ => none

/-! ## What a message decodes to -/

mutual

/-- The value that the decoder makes of a message. -/
def image : Msg → Exp
  | .nil => .nil
  | .bool false => .nil
  | .bool true => .t
  | .int n => ofInt n
  | .float32 bits => .float (doubleOfFloat bits)
  | .float64 bits => .float bits
  | .str s => .string (CStr.ofBytes s)
  | .bin s => .blob s
  | .arr ms => Exp.ofList (imageAll ms)
  | .map kvs => .dict (Dict.ofList (imageEntries kvs))

/-- The values of the elements of an array. -/
def imageAll : List Msg → List Exp
  | [] => []
  | m :: ms => image m :: imageAll ms

/-- The keys and values of a map, in the order in which they are set. -/
def imageEntries : List (List UInt8 × Msg) → List (CStr × Exp)
  | [] => []
  | (k, m) :: kvs => (CStr.ofBytes k, image m) :: imageEntries kvs

end

theorem imageAll_eq (ms : List Msg) : imageAll ms = ms.map image := by
  induction ms with
  | nil => rfl
  | cons m ms ih => rw [imageAll, ih, List.map_cons]

theorem imageEntries_eq (kvs : List (List UInt8 × Msg)) :
    imageEntries kvs = kvs.map fun kv => (CStr.ofBytes kv.1, image kv.2) := by
  induction kvs with
  | nil => rfl
  | cons kv kvs ih => rw [imageEntries, ih, List.map_cons]

/-- Only a string decodes to a string. -/
theorem image_eq_string {m : Msg} {text : CStr} (h : image m = .string text) :
    ∃ s, m = .str s ∧ text = CStr.ofBytes s := by
  cases m with
  | str s =>
    rw [image, Exp.string.injEq] at h
    exact ⟨s, rfl, h.symm⟩
  | bool b => cases b <;> cases h
  | int n =>
    rw [image, ofInt] at h
    split at h <;> cases h
  | arr ms =>
    rw [image, Exp.ofList, imageAll_eq] at h
    cases ms <;> cases h
  | _ => cases h

/-! ## The fields -/

variable {s t r : List UInt8} {n nb : ℕ}

theorem mpGetField_reads (nb : ℕ) (s : List UInt8) :
    (mpGetField nb).Reads s fun n r => n < 256 ^ nb ∧ s = putBe nb n ++ r := by
  apply Reads.bind
  apply Reads.need
  intro hn
  apply Reads.bind
  apply Reads.slice hn
  apply Reads.bind
  apply Reads.skip hn
  apply Reads.pure
  have hlen : (s.take nb).length = nb := List.length_take_of_le hn
  constructor
  · simpa [hlen] using getBe_lt (s.take nb)
  · have hput := putBe_getBe (s.take nb)
    rw [hlen] at hput
    rw [hput, List.take_append_drop]

theorem mpTake_reads (hn : n ≤ s.length) :
    (mpTake n).Reads s fun x r => x.length = n ∧ s = x ++ r := by
  apply Reads.bind
  apply Reads.slice hn
  apply Reads.bind
  apply Reads.skip hn
  apply Reads.pure
  exact ⟨List.length_take_of_le hn, (List.take_append_drop n s).symm⟩

theorem mpGetLength_reads (nb : ℕ) (s : List UInt8) :
    (mpGetLength nb).Reads s fun n r => n < 256 ^ nb ∧ s = putBe nb n ++ r ∧ n ≤ r.length := by
  apply Reads.bind
  apply (mpGetField_reads nb s).mono
  intro n r h
  apply Reads.bind
  apply Reads.remaining
  by_cases hlt : r.length < n
  · rw [if_pos hlt]
    exact Reads.fail
  · rw [if_neg hlt]
    exact Reads.pure ⟨h.1, h.2, by omega⟩

theorem mpGetField_yields (h : n < 256 ^ nb) : (mpGetField nb).Yields (putBe nb n ++ r) n r := by
  have hlen : nb ≤ (putBe nb n ++ r).length := by simp
  have htake : (putBe nb n ++ r).take nb = putBe nb n := by simp
  have hdrop : (putBe nb n ++ r).drop nb = r := by simp
  apply Yields.bind (Yields.need hlen)
  apply Yields.bind (Yields.slice hlen)
  apply Yields.bind (Yields.skip hlen)
  rw [htake, hdrop, getBe_putBe_of_lt h]
  exact Yields.pure

theorem mpTake_yields (x r : List UInt8) : (mpTake x.length).Yields (x ++ r) x r := by
  have hlen : x.length ≤ (x ++ r).length := by simp
  apply Yields.bind (Yields.slice hlen)
  apply Yields.bind (Yields.skip hlen)
  rw [List.take_left, List.drop_left]
  exact Yields.pure

theorem mpGetLength_yields (h : n < 256 ^ nb) (hn : n ≤ r.length) :
    (mpGetLength nb).Yields (putBe nb n ++ r) n r := by
  apply Yields.bind (mpGetField_yields h)
  apply Yields.bind Yields.remaining
  rw [if_neg (by omega)]
  exact Yields.pure

/-! ## What is accepted is an encoding -/

/-- On every input the routine reads a message and returns its value. -/
def Accepts (decode : Cursor UInt8 Exp) : Prop :=
  ∀ s, decode.Reads s fun v r => ∃ m, Msg.Wire m s r ∧ v = image m

variable {decode : Cursor UInt8 Exp}

theorem mpDecodeArray_reads (h : Accepts decode) (n : ℕ) (s : List UInt8) :
    (mpDecodeArray decode n).Reads s fun vs r =>
      ∃ ms, ms.length = n ∧ Msg.Chain Msg.Wire ms s r ∧ vs = imageAll ms := by
  induction n generalizing s with
  | zero => exact Reads.pure ⟨[], rfl, .nil, rfl⟩
  | succ n ih =>
    apply Reads.bind
    apply (h s).mono
    rintro v t ⟨m, hm, rfl⟩
    apply Reads.bind
    apply (ih t).mono
    rintro vs r ⟨ms, hlen, hms, rfl⟩
    exact Reads.pure ⟨m :: ms, by rw [List.length_cons, hlen], .cons hm hms, rfl⟩

theorem mpDecodeMap_reads (h : Accepts decode) (n : ℕ) (d : Dict Exp) (s : List UInt8) :
    (mpDecodeMap decode n d).Reads s fun v r => ∃ kvs, kvs.length = n ∧
      Msg.Entries Msg.Wire kvs s r ∧
        v = .dict ((imageEntries kvs).foldl (fun d kv => d.set kv.1 kv.2) d) := by
  induction n generalizing d s with
  | zero => exact Reads.pure ⟨[], rfl, .nil, rfl⟩
  | succ n ih =>
    apply Reads.bind
    apply (h s).mono
    rintro key t ⟨m, hm, hkey⟩
    split
    · obtain ⟨k, rfl, rfl⟩ := image_eq_string hkey.symm
      apply Reads.bind
      apply (h t).mono
      rintro val u ⟨m, hm', rfl⟩
      apply (ih _ u).mono
      rintro v r ⟨kvs, hlen, hkvs, rfl⟩
      refine ⟨(k, m) :: kvs, by rw [List.length_cons, hlen], ?_, rfl⟩
      cases hm with
      | str hs => exact .cons hs hm' hkvs
    · exact Reads.fail

theorem ofInt_of_fits {v : ℤ} (h : Fits 61 v) : ofInt v = .fix (makeFix v) :=
  if_pos (fixFits_iff.mpr h)

/-- A tag that holds a length in its low bits. -/
theorem tag_low_bits {c mask fixTag : UInt8} (low : UInt8)
    (hall : ∀ n < 256, n &&& mask.toNat = fixTag.toNat → n = fixTag.toNat + (n &&& low.toNat))
    (h : c &&& mask = fixTag) : c = UInt8.ofNat (fixTag.toNat + (c &&& low).toNat) := by
  have hnat : c.toNat &&& mask.toNat = fixTag.toNat := by rw [← UInt8.toNat_and, h]
  rw [UInt8.toNat_and, ← hall c.toNat c.toNat_lt hnat, UInt8.ofNat_toNat]

theorem low_bits_lt (c low : UInt8) (w : ℕ) (hlow : low.toNat < w) : (c &&& low).toNat < w := by
  rw [UInt8.toNat_and]
  exact lt_of_le_of_lt Nat.and_le_right hlow

theorem mpDecodeUint_reads {tag : UInt8} (htag : (tag, nb) ∈ Msg.uintTags) (s : List UInt8) :
    (mpDecodeUint nb).Reads s fun v r => ∃ m, Msg.Wire m (tag :: s) r ∧ v = image m := by
  apply Reads.bind
  apply (mpGetField_reads nb s).mono
  rintro n r ⟨hn, rfl⟩
  have hwire : Msg.Wire (.int n) (tag :: (putBe nb n ++ r)) r := .uint htag hn
  by_cases hfits : fixFits n
  · have hbound : nb < 8 ∨ n ≤ 2 ^ 63 - 1 := by
      have := (fixFits_iff.mp hfits).2
      exact .inr (by omega)
    rw [if_pos ⟨hbound, hfits⟩]
    exact Reads.pure ⟨.int n, hwire, by rw [image, ofInt, if_pos hfits]⟩
  · rw [if_neg fun h => hfits h.2]
    have hdouble : doubleOfInt n = doubleOfNat n := if_neg (by omega)
    exact Reads.pure ⟨.int n, hwire, by rw [image, ofInt, if_neg hfits, hdouble]⟩

theorem widths_of_sintTags {tag : UInt8} (htag : (tag, nb) ∈ Msg.sintTags) :
    nb ∈ [1, 2, 4, 8] := by
  simp only [Msg.sintTags, List.mem_cons, Prod.mk.injEq, List.not_mem_nil, or_false] at htag
  rcases htag with ⟨-, rfl⟩ | ⟨-, rfl⟩ | ⟨-, rfl⟩ | ⟨-, rfl⟩ <;> simp

/-- A field read as a signed number has the width's range, and is that number modulo the width. -/
theorem bmod_field (hnb : nb ∈ [1, 2, 4, 8]) (hn : n < 256 ^ nb) :
    -(256 ^ nb / 2) ≤ (n : ℤ).bmod (256 ^ nb) ∧ (n : ℤ).bmod (256 ^ nb) < 256 ^ nb / 2 ∧
      ((n : ℤ).bmod (256 ^ nb) % 256 ^ nb).toNat = n := by
  have hcases : nb = 1 ∨ nb = 2 ∨ nb = 4 ∨ nb = 8 := by simpa using hnb
  rcases hcases with rfl | rfl | rfl | rfl <;>
    · simp only [Int.bmod_def]
      omega

theorem mpDecodeSint_reads {tag : UInt8} (htag : (tag, nb) ∈ Msg.sintTags) (s : List UInt8) :
    (mpDecodeSint nb).Reads s fun v r => ∃ m, Msg.Wire m (tag :: s) r ∧ v = image m := by
  have hnb := widths_of_sintTags htag
  apply Reads.bind
  apply (mpGetField_reads nb s).mono
  rintro n r ⟨hn, rfl⟩
  obtain ⟨hlo, hhi, hmod⟩ := bmod_field hnb hn
  have hwire : Msg.Wire (.int ((n : ℤ).bmod (256 ^ nb))) (tag :: (putBe nb n ++ r)) r := by
    have hw := Msg.Wire.sint (r := r) htag hlo hhi
    rwa [hmod] at hw
  exact Reads.pure ⟨_, hwire, by rw [image, sext_eq hnb]⟩

theorem mpDecodeStr_reads {tag : UInt8} (htag : (tag, nb) ∈ [((0xd9 : UInt8), 1), (0xda, 2), (0xdb, 4)])
    (s : List UInt8) :
    (mpDecodeStr nb).Reads s fun v r => ∃ m, Msg.Wire m (tag :: s) r ∧ v = image m := by
  apply Reads.bind
  apply (mpGetLength_reads nb s).mono
  rintro n r ⟨hn, rfl, hle⟩
  split
  · exact Reads.fail
  · apply Reads.bind
    apply (mpTake_reads hle).mono
    rintro x r ⟨rfl, rfl⟩
    exact Reads.pure ⟨.str x, .str (.wide htag hn), rfl⟩

theorem mpDecodeBin_reads {tag : UInt8} (htag : (tag, nb) ∈ [((0xc4 : UInt8), 1), (0xc5, 2), (0xc6, 4)])
    (s : List UInt8) :
    (mpDecodeBin nb).Reads s fun v r => ∃ m, Msg.Wire m (tag :: s) r ∧ v = image m := by
  apply Reads.bind
  apply (mpGetLength_reads nb s).mono
  rintro n r ⟨hn, rfl, hle⟩
  apply Reads.bind
  apply (mpTake_reads hle).mono
  rintro x r ⟨rfl, rfl⟩
  exact Reads.pure ⟨.bin x, .bin (.wide htag hn), rfl⟩

/-- An array or a map after its header. -/
theorem container_reads (h : Accepts decode) (n : ℕ) {s t : List UInt8} :
    (Msg.ArrHeader n s t → (Exp.ofList <$> mpDecodeArray decode n).Reads t fun v r =>
      ∃ m, Msg.Wire m s r ∧ v = image m) ∧
    (Msg.MapHeader n s t → (mpDecodeMap decode n Dict.create).Reads t fun v r =>
      ∃ m, Msg.Wire m s r ∧ v = image m) := by
  constructor
  · intro hs
    apply Reads.map
    apply (mpDecodeArray_reads h n t).mono
    rintro vs r ⟨ms, rfl, hms, rfl⟩
    exact ⟨.arr ms, .arr hs hms, rfl⟩
  · intro hs
    apply (mpDecodeMap_reads h n Dict.create t).mono
    rintro v r ⟨kvs, rfl, hkvs, rfl⟩
    exact ⟨.map kvs, .map hs hkvs, rfl⟩

theorem mpDecodeSwitch_reads (h : Accepts decode) (c : UInt8) (s : List UInt8) :
    (mpDecodeSwitch decode c).Reads s fun v r => ∃ m, Msg.Wire m (c :: s) r ∧ v = image m := by
  have hlong {nb : ℕ} {s : List UInt8} {f : ℕ → Cursor UInt8 Exp}
      {Q : Exp → List UInt8 → Prop}
      (hf : ∀ n r, n < 256 ^ nb → s = putBe nb n ++ r → (f n).Reads r Q) :
      (mpGetLength nb >>= f).Reads s Q := by
    apply Reads.bind
    apply (mpGetLength_reads nb s).mono
    intro n r hn
    exact hf n r hn.1 hn.2.1
  unfold mpDecodeSwitch
  by_cases hc : c = 0xc0 ∨ c = 0xc2
  · rw [if_pos hc]
    rcases hc with rfl | rfl
    · exact Reads.pure ⟨.nil, .nil, rfl⟩
    · exact Reads.pure ⟨.bool false, .false, rfl⟩
  rw [if_neg hc]
  by_cases hc : c = 0xc3
  · rw [if_pos hc, hc]
    exact Reads.pure ⟨.bool true, .true, rfl⟩
  rw [if_neg hc]
  by_cases hc : c = 0xcc
  · rw [if_pos hc, hc]
    exact mpDecodeUint_reads (by simp [Msg.uintTags]) s
  rw [if_neg hc]
  by_cases hc : c = 0xcd
  · rw [if_pos hc, hc]
    exact mpDecodeUint_reads (by simp [Msg.uintTags]) s
  rw [if_neg hc]
  by_cases hc : c = 0xce
  · rw [if_pos hc, hc]
    exact mpDecodeUint_reads (by simp [Msg.uintTags]) s
  rw [if_neg hc]
  by_cases hc : c = 0xcf
  · rw [if_pos hc, hc]
    exact mpDecodeUint_reads (by simp [Msg.uintTags]) s
  rw [if_neg hc]
  by_cases hc : c = 0xd0
  · rw [if_pos hc, hc]
    exact mpDecodeSint_reads (by simp [Msg.sintTags]) s
  rw [if_neg hc]
  by_cases hc : c = 0xd1
  · rw [if_pos hc, hc]
    exact mpDecodeSint_reads (by simp [Msg.sintTags]) s
  rw [if_neg hc]
  by_cases hc : c = 0xd2
  · rw [if_pos hc, hc]
    exact mpDecodeSint_reads (by simp [Msg.sintTags]) s
  rw [if_neg hc]
  by_cases hc : c = 0xd3
  · rw [if_pos hc, hc]
    exact mpDecodeSint_reads (by simp [Msg.sintTags]) s
  rw [if_neg hc]
  by_cases hc : c = 0xca
  · rw [if_pos hc, hc]
    apply Reads.map
    apply (mpGetField_reads 4 s).mono
    rintro n r ⟨hn, rfl⟩
    have hwire : Msg.Wire (.float32 (UInt32.ofNat n)) (0xca :: (putBe 4 n ++ r)) r := by
      have hw : Msg.Wire (.float32 (UInt32.ofNat n))
          (0xca :: (putBe 4 (UInt32.ofNat n).toNat ++ r)) r := .float32
      rwa [UInt32.toNat_ofNat_of_lt' hn] at hw
    exact ⟨_, hwire, rfl⟩
  rw [if_neg hc]
  by_cases hc : c = 0xcb
  · rw [if_pos hc, hc]
    apply Reads.map
    apply (mpGetField_reads 8 s).mono
    rintro n r ⟨hn, rfl⟩
    have hwire : Msg.Wire (.float64 (UInt64.ofNat n)) (0xcb :: (putBe 8 n ++ r)) r := by
      have hw : Msg.Wire (.float64 (UInt64.ofNat n))
          (0xcb :: (putBe 8 (UInt64.ofNat n).toNat ++ r)) r := .float64
      rwa [UInt64.toNat_ofNat_of_lt' hn] at hw
    exact ⟨_, hwire, rfl⟩
  rw [if_neg hc]
  by_cases hc : c = 0xd9
  · rw [if_pos hc, hc]
    exact mpDecodeStr_reads (by simp) s
  rw [if_neg hc]
  by_cases hc : c = 0xda
  · rw [if_pos hc, hc]
    exact mpDecodeStr_reads (by simp) s
  rw [if_neg hc]
  by_cases hc : c = 0xdb
  · rw [if_pos hc, hc]
    exact mpDecodeStr_reads (by simp) s
  rw [if_neg hc]
  by_cases hc : c = 0xc4
  · rw [if_pos hc, hc]
    exact mpDecodeBin_reads (by simp) s
  rw [if_neg hc]
  by_cases hc : c = 0xc5
  · rw [if_pos hc, hc]
    exact mpDecodeBin_reads (by simp) s
  rw [if_neg hc]
  by_cases hc : c = 0xc6
  · rw [if_pos hc, hc]
    exact mpDecodeBin_reads (by simp) s
  rw [if_neg hc]
  by_cases hc : c = 0xdc
  · rw [if_pos hc, hc]
    apply hlong
    rintro n r hn rfl
    exact (container_reads h n).1 (.wide (by simp) hn)
  rw [if_neg hc]
  by_cases hc : c = 0xdd
  · rw [if_pos hc, hc]
    apply hlong
    rintro n r hn rfl
    exact (container_reads h n).1 (.wide (by simp) hn)
  rw [if_neg hc]
  by_cases hc : c = 0xde
  · rw [if_pos hc, hc]
    apply hlong
    rintro n r hn rfl
    exact (container_reads h n).2 (.wide (by simp) hn)
  rw [if_neg hc]
  by_cases hc : c = 0xdf
  · rw [if_pos hc, hc]
    apply hlong
    rintro n r hn rfl
    exact (container_reads h n).2 (.wide (by simp) hn)
  rw [if_neg hc]
  exact Reads.fail

/-- **The body of the decoder accepts encodings**, if the nested call does. -/
theorem mpDecodeTag_reads (h : Accepts decode) (c : UInt8) (s : List UInt8) :
    (mpDecodeTag decode c).Reads s fun v r => ∃ m, Msg.Wire m (c :: s) r ∧ v = image m := by
  unfold mpDecodeTag
  split
  · next hc =>
    have hlt : c.toNat < 128 := Nat.lt_succ_of_le (UInt8.le_iff_toNat_le.mp hc)
    have hwire : Msg.Wire (.int c.toNat) (UInt8.ofNat c.toNat :: s) s := .positive hlt
    rw [UInt8.ofNat_toNat] at hwire
    have hfits : Fits 61 (c.toNat : ℤ) := by constructor <;> omega
    exact Reads.pure ⟨_, hwire, (ofInt_of_fits hfits).symm⟩
  split
  · next hc =>
    have hle : 0xe0 ≤ c.toNat := UInt8.le_iff_toNat_le.mp hc
    have hlt := c.toNat_lt
    have hwire : Msg.Wire (.int (-(256 - c.toNat : ℕ))) (UInt8.ofNat (256 - (256 - c.toNat)) :: s) s :=
      .negative (by omega) (by omega)
    rw [show 256 - (256 - c.toNat) = c.toNat by omega, UInt8.ofNat_toNat] at hwire
    have hval : -((256 - c.toNat : ℕ) : ℤ) = c.toNat - 256 := by omega
    have hfits : Fits 61 ((c.toNat : ℤ) - 256) := by constructor <;> omega
    rw [hval] at hwire
    exact Reads.pure ⟨_, hwire, (ofInt_of_fits hfits).symm⟩
  split
  · next hc =>
    have htag := tag_low_bits 0x1f (by decide +kernel) hc
    apply Reads.bind
    apply Reads.need
    intro hn
    apply Reads.bind
    apply (mpTake_reads hn).mono
    rintro x r ⟨hlen, rfl⟩
    refine Reads.pure ⟨.str x, .str ?_, rfl⟩
    rw [htag, ← hlen]
    exact .fix (hlen ▸ low_bits_lt c 0x1f 32 (by decide))
  split
  · next hc =>
    have htag := tag_low_bits 0x0f (by decide +kernel) hc
    apply (container_reads h _).1
    nth_rewrite 2 [htag]
    exact .fix (low_bits_lt c 0x0f 16 (by decide))
  split
  · next hc =>
    have htag := tag_low_bits 0x0f (by decide +kernel) hc
    apply (container_reads h _).2
    nth_rewrite 2 [htag]
    exact .fix (low_bits_lt c 0x0f 16 (by decide))
  exact mpDecodeSwitch_reads h c s

/-- **What the decoder does on any input**: it reads inside the buffer, nests at most
`mpMaxDepth + 2` activations, and what it accepts is an encoding, whose image it returns. -/
theorem mpDecode_reads {fuel depth : ℕ} (hdepth : depth ≤ mpMaxDepth + 1)
    (h : mpMaxDepth + 2 ≤ fuel + depth) : Accepts (mpDecode fuel depth) := by
  induction fuel generalizing depth with
  | zero => omega
  | succ fuel ih =>
    intro s
    unfold mpDecode
    split
    · exact Reads.fail
    · next hle =>
      apply Reads.bind
      apply Reads.avail
      cases s with
      | nil => exact Reads.fail
      | cons c s =>
        apply Reads.bind
        apply Reads.next
        exact mpDecodeTag_reads (ih (by omega) (by omega)) c s

/-! ## What is not nested too deep is accepted -/

/-- A message that nests at most `n` levels below itself, with strings that a text can hold. -/
inductive Readable : ℕ → Msg → Prop
  | nil {n : ℕ} : Readable n .nil
  | bool {n : ℕ} (b : Bool) : Readable n (.bool b)
  | int {n : ℕ} (v : ℤ) : Readable n (.int v)
  | float32 {n : ℕ} (bits : UInt32) : Readable n (.float32 bits)
  | float64 {n : ℕ} (bits : UInt64) : Readable n (.float64 bits)
  | bin {n : ℕ} (s : List UInt8) : Readable n (.bin s)
  | str {n : ℕ} {s : List UInt8} (h : s.length ≤ intMax) : Readable n (.str s)
  | arr {n : ℕ} {ms : List Msg} (h : ∀ m ∈ ms, Readable n m) : Readable (n + 1) (.arr ms)
  | map {n : ℕ} {kvs : List (List UInt8 × Msg)} (hkeys : ∀ kv ∈ kvs, kv.1.length ≤ intMax)
      (h : ∀ kv ∈ kvs, Readable n kv.2) : Readable (n + 1) (.map kvs)

theorem header_length {fixTag fixLim : ℕ} {tags : List (UInt8 × ℕ)}
    (h : Msg.Header fixTag fixLim tags n s r) : r.length < s.length := by
  cases h with
  | fix => exact Nat.lt_succ_self _
  | wide =>
    rw [List.length_cons, List.length_append]
    omega

theorem chain_length {ms : List Msg}
    (hms : ∀ m ∈ ms, ∀ s r, Msg.Wire m s r → r.length < s.length) (h : Msg.Chain Msg.Wire ms s r) :
    ms.length + r.length ≤ s.length := by
  induction h with
  | nil => simp
  | cons head tail ih =>
    have hhead := hms _ List.mem_cons_self _ _ head
    have htail := ih fun m hm => hms m (List.mem_cons_of_mem _ hm)
    rw [List.length_cons]
    omega

theorem entries_length {kvs : List (List UInt8 × Msg)}
    (hkvs : ∀ kv ∈ kvs, ∀ s r, Msg.Wire kv.2 s r → r.length < s.length)
    (h : Msg.Entries Msg.Wire kvs s r) : kvs.length + r.length ≤ s.length := by
  induction h with
  | nil => simp
  | cons key val tail ih =>
    have hkey := header_length key
    have hval := hkvs _ List.mem_cons_self _ _ val
    have htail := ih fun kv hkv => hkvs kv (List.mem_cons_of_mem _ hkv)
    rw [List.length_append] at hkey
    rw [List.length_cons]
    omega

/-- An encoding is not empty. -/
theorem wire_length {m : Msg} (hm : Readable n m) (h : Msg.Wire m s r) : r.length < s.length := by
  induction n generalizing m s r with
  | zero =>
    cases h with
    | arr | map => cases hm
    | str h | bin h =>
      have := header_length h
      rw [List.length_append] at this
      omega
    | _ =>
      simp
      try omega
  | succ n ih =>
    cases h with
    | arr h elems =>
      cases hm with
      | arr hms =>
        have := header_length h
        have := chain_length (fun m hm s r => ih (hms m hm)) elems
        omega
    | map h entries =>
      cases hm with
      | map hkeys hkvs =>
        have := header_length h
        have := entries_length (fun kv hkv s r => ih (hkvs kv hkv)) entries
        omega
    | str h | bin h =>
      have := header_length h
      rw [List.length_append] at this
      omega
    | _ =>
      simp
      try omega

theorem mpDecodeArray_yields {ms : List Msg}
    (hms : ∀ m ∈ ms, ∀ s r, Msg.Wire m s r → decode.Yields s (image m) r)
    (h : Msg.Chain Msg.Wire ms s r) :
    (mpDecodeArray decode ms.length).Yields s (imageAll ms) r := by
  induction h with
  | nil => exact Yields.pure
  | cons head tail ih =>
    apply Yields.bind (hms _ List.mem_cons_self _ _ head)
    apply Yields.bind (ih fun m hm => hms m (List.mem_cons_of_mem _ hm))
    exact Yields.pure

theorem mpDecodeMap_yields {kvs : List (List UInt8 × Msg)}
    (hkeys : ∀ kv ∈ kvs, ∀ s r, Msg.Wire (.str kv.1) s r → decode.Yields s (image (.str kv.1)) r)
    (hvals : ∀ kv ∈ kvs, ∀ s r, Msg.Wire kv.2 s r → decode.Yields s (image kv.2) r)
    (h : Msg.Entries Msg.Wire kvs s r) (d : Dict Exp) :
    (mpDecodeMap decode kvs.length d).Yields s
      (.dict ((imageEntries kvs).foldl (fun d kv => d.set kv.1 kv.2) d)) r := by
  induction h generalizing d with
  | nil => exact Yields.pure
  | cons key val tail ih =>
    apply Yields.bind (hkeys _ List.mem_cons_self _ _ (.str key))
    apply Yields.bind (hvals _ List.mem_cons_self _ _ val)
    exact ih (fun kv hkv => hkeys kv (List.mem_cons_of_mem _ hkv))
      (fun kv hkv => hvals kv (List.mem_cons_of_mem _ hkv)) _

theorem mpDecodeUint_yields {v : ℕ} (h : v < 256 ^ nb) :
    (mpDecodeUint nb).Yields (putBe nb v ++ r) (ofInt v) r := by
  apply Yields.bind (mpGetField_yields h)
  by_cases hfits : fixFits v
  · have hbound : nb < 8 ∨ v ≤ 2 ^ 63 - 1 := by
      have := (fixFits_iff.mp hfits).2
      exact .inr (by omega)
    rw [if_pos ⟨hbound, hfits⟩, ofInt, if_pos hfits]
    exact Yields.pure
  · have hdouble : doubleOfInt v = doubleOfNat v := if_neg (by omega)
    rw [if_neg fun h => hfits h.2, ofInt, if_neg hfits, hdouble]
    exact Yields.pure

theorem mpDecodeSint_yields {v : ℤ} (hnb : nb ∈ [1, 2, 4, 8]) (hlo : -(256 ^ nb / 2) ≤ v)
    (hhi : v < 256 ^ nb / 2) :
    (mpDecodeSint nb).Yields (putBe nb (v % 256 ^ nb).toNat ++ r) (ofInt v) r := by
  have hfield : (v % 256 ^ nb).toNat < 256 ^ nb ∧
      sext (v % 256 ^ nb).toNat nb = v := by
    rw [sext_eq hnb]
    have hcases : nb = 1 ∨ nb = 2 ∨ nb = 4 ∨ nb = 8 := by simpa using hnb
    rcases hcases with rfl | rfl | rfl | rfl <;>
      · simp only [Int.bmod_def]
        omega
  apply Yields.bind (mpGetField_yields hfield.1)
  rw [hfield.2]
  exact Yields.pure

theorem mpDecodeStr_yields {x : List UInt8} (h : x.length < 256 ^ nb) (hx : x.length ≤ intMax) :
    (mpDecodeStr nb).Yields (putBe nb x.length ++ (x ++ r)) (.string (CStr.ofBytes x)) r := by
  apply Yields.bind (mpGetLength_yields h (by simp))
  rw [if_neg (by omega)]
  apply Yields.bind (mpTake_yields x r)
  exact Yields.pure

theorem mpDecodeBin_yields {x : List UInt8} (h : x.length < 256 ^ nb) :
    (mpDecodeBin nb).Yields (putBe nb x.length ++ (x ++ r)) (.blob x) r := by
  apply Yields.bind (mpGetLength_yields h (by simp))
  apply Yields.bind (mpTake_yields x r)
  exact Yields.pure

/-- The tag of a short form passes the tests for its class and for no earlier one. -/
theorem fixstr_tag : ∀ n < 32, ¬ UInt8.ofNat (0xa0 + n) ≤ 0x7f ∧ ¬ 0xe0 ≤ UInt8.ofNat (0xa0 + n) ∧
    UInt8.ofNat (0xa0 + n) &&& 0xe0 = 0xa0 ∧ (UInt8.ofNat (0xa0 + n) &&& 0x1f).toNat = n := by
  decide +kernel

theorem fixarray_tag : ∀ n < 16, ¬ UInt8.ofNat (0x90 + n) ≤ 0x7f ∧ ¬ 0xe0 ≤ UInt8.ofNat (0x90 + n) ∧
    ¬ UInt8.ofNat (0x90 + n) &&& 0xe0 = 0xa0 ∧ UInt8.ofNat (0x90 + n) &&& 0xf0 = 0x90 ∧
      (UInt8.ofNat (0x90 + n) &&& 0x0f).toNat = n := by
  decide +kernel

theorem fixmap_tag : ∀ n < 16, ¬ UInt8.ofNat (0x80 + n) ≤ 0x7f ∧ ¬ 0xe0 ≤ UInt8.ofNat (0x80 + n) ∧
    ¬ UInt8.ofNat (0x80 + n) &&& 0xe0 = 0xa0 ∧ ¬ UInt8.ofNat (0x80 + n) &&& 0xf0 = 0x90 ∧
      UInt8.ofNat (0x80 + n) &&& 0xf0 = 0x80 ∧ (UInt8.ofNat (0x80 + n) &&& 0x0f).toNat = n := by
  decide +kernel

theorem fixint_tag : (∀ n < 128, UInt8.ofNat n ≤ 0x7f ∧ (UInt8.ofNat n).toNat = n) ∧
    ∀ n < 33, 0 < n → ¬ UInt8.ofNat (256 - n) ≤ 0x7f ∧ 0xe0 ≤ UInt8.ofNat (256 - n) ∧
      (UInt8.ofNat (256 - n)).toNat = 256 - n := by
  decide +kernel

/-- **The body of the decoder reads every encoding**, if the nested call reads those of the messages
inside. -/
theorem mpDecodeTag_yields {m : Msg} {c : UInt8} (hm : Readable n m)
    (hrec : ∀ k m s r, n = k + 1 → Readable k m → Msg.Wire m s r → decode.Yields s (image m) r)
    (h : Msg.Wire m (c :: s) r) : (mpDecodeTag decode c).Yields s (image m) r := by
  cases h with
  | nil | false | true => exact Yields.pure
  | positive h =>
    obtain ⟨hle, hval⟩ := fixint_tag.1 _ h
    rw [mpDecodeTag, if_pos hle, hval, image, ofInt_of_fits (by constructor <;> omega)]
    exact Yields.pure
  | @negative n _ h0 h =>
    obtain ⟨hgt, hle, hval⟩ := fixint_tag.2 _ (by omega) h0
    have hneg : ((256 - n : ℕ) : ℤ) - 256 = -(n : ℤ) := by omega
    rw [mpDecodeTag, if_neg hgt, if_pos hle, hval, hneg, image,
      ofInt_of_fits (by constructor <;> omega)]
    exact Yields.pure
  | uint htag h =>
    simp only [Msg.uintTags, List.mem_cons, Prod.mk.injEq, List.not_mem_nil, or_false] at htag
    rcases htag with ⟨rfl, rfl⟩ | ⟨rfl, rfl⟩ | ⟨rfl, rfl⟩ | ⟨rfl, rfl⟩ <;>
      exact mpDecodeUint_yields h
  | sint htag hlo hhi =>
    have hnb := widths_of_sintTags htag
    simp only [Msg.sintTags, List.mem_cons, Prod.mk.injEq, List.not_mem_nil, or_false] at htag
    rcases htag with ⟨rfl, rfl⟩ | ⟨rfl, rfl⟩ | ⟨rfl, rfl⟩ | ⟨rfl, rfl⟩ <;>
      exact mpDecodeSint_yields hnb hlo hhi
  | @float32 bits =>
    have hy := Yields.map (g := fun bits => Exp.float (doubleOfFloat (UInt32.ofNat bits)))
      (mpGetField_yields (r := r) (show bits.toNat < 256 ^ 4 from bits.toNat_lt))
    rw [UInt32.ofNat_toNat] at hy
    exact hy
  | @float64 bits =>
    have hy := Yields.map (g := fun bits => Exp.float (UInt64.ofNat bits))
      (mpGetField_yields (r := r) (show bits.toNat < 256 ^ 8 from bits.toNat_lt))
    rw [UInt64.ofNat_toNat] at hy
    exact hy
  | str h =>
    cases hm with
    | str hx =>
      cases h with
      | fix hlt =>
        obtain ⟨h1, h2, h3, h4⟩ := fixstr_tag _ hlt
        rw [mpDecodeTag, if_neg h1, if_neg h2, if_pos h3, h4]
        apply Yields.bind (Yields.need (by simp))
        apply Yields.bind (mpTake_yields _ _)
        exact Yields.pure
      | wide htag hlt =>
        simp only [List.mem_cons, Prod.mk.injEq, List.not_mem_nil, or_false] at htag
        rcases htag with ⟨rfl, rfl⟩ | ⟨rfl, rfl⟩ | ⟨rfl, rfl⟩ <;> exact mpDecodeStr_yields hlt hx
  | bin h =>
    cases h with
    | fix hlt => omega
    | wide htag hlt =>
      simp only [List.mem_cons, Prod.mk.injEq, List.not_mem_nil, or_false] at htag
      rcases htag with ⟨rfl, rfl⟩ | ⟨rfl, rfl⟩ | ⟨rfl, rfl⟩ <;> exact mpDecodeBin_yields hlt
  | @arr ms _ t _ h elems =>
    cases hm with
    | arr hms =>
      have hys : (Exp.ofList <$> mpDecodeArray decode ms.length).Yields t (image (.arr ms)) r :=
        Yields.map (mpDecodeArray_yields (fun m hm s r => hrec _ m s r rfl (hms m hm)) elems)
      have hlen : ms.length ≤ t.length := by
        have := chain_length (fun m hm s r => wire_length (hms m hm)) elems
        omega
      cases h with
      | fix hlt =>
        obtain ⟨h1, h2, h3, h4, h5⟩ := fixarray_tag _ hlt
        rw [mpDecodeTag, if_neg h1, if_neg h2, if_neg h3, if_pos h4, h5]
        exact hys
      | wide htag hlt =>
        simp only [List.mem_cons, Prod.mk.injEq, List.not_mem_nil, or_false] at htag
        rcases htag with ⟨rfl, rfl⟩ | ⟨rfl, rfl⟩ <;>
          exact Yields.bind (mpGetLength_yields hlt hlen) hys
  | @map kvs _ t _ h entries =>
    cases hm with
    | map hkeys hkvs =>
      have hys : (mpDecodeMap decode kvs.length Dict.create).Yields t (image (.map kvs)) r :=
        mpDecodeMap_yields (fun kv hkv s r => hrec _ _ s r rfl (.str (hkeys kv hkv)))
          (fun kv hkv s r => hrec _ _ s r rfl (hkvs kv hkv)) entries Dict.create
      have hlen : kvs.length ≤ t.length := by
        have := entries_length (fun kv hkv s r => wire_length (hkvs kv hkv)) entries
        omega
      cases h with
      | fix hlt =>
        obtain ⟨h1, h2, h3, h4, h5, h6⟩ := fixmap_tag _ hlt
        rw [mpDecodeTag, if_neg h1, if_neg h2, if_neg h3, if_neg h4, if_pos h5, h6]
        exact hys
      | wide htag hlt =>
        simp only [List.mem_cons, Prod.mk.injEq, List.not_mem_nil, or_false] at htag
        rcases htag with ⟨rfl, rfl⟩ | ⟨rfl, rfl⟩ <;>
          exact Yields.bind (mpGetLength_yields hlt hlen) hys

/-- **The decoder reads every encoding that is not nested too deep** and returns its image. -/
theorem mpDecode_yields {fuel depth : ℕ} {m : Msg} (hm : Readable n m)
    (hdepth : depth + n ≤ mpMaxDepth) (hfuel : n < fuel) (h : Msg.Wire m s r) :
    (mpDecode fuel depth).Yields s (image m) r := by
  induction fuel generalizing depth n m s r with
  | zero => omega
  | succ fuel ih =>
    have hlen := wire_length hm h
    unfold mpDecode
    rw [if_neg (by omega)]
    cases s with
    | nil => simp at hlen
    | cons c s =>
      apply Yields.bind (Yields.avail 1 (c :: s))
      rw [decide_eq_true (by simp), if_pos rfl]
      apply Yields.bind Yields.next
      apply mpDecodeTag_yields hm _ h
      rintro k m s r rfl hk
      exact ih hk (by omega) (by omega)

end Alcove.Msgpack
