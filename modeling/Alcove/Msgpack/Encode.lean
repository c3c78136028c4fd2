import Alcove.Msgpack.Decode

/-!
# The MessagePack encoder

`mp_encode` of `msgpack.h`: the bytes it appends to the buffer, or failure. `room` is what is left of
`mpMaxDepth` for nested calls. Encoding and decoding give the value back up to what the format does
not keep apart (`Image`): the shapes of nil, symbols and strings, chars and fixnums, and the order of
a dict's table.

**Main result:** `msgpack_roundTrip`.
-/

namespace Alcove.Msgpack

open Lib Cursor

/-- `mp_put_sized` -/
def mpPutSized (fixmask fixlim : ℕ) (tag8 tag16 tag32 : UInt8) (n : ℕ) : Option (List UInt8) :=
  if fixlim ≠ 0 ∧ n < fixlim then some [UInt8.ofNat (fixmask ||| n)]
  else if tag8 ≠ 0 ∧ n ≤ 0xff then some (tag8 :: putBe 1 n)
  else if n ≤ 0xffff then some (tag16 :: putBe 2 n)
  else if 0xffffffff < n then none
  else some (tag32 :: putBe 4 n)

/-- `(uint64_t)n` -/
def toUint64 (n : ℤ) : ℕ := (n % 2 ^ 64).toNat

/-- `mp_encode_int` -/
def mpEncodeInt (n : ℤ) : List UInt8 :=
  if 0 ≤ n then
    if n < 128 then [UInt8.ofNat (toUint64 n)]
    else if n ≤ 0xff then 0xcc :: putBe 1 (toUint64 n)
    else if n ≤ 0xffff then 0xcd :: putBe 2 (toUint64 n)
    else if n ≤ 0xffffffff then 0xce :: putBe 4 (toUint64 n)
    else 0xd3 :: putBe 8 (toUint64 n)
  else if -32 ≤ n then [UInt8.ofNat (toUint64 n)]
  else if -128 ≤ n then 0xd0 :: putBe 1 (toUint64 n)
  else if -32768 ≤ n then 0xd1 :: putBe 2 (toUint64 n)
  else if -2147483648 ≤ n then 0xd2 :: putBe 4 (toUint64 n)
  else 0xd3 :: putBe 8 (toUint64 n)

/-- `mp_encode_strlen`, then the bytes. -/
def mpEncodeStr (text : CStr) : Option (List UInt8) := do
  let h ← mpPutSized 0xa0 32 0xd9 0xda 0xdb text.length
  return h ++ text.bytes

/-- The encodings of the elements of a list, as far as none fails. -/
def mpEncodeAll (encode : Exp → Option (List UInt8)) : List Exp → Option (List UInt8)
  | [] => some []
  | v :: vs => do
    let x ← encode v
    let xs ← mpEncodeAll encode vs
    return x ++ xs

/-- The encodings of the keys and values of a dict. -/
def mpEncodeEntries (encode : Exp → Option (List UInt8)) : List (CStr × Exp) → Option (List UInt8)
  | [] => some []
  | (key, val) :: kvs => do
    let k ← mpEncodeStr key
    let x ← encode val
    let xs ← mpEncodeEntries encode kvs
    return k ++ x ++ xs

/-- `mp_encode_1`, over the nested `mp_encode`. -/
def mpEncode1 (encode : Exp → Option (List UInt8)) : Exp → Option (List UInt8)
  | .null | .nil => some [0xc0]
  | .t => some [0xc3]
  | .fix n => some (mpEncodeInt n.1)
  | .char c => some (mpEncodeInt c.toNat)
  | .float bits => some (0xcb :: putBe 8 bits.toNat)
  | .string text | .symbol text => mpEncodeStr text
  | .blob bytes => do
    let h ← mpPutSized 0 0 0xc4 0xc5 0xc6 bytes.length
    return h ++ bytes
  | .pair content next => do
    let els := (Exp.pair content next).elems
    let h ← mpPutSized 0x90 16 0 0xdc 0xdd els.length
    let xs ← mpEncodeAll encode els
    return h ++ xs
  | .dict d => do
    let h ← mpPutSized 0x80 16 0 0xde 0xdf d.used
    let xs ← mpEncodeEntries encode d.entries
    return h ++ xs
  | _ => none

/-- `mp_encode`, with `room` for that many nested calls. -/
def mpEncode : ℕ → Exp → Option (List UInt8)
  | 0, _ => none
  | room + 1, v => mpEncode1 (mpEncode room) v

/-- `msgpack-encode`: the bytes of the blob. -/
def msgpackencodecmd (v : Exp) : Option (List UInt8) := mpEncode mpMaxDepth v

/-! ## The values of the codec -/

/-- A value built from nil, t, fixnums, floats, strings, symbols, chars, blobs, proper lists and dicts,
with texts and blobs below `2 ^ 31` bytes; no element of a list is the NULL pointer. -/
inductive Plain : Exp → Prop
  | null : Plain .null
  | nil : Plain .nil
  | t : Plain .t
  | fix (n : Fixnum) : Plain (.fix n)
  | char (c : UInt32) : Plain (.char c)
  | float (bits : UInt64) : Plain (.float bits)
  | string {text : CStr} (h : text.length ≤ intMax) : Plain (.string text)
  | symbol {text : CStr} (h : text.length ≤ intMax) : Plain (.symbol text)
  | blob {bytes : List UInt8} (h : bytes.length ≤ intMax) : Plain (.blob bytes)
  | list {xs : List Exp} {tail : Exp} (hne : xs ≠ []) (hnull : ∀ x ∈ xs, x ≠ .null)
      (htail : tail = .null ∨ tail = .nil) (h : ∀ x ∈ xs, Plain x) : Plain (.cells tail xs)
  | dict {d : Dict Exp} (hok : d.Ok) (hkeys : ∀ kv ∈ d.entries, kv.1.length ≤ intMax)
      (h : ∀ kv ∈ d.entries, Plain kv.2) : Plain (.dict d)

/-- **The documented image of a value**: same shape, with symbols as strings, chars as fixnums and one
shape of nil. -/
inductive Image : Exp → Exp → Prop
  | null : Image .null .nil
  | nil : Image .nil .nil
  | t : Image .t .t
  | fix (n : Fixnum) : Image (.fix n) (.fix n)
  | char (c : UInt32) : Image (.char c) (.fix (makeFix c.toNat))
  | float (bits : UInt64) : Image (.float bits) (.float bits)
  | string (text : CStr) : Image (.string text) (.string text)
  | symbol (text : CStr) : Image (.symbol text) (.string text)
  | blob (bytes : List UInt8) : Image (.blob bytes) (.blob bytes)
  | list {xs ys : List Exp} {tail : Exp} (htail : tail = .null ∨ tail = .nil)
      (h : List.Forall₂ Image xs ys) : Image (.cells tail xs) (.cells .null ys)
  | dict {d d' : Dict Exp} (hused : d'.used = d.used)
      (h : ∀ key, Option.Rel Image (d.find key) (d'.find key)) : Image (.dict d) (.dict d')

/-- More than `room` levels are nested in the value: itself and each value inside count as one. -/
inductive DeepIn : ℕ → Exp → Prop
  | here {v : Exp} : DeepIn 0 v
  | elem {n : ℕ} {x v : Exp} (hx : x ∈ v.elems) (h : DeepIn n x) : DeepIn (n + 1) v
  | entry {n : ℕ} {kv : CStr × Exp} {d : Dict Exp} (hkv : kv ∈ d.entries) (h : DeepIn n kv.2) :
      DeepIn (n + 1) (.dict d)

/-- A list or a dict of `2 ^ 32` or more elements is inside the value. -/
inductive Wide : Exp → Prop
  | list {v : Exp} (h : 2 ^ 32 ≤ v.elems.length) : Wide v
  | dict {d : Dict Exp} (h : 2 ^ 32 ≤ d.used) : Wide (.dict d)
  | elem {x v : Exp} (hx : x ∈ v.elems) (h : Wide x) : Wide v
  | entry {kv : CStr × Exp} {d : Dict Exp} (hkv : kv ∈ d.entries) (h : Wide kv.2) : Wide (.dict d)

/-! ## Headers and integers -/

variable {fixmask fixlim n : ℕ} {tag8 tag16 tag32 : UInt8} {tags : List (UInt8 × ℕ)}
  {bytes : List UInt8}

/-- A length is written in a width that holds it. -/
theorem mpPutSized_header (hfix : ∀ n < fixlim, fixmask ||| n = fixmask + n)
    (h8 : tag8 ≠ 0 → (tag8, 1) ∈ tags) (h16 : (tag16, 2) ∈ tags) (h32 : (tag32, 4) ∈ tags)
    (h : mpPutSized fixmask fixlim tag8 tag16 tag32 n = some bytes) (r : List UInt8) :
    Msg.Header fixmask fixlim tags n (bytes ++ r) r := by
  unfold mpPutSized at h
  split at h
  · next hlt =>
    cases h
    rw [hfix n hlt.2]
    exact .fix hlt.2
  split at h
  · next h1 =>
    cases h
    exact .wide (h8 h1.1) (by omega)
  split at h
  · cases h
    exact .wide h16 (by omega)
  split at h
  · cases h
  · cases h
    exact .wide h32 (by omega)

/-- Only a length of `2 ^ 32` or more has no width. -/
theorem mpPutSized_none (h : mpPutSized fixmask fixlim tag8 tag16 tag32 n = none) : 2 ^ 32 ≤ n := by
  unfold mpPutSized at h
  split at h
  · cases h
  split at h
  · cases h
  split at h
  · cases h
  split at h
  · omega
  · cases h

theorem mpEncodeStr_header {text : CStr} (h : mpEncodeStr text = some bytes) (r : List UInt8) :
    Msg.StrHeader text.bytes.length (bytes ++ r) (text.bytes ++ r) := by
  obtain ⟨hd, hhd, hbytes⟩ := Option.bind_eq_some_iff.mp h
  cases hbytes
  rw [List.append_assoc]
  exact mpPutSized_header (by decide) (by simp) (by simp) (by simp) hhd _

theorem mpEncodeStr_none {text : CStr} (h : mpEncodeStr text = none) : 2 ^ 32 ≤ text.length := by
  cases hp : mpPutSized 0xa0 32 0xd9 0xda 0xdb text.length with
  | none => exact mpPutSized_none hp
  | some hd => simp [mpEncodeStr, hp] at h

theorem putBe_mod (w v : ℕ) : putBe w (v % 256 ^ w) = putBe w v := by
  conv_rhs => rw [← Nat.div_add_mod' v (256 ^ w), putBe_add]

theorem putBe_toUint64 {w : ℕ} (hw : w ∈ [1, 2, 4, 8]) (v : ℤ) :
    putBe w (toUint64 v) = putBe w (v % 256 ^ w).toNat := by
  have hmod : toUint64 v % 256 ^ w = (v % 256 ^ w).toNat := by
    unfold toUint64
    have hcases : w = 1 ∨ w = 2 ∨ w = 4 ∨ w = 8 := by simpa using hw
    rcases hcases with rfl | rfl | rfl | rfl <;> omega
  rw [← putBe_mod, hmod]

/-- An unsigned field holds a number of its width. -/
theorem wire_uint {tag : UInt8} {w : ℕ} {v : ℤ} (htag : (tag, w) ∈ Msg.uintTags) (h0 : 0 ≤ v)
    (h : v < 256 ^ w) (hv : v < 2 ^ 64) (r : List UInt8) :
    Msg.Wire (.int v) (tag :: putBe w (toUint64 v) ++ r) r := by
  obtain ⟨k, rfl⟩ := Int.eq_ofNat_of_zero_le h0
  have hk : toUint64 k = k := by
    unfold toUint64
    omega
  rw [hk]
  exact .uint htag (by exact_mod_cast h)

/-- So does a signed field. -/
theorem wire_sint {tag : UInt8} {w : ℕ} {v : ℤ} (htag : (tag, w) ∈ Msg.sintTags)
    (hlo : -(256 ^ w / 2) ≤ v) (hhi : v < 256 ^ w / 2) (r : List UInt8) :
    Msg.Wire (.int v) (tag :: putBe w (toUint64 v) ++ r) r := by
  rw [putBe_toUint64 (widths_of_sintTags htag)]
  exact .sint htag hlo hhi

/-- **An integer is written in a width that holds it.** -/
theorem mpEncodeInt_wire {v : ℤ} (hv : Fits 64 v) (r : List UInt8) :
    Msg.Wire (.int v) (mpEncodeInt v ++ r) r := by
  obtain ⟨hlo, hhi⟩ := hv
  unfold mpEncodeInt
  split
  · split
    · obtain ⟨k, rfl⟩ := Int.eq_ofNat_of_zero_le ‹0 ≤ v›
      have hk : toUint64 k = k := by
        unfold toUint64
        omega
      rw [hk]
      exact .positive (by omega)
    split
    · exact wire_uint (by simp [Msg.uintTags]) ‹_› (by omega) (by omega) r
    split
    · exact wire_uint (by simp [Msg.uintTags]) ‹_› (by omega) (by omega) r
    split
    · exact wire_uint (by simp [Msg.uintTags]) ‹_› (by omega) (by omega) r
    · exact wire_sint (by simp [Msg.sintTags]) (by omega) (by omega) r
  · split
    · have hneg : v = -(((-v).toNat : ℕ) : ℤ) := by omega
      have hbyte : UInt8.ofNat (toUint64 v) = UInt8.ofNat (256 - (-v).toNat) := by
        apply UInt8.toNat_inj.mp
        rw [UInt8.toNat_ofNat', UInt8.toNat_ofNat']
        unfold toUint64
        omega
      rw [hbyte]
      nth_rewrite 1 [hneg]
      exact .negative (by omega) (by omega)
    split
    · exact wire_sint (by simp [Msg.sintTags]) (by omega) (by omega) r
    split
    · exact wire_sint (by simp [Msg.sintTags]) (by omega) (by omega) r
    split
    · exact wire_sint (by simp [Msg.sintTags]) (by omega) (by omega) r
    · exact wire_sint (by simp [Msg.sintTags]) (by omega) (by omega) r

/-! ## An encoding decodes to the image -/

/-- The bytes are an encoding of a message of at most `k` levels that decodes to an image of `v`. -/
def Encodes (k : ℕ) (v : Exp) (bytes : List UInt8) : Prop :=
  ∃ m, Readable k m ∧ Image v (image m) ∧ ∀ r, Msg.Wire m (bytes ++ r) r

variable {encode : Exp → Option (List UInt8)} {k : ℕ}

theorem mpEncodeAll_wire {vs : List Exp} (hvs : ∀ v ∈ vs, ∀ b, encode v = some b → Encodes k v b)
    (h : mpEncodeAll encode vs = some bytes) :
    ∃ ms, ms.length = vs.length ∧ (∀ m ∈ ms, Readable k m) ∧
      List.Forall₂ Image vs (imageAll ms) ∧ ∀ r, Msg.Chain Msg.Wire ms (bytes ++ r) r := by
  induction vs generalizing bytes with
  | nil =>
    cases h
    exact ⟨[], rfl, by simp, .nil, fun r => .nil⟩
  | cons v vs ih =>
    obtain ⟨x, hx, h⟩ := Option.bind_eq_some_iff.mp h
    obtain ⟨xs, hxs, h⟩ := Option.bind_eq_some_iff.mp h
    cases h
    obtain ⟨m, hm, himg, hw⟩ := hvs v List.mem_cons_self x hx
    obtain ⟨ms, hlen, hms, himgs, hws⟩ := ih (fun v hv => hvs v (List.mem_cons_of_mem _ hv)) hxs
    refine ⟨m :: ms, by rw [List.length_cons, hlen, List.length_cons], ?_, .cons himg himgs, ?_⟩
    · intro m' hm'
      rcases List.mem_cons.mp hm' with rfl | hm'
      · exact hm
      · exact hms m' hm'
    · intro r
      rw [List.append_assoc]
      exact .cons (hw _) (hws r)

theorem mpEncodeEntries_wire {es : List (CStr × Exp)} (hkeys : ∀ e ∈ es, e.1.length ≤ intMax)
    (hes : ∀ e ∈ es, ∀ b, encode e.2 = some b → Encodes k e.2 b)
    (h : mpEncodeEntries encode es = some bytes) :
    ∃ kvs, kvs.length = es.length ∧ (∀ kv ∈ kvs, kv.1.length ≤ intMax) ∧
      (∀ kv ∈ kvs, Readable k kv.2) ∧ Dict.RelEntries Image es (imageEntries kvs) ∧
        ∀ r, Msg.Entries Msg.Wire kvs (bytes ++ r) r := by
  induction es generalizing bytes with
  | nil =>
    cases h
    exact ⟨[], rfl, by simp, by simp, .nil, fun r => .nil⟩
  | cons e es ih =>
    obtain ⟨key, val⟩ := e
    obtain ⟨kb, hkb, h⟩ := Option.bind_eq_some_iff.mp h
    obtain ⟨x, hx, h⟩ := Option.bind_eq_some_iff.mp h
    obtain ⟨xs, hxs, h⟩ := Option.bind_eq_some_iff.mp h
    cases h
    have hkey : key.bytes.length ≤ intMax := hkeys _ List.mem_cons_self
    obtain ⟨m, hm, himg, hw⟩ := hes _ List.mem_cons_self x hx
    obtain ⟨kvs, hlen, hks, hms, hrel, hws⟩ := ih (fun e he => hkeys e (List.mem_cons_of_mem _ he))
      (fun e he => hes e (List.mem_cons_of_mem _ he)) hxs
    refine ⟨(key.bytes, m) :: kvs, by rw [List.length_cons, hlen, List.length_cons], ?_, ?_,
      .cons ⟨(CStr.ofBytes_bytes key).symm, himg⟩ hrel, ?_⟩
    · simpa [hkey] using hks
    · simpa [hm] using hms
    · intro r
      rw [List.append_assoc, List.append_assoc]
      exact .cons (mpEncodeStr_header hkb _) (by simpa using hw _) (hws r)

theorem encodes_str {text : CStr} (htext : text.length ≤ intMax)
    (h : mpEncodeStr text = some bytes) :
    ∃ m, Readable k m ∧ image m = .string text ∧ ∀ r, Msg.Wire m (bytes ++ r) r :=
  ⟨.str text.bytes, .str htext, by rw [image, CStr.ofBytes_bytes],
    fun r => .str (mpEncodeStr_header h r)⟩

theorem fixnum_fits (n : Fixnum) : Fits 64 n.1 := by
  obtain ⟨v, hlo, hhi⟩ := n
  constructor <;> simp only <;> omega

/-- The list of the loop over a proper list of the codec. -/
theorem elems_list {xs : List Exp} {tail : Exp} (hne : xs ≠ []) (hnull : ∀ x ∈ xs, x ≠ .null)
    (htail : tail = .null ∨ tail = .nil) :
    mpEncode1 encode (.cells tail xs) = (mpPutSized 0x90 16 0 0xdc 0xdd xs.length).bind fun h =>
      (mpEncodeAll encode xs).bind fun els => some (h ++ els) := by
  have helems := Exp.elems_cells hnull htail
  cases xs with
  | nil => exact absurd rfl hne
  | cons x xs =>
    rw [Exp.cells] at helems ⊢
    simp only [mpEncode1, helems]
    rfl

/-- **What is encoded can be decoded.** -/
theorem mpEncode_encodes {room : ℕ} {v : Exp} (hv : Plain v) (h : mpEncode room v = some bytes) :
    Encodes room v bytes := by
  induction room generalizing v bytes with
  | zero => cases h
  | succ room ih =>
    cases hv with
    | null =>
      cases h
      exact ⟨.nil, .nil, .null, fun r => .nil⟩
    | nil =>
      cases h
      exact ⟨.nil, .nil, .nil, fun r => .nil⟩
    | t =>
      cases h
      exact ⟨.bool true, .bool true, .t, fun r => .true⟩
    | fix n =>
      cases h
      refine ⟨.int n.1, .int n.1, ?_, mpEncodeInt_wire (fixnum_fits n)⟩
      rw [image, ofInt, if_pos (fixFits_fixnum n), makeFix_fixnum]
      exact .fix n
    | char c =>
      rw [mpEncode, mpEncode1, Option.some.injEq] at h
      subst h
      have hc : c.toNat < 2 ^ 32 := c.toNat_lt
      refine ⟨.int c.toNat, .int c.toNat, ?_, mpEncodeInt_wire (by constructor <;> omega)⟩
      rw [image, ofInt_of_fits (by constructor <;> omega)]
      exact .char c
    | float bits =>
      cases h
      exact ⟨.float64 bits, .float64 bits, .float bits, fun r => .float64⟩
    | string htext =>
      obtain ⟨m, hm, himg, hw⟩ := encodes_str htext h
      exact ⟨m, hm, himg ▸ .string _, hw⟩
    | symbol htext =>
      obtain ⟨m, hm, himg, hw⟩ := encodes_str htext h
      exact ⟨m, hm, himg ▸ .symbol _, hw⟩
    | blob hbytes =>
      obtain ⟨hd, hhd, h⟩ := Option.bind_eq_some_iff.mp h
      cases h
      refine ⟨.bin _, .bin _, .blob _, fun r => .bin ?_⟩
      rw [List.append_assoc]
      exact mpPutSized_header (by simp) (by simp) (by simp) (by simp) hhd _
    | @list xs tail hne hnull htail hxs =>
      rw [mpEncode, elems_list hne hnull htail] at h
      obtain ⟨hd, hhd, h⟩ := Option.bind_eq_some_iff.mp h
      obtain ⟨els, hels, h⟩ := Option.bind_eq_some_iff.mp h
      cases h
      obtain ⟨ms, hlen, hms, himg, hw⟩ := mpEncodeAll_wire (fun x hx b => ih (hxs x hx)) hels
      have hne' : imageAll ms ≠ [] := by
        rintro hnil
        rw [hnil, List.forall₂_nil_right_iff] at himg
        exact hne himg
      refine ⟨.arr ms, .arr hms, ?_, fun r => .arr (t := els ++ r) ?_ (hw r)⟩
      · rw [image, Exp.ofList_of_ne_nil hne']
        exact .list htail himg
      · rw [List.append_assoc, hlen]
        exact mpPutSized_header (by decide) (by simp) (by simp) (by simp) hhd _
    | @dict d hok hkeys hvals =>
      obtain ⟨hd, hhd, h⟩ := Option.bind_eq_some_iff.mp h
      obtain ⟨els, hels, h⟩ := Option.bind_eq_some_iff.mp h
      cases h
      obtain ⟨kvs, hlen, hks, hms, hrel, hw⟩ :=
        mpEncodeEntries_wire hkeys (fun e he b => ih (hvals e he)) hels
      refine ⟨.map kvs, .map hks hms, ?_, fun r => .map (t := els ++ r) ?_ (hw r)⟩
      · rw [image]
        exact .dict (hok.used_ofList_rel hrel) (hok.rel_ofList hrel)
      · rw [List.append_assoc, hlen, ← hok.used_eq]
        exact mpPutSized_header (by decide) (by simp) (by simp) (by simp) hhd _

/-! ## Why an encoding fails -/

theorem mpEncodeAll_none {vs : List Exp} (h : mpEncodeAll encode vs = none) :
    ∃ v ∈ vs, encode v = none := by
  induction vs with
  | nil => cases h
  | cons v vs ih =>
    cases hv : encode v with
    | none => exact ⟨v, List.mem_cons_self, hv⟩
    | some x =>
      cases hvs : mpEncodeAll encode vs with
      | none =>
        obtain ⟨w, hw, hnone⟩ := ih hvs
        exact ⟨w, List.mem_cons_of_mem _ hw, hnone⟩
      | some xs => simp [mpEncodeAll, hv, hvs] at h

theorem mpEncodeEntries_none {es : List (CStr × Exp)} (hkeys : ∀ e ∈ es, e.1.length ≤ intMax)
    (h : mpEncodeEntries encode es = none) : ∃ e ∈ es, encode e.2 = none := by
  induction es with
  | nil => cases h
  | cons e es ih =>
    obtain ⟨key, val⟩ := e
    cases hk : mpEncodeStr key with
    | none =>
      have hlong := mpEncodeStr_none hk
      have hshort : key.length ≤ intMax := hkeys _ List.mem_cons_self
      unfold intMax at hshort
      omega
    | some kb =>
      cases hv : encode val with
      | none => exact ⟨_, List.mem_cons_self, hv⟩
      | some x =>
        cases hes : mpEncodeEntries encode es with
        | none =>
          obtain ⟨e, he, hnone⟩ := ih (fun e he => hkeys e (List.mem_cons_of_mem _ he)) hes
          exact ⟨e, List.mem_cons_of_mem _ he, hnone⟩
        | some xs => simp [mpEncodeEntries, hk, hv, hes] at h

theorem mpEncodeStr_ne_none {text : CStr} (h : text.length ≤ intMax) : mpEncodeStr text ≠ none := by
  intro hnone
  have hlong := mpEncodeStr_none hnone
  unfold intMax at h
  omega

/-- **An encoding fails on nesting and on size only.** -/
theorem mpEncode_none {room : ℕ} {v : Exp} (hv : Plain v) (h : mpEncode room v = none) :
    DeepIn room v ∨ Wide v := by
  induction room generalizing v with
  | zero => exact .inl .here
  | succ room ih =>
    cases hv with
    | null | nil | t | fix | char | float => cases h
    | string htext | symbol htext => exact absurd h (mpEncodeStr_ne_none htext)
    | @blob bytes hbytes =>
      cases hp : mpPutSized 0 0 0xc4 0xc5 0xc6 bytes.length with
      | none =>
        have hlong := mpPutSized_none hp
        unfold intMax at hbytes
        omega
      | some hd => simp [mpEncode, mpEncode1, hp] at h
    | @list xs tail hne hnull htail hxs =>
      have helems := Exp.elems_cells hnull htail
      rw [mpEncode, elems_list hne hnull htail] at h
      cases hp : mpPutSized 0x90 16 0 0xdc 0xdd xs.length with
      | none => exact .inr (.list (by rw [helems]; exact mpPutSized_none hp))
      | some hd =>
        cases hels : mpEncodeAll (mpEncode room) xs with
        | some els => simp [hp, hels] at h
        | none =>
          obtain ⟨x, hx, hnone⟩ := mpEncodeAll_none hels
          have hx' : x ∈ (Exp.cells tail xs).elems := by rwa [helems]
          rcases ih (hxs x hx) hnone with hdeep | hwide
          · exact .inl (.elem hx' hdeep)
          · exact .inr (.elem hx' hwide)
    | @dict d hok hkeys hvals =>
      cases hp : mpPutSized 0x80 16 0 0xde 0xdf d.used with
      | none => exact .inr (.dict (mpPutSized_none hp))
      | some hd =>
        cases hels : mpEncodeEntries (mpEncode room) d.entries with
        | some els => simp [mpEncode, mpEncode1, hp, hels] at h
        | none =>
          obtain ⟨e, he, hnone⟩ := mpEncodeEntries_none hkeys hels
          rcases ih (hvals e he) hnone with hdeep | hwide
          · exact .inl (.entry he hdeep)
          · exact .inr (.entry he hwide)

/-! ## Round trip -/

/-- The decoder takes the bytes of a message that is not nested too deep, all of them. -/
theorem msgpackdecodecmd_wire {m : Msg} (hm : Readable mpMaxDepth m) (h : Msg.Wire m bytes []) :
    msgpackdecodecmd bytes = some (image m) := by
  have hyields : (mpDecode (mpMaxDepth + 2) 0).Yields bytes (image m) [] :=
    mpDecode_yields hm (by decide) (by decide) h
  obtain ⟨pos, hpos, hend⟩ := hyields bytes 0 (At.start bytes)
  have hlen : pos = bytes.length := hend.eq_nil_iff.mp rfl
  rw [msgpackdecodecmd, hpos]
  exact if_pos hlen

/-- **MessagePack round trip.** An encoding fails only because more than `mpMaxDepth` levels are nested
or because a list or dict has `2 ^ 32` or more elements; else it is a message of the format, with
every integer and length in a width that holds it, and decodes to the image of the value. -/
theorem msgpack_roundTrip {v : Exp} (hv : Plain v) :
    (msgpackencodecmd v = none ∧ (DeepIn mpMaxDepth v ∨ Wide v)) ∨
      ∃ bytes m, msgpackencodecmd v = some bytes ∧ Msg.Wire m bytes [] ∧
        msgpackdecodecmd bytes = some (image m) ∧ Image v (image m) := by
  cases h : msgpackencodecmd v with
  | none => exact .inl ⟨rfl, mpEncode_none hv h⟩
  | some bytes =>
    obtain ⟨m, hm, himg, hw⟩ := mpEncode_encodes hv h
    have hwire : Msg.Wire m bytes [] := by simpa using hw []
    exact .inr ⟨bytes, m, rfl, hwire, msgpackdecodecmd_wire hm hwire, himg⟩

/-- The list of 1 and nil: three bytes, that decode to it. -/
theorem msgpack_roundTrip_oneNil :
    ∃ bytes m, msgpackencodecmd (.cells .null [.fix (makeFix 1), .nil]) = some bytes ∧
      Msg.Wire m bytes [] ∧ msgpackdecodecmd bytes = some (image m) ∧
        Image (.cells .null [.fix (makeFix 1), .nil]) (image m) := by
  have hplain : Plain (.cells .null [.fix (makeFix 1), .nil]) := by
    apply Plain.list (by simp) (by simp) (.inl rfl)
    intro x hx
    rcases List.mem_pair.mp hx with rfl | rfl
    · exact .fix _
    · exact .nil
  have hbytes : msgpackencodecmd (.cells .null [.fix (makeFix 1), .nil]) =
      some [0x92, 1, 0xc0] := rfl
  rcases msgpack_roundTrip hplain with ⟨hnone, -⟩ | h
  · rw [hbytes] at hnone
    cases hnone
  · exact h

theorem not_deepIn_flat {v : Exp} (hv : ∀ x ∈ v.elems, x = .t) (hd : ∀ d, v ≠ .dict d) :
    ¬ DeepIn (n + 2) v := by
  intro h
  cases h with
  | elem hx h =>
    rw [hv _ hx] at h
    cases h with
    | elem hx => simp [Exp.elems] at hx
  | entry => exact hd _ rfl

/-- A list of `2 ^ 32` elements is not encoded, although only two levels are nested; and of
`(1 nil 2)` read from a quoted form, where the element is the NULL pointer, only `(1)` comes back. -/
theorem exists_not_roundTrip :
    (msgpackencodecmd (.cells .null (List.replicate (2 ^ 32) .t)) = none ∧
      ¬ DeepIn mpMaxDepth (.cells .null (List.replicate (2 ^ 32) .t))) ∧
    msgpackencodecmd (.cells .null [.fix (makeFix 1), .null, .fix (makeFix 2)]) = some [0x91, 1] ∧
      msgpackdecodecmd [0x91, 1] = some (.cells .null [.fix (makeFix 1)]) := by
  have hall : ∀ x ∈ List.replicate (2 ^ 32) Exp.t, x = .t := fun x hx => List.eq_of_mem_replicate hx
  have hnull : ∀ x ∈ List.replicate (2 ^ 32) Exp.t, x ≠ .null := fun x hx h => by
    rw [hall x hx] at h
    cases h
  have hlen : (List.replicate (2 ^ 32) Exp.t).length = 2 ^ 32 := List.length_replicate
  have hne : List.replicate (2 ^ 32) Exp.t ≠ [] := fun h => by
    rw [h] at hlen
    simp at hlen
  have hput : mpPutSized 0x90 16 0 0xdc 0xdd (2 ^ 32) = none := by decide
  refine ⟨⟨?_, fun hdeep => ?_⟩, rfl, rfl⟩
  · show mpEncode (511 + 1) _ = none
    rw [mpEncode, elems_list hne hnull (.inl rfl), hlen, hput]
    rfl
  · have helems := Exp.elems_cells hnull (.inl rfl)
    refine not_deepIn_flat (fun x hx => hall x (helems ▸ hx)) (fun d hd => ?_) hdeep
    have hpos : 0 < (Exp.dict d).elems.length := by
      rw [← hd, helems, hlen]
      decide
    simp [Exp.elems] at hpos

end Alcove.Msgpack
