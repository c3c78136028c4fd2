import Alcove.Json.RoundTrip
import Alcove.Resp.Parser

/-!
# The argument slots of a frame

`resp_parse_one` with the slots that it fills: `argv[a]` points into the buffer, `argl[a]` is a length.
The position `i` in the buffer is the number of bytes that are read, which is returned as an `int`; the
read buffer has at most 16 MB, but the function itself takes any length.

**Main results:** `parse_encode` and `slots_inside`, joined in `frame_roundTrip`. An array of strings of
fewer than `2 ^ 31` bytes is read back whatever follows it, and slots lie in the bytes that are read.
-/

namespace Alcove.Resp

open Lib

/-! ## The parser -/

/-- `argv[a]` as a distance from the start of the buffer, and `argl[a]`. -/
structure Slot where
  off : ℕ
  len : ℕ
  deriving DecidableEq

/-- The bytes of a slot. -/
def Slot.bytes (buf : Bytes) (s : Slot) : Bytes := (buf.drop s.off).take s.len

/-- `i`, in a buffer of `len` bytes -/
def pos (len : ℕ) : Parser UInt8 ℕ := fun buf => .done (len - buf.length) buf

/-- The second loop of the inline form: `p` runs over the line, `s` is where an argument starts. -/
def tokenSlots : Bytes → ℕ → Option ℕ → List Slot
  | [], _, none => []
  | [], p, some s => [⟨s, p - s⟩]
  | b :: line, p, none => tokenSlots line (p + 1) (if isBlank b then none else some p)
  | b :: line, p, some s =>
    if isBlank b then ⟨s, p - s⟩ :: tokenSlots line (p + 1) none
    else tokenSlots line (p + 1) (some s)

/-- The inline form -/
def inlineSlots (grow : ℕ → Bool) : Parser UInt8 (List Slot) := do
  let line ← Parser.line lf
  let argv := tokenSlots (stripCr line) 0 none
  Parser.check (argv.length ≤ respMaxArgs)
  Parser.check (argv.length = 0 || respArgvPoolReserve grow argv.length)
  return argv

/-- The element `a` of the array -/
def bulkSlot (grow : ℕ → Bool) (len a : ℕ) : Parser UInt8 Slot := do
  Parser.token dollar
  let blen ← number respMaxBulk 0
  let i ← pos len
  let payload ← Parser.take (blen + 2)
  Parser.check (payload.drop blen = [cr, lf])
  Parser.check (respArgvPoolReserve grow (a + 1))
  return ⟨i, blen⟩

def bulkSlots (grow : ℕ → Bool) (len : ℕ) : ℕ → ℕ → Parser UInt8 (List Slot)
  | 0, _ => return []
  | n + 1, a => do
    let arg ← bulkSlot grow len a
    let args ← bulkSlots grow len n (a + 1)
    return arg :: args

/-- The array form -/
def arraySlots (grow : ℕ → Bool) (len : ℕ) : Parser UInt8 (List Slot) := do
  Parser.token star
  let n ← number respMaxArgs 0
  Parser.check (respArgvPoolReserve grow (min n respArgvPoolInit))
  bulkSlots grow len n 0

def parseSlots (grow : ℕ → Bool) : Parser UInt8 (List Slot)
  | [] => .more
  | b :: buf =>
    if b ≠ star then inlineSlots grow (b :: buf)
    else arraySlots grow (buf.length + 1) (b :: buf)

/-- `(int)i` -/
def toInt (i : ℕ) : ℤ :=
  if i % 4294967296 < 2147483648 then (i % 4294967296 : ℕ) else (i % 4294967296 : ℕ) - 4294967296

/-- `resp_parse_one`: what it returns, and the slots -/
def parseOne (grow : ℕ → Bool) (buf : Bytes) : ℤ × List Slot :=
  match parseSlots grow buf with
  | .more => (0, [])
  | .reject => (-1, [])
  | .done argv rest => (toInt (buf.length - rest.length), argv)

/-! ## The slots and the arguments -/

/-- Slots that were read of `buf`, and the arguments: the same bytes, in the part that is read. -/
inductive Shows (buf : Bytes) : Outcome UInt8 (List Slot) → Outcome UInt8 (List Bytes) → Prop
  | more : Shows buf .more .more
  | reject : Shows buf .reject .reject
  | done {argv : List Slot} {rest : Bytes} (hrest : rest.length ≤ buf.length)
      (hin : ∀ s ∈ argv, s.off + s.len ≤ buf.length - rest.length) :
      Shows buf (.done argv rest) (.done (argv.map (Slot.bytes buf)) rest)

section Inline

/-- The bytes of an argument that has begun at `x`, up to `p`. -/
theorem take_succ {full line : Bytes} {b : UInt8} {p x : ℕ} (h : full.drop p = b :: line) (hx : x ≤ p) :
    (full.drop x).take (p + 1 - x) = (full.drop x).take (p - x) ++ [b] := by
  have hget : (full.drop x)[p - x]? = some b := by
    rw [List.getElem?_drop, Nat.add_sub_cancel' hx, ← List.head?_drop, h, List.head?_cons]
  rw [show p + 1 - x = p - x + 1 by omega, List.take_add_one, hget]
  rfl

/-- The arguments of a line that is read up to `p`; one may have begun. -/
theorem tokenSlots_bytes {full : Bytes} : ∀ (line : Bytes) (p : ℕ) (s : Option ℕ),
    full.drop p = line → (∀ x ∈ s, x < p ∧ p ≤ full.length) →
      (tokenSlots line p s).map (Slot.bytes full) =
        (line.splitOnPPrepend isBlank ((s.elim [] fun x => (full.drop x).take (p - x)).reverse)).filter
          fun arg => !arg.isEmpty
  | [], p, none, _, _ => rfl
  | [], p, some x, _, hx => by
    obtain ⟨hlt, hle⟩ := hx x rfl
    have hne : (full.drop x).take (p - x) ≠ [] := by
      rw [ne_eq, ← List.length_eq_zero_iff, List.length_take, List.length_drop]
      omega
    simp [tokenSlots, Slot.bytes, hne]
  | b :: line, p, none, hp, _ => by
    have hlen : p + 1 ≤ full.length := by
      have := congrArg List.length hp
      rw [List.length_drop, List.length_cons] at this
      omega
    have hnext : full.drop (p + 1) = line := by
      rw [← List.drop_drop, hp, List.drop_succ_cons, List.drop_zero]
    rw [tokenSlots, List.splitOnPPrepend_cons_eq_if]
    by_cases hb : isBlank b = true
    · rw [if_pos hb, if_pos hb, tokenSlots_bytes line (p + 1) none hnext (by simp)]
      simp
    · have htake := take_succ hp (Nat.le_refl p)
      rw [Nat.sub_self, List.take_zero, List.nil_append, Nat.add_sub_cancel_left] at htake
      rw [if_neg hb, if_neg hb, tokenSlots_bytes line (p + 1) (some p) hnext
        fun x hx => by cases hx; exact ⟨Nat.lt_succ_self p, hlen⟩]
      simp [htake]
  | b :: line, p, some x, hp, hx => by
    obtain ⟨hlt, hle⟩ := hx x rfl
    have hlen : p + 1 ≤ full.length := by
      have := congrArg List.length hp
      rw [List.length_drop, List.length_cons] at this
      omega
    have hnext : full.drop (p + 1) = line := by
      rw [← List.drop_drop, hp, List.drop_succ_cons, List.drop_zero]
    have hne : (full.drop x).take (p - x) ≠ [] := by
      rw [ne_eq, ← List.length_eq_zero_iff, List.length_take, List.length_drop]
      omega
    rw [tokenSlots, List.splitOnPPrepend_cons_eq_if]
    by_cases hb : isBlank b = true
    · rw [if_pos hb, if_pos hb, List.map_cons, tokenSlots_bytes line (p + 1) none hnext (by simp)]
      simp [Slot.bytes, hne]
    · rw [if_neg hb, if_neg hb, tokenSlots_bytes line (p + 1) (some x) hnext
        fun y hy => by cases hy; exact ⟨by omega, hlen⟩]
      simp [take_succ hp (Nat.le_of_lt hlt)]

theorem tokenSlots_inside : ∀ (line : Bytes) (p : ℕ) (s : Option ℕ), (∀ x ∈ s, x ≤ p) →
    ∀ t ∈ tokenSlots line p s, t.off + t.len ≤ p + line.length
  | [], p, none, _ => by simp [tokenSlots]
  | [], p, some x, hx => by
    have := hx x rfl
    simp [tokenSlots, Nat.add_sub_cancel' this]
  | b :: line, p, none, _ => by
    intro t ht
    rw [tokenSlots] at ht
    have := tokenSlots_inside line (p + 1) _ (fun x hx => by split at hx <;> cases hx; omega) t ht
    rw [List.length_cons]
    omega
  | b :: line, p, some x, hx => by
    have hle := hx x rfl
    intro t ht
    rw [tokenSlots] at ht
    rw [List.length_cons]
    split at ht
    · cases List.mem_cons.mp ht with
      | inl h =>
        subst h
        dsimp only
        omega
      | inr h =>
        have := tokenSlots_inside line (p + 1) none (by simp) t h
        omega
    · have := tokenSlots_inside line (p + 1) (some x) (fun y hy => by cases hy; omega) t ht
      omega

theorem stripCr_isPrefix_of (line : Bytes) : stripCr line <+: line := by
  rw [stripCr]
  split
  · exact List.dropLast_prefix line
  · exact List.prefix_rfl

/-- A slot inside a prefix of the buffer shows the same bytes in both. -/
theorem Slot.bytes_prefix {a b : Bytes} (h : a <+: b) {s : Slot} (hs : s.off + s.len ≤ a.length) :
    s.bytes b = s.bytes a := by
  obtain ⟨c, rfl⟩ := h
  rw [Slot.bytes, Slot.bytes, List.drop_append_of_le_length (by omega),
    List.take_append_of_le_length (by rw [List.length_drop]; omega)]

theorem shows_inline (grow : ℕ → Bool) (buf : Bytes) :
    Shows buf (inlineSlots grow buf) (inline grow buf) := by
  have hslots : ∀ line rest, Parser.line lf buf = .done line rest → buf = line ++ lf :: rest →
      (tokenSlots (stripCr line) 0 none).map (Slot.bytes buf) = tokens (stripCr line) ∧
      ∀ s ∈ tokenSlots (stripCr line) 0 none, s.off + s.len ≤ line.length := by
    intro line rest _ hbuf
    have hin : ∀ s ∈ tokenSlots (stripCr line) 0 none, s.off + s.len ≤ (stripCr line).length := by
      intro s hs
      have := tokenSlots_inside (stripCr line) 0 none (by simp) s hs
      omega
    refine ⟨?_, fun s hs => Nat.le_trans (hin s hs) (stripCr_isPrefix_of line).length_le⟩
    have hpre : stripCr line <+: buf := by
      rw [hbuf]
      exact (stripCr_isPrefix_of line).trans (List.prefix_append _ _)
    rw [List.map_congr_left fun s hs => Slot.bytes_prefix hpre (hin s hs)]
    exact tokenSlots_bytes (stripCr line) 0 none rfl (by simp)
  rcases Incremental.line_cases lf buf with h | ⟨line, rest, -, hbuf, h⟩
  · have h₁ : inlineSlots grow buf = .more := by rw [inlineSlots, Parser.bind_apply, h]
    have h₂ : inline grow buf = .more := by rw [inline, Parser.bind_apply, h]
    rw [h₁, h₂]
    exact .more
  · obtain ⟨hbytes, hin⟩ := hslots line rest h hbuf
    have hlen : buf.length - rest.length = line.length + 1 := by
      rw [hbuf, List.length_append, List.length_cons]
      omega
    have hrest : rest.length ≤ buf.length := by
      rw [hbuf, List.length_append, List.length_cons]
      omega
    simp only [inlineSlots, inline, Parser.bind_apply, h, ← hbytes, List.length_map, Parser.check]
    by_cases hmax : (tokenSlots (stripCr line) 0 none).length ≤ respMaxArgs
    · rw [if_pos (decide_eq_true hmax)]
      cases ((tokenSlots (stripCr line) 0 none).length = 0 ||
          respArgvPoolReserve grow (tokenSlots (stripCr line) 0 none).length : Bool) with
      | true => exact .done hrest fun s hs => Nat.le_trans (hin s hs) (by omega)
      | false => exact .reject
    · rw [if_neg (by rw [decide_eq_true_eq]; exact hmax)]
      exact .reject

end Inline

section Array

variable {grow : ℕ → Bool} {buf w : Bytes}

theorem take_done {n : ℕ} {payload rest : Bytes} (h : Parser.take n w = .done payload rest) :
    n ≤ w.length ∧ payload = w.take n ∧ rest = w.drop n := by
  unfold Parser.take at h
  split at h
  · cases h
  · cases h
    exact ⟨by omega, rfl, rfl⟩

/-- An element of the array, read of what is left of the buffer. -/
theorem bulkSlot_cases (hw : w <:+ buf) (a : ℕ) :
    (bulkSlot grow buf.length a w = .more ∧ bulk grow a w = .more) ∨
      (bulkSlot grow buf.length a w = .reject ∧ bulk grow a w = .reject) ∨
      ∃ s rest, bulkSlot grow buf.length a w = .done s rest ∧
        bulk grow a w = .done (s.bytes buf) rest ∧ rest <:+ w ∧
        s.off + s.len ≤ buf.length - rest.length := by
  simp only [bulkSlot, bulk, Parser.bind_apply, pos]
  cases ht : Parser.token dollar w with
  | more => exact .inl ⟨rfl, rfl⟩
  | reject => exact .inr (.inl ⟨rfl, rfl⟩)
  | done u w₁ =>
    have hw₁ := (Incremental.token dollar).suffix ht
    dsimp only
    cases hn : number respMaxBulk 0 w₁ with
    | more => exact .inl ⟨rfl, rfl⟩
    | reject => exact .inr (.inl ⟨rfl, rfl⟩)
    | done blen w₂ =>
      have hw₂ := ((incremental_number _ _).suffix hn).trans hw₁
      dsimp only
      cases hp : Parser.take (blen + 2) w₂ with
      | more => exact .inl ⟨rfl, rfl⟩
      | reject => exact .inr (.inl ⟨rfl, rfl⟩)
      | done payload w₃ =>
        have hw₃ := ((Incremental.take _).suffix hp).trans hw₂
        simp only [Parser.check]
        cases (decide (payload.drop blen = [cr, lf])) with
        | false => exact .inr (.inl ⟨rfl, rfl⟩)
        | true =>
          cases respArgvPoolReserve grow (a + 1) with
          | false => exact .inr (.inl ⟨rfl, rfl⟩)
          | true =>
            obtain ⟨hlen, hpayload, hrest⟩ := take_done hp
            refine .inr (.inr ⟨⟨buf.length - w₂.length, blen⟩, w₃, rfl, ?_, hw₃, ?_⟩)
            · rw [hpayload, List.take_take, Nat.min_eq_left (Nat.le_add_right blen 2), Slot.bytes,
                ← List.suffix_iff_eq_drop.mp (hw₂.trans hw)]
              rfl
            · have hle := (hw₂.trans hw).length_le
              have hw₃len : w₃.length + (blen + 2) = w₂.length := by
                rw [hrest, List.length_drop]
                omega
              dsimp only
              omega

/-- The elements of the array, read of what is left of the buffer. -/
theorem shows_bulks (n a : ℕ) : ∀ {w : Bytes}, w <:+ buf →
    Shows buf (bulkSlots grow buf.length n a w) (bulks grow n a w) := by
  induction n generalizing a with
  | zero => exact fun hw => .done hw.length_le fun s hs => by cases hs
  | succ n ih =>
    intro w hw
    rw [bulkSlots, bulks, Parser.bind_apply, Parser.bind_apply]
    rcases @bulkSlot_cases grow buf w hw a with
      ⟨h₁, h₂⟩ | ⟨h₁, h₂⟩ | ⟨s, rest, h₁, h₂, hrest, hin⟩
    · rw [h₁, h₂]
      exact .more
    · rw [h₁, h₂]
      exact .reject
    · rw [h₁, h₂]
      dsimp only
      rw [Parser.bind_apply, Parser.bind_apply]
      have hsuffix := hrest.trans hw
      have htail := ih (a + 1) hsuffix
      have hle : ∀ args rest', bulks grow n (a + 1) rest = .done args rest' →
          rest'.length ≤ rest.length := fun _ _ h => ((incremental_bulks grow n (a + 1)).suffix h).length_le
      revert hle htail
      generalize bulkSlots grow buf.length n (a + 1) rest = x
      generalize bulks grow n (a + 1) rest = y
      intro htail hle
      cases htail with
      | more => exact .more
      | reject => exact .reject
      | done hrest' hin' =>
        refine .done hrest' fun t ht => ?_
        cases List.mem_cons.mp ht with
        | inl h =>
          subst h
          have := hle _ _ rfl
          omega
        | inr h => exact hin' t h

theorem shows_array (hw : w <:+ buf) :
    Shows buf (arraySlots grow buf.length w) (array grow w) := by
  simp only [arraySlots, array, Parser.bind_apply]
  cases ht : Parser.token star w with
  | more => exact .more
  | reject => exact .reject
  | done u w₁ =>
    have hw₁ := ((Incremental.token star).suffix ht).trans hw
    dsimp only
    cases hn : number respMaxArgs 0 w₁ with
    | more => exact .more
    | reject => exact .reject
    | done n w₂ =>
      have hw₂ := ((incremental_number _ _).suffix hn).trans hw₁
      simp only [Parser.check]
      cases respArgvPoolReserve grow (min n respArgvPoolInit) with
      | false => exact .reject
      | true => exact shows_bulks n 0 hw₂

end Array

/-- **The slots show the arguments.** -/
theorem shows_parse (grow : ℕ → Bool) (buf : Bytes) :
    Shows buf (parseSlots grow buf) (respParse grow buf) := by
  cases buf with
  | nil => exact .more
  | cons b buf =>
    rw [parseSlots, respParse]
    by_cases hb : b = star
    · rw [if_neg (not_not.mpr hb), if_neg (not_not.mpr hb)]
      exact shows_array List.suffix_rfl
    · rw [if_pos hb, if_pos hb]
      exact shows_inline grow (b :: buf)

/-! ## Encoding -/

def crlf : Bytes := [cr, lf]

/-- A bulk string -/
def encodeBulk (arg : Bytes) : Bytes := dollar :: (Json.formatNat arg.length ++ crlf ++ arg ++ crlf)

/-- An array of bulk strings -/
def encode (args : List Bytes) : Bytes :=
  star :: (Json.formatNat args.length ++ crlf ++ args.flatMap encodeBulk)

/-- The digits `ds` behind the value `n`. -/
def valueFrom (n : ℕ) (ds : Bytes) : ℕ := ds.foldl (fun v d => v * 10 + (d.toNat - 0x30)) n

theorem le_valueFrom (n : ℕ) (ds : Bytes) : n ≤ valueFrom n ds := by
  induction ds generalizing n with
  | nil => exact Nat.le_refl n
  | cons d ds ih =>
    have := ih (n * 10 + (d.toNat - 0x30))
    rw [valueFrom, List.foldl_cons]
    exact Nat.le_trans (by omega) this

theorem number_digits {max : ℕ} : ∀ (ds : Bytes) (n : ℕ) (rest : Bytes),
    (∀ d ∈ ds, isDigit d = true) → valueFrom n ds ≤ max →
      number max n (ds ++ crlf ++ rest) = .done (valueFrom n ds) rest
  | [], n, rest, _, _ => rfl
  | d :: ds, n, rest, hds, hmax => by
    rw [List.forall_mem_cons] at hds
    obtain ⟨hd, hds⟩ := hds
    have hdigit : 0x30 ≤ d ∧ d ≤ 0x39 := by
      simpa only [isDigit, Bool.and_eq_true, decide_eq_true_eq] using hd
    have hcr : d ≠ cr := by
      rintro rfl
      exact absurd hdigit.1 (by decide)
    have hle := Nat.le_trans (le_valueFrom (n * 10 + (d.toNat - 0x30)) ds) hmax
    have htail := number_digits ds (n * 10 + (d.toNat - 0x30)) rest hds hmax
    rw [List.cons_append, List.cons_append, number_cons hcr, if_neg]
    · exact htail
    · rw [not_or, not_or]
      exact ⟨UInt8.not_lt.mpr hdigit.1, UInt8.not_lt.mpr hdigit.2, Nat.not_lt.mpr hle⟩

theorem number_formatNat {max n : ℕ} (h : n ≤ max) (rest : Bytes) :
    number max 0 (Json.formatNat n ++ crlf ++ rest) = .done n rest := by
  have hval : valueFrom 0 (Json.formatNat n) = n := Json.decValue_formatNat n
  have hnum := @number_digits max (Json.formatNat n) 0 rest (Json.digits_formatNat n).2
    (by rw [hval]; exact h)
  rwa [hval] at hnum

/-- Allocations succeed. -/
abbrev memory : ℕ → Bool := fun _ => true

theorem respArgvPoolReserve_memory (n : ℕ) : respArgvPoolReserve memory n = true := Bool.or_true _

theorem bulk_encodeBulk {arg : Bytes} (h : arg.length ≤ respMaxBulk) (a : ℕ) (rest : Bytes) :
    bulk memory a (encodeBulk arg ++ rest) = .done arg rest := by
  have hnum := number_formatNat h (arg ++ crlf ++ rest)
  have htake : Parser.take (arg.length + 2) (arg ++ crlf ++ rest) = .done (arg ++ crlf) rest := by
    have hlen : (arg ++ crlf).length = arg.length + 2 := by rw [List.length_append]; rfl
    rw [Parser.take, if_neg (by rw [List.length_append, hlen]; omega), ← hlen, List.take_left,
      List.drop_left]
  have hbuf : encodeBulk arg ++ rest =
      dollar :: (Json.formatNat arg.length ++ crlf ++ (arg ++ crlf ++ rest)) := by
    simp only [encodeBulk, List.cons_append, List.append_assoc]
  have htoken : Parser.token dollar (encodeBulk arg ++ rest) =
      .done () (Json.formatNat arg.length ++ crlf ++ (arg ++ crlf ++ rest)) := by
    rw [hbuf, Parser.token, if_pos rfl]
  simp only [bulk, Parser.bind_apply, htoken, hnum, htake, Parser.check, respArgvPoolReserve_memory,
    List.drop_left, List.take_left]
  rfl

theorem bulks_encode {args : List Bytes} (h : ∀ arg ∈ args, arg.length ≤ respMaxBulk) (a : ℕ)
    (rest : Bytes) :
    bulks memory args.length a (args.flatMap encodeBulk ++ rest) = .done args rest := by
  induction args generalizing a with
  | nil => rfl
  | cons arg args ih =>
    rw [List.forall_mem_cons] at h
    rw [List.length_cons, bulks, List.flatMap_cons, List.append_assoc, Parser.bind_apply,
      bulk_encodeBulk h.1]
    dsimp only
    rw [Parser.bind_apply, ih h.2]
    rfl

/-- **An array is read back.** -/
theorem parse_encode {args : List Bytes} (hargs : args.length ≤ respMaxArgs)
    (h : ∀ arg ∈ args, arg.length ≤ respMaxBulk) (rest : Bytes) :
    respParse memory (encode args ++ rest) = .done args rest := by
  have hnum := number_formatNat hargs (args.flatMap encodeBulk ++ rest)
  have hbuf : encode args ++ rest =
      star :: (Json.formatNat args.length ++ crlf ++ (args.flatMap encodeBulk ++ rest)) := by
    simp only [encode, List.cons_append, List.append_assoc]
  rw [hbuf, respParse, if_neg (not_not.mpr rfl), array, Parser.bind_apply, Parser.token, if_pos rfl]
  dsimp only
  rw [Parser.bind_apply, hnum]
  dsimp only
  rw [Parser.bind_apply, Parser.check, respArgvPoolReserve_memory, if_pos rfl]
  exact bulks_encode h 0 rest

/-! ## What is returned -/

theorem toInt_eq {i : ℕ} (h : i < 2147483648) : toInt i = i := by
  rw [toInt, if_pos (by omega), Nat.mod_eq_of_lt (by omega)]

theorem toInt_lt (i : ℕ) : toInt i < 2147483648 := by
  rw [toInt]
  split <;> omega

theorem parseOne_done {grow : ℕ → Bool} {buf rest : Bytes} {args : List Bytes}
    (h : respParse grow buf = .done args rest) :
    ∃ argv : List Slot, parseOne grow buf = (toInt (buf.length - rest.length), argv) ∧
      argv.map (Slot.bytes buf) = args := by
  have hshows := shows_parse grow buf
  rw [h] at hshows
  rw [parseOne]
  generalize parseSlots grow buf = x at hshows
  cases hshows with
  | done hrest hin => exact ⟨_, rfl, rfl⟩

/-- What is returned for an array is its length, as an `int`. -/
theorem parseOne_encode {args : List Bytes} (hargs : args.length ≤ respMaxArgs)
    (h : ∀ arg ∈ args, arg.length ≤ respMaxBulk) (rest : Bytes) :
    ∃ argv : List Slot, parseOne memory (encode args ++ rest) = (toInt (encode args).length, argv) ∧
      argv.map (Slot.bytes (encode args ++ rest)) = args := by
  obtain ⟨argv, hparse, hbytes⟩ := parseOne_done (parse_encode hargs h rest)
  rw [List.length_append, Nat.add_sub_cancel] at hparse
  exact ⟨argv, hparse, hbytes⟩

/-- **Slots lie inside the bytes that are read.** -/
theorem slots_inside (grow : ℕ → Bool) {buf : Bytes} (hbuf : buf.length < 2147483648)
    (hpos : 0 < (parseOne grow buf).1) :
    (parseOne grow buf).1 ≤ buf.length ∧
      ∀ s ∈ (parseOne grow buf).2, ((s.off + s.len : ℕ) : ℤ) ≤ (parseOne grow buf).1 := by
  have hshows := shows_parse grow buf
  revert hshows hpos
  rw [parseOne]
  generalize parseSlots grow buf = x
  generalize respParse grow buf = y
  intro hpos hshows
  cases hshows with
  | more => exact absurd hpos (lt_irrefl 0)
  | reject => exact absurd hpos (show ¬ (0 : ℤ) < -1 by decide)
  | @done argv rest hrest hin =>
    have hint : toInt (buf.length - rest.length) = ((buf.length - rest.length : ℕ) : ℤ) :=
      toInt_eq (by omega)
    dsimp only
    rw [hint]
    exact ⟨by omega, fun s hs => Int.ofNat_le.mpr (hin s hs)⟩

/-- An array of strings of fewer than `2 ^ 31` bytes is read back, whatever follows it; and of any
buffer of fewer bytes, `n` bytes are read and the slots lie inside them. -/
theorem frame_roundTrip :
    (∀ args : List Bytes, args.length ≤ respMaxArgs → (∀ arg ∈ args, arg.length ≤ respMaxBulk) →
      (encode args).length < 2147483648 → ∀ rest,
        (parseOne memory (encode args ++ rest)).1 = (encode args).length ∧
        (parseOne memory (encode args ++ rest)).2.map (Slot.bytes (encode args ++ rest)) = args) ∧
    ∀ (grow : ℕ → Bool) (buf : Bytes), buf.length < 2147483648 → 0 < (parseOne grow buf).1 →
      (parseOne grow buf).2 ≠ [] → (parseOne grow buf).1 ≤ buf.length ∧
        ∀ s ∈ (parseOne grow buf).2, ((s.off + s.len : ℕ) : ℤ) ≤ (parseOne grow buf).1 := by
  refine ⟨fun args hargs h hlen rest => ?_, fun grow buf hbuf hpos _ => slots_inside grow hbuf hpos⟩
  obtain ⟨argv, hparse, hbytes⟩ := parseOne_encode hargs h rest
  rw [hparse]
  exact ⟨toInt_eq hlen, hbytes⟩

/-- `GET k` with a byte behind it. -/
theorem frame_roundTrip_get :
    (parseOne memory (encode [[71, 69, 84], [107]] ++ [42])).1 = 20 ∧
      (parseOne memory (encode [[71, 69, 84], [107]] ++ [42])).2.map
        (Slot.bytes (encode [[71, 69, 84], [107]] ++ [42])) = [[71, 69, 84], [107]] := by
  have hlen : (encode [[71, 69, 84], [107]]).length = 20 := by simp [encode, encodeBulk, Json.formatNat, crlf]
  have h := frame_roundTrip.1 [[71, 69, 84], [107]] (by decide) (by decide) (by rw [hlen]; decide) [42]
  rwa [hlen] at h

theorem le_length_encodeBulk (arg : Bytes) : arg.length ≤ (encodeBulk arg).length := by
  simp only [encodeBulk, List.length_cons, List.length_append]
  omega

theorem le_length_encode_replicate (n : ℕ) (arg : Bytes) :
    n * arg.length ≤ (encode (List.replicate n arg)).length := by
  have hsum : ((List.replicate n arg).flatMap encodeBulk).length = n * (encodeBulk arg).length := by
    rw [List.length_flatMap, List.map_replicate, List.sum_replicate, nsmul_eq_mul, Nat.cast_id]
  have hle := Nat.mul_le_mul_left n (le_length_encodeBulk arg)
  rw [encode, List.length_cons, List.length_append, hsum]
  omega

/-- Four strings of the greatest length. -/
def fourBulks : List Bytes := List.replicate 4 (List.replicate respMaxBulk 0)

/-- Their encoding is longer than an `int` can say. -/
theorem four_bulks_overflow : fourBulks.length ≤ respMaxArgs ∧
    (∀ arg ∈ fourBulks, arg.length ≤ respMaxBulk) ∧
      (parseOne memory (encode fourBulks)).1 ≠ (encode fourBulks).length := by
  have hargs : fourBulks.length ≤ respMaxArgs := by rw [fourBulks, List.length_replicate]; decide
  have hbulk : ∀ arg ∈ fourBulks, arg.length ≤ respMaxBulk := fun arg h => by
    rw [List.eq_of_mem_replicate h, List.length_replicate]
  refine ⟨hargs, hbulk, ?_⟩
  obtain ⟨argv, hparse, -⟩ := parseOne_encode hargs hbulk []
  rw [List.append_nil] at hparse
  have hlong : 4 * respMaxBulk ≤ (encode fourBulks).length := by
    have hle := le_length_encode_replicate 4 (List.replicate respMaxBulk 0)
    rwa [List.length_replicate] at hle
  have hlt := toInt_lt (encode fourBulks).length
  rw [hparse]
  generalize (encode fourBulks).length = n at hlong hlt
  have hn : 2147483648 ≤ n := hlong
  intro h
  rw [show toInt n = n from h] at hlt
  omega

end Alcove.Resp
