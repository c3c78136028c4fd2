import Alcove.Json.Decode
import Alcove.Lfkv.Table

/-!
# Integer arguments

`resp_arg_to_ll` copies at most 30 bytes into a C string and hands it to `strtoll`, which stops at the
first NUL. A byte string with a NUL inside is therefore read up to it: `12\0x` is 12.

**Main result:** `respArgToLl_exact_iff`. The function accepts the texts of integers and no others, except where a
text ends at a NUL byte before the end of the argument.
-/

namespace Alcove.Resp

open Lib

/-! ## The parser -/

/-- `isspace` in the C locale -/
def isSpace (c : UInt8) : Bool := c = 32 || (9 ≤ c && c ≤ 13)

/-- What `strtoll(buf, &end, 10)` finds: its value, the bytes from `end` on, and whether it set
`errno`. -/
structure Strtoll where
  value : ℤ
  rest : Bytes
  range : Bool

/-- `strtoll` in base 10: blanks, a sign and digits; the value is cut to 64 bits. -/
def strtoll (buf : Bytes) : Strtoll :=
  let s := buf.dropWhile isSpace
  let negative := s.head? = some 0x2d
  let ds := if negative ∨ s.head? = some 0x2b then s.tail else s
  if ds.takeWhile isDigit = [] then ⟨0, buf, false⟩
  else
    let n : ℤ := Json.decValue (ds.takeWhile isDigit)
    let v := if negative then -n else n
    ⟨max (-2 ^ 63) (min (2 ^ 63 - 1) v), ds.dropWhile isDigit, ¬ Fits 64 v⟩

/-- `resp_arg_to_ll` -/
def respArgToLl (p : Bytes) : Option ℤ :=
  if p.length = 0 ∨ 30 < p.length then none
  else
    let buf := p ++ [0]
    if ¬ isDigit (buf.headD 0) ∧ buf.headD 0 ≠ 0x2d then none
    else
      let r := strtoll buf
      if r.rest.headD 0 ≠ 0 ∨ r.range then none else some r.value

/-- `resp_blob_to_ll`, on the bytes of a stored blob -/
def respBlobToLl (bytes : Bytes) : Option ℤ := respArgToLl bytes

/-- How `resp_apply_incr` refuses. -/
inductive IncrError
  | wrongtype
  | notInteger
  | overflow
  deriving DecidableEq

/-- One round of `resp_apply_incr`: the next value of a key that holds nothing, a blob, or anything
else (`some none`). -/
def respApplyIncr (stored : Option (Option Bytes)) (delta : ℤ) : Except IncrError ℤ :=
  let add (cur : ℤ) : Except IncrError ℤ :=
    if (0 < delta ∧ 2 ^ 63 - 1 - delta < cur) ∨ (delta < 0 ∧ cur < -2 ^ 63 - delta) then
      .error .overflow
    else .ok (cur + delta)
  match stored with
  | none => add 0
  | some none => .error .wrongtype
  | some (some bytes) =>
    match respBlobToLl bytes with
    | none => .error .notInteger
    | some cur => add cur

/-! ## Texts of integers -/

/-- An optional `-` and one or more digits, at most 30 bytes, with a value of 64 bits. -/
structure IntegerText (p : Bytes) (v : ℤ) : Prop where
  short : p.length ≤ 30
  fits : Fits 64 v
  text : ∃ ds : Bytes, ds ≠ [] ∧ (∀ d ∈ ds, isDigit d = true) ∧
    ((p = ds ∧ v = Json.decValue ds) ∨ (p = 0x2d :: ds ∧ v = -Json.decValue ds))

/-- The bytes before the first NUL. -/
def cText (p : Bytes) : Bytes := p.takeWhile (· != 0)

theorem IntegerText.zero_notMem {p : Bytes} {v : ℤ} (h : IntegerText p v) : 0 ∉ p := by
  obtain ⟨ds, -, hds, h⟩ := h.text
  have hzero : (0 : UInt8) ∉ ds := fun hmem => by cases hds 0 hmem
  rcases h with ⟨rfl, -⟩ | ⟨rfl, -⟩
  · exact hzero
  · intro hmem
    cases List.mem_cons.mp hmem with
    | inl h => cases h
    | inr h => exact hzero h

theorem cText_eq_self {p : Bytes} (h : 0 ∉ p) : cText p = p := by
  refine List.takeWhile_eq_self_iff.mpr fun c hc => bne_iff_ne.mpr fun h0 => ?_
  rw [h0] at hc
  exact h hc

theorem zero_notMem_cText (p : Bytes) : 0 ∉ cText p := fun h => by
  cases List.mem_takeWhile_imp h

/-- The buffer holds the text, a NUL, and what lies behind. -/
theorem buffer_eq (p : Bytes) : ∃ post, p ++ [0] = cText p ++ 0 :: post := by
  induction p with
  | nil => exact ⟨[], rfl⟩
  | cons c p ih =>
    obtain ⟨post, hpost⟩ := ih
    by_cases hc : c = 0
    · subst hc
      exact ⟨p ++ [0], rfl⟩
    · refine ⟨post, ?_⟩
      rw [cText, List.takeWhile_cons, if_pos (bne_iff_ne.mpr hc), List.cons_append, List.cons_append,
        hpost]
      rfl

/-! ## What `strtoll` reads of a text -/

section Digits

variable {t : Bytes} (post : Bytes)

theorem takeWhile_digits (t : Bytes) : (t ++ 0 :: post).takeWhile isDigit = t.takeWhile isDigit := by
  induction t with
  | nil => rfl
  | cons c t ih =>
    rw [List.cons_append, List.takeWhile_cons, List.takeWhile_cons, ih]

/-- `*end` is NUL when only digits stand before it. -/
theorem dropWhile_digits (h0 : 0 ∉ t) :
    ((t ++ 0 :: post).dropWhile isDigit).headD 0 = 0 ↔ ∀ d ∈ t, isDigit d = true := by
  induction t with
  | nil => simp [isDigit]
  | cons c t ih =>
    rw [List.mem_cons, not_or] at h0
    rw [List.cons_append, List.dropWhile_cons, List.forall_mem_cons]
    by_cases hc : isDigit c = true
    · rw [if_pos hc, ih h0.2, and_iff_right hc]
    · rw [if_neg hc, List.headD_cons]
      exact iff_of_false (fun h => h0.1 h.symm) fun h => hc h.1

theorem clip_fits {v : ℤ} (h : Fits 64 v) : max (-2 ^ 63) (min (2 ^ 63 - 1) v) = v := by
  obtain ⟨hlo, hhi⟩ := h
  rw [min_eq_right (by omega), max_eq_right hlo]

end Digits

theorem isSpace_of_isDigit {c : UInt8} (h : isDigit c = true) : isSpace c = false := by
  simp only [isDigit, isSpace, Bool.and_eq_true, decide_eq_true_eq, Bool.or_eq_false_iff,
    Bool.and_eq_false_iff, decide_eq_false_iff_not, UInt8.le_iff_toNat_le, ← UInt8.toNat_inj,
    UInt8.reduceToNat] at h ⊢
  omega

theorem ne_sign_of_isDigit {c : UInt8} (h : isDigit c = true) : c ≠ 0x2d ∧ c ≠ 0x2b := by
  refine ⟨fun hc => ?_, fun hc => ?_⟩
  · rw [hc] at h
    cases h
  · rw [hc] at h
    cases h

/-- The number of a run of digits, with a sign. -/
def signed (negative : Bool) (ds : Bytes) : ℤ :=
  if negative then -(Json.decValue ds : ℤ) else Json.decValue ds

theorem strtoll_digit {c : UInt8} (hc : isDigit c = true) (u : Bytes) :
    strtoll (c :: u) = ⟨max (-2 ^ 63) (min (2 ^ 63 - 1) (signed false ((c :: u).takeWhile isDigit))),
      (c :: u).dropWhile isDigit, ¬ Fits 64 (signed false ((c :: u).takeWhile isDigit))⟩ := by
  obtain ⟨hminus, hplus⟩ := ne_sign_of_isDigit hc
  have hs : (c :: u).dropWhile isSpace = c :: u := by
    rw [List.dropWhile_cons, isSpace_of_isDigit hc, if_neg Bool.false_ne_true]
  have hne : (c :: u).takeWhile isDigit ≠ [] := by
    rw [List.takeWhile_cons, if_pos hc]
    exact List.cons_ne_nil _ _
  simp [strtoll, hs, hminus, hplus, hne, signed]

theorem strtoll_minus (u : Bytes) (hne : u.takeWhile isDigit ≠ []) :
    strtoll (0x2d :: u) = ⟨max (-2 ^ 63) (min (2 ^ 63 - 1) (signed true (u.takeWhile isDigit))),
      u.dropWhile isDigit, ¬ Fits 64 (signed true (u.takeWhile isDigit))⟩ := by
  have hs : (0x2d :: u).dropWhile isSpace = 0x2d :: u := rfl
  simp [strtoll, hs, hne, signed]

theorem strtoll_minus_nil (u : Bytes) (h : u.takeWhile isDigit = []) :
    strtoll (0x2d :: u) = ⟨0, 0x2d :: u, false⟩ := by
  have hs : (0x2d :: u).dropWhile isSpace = 0x2d :: u := rfl
  simp [strtoll, hs, h]

/-- The end of `resp_arg_to_ll`, behind a run of digits. -/
theorem finish_iff {negative : Bool} {t post : Bytes} (h0 : 0 ∉ t) {v : ℤ} :
    (if ((t ++ 0 :: post).dropWhile isDigit).headD 0 ≠ 0 ∨
        (decide ¬ Fits 64 (signed negative ((t ++ 0 :: post).takeWhile isDigit))) = true then none
      else some (max (-2 ^ 63) (min (2 ^ 63 - 1)
        (signed negative ((t ++ 0 :: post).takeWhile isDigit))))) = some v ↔
      (∀ d ∈ t, isDigit d = true) ∧ Fits 64 v ∧ v = signed negative t := by
  rw [takeWhile_digits]
  by_cases hall : ∀ d ∈ t, isDigit d = true
  · have hend := (dropWhile_digits post h0).mpr hall
    rw [List.takeWhile_eq_self_iff.mpr hall]
    by_cases hfits : Fits 64 (signed negative t)
    · have hrange : (decide ¬ Fits 64 (signed negative t)) = false := by simp [hfits]
      rw [hend, hrange, if_neg (by simp), clip_fits hfits, Option.some.injEq]
      exact ⟨fun h => ⟨hall, h ▸ hfits, h.symm⟩, fun h => h.2.2.symm⟩
    · rw [if_pos (by simp [hfits])]
      exact iff_of_false (fun h => by cases h) fun h => hfits (h.2.2 ▸ h.2.1)
  · rw [if_pos (.inl fun h => hall ((dropWhile_digits post h0).mp h))]
    exact iff_of_false (fun h => by cases h) fun h => hall h.1

/-! ## What is accepted -/

section Text

variable {c : UInt8} {t : Bytes} {v : ℤ}

theorem integerText_digit (hc : isDigit c = true) (hshort : (c :: t).length ≤ 30) :
    IntegerText (c :: t) v ↔
      (∀ d ∈ c :: t, isDigit d = true) ∧ Fits 64 v ∧ v = signed false (c :: t) := by
  refine ⟨fun h => ?_, fun h => ⟨hshort, h.2.1, c :: t, by simp, h.1, .inl ⟨rfl, h.2.2⟩⟩⟩
  obtain ⟨ds, -, hds, ⟨rfl, hv⟩ | ⟨hp, -⟩⟩ := h.text
  · exact ⟨hds, h.fits, hv⟩
  · exact absurd (List.cons.inj hp).1 (ne_sign_of_isDigit hc).1

theorem integerText_minus (hshort : (0x2d :: t).length ≤ 30) : IntegerText (0x2d :: t) v ↔
    t ≠ [] ∧ (∀ d ∈ t, isDigit d = true) ∧ Fits 64 v ∧ v = signed true t := by
  refine ⟨fun h => ?_, fun h => ⟨hshort, h.2.2.1, t, h.1, h.2.1, .inr ⟨rfl, h.2.2.2⟩⟩⟩
  obtain ⟨ds, hne, hds, ⟨rfl, -⟩ | ⟨hp, hv⟩⟩ := h.text
  · cases hds 0x2d List.mem_cons_self
  · obtain rfl := (List.cons.inj hp).2
    exact ⟨hne, hds, h.fits, hv⟩

theorem not_integerText (hc : ¬ isDigit c = true) (hm : c ≠ 0x2d) : ¬ IntegerText (c :: t) v := by
  intro h
  obtain ⟨ds, -, hds, ⟨rfl, -⟩ | ⟨hp, -⟩⟩ := h.text
  · exact hc (hds c List.mem_cons_self)
  · exact hm (List.cons.inj hp).1

end Text

theorem respArgToLl_eq_some (p : Bytes) (v : ℤ) :
    respArgToLl p = some v ↔ p.length ≤ 30 ∧ IntegerText (cText p) v := by
  obtain ⟨post, hpost⟩ := buffer_eq p
  have hlen : (cText p).length ≤ p.length := (List.takeWhile_sublist _).length_le
  have h0 := zero_notMem_cText p
  simp only [respArgToLl, hpost]
  by_cases hlong : 30 < p.length
  · rw [if_pos (.inr hlong)]
    exact iff_of_false (fun h => by cases h) fun h => absurd h.1 (by omega)
  have hshort : p.length ≤ 30 := by omega
  cases ht : cText p with
  | nil =>
    have hnone : ¬ IntegerText [] v := fun h => by
      obtain ⟨ds, hne, -, h⟩ := h.text
      rcases h with ⟨rfl, -⟩ | ⟨h, -⟩
      · exact hne rfl
      · cases h
    refine iff_of_false (fun h => ?_) fun h => hnone h.2
    split at h
    · cases h
    · cases h
  | cons c t =>
    rw [ht] at h0 hlen
    have hpos : ¬ (p.length = 0 ∨ 30 < p.length) := by
      rw [List.length_cons] at hlen
      omega
    rw [if_neg hpos, List.cons_append, List.headD_cons]
    by_cases hc : isDigit c = true
    · rw [if_neg (fun h => h.1 hc), strtoll_digit hc, ← List.cons_append, finish_iff h0,
        integerText_digit hc (by omega), and_iff_right hshort]
    · by_cases hm : c = 0x2d
      · subst hm
        rw [if_neg (fun h => h.2 rfl), integerText_minus (by omega), and_iff_right hshort]
        by_cases hrun : (t ++ 0 :: post).takeWhile isDigit = []
        · -- a sign alone: `end` is the start of the buffer
          rw [strtoll_minus_nil _ hrun, if_pos (.inl (show (0x2d : UInt8) ≠ 0 by decide))]
          refine iff_of_false (fun h => by cases h) fun h => ?_
          rw [takeWhile_digits, List.takeWhile_eq_self_iff.mpr h.2.1] at hrun
          exact h.1 hrun
        · rw [strtoll_minus _ hrun, finish_iff (fun hmem => h0 (List.mem_cons_of_mem _ hmem))]
          refine (and_iff_right ?_).symm
          rintro rfl
          exact hrun rfl
      · rw [if_pos ⟨hc, hm⟩]
        exact iff_of_false (fun h => by cases h) fun h => not_integerText hc hm h.2

/-- As an argument and as a stored value, a byte string is read when it is the text of an integer, as
this integer, and not read else. -/
def Exact (p : Bytes) : Prop :=
  ∀ v, (respArgToLl p = some v ↔ IntegerText p v) ∧ (respBlobToLl p = some v ↔ IntegerText p v)

theorem respArgToLl_exact_iff (p : Bytes) :
    Exact p ↔ ¬ (0 ∈ p ∧ p.length ≤ 30 ∧ ∃ v, IntegerText (cText p) v) := by
  have hexact : Exact p ↔ ∀ v, respArgToLl p = some v ↔ IntegerText p v :=
    ⟨fun h v => (h v).1, fun h v => ⟨h v, h v⟩⟩
  rw [hexact]
  by_cases h0 : 0 ∈ p
  · have hnone : ∀ v, ¬ IntegerText p v := fun v h => h.zero_notMem h0
    refine ⟨fun h ⟨_, hshort, v, hv⟩ => ?_, fun h v => ?_⟩
    · exact hnone v ((h v).mp ((respArgToLl_eq_some p v).mpr ⟨hshort, hv⟩))
    · refine iff_of_false (fun hv => ?_) (hnone v)
      obtain ⟨hshort, htext⟩ := (respArgToLl_eq_some p v).mp hv
      exact h ⟨h0, hshort, v, htext⟩
  · refine iff_of_true (fun v => ?_) fun h => h0 h.1
    rw [respArgToLl_eq_some, cText_eq_self h0]
    exact and_iff_right_of_imp IntegerText.short

/-- `12\0x` is read as 12. -/
theorem twelve_nul_accepted : ¬ Exact [0x31, 0x32, 0, 0x78] := fun h =>
  ((h 12).1.mp (by decide)).zero_notMem (by decide)

/-- INCR refuses a stored blob exactly when its bytes up to the first NUL are not the text of an
integer. -/
theorem respApplyIncr_notInteger (bytes : Bytes) (delta : ℤ) :
    respApplyIncr (some (some bytes)) delta = .error .notInteger ↔
      ¬ (bytes.length ≤ 30 ∧ ∃ v, IntegerText (cText bytes) v) := by
  have hread : respBlobToLl bytes = none ↔ ¬ (bytes.length ≤ 30 ∧ ∃ v, IntegerText (cText bytes) v) := by
    rw [Option.eq_none_iff_forall_ne_some, not_and, not_exists]
    refine ⟨fun h hshort v hv => h v ((respArgToLl_eq_some bytes v).mpr ⟨hshort, hv⟩),
      fun h v hv => ?_⟩
    obtain ⟨hshort, htext⟩ := (respArgToLl_eq_some bytes v).mp hv
    exact h hshort v htext
  rw [← hread, respApplyIncr]
  cases hcur : respBlobToLl bytes with
  | none => exact iff_of_true rfl rfl
  | some cur =>
    refine iff_of_false (fun h => ?_) fun h => by cases h
    dsimp only at h
    split at h
    · cases h
    · cases h

example : respApplyIncr (some (some [0x31, 0x32, 0, 0x78])) 1 = .ok 13 := by decide

end Alcove.Resp
