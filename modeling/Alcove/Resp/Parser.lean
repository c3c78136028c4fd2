import Alcove.Lib.Incremental
import Alcove.Lfkv.Table

/-!
# The RESP frame parser

`resp_parse_one` on the live window of the read buffer. A loop over `buf[i..]` is a parser of the
bytes that are left (`Alcove.Lib.Parser`): `.more` is the return of 0, `.reject` that of -1. The
parser is incremental (`incremental_respParse`), so a frame may arrive in pieces.

The argument pool grows with the frame; `grow n` says that there is memory for `n` slots.
-/

namespace Alcove.Resp

open Lib

/-- `RESP_MAX_BULK` -/
def respMaxBulk : ℕ := 512 * 1024 * 1024

/-- The length of a bulk fits in the 32 bits that a record of the keyspace has for it. -/
theorem short_of_bulk {key : Bytes} (hkey : key.length ≤ respMaxBulk) : key.length < 2 ^ 32 :=
  lt_of_le_of_lt hkey (by decide)

/-- `RESP_MAX_ARGS` -/
def respMaxArgs : ℕ := 1048576

/-- `RESP_ARGV_POOL_INIT` -/
def respArgvPoolInit : ℕ := 8

/-- The bytes `\r`, `\n`, `*`, `$`, `0`, `9`, space and tab. -/
def cr : UInt8 := 13
def lf : UInt8 := 10
def star : UInt8 := 42
def dollar : UInt8 := 36
def zero : UInt8 := 48
def nine : UInt8 := 57
def space : UInt8 := 32
def tab : UInt8 := 9

/-- `resp_argv_pool_reserve`: a client has the first slots from the start. -/
def respArgvPoolReserve (grow : ℕ → Bool) (n : ℕ) : Bool := n ≤ respArgvPoolInit || grow n

/-! ## The inline form -/

/-- A line without the `\r` at its end. -/
def stripCr (line : Bytes) : Bytes := if line.getLast? = some cr then line.dropLast else line

def isBlank (b : UInt8) : Bool := b == space || b == tab

/-- The arguments of a line: its longest runs of bytes that are not blank. -/
def tokens (line : Bytes) : List Bytes := (line.splitOnP isBlank).filter fun arg => !arg.isEmpty

/-- `PING\r\n`: arguments on one line. -/
def inline (grow : ℕ → Bool) : Parser UInt8 (List Bytes) := do
  let line ← Parser.line lf
  let argv := tokens (stripCr line)
  Parser.check (argv.length ≤ respMaxArgs)
  Parser.check (argv.length = 0 || respArgvPoolReserve grow argv.length)
  return argv

/-! ## The array form -/

/-- The digits of a count or a length, up to its `CRLF`; `n` is the value so far. -/
def number (max : ℕ) (n : ℕ) : Parser UInt8 ℕ
  | [] => .more
  | b :: buf =>
    if b = cr then
      match buf with
      | [] => .more
      | c :: buf => if c = lf then .done n buf else .reject
    else if b < zero ∨ nine < b then .reject
    else if max < n * 10 + (b.toNat - zero.toNat) then .reject
    else number max (n * 10 + (b.toNat - zero.toNat)) buf

/-- The element `a` of the array. -/
def bulk (grow : ℕ → Bool) (a : ℕ) : Parser UInt8 Bytes := do
  Parser.token dollar
  let blen ← number respMaxBulk 0
  let payload ← Parser.take (blen + 2)
  Parser.check (payload.drop blen = [cr, lf])
  Parser.check (respArgvPoolReserve grow (a + 1))
  return payload.take blen

/-- `n` elements, from the element `a` on. -/
def bulks (grow : ℕ → Bool) : ℕ → ℕ → Parser UInt8 (List Bytes)
  | 0, _ => return []
  | n + 1, a => do
    let arg ← bulk grow a
    let args ← bulks grow n (a + 1)
    return arg :: args

/-- `*2\r\n$3\r\nGET\r\n$1\r\nk\r\n`: an array of strings. -/
def array (grow : ℕ → Bool) : Parser UInt8 (List Bytes) := do
  Parser.token star
  let n ← number respMaxArgs 0
  Parser.check (respArgvPoolReserve grow (min n respArgvPoolInit))
  bulks grow n 0

/-- The frame at the front of the buffer. -/
def respParse (grow : ℕ → Bool) : Parser UInt8 (List Bytes)
  | [] => .more
  | b :: buf => if b ≠ star then inline grow (b :: buf) else array grow (b :: buf)

/-- `resp_parse_one`: the value returned, and the arguments. The buffer is shorter than 2^31 bytes,
so that the number of bytes consumed is an `int`. -/
def respParseOne (grow : ℕ → Bool) (buf : Bytes) : ℤ × List Bytes :=
  match respParse grow buf with
  | .more => (0, [])
  | .reject => (-1, [])
  | .done argv rest => ((buf.length - rest.length : ℕ), argv)

example : respParseOne (fun _ => true) [42, 49, 13, 10, 36, 50, 13, 10, 104, 105, 13, 10, 42] =
    (12, [[104, 105]]) := by decide

/-! ## The parser is incremental -/

theorem number_cons {max n : ℕ} {b : UInt8} (hb : b ≠ cr) (buf : Bytes) :
    number max n (b :: buf) =
      if b < zero ∨ nine < b ∨ max < n * 10 + (b.toNat - zero.toNat) then .reject
      else number max (n * 10 + (b.toNat - zero.toNat)) buf := by
  rw [number.eq_def]
  simp only [if_neg hb]
  by_cases hdigit : b < zero ∨ nine < b
  · rw [if_pos hdigit, if_pos (by tauto)]
  · rw [if_neg hdigit]
    by_cases hmax : max < n * 10 + (b.toNat - zero.toNat)
    · rw [if_pos hmax, if_pos (by tauto)]
    · rw [if_neg hmax, if_neg (by tauto)]

theorem consumes_number (max n : ℕ) : Consumes (number max n) := by
  refine ⟨fun {buf a rest} h => ?_⟩
  induction buf generalizing n with
  | nil => cases h
  | cons b buf ih =>
    by_cases hb : b = cr
    · subst hb
      cases buf with
      | nil => cases h
      | cons c buf =>
        simp only [number, if_true] at h
        split at h
        · cases h
          simp only [List.length_cons]
          omega
        · cases h
    · rw [number_cons hb] at h
      split at h
      · cases h
      · have := ih _ h
        rw [List.length_cons]
        omega

theorem incremental_number (max n : ℕ) : Incremental (number max n) := by
  refine ⟨fun {buf a rest} h ext => ?_, fun {buf} h ext => ?_, fun {buf a rest} h => ?_,
    fun {used a rest} h => ?_⟩
  · induction buf generalizing n with
    | nil => cases h
    | cons b buf ih =>
      by_cases hb : b = cr
      · subst hb
        cases buf with
        | nil => cases h
        | cons c buf =>
          simp only [number, List.cons_append, if_true] at h ⊢
          split at h
          next hc =>
            cases h
            rw [if_pos hc]
          next => cases h
      · rw [List.cons_append]
        rw [number_cons hb] at h ⊢
        split at h
        next => cases h
        next hdigit =>
          rw [if_neg hdigit]
          exact ih _ h
  · induction buf generalizing n with
    | nil => cases h
    | cons b buf ih =>
      by_cases hb : b = cr
      · subst hb
        cases buf with
        | nil => cases h
        | cons c buf =>
          simp only [number, List.cons_append, if_true] at h ⊢
          split at h
          next => cases h
          next hc => rw [if_neg hc]
      · rw [List.cons_append]
        rw [number_cons hb] at h ⊢
        split at h
        next hdigit => rw [if_pos hdigit]
        next hdigit =>
          rw [if_neg hdigit]
          exact ih _ h
  · induction buf generalizing n with
    | nil => cases h
    | cons b buf ih =>
      by_cases hb : b = cr
      · subst hb
        cases buf with
        | nil => cases h
        | cons c buf =>
          simp only [number, if_true] at h
          split at h
          next =>
            cases h
            exact (List.suffix_cons c rest).trans (List.suffix_cons cr _)
          next => cases h
      · rw [number_cons hb] at h
        split at h
        next => cases h
        next => exact (ih _ h).trans (List.suffix_cons b buf)
  · induction used generalizing n with
    | nil => exact absurd ((consumes_number max n).lt h) (lt_irrefl _)
    | cons b used ih =>
      by_cases hb : b = cr
      · subst hb
        cases used with
        | nil =>
          cases rest with
          | nil => cases h
          | cons c rest =>
            simp only [number, List.cons_append, List.nil_append, if_true] at h
            split at h
            next => exact absurd (Outcome.done.inj h).2.symm (List.cons_ne_self c rest)
            next => cases h
        | cons c used =>
          simp only [number, List.cons_append, if_true] at h ⊢
          split at h
          next hc =>
            obtain ⟨rfl, hrest⟩ := Outcome.done.inj h
            rw [if_pos hc, List.append_left_eq_self.mp hrest]
          next => cases h
      · rw [List.cons_append] at h
        rw [number_cons hb] at h ⊢
        split at h
        next => cases h
        next hdigit =>
          rw [if_neg hdigit]
          exact ih _ h

theorem incremental_bulk (grow : ℕ → Bool) (a : ℕ) : Incremental (bulk grow a) :=
  (Incremental.token dollar).bind fun _ => (incremental_number _ _).bind fun blen =>
    (Incremental.take (blen + 2)).bind fun _ => (Incremental.check _).bind fun _ =>
      (Incremental.check _).bind fun _ => Incremental.pure _

theorem incremental_bulks (grow : ℕ → Bool) (n a : ℕ) : Incremental (bulks grow n a) := by
  induction n generalizing a with
  | zero => exact Incremental.pure []
  | succ n ih =>
    exact (incremental_bulk grow a).bind fun _ => (ih (a + 1)).bind fun _ => Incremental.pure _

theorem incremental_array (grow : ℕ → Bool) :
    Incremental (array grow) ∧ Consumes (array grow) := by
  have hrest : ∀ _ : Unit, Incremental (do
      let n ← number respMaxArgs 0
      Parser.check (respArgvPoolReserve grow (min n respArgvPoolInit))
      bulks grow n 0 : Parser UInt8 (List Bytes)) := fun _ =>
    (incremental_number _ _).bind fun n => (Incremental.check _).bind fun _ =>
      incremental_bulks grow n 0
  exact ⟨(Incremental.token star).bind hrest, (Consumes.token star).bind hrest⟩

theorem incremental_inline (grow : ℕ → Bool) :
    Incremental (inline grow) ∧ Consumes (inline grow) := by
  have hrest : ∀ line, Incremental (do
      let argv := tokens (stripCr line)
      Parser.check (argv.length ≤ respMaxArgs)
      Parser.check (argv.length = 0 || respArgvPoolReserve grow argv.length)
      return argv : Parser UInt8 (List Bytes)) := fun _ =>
    (Incremental.check _).bind fun _ => (Incremental.check _).bind fun _ => Incremental.pure _
  exact ⟨(Incremental.line lf).bind hrest, (Consumes.line lf).bind hrest⟩

/-- The first byte decides the form. -/
theorem respParse_cons (grow : ℕ → Bool) (b : UInt8) : ∃ p : Parser UInt8 (List Bytes),
    Incremental p ∧ Consumes p ∧ ∀ buf, respParse grow (b :: buf) = p (b :: buf) := by
  by_cases hb : b = star
  · exact ⟨array grow, (incremental_array grow).1, (incremental_array grow).2,
      fun _ => if_neg (not_not.mpr hb)⟩
  · exact ⟨inline grow, (incremental_inline grow).1, (incremental_inline grow).2, fun _ => if_pos hb⟩

theorem consumes_respParse (grow : ℕ → Bool) : Consumes (respParse grow) := by
  refine ⟨fun {buf a rest} h => ?_⟩
  cases buf with
  | nil => cases h
  | cons b buf =>
    obtain ⟨p, -, hp, heq⟩ := respParse_cons grow b
    rw [heq] at h
    exact hp.lt h

/-- **The parser is incremental.** -/
theorem incremental_respParse (grow : ℕ → Bool) : Incremental (respParse grow) := by
  refine ⟨fun {buf a rest} h ext => ?_, fun {buf} h ext => ?_, fun {buf a rest} h => ?_,
    fun {used a rest} h => ?_⟩
  · cases buf with
    | nil => cases h
    | cons b buf =>
      obtain ⟨p, hp, -, heq⟩ := respParse_cons grow b
      rw [List.cons_append]
      rw [heq] at h ⊢
      exact hp.done h ext
  · cases buf with
    | nil => cases h
    | cons b buf =>
      obtain ⟨p, hp, -, heq⟩ := respParse_cons grow b
      rw [List.cons_append]
      rw [heq] at h ⊢
      exact hp.reject h ext
  · cases buf with
    | nil => cases h
    | cons b buf =>
      obtain ⟨p, hp, -, heq⟩ := respParse_cons grow b
      rw [heq] at h
      exact hp.suffix h
  · cases used with
    | nil => exact absurd ((consumes_respParse grow).lt h) (lt_irrefl _)
    | cons b used =>
      obtain ⟨p, hp, -, heq⟩ := respParse_cons grow b
      rw [List.cons_append] at h
      rw [heq] at h ⊢
      exact hp.exact h

end Alcove.Resp
