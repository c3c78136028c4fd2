import Alcove.Json.Sound

/-!
# The JSON decoder accepts the grammar

What the grammar derives, the decoder reads, if the tree is `Acceptable` (`jsDecode_yields`). A number
ends where no longer one could go on (`Stops`), which is so before white space, before a separator or
closing bracket, and at the end.

**Main result:** `jsondecode_iff`.
-/

namespace Alcove.Json

open Lib Cursor Json

variable {strtod : List UInt8 → UInt64} {s t u r : List UInt8} {c : UInt8}

/-! ## White space and what ends a number -/

/-- No number goes on with the first byte. -/
def Stops (r : List UInt8) : Prop :=
  ∀ c, r.head? = some c → isDigit c = false ∧ c ≠ 0x2e ∧ c ≠ 0x65 ∧ c ≠ 0x45

theorem stops_nil : Stops [] := by
  intro c hc
  cases hc

theorem stops_cons (h : isDigit c = false ∧ c ≠ 0x2e ∧ c ≠ 0x65 ∧ c ≠ 0x45) : Stops (c :: r) := by
  intro c' hc'
  obtain rfl : c = c' := Option.some.inj hc'
  exact h

theorem stops_of_isWs (hc : isWs c) : Stops (c :: r) := by
  apply stops_cons
  simp only [isWs, Bool.or_eq_true, beq_iff_eq] at hc
  rcases hc with ((rfl | rfl) | rfl) | rfl <;> decide

/-- White space ends a number, if what follows it does. -/
theorem stops_of_ws (h : Ws u t) (ht : Stops t) : Stops u := by
  cases h with
  | nil => exact ht
  | cons hc => exact stops_of_isWs hc

theorem Stops.not_digit (h : Stops r) : r.head?.any isDigit = false := by
  cases r with
  | nil => rfl
  | cons c r => exact (h c rfl).1

theorem dropWhile_of_ws (h : Ws s t) (ht : t.head?.any isWs = false) : s.dropWhile isWs = t := by
  induction h with
  | nil =>
    rename_i t
    cases t with
    | nil => rfl
    | cons c t => exact List.dropWhile_cons_of_neg (by simpa using ht)
  | cons hc _ ih =>
    rw [List.dropWhile_cons_of_pos hc]
    exact ih ht

theorem jsSkipWs_yields (h : Ws s t) (ht : t.head?.any isWs = false) : jsSkipWs.Yields s () t :=
  dropWhile_of_ws h ht ▸ Yields.skipWhile isWs s

/-! ## Numbers -/

theorem dropWhile_digits {ds : List UInt8} (hds : ∀ d ∈ ds, isDigit d)
    (hr : r.head?.any isDigit = false) : (ds ++ r).dropWhile isDigit = r := by
  induction ds with
  | nil =>
    cases r with
    | nil => rfl
    | cons c r => exact List.dropWhile_cons_of_neg (by simpa using hr)
  | cons d ds ih =>
    rw [List.cons_append, List.dropWhile_cons_of_pos (hds d List.mem_cons_self)]
    exact ih fun d' hd' => hds d' (List.mem_cons_of_mem _ hd')

theorem jsDigits_yields {ds : List UInt8} (hds : JsonNumber.Digits ds)
    (hr : r.head?.any isDigit = false) : jsDigits.Yields (ds ++ r) () r := by
  have hdrop := dropWhile_digits hds.2 hr
  cases ds with
  | nil => exact absurd rfl hds.1
  | cons d ds =>
    apply Yields.bind (Yields.test 0 isDigit)
    have hd : isDigit d := hds.2 d List.mem_cons_self
    rw [List.cons_append, List.getElem?_cons_zero, Option.any_some, hd, if_pos rfl]
    have hy := Yields.skipWhile isDigit (d :: ds ++ r)
    rwa [hdrop] at hy

theorem jsIntPart_yields {ds : List UInt8} (hds : JsonNumber.Digits ds)
    (hzero : ds.head? = some 0x30 → ds = [0x30]) (hr : r.head?.any isDigit = false) :
    jsIntPart.Yields (ds ++ r) () r := by
  have hdrop := dropWhile_digits hds.2 hr
  cases ds with
  | nil => exact absurd rfl hds.1
  | cons d ds =>
    apply Yields.bind (Yields.test 0 isDigit)
    have hd : isDigit d := hds.2 d List.mem_cons_self
    rw [List.cons_append, List.getElem?_cons_zero, Option.any_some, hd, if_pos rfl]
    apply Yields.bind (Yields.test 0 _)
    apply Yields.bind (Yields.test 1 _)
    have hnot : ((d :: (ds ++ r))[0]?.any (· == 0x30) && (d :: (ds ++ r))[1]?.any isDigit) = false := by
      by_cases h0 : d = 0x30
      · obtain rfl : ds = [] := by simpa [h0] using hzero
        have hhead : r[0]?.any isDigit = false := by rwa [← List.head?_eq_getElem?]
        rw [List.nil_append, List.getElem?_cons_succ, hhead, Bool.and_false]
      · simp [h0]
    rw [hnot, if_neg (by simp)]
    have hy := Yields.skipWhile isDigit (d :: ds ++ r)
    rwa [hdrop] at hy

theorem jsPart_some {f : UInt8 → Bool} {part : Cursor UInt8 Unit} (hc : f c)
    (hp : part.Yields s () r) : (jsPart f part).Yields (c :: s) true r := by
  apply Yields.bind (Yields.skipIf_pos hc)
  rw [if_pos rfl]
  exact Yields.map hp

theorem jsPart_none {f : UInt8 → Bool} {part : Cursor UInt8 Unit} (hs : s.head?.any f = false) :
    (jsPart f part).Yields s false s := by
  apply Yields.bind (Yields.skipIf_neg hs)
  rw [if_neg (by simp)]
  exact Yields.pure

theorem jsExponent_yields {sign : Option UInt8} {ds : List UInt8}
    (hsign : ∀ c, sign = some c → c = 0x2b ∨ c = 0x2d) (hds : JsonNumber.Digits ds)
    (hr : r.head?.any isDigit = false) : jsExponent.Yields (sign.toList ++ ds ++ r) () r := by
  cases sign with
  | none =>
    refine Yields.bind (Yields.skipIf_neg ?_) (jsDigits_yields hds hr)
    cases ds with
    | nil => exact absurd rfl hds.1
    | cons d ds =>
      have hd : isDigit d := hds.2 d List.mem_cons_self
      have hne : d ≠ 0x2b ∧ d ≠ 0x2d := by
        constructor <;>
          · rintro rfl
            cases hd
      simpa using hne
  | some c =>
    refine Yields.bind (Yields.skipIf_pos ?_) (jsDigits_yields hds hr)
    simpa using hsign c rfl

/-- A number begins with its sign or a digit. -/
theorem number_head {x : JsonNumber} (hx : x.Valid) :
    ∃ c t, x.text = c :: t ∧ (c = 0x2d ∨ isDigit c) := by
  obtain ⟨minus, int, frac, exp⟩ := x
  obtain ⟨d, ds, rfl⟩ : ∃ d ds, int = d :: ds := List.exists_cons_of_ne_nil hx.int.1
  cases minus with
  | true => exact ⟨_, _, rfl, .inl rfl⟩
  | false => exact ⟨_, _, rfl, .inr (hx.int.2 d List.mem_cons_self)⟩

/-- **Every number of the grammar is scanned.** -/
theorem jsScanNumber_yields {x : JsonNumber} (hx : x.Valid) (hr : Stops r) :
    jsScanNumber.Yields (x.text ++ r) (x.frac.isSome || x.exp.isSome) r := by
  obtain ⟨minus, int, frac, exp⟩ := x
  have hexp : (jsPart (fun c => c == 0x65 || c == 0x45) jsExponent).Yields
      (JsonNumber.expText exp ++ r) exp.isSome r := by
    cases exp with
    | none =>
      apply jsPart_none
      cases r with
      | nil => rfl
      | cons c r => simpa [JsonNumber.expText] using (hr c rfl).2.2
    | some e =>
      obtain ⟨e, sign, ds⟩ := e
      obtain ⟨he, hsign, hds⟩ := hx.exp e sign ds rfl
      exact jsPart_some (by simpa using he) (jsExponent_yields hsign hds hr.not_digit)
  have hstop : (JsonNumber.expText exp ++ r).head?.any isDigit = false ∧
      (JsonNumber.expText exp ++ r).head?.any (· == 0x2e) = false := by
    cases exp with
    | none =>
      cases r with
      | nil => exact ⟨rfl, rfl⟩
      | cons c r => exact ⟨(hr c rfl).1, by simpa [JsonNumber.expText] using (hr c rfl).2.1⟩
    | some e =>
      obtain ⟨e, sign, ds⟩ := e
      rcases (hx.exp e sign ds rfl).1 with rfl | rfl <;> exact ⟨rfl, rfl⟩
  have hfrac : (jsPart (· == 0x2e) jsDigits).Yields
      (JsonNumber.fracText frac ++ (JsonNumber.expText exp ++ r)) frac.isSome
        (JsonNumber.expText exp ++ r) := by
    cases frac with
    | none => exact jsPart_none hstop.2
    | some ds => exact jsPart_some (by simp) (jsDigits_yields (hx.frac ds rfl) hstop.1)
  have hstop' : (JsonNumber.fracText frac ++ (JsonNumber.expText exp ++ r)).head?.any isDigit =
      false := by
    cases frac with
    | none => exact hstop.1
    | some ds => rfl
  have hint := jsIntPart_yields hx.int hx.noLeadingZero hstop'
  have htext : JsonNumber.text ⟨minus, int, frac, exp⟩ ++ r = (if minus then [0x2d] else []) ++
      (int ++ (JsonNumber.fracText frac ++ (JsonNumber.expText exp ++ r))) := by
    simp [JsonNumber.text]
  have hrest {found : Bool} {s : List UInt8} (hminus : (skipIf (· == 0x2d)).Yields s found
      (int ++ (JsonNumber.fracText frac ++ (JsonNumber.expText exp ++ r)))) :
      jsScanNumber.Yields s (frac.isSome || exp.isSome) r :=
    Yields.bind hminus (Yields.bind hint (Yields.bind hfrac (Yields.bind hexp Yields.pure)))
  rw [htext]
  cases minus with
  | true => exact hrest (Yields.skipIf_pos (by simp))
  | false =>
    refine hrest (Yields.skipIf_neg ?_)
    obtain ⟨d, ds, rfl⟩ : ∃ d ds, int = d :: ds := List.exists_cons_of_ne_nil hx.int.1
    have hd : isDigit d := hx.int.2 d List.mem_cons_self
    have hne : d ≠ 0x2d := by
      rintro rfl
      cases hd
    simpa using hne

/-! ## Strings -/

theorem jsHex4_yields {i : ℕ} {h₁ h₂ h₃ h₄ : UInt8} (hvalid : (JsonChar.hex h₁ h₂ h₃ h₄).Valid)
    (hs : s.drop i = h₁ :: h₂ :: h₃ :: h₄ :: t) :
    (jsHex4 i).Yields s (some (codeUnit h₁ h₂ h₃ h₄)) s := by
  have hlen : i + 4 ≤ s.length := by
    have := congrArg List.length hs
    rw [List.length_drop] at this
    simp only [List.length_cons] at this
    omega
  have hget (k : ℕ) : s[i + k]? = (h₁ :: h₂ :: h₃ :: h₄ :: t)[k]? := by
    rw [← hs, List.getElem?_drop]
  apply Yields.bind (Yields.avail (i + 4) s)
  rw [if_pos (decide_eq_true hlen)]
  apply Yields.bind (Yields.peek (hget 0))
  apply Yields.bind (Yields.peek (hget 1))
  apply Yields.bind (Yields.peek (hget 2))
  apply Yields.bind (Yields.peek (hget 3))
  rw [hexValue_eq_some.mpr ⟨hvalid, rfl⟩]
  exact Yields.pure

theorem jsDecodeLow_yields {cp : ℕ} {l₁ l₂ l₃ l₄ : UInt8}
    (hvalid : (JsonChar.hex l₁ l₂ l₃ l₄).Valid) (hlow : IsLow (codeUnit l₁ l₂ l₃ l₄)) :
    (jsDecodeLow cp).Yields ((JsonChar.hex l₁ l₂ l₃ l₄).text ++ r)
      (utf8Encode (0x10000 + (cp - 0xd800) <<< 10 + (codeUnit l₁ l₂ l₃ l₄ - 0xdc00))) r := by
  have hlen : 6 ≤ ((JsonChar.hex l₁ l₂ l₃ l₄).text ++ r).length := by
    simp [JsonChar.text]
  obtain ⟨hlo, hhi⟩ := hlow
  apply Yields.bind (Yields.avail 6 _)
  apply Yields.bind (Yields.test 0 _)
  apply Yields.bind (Yields.test 1 _)
  rw [decide_eq_true hlen, if_pos (by simp [JsonChar.text])]
  apply Yields.bind (jsHex4_yields hvalid (show _ = l₁ :: l₂ :: l₃ :: l₄ :: r from rfl))
  simp only
  rw [if_neg (by omega)]
  exact Yields.map (Yields.skip hlen)

theorem hex_unicode_yields {h₁ h₂ h₃ h₄ : UInt8} {x : List UInt8}
    (hvalid : (JsonChar.hex h₁ h₂ h₃ h₄).Valid) (hzero : codeUnit h₁ h₂ h₃ h₄ ≠ 0)
    (hrest : (if 0xd800 ≤ codeUnit h₁ h₂ h₃ h₄ ∧ codeUnit h₁ h₂ h₃ h₄ ≤ 0xdbff then
        jsDecodeLow (codeUnit h₁ h₂ h₃ h₄)
      else if 0xdc00 ≤ codeUnit h₁ h₂ h₃ h₄ ∧ codeUnit h₁ h₂ h₃ h₄ ≤ 0xdfff then fail
      else return utf8Encode (codeUnit h₁ h₂ h₃ h₄)).Yields t x r) :
    jsDecodeUnicode.Yields (h₁ :: h₂ :: h₃ :: h₄ :: t) x r := by
  apply Yields.bind (jsHex4_yields hvalid rfl)
  simp only
  rw [if_neg hzero]
  exact Yields.bind (Yields.skip (by simp)) hrest

/-- An escape is passed over in one round. -/
theorem escape_yields {m x : List UInt8} (h : jsDecodeEscape.Yields t x r) :
    (jsDecodeChar m).Yields (0x5c :: t) (.inl (m ++ x)) r := by
  apply Yields.bind (Yields.avail 1 (0x5c :: t))
  rw [if_pos (by simp)]
  apply Yields.bind Yields.next
  rw [if_neg (by decide), if_neg (by decide), if_neg (by decide)]
  exact Yields.map h

theorem jsDecodeEscape_short {v : UInt8} (h : shortEscapes.lookup c = some v) :
    jsDecodeEscape.Yields (c :: r) [v] r := by
  apply Yields.bind (Yields.avail 1 (c :: r))
  rw [if_pos (by simp)]
  apply Yields.bind Yields.next
  simp only [h]
  exact Yields.pure

theorem jsDecodeEscape_unicode {x : List UInt8} (h : jsDecodeUnicode.Yields t x r) :
    jsDecodeEscape.Yields (0x75 :: t) x r := by
  apply Yields.bind (Yields.avail 1 (0x75 :: t))
  rw [if_pos (by simp)]
  apply Yields.bind Yields.next
  have hlookup : shortEscapes.lookup 0x75 = none := by decide
  simp only [hlookup, if_true]
  exact h

theorem jsDecodeChars_loops {cs : List JsonChar} {m' : List UInt8} (hm : Spells cs m')
    (hcs : ∀ c ∈ cs, c.Valid) (m : List UInt8) :
    Yields.Loops jsDecodeChar m (cs.flatMap JsonChar.text ++ 0x22 :: r) (m ++ m') r := by
  induction hm generalizing m with
  | nil =>
    apply Yields.Loops.done
    apply Yields.bind (Yields.avail 1 (0x22 :: r))
    rw [if_pos (by simp)]
    apply Yields.bind Yields.next
    rw [if_pos rfl, List.append_nil]
    exact Yields.pure
  | @raw c cs m' _ ih =>
    obtain ⟨hctl, hquote, hback⟩ := hcs _ List.mem_cons_self
    have ih' := ih (fun c hc => hcs c (List.mem_cons_of_mem _ hc)) (m ++ [c])
    rw [List.append_assoc, List.singleton_append] at ih'
    refine Yields.Loops.next ?_ (Nat.lt_succ_self _) ih'
    apply Yields.bind (Yields.avail 1 _)
    rw [if_pos (by simp [JsonChar.text])]
    apply Yields.bind Yields.next
    rw [if_neg hquote, if_neg (UInt8.not_lt.mpr hctl), if_pos hback]
    exact Yields.pure
  | @esc c v cs m' hc _ ih =>
    have ih' := ih (fun c hc => hcs c (List.mem_cons_of_mem _ hc)) (m ++ [v])
    rw [List.append_assoc, List.singleton_append] at ih'
    exact Yields.Loops.next (escape_yields (jsDecodeEscape_short hc))
      (Nat.lt_succ_of_lt (Nat.lt_succ_self _)) ih'
  | @scalar h₁ h₂ h₃ h₄ cs m' hzero hhigh hlow _ ih =>
    have ih' := ih (fun c hc => hcs c (List.mem_cons_of_mem _ hc))
      (m ++ utf8Encode (codeUnit h₁ h₂ h₃ h₄))
    rw [List.append_assoc] at ih'
    refine Yields.Loops.next (escape_yields (jsDecodeEscape_unicode
      (hex_unicode_yields (hcs _ List.mem_cons_self) hzero ?_))) ?_ ih'
    · unfold IsHigh at hhigh
      unfold IsLow at hlow
      rw [if_neg hhigh, if_neg hlow]
      exact Yields.pure
    · simp [JsonChar.text]
      omega
  | @pair h₁ h₂ h₃ h₄ l₁ l₂ l₃ l₄ cs m' hhigh hlow _ ih =>
    have ih' := ih (fun c hc => hcs c (List.mem_cons_of_mem _ (List.mem_cons_of_mem _ hc)))
      (m ++ utf8Encode (0x10000 + (codeUnit h₁ h₂ h₃ h₄ - 0xd800) <<< 10 +
        (codeUnit l₁ l₂ l₃ l₄ - 0xdc00)))
    rw [List.append_assoc] at ih'
    have hzero : codeUnit h₁ h₂ h₃ h₄ ≠ 0 := fun h => by
      have := hhigh.1
      omega
    refine Yields.Loops.next (escape_yields (jsDecodeEscape_unicode
      (hex_unicode_yields (hcs _ List.mem_cons_self) hzero ?_))) ?_ ih'
    · unfold IsHigh at hhigh
      rw [if_pos hhigh]
      show (jsDecodeLow _).Yields (((JsonChar.hex l₁ l₂ l₃ l₄).text ++ cs.flatMap JsonChar.text) ++
        0x22 :: r) _ _
      rw [List.append_assoc]
      exact jsDecodeLow_yields (hcs _ (List.mem_cons_of_mem _ List.mem_cons_self)) hlow
    · simp [JsonChar.text]
      omega

/-- **Every proper string of the grammar is read.** -/
theorem jsDecodeString_yields {cs : List JsonChar} {m : List UInt8} (hs : s.length ≤ intMax)
    (h : DerivesString cs (0x22 :: s) r) (hm : Spells cs m) :
    jsDecodeString.Yields s (CStr.ofBytes m) r := by
  cases h with
  | mk hcs =>
    have hlen := hm.length_le
    rw [List.length_append] at hs
    apply Yields.bind (Yields.loop (jsDecodeChars_loops hm hcs []))
    rw [List.nil_append, makeString, if_neg (by omega)]
    exact Yields.pure

/-! ## Containers -/

variable {n : ℕ} {decode : Cursor UInt8 Exp} {j : Json} {v : Exp}

/-- `decode` reads every value that the grammar derives, with white space before it, if its tree is
acceptable and what follows would not go on with a number. -/
def Decodes (strtod : List UInt8 → UInt64) (n : ℕ) (decode : Cursor UInt8 Exp) : Prop :=
  ∀ s t r j v, s.length ≤ intMax → Ws s t → Derives j t r → Stops r → Acceptable n j →
    Means strtod j v → decode.Yields s v r

theorem skipWs_to (h : Ws s (c :: r)) (hc : isWs c = false) : jsSkipWs.Yields s () (c :: r) :=
  jsSkipWs_yields h (by rwa [List.head?_cons, Option.any_some])

theorem skipIf_eq {x : UInt8} : (skipIf (· == x)).Yields (x :: r) true r :=
  Yields.skipIf_pos (beq_self_eq_true x)

theorem skipIf_ne {x : UInt8} (h : c ≠ x) : (skipIf (· == x)).Yields (c :: r) false (c :: r) :=
  Yields.skipIf_neg (by rwa [List.head?_cons, Option.any_some, beq_eq_false_iff_ne])

/-- A value begins with a byte that is no white space and closes no array. -/
theorem derives_head (h : Derives j s r) : ∃ c t, s = c :: t ∧ isWs c = false ∧ c ≠ 0x5d := by
  cases h with
  | null => exact ⟨_, _, rfl, by decide, by decide⟩
  | true => exact ⟨_, _, rfl, by decide, by decide⟩
  | false => exact ⟨_, _, rfl, by decide, by decide⟩
  | @number x _ hx =>
    obtain ⟨c, t, hct, hc⟩ := number_head hx
    refine ⟨c, t ++ r, by rw [hct, List.cons_append], ?_⟩
    rcases hc with rfl | hc
    · decide
    · simp only [isDigit, Bool.and_eq_true, decide_eq_true_eq, UInt8.le_iff_toNat_le,
        UInt8.reduceToNat] at hc
      simp only [isWs, Bool.or_eq_false_iff, beq_eq_false_iff_ne, ne_eq, ← UInt8.toNat_inj,
        UInt8.reduceToNat]
      omega
  | string h =>
    cases h with
    | mk => exact ⟨_, _, rfl, by decide, by decide⟩
  | emptyArray => exact ⟨_, _, rfl, by decide, by decide⟩
  | array => exact ⟨_, _, rfl, by decide, by decide⟩
  | emptyObject => exact ⟨_, _, rfl, by decide, by decide⟩
  | object => exact ⟨_, _, rfl, by decide, by decide⟩

theorem derives_skipWs (hws : Ws s t) (h : Derives j t r) : jsSkipWs.Yields s () t := by
  obtain ⟨c, t, rfl, hc, -⟩ := derives_head h
  exact skipWs_to hws hc

theorem jsDecodeElements_yields (hr : Accepts strtod (n + 1) decode) (h : Decodes strtod n decode)
    {js : List Json} (hder : Elements Derives js s (0x5d :: r)) (hs : s.length ≤ intMax)
    (hacc : ∀ j ∈ js, Acceptable n j) {vs : List Exp} (hmeans : List.Forall₂ (Means strtod) js vs)
    (els : List Exp) : Yields.Loops (jsDecodeElement decode) els s (els ++ vs) r := by
  generalize hend : (0x5d :: r : List UInt8) = w at hder
  induction hder generalizing els vs with
  | @one j s t u w hst hj hu =>
    subst hend
    obtain _ | ⟨hv, _ | _⟩ := hmeans
    apply Yields.Loops.done
    have hyield := h _ _ _ _ _ hs hst hj (stops_of_ws hu (stops_cons (by decide)))
      (hacc j List.mem_cons_self) hv
    apply Yields.bind hyield
    apply Yields.bind (skipWs_to hu (by decide))
    apply Yields.bind (skipIf_ne (by decide))
    exact Yields.bind skipIf_eq Yields.pure
  | @cons j js s t u x w hst hj hx tail ih =>
    cases hmeans with
    | @cons _ v _ vs hv htail =>
      have hyield := h _ _ _ _ _ hs hst hj (stops_of_ws hx (stops_cons (by decide)))
        (hacc j List.mem_cons_self) hv
      have hlt := (hyield.post (hr _ hs)).1
      have hxlen := Ws.length_le hx
      rw [List.length_cons] at hxlen
      have ih' := ih (by omega) (fun j' hj' => hacc j' (List.mem_cons_of_mem _ hj')) htail
        (els ++ [v]) hend
      rw [List.append_assoc, List.singleton_append] at ih'
      refine Yields.Loops.next ?_ (by omega) ih'
      apply Yields.bind hyield
      apply Yields.bind (skipWs_to hx (by decide))
      exact Yields.bind skipIf_eq Yields.pure

theorem elements_skip {js : List Json} (h : Elements Derives js s r) : ∃ c t,
    jsSkipWs.Yields s () (c :: t) ∧ c ≠ 0x5d ∧ (c :: t).length ≤ s.length ∧
      Elements Derives js (c :: t) r := by
  cases h with
  | one hs hj hr =>
    obtain ⟨c, t, rfl, hc, hne⟩ := derives_head hj
    exact ⟨c, t, skipWs_to hs hc, hne, Ws.length_le hs, .one .nil hj hr⟩
  | cons hs hj hv tail =>
    obtain ⟨c, t, rfl, hc, hne⟩ := derives_head hj
    exact ⟨c, t, skipWs_to hs hc, hne, Ws.length_le hs, .cons .nil hj hv tail⟩

/-- **Every array of the grammar is read.** -/
theorem jsDecodeArray_yields (hr : Accepts strtod n decode)
    (h : ∀ k, n = k + 1 → Decodes strtod k decode) {js : List Json} {vs : List Exp}
    (hder : Derives (.array js) (0x5b :: s) r) (hs : s.length ≤ intMax)
    (hacc : Acceptable n (.array js)) (hmeans : List.Forall₂ (Means strtod) js vs) :
    (jsDecodeArray decode).Yields s (Exp.ofList vs) r := by
  cases hder with
  | emptyArray hws =>
    obtain _ | _ := hmeans
    apply Yields.bind (skipWs_to hws (by decide))
    exact Yields.bind skipIf_eq Yields.pure
  | array hels =>
    have hne : vs ≠ [] := by
      rintro rfl
      cases hmeans
      cases hels
    obtain ⟨c, t, hskip, hc, hlen, hels⟩ := elements_skip hels
    apply Yields.bind hskip
    apply Yields.bind (skipIf_ne hc)
    rw [if_neg (by simp), Exp.ofList_of_ne_nil hne]
    apply Yields.map
    cases hacc with
    | emptyArray => cases hels
    | @array k _ hacc =>
      exact Yields.loop (jsDecodeElements_yields hr (h k rfl) hels (hlen.trans hs) hacc hmeans [])

/-- A member is read, and then what follows it. -/
theorem jsDecodeMember_yields (hr : Accepts strtod (n + 1) decode) (h : Decodes strtod n decode)
    {k : List JsonChar} {m : List UInt8} {d : Dict Exp} {y : Dict Exp ⊕ Dict Exp}
    (hder : Member Derives (k, j) s (c :: t)) (hs : s.length ≤ intMax) (hc : isWs c = false)
    (hstops : Stops (c :: t)) (hk : Spells k m) (hacc : Acceptable n j) (hv : Means strtod j v)
    (hend : (do
      let comma ← skipIf (· == 0x2c)
      if comma then return .inl (d.set (CStr.ofBytes m) v)
      else
        let close ← skipIf (· == 0x7d)
        if close then return .inr (d.set (CStr.ofBytes m) v) else fail : Cursor UInt8 _).Yields
          (c :: t) y r) : (jsDecodeMember decode d).Yields s y r ∧ t.length < s.length := by
  cases hder with
  | @mk _ _ _ a b e w x _ hsa hka hcolon hew hj hx =>
    cases hka with
    | @mk b hvalid =>
      have halen := Ws.length_le hsa
      have hblen := Ws.length_le hcolon
      have hxlen := Ws.length_le hx
      simp only [List.length_cons, List.length_append] at halen hblen hxlen
      have hyield := h e w x j v (by omega) hew hj (stops_of_ws hx hstops) hacc hv
      have hlt := (hyield.post (hr e (by omega))).1
      refine ⟨?_, by omega⟩
      apply Yields.bind (skipWs_to hsa (by decide))
      apply Yields.bind skipIf_eq
      rw [if_pos rfl]
      apply Yields.bind (jsDecodeString_yields (by rw [List.length_append, List.length_cons]; omega)
        (.mk hvalid) hk)
      apply Yields.bind (skipWs_to hcolon (by decide))
      apply Yields.bind skipIf_eq
      rw [if_pos rfl]
      apply Yields.bind hyield
      exact Yields.bind (skipWs_to hx hc) hend

theorem jsDecodeMembers_yields (hr : Accepts strtod (n + 1) decode) (h : Decodes strtod n decode)
    {kvs : List (List JsonChar × Json)} (hder : Members Derives kvs s (0x7d :: r))
    (hs : s.length ≤ intMax) (hacc : ∀ kv ∈ kvs, Acceptable n kv.2) {es : List (CStr × Exp)}
    (hes : Entries (Means strtod) kvs es) (d : Dict Exp) :
    Yields.Loops (jsDecodeMember decode) d s (es.foldl (fun d e => d.set e.1 e.2) d) r := by
  generalize hend : (0x7d :: r : List UInt8) = w at hder
  induction hder generalizing d es with
  | @one kv s w hm =>
    subst hend
    obtain _ | ⟨hk, hj, _ | _⟩ := hes
    apply Yields.Loops.done
    apply (jsDecodeMember_yields hr h hm hs (by decide) (stops_cons (by decide)) hk
      (hacc _ List.mem_cons_self) hj _).1
    apply Yields.bind (skipIf_ne (by decide))
    exact Yields.bind skipIf_eq Yields.pure
  | @cons kv kvs s u w hm tail ih =>
    cases hes with
    | cons hk hj hes =>
      obtain ⟨hyield, hlt⟩ := jsDecodeMember_yields (d := d) hr h hm hs (by decide)
        (stops_cons (by decide)) hk (hacc _ List.mem_cons_self) hj
        (Yields.bind skipIf_eq Yields.pure)
      exact Yields.Loops.next hyield hlt (ih (by omega)
        (fun kv' hkv' => hacc kv' (List.mem_cons_of_mem _ hkv')) hes _ hend)

theorem members_skip {kvs : List (List JsonChar × Json)} (h : Members Derives kvs s r) : ∃ t,
    jsSkipWs.Yields s () (0x22 :: t) ∧ (0x22 :: t).length ≤ s.length ∧
      Members Derives kvs (0x22 :: t) r := by
  have hmember {kv : List JsonChar × Json} {r : List UInt8} (h : Member Derives kv s r) : ∃ t,
      jsSkipWs.Yields s () (0x22 :: t) ∧ (0x22 :: t).length ≤ s.length ∧
        Member Derives kv (0x22 :: t) r := by
    cases h with
    | mk hs hk hcolon hv hj hr =>
      cases hk with
      | mk hk =>
        exact ⟨_, skipWs_to hs (by decide), Ws.length_le hs, .mk .nil (.mk hk) hcolon hv hj hr⟩
  cases h with
  | one h =>
    obtain ⟨t, hskip, hlen, h⟩ := hmember h
    exact ⟨t, hskip, hlen, .one h⟩
  | cons h tail =>
    obtain ⟨t, hskip, hlen, h⟩ := hmember h
    exact ⟨t, hskip, hlen, .cons h tail⟩

/-- **Every object of the grammar is read.** -/
theorem jsDecodeObject_yields (hr : Accepts strtod n decode)
    (h : ∀ k, n = k + 1 → Decodes strtod k decode) {kvs : List (List JsonChar × Json)}
    {es : List (CStr × Exp)} (hder : Derives (.object kvs) (0x7b :: s) r) (hs : s.length ≤ intMax)
    (hacc : Acceptable n (.object kvs)) (hes : Entries (Means strtod) kvs es) :
    (jsDecodeObject decode).Yields s (.dict (Dict.ofList es)) r := by
  cases hder with
  | emptyObject hws =>
    obtain _ | _ := hes
    apply Yields.bind (skipWs_to hws (by decide))
    exact Yields.bind skipIf_eq Yields.pure
  | object hmem =>
    obtain ⟨t, hskip, hlen, hmem⟩ := members_skip hmem
    apply Yields.bind hskip
    apply Yields.bind (skipIf_ne (by decide))
    rw [if_neg (by simp)]
    apply Yields.map
    cases hacc with
    | emptyObject => cases hmem
    | @object k _ hkeys hacc =>
      exact Yields.loop (jsDecodeMembers_yields hr (h k rfl) hmem (hlen.trans hs) hacc hes _)

/-! ## Values -/

theorem jsWord_yields (word r : List UInt8) : (jsWord word).Yields (word ++ r) true r := by
  have hlen : word.length ≤ (word ++ r).length := by simp
  apply Yields.bind (Yields.avail _ _)
  rw [if_pos (decide_eq_true hlen)]
  apply Yields.bind (Yields.slice hlen)
  rw [List.take_left, if_pos rfl]
  have hskip : (skip word.length : Cursor UInt8 Unit).Yields (word ++ r) ()
      ((word ++ r).drop word.length) := Yields.skip hlen
  rw [List.drop_left] at hskip
  exact Yields.map hskip

/-- **Every value of the grammar is read.** -/
theorem jsDecodeValue_yields (hr : Accepts strtod n decode)
    (h : ∀ k, n = k + 1 → Decodes strtod k decode) (hder : Derives j (c :: s) r)
    (hstops : Stops r) (hs : s.length ≤ intMax) (hacc : Acceptable n j) (hv : Means strtod j v) :
    (jsDecodeValue strtod decode c).Yields (c :: s) v r := by
  have hskip : (skip 1 : Cursor UInt8 Unit).Yields (c :: s) () s := Yields.skip (Nat.le_add_left ..)
  cases hv with
  | null =>
    cases hder with
    | null => exact Yields.bind (jsWord_yields [0x6e, 0x75, 0x6c, 0x6c] r) Yields.pure
  | true =>
    cases hder with
    | true => exact Yields.bind (jsWord_yields [0x74, 0x72, 0x75, 0x65] r) Yields.pure
  | false =>
    cases hder with
    | false => exact Yields.bind (jsWord_yields [0x66, 0x61, 0x6c, 0x73, 0x65] r) Yields.pure
  | number x =>
    generalize hcs : c :: s = t at hder
    cases hder with
    | number hx =>
      obtain ⟨c', t', htext, hc⟩ := number_head hx
      obtain rfl : c = c' := by
        rw [htext] at hcs
        exact (List.cons.inj hcs).1
      have hbranch : jsDecodeValue strtod decode c = jsDecodeNumber strtod := by
        have hne : c ≠ 0x7b ∧ c ≠ 0x5b ∧ c ≠ 0x22 ∧ c ≠ 0x74 ∧ c ≠ 0x66 ∧ c ≠ 0x6e := by
          refine ⟨?_, ?_, ?_, ?_, ?_, ?_⟩ <;>
            · rintro rfl
              rcases hc with hc | hc <;> cases hc
        unfold jsDecodeValue
        rw [if_neg hne.1, if_neg hne.2.1, if_neg hne.2.2.1, if_neg hne.2.2.2.1, if_neg hne.2.2.2.2.1,
          if_neg hne.2.2.2.2.2, if_pos hc]
      rw [hbranch]
      exact Yields.map (Yields.span (jsScanNumber_yields hx hstops))
  | string hm =>
    cases hder with
    | string hcs =>
      obtain rfl : c = 0x22 := by
        cases hcs
        rfl
      exact Yields.bind hskip (Yields.map (jsDecodeString_yields hs hcs hm))
  | array hmeans =>
    obtain rfl : c = 0x5b := by cases hder <;> rfl
    exact Yields.bind hskip (jsDecodeArray_yields hr h hder hs hacc hmeans)
  | object hes =>
    obtain rfl : c = 0x7b := by cases hder <;> rfl
    exact Yields.bind hskip (jsDecodeObject_yields hr h hder hs hacc hes)

/-- **The decoder reads what the grammar derives**, nested no deeper than it allows. -/
theorem jsDecode_yields {fuel depth : ℕ} (hdepth : depth + n = jsMaxDepth) (hfuel : n + 1 < fuel) :
    Decodes strtod n (jsDecode strtod fuel depth) := by
  induction n using Nat.strong_induction_on generalizing fuel depth with
  | _ n ih =>
    obtain ⟨fuel, rfl⟩ := Nat.exists_eq_add_one.mpr (Nat.zero_lt_of_lt hfuel)
    intro s t r j v hs hws hder hstops hacc hv
    have hread : Accepts strtod n (jsDecode strtod fuel (depth + 1)) :=
      jsDecode_reads (by omega) (by omega)
    have hnested : ∀ k, n = k + 1 → Decodes strtod k (jsDecode strtod fuel (depth + 1)) := by
      intro k hk
      exact ih k (by omega) (by omega) (by omega)
    have hskip := derives_skipWs hws hder
    have hlen := Ws.length_le hws
    obtain ⟨c, t, rfl, -, -⟩ := derives_head hder
    rw [List.length_cons] at hlen
    rw [jsDecode, if_neg (by omega)]
    apply Yields.bind hskip
    apply Yields.bind (Yields.avail 1 _)
    rw [if_pos (by simp)]
    apply Yields.bind (Yields.peek rfl)
    exact jsDecodeValue_yields hread hnested hder hstops (by omega) hacc hv

/-! ## What has a meaning -/

theorem shortEscapes_isSome (h : c ∈ [0x22, 0x5c, 0x2f, 0x62, 0x66, 0x6e, 0x72, 0x74]) :
    ∃ v, shortEscapes.lookup c = some v := by
  simp only [List.mem_cons, List.not_mem_nil, or_false] at h
  rcases h with rfl | rfl | rfl | rfl | rfl | rfl | rfl | rfl <;> exact ⟨_, rfl⟩

/-- A proper string spells some bytes. -/
theorem exists_spells {cs : List JsonChar} (h : Proper cs) (hcs : ∀ c ∈ cs, c.Valid) :
    ∃ m, Spells cs m := by
  induction h with
  | nil => exact ⟨_, .nil⟩
  | raw _ ih =>
    obtain ⟨m, hm⟩ := ih fun c hc => hcs c (List.mem_cons_of_mem _ hc)
    exact ⟨_, .raw hm⟩
  | esc _ ih =>
    obtain ⟨m, hm⟩ := ih fun c hc => hcs c (List.mem_cons_of_mem _ hc)
    obtain ⟨v, hv⟩ := shortEscapes_isSome (hcs _ List.mem_cons_self)
    exact ⟨_, .esc hv hm⟩
  | scalar hzero hhigh hlow _ ih =>
    obtain ⟨m, hm⟩ := ih fun c hc => hcs c (List.mem_cons_of_mem _ hc)
    exact ⟨_, .scalar hzero hhigh hlow hm⟩
  | pair hhigh hlow _ ih =>
    obtain ⟨m, hm⟩ := ih fun c hc => hcs c (List.mem_cons_of_mem _ (List.mem_cons_of_mem _ hc))
    exact ⟨_, .pair hhigh hlow hm⟩

theorem derivesString_valid {cs : List JsonChar} (h : DerivesString cs s r) : ∀ c ∈ cs, c.Valid := by
  cases h with
  | mk h => exact h

theorem exists_forall₂_means {js : List Json} (h : Elements Derives js s r)
    (ih : ∀ j ∈ js, ∀ s r, Derives j s r → ∃ v, Means strtod j v) :
    ∃ vs, List.Forall₂ (Means strtod) js vs := by
  induction h with
  | one _ hj _ =>
    obtain ⟨v, hv⟩ := ih _ List.mem_cons_self _ _ hj
    exact ⟨_, .cons hv .nil⟩
  | cons _ hj _ _ htail =>
    obtain ⟨v, hv⟩ := ih _ List.mem_cons_self _ _ hj
    obtain ⟨vs, hvs⟩ := htail fun j' hj' => ih j' (List.mem_cons_of_mem _ hj')
    exact ⟨_, .cons hv hvs⟩

theorem exists_entries {kvs : List (List JsonChar × Json)} (h : Members Derives kvs s r)
    (hkeys : ∀ kv ∈ kvs, Proper kv.1)
    (ih : ∀ kv ∈ kvs, ∀ s r, Derives kv.2 s r → ∃ v, Means strtod kv.2 v) :
    ∃ es, Entries (Means strtod) kvs es := by
  have hmember {kv : List JsonChar × Json} {s r : List UInt8} (h : Member Derives kv s r)
      (hkey : Proper kv.1) (ih : ∀ s r, Derives kv.2 s r → ∃ v, Means strtod kv.2 v) :
      ∃ m v, Spells kv.1 m ∧ Means strtod kv.2 v := by
    cases h with
    | mk _ hk _ _ hj _ =>
      obtain ⟨m, hm⟩ := exists_spells hkey (derivesString_valid hk)
      obtain ⟨v, hv⟩ := ih _ _ hj
      exact ⟨m, v, hm, hv⟩
  induction h with
  | one h =>
    obtain ⟨m, v, hm, hv⟩ := hmember h (hkeys _ List.mem_cons_self) (ih _ List.mem_cons_self)
    exact ⟨_, .cons hm hv .nil⟩
  | cons h _ htail =>
    obtain ⟨m, v, hm, hv⟩ := hmember h (hkeys _ List.mem_cons_self) (ih _ List.mem_cons_self)
    obtain ⟨es, hes⟩ := htail (fun kv hkv => hkeys kv (List.mem_cons_of_mem _ hkv))
      fun kv hkv => ih kv (List.mem_cons_of_mem _ hkv)
    exact ⟨_, .cons hm hv hes⟩

/-- **An acceptable tree that is derived has a value.** -/
theorem exists_means (hacc : Acceptable n j) (h : Derives j s r) : ∃ v, Means strtod j v := by
  induction hacc generalizing s r with
  | null => exact ⟨_, .null⟩
  | bool b =>
    cases b with
    | true => exact ⟨_, .true⟩
    | false => exact ⟨_, .false⟩
  | number x => exact ⟨_, .number x⟩
  | string hproper =>
    cases h with
    | string h =>
      obtain ⟨m, hm⟩ := exists_spells hproper (derivesString_valid h)
      exact ⟨_, .string hm⟩
  | emptyArray => exact ⟨_, .array .nil⟩
  | array _ ih =>
    cases h with
    | emptyArray => exact ⟨_, .array .nil⟩
    | array h =>
      obtain ⟨vs, hvs⟩ := exists_forall₂_means h fun j hj s r hder => ih j hj hder
      exact ⟨_, .array hvs⟩
  | emptyObject => exact ⟨_, .object .nil⟩
  | object hkeys _ ih =>
    cases h with
    | emptyObject => exact ⟨_, .object .nil⟩
    | object h =>
      obtain ⟨es, hes⟩ := exists_entries h hkeys fun kv hkv s r hder => ih kv hkv hder
      exact ⟨_, .object hes⟩

/-! ## The command -/

/-- **A text of the grammar is decoded to what it means.** -/
theorem jsDecodeText_yields (hs : s.length ≤ intMax) (h : Text j s)
    (hacc : Acceptable jsMaxDepth j) (hv : Means strtod j v) :
    (jsDecodeText strtod).Yields s v [] := by
  obtain ⟨t, u, hst, hder, hu⟩ := h
  apply Yields.bind (jsDecode_yields (by omega) (by omega) s t u j v hs hst hder
    (stops_of_ws hu stops_nil) hacc hv)
  exact Yields.bind (jsSkipWs_yields hu rfl) Yields.pure

theorem jsDecodeText_reads (hs : s.length ≤ intMax) :
    (jsDecodeText strtod).Reads s fun v r => r = [] →
      ∃ j, Text j s ∧ Acceptable jsMaxDepth j ∧ Means strtod j v := by
  apply Reads.bind
  have hread : Accepts strtod (jsMaxDepth + 1) (jsDecode strtod (jsMaxDepth + 2) 0) :=
    jsDecode_reads (by omega) (by omega)
  apply (hread s hs).mono
  rintro v t ⟨-, k, j, u, hk, hws, hder, hacc, hv⟩
  obtain rfl : jsMaxDepth = k := Nat.succ.inj hk
  apply Reads.bind
  apply (jsSkipWs_reads t).mono
  intro _ w hw
  apply Reads.pure
  rintro rfl
  exact ⟨j, ⟨u, t, hws, hder, hw⟩, hacc, hv⟩

/-- What the command returns, and when. -/
theorem jsondecodecmd_eq_some {s : CStr} (hs : s.length ≤ intMax) :
    jsondecodecmd strtod s = some v →
      ∃ j, Text j s.bytes ∧ Acceptable jsMaxDepth j ∧ Means strtod j v := by
  intro h
  have hread : (jsDecodeText strtod).Reads s.bytes _ := jsDecodeText_reads hs
  unfold jsondecodecmd at h
  split at h
  · next ret pos heq =>
    split at h
    · next hpos =>
      obtain rfl := Option.some.inj h
      obtain ⟨r, hr, hq⟩ := hread.of_ok (At.start _) heq
      exact hq (hr.eq_nil_iff.mpr hpos)
    · cases h
  · cases h

theorem jsondecodecmd_of_means {s : CStr} (hs : s.length ≤ intMax) (h : Text j s.bytes)
    (hacc : Acceptable jsMaxDepth j) (hv : Means strtod j v) :
    jsondecodecmd strtod s = some v := by
  obtain ⟨pos, heq, hpos⟩ := jsDecodeText_yields hs h hacc hv _ _ (At.start _)
  unfold jsondecodecmd
  rw [heq]
  exact if_pos (hpos.eq_nil_iff.mp rfl)

/-- **The decoder stays inside the buffer and ends, and accepts exactly the JSON texts** whose strings
are proper and whose values are each inside at most `JS_MAX_DEPTH` containers. -/
theorem jsondecode_iff (strtod : List UInt8 → UInt64) (s : CStr) (hs : s.length ≤ intMax) :
    (jsDecodeText strtod s.bytes 0).Within s.length ∧
      ((jsondecodecmd strtod s).isSome ↔ ∃ j, Text j s.bytes ∧ Acceptable jsMaxDepth j) := by
  refine ⟨(jsDecodeText_reads hs).within (At.start _), ?_⟩
  constructor
  · intro h
    obtain ⟨v, hv⟩ := Option.isSome_iff_exists.mp h
    obtain ⟨j, htext, hacc, -⟩ := jsondecodecmd_eq_some hs hv
    exact ⟨j, htext, hacc⟩
  · rintro ⟨j, htext, hacc⟩
    obtain ⟨t, u, -, hder, -⟩ := id htext
    obtain ⟨v, hv⟩ : ∃ v, Means strtod _ v := exists_means hacc hder
    rw [jsondecodecmd_of_means hs htext hacc hv, Option.isSome_some]

/-- The command on `[]`. -/
theorem jsondecode_iff_brackets :
    (CStr.ofBytes [0x5b, 0x5d]).length ≤ intMax ∧
      (jsDecodeText (fun _ => 0) [0x5b, 0x5d] 0).Within 2 ∧
      ((jsondecodecmd (fun _ => 0) (CStr.ofBytes [0x5b, 0x5d])).isSome ↔
        ∃ j, Text j [0x5b, 0x5d] ∧ Acceptable jsMaxDepth j) :=
  ⟨by decide, jsondecode_iff (fun _ => 0) (CStr.ofBytes [0x5b, 0x5d]) (by decide)⟩

/-! ## Empty containers -/

/-- `k + 1` arrays, one inside the other. -/
def nestedArrays : ℕ → Json
  | 0 => .array []
  | k + 1 => .array [nestedArrays k]

/-- Their text. -/
def nestedText (k : ℕ) : List UInt8 := List.replicate (k + 1) 0x5b ++ List.replicate (k + 1) 0x5d

theorem zero_notMem_nestedText (k : ℕ) : 0 ∉ nestedText k := by
  simp [nestedText, List.mem_replicate]

theorem length_nestedText (k : ℕ) : (nestedText k).length = 2 * (k + 1) := by
  rw [nestedText, List.length_append, List.length_replicate, List.length_replicate]
  omega

theorem nestedArrays_derives (k : ℕ) (r : List UInt8) :
    Derives (nestedArrays k) (nestedText k ++ r) r := by
  induction k generalizing r with
  | zero => exact .emptyArray .nil
  | succ k ih =>
    have htext : nestedText (k + 1) ++ r = 0x5b :: (nestedText k ++ (0x5d :: r)) := by
      rw [nestedText, nestedText, List.replicate_succ, List.replicate_succ' (n := k + 1)]
      simp
    rw [htext]
    exact .array (.one .nil (ih _) .nil)

theorem nestedArrays_acceptable (k : ℕ) : Acceptable k (nestedArrays k) := by
  induction k with
  | zero => exact .emptyArray
  | succ k ih =>
    apply Acceptable.array
    intro j hj
    rwa [List.mem_singleton.mp hj]

/-- What begins with a bracket is an array. -/
theorem array_of_bracket (h : Derives j (0x5b :: s) r) : ∃ js, j = .array js ∧
    (Ws s (0x5d :: r) ∨ Elements Derives js s (0x5d :: r)) := by
  generalize hs : (0x5b :: s : List UInt8) = t at h
  cases h with
  | number hx =>
    obtain ⟨c, t, htext, hc⟩ := number_head hx
    rw [htext] at hs
    obtain rfl := (List.cons.inj hs).1
    rcases hc with hc | hc <;> cases hc
  | string h =>
    cases h with
    | mk => cases hs
  | emptyArray h =>
    obtain rfl := (List.cons.inj hs).2
    exact ⟨_, rfl, .inl h⟩
  | array h =>
    obtain rfl := (List.cons.inj hs).2
    exact ⟨_, rfl, .inr h⟩
  | null | true | false | emptyObject | object => cases hs

/-- What begins with `k + 1` brackets nests deeper than `k`. -/
theorem not_nestsWithin (k : ℕ) (h : Derives j (List.replicate (k + 1) 0x5b ++ s) r) :
    ¬ NestsWithin k j := by
  induction k generalizing j s r with
  | zero =>
    obtain ⟨js, rfl, -⟩ := array_of_bracket h
    intro hn
    cases hn
  | succ k ih =>
    rw [List.replicate_succ, List.cons_append] at h
    obtain ⟨js, rfl, hws | hels⟩ := array_of_bracket h
    · rw [List.replicate_succ, List.cons_append] at hws
      obtain _ | ⟨hc, -⟩ := hws
      cases hc
    · obtain ⟨j, t, u, hj, hst, hder⟩ : ∃ j t u, j ∈ js ∧
          Ws (List.replicate (k + 1) 0x5b ++ s) t ∧ Derives j t u := by
        cases hels with
        | one hs hj _ => exact ⟨_, _, _, List.mem_cons_self, hs, hj⟩
        | cons hs hj _ _ => exact ⟨_, _, _, List.mem_cons_self, hs, hj⟩
      have hsame : t = List.replicate (k + 1) 0x5b ++ s := by
        rw [List.replicate_succ, List.cons_append] at hst ⊢
        obtain _ | ⟨hc, -⟩ := hst
        · rfl
        · cases hc
      subst hsame
      intro hn
      cases hn with
      | array hn => exact ih hder (hn j hj)

/-- **An empty container may be one level deeper**: 513 brackets are read. -/
theorem exists_deep_text : ∃ s : CStr, s.length ≤ intMax ∧
    ∀ strtod, (jsondecodecmd strtod s).isSome ∧
      ¬ ∃ j, Text j s.bytes ∧ NestsWithin jsMaxDepth j := by
  obtain ⟨s, hs⟩ : ∃ s : CStr, s.bytes = nestedText jsMaxDepth :=
    ⟨⟨_, zero_notMem_nestedText jsMaxDepth⟩, rfl⟩
  have hlen : s.length ≤ intMax := by
    rw [CStr.length, hs, length_nestedText]
    decide
  refine ⟨s, hlen, fun strtod => ⟨?_, ?_⟩⟩
  · have hder := nestedArrays_derives jsMaxDepth []
    rw [List.append_nil, ← hs] at hder
    have hacc := nestedArrays_acceptable jsMaxDepth
    obtain ⟨v, hv⟩ : ∃ v, Means strtod _ v := exists_means hacc hder
    rw [jsondecodecmd_of_means hlen ⟨_, _, .nil, hder, .nil⟩ hacc hv, Option.isSome_some]
  · rintro ⟨j, ⟨t, r, hst, hder, -⟩, hn⟩
    rw [hs, nestedText, List.replicate_succ, List.cons_append] at hst
    obtain _ | ⟨hc, -⟩ := hst
    · exact not_nestsWithin jsMaxDepth hder hn
    · cases hc

end Alcove.Json
