import Alcove.Objects.Hooks
import Alcove.Value.Utf8Index

/-!
# Strings that are changed in place

`string-set!`, `string-fill!` and `string-copy!` on evaluated operands. Each counts in codepoints, puts
the new text together from spans of bytes and stores it in the same object.

**Main result:** `string_mutators`. For a string that is valid UTF-8 each does what it says exactly when
the character that it writes is not NUL and has at most 21 bits, and the length of the new text fits.
-/

namespace Alcove.Objects

/-! ## The builtins -/

/-- `isstring`, with the place of the string. -/
def World.stringOf (w : World) (p : Ptr) : Option (ℕ × CStr) :=
  match p, w.look p with
  | .ref i, some (.string text) => some (i, text)
  | _, _ => none

/-- `exp_set_text(s, nb, newlen)`, and the builtin returns the string. -/
def setText (s : ℕ) (nb : List UInt8) (w : World) : Option (Ret × World) :=
  (expSetText nb).map fun text => (.ptr (.ref s), w.store s (.string text))

/-- `stringsetcmd` -/
def stringsetcmd (s idx ch : Ptr) (w : World) : Option (Ret × World) :=
  match w.stringOf s, idx, ch with
  | some (s, cur), .fix n, .char c =>
    if n.1 < 0 ∨ (utf8Strlen cur : ℤ) ≤ n.1 then some (.raise .indexOutOfRange, w)
    else
      let cpi := n.1.toNat
      let a := utf8ByteOffset cpi cur.bytes
      let aend := utf8ByteOffset (cpi + 1) cur.bytes
      setText s (cur.bytes.take a ++ Json.utf8Encode c.toNat ++ cur.bytes.drop aend) w
  | _, _, _ => some (.raise .illegalValue, w)

/-- `stringfillcmd` -/
def stringfillcmd (s ch : Ptr) (w : World) : Option (Ret × World) :=
  match w.stringOf s, ch with
  | some (s, cur), .char c =>
    setText s (List.replicate (utf8Strlen cur) (Json.utf8Encode c.toNat)).flatten w
  | _, _ => some (.raise .illegalValue, w)

/-- `stringcopycmd` -/
def stringcopycmd (dst idx src : Ptr) (w : World) : Option (Ret × World) :=
  match w.stringOf dst, idx, w.stringOf src with
  | some (dst, d), .fix n, some (_, s) =>
    if n.1 < 0 then some (.raise .indexOutOfRange, w)
    else
      let dn : ℤ := utf8Strlen d
      let sn : ℤ := utf8Strlen s
      let di := if dn < n.1 then dn else n.1
      let ncopy := if dn < di + sn then dn - di else sn
      if ncopy ≤ 0 then some (.ptr (.ref dst), w)
      else
        let preEnd := utf8ByteOffset di.toNat d.bytes
        let postStart := utf8ByteOffset (di + ncopy).toNat d.bytes
        let srcBytes := utf8ByteOffset ncopy.toNat s.bytes
        setText dst (d.bytes.take preEnd ++ s.bytes.take srcBytes ++ d.bytes.drop postStart) w
  | _, _, _ => some (.raise .illegalValue, w)

/-! ## What they are for -/

/-- The text is valid UTF-8. -/
def ValidText (t : CStr) : Prop := ∃ xs : List Char, t.bytes = utf8Text xs

/-- The result is the string at this place, which has these codepoints now; nothing else has changed. -/
def Rewritten (w : World) (s : ℕ) (cps : List UInt32) (r : Option (Ret × World)) : Prop :=
  ∃ t, r = some (.ptr (.ref s), w.store s (.string t)) ∧ utf8Chars t.bytes = cps

/-- The codepoints of `d` with those of `s` over them from `i` on, as far as `d` goes. -/
def overwrite (d : List UInt32) (i : ℕ) (s : List UInt32) : List UInt32 :=
  d.take i ++ s.take (d.length - i) ++ d.drop (i + s.length)

/-- `string-set!` changes the codepoint at an index in range and no other. -/
def SetLaw (w : World) (s : ℕ) (t : CStr) (n : Fixnum) (c : UInt32) : Prop :=
  if 0 ≤ n.1 ∧ n.1 < (utf8Chars t.bytes).length then
    Rewritten w s ((utf8Chars t.bytes).set n.1.toNat c) (stringsetcmd (.ref s) (.fix n) (.char c) w)
  else stringsetcmd (.ref s) (.fix n) (.char c) w = some (.raise .indexOutOfRange, w)

/-- `string-fill!` makes every codepoint the given one. -/
def FillLaw (w : World) (s : ℕ) (t : CStr) (c : UInt32) : Prop :=
  Rewritten w s (List.replicate (utf8Chars t.bytes).length c) (stringfillcmd (.ref s) (.char c) w)

/-- `string-copy!` writes the codepoints of the one string over those of the other. -/
def CopyLaw (w : World) (d : ℕ) (t : CStr) (n : Fixnum) (s : ℕ) (u : CStr) : Prop :=
  if n.1 < 0 then stringcopycmd (.ref d) (.fix n) (.ref s) w = some (.raise .indexOutOfRange, w)
  else
    Rewritten w d (overwrite (utf8Chars t.bytes) n.1.toNat (utf8Chars u.bytes))
      (stringcopycmd (.ref d) (.fix n) (.ref s) w)

/-- The character can be written, and the length of the new text fits. -/
def Writable (c : UInt32) (cps : List UInt32) : Prop :=
  c ≠ 0 ∧ Decodable c ∧ Storable (utf8Bytes cps).length

/-! ## Spans -/

variable {w : World} {s : ℕ} {t : CStr}

theorem ValidText.codepoints (h : ValidText t) :
    t.bytes = utf8Bytes (utf8Chars t.bytes) ∧ Textual (utf8Chars t.bytes) := by
  obtain ⟨xs, hxs⟩ := h
  have hbytes : t.bytes = utf8Bytes (xs.map Char.val) := by
    rw [hxs, utf8Text, utf8Bytes, List.flatMap_map]
    rfl
  have hdec : ∀ cp ∈ xs.map Char.val, Decodable cp := by
    intro cp hcp
    obtain ⟨x, -, rfl⟩ := List.mem_map.1 hcp
    have hvalid := x.valid
    rw [Decodable]
    unfold UInt32.isValidChar Nat.isValidChar at hvalid
    omega
  have hchars : utf8Chars t.bytes = xs.map Char.val := by rw [hbytes, utf8Chars_utf8Bytes hdec]
  rw [hchars]
  refine ⟨hbytes, fun cp hcp => ⟨?_, hdec cp hcp⟩⟩
  rintro rfl
  refine t.noNul ?_
  rw [hbytes]
  exact List.mem_flatMap.2 ⟨0, hcp, List.mem_singleton.2 rfl⟩

/-- The bytes before a codepoint, and those from it on. -/
theorem split_byteOffset {cps : List UInt32} (h : Textual cps) (i : ℕ) :
    (utf8Bytes cps).take (utf8ByteOffset i (utf8Bytes cps)) = utf8Bytes (cps.take i) ∧
      (utf8Bytes cps).drop (utf8ByteOffset i (utf8Bytes cps)) = utf8Bytes (cps.drop i) := by
  have hall : utf8Bytes cps = utf8Bytes (cps.take i) ++ utf8Bytes (cps.drop i) := by
    rw [← utf8Bytes_append, List.take_append_drop]
  rw [utf8ByteOffset_bytes fun cp hcp => (h cp hcp).2]
  constructor
  · rw [hall, List.take_left]
  · rw [hall, List.drop_left]

theorem stringOf_of_objAt (h : w.objAt s = some (.string t)) : w.stringOf (.ref s) = some (s, t) := by
  simp only [World.stringOf, World.look, h]

theorem store_self {o : Object} (h : w.objAt s = some o) : w.store s o = w := by
  obtain ⟨objs, tab⟩ := w
  obtain ⟨e, he, rfl⟩ := Option.map_eq_some_iff.1 h
  rw [World.store]
  congr 1
  refine List.ext_getElem? fun i => ?_
  rw [List.getElem?_modify]
  split
  · rename_i hi
    subst hi
    rw [he]
    rfl
  · exact Option.map_id'

theorem objAt_store {o o' : Object} (h : w.objAt s = some o) : (w.store s o').objAt s = some o' := by
  obtain ⟨e, he, -⟩ := Option.map_eq_some_iff.1 h
  rw [World.objAt, World.store, List.getElem?_modify_eq, he]
  rfl

/-- What was put together is stored as it should be when a text can hold it. -/
theorem rewritten_setText (h : w.objAt s = some (.string t)) (cps : List UInt32) :
    Rewritten w s cps (setText s (utf8Bytes cps) w) ↔ Textual cps ∧ Storable (utf8Bytes cps).length := by
  rw [← stored_iff]
  constructor
  · rintro ⟨u, hu, hchars⟩
    obtain ⟨u', hu', heq⟩ := Option.map_eq_some_iff.1 hu
    have hsame := congrArg (World.objAt · s) (Prod.mk.inj heq).2
    simp only [objAt_store h] at hsame
    obtain rfl := Object.string.inj (Option.some.inj hsame)
    exact ⟨u', hu', hchars⟩
  · rintro ⟨u, hu, hchars⟩
    exact ⟨u, by rw [setText, hu]; rfl, hchars⟩

/-! ## The laws -/

/-- Of the codepoints that replace others, the character alone may be one that no text holds. -/
theorem textual_iff_of_mem {c : UInt32} {cps : List UInt32} (hc : c ∈ cps)
    (hrest : ∀ cp ∈ cps, cp = c ∨ cp ≠ 0 ∧ Decodable cp) :
    Textual cps ∧ Storable (utf8Bytes cps).length ↔ Writable c cps := by
  constructor
  · rintro ⟨htext, hsize⟩
    exact ⟨(htext c hc).1, (htext c hc).2, hsize⟩
  · rintro ⟨hzero, hdec, hsize⟩
    refine ⟨fun cp hcp => ?_, hsize⟩
    rcases hrest cp hcp with rfl | hold
    · exact ⟨hzero, hdec⟩
    · exact hold

theorem stringsetcmd_out {n : Fixnum} {c : UInt32} (h : w.objAt s = some (.string t))
    (hout : n.1 < 0 ∨ (utf8Strlen t : ℤ) ≤ n.1) :
    stringsetcmd (.ref s) (.fix n) (.char c) w = some (.raise .indexOutOfRange, w) := by
  unfold stringsetcmd
  rw [stringOf_of_objAt h]
  exact if_pos hout

theorem stringsetcmd_in {n : Fixnum} {c : UInt32} (h : w.objAt s = some (.string t))
    (hin : ¬ (n.1 < 0 ∨ (utf8Strlen t : ℤ) ≤ n.1)) :
    stringsetcmd (.ref s) (.fix n) (.char c) w =
      setText s (t.bytes.take (utf8ByteOffset n.1.toNat t.bytes) ++ Json.utf8Encode c.toNat ++
        t.bytes.drop (utf8ByteOffset (n.1.toNat + 1) t.bytes)) w := by
  unfold stringsetcmd
  rw [stringOf_of_objAt h]
  exact if_neg hin

theorem setLaw_iff (h : w.objAt s = some (.string t)) (hv : ValidText t) (n : Fixnum) (c : UInt32) :
    SetLaw w s t n c ↔ (0 ≤ n.1 ∧ n.1 < (utf8Chars t.bytes).length →
      Writable c ((utf8Chars t.bytes).set n.1.toNat c)) := by
  obtain ⟨hbytes, htext⟩ := hv.codepoints
  have hstrlen : utf8Strlen t = (utf8Chars t.bytes).length := rfl
  unfold SetLaw
  split
  · rename_i hin
    have hi : n.1.toNat < (utf8Chars t.bytes).length := by omega
    have hset : t.bytes.take (utf8ByteOffset n.1.toNat t.bytes) ++ Json.utf8Encode c.toNat ++
        t.bytes.drop (utf8ByteOffset (n.1.toNat + 1) t.bytes) =
          utf8Bytes ((utf8Chars t.bytes).set n.1.toNat c) := by
      rw [List.set_eq_take_append_cons_drop, if_pos hi, utf8Bytes_append, utf8Bytes_cons,
        ← (split_byteOffset htext _).1, ← (split_byteOffset htext _).2, ← hbytes, List.append_assoc]
    rw [stringsetcmd_in h (by omega), hset, rewritten_setText h, imp_iff_right hin]
    refine textual_iff_of_mem (List.mem_set hi c) fun cp hcp => ?_
    rcases List.mem_or_eq_of_mem_set hcp with hold | heq
    · exact .inr (htext cp hold)
    · exact .inl heq
  · rename_i hout
    exact iff_of_true (stringsetcmd_out h (by omega)) fun hin => absurd hin hout

theorem fillLaw_iff (h : w.objAt s = some (.string t)) (c : UInt32) :
    FillLaw w s t c ↔ utf8Chars t.bytes = [] ∨
      Writable c (List.replicate (utf8Chars t.bytes).length c) := by
  have hfill (n : ℕ) : (List.replicate n (Json.utf8Encode c.toNat)).flatten =
      utf8Bytes (List.replicate n c) := by
    rw [utf8Bytes, List.flatMap_def, List.map_replicate]
  simp only [FillLaw, stringfillcmd, stringOf_of_objAt h, utf8Strlen]
  rw [hfill, rewritten_setText h]
  by_cases hempty : utf8Chars t.bytes = []
  · rw [hempty]
    refine iff_of_true ⟨fun cp hcp => ?_, Nat.zero_lt_succ _⟩ (.inl rfl)
    cases hcp
  · rw [or_iff_right hempty]
    refine textual_iff_of_mem ?_ fun cp hcp => .inl (List.eq_of_mem_replicate hcp)
    exact List.mem_replicate.2 ⟨mt List.length_eq_zero_iff.1 hempty, rfl⟩

theorem overwrite_of_le {d s : List UInt32} {i : ℕ} (h : d.length ≤ i ∨ s = []) : overwrite d i s = d := by
  rcases h with hi | rfl
  · rw [overwrite, List.take_of_length_le hi, Nat.sub_eq_zero_of_le hi, List.take_zero, List.append_nil,
      List.drop_of_length_le (by omega), List.append_nil]
  · rw [overwrite, List.take_nil, List.append_nil, List.length_nil, Nat.add_zero, List.take_append_drop]

theorem stringcopycmd_eq {n : Fixnum} {r : ℕ} {u : CStr} (h : w.objAt s = some (.string t))
    (hr : w.objAt r = some (.string u)) :
    stringcopycmd (.ref s) (.fix n) (.ref r) w =
      if n.1 < 0 then some (.raise .indexOutOfRange, w)
      else
        let dn : ℤ := utf8Strlen t
        let sn : ℤ := utf8Strlen u
        let di := if dn < n.1 then dn else n.1
        let ncopy := if dn < di + sn then dn - di else sn
        if ncopy ≤ 0 then some (.ptr (.ref s), w)
        else setText s (t.bytes.take (utf8ByteOffset di.toNat t.bytes) ++
          u.bytes.take (utf8ByteOffset ncopy.toNat u.bytes) ++
            t.bytes.drop (utf8ByteOffset (di + ncopy).toNat t.bytes)) w := by
  unfold stringcopycmd
  rw [stringOf_of_objAt h, stringOf_of_objAt hr]

/-- Nothing of the source fits, or there is nothing. -/
theorem stringcopycmd_none {n : Fixnum} {r : ℕ} {u : CStr} (h : w.objAt s = some (.string t))
    (hr : w.objAt r = some (.string u)) (hneg : ¬ n.1 < 0)
    (hnone : (utf8Strlen t : ℤ) ≤ n.1 ∨ utf8Strlen u = 0) :
    stringcopycmd (.ref s) (.fix n) (.ref r) w = some (.ptr (.ref s), w) := by
  rw [stringcopycmd_eq h hr, if_neg hneg]
  refine if_pos ?_
  split_ifs <;> omega

/-- The spans of a copy: `k` codepoints from `i` on. -/
theorem stringcopycmd_some {n : Fixnum} {r : ℕ} {u : CStr} (h : w.objAt s = some (.string t))
    (hr : w.objAt r = some (.string u)) (hneg : ¬ n.1 < 0) (hin : n.1 < (utf8Strlen t : ℤ))
    (hsrc : utf8Strlen u ≠ 0) {k : ℕ} (hk : k = min (utf8Strlen u) (utf8Strlen t - n.1.toNat)) :
    stringcopycmd (.ref s) (.fix n) (.ref r) w =
      setText s (t.bytes.take (utf8ByteOffset n.1.toNat t.bytes) ++
        u.bytes.take (utf8ByteOffset k u.bytes) ++
          t.bytes.drop (utf8ByteOffset (n.1.toNat + k) t.bytes)) w := by
  have hdi : (if (utf8Strlen t : ℤ) < n.1 then (utf8Strlen t : ℤ) else n.1) = n.1 := if_neg (by omega)
  have hcopy : (if (utf8Strlen t : ℤ) < n.1 + utf8Strlen u then utf8Strlen t - n.1
      else (utf8Strlen u : ℤ)) = k := by
    split_ifs <;> omega
  rw [stringcopycmd_eq h hr, if_neg hneg]
  simp only [hdi, hcopy]
  rw [if_neg (by omega)]
  have hsum : (n.1 + k).toNat = n.1.toNat + k := by omega
  rw [hsum, Int.toNat_natCast]

theorem take_min {d u : List UInt32} {i : ℕ} : u.take (min u.length (d.length - i)) = u.take (d.length - i) := by
  rw [← List.take_take]
  exact List.take_of_length_le (List.length_take_le' _ _)

theorem drop_min {d u : List UInt32} {i : ℕ} :
    d.drop (i + min u.length (d.length - i)) = d.drop (i + u.length) := by
  rcases Nat.le_total u.length (d.length - i) with h | h
  · rw [Nat.min_eq_left h]
  · rw [Nat.min_eq_right h, List.drop_of_length_le (by omega), List.drop_of_length_le (by omega)]

theorem copyLaw_iff (h : w.objAt s = some (.string t)) (hv : ValidText t) (n : Fixnum) {r : ℕ} {u : CStr}
    (hr : w.objAt r = some (.string u)) (hu : ValidText u) :
    CopyLaw w s t n r u ↔ n.1 < 0 ∨ (utf8Chars t.bytes).length ≤ n.1 ∨ utf8Chars u.bytes = [] ∨
      Storable (utf8Bytes (overwrite (utf8Chars t.bytes) n.1.toNat (utf8Chars u.bytes))).length := by
  obtain ⟨hbytes, htext⟩ := hv.codepoints
  obtain ⟨hubytes, hutext⟩ := hu.codepoints
  have hstrlen : utf8Strlen t = (utf8Chars t.bytes).length := rfl
  have hustrlen : utf8Strlen u = (utf8Chars u.bytes).length := rfl
  unfold CopyLaw
  split
  · rename_i hneg
    refine iff_of_true ?_ (.inl hneg)
    rw [stringcopycmd_eq h hr, if_pos hneg]
  rename_i hneg
  rw [or_iff_right hneg]
  by_cases hnone : ((utf8Chars t.bytes).length : ℤ) ≤ n.1 ∨ utf8Chars u.bytes = []
  · have hsame : overwrite (utf8Chars t.bytes) n.1.toNat (utf8Chars u.bytes) = utf8Chars t.bytes :=
      overwrite_of_le (hnone.imp_left fun h => by omega)
    rw [hsame, stringcopycmd_none h hr hneg (hnone.imp_right fun h => by rw [hustrlen, h]; rfl)]
    refine iff_of_true ⟨t, by rw [store_self h], rfl⟩ ?_
    exact hnone.imp_right .inl
  · obtain ⟨hlt, hsrc⟩ := not_or.1 hnone
    have hpos : utf8Strlen u ≠ 0 := mt List.length_eq_zero_iff.1 hsrc
    rw [or_iff_right hlt, or_iff_right hsrc]
    have hwritten : t.bytes.take (utf8ByteOffset n.1.toNat t.bytes) ++
        u.bytes.take (utf8ByteOffset (min (utf8Strlen u) (utf8Strlen t - n.1.toNat)) u.bytes) ++
          t.bytes.drop (utf8ByteOffset (n.1.toNat + min (utf8Strlen u) (utf8Strlen t - n.1.toNat)) t.bytes) =
        utf8Bytes (overwrite (utf8Chars t.bytes) n.1.toNat (utf8Chars u.bytes)) := by
      rw [overwrite, utf8Bytes_append, utf8Bytes_append, hstrlen, hustrlen, ← take_min, ← drop_min,
        ← (split_byteOffset htext n.1.toNat).1, ← (split_byteOffset htext (n.1.toNat + _)).2,
        ← (split_byteOffset hutext _).1, ← hbytes, ← hubytes]
    rw [stringcopycmd_some h hr hneg (by omega) hpos rfl, hwritten, rewritten_setText h]
    refine and_iff_right fun cp hcp => ?_
    rw [overwrite, List.mem_append, List.mem_append] at hcp
    rcases hcp with (hcp | hcp) | hcp
    · exact htext cp (List.mem_of_mem_take hcp)
    · exact hutext cp (List.mem_of_mem_take hcp)
    · exact htext cp (List.mem_of_mem_drop hcp)

/-- **The builtins that change a string**, at a place that holds valid UTF-8. Each has its law exactly
when the character can be written and the length of the new text fits, or nothing is written. -/
theorem string_mutators (h : w.objAt s = some (.string t)) (hv : ValidText t) :
    (∀ (n : Fixnum) (c : UInt32), SetLaw w s t n c ↔
      (0 ≤ n.1 ∧ n.1 < (utf8Chars t.bytes).length → Writable c ((utf8Chars t.bytes).set n.1.toNat c))) ∧
    (∀ c : UInt32, FillLaw w s t c ↔ utf8Chars t.bytes = [] ∨
      Writable c (List.replicate (utf8Chars t.bytes).length c)) ∧
    ∀ (n : Fixnum) (r : ℕ) (u : CStr), w.objAt r = some (.string u) → ValidText u →
      (CopyLaw w s t n r u ↔ n.1 < 0 ∨ (utf8Chars t.bytes).length ≤ n.1 ∨ utf8Chars u.bytes = [] ∨
        Storable (utf8Bytes (overwrite (utf8Chars t.bytes) n.1.toNat (utf8Chars u.bytes))).length) :=
  ⟨setLaw_iff h hv, fillLaw_iff h, fun n _ _ hr hu => copyLaw_iff h hv n hr hu⟩

/-- A world with one string. -/
def World.ofString (t : CStr) : World := ⟨[⟨.string t, false, none⟩], 0⟩

/-- The text `ab`. -/
def abText : CStr := ⟨[97, 98], by decide⟩

theorem validText_ab : ValidText abText := ⟨['a', 'b'], rfl⟩

theorem utf8Chars_ab : utf8Chars abText.bytes = [97, 98] := by
  have hdec : ∀ cp ∈ ([97, 98] : List UInt32), Decodable cp := by
    rw [List.forall_mem_cons, List.forall_mem_singleton]
    decide
  exact utf8Chars_utf8Bytes hdec

/-- `(string-copy! s 1 s)` for `s` = `ab`. -/
theorem string_mutators_copy : CopyLaw (World.ofString abText) 0 abText (makeFix 1) 0 abText := by
  refine ((string_mutators rfl validText_ab).2.2 (makeFix 1) 0 abText rfl validText_ab).2 ?_
  rw [utf8Chars_ab]
  exact .inr (.inr (.inr (by decide)))

/-- `(string-set! s 1 NUL)` for `s` = `ab` leaves one codepoint. -/
theorem stringset_nul : ¬ SetLaw (World.ofString abText) 0 abText (makeFix 1) 0 ∧
    stringsetcmd (.ref 0) (.fix (makeFix 1)) (.char 0) (World.ofString abText) =
      some (.ptr (.ref 0), World.ofString ⟨[97], by decide⟩) := by
  constructor
  · rw [setLaw_iff rfl validText_ab, utf8Chars_ab]
    intro h
    exact (h (by decide)).1 rfl
  · rw [stringsetcmd_in rfl (by rw [utf8Strlen, utf8Chars_ab]; decide)]
    decide

end Alcove.Objects
