import Alcove.Hamt.Invariant

/-!
# The persistent map: updates and lookups

What `hamt_node_assoc`, `hamt_node_dissoc` and `hamt_node_get` do to the entries of a well-formed node
(`assoc_spec`, `dissoc_spec`, `get_spec`). Each also says that the call ends within the levels that
are left, with every step defined: no hash is shifted by 32 or more.

The updates need no more of the hash than that it agrees on the new key and the keys that are equal
to it (`Agrees`).
-/

namespace Alcove.Hamt

open Lib

variable {V : Type} {hashkey : Key → UInt32}

/-- The keys among the entries that are equal to `key` have its hash. -/
def Agrees (hashkey : Key → UInt32) (es : List (Key × V)) (key : Key) : Prop :=
  ∀ e ∈ es, isequal e.1 key = true → hashkey e.1 = hashkey key

/-- `es'` is `es` with the value of the key replaced, or with the key added somewhere. -/
def Assoc (key : Key) (val : V) (es es' : List (Key × V)) (added : Bool) : Prop :=
  ∃ l₁ k l₂, es' = l₁ ++ (k, val) :: l₂ ∧
    if added then k = key ∧ es = l₁ ++ l₂ ∧ ∀ e ∈ es, isequal e.1 key = false
    else isequal k key = true ∧ ∃ v, es = l₁ ++ (k, v) :: l₂

/-- The key is not among the entries. -/
def Absent (key : Key) (es : List (Key × V)) : Prop := ∀ e ∈ es, isequal e.1 key = false

/-- `es'` is `es` without an entry of the key; when it is `es`, the key was not there. -/
def Dissoc (hashkey : Key → UInt32) (key : Key) (es es' : List (Key × V)) (removed : Bool) : Prop :=
  if removed then ∃ l₁ k v l₂, isequal k key = true ∧ es = l₁ ++ (k, v) :: l₂ ∧ es' = l₁ ++ l₂
  else es' = es ∧ (Agrees hashkey es key → Absent key es)

/-- What a lookup returns. -/
def Found (hashkey : Key → UInt32) (key : Key) (es : List (Key × V)) : Option V → Prop
  | some v => ∃ k, (k, v) ∈ es ∧ isequal k key = true
  | none => Agrees hashkey es key → Absent key es

/-- The entries of a node that may be missing. -/
def entriesOf (n : Option (Node V)) : List (Key × V) := (n.map Node.entries).getD []

/-! ## Splitting a slot -/

section Merge

variable {k1 k2 : Key} {f shift p : ℕ}

theorem merge_good (v1 v2 : V) (hf : 0 < f) (hfs : shift + 5 * f = 40) (hk1 : k1 ≠ .null) (hk2 : k2 ≠ .null)
    (h1 : (hashkey k1).toNat % 2 ^ shift = p) (h2 : (hashkey k2).toNat % 2 ^ shift = p) :
    ∃ n, merge f k1 v1 (hashkey k1) k2 v2 (hashkey k2) shift = some n ∧
      Good hashkey f shift p n ∧
      (n.entries = [(k1, v1), (k2, v2)] ∨ n.entries = [(k2, v2), (k1, v1)]) := by
  induction f generalizing shift p with
  | zero => omega
  | succ f ih =>
    rcases Nat.lt_or_ge shift 32 with hlt | hge
    · have hi1 := hashIndex_eq (hashkey k1) hlt
      have hi2 := hashIndex_eq (hashkey k2) hlt
      have hp1 := mod_two_pow_add (hashkey k1).toNat shift
      have hp2 := mod_two_pow_add (hashkey k2).toNat shift
      rw [h1] at hp1
      rw [h2] at hp2
      have hb1 : (hashkey k1).toNat / 2 ^ shift % 32 < 32 := Nat.mod_lt _ (by omega)
      have hb2 : (hashkey k2).toNat / 2 ^ shift % 32 < 32 := Nat.mod_lt _ (by omega)
      generalize (hashkey k1).toNat / 2 ^ shift % 32 = i1 at *
      generalize (hashkey k2).toNat / 2 ^ shift % 32 = i2 at *
      have hok1 : SlotAt hashkey f shift p i1 (.entry k1 v1) := ⟨hk1, hp1⟩
      have hok2 : SlotAt hashkey f shift p i2 (.entry k2 v2) := ⟨hk2, hp2⟩
      simp only [merge, if_neg (Nat.not_le.mpr hlt), hi1, hi2, Option.bind_eq_bind,
        Option.bind_some]
      by_cases heq : i1 = i2
      · subst heq
        obtain ⟨n, hn, hgood, hentries⟩ := ih (by omega) (by omega) hp1 hp2
        rw [if_pos rfl, hn, Option.bind_some]
        refine ⟨_, rfl, (good_bitmap hlt).mpr ⟨?_, ?_⟩, ?_⟩
        · rw [Ne, eq_zero_iff_bits, bits_bitOf hb1 hb1]
          simp
        · rw [bits_bitOf hb1 hb1]
          exact .cons hgood .nil
        · simpa [entries_mk] using hentries
      · rw [if_neg heq]
        refine ⟨_, rfl, (good_bitmap hlt).mpr ?_, ?_⟩
        · rcases Nat.lt_or_gt_of_ne heq with hlt' | hgt
          · rw [if_pos hlt', Ne, eq_zero_iff_bits, bits_pair hlt' hb2]
            exact ⟨by simp, .cons hok1 (.cons hok2 .nil)⟩
          · rw [if_neg (by omega), UInt32.or_comm, Ne, eq_zero_iff_bits, bits_pair hgt hb1]
            exact ⟨by simp, .cons hok2 (.cons hok1 .nil)⟩
        · split
          · exact .inl (by simp [entries_mk])
          · exact .inr (by simp [entries_mk])
    · simp only [merge, if_pos hge]
      refine ⟨_, rfl, (good_bucket hge).mpr ⟨rfl, by simp, ?_⟩, .inl (by simp [entries_mk])⟩
      intro s hs
      rcases List.mem_cons.mp hs with rfl | hs
      · exact ⟨k1, v1, rfl, h1⟩
      · obtain rfl := List.mem_singleton.mp hs
        exact ⟨k2, v2, rfl, h2⟩

end Merge

/-! ## Changing one slot -/

section Lift

variable {key : Key} {val : V} {es es' a b : List (Key × V)} {added : Bool}

/-- Entries with another hash are not equal to the key. -/
theorem Agrees.isequal_false (h : Agrees hashkey es key)
    (hne : ∀ e ∈ es, hashkey e.1 ≠ hashkey key) : ∀ e ∈ es, isequal e.1 key = false := by
  intro e he
  rw [← Bool.not_eq_true]
  exact fun heq => hne e he (h e he heq)

theorem Agrees.mono (h : Agrees hashkey es key) (hsub : ∀ e ∈ es', e ∈ es) :
    Agrees hashkey es' key := fun e he => h e (hsub e he)

/-- An update of some of the entries, none of the others being equal to the key. -/
theorem Assoc.lift (h : Assoc key val es es' added)
    (hout : ∀ e ∈ a ++ b, isequal e.1 key = false) :
    Assoc key val (a ++ es ++ b) (a ++ es' ++ b) added := by
  obtain ⟨l₁, k, l₂, rfl, h⟩ := h
  refine ⟨a ++ l₁, k, l₂ ++ b, by simp, ?_⟩
  cases added with
  | true =>
    obtain ⟨hk, rfl, hnone⟩ := h
    refine ⟨hk, by simp, fun e he => ?_⟩
    simp only [List.mem_append] at he hout
    rcases he with (he | he) | he
    · exact hout e (.inl he)
    · exact hnone e (List.mem_append.mpr he)
    · exact hout e (.inr he)
  | false =>
    obtain ⟨hk, v, rfl⟩ := h
    exact ⟨hk, v, by simp⟩

theorem Dissoc.lift (h : Dissoc hashkey key es es' added)
    (hout : Agrees hashkey (a ++ es ++ b) key → Absent key (a ++ b)) :
    Dissoc hashkey key (a ++ es ++ b) (a ++ es' ++ b) added := by
  cases added with
  | true =>
    obtain ⟨l₁, k, v, l₂, hk, rfl, rfl⟩ := h
    exact ⟨a ++ l₁, k, v, l₂ ++ b, hk, by simp, by simp⟩
  | false =>
    obtain ⟨rfl, hnone⟩ := h
    refine ⟨rfl, fun hag => ?_⟩
    have houter := hout hag
    have hinner := hnone (hag.mono fun e he => by simp [he])
    intro e he
    simp only [List.mem_append] at he
    rcases he with (he | he) | he
    · exact houter e (List.mem_append_left b he)
    · exact hinner e he
    · exact houter e (List.mem_append_right a he)

theorem slotsEntries_around (s₁ : List (Slot V)) (s : Slot V) (s₂ : List (Slot V)) :
    slotsEntries (s₁ ++ s :: s₂) = slotsEntries s₁ ++ s.entries ++ slotsEntries s₂ := by
  simp

end Lift

/-- The index of a hash below its path. -/
theorem index_below {h : UInt32} {shift p : ℕ} (hp : h.toNat % 2 ^ shift = p) (hs : shift < 32) :
    ∃ i < 32, hashIndex h shift = some i ∧ h.toNat % 2 ^ (shift + 5) = p + 2 ^ shift * i :=
  ⟨_, Nat.mod_lt _ (by omega), hashIndex_eq h hs, by rw [mod_two_pow_add, hp]⟩

/-! ## The middle of a list -/

section Middle

variable {α : Type} (s₁ s₂ : List α) (s t : α)

theorem getElem?_middle : (s₁ ++ s :: s₂)[s₁.length]? = some s := by
  simp

theorem set_middle : (s₁ ++ s :: s₂).set s₁.length t = s₁ ++ t :: s₂ := by
  simp

theorem eraseIdx_middle : (s₁ ++ s :: s₂).eraseIdx s₁.length = s₁ ++ s₂ := by
  rw [List.eraseIdx_append_of_length_le (Nat.le_refl _), Nat.sub_self, List.eraseIdx_cons_zero]

theorem length_middle_eq_one : (s₁ ++ s :: s₂).length = 1 ↔ s₁ ++ s₂ = [] := by
  rw [List.length_append, List.length_cons, List.append_eq_nil_iff, ← List.length_eq_zero_iff,
    ← List.length_eq_zero_iff]
  omega

theorem findIdx?_middle {q : α → Bool} {xs : List α} {i : ℕ} (h : xs.findIdx? q = some i) :
    ∃ s₁ s s₂, xs = s₁ ++ s :: s₂ ∧ s₁.length = i ∧ q s = true := by
  obtain ⟨hi, hq, -⟩ := List.findIdx?_eq_some_iff_getElem.mp h
  refine ⟨xs.take i, xs[i], xs.drop (i + 1), ?_, by simp [Nat.le_of_lt hi], hq⟩
  rw [List.getElem_cons_drop, List.take_append_drop]

end Middle

/-- None of the slots of other indices holds a key equal to `key`, if equal keys have equal hashes. -/
theorem absent_others {key : Key} {f shift p i : ℕ} {ss : List (Slot V)} (hp : p < 2 ^ shift)
    (hnext : (hashkey key).toNat % 2 ^ (shift + 5) = p + 2 ^ shift * i)
    (hoff : ∀ t ∈ ss, ∃ j < 32, j ≠ i ∧ SlotAt hashkey f shift p j t)
    (hag : Agrees hashkey (slotsEntries ss) key) : Absent key (slotsEntries ss) := by
  refine hag.isequal_false fun e he => ?_
  obtain ⟨t, ht, het⟩ := mem_slotsEntries.mp he
  obtain ⟨j, hj, hji, hok⟩ := hoff t ht
  exact hok.hash_ne hp hj hji hnext e het

/-- The slots around the one of an index, copied. -/
theorem refSlots_around {f shift p i : ℕ} {s₁ s₂ : List (Slot V)} {s : Slot V}
    (hok : SlotAt hashkey f shift p i s)
    (hoff : ∀ t ∈ s₁ ++ s₂, ∃ j < 32, j ≠ i ∧ SlotAt hashkey f shift p j t) :
    refSlots false (s₁ ++ s :: s₂) = some (s₁ ++ s :: s₂) ∧
      refSlots false (s₁ ++ s₂) = some (s₁ ++ s₂) := by
  have hothers : ∀ t ∈ s₁ ++ s₂, ∃ j, SlotAt hashkey f shift p j t := fun t ht =>
    (hoff t ht).imp fun j hj => hj.2.2
  have hall : ∀ t ∈ s₁ ++ s :: s₂, ∃ j, SlotAt hashkey f shift p j t := by
    intro t ht
    rcases List.mem_cons.mp (List.perm_middle.mem_iff.mp ht) with rfl | ht
    · exact ⟨i, hok⟩
    · exact hothers t ht
  exact ⟨refSlots_bitmap hall, refSlots_bitmap hothers⟩

/-! ## Insertion -/

section Assoc

variable {key : Key} {val : V} {f shift p : ℕ} {slots : List (Slot V)}

/-- Insertion into a bucket. -/
theorem assoc_bucket (hge : 32 ≤ shift) (hpath : (hashkey key).toNat % 2 ^ shift = p)
    (hgood : Good hashkey (f + 1) shift p (.mk 0 slots)) :
    ∃ n' added, assoc hashkey (f + 1) (some (.mk 0 slots)) key val (hashkey key) shift =
        some (n', added) ∧ Good hashkey (f + 1) shift p n' ∧
      Assoc key val (slotsEntries slots) n'.entries added := by
  obtain ⟨-, hne, hall⟩ := (good_bucket hge).mp hgood
  simp only [assoc, if_true, refSlots_bucket hall, Option.bind_eq_bind, Option.bind_some]
  cases hfind : slots.findIdx? fun s => isequal s.key key with
  | none =>
    dsimp only
    refine ⟨_, _, rfl, (good_bucket hge).mpr ⟨rfl, by simp, ?_⟩, slotsEntries slots, key, [], ?_,
      rfl, by simp, ?_⟩
    · intro s hs
      rcases List.mem_append.mp hs with hs | hs
      · exact hall s hs
      · obtain rfl := List.mem_singleton.mp hs
        exact ⟨key, val, rfl, hpath⟩
    · simp [entries_mk]
    · intro e he
      obtain ⟨s, hs, hse⟩ := mem_slotsEntries.mp he
      obtain ⟨k, v, rfl, -⟩ := hall s hs
      rw [entries_entry, List.mem_singleton] at hse
      subst hse
      exact List.findIdx?_eq_none_iff.mp hfind _ hs
  | some i =>
    obtain ⟨s₁, s, s₂, rfl, rfl, heq⟩ := findIdx?_middle hfind
    obtain ⟨k, v, rfl, hk⟩ := hall s (by simp)
    simp only [getElem?_middle, Option.bind_some, set_middle, Slot.key]
    refine ⟨_, _, rfl, (good_bucket hge).mpr ⟨rfl, by simp, ?_⟩, slotsEntries s₁, k,
      slotsEntries s₂, by simp [entries_mk], heq, v, by simp⟩
    intro t ht
    simp only [List.mem_append, List.mem_cons] at ht hall
    rcases ht with ht | rfl | ht
    · exact hall t (.inl ht)
    · exact ⟨k, val, rfl, hk⟩
    · exact hall t (.inr (.inr ht))

/-- **Insertion keeps the shape of a node** and sets the value of the key. -/
theorem assoc_spec {n : Node V} (hfs : shift + 5 * f = 40) (hp : p < 2 ^ shift)
    (hkey : key ≠ .null) (hpath : (hashkey key).toNat % 2 ^ shift = p)
    (hgood : Good hashkey f shift p n) (hag : Agrees hashkey n.entries key) :
    ∃ n' added, assoc hashkey f (some n) key val (hashkey key) shift = some (n', added) ∧
      Good hashkey f shift p n' ∧ Assoc key val n.entries n'.entries added := by
  induction f generalizing shift p n with
  | zero => exact hgood.elim
  | succ f ih =>
    obtain ⟨bm, slots⟩ := n
    rw [entries_mk] at hag ⊢
    rcases Nat.lt_or_ge shift 32 with hlt | hge
    · obtain ⟨i, hi, hidx, hnext⟩ := index_below hpath hlt
      have hbm := ((good_bitmap hlt).mp hgood).1
      cases hbit : bitSet bm i with
      | false =>
        obtain ⟨s₁, s₂, rfl, hlen, hoff, hput⟩ := hgood.gap hlt hi hbit
        have hrefs : refSlots false (s₁ ++ s₂) = some (s₁ ++ s₂) :=
          refSlots_bitmap fun t ht => (hoff t ht).imp fun j hj => hj.2.2
        simp only [assoc, if_neg hbm, hidx, Option.bind_eq_bind, Option.bind_some,
          if_pos ((and_bitOf_eq_zero_iff hi).mpr hbit), hrefs, ← hlen, List.take_left,
          List.drop_left]
        refine ⟨_, _, rfl, hput _ ⟨hkey, hnext⟩, slotsEntries s₁, key, slotsEntries s₂, ?_, rfl,
          by simp, absent_others hp hnext hoff hag⟩
        simp [entries_mk]
      | true =>
        obtain ⟨s₁, s, s₂, rfl, hlen, hok, hoff, hput, -⟩ := hgood.around hlt hi hbit
        have hnz : ¬ bm &&& bitOf i = 0 := by
          rw [and_bitOf_eq_zero_iff hi, hbit]
          exact Bool.noConfusion
        obtain ⟨hrefs, -⟩ := refSlots_around hok hoff
        rw [slotsEntries_around] at hag ⊢
        have houter : ∀ e ∈ slotsEntries s₁ ++ slotsEntries s₂, isequal e.1 key = false := by
          rw [← slotsEntries_append]
          refine absent_others hp hnext hoff (hag.mono fun e he => ?_)
          rw [slotsEntries_append, List.mem_append] at he
          simp only [List.mem_append]
          tauto
        have hags : Agrees hashkey s.entries key := hag.mono fun e he => by simp [he]
        simp only [assoc, if_neg hbm, hidx, Option.bind_eq_bind, Option.bind_some, if_neg hnz,
          hrefs, ← hlen, getElem?_middle, set_middle]
        cases s with
        | entry k v =>
          have hk : k ≠ .null := hok.1
          simp only [Slot.key, hk, ne_eq, not_false_eq_true, if_true, Slot.val, Option.bind_some]
          by_cases heq : isequal k key = true
          · simp only [heq, if_true]
            refine ⟨_, _, rfl, hput _ ⟨hk, hok.2⟩, ?_⟩
            rw [entries_mk, slotsEntries_around]
            exact Assoc.lift ⟨[], k, [], by simp, heq, v, by simp⟩ houter
          · obtain ⟨c, hc, hcgood, hcentries⟩ :=
              merge_good (f := f) v val (by omega) (by omega) hk hkey hok.2 hnext
            simp only [heq, Bool.false_eq_true, if_false, hc, Option.bind_some]
            refine ⟨_, _, rfl, hput _ hcgood, ?_⟩
            rw [entries_mk, slotsEntries_around]
            refine Assoc.lift ?_ houter
            have hnone : ∀ e ∈ (Slot.entry k v).entries, isequal e.1 key = false := by
              simpa using heq
            rcases hcentries with hce | hce
            · exact ⟨[(k, v)], key, [], by simp [hce], rfl, by simp, hnone⟩
            · exact ⟨[], key, [(k, v)], by simp [hce], rfl, by simp, hnone⟩
        | child c =>
          rw [entries_child] at hags
          obtain ⟨c', added, hc, hcgood, hassoc⟩ :=
            ih (by omega) (path_lt hp hi) hnext hok hags
          simp only [Slot.key, ne_eq, not_true_eq_false, if_false, Slot.node, Option.bind_some, hc]
          refine ⟨_, _, rfl, hput _ hcgood, ?_⟩
          rw [entries_mk, slotsEntries_around, entries_child, entries_child]
          exact hassoc.lift houter
    · obtain ⟨rfl, -, -⟩ := (good_bucket hge).mp hgood
      exact assoc_bucket hge hpath hgood

end Assoc

/-! ## Removal -/

section Dissoc

variable {key : Key} {f shift p : ℕ} {slots : List (Slot V)}

/-- The entries of a bucket, as far as the scan for the key goes. -/
theorem absent_bucket (hall : ∀ s ∈ slots, BucketSlot hashkey shift p s)
    (hnone : ∀ s ∈ slots, isequal s.key key = false) : Absent key (slotsEntries slots) := by
  intro e he
  obtain ⟨s, hs, hse⟩ := mem_slotsEntries.mp he
  obtain ⟨k, v, rfl, -⟩ := hall s hs
  rw [entries_entry, List.mem_singleton] at hse
  subst hse
  exact hnone _ hs

/-- What a removal leaves of a node. -/
def Left (hashkey : Key → UInt32) (f shift p : ℕ) (key : Key) (n : Node V)
    (r : Option (Node V)) (removed : Bool) : Prop :=
  (∀ n', r = some n' → Good hashkey f shift p n') ∧ Dissoc hashkey key n.entries (entriesOf r) removed

/-- A node without its only slot is `NULL`. -/
theorem left_of_single {bm : UInt32} {s : Slot V} {removed : Bool}
    (h : Dissoc hashkey key s.entries [] removed) :
    Left hashkey f shift p key (.mk bm [s]) none removed := by
  refine ⟨by simp, ?_⟩
  rw [entries_mk, slotsEntries_cons, slotsEntries_nil, List.append_nil]
  exact h

theorem dissoc_bucket (hge : 32 ≤ shift)
    (hgood : Good hashkey (f + 1) shift p (.mk 0 slots)) :
    ∃ r removed, dissoc (f + 1) (some (.mk 0 slots)) key (hashkey key) shift = some (r, removed) ∧
      Left hashkey (f + 1) shift p key (.mk 0 slots) r removed := by
  obtain ⟨-, hne, hall⟩ := (good_bucket hge).mp hgood
  simp only [dissoc, if_true]
  cases hfind : slots.findIdx? fun s => isequal s.key key with
  | none =>
    refine ⟨_, _, rfl, ?_, rfl, fun _ => ?_⟩
    · rintro _ ⟨⟩
      exact hgood
    · rw [entries_mk]
      exact absent_bucket hall (List.findIdx?_eq_none_iff.mp hfind)
  | some i =>
    obtain ⟨s₁, s, s₂, rfl, rfl, heq⟩ := findIdx?_middle hfind
    obtain ⟨k, v, rfl, hk⟩ := hall s (by simp)
    have hothers : ∀ t ∈ s₁ ++ s₂, BucketSlot hashkey shift p t := fun t ht =>
      hall t (List.perm_middle.mem_iff.mpr (List.mem_cons_of_mem _ ht))
    have hone := length_middle_eq_one s₁ s₂ (.entry k v)
    dsimp only
    by_cases hnil : s₁ ++ s₂ = []
    · rw [if_pos (hone.mpr hnil)]
      obtain ⟨rfl, rfl⟩ := List.append_eq_nil_iff.mp hnil
      exact ⟨_, _, rfl, left_of_single ⟨[], k, v, [], heq, by simp, rfl⟩⟩
    · rw [if_neg (hone.not.mpr hnil), eraseIdx_middle, refSlots_bucket hothers]
      refine ⟨_, _, rfl, ?_, slotsEntries s₁, k, v, slotsEntries s₂, heq, by simp [entries_mk],
        by simp [entriesOf, entries_mk]⟩
      rintro _ ⟨⟩
      exact (good_bucket hge).mpr ⟨rfl, hnil, hothers⟩

/-- **Removal keeps the shape of a node**, or leaves nothing of it, and takes out the entry of the
key. -/
theorem dissoc_spec {n : Node V} (hfs : shift + 5 * f = 40) (hp : p < 2 ^ shift)
    (hpath : (hashkey key).toNat % 2 ^ shift = p) (hgood : Good hashkey f shift p n) :
    ∃ r removed, dissoc f (some n) key (hashkey key) shift = some (r, removed) ∧
      Left hashkey f shift p key n r removed := by
  induction f generalizing shift p n with
  | zero => exact hgood.elim
  | succ f ih =>
    obtain ⟨bm, slots⟩ := n
    rcases Nat.lt_or_ge shift 32 with hlt | hge
    · obtain ⟨i, hi, hidx, hnext⟩ := index_below hpath hlt
      have hbm := ((good_bitmap hlt).mp hgood).1
      have hkeep : (Agrees hashkey (slotsEntries slots) key → Absent key (slotsEntries slots)) →
          Left hashkey (f + 1) shift p key (.mk bm slots) (some (.mk bm slots)) false := by
        intro habs
        refine ⟨?_, rfl, ?_⟩
        · rintro _ ⟨⟩
          exact hgood
        · rw [entries_mk]
          exact habs
      cases hbit : bitSet bm i with
      | false =>
        obtain ⟨s₁, s₂, rfl, -, hoff, -⟩ := hgood.gap hlt hi hbit
        simp only [dissoc, if_neg hbm, hidx, Option.bind_eq_bind, Option.bind_some,
          if_pos ((and_bitOf_eq_zero_iff hi).mpr hbit)]
        exact ⟨_, _, rfl, hkeep fun hag => absent_others hp hnext hoff hag⟩
      | true =>
        obtain ⟨s₁, s, s₂, rfl, hlen, hok, hoff, hput, herase⟩ := hgood.around hlt hi hbit
        have hnz : ¬ bm &&& bitOf i = 0 := by
          rw [and_bitOf_eq_zero_iff hi, hbit]
          exact Bool.noConfusion
        obtain ⟨hrefs, hrefs'⟩ := refSlots_around hok hoff
        have houter : ∀ es, Agrees hashkey (slotsEntries s₁ ++ es ++ slotsEntries s₂) key →
            Absent key (slotsEntries s₁ ++ slotsEntries s₂) := by
          intro es hag
          rw [← slotsEntries_append]
          refine absent_others hp hnext hoff (hag.mono fun e he => ?_)
          rw [slotsEntries_append, List.mem_append] at he
          simp only [List.mem_append]
          tauto
        -- the slot goes: with it the node, when it was the only one
        have hdrop : Dissoc hashkey key s.entries [] true →
            ∃ r, (if (s₁ ++ s :: s₂).length = 1 then some (none, true)
                else (refSlots false ((s₁ ++ s :: s₂).eraseIdx s₁.length)).bind fun c =>
                  some (some (.mk (bm &&& ~~~bitOf i) c), true)) = some (r, true) ∧
              Left hashkey (f + 1) shift p key (.mk bm (s₁ ++ s :: s₂)) r true := by
          intro hd
          have hone := length_middle_eq_one s₁ s₂ s
          by_cases hnil : s₁ ++ s₂ = []
          · rw [if_pos (hone.mpr hnil)]
            obtain ⟨rfl, rfl⟩ := List.append_eq_nil_iff.mp hnil
            exact ⟨_, rfl, left_of_single hd⟩
          · rw [if_neg (hone.not.mpr hnil), eraseIdx_middle, hrefs', Option.bind_some]
            refine ⟨_, rfl, ?_, ?_⟩
            · rintro _ ⟨⟩
              exact herase hnil
            · have hlift := hd.lift (houter _)
              rw [entries_mk, slotsEntries_around]
              simpa [entriesOf, entries_mk] using hlift
        simp only [dissoc, if_neg hbm, hidx, Option.bind_eq_bind, Option.bind_some, if_neg hnz,
          hrefs, ← hlen, getElem?_middle, set_middle]
        cases s with
        | entry k v =>
          have hk : k ≠ .null := hok.1
          simp only [Slot.key, hk, ne_eq, not_false_eq_true, if_true]
          by_cases heq : isequal k key = true
          · simp only [heq, if_true]
            obtain ⟨r, hr, hleft⟩ := hdrop ⟨[], k, v, [], heq, by simp, rfl⟩
            exact ⟨r, true, hr, hleft⟩
          · simp only [heq, Bool.false_eq_true, if_false]
            refine ⟨_, _, rfl, hkeep fun hag => ?_⟩
            rw [slotsEntries_around] at hag ⊢
            have hd : Dissoc hashkey key (Slot.entry k v).entries (Slot.entry k v).entries false :=
              ⟨rfl, fun _ e he => by simp_all⟩
            exact (hd.lift (houter _)).2 hag
        | child c =>
          obtain ⟨r, removed, hr, hgood', hd⟩ := ih (by omega) (path_lt hp hi) hnext hok
          simp only [Slot.key, ne_eq, not_true_eq_false, if_false, Slot.node, Option.bind_some, hr]
          cases removed with
          | false =>
            refine ⟨_, _, rfl, hkeep fun hag => ?_⟩
            rw [slotsEntries_around] at hag ⊢
            obtain ⟨-, hnone⟩ := hd
            have hd : Dissoc hashkey key (Slot.child c).entries (Slot.child c).entries false :=
              ⟨rfl, by rw [entries_child]; exact hnone⟩
            exact (hd.lift (houter _)).2 hag
          | true =>
            cases r with
            | none =>
              rw [← entries_child] at hd
              obtain ⟨r, hr, hleft⟩ := hdrop hd
              exact ⟨r, true, hr, hleft⟩
            | some c' =>
              refine ⟨_, _, rfl, ?_, ?_⟩
              · rintro _ ⟨⟩
                exact hput _ (hgood' c' rfl)
              · have hlift := hd.lift (houter _)
                rw [entries_mk, slotsEntries_around]
                simpa [entriesOf, entries_mk] using hlift
    · obtain ⟨rfl, -, -⟩ := (good_bucket hge).mp hgood
      exact dissoc_bucket hge hgood

end Dissoc

/-! ## Lookup -/

section Get

variable {key : Key} {f shift p : ℕ}

/-- **A lookup finds the value of the key.** -/
theorem get_spec {n : Node V} (hfs : shift + 5 * f = 40) (hp : p < 2 ^ shift)
    (hpath : (hashkey key).toNat % 2 ^ shift = p) (hgood : Good hashkey f shift p n) :
    ∃ r, get f (some n) key (hashkey key) shift = some r ∧ Found hashkey key n.entries r := by
  induction f generalizing shift p n with
  | zero => exact hgood.elim
  | succ f ih =>
    obtain ⟨bm, slots⟩ := n
    rw [entries_mk]
    rcases Nat.lt_or_ge shift 32 with hlt | hge
    · obtain ⟨i, hi, hidx, hnext⟩ := index_below hpath hlt
      have hbm := ((good_bitmap hlt).mp hgood).1
      cases hbit : bitSet bm i with
      | false =>
        obtain ⟨s₁, s₂, rfl, -, hoff, -⟩ := hgood.gap hlt hi hbit
        simp only [get, if_neg hbm, hidx, Option.bind_eq_bind, Option.bind_some,
          if_pos ((and_bitOf_eq_zero_iff hi).mpr hbit)]
        exact ⟨none, rfl, fun hag => absent_others hp hnext hoff hag⟩
      | true =>
        obtain ⟨s₁, s, s₂, rfl, hlen, hok, hoff, -, -⟩ := hgood.around hlt hi hbit
        have hnz : ¬ bm &&& bitOf i = 0 := by
          rw [and_bitOf_eq_zero_iff hi, hbit]
          exact Bool.noConfusion
        -- the other slots hold no equal key, so what is found in this one is the answer
        have hlift : ∀ r, Found hashkey key s.entries r →
            Found hashkey key (slotsEntries (s₁ ++ s :: s₂)) r := by
          intro r hr
          rw [slotsEntries_around]
          cases r with
          | some v =>
            obtain ⟨k, hk, heq⟩ := hr
            exact ⟨k, by simp [hk], heq⟩
          | none =>
            intro hag e he
            have hothers := absent_others hp hnext hoff (hag.mono fun e he => by
              rw [slotsEntries_append, List.mem_append] at he
              simp only [List.mem_append]
              tauto)
            simp only [List.mem_append] at he
            rcases he with (he | he) | he
            · exact hothers e (by simp [he])
            · exact hr (hag.mono fun e he => by simp [he]) e he
            · exact hothers e (by simp [he])
        simp only [get, if_neg hbm, hidx, Option.bind_eq_bind, Option.bind_some, if_neg hnz,
          ← hlen, getElem?_middle]
        cases s with
        | entry k v =>
          have hk : k ≠ .null := hok.1
          simp only [Slot.key, hk, ne_eq, not_false_eq_true, if_true, Slot.val]
          by_cases heq : isequal k key = true
          · simp only [heq, if_true]
            exact ⟨some v, rfl, hlift _ ⟨k, by simp, heq⟩⟩
          · simp only [heq, Bool.false_eq_true, if_false]
            exact ⟨none, rfl, hlift _ fun _ e he => by simp_all⟩
        | child c =>
          obtain ⟨r, hr, hfound⟩ := ih (by omega) (path_lt hp hi) hnext hok
          simp only [Slot.key, ne_eq, not_true_eq_false, if_false, Slot.node, Option.bind_some, hr]
          exact ⟨r, rfl, hlift r (by rw [entries_child]; exact hfound)⟩
    · obtain ⟨rfl, hne, hall⟩ := (good_bucket hge).mp hgood
      simp only [get, if_true]
      cases hfind : slots.find? fun s => isequal s.key key with
      | none =>
        exact ⟨none, rfl, fun _ => absent_bucket hall fun s hs => by
          simpa using List.find?_eq_none.mp hfind s hs⟩
      | some s =>
        have hs := List.mem_of_find?_eq_some hfind
        have heq := List.find?_some hfind
        obtain ⟨k, v, rfl, -⟩ := hall s hs
        exact ⟨some v, rfl, k, mem_slotsEntries.mpr ⟨_, hs, by simp⟩, heq⟩

end Get

end Alcove.Hamt
