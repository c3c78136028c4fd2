import Alcove.Hamt.Bitmap

/-!
# The persistent map: the shape of its tries

`NodeOk` says what every node of a trie must be: the slots of a bitmap node sit at the set bits that
the hashes of their keys select, and a bucket holds keys of one hash. `Good` is the same as a
recursion over the levels, with the low hash bits that the path to a node has used up; it is what
the functions keep (`merge_good`, `assoc_spec`, `dissoc_spec`).
-/

namespace Alcove.Hamt

open Lib

variable {V : Type} (hashkey : Key → UInt32)

/-! ## Well-formed nodes -/

/-- Nodes below a node at the level `shift`, itself included. -/
inductive Below : Node V → ℕ → Node V → ℕ → Prop
  | refl (n : Node V) (shift : ℕ) : Below n shift n shift
  | child {bm : UInt32} {slots : List (Slot V)} {c n : Node V} {shift shift' : ℕ}
      (hmem : .child c ∈ slots) (h : Below c (shift + 5) n shift') :
      Below (.mk bm slots) shift n shift'

/-- What a node at the level `shift` must be. -/
inductive NodeOk (shift : ℕ) : Node V → Prop
  /-- A bitmap node: the slot at each position sits at the set bit of that rank, and that bit is the
  index of every key below it. -/
  | bitmap {bm : UInt32} {slots : List (Slot V)} (hbm : bm ≠ 0) (hshift : shift < 32)
      (hcount : popcount bm = slots.length) (hpos : 0 < slots.length)
      (hplace : ∀ s ∈ (bits (bitSet bm) 32).zip slots, ∀ e ∈ s.2.entries,
        hashIndex (hashkey e.1) shift = some s.1)
      (hkey : ∀ k v, .entry k v ∈ slots → k ≠ .null) : NodeOk shift (.mk bm slots)
  /-- A collision bucket: entries only, of one full hash. -/
  | bucket {slots : List (Slot V)} (hshift : 32 ≤ shift) (hpos : 0 < slots.length)
      (hentry : ∀ s ∈ slots, ∃ k v, s = .entry k v)
      (hhash : ∀ k v k' v', .entry k v ∈ slots → .entry k' v' ∈ slots → hashkey k = hashkey k') :
      NodeOk shift (.mk 0 slots)

/-- What a slot below the path `p` must be, at the level `shift` of its children. -/
def SlotOk (child : Node V → Prop) (shift p : ℕ) : Slot V → Prop
  | .entry k _ => k ≠ .null ∧ (hashkey k).toNat % 2 ^ shift = p
  | .child n => child n

/-- An entry of a bucket below the path `p`. -/
def BucketSlot (shift p : ℕ) (s : Slot V) : Prop :=
  ∃ k v, s = .entry k v ∧ (hashkey k).toNat % 2 ^ shift = p

/-- The node stands at the level `shift`, below the path whose low hash bits are `p`, and is at
most `fuel` levels deep. -/
def Good : ℕ → ℕ → ℕ → Node V → Prop
  | 0, _, _, _ => False
  | fuel + 1, shift, p, .mk bm slots =>
    if 32 ≤ shift then bm = 0 ∧ slots ≠ [] ∧ ∀ s ∈ slots, BucketSlot hashkey shift p s
    else bm ≠ 0 ∧
      List.Forall₂
        (fun i => SlotOk hashkey (Good fuel (shift + 5) (p + 2 ^ shift * i)) (shift + 5)
          (p + 2 ^ shift * i))
        (bits (bitSet bm) 32) slots

/-- What the slot of the index `i` must be, in a node at the level `shift`. -/
def SlotAt (fuel shift p i : ℕ) : Slot V → Prop :=
  SlotOk hashkey (Good hashkey fuel (shift + 5) (p + 2 ^ shift * i)) (shift + 5) (p + 2 ^ shift * i)

variable {hashkey}

theorem entries_mk (bm : UInt32) (slots : List (Slot V)) :
    (Node.mk bm slots).entries = slotsEntries slots := by
  rw [Node.entries]

@[simp] theorem slotsEntries_nil : slotsEntries ([] : List (Slot V)) = [] := by
  rw [slotsEntries]

@[simp] theorem slotsEntries_cons (s : Slot V) (ss : List (Slot V)) :
    slotsEntries (s :: ss) = s.entries ++ slotsEntries ss := by
  rw [slotsEntries]

@[simp] theorem entries_entry (k : Key) (v : V) : (Slot.entry k v).entries = [(k, v)] := by
  rw [Slot.entries]

@[simp] theorem entries_child (n : Node V) : (Slot.child n).entries = n.entries := by
  rw [Slot.entries]

@[simp] theorem slotsEntries_append (ss ss' : List (Slot V)) :
    slotsEntries (ss ++ ss') = slotsEntries ss ++ slotsEntries ss' := by
  induction ss with
  | nil => rfl
  | cons s ss ih => rw [List.cons_append, slotsEntries_cons, slotsEntries_cons, ih,
      List.append_assoc]

theorem mem_slotsEntries {ss : List (Slot V)} {e : Key × V} :
    e ∈ slotsEntries ss ↔ ∃ s ∈ ss, e ∈ s.entries := by
  induction ss with
  | nil => simp
  | cons s ss ih => simp [ih]

theorem good_bucket {f shift p : ℕ} {bm : UInt32} {slots : List (Slot V)} (hs : 32 ≤ shift) :
    Good hashkey (f + 1) shift p (.mk bm slots) ↔
      bm = 0 ∧ slots ≠ [] ∧ ∀ s ∈ slots, BucketSlot hashkey shift p s := by
  rw [Good, if_pos hs]

theorem good_bitmap {f shift p : ℕ} {bm : UInt32} {slots : List (Slot V)} (hs : shift < 32) :
    Good hashkey (f + 1) shift p (.mk bm slots) ↔ bm ≠ 0 ∧
      List.Forall₂ (SlotAt hashkey f shift p) (bits (bitSet bm) 32) slots := by
  rw [Good, if_neg (by omega)]
  rfl

theorem path_lt {shift p i : ℕ} (hp : p < 2 ^ shift) (hi : i < 32) :
    p + 2 ^ shift * i < 2 ^ (shift + 5) := by
  rw [Nat.pow_add]
  calc p + 2 ^ shift * i < 2 ^ shift * 1 + 2 ^ shift * i := by omega
    _ = 2 ^ shift * (1 + i) := by rw [Nat.mul_add]
    _ ≤ 2 ^ shift * 2 ^ 5 := Nat.mul_le_mul_left _ (by omega)

/-- Every key of a node has the low hash bits of the path to it. -/
theorem Good.hash {f shift p : ℕ} {n : Node V} (h : Good hashkey f shift p n) (hp : p < 2 ^ shift) :
    ∀ e ∈ n.entries, (hashkey e.1).toNat % 2 ^ shift = p := by
  induction f generalizing shift p n with
  | zero => exact h.elim
  | succ f ih =>
    obtain ⟨bm, slots⟩ := n
    intro e he
    rw [entries_mk, mem_slotsEntries] at he
    obtain ⟨s, hs, he⟩ := he
    rcases Nat.lt_or_ge shift 32 with hlt | hge
    · obtain ⟨-, hslots⟩ := (good_bitmap hlt).mp h
      obtain ⟨i, hi, hok⟩ := forall₂_mem_right hslots hs
      have hsum : (hashkey e.1).toNat % 2 ^ (shift + 5) = p + 2 ^ shift * i := by
        cases s with
        | entry k v =>
          rw [entries_entry, List.mem_singleton] at he
          subst he
          exact hok.2
        | child n =>
          rw [entries_child] at he
          exact ih hok (path_lt hp (mem_bits.mp hi).1) e he
      have hmod := congrArg (· % 2 ^ shift) hsum
      simpa [Nat.add_mul_mod_self_left, Nat.mod_eq_of_lt hp, Nat.pow_add] using hmod
    · obtain ⟨-, -, hall⟩ := (good_bucket hge).mp h
      obtain ⟨k, v, rfl, hk⟩ := hall s hs
      rw [entries_entry, List.mem_singleton] at he
      subst he
      exact hk

section Slots

variable {f shift p i : ℕ} {bm : UInt32} {slots : List (Slot V)} {s : Slot V}

/-- The keys of a slot have the hash bits of its index. -/
theorem SlotAt.hash (h : SlotAt hashkey f shift p i s) (hp : p < 2 ^ shift) (hi : i < 32) :
    ∀ e ∈ s.entries, (hashkey e.1).toNat % 2 ^ (shift + 5) = p + 2 ^ shift * i := by
  intro e he
  cases s with
  | entry k v =>
    rw [entries_entry, List.mem_singleton] at he
    subst he
    exact h.2
  | child n =>
    rw [entries_child] at he
    exact Good.hash h (path_lt hp hi) e he

/-- Copying the slots of a bitmap node takes a reference to each, as what it is. -/
theorem SlotAt.refSlot (h : SlotAt hashkey f shift p i s) :
    refSlot (false || s.key != .null) s = some s := by
  cases s with
  | entry k v =>
    have hk : (k != .null) = true := by simpa using h.1
    simp [Hamt.refSlot, Slot.key, Slot.val, hk]
  | child n => rfl

theorem refSlots_eq {bucket : Bool} (h : ∀ s ∈ slots, refSlot (bucket || s.key != .null) s = some s) :
    refSlots bucket slots = some slots := by
  unfold refSlots
  induction slots with
  | nil => rfl
  | cons s ss ih =>
    rw [List.mapM_cons, h s List.mem_cons_self, ih fun t ht => h t (List.mem_cons_of_mem s ht)]
    rfl

theorem refSlots_bucket (h : ∀ s ∈ slots, BucketSlot hashkey shift p s) :
    refSlots true slots = some slots := by
  refine refSlots_eq fun s hs => ?_
  obtain ⟨k, v, rfl, -⟩ := h s hs
  rfl

theorem refSlots_bitmap (h : ∀ s ∈ slots, ∃ i, SlotAt hashkey f shift p i s) :
    refSlots false slots = some slots := by
  refine refSlots_eq fun s hs => ?_
  obtain ⟨i, hi⟩ := h s hs
  exact hi.refSlot

/-- A bitmap node, around the slot of an index. -/
theorem Good.around (h : Good hashkey (f + 1) shift p (.mk bm slots)) (hs : shift < 32) (hi : i < 32)
    (hbit : bitSet bm i = true) :
    ∃ s₁ s s₂, slots = s₁ ++ s :: s₂ ∧ s₁.length = slotPos bm (bitOf i) ∧
      SlotAt hashkey f shift p i s ∧
      (∀ t ∈ s₁ ++ s₂, ∃ j < 32, j ≠ i ∧ SlotAt hashkey f shift p j t) ∧
      (∀ t, SlotAt hashkey f shift p i t →
        Good hashkey (f + 1) shift p (.mk bm (s₁ ++ t :: s₂))) ∧
      (s₁ ++ s₂ ≠ [] → Good hashkey (f + 1) shift p (.mk (bm &&& ~~~bitOf i) (s₁ ++ s₂))) := by
  obtain ⟨hbm, hslots⟩ := (good_bitmap hs).mp h
  have hsplit := bits_split hi hbit
  have hnodup := nodup_bits (bitSet bm) 32
  rw [hsplit] at hslots hnodup
  obtain ⟨s₁, s, s₂, rfl, hlen, h₁, hok, h₂⟩ := forall₂_split_cons hslots
  refine ⟨s₁, s, s₂, rfl, ?_, hok, ?_, ?_, ?_⟩
  · rw [hlen, length_bits, slotPos_bitOf bm hi]
  · intro t ht
    have hnot := (List.nodup_middle.mp hnodup).notMem
    obtain ⟨j, hj, hjok⟩ := forall₂_mem_right (List.rel_append h₁ h₂) ht
    refine ⟨j, ?_, fun hji => hnot (hji ▸ hj), hjok⟩
    have hmem : j ∈ bits (bitSet bm) 32 := by
      rw [hsplit, List.mem_append, List.mem_cons]
      rcases List.mem_append.mp hj with hj | hj
      · exact .inl hj
      · exact .inr (.inr hj)
    exact (mem_bits.mp hmem).1
  · intro t ht
    refine (good_bitmap hs).mpr ⟨hbm, ?_⟩
    rw [hsplit]
    exact List.rel_append h₁ (.cons ht h₂)
  · intro hne
    have hbits := (agreeOff_clear bm hi).erase hi (bitSet_clear_self bm hi)
    have hrest : List.Forall₂ (SlotAt hashkey f shift p)
        (bits (bitSet bm) i ++ bitsFrom (bitSet bm) (i + 1) 32) (s₁ ++ s₂) :=
      List.rel_append h₁ h₂
    refine (good_bitmap hs).mpr ⟨?_, ?_⟩
    · rw [Ne, eq_zero_iff_bits, hbits]
      intro hnil
      rw [hnil] at hrest
      cases hr : s₁ ++ s₂ with
      | nil => exact hne hr
      | cons t ts =>
        rw [hr] at hrest
        cases hrest
    · rw [hbits]
      exact hrest

/-- A bitmap node, around the place of an index that has no slot. -/
theorem Good.gap (h : Good hashkey (f + 1) shift p (.mk bm slots)) (hs : shift < 32) (hi : i < 32)
    (hbit : bitSet bm i = false) :
    ∃ s₁ s₂, slots = s₁ ++ s₂ ∧ s₁.length = slotPos bm (bitOf i) ∧
      (∀ t ∈ s₁ ++ s₂, ∃ j < 32, j ≠ i ∧ SlotAt hashkey f shift p j t) ∧
      (∀ t, SlotAt hashkey f shift p i t →
        Good hashkey (f + 1) shift p (.mk (bm ||| bitOf i) (s₁ ++ t :: s₂))) := by
  obtain ⟨hbm, hslots⟩ := (good_bitmap hs).mp h
  have hsplit := bits_split_absent hi hbit
  have hmem : ∀ j ∈ bits (bitSet bm) i ++ bitsFrom (bitSet bm) (i + 1) 32, j < 32 ∧ j ≠ i := by
    intro j hj
    rw [← hsplit, mem_bits] at hj
    refine ⟨hj.1, ?_⟩
    rintro rfl
    rw [hbit] at hj
    exact Bool.noConfusion hj.2
  rw [hsplit] at hslots
  obtain ⟨s₁, s₂, rfl, hlen, h₁, h₂⟩ := forall₂_split hslots
  refine ⟨s₁, s₂, rfl, ?_, ?_, ?_⟩
  · rw [hlen, length_bits, slotPos_bitOf bm hi]
  · intro t ht
    obtain ⟨j, hj, hjok⟩ := forall₂_mem_right hslots ht
    exact ⟨j, (hmem j hj).1, (hmem j hj).2, hjok⟩
  · intro t ht
    have hbits := (agreeOff_or bm hi).insert hi (bitSet_or_self bm hi)
    refine (good_bitmap hs).mpr ⟨?_, ?_⟩
    · rw [Ne, eq_zero_iff_bits, hbits]
      simp
    · rw [hbits]
      exact List.rel_append h₁ (.cons ht h₂)

/-- A key whose hash selects another slot has another hash. -/
theorem SlotAt.hash_ne {j : ℕ} {h : UInt32} (hok : SlotAt hashkey f shift p j s) (hp : p < 2 ^ shift)
    (hj : j < 32) (hji : j ≠ i) (hh : h.toNat % 2 ^ (shift + 5) = p + 2 ^ shift * i) :
    ∀ e ∈ s.entries, hashkey e.1 ≠ h := by
  intro e he heq
  have hhash := hok.hash hp hj e he
  rw [heq, hh] at hhash
  have hmul : 2 ^ shift * i = 2 ^ shift * j := by omega
  exact hji (Nat.eq_of_mul_eq_mul_left (Nat.two_pow_pos shift) hmul).symm

end Slots

end Alcove.Hamt
