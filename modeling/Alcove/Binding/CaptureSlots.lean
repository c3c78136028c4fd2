import Alcove.Binding.Capture

/-!
# Slots and the bindings of interpreted code

A scan finds the first or the last live slot of a name (`scanUp_eq_some`, `scanDown_eq_some`). In the
order of the slots the last one of a name is that of the innermost form that binds it, in which
interpreted code finds the name too (`resolve_of_last`).
-/

namespace Alcove.Binding.Capture

variable {V : Type}

/-! ## Live slots -/

section Scan

variable {e e' : Frame V} {key : CStr} {i : ℕ}

theorem find?_reverse_range {p : ℕ → Bool} {n : ℕ} : (List.range n).reverse.find? p = some i ↔
    i < n ∧ p i = true ∧ ∀ j, i < j → j < n → p j = false := by
  induction n with
  | zero => simp
  | succ n ih =>
    rw [List.range_succ, List.reverse_append, List.reverse_singleton, List.singleton_append,
      List.find?_cons]
    cases hp : p n with
    | true =>
      constructor
      · rintro ⟨⟩
        exact ⟨Nat.lt_succ_self _, hp, fun j hj hj' => by omega⟩
      · rintro ⟨hi, -, hlast⟩
        by_contra hne
        have hlt : i < n := by
          rcases Nat.lt_or_ge i n with hlt | hge
          · exact hlt
          · exact absurd (congrArg some (by omega : n = i)) hne
        rw [hlast n hlt (Nat.lt_succ_self n)] at hp
        cases hp
    | false =>
      dsimp only
      rw [ih]
      constructor
      · rintro ⟨hi, hpi, hlast⟩
        refine ⟨by omega, hpi, fun j hj hj' => ?_⟩
        rcases Nat.lt_or_ge j n with hlt | hge
        · exact hlast j hj hlt
        · rwa [show j = n by omega]
      · rintro ⟨hi, hpi, hlast⟩
        have hne : i ≠ n := by
          rintro rfl
          rw [hpi] at hp
          cases hp
        exact ⟨by omega, hpi, fun j hj hj' => hlast j hj (by omega)⟩

theorem scanDown_eq_some : scanDown e key = some i ↔ Live e key i ∧ ∀ j, i < j → ¬ Live e key j := by
  rw [scanDown, find?_reverse_range]
  simp only [decide_eq_true_eq, decide_eq_false_iff_not, Live]
  constructor
  · rintro ⟨hi, hk, hlast⟩
    exact ⟨⟨hi, hk⟩, fun j hj hlive => hlast j hj hlive.1 hlive.2⟩
  · rintro ⟨⟨hi, hk⟩, hlast⟩
    exact ⟨hi, hk, fun j hj hj' hkj => hlast j hj ⟨hj', hkj⟩⟩

theorem scanUp_eq_some : scanUp e key = some i ↔ Live e key i ∧ ∀ j, j < i → ¬ Live e key j := by
  rw [scanUp, List.find?_range_eq_some]
  simp only [decide_eq_true_eq, List.mem_range, Bool.not_eq_true', decide_eq_false_iff_not, Live]
  constructor
  · rintro ⟨hk, hi, hfirst⟩
    exact ⟨⟨hi, hk⟩, fun j hj hlive => hfirst j hj hlive.2⟩
  · rintro ⟨⟨hi, hk⟩, hfirst⟩
    exact ⟨hk, hi, fun j hj hkj => hfirst j hj ⟨by omega, hkj⟩⟩

/-- **A scan depends on the live slots of the name only.** -/
theorem scanDown_congr (h : ∀ i, Live e key i ↔ Live e' key i) : scanDown e key = scanDown e' key := by
  ext i
  simp only [scanDown_eq_some, h]

theorem scanUp_congr (h : ∀ i, Live e key i ↔ Live e' key i) : scanUp e key = scanUp e' key := by
  ext i
  simp only [scanUp_eq_some, h]

theorem Closure.scan_congr (c : Closure) (h : ∀ i, Live e key i ↔ Live e' key i) :
    c.scan e key = c.scan e' key := by
  rw [Closure.scan]
  split
  · exact scanUp_congr h
  · exact scanDown_congr h

theorem not_live (hs : scanDown e key = none) (i : ℕ) : ¬ Live e key i :=
  fun hlive => scanDown_eq_none.mp hs (Frame.mem_names.mpr ⟨i, hlive⟩)

theorem scanUp_of_not_live (h : ∀ i, ¬ Live e key i) : scanUp e key = none := by
  rw [scanUp_eq_none]
  intro hmem
  obtain ⟨i, hi⟩ := Frame.mem_names.mp hmem
  exact h i hi

/-- The only slot of a name is found in both directions. -/
theorem scanUp_of_unshadowed (h : Unshadowed e key) : scanUp e key = scanDown e key := by
  ext i
  rw [scanUp_eq_some, scanDown_eq_some]
  constructor
  · rintro ⟨hlive, -⟩
    exact ⟨hlive, fun j hj hlive' => absurd (h i j hlive hlive') (by omega)⟩
  · rintro ⟨hlive, -⟩
    exact ⟨hlive, fun j hj hlive' => absurd (h i j hlive hlive') (by omega)⟩

theorem Closure.live_scan {c : Closure} (h : c.scan e key = some i) : Live e key i := by
  rw [Closure.scan] at h
  split at h
  · exact (scanUp_eq_some.mp h).1
  · exact (scanDown_eq_some.mp h).1

end Scan

/-! ## Names of interpreted code -/

section Resolve

variable {vars vars' : ℕ → CStr → Option V} {chain : List ℕ} {blocks : List Block} {key : CStr}
  {m j : ℕ}

theorem resolve_congr (h : ∀ j ∈ chain, (vars' j key).isSome = (vars j key).isSome) :
    resolve vars' chain key = resolve vars chain key :=
  List.find?_congr h

/-- The bindings of the environments are those of the blocks. -/
def Bound (vars : ℕ → CStr → Option V) (blocks : List Block) : Prop :=
  ∀ b ∈ blocks, ∀ key, (vars b.1 key).isSome = true ↔ some key ∈ b.2

theorem mem_of_tags {t : ℕ × CStr} (h : (tags blocks)[m]? = some (some t)) :
    ∃ b ∈ blocks, b.1 = t.1 ∧ some t.2 ∈ b.2 := by
  induction blocks with
  | nil => cases h
  | cons b rest ih =>
    obtain ⟨i, names⟩ := b
    rw [tags] at h
    rcases Nat.lt_or_ge m (tags rest).length with hlt | hge
    · rw [List.getElem?_append_left hlt] at h
      obtain ⟨b, hb, hbt⟩ := ih h
      exact ⟨b, List.mem_cons_of_mem _ hb, hbt⟩
    · rw [List.getElem?_append_right hge, List.getElem?_map, Option.map_eq_some_iff] at h
      obtain ⟨name, hname, hmap⟩ := h
      cases name with
      | none => cases hmap
      | some key =>
        obtain rfl := Option.some.inj hmap
        exact ⟨_, List.mem_cons_self, rfl, List.mem_of_getElem? hname⟩

theorem exists_tag {b : Block} (hb : b ∈ blocks) (hkey : some key ∈ b.2) :
    ∃ m : ℕ, (tags blocks)[m]? = some (some (b.1, key)) := by
  induction blocks with
  | nil => cases hb
  | cons c rest ih =>
    obtain ⟨i, names⟩ := c
    rcases List.mem_cons.mp hb with rfl | hrest
    · obtain ⟨q, hq⟩ := List.getElem?_of_mem hkey
      refine ⟨(tags rest).length + q, ?_⟩
      rw [tags, List.getElem?_append_right (by omega), Nat.add_sub_cancel_left, List.getElem?_map, hq]
      rfl
    · obtain ⟨m, hm⟩ := ih hrest
      have hlt := (List.getElem?_eq_some_iff.mp hm).1
      exact ⟨m, by rw [tags, List.getElem?_append_left hlt, hm]⟩

/-- **The last slot of a name is that of the innermost binding.** -/
theorem resolve_of_last (hbound : Bound vars blocks)
    (hm : (tags blocks)[m]? = some (some (j, key)))
    (hlast : ∀ m' j', m < m' → (tags blocks)[m']? ≠ some (some (j', key))) :
    resolve vars (blocks.map Prod.fst) key = some j := by
  induction blocks with
  | nil => cases hm
  | cons b rest ih =>
    obtain ⟨i, names⟩ := b
    have hhead := hbound (i, names) List.mem_cons_self key
    rw [List.map_cons, resolve, List.find?_cons]
    by_cases hmem : some key ∈ names
    · -- the last slot is one of the innermost block
      obtain ⟨q, hq⟩ := List.getElem?_of_mem hmem
      have hnew : (tags ((i, names) :: rest))[(tags rest).length + q]? = some (some (i, key)) := by
        rw [tags, List.getElem?_append_right (by omega), Nat.add_sub_cancel_left, List.getElem?_map, hq]
        rfl
      have hge : ¬ m < (tags rest).length + q := fun hlt => hlast _ i hlt hnew
      rw [tags, List.getElem?_append_right (by omega), List.getElem?_map, Option.map_eq_some_iff] at hm
      obtain ⟨name, -, hmap⟩ := hm
      cases name with
      | none => cases hmap
      | some key' =>
        obtain ⟨rfl, -⟩ := Prod.mk.inj (Option.some.inj hmap)
        rw [hhead.mpr hmem]
    · have hnone : (vars i key).isSome = false := by
        rw [Bool.eq_false_iff]
        exact fun hsome => hmem (hhead.mp hsome)
      have hlt : m < (tags rest).length := by
        by_contra hge
        rw [tags, List.getElem?_append_right (by omega), List.getElem?_map,
          Option.map_eq_some_iff] at hm
        obtain ⟨name, hname, hmap⟩ := hm
        cases name with
        | none => cases hmap
        | some key' =>
          obtain ⟨-, rfl⟩ := Prod.mk.inj (Option.some.inj hmap)
          exact hmem (List.mem_of_getElem? hname)
      rw [hnone]
      rw [tags, List.getElem?_append_left hlt] at hm
      refine ih (fun b hb => hbound b (List.mem_cons_of_mem _ hb)) hm fun m' j' hm' htag => ?_
      have hlt' := (List.getElem?_eq_some_iff.mp htag).1
      exact hlast m' j' hm' (by rw [tags, List.getElem?_append_left hlt', htag])

theorem resolve_eq_none (hbound : Bound vars blocks)
    (hno : ∀ m j : ℕ, (tags blocks)[m]? ≠ some (some (j, key))) :
    resolve vars (blocks.map Prod.fst) key = none := by
  rw [resolve, List.find?_eq_none]
  intro j hj hsome
  obtain ⟨b, hb, rfl⟩ := List.mem_map.mp hj
  obtain ⟨m, hm⟩ := exists_tag hb ((hbound b hb key).mp hsome)
  exact hno m b.1 hm

end Resolve

/-! ## The slots after an operation -/

section Frames

variable {e : Frame V}

theorem bindLet_slots (e : Frame V) (bs : List (CStr × V)) : ∀ start, e.nInline ≤ start →
    (e.bindLet start bs).d = e.d ∧
    (∀ i < start, (e.bindLet start bs).inlineVals i = e.inlineVals i) ∧
    ∀ i b, bs[i]? = some b → (e.bindLet start bs).inlineVals (start + i) = some b.2 := by
  induction bs with
  | nil => exact fun start _ => ⟨rfl, fun i _ => rfl, fun i b hb => by cases hb⟩
  | cons b rest ih =>
    intro start hstart
    obtain ⟨hd, hold, hnew⟩ := ih (start + 1) (by omega)
    refine ⟨hd, fun i hi => ?_, fun i c hc => ?_⟩
    · exact (Function.update_of_ne (Nat.ne_of_lt hi) _ _).trans (hold i (by omega))
    · cases i with
      | zero =>
        obtain rfl := Option.some.inj hc
        exact Function.update_self _ _ _
      | succ i =>
        refine (Function.update_of_ne (by omega) _ _).trans ?_
        rw [show start + (i + 1) = start + 1 + i by omega]
        exact hnew i c hc

/-- What a call leaves in the slots, where there are enough. -/
theorem bindVars_slots (bs : List (CStr × V)) : ∀ e : Frame V, e.nInline + bs.length ≤ envInlineSlots →
    (bs.foldl (fun e b => e.bindVar b.1 b.2) e).nInline = e.nInline + bs.length ∧
    (bs.foldl (fun e b => e.bindVar b.1 b.2) e).d = e.d ∧
    (∀ i < e.nInline,
      (bs.foldl (fun e b => e.bindVar b.1 b.2) e).inlineKeys i = e.inlineKeys i ∧
      (bs.foldl (fun e b => e.bindVar b.1 b.2) e).inlineVals i = e.inlineVals i) ∧
    ∀ i b, bs[i]? = some b →
      (bs.foldl (fun e b => e.bindVar b.1 b.2) e).inlineKeys (e.nInline + i) = some b.1 ∧
      (bs.foldl (fun e b => e.bindVar b.1 b.2) e).inlineVals (e.nInline + i) = some b.2 := by
  induction bs with
  | nil => exact fun e _ => ⟨rfl, rfl, fun i _ => ⟨rfl, rfl⟩, fun i b hb => by cases hb⟩
  | cons b rest ih =>
    intro e he
    rw [List.length_cons] at he
    have hbind : e.bindVar b.1 b.2 =
        { e with
          inlineKeys := Function.update e.inlineKeys e.nInline (some b.1)
          inlineVals := Function.update e.inlineVals e.nInline (some b.2)
          nInline := e.nInline + 1 } := if_pos (by omega)
    obtain ⟨hn, hd, hold, hnew⟩ := ih (e.bindVar b.1 b.2) (by rw [hbind]; dsimp only; omega)
    rw [hbind] at hn hd hold hnew
    rw [List.foldl_cons, hbind, List.length_cons]
    refine ⟨by rw [hn]; dsimp only; omega, hd, fun i hi => ?_, fun i c hc => ?_⟩
    · obtain ⟨hk, hv⟩ := hold i (by dsimp only; omega)
      exact ⟨hk.trans (Function.update_of_ne (Nat.ne_of_lt hi) _ _),
        hv.trans (Function.update_of_ne (Nat.ne_of_lt hi) _ _)⟩
    · cases i with
      | zero =>
        obtain rfl := Option.some.inj hc
        obtain ⟨hk, hv⟩ := hold e.nInline (by dsimp only; omega)
        exact ⟨hk.trans (Function.update_self _ _ _), hv.trans (Function.update_self _ _ _)⟩
      | succ i =>
        rw [show e.nInline + (i + 1) = e.nInline + 1 + i by omega]
        exact hnew i c hc

theorem unbindFrom_slots (start : ℕ) : ∀ (n : ℕ) (e : Frame V), e.nInline = start + n →
    (unbindFrom e start n).nInline = start ∧ (unbindFrom e start n).d = e.d ∧
    ∀ i < start, (unbindFrom e start n).inlineKeys i = e.inlineKeys i ∧
      (unbindFrom e start n).inlineVals i = e.inlineVals i := by
  intro n
  induction n with
  | zero => exact fun e he => ⟨he, rfl, fun i _ => ⟨rfl, rfl⟩⟩
  | succ n ih =>
    intro e he
    have hn : (e.unbindSlot (start + n)).nInline = start + n := by
      rw [Frame.unbindSlot_nInline, if_pos (by omega)]
    obtain ⟨hn', hd, hold⟩ := ih _ hn
    refine ⟨hn', hd, fun i hi => ?_⟩
    obtain ⟨hk, hv⟩ := hold i hi
    exact ⟨hk.trans (Function.update_of_ne (by omega) _ _), hv.trans (Function.update_of_ne (by omega) _ _)⟩

end Frames

theorem ofBindings_isSome {bs : List (CStr × V)} {key : CStr} :
    (ofBindings bs key).isSome = true ↔ key ∈ bs.map Prod.fst := by
  rw [ofBindings, Option.isSome_map, List.find?_isSome]
  simp

/-- A binding whose name is bound once. -/
theorem ofBindings_eq {bs : List (CStr × V)} (hnodup : (bs.map Prod.fst).Nodup) {i : ℕ} {b : CStr × V}
    (hb : bs[i]? = some b) : ofBindings bs b.1 = some b.2 := by
  induction bs generalizing i with
  | nil => cases hb
  | cons c rest ih =>
    rw [List.map_cons, List.nodup_cons] at hnodup
    rw [ofBindings, List.find?_cons]
    cases i with
    | zero =>
      obtain rfl := Option.some.inj hb
      simp
    | succ i =>
      have hmem : b.1 ∈ rest.map Prod.fst := List.mem_map_of_mem (List.mem_of_getElem? hb)
      have hne : c.1 ≠ b.1 := fun heq => hnodup.1 (heq ▸ hmem)
      rw [decide_eq_false hne]
      exact ih hnodup.2 hb

end Alcove.Binding.Capture
