import Alcove.Binding.CaptureSlots

/-!
# What closures see

The slots of the frame and the bindings of interpreted code correspond (`Inv`): each slot with a name
holds the value of one binding (`tags`), and the slot that a closure finds for a name is the one of
the binding that it has in interpreted code (`Sees`). One lemma a step, and then every run.
-/

namespace Alcove.Binding.Capture

open Lib

variable {V : Type}

/-! ## The invariant -/

/-- The slot that the closure finds holds the binding that it has in interpreted code. -/
def Sees (s : State V) (c : Closure) (key : CStr) : Prop :=
  (resolve s.vars c.chain key = none ∧ ∀ m, ¬ Live s.frame key m) ∨
    ∃ j m, resolve s.vars c.chain key = some j ∧ c.scan s.frame key = some m ∧
      (tags s.blocks)[m]? = some (some (j, key))

/-- **The frame holds the bindings of interpreted code.** -/
structure Inv (s : State V) : Prop where
  slots : s.frame.nInline = (tags s.blocks).length
  keys : ∀ (m : ℕ) t, (tags s.blocks)[m]? = some t → s.frame.inlineKeys m = t.map Prod.snd
  vals : ∀ (m j : ℕ) key, (tags s.blocks)[m]? = some (some (j, key)) →
    s.frame.inlineVals m = s.vars j key
  bound : Bound s.vars s.blocks
  unique : ∀ (m m' : ℕ) t, (tags s.blocks)[m]? = some (some t) →
    (tags s.blocks)[m']? = some (some t) → m = m'
  old : ∀ b ∈ s.blocks, b.1 < s.count
  ids : (s.blocks.map Prod.fst).Nodup
  base : ∃ j, s.blocks.getLast? = some (j, s.params.map some)
  room : s.params.length ≤ envInlineSlots
  nodup : s.params.Nodup
  dict : s.frame.d = none
  chains : ∀ c ∈ s.closures, ∀ j ∈ c.chain, j < s.count
  sees : ∀ c ∈ s.closures, ∀ key ∈ c.free, Sees s c key

namespace Inv

variable {s s' : State V} {key : CStr} {v : V} {m : ℕ}

/-- The live slots of a name are those of its bindings. -/
theorem live (h : Inv s) : Live s.frame key m ↔ ∃ j, (tags s.blocks)[m]? = some (some (j, key)) := by
  constructor
  · rintro ⟨hlt, hk⟩
    rw [h.slots] at hlt
    have htag : (tags s.blocks)[m]? = some (tags s.blocks)[m] := List.getElem?_eq_getElem hlt
    rw [h.keys m _ htag] at hk
    obtain ⟨⟨j, key'⟩, hj, rfl⟩ := Option.map_eq_some_iff.mp hk
    exact ⟨j, by rw [htag, hj]⟩
  · rintro ⟨j, htag⟩
    refine ⟨?_, by rw [h.keys m _ htag]; rfl⟩
    rw [h.slots]
    exact (List.getElem?_eq_some_iff.mp htag).1

/-- **Where the program is, the last slot of a name holds its innermost binding.** -/
theorem current (h : Inv s) (key : CStr) :
    (resolve s.vars s.chain key = none ∧ scanDown s.frame key = none) ∨
      ∃ j m, resolve s.vars s.chain key = some j ∧ scanDown s.frame key = some m ∧
        (tags s.blocks)[m]? = some (some (j, key)) := by
  cases hscan : scanDown s.frame key with
  | none =>
    refine .inl ⟨resolve_eq_none h.bound fun m j htag => ?_, rfl⟩
    exact not_live hscan m (h.live.mpr ⟨j, htag⟩)
  | some m =>
    obtain ⟨hlive, hlast⟩ := scanDown_eq_some.mp hscan
    obtain ⟨j, htag⟩ := h.live.mp hlive
    refine .inr ⟨j, m, resolve_of_last h.bound htag fun m' j' hm' htag' => ?_, rfl, htag⟩
    exact hlast m' hm' (h.live.mpr ⟨j', htag'⟩)

/-- What a closure sees does not change where its names keep their slots and bindings. -/
theorem sees_of (h : Inv s) {c : Closure} (hc : c ∈ s.closures) (hkey : key ∈ c.free)
    (hlive : ∀ m, Live s'.frame key m ↔ Live s.frame key m)
    (htags : ∀ (m j : ℕ), (tags s.blocks)[m]? = some (some (j, key)) →
      (tags s'.blocks)[m]? = some (some (j, key)))
    (hresolve : resolve s'.vars c.chain key = resolve s.vars c.chain key) : Sees s' c key := by
  rw [Sees, hresolve, c.scan_congr hlive]
  obtain ⟨hnone, hno⟩ | ⟨j, m, hj, hm, htag⟩ := h.sees c hc key hkey
  · exact .inl ⟨hnone, fun m hm => hno m ((hlive m).mp hm)⟩
  · exact .inr ⟨j, m, hj, hm, htags m j htag⟩

/-- **What a closure sees is what it has in interpreted code.** -/
theorem seen_eq (h : Inv s) {c : Closure} (hc : c ∈ s.closures) (hkey : key ∈ c.free) :
    s.seen c key = s.defined c key := by
  have hentry : s.frame.entry key = none := by rw [Frame.entry, h.dict]; rfl
  rw [State.seen, State.defined, Frame.find, hentry]
  obtain ⟨hnone, hno⟩ | ⟨j, m, hj, hm, htag⟩ := h.sees c hc key hkey
  · have hscan : c.scan s.frame key = none := by
      cases hs : c.scan s.frame key with
      | none => rfl
      | some m => exact absurd (Closure.live_scan hs) (hno m)
    rw [hnone, hscan]
    rfl
  · rw [hj, hm]
    exact h.vals m j key htag

/-! ## Assignments -/

/-- **An assignment to the binding that the slot holds.** -/
theorem assign (h : Inv s) {scan : Scan V} {chain : List ℕ}
    (hmatch : (resolve s.vars chain key = none ∧ scan s.frame key = none) ∨
      ∃ j m, resolve s.vars chain key = some j ∧ scan s.frame key = some m ∧
        (tags s.blocks)[m]? = some (some (j, key))) :
    Inv { s with
      frame := assignSlot scan s.frame key v
      vars := assignVar s.vars chain key v } := by
  obtain ⟨hnone, hscan⟩ | ⟨j, m, hj, hm, htag⟩ := hmatch
  · rw [assignSlot, assignVar, hnone, hscan]
    exact h
  · rw [assignSlot, assignVar, hj, hm]
    dsimp only
    have hfind : chain.find? (fun j => (s.vars j key).isSome) = some j := hj
    have hwas := List.find?_some hfind
    have hsome : ∀ j' key', (Function.update s.vars j (Function.update (s.vars j) key (some v)) j'
        key').isSome = (s.vars j' key').isSome := by
      intro j' key'
      by_cases hjj : j' = j
      · subst hjj
        rw [Function.update_self]
        by_cases hkk : key' = key
        · rw [hkk, Function.update_self, hwas]
          rfl
        · rw [Function.update_of_ne hkk]
      · rw [Function.update_of_ne hjj]
    exact {
      slots := h.slots
      keys := h.keys
      vals := by
        intro m' j' key' htag'
        show Function.update s.frame.inlineVals m (some v) m' =
          Function.update s.vars j (Function.update (s.vars j) key (some v)) j' key'
        by_cases hmm : m' = m
        · subst hmm
          rw [htag] at htag'
          obtain ⟨rfl, rfl⟩ := Prod.mk.inj (Option.some.inj (Option.some.inj htag'))
          rw [Function.update_self, Function.update_self, Function.update_self]
        · rw [Function.update_of_ne hmm, h.vals m' j' key' htag']
          by_cases hjj : j' = j
          · subst hjj
            have hkk : key' ≠ key := by
              rintro rfl
              exact hmm (h.unique m' m _ htag' htag)
            rw [Function.update_self, Function.update_of_ne hkk]
          · rw [Function.update_of_ne hjj]
      bound := by
        intro b hb key'
        rw [hsome]
        exact h.bound b hb key'
      unique := h.unique
      old := h.old
      ids := h.ids
      base := h.base
      room := h.room
      nodup := h.nodup
      dict := h.dict
      chains := h.chains
      sees := by
        intro c hc key' hkey'
        exact h.sees_of hc hkey' (fun _ => Iff.rfl) (fun _ _ htag => htag)
          (resolve_congr fun j' _ => hsome j' key') }

/-! ## New slots -/

theorem tag_old (h : Inv s) {j : ℕ} (htag : (tags s.blocks)[m]? = some (some (j, key))) :
    j < s.count := by
  obtain ⟨b, hb, rfl, -⟩ := mem_of_tags htag
  exact h.old b hb

/-- **New slots beyond the live ones**, whose names no closure uses. -/
theorem extend (h : Inv s) {frame : Frame V} {blocks : List Block} {vars : ℕ → CStr → Option V}
    {count : ℕ} (new : List (Option (ℕ × CStr))) (htags : tags blocks = tags s.blocks ++ new)
    (hslots : frame.nInline = s.frame.nInline + new.length) (hdict : frame.d = s.frame.d)
    (hold : ∀ i < s.frame.nInline, frame.inlineKeys i = s.frame.inlineKeys i ∧
      frame.inlineVals i = s.frame.inlineVals i)
    (hkeys : ∀ (i : ℕ) t, new[i]? = some t →
      frame.inlineKeys (s.frame.nInline + i) = t.map Prod.snd)
    (hvals : ∀ (i j : ℕ) key, new[i]? = some (some (j, key)) →
      frame.inlineVals (s.frame.nInline + i) = vars j key)
    (hvars : ∀ (m j : ℕ) key, (tags s.blocks)[m]? = some (some (j, key)) →
      vars j key = s.vars j key)
    (hbound : Bound vars blocks)
    (hunique : ∀ (m m' : ℕ) t, (tags blocks)[m]? = some (some t) →
      (tags blocks)[m']? = some (some t) → m = m')
    (hcount : ∀ b ∈ blocks, b.1 < count) (hmono : s.count ≤ count)
    (hids : (blocks.map Prod.fst).Nodup)
    (hbase : blocks.getLast? = s.blocks.getLast?)
    (hunused : ∀ c ∈ s.closures, ∀ key ∈ c.free, (∀ j, some (j, key) ∉ new) ∧
      resolve vars c.chain key = resolve s.vars c.chain key) :
    Inv { s with frame := frame, blocks := blocks, vars := vars, count := count } := by
  have hget (i : ℕ) (hi : i < s.frame.nInline) : (tags blocks)[i]? = (tags s.blocks)[i]? := by
    rw [htags, List.getElem?_append_left (by rw [← h.slots]; exact hi)]
  have hgetNew (i : ℕ) : (tags blocks)[s.frame.nInline + i]? = new[i]? := by
    rw [htags, List.getElem?_append_right (by rw [← h.slots]; omega), ← h.slots,
      Nat.add_sub_cancel_left]
  have hcase (i : ℕ) : i < s.frame.nInline ∨ ∃ k, i = s.frame.nInline + k := by
    rcases Nat.lt_or_ge i s.frame.nInline with hlt | hge
    · exact .inl hlt
    · exact .inr (Nat.exists_eq_add_of_le hge)
  have hkeys' : ∀ (m : ℕ) t, (tags blocks)[m]? = some t → frame.inlineKeys m = t.map Prod.snd := by
    intro m t ht
    obtain hlt | ⟨k, rfl⟩ := hcase m
    · rw [hget m hlt] at ht
      rw [(hold m hlt).1]
      exact h.keys m t ht
    · rw [hgetNew] at ht
      exact hkeys k t ht
  have hslots' : frame.nInline = (tags blocks).length := by
    rw [hslots, htags, List.length_append, ← h.slots]
  exact {
    slots := hslots'
    keys := hkeys'
    vals := by
      intro m j key ht
      obtain hlt | ⟨k, rfl⟩ := hcase m
      · have ht' := ht
        dsimp only at ht'
        rw [hget m hlt] at ht'
        show frame.inlineVals m = vars j key
        rw [(hold m hlt).2, hvars m j key ht']
        exact h.vals m j key ht'
      · dsimp only at ht
        rw [hgetNew] at ht
        exact hvals k j key ht
    bound := hbound
    unique := hunique
    old := hcount
    ids := hids
    base := by
      obtain ⟨j, hj⟩ := h.base
      exact ⟨j, hbase.trans hj⟩
    room := h.room
    nodup := h.nodup
    dict := hdict.trans h.dict
    chains := fun c hc j hj => Nat.lt_of_lt_of_le (h.chains c hc j hj) hmono
    sees := by
      intro c hc key hkey
      obtain ⟨hnew, hresolve⟩ := hunused c hc key hkey
      refine h.sees_of hc hkey (fun m => ?_) (fun m j htag => ?_) hresolve
      · -- a slot with the name is an old one
        constructor
        · rintro ⟨hlt, hk⟩
          obtain hlt' | ⟨k, rfl⟩ := hcase m
          · rw [(hold m hlt').1] at hk
            exact ⟨hlt', hk⟩
          · have hk' : k < new.length := by
              dsimp only at hlt
              omega
            have hnk : new[k]? = some new[k] := List.getElem?_eq_getElem hk'
            rw [hkeys k _ hnk] at hk
            obtain ⟨⟨j, key'⟩, hj, rfl⟩ := Option.map_eq_some_iff.mp hk
            exact absurd (hj ▸ List.getElem_mem hk') (hnew j)
        · rintro ⟨hlt, hk⟩
          refine ⟨?_, (hold m hlt).1.trans hk⟩
          dsimp only
          omega
      · have hlt : m < s.frame.nInline := by
          rw [h.slots]
          exact (List.getElem?_eq_some_iff.mp htag).1
        dsimp only
        rw [hget m hlt, htag] }

/-- Tags of a new environment. -/
theorem unique_append {blocks : List Block} {new : List (Option (ℕ × CStr))}
    (hold : ∀ (m m' : ℕ) t, (tags blocks)[m]? = some (some t) →
      (tags blocks)[m']? = some (some t) → m = m')
    (hnew : ∀ (i i' : ℕ) t, new[i]? = some (some t) → new[i']? = some (some t) → i = i')
    (hdisjoint : ∀ (m i : ℕ) t, (tags blocks)[m]? = some (some t) → new[i]? ≠ some (some t))
    (m m' : ℕ) (t : ℕ × CStr) (hm : (tags blocks ++ new)[m]? = some (some t))
    (hm' : (tags blocks ++ new)[m']? = some (some t)) : m = m' := by
  rcases Nat.lt_or_ge m (tags blocks).length with hlt | hge <;>
    rcases Nat.lt_or_ge m' (tags blocks).length with hlt' | hge'
  · rw [List.getElem?_append_left hlt] at hm
    rw [List.getElem?_append_left hlt'] at hm'
    exact hold m m' t hm hm'
  · rw [List.getElem?_append_left hlt] at hm
    rw [List.getElem?_append_right hge'] at hm'
    exact absurd hm' (hdisjoint m _ t hm)
  · rw [List.getElem?_append_right hge] at hm
    rw [List.getElem?_append_left hlt'] at hm'
    exact absurd hm (hdisjoint m' _ t hm')
  · rw [List.getElem?_append_right hge] at hm
    rw [List.getElem?_append_right hge'] at hm'
    have := hnew _ _ t hm hm'
    omega

/-- Names that are bound once are the names of one slot each. -/
theorem unique_names {names : List CStr} (hnodup : names.Nodup) {j : ℕ} (i i' : ℕ) (t : ℕ × CStr)
    (hi : (names.map fun key => some (j, key))[i]? = some (some t))
    (hi' : (names.map fun key => some (j, key))[i']? = some (some t)) : i = i' := by
  rw [List.getElem?_map, Option.map_eq_some_iff] at hi hi'
  obtain ⟨key, hkey, heq⟩ := hi
  obtain ⟨key', hkey', heq'⟩ := hi'
  obtain rfl := Option.some.inj heq
  obtain ⟨-, rfl⟩ := Prod.mk.inj (Option.some.inj heq')
  exact (List.getElem?_inj (List.getElem?_eq_some_iff.mp hkey).1 hnodup).mp (hkey.trans hkey'.symm)

/-- The entry of a form. -/
theorem block (h : Inv s) {bs : List (CStr × V)} (hnodup : (bs.map Prod.fst).Nodup)
    (hunused : Unused s (bs.map fun b => some b.1)) :
    Inv { s with
      frame := s.frame.bindLet s.frame.nInline bs
      blocks := (s.count, bs.map fun b => some b.1) :: s.blocks
      vars := Function.update s.vars s.count (ofBindings bs)
      count := s.count + 1 } := by
  obtain ⟨hn, hkold, hknew⟩ := Frame.bindLet_spec s.frame bs s.frame.nInline (Nat.le_refl _)
  obtain ⟨hd, hvold, hvnew⟩ := bindLet_slots s.frame bs s.frame.nInline (Nat.le_refl _)
  have htags : (bs.map fun b => some b.1).map (Option.map fun key => (s.count, key)) =
      (bs.map Prod.fst).map fun key => some (s.count, key) := by
    simp [Function.comp_def]
  have hne {j : ℕ} {key : CStr} (hj : j < s.count) :
      Function.update s.vars s.count (ofBindings bs) j key = s.vars j key := by
    rw [Function.update_of_ne (Nat.ne_of_lt hj)]
  have hget {i : ℕ} {t : Option (ℕ × CStr)}
      (ht : ((bs.map Prod.fst).map fun key => some (s.count, key))[i]? = some t) :
      ∃ b, bs[i]? = some b ∧ t = some (s.count, b.1) := by
    rw [List.getElem?_map, List.getElem?_map, Option.map_map, Option.map_eq_some_iff] at ht
    obtain ⟨b, hb, rfl⟩ := ht
    exact ⟨b, hb, rfl⟩
  refine h.extend ((bs.map Prod.fst).map fun key => some (s.count, key)) (by rw [tags, htags]) ?_ hd
    (fun i hi => ⟨hkold i hi, hvold i hi⟩) (fun i t ht => ?_) (fun i j key ht => ?_)
    (fun m j key htag => hne (h.tag_old htag)) ?_ ?_ ?_ (Nat.le_succ _) ?_ ?_
    fun c hc key hkey => ⟨?_, ?_⟩
  · rw [hn, List.length_map, List.length_map]
    cases bs with
    | nil => rfl
    | cons b rest => rw [if_neg (List.cons_ne_nil b rest)]
  · obtain ⟨b, hb, rfl⟩ := hget ht
    rw [hknew i (List.getElem?_eq_some_iff.mp hb).1, List.getElem?_map, hb]
    rfl
  · obtain ⟨b, hb, heq⟩ := hget ht
    obtain ⟨rfl, rfl⟩ := Prod.mk.inj (Option.some.inj heq)
    rw [hvnew i b hb, Function.update_self, ofBindings_eq hnodup hb]
  · rintro b hb key
    rcases List.mem_cons.mp hb with rfl | hb
    · rw [Function.update_self, ofBindings_isSome]
      simp
    · rw [hne (h.old b hb)]
      exact h.bound b hb key
  · rw [tags, htags]
    refine unique_append h.unique (unique_names hnodup) fun m i t htag ht => ?_
    obtain ⟨b, -, heq⟩ := hget ht
    obtain rfl := Option.some.inj heq
    exact Nat.lt_irrefl _ (h.tag_old htag)
  · rintro b hb
    rcases List.mem_cons.mp hb with rfl | hb
    · exact Nat.lt_succ_self _
    · exact Nat.lt_succ_of_lt (h.old b hb)
  · rw [List.map_cons, List.nodup_cons]
    refine ⟨fun hmem => ?_, h.ids⟩
    obtain ⟨b, hb, hbid⟩ := List.mem_map.mp hmem
    exact Nat.lt_irrefl _ (hbid ▸ h.old b hb)
  · obtain ⟨j, hj⟩ := h.base
    rw [List.getLast?_cons, hj]
    rfl
  · intro j hmem
    obtain ⟨i, hi⟩ := List.getElem?_of_mem hmem
    obtain ⟨b, hb, heq⟩ := hget hi
    obtain ⟨-, rfl⟩ := Prod.mk.inj (Option.some.inj heq)
    exact hunused c hc _ hkey (List.mem_map_of_mem (List.mem_of_getElem? hb))
  · exact resolve_congr fun j hj => by rw [hne (h.chains c hc j hj)]

/-- A further name of a `let*`. -/
theorem more (h : Inv s) {j : ℕ} {names : List (Option CStr)} {outer : Block} {rest : List Block}
    (hblocks : s.blocks = (j, names) :: outer :: rest) {name : CStr} (hname : some name ∉ names)
    (hunused : Unused s [some name]) :
    Inv { s with
      frame := s.frame.bindSlot s.frame.nInline (some name) v
      blocks := (j, names ++ [some name]) :: outer :: rest
      vars := Function.update s.vars j (Function.update (s.vars j) name (some v)) } := by
  have hhead := h.bound (j, names) (by rw [hblocks]; exact List.mem_cons_self)
  have hids := h.ids
  rw [hblocks, List.map_cons, List.nodup_cons] at hids
  have hne {j' : ℕ} {key' : CStr} (hother : ¬ (j' = j ∧ key' = name)) :
      Function.update s.vars j (Function.update (s.vars j) name (some v)) j' key' =
        s.vars j' key' := by
    by_cases hj : j' = j
    · subst hj
      rw [Function.update_self, Function.update_of_ne fun hkey => hother ⟨rfl, hkey⟩]
    · rw [Function.update_of_ne hj]
  -- the environment does not bind the name yet
  have hnew (m : ℕ) : (tags s.blocks)[m]? ≠ some (some (j, name)) := by
    intro htag
    obtain ⟨b, hb, hbj, hmem⟩ := mem_of_tags htag
    have hsome := (h.bound b hb name).mpr hmem
    dsimp only at hbj
    rw [hbj] at hsome
    exact hname ((hhead name).mp hsome)
  have hget {i : ℕ} {t : Option (ℕ × CStr)} (ht : [some (j, name)][i]? = some t) :
      i = 0 ∧ t = some (j, name) := by
    obtain ⟨hi, hti⟩ := List.getElem?_eq_some_iff.mp ht
    have hi0 : i = 0 := by simpa using hi
    subst hi0
    exact ⟨rfl, hti.symm⟩
  have htags : tags ((j, names ++ [some name]) :: outer :: rest) = tags s.blocks ++ [some (j, name)] := by
    rw [hblocks, tags, List.map_append, ← List.append_assoc]
    rfl
  refine h.extend [some (j, name)] htags (if_pos (Nat.le_refl _)) rfl (fun i hi => ⟨?_, ?_⟩)
    (fun i t ht => ?_) (fun i j' key ht => ?_) (fun m j' key htag => hne ?_) ?_ ?_ ?_ (Nat.le_refl _) ?_
    ?_ fun c hc key hkey => ⟨fun j' hmem => ?_, resolve_congr fun j' _ => ?_⟩
  · exact Function.update_of_ne (Nat.ne_of_lt hi) _ _
  · exact Function.update_of_ne (Nat.ne_of_lt hi) _ _
  · obtain ⟨rfl, rfl⟩ := hget ht
    exact Function.update_self _ _ _
  · obtain ⟨rfl, heq⟩ := hget ht
    obtain ⟨rfl, rfl⟩ := Prod.mk.inj (Option.some.inj heq)
    rw [Function.update_self, Function.update_self]
    exact Function.update_self _ _ _
  · rintro ⟨rfl, rfl⟩
    exact hnew m htag
  · intro b hb key
    rcases List.mem_cons.mp hb with rfl | hb
    · dsimp only
      rw [Function.update_self, List.mem_append, List.mem_singleton, Option.some.injEq]
      by_cases hkey : key = name
      · simp [hkey]
      · rw [Function.update_of_ne hkey, hhead key]
        simp [hkey]
    · have hbj : b.1 ≠ j := fun heq => hids.1 (List.mem_map.mpr ⟨b, hb, heq⟩)
      rw [Function.update_of_ne hbj]
      exact h.bound b (by rw [hblocks]; exact List.mem_cons_of_mem _ hb) key
  · rw [htags]
    refine unique_append h.unique (fun i i' t hi hi' => ?_) fun m i t htag ht => ?_
    · rw [(hget hi).1, (hget hi').1]
    · obtain rfl := Option.some.inj (hget ht).2
      exact hnew m htag
  · intro b hb
    rcases List.mem_cons.mp hb with rfl | hb
    · exact h.old (j, names) (by rw [hblocks]; exact List.mem_cons_self)
    · exact h.old b (by rw [hblocks]; exact List.mem_cons_of_mem _ hb)
  · have hids' := h.ids
    rw [hblocks] at hids'
    exact hids'
  · rw [hblocks, List.getLast?_cons_cons, List.getLast?_cons_cons]
  · obtain ⟨-, rfl⟩ := Prod.mk.inj (Option.some.inj (List.mem_singleton.mp hmem))
    exact hunused c hc key hkey List.mem_cons_self
  · rw [hne]
    rintro ⟨-, rfl⟩
    exact hunused c hc key hkey List.mem_cons_self

/-- The slot for the end of a `for`. -/
theorem hidden (h : Inv s) {j : ℕ} {names : List (Option CStr)} {outer : Block} {rest : List Block}
    (hblocks : s.blocks = (j, names) :: outer :: rest) :
    Inv { s with
      frame := s.frame.bindSlot s.frame.nInline none v
      blocks := (j, names ++ [none]) :: outer :: rest } := by
  have hget {i : ℕ} {t : Option (ℕ × CStr)} (ht : [none][i]? = some t) : i = 0 ∧ t = none := by
    obtain ⟨hi, hti⟩ := List.getElem?_eq_some_iff.mp ht
    have hi0 : i = 0 := by simpa using hi
    subst hi0
    exact ⟨rfl, hti.symm⟩
  have htags : tags ((j, names ++ [none]) :: outer :: rest) = tags s.blocks ++ [none] := by
    rw [hblocks, tags, List.map_append, ← List.append_assoc]
    rfl
  refine h.extend [none] htags (if_pos (Nat.le_refl _)) rfl (fun i hi => ⟨?_, ?_⟩) (fun i t ht => ?_)
    (fun i j' key ht => ?_) (fun _ _ _ _ => rfl) ?_ ?_ ?_ (Nat.le_refl _) ?_ ?_
    fun c hc key hkey => ⟨fun j' hmem => ?_, rfl⟩
  · exact Function.update_of_ne (Nat.ne_of_lt hi) _ _
  · exact Function.update_of_ne (Nat.ne_of_lt hi) _ _
  · obtain ⟨rfl, rfl⟩ := hget ht
    exact Function.update_self _ _ _
  · cases (hget ht).2
  · intro b hb key
    rcases List.mem_cons.mp hb with rfl | hb
    · rw [h.bound (j, names) (by rw [hblocks]; exact List.mem_cons_self) key]
      simp
    · exact h.bound b (by rw [hblocks]; exact List.mem_cons_of_mem _ hb) key
  · rw [htags]
    exact unique_append h.unique (fun i i' t hi _ => by cases (hget hi).2)
      fun m i t _ ht => by cases (hget ht).2
  · intro b hb
    rcases List.mem_cons.mp hb with rfl | hb
    · exact h.old (j, names) (by rw [hblocks]; exact List.mem_cons_self)
    · exact h.old b (by rw [hblocks]; exact List.mem_cons_of_mem _ hb)
  · have hids' := h.ids
    rw [hblocks] at hids'
    exact hids'
  · rw [hblocks, List.getLast?_cons_cons, List.getLast?_cons_cons]
  · cases List.mem_singleton.mp hmem

/-! ## Slots that go -/

/-- **The last slots go**, whose names no closure uses; the others may get new values. -/
theorem keep (h : Inv s) {frame : Frame V} {blocks : List Block} {vars : ℕ → CStr → Option V}
    {gone : List (Option (ℕ × CStr))} (htags : tags s.blocks = tags blocks ++ gone)
    (hslots : frame.nInline = (tags blocks).length) (hdict : frame.d = s.frame.d)
    (hkeys : ∀ i < (tags blocks).length, frame.inlineKeys i = s.frame.inlineKeys i)
    (hvals : ∀ (m j : ℕ) key, (tags blocks)[m]? = some (some (j, key)) →
      frame.inlineVals m = vars j key)
    (hsome : ∀ j key, (vars j key).isSome = (s.vars j key).isSome)
    (hsub : ∀ b ∈ blocks, b ∈ s.blocks) (hids : (blocks.map Prod.fst).Nodup)
    (hbase : blocks.getLast? = s.blocks.getLast?)
    (hgone : ∀ c ∈ s.closures, ∀ key ∈ c.free, ∀ j, some (j, key) ∉ gone) :
    Inv { s with frame := frame, blocks := blocks, vars := vars } := by
  have hget {i : ℕ} {t : Option (ℕ × CStr)} (ht : (tags blocks)[i]? = some t) :
      (tags s.blocks)[i]? = some t := by
    rw [htags, List.getElem?_append_left (List.getElem?_eq_some_iff.mp ht).1, ht]
  exact {
    slots := hslots
    keys := fun m t ht =>
      (hkeys m (List.getElem?_eq_some_iff.mp ht).1).trans (h.keys m t (hget ht))
    vals := hvals
    bound := by
      intro b hb key
      rw [hsome]
      exact h.bound b (hsub b hb) key
    unique := fun m m' t ht ht' => h.unique m m' t (hget ht) (hget ht')
    old := fun b hb => h.old b (hsub b hb)
    ids := hids
    base := by
      obtain ⟨j, hj⟩ := h.base
      exact ⟨j, hbase.trans hj⟩
    room := h.room
    nodup := h.nodup
    dict := hdict.trans h.dict
    chains := h.chains
    sees := by
      intro c hc key hkey
      -- a slot with the name is none of those that go
      have hstay {m j : ℕ} (htag : (tags s.blocks)[m]? = some (some (j, key))) :
          m < (tags blocks).length := by
        by_contra hge
        rw [htags, List.getElem?_append_right (by omega)] at htag
        exact hgone c hc key hkey j (List.mem_of_getElem? htag)
      refine h.sees_of hc hkey (fun m => ?_) (fun m j htag => ?_)
        (resolve_congr fun j _ => hsome j key)
      · constructor
        · rintro ⟨hlt, hk⟩
          dsimp only at hlt hk
          rw [hslots] at hlt
          rw [hkeys m hlt] at hk
          refine ⟨?_, hk⟩
          rw [h.slots, htags, List.length_append]
          omega
        · intro hlive
          obtain ⟨j, htag⟩ := h.live.mp hlive
          have hlt := hstay htag
          exact ⟨by dsimp only; omega, (hkeys m hlt).trans hlive.2⟩
      · have hlt := hstay htag
        dsimp only
        rwa [htags, List.getElem?_append_left hlt] at htag }

theorem mem_names_of_tag {names : List (Option CStr)} {i j : ℕ}
    (hmem : some (j, key) ∈ names.map (Option.map fun key => (i, key))) : some key ∈ names := by
  obtain ⟨name, hname, heq⟩ := List.mem_map.mp hmem
  obtain ⟨key', rfl, heq'⟩ := Option.map_eq_some_iff.mp heq
  obtain ⟨-, rfl⟩ := Prod.mk.inj heq'
  exact hname

/-- The end of a form. -/
theorem endBlock (h : Inv s) {j : ℕ} {names : List (Option CStr)} {outer : Block} {rest : List Block}
    (hblocks : s.blocks = (j, names) :: outer :: rest) (hunused : Unused s names) :
    Inv { s with
      frame := unbindFrom s.frame (s.frame.nInline - names.length) names.length
      blocks := outer :: rest } := by
  have htags : tags s.blocks =
      tags (outer :: rest) ++ names.map (Option.map fun key => (j, key)) := by rw [hblocks]; rfl
  have hlen : s.frame.nInline = (tags (outer :: rest)).length + names.length := by
    rw [h.slots, htags, List.length_append, List.length_map]
  have hstart : s.frame.nInline - names.length = (tags (outer :: rest)).length := by omega
  rw [hstart]
  obtain ⟨hn, hd, hold⟩ := unbindFrom_slots (tags (outer :: rest)).length names.length s.frame hlen
  have hids := h.ids
  rw [hblocks, List.map_cons, List.nodup_cons] at hids
  refine h.keep htags hn hd (fun i hi => (hold i hi).1) (fun m i key ht => ?_) (fun _ _ => rfl)
    (fun b hb => by rw [hblocks]; exact List.mem_cons_of_mem _ hb) hids.2 ?_
    fun c hc key hkey i hmem => hunused c hc key hkey (mem_names_of_tag hmem)
  · have hlt := (List.getElem?_eq_some_iff.mp ht).1
    rw [(hold m hlt).2]
    refine h.vals m i key ?_
    rw [htags, List.getElem?_append_left hlt, ht]
  · rw [hblocks, List.getLast?_cons_cons]

theorem tags_append (blocks blocks' : List Block) :
    tags (blocks ++ blocks') = tags blocks' ++ tags blocks := by
  induction blocks with
  | nil => rw [List.nil_append, tags, List.append_nil]
  | cons b rest ih => rw [List.cons_append, tags, ih, tags, List.append_assoc]

theorem tags_names {blocks : List Block} {j : ℕ} (hmem : some (j, key) ∈ tags blocks) :
    some key ∈ slotNames blocks := by
  obtain ⟨m, hm⟩ := List.getElem?_of_mem hmem
  obtain ⟨b, hb, -, hkey⟩ := mem_of_tags hm
  exact List.mem_flatMap.mpr ⟨b, hb, hkey⟩

theorem tags_params (params : List CStr) (j : ℕ) :
    tags [(j, params.map some)] = params.map fun key => some (j, key) := by
  simp [tags, Function.comp_def]

/-- The parameters and arguments of a call. -/
theorem zip_params {params : List CStr} {args : List V} (hargs : args.length = params.length) :
    (params.zip args).map Prod.fst = params := List.map_fst_zip (by omega)

/-- A self tail call. -/
theorem tailSelf (h : Inv s) {base : Block} (hbase : s.blocks.getLast? = some base) {args : List V}
    (hargs : args.length = s.params.length) (hunused : Unused s (slotNames s.blocks.dropLast)) :
    Inv { s with
      frame := s.frame.tailSelf args
      blocks := [base]
      vars := Function.update s.vars base.1 (ofBindings (s.params.zip args)) } := by
  obtain ⟨j, hj⟩ := h.base
  obtain rfl : base = (j, s.params.map some) := Option.some.inj (hbase.symm.trans hj)
  have hroom := h.room
  have hblocks : s.blocks = s.blocks.dropLast ++ [(j, s.params.map some)] :=
    (List.dropLast_append_getLast? _ hbase).symm
  have htags : tags s.blocks = tags [(j, s.params.map some)] ++ tags s.blocks.dropLast := by
    rw [hblocks, tags_append, ← hblocks]
  have hlen : (tags [(j, s.params.map some)]).length = s.params.length := by
    rw [tags_params, List.length_map]
  have hmin : min args.length envInlineSlots = s.params.length := by omega
  have hmem : (j, s.params.map some) ∈ s.blocks := List.mem_of_getLast? hbase
  have hzip := zip_params hargs
  refine h.keep htags ?_ rfl (fun i _ => rfl) (fun m i key ht => ?_) (fun i key => ?_) ?_ ?_ ?_ ?_
  · rw [hlen]
    exact hmin
  · rw [tags_params, List.getElem?_map, Option.map_eq_some_iff] at ht
    obtain ⟨key', hkey', heq⟩ := ht
    obtain ⟨rfl, rfl⟩ := Prod.mk.inj (Option.some.inj heq)
    have hm := (List.getElem?_eq_some_iff.mp hkey').1
    have harg : args[m]? = some args[m] := List.getElem?_eq_getElem (by omega)
    have hb : (s.params.zip args)[m]? = some (key', args[m]) := by
      rw [List.getElem?_zip_eq_some]
      exact ⟨hkey', harg⟩
    show (if m < min args.length envInlineSlots then args[m]? else s.frame.inlineVals m) = _
    rw [Function.update_self, hmin, if_pos hm, harg]
    have := ofBindings_eq (by rw [hzip]; exact h.nodup) hb
    exact this.symm
  · by_cases hij : i = j
    · subst hij
      rw [Function.update_self, Bool.eq_iff_iff, ofBindings_isSome, hzip, h.bound _ hmem key]
      simp
    · rw [Function.update_of_ne hij]
  · rintro b hb
    rw [List.mem_singleton.mp hb]
    exact hmem
  · exact List.nodup_singleton _
  · exact hbase.symm
  · exact fun c hc key hkey i hmem => hunused c hc key hkey (tags_names hmem)

/-! ## Calls -/

/-- **A frame with the arguments of a call**, whose parameters no closure uses. -/
theorem of_call {e : Frame V} (he : e.nInline = 0) (hd : e.d = none) {params : List CStr}
    {args : List V} (hargs : args.length = params.length) (hroom : params.length ≤ envInlineSlots)
    (hnodup : params.Nodup) {vars : ℕ → CStr → Option V} {j count : ℕ} {closures : List Closure}
    (hj : j < count) (hvars : vars j = ofBindings (params.zip args))
    (hchains : ∀ c ∈ closures, ∀ i ∈ c.chain, i < count)
    (hunused : ∀ c ∈ closures, ∀ key ∈ c.free,
      resolve vars c.chain key = none ∧ key ∉ params) :
    Inv ⟨e.bindParams params args, params, [(j, params.map some)], vars, count, closures⟩ := by
  have hzip := zip_params hargs
  have hlen : (params.zip args).length = params.length := by rw [List.length_zip]; omega
  obtain ⟨hn, hdict, -, hnew⟩ := bindVars_slots (params.zip args) e (by omega)
  rw [he, Nat.zero_add] at hn
  have hget {m : ℕ} {t : Option (ℕ × CStr)} (ht : (tags [(j, params.map some)])[m]? = some t) :
      ∃ b, (params.zip args)[m]? = some b ∧ t = some (j, b.1) := by
    rw [tags_params, List.getElem?_map, Option.map_eq_some_iff] at ht
    obtain ⟨key, hkey, rfl⟩ := ht
    have hm := (List.getElem?_eq_some_iff.mp hkey).1
    have hlt : m < args.length := by omega
    refine ⟨(key, args[m]), ?_, rfl⟩
    rw [List.getElem?_zip_eq_some]
    exact ⟨hkey, List.getElem?_eq_getElem hlt⟩
  have hslot {m : ℕ} {b : CStr × V} (hb : (params.zip args)[m]? = some b) :
      (e.bindParams params args).inlineKeys m = some b.1 ∧
        (e.bindParams params args).inlineVals m = some b.2 := by
    have hm := hnew m b hb
    rwa [he, Nat.zero_add] at hm
  have hkeys : ∀ (m : ℕ) t, (tags [(j, params.map some)])[m]? = some t →
      (e.bindParams params args).inlineKeys m = t.map Prod.snd := by
    intro m t ht
    obtain ⟨b, hb, rfl⟩ := hget ht
    exact (hslot hb).1
  exact {
    slots := by
      rw [tags_params, List.length_map, ← hlen]
      exact hn
    keys := hkeys
    vals := by
      intro m i key ht
      obtain ⟨b, hb, heq⟩ := hget ht
      obtain ⟨rfl, rfl⟩ := Prod.mk.inj (Option.some.inj heq)
      dsimp only
      rw [(hslot hb).2, hvars, ofBindings_eq (by rw [hzip]; exact hnodup) hb]
    bound := by
      intro b hb key
      rw [List.mem_singleton.mp hb]
      dsimp only
      rw [hvars, ofBindings_isSome, hzip]
      simp
    unique := by
      rw [tags_params]
      exact unique_names hnodup
    old := by
      intro b hb
      rw [List.mem_singleton.mp hb]
      exact hj
    ids := List.nodup_singleton _
    base := ⟨j, rfl⟩
    room := hroom
    nodup := hnodup
    dict := hdict.trans hd
    chains := hchains
    sees := by
      intro c hc key hkey
      obtain ⟨hnone, hparam⟩ := hunused c hc key hkey
      refine .inl ⟨hnone, fun m hlive => hparam ?_⟩
      have hm : m < (params.zip args).length := by
        have hlt := hlive.1
        dsimp only at hlt
        exact hn ▸ hlt
      have hb : (params.zip args)[m]? = some (params.zip args)[m] := List.getElem?_eq_getElem hm
      have hk := hlive.2
      dsimp only at hk
      rw [(hslot hb).1] at hk
      rw [← hzip, ← Option.some.inj hk]
      exact List.mem_map_of_mem (List.getElem_mem hm) }

theorem init (stale : Stale V) {params : List CStr} {args : List V}
    (hargs : args.length = params.length) (hroom : params.length ≤ envInlineSlots)
    (hnodup : params.Nodup) : Inv (State.init stale params args) :=
  of_call rfl rfl hargs hroom hnodup Nat.zero_lt_one rfl (fun _ hc => by cases hc)
    fun _ hc => by cases hc

/-- A tail call to another function. -/
theorem tailCall (h : Inv s) {params : List CStr} {args : List V}
    (hargs : args.length = params.length) (hroom : params.length ≤ envInlineSlots)
    (hnodup : params.Nodup) (hunused : Unused s (slotNames s.blocks))
    (hparams : Unused s (params.map some)) :
    Inv { s with
      frame := s.frame.release.bindParams params args
      params := params
      blocks := [(s.count, params.map some)]
      vars := Function.update s.vars s.count (ofBindings (params.zip args))
      count := s.count + 1 } := by
  refine of_call rfl rfl hargs hroom hnodup (Nat.lt_succ_self _) (Function.update_self _ _ _)
    (fun c hc i hi => Nat.lt_succ_of_lt (h.chains c hc i hi)) fun c hc key hkey => ⟨?_, ?_⟩
  · rw [resolve_congr fun i hi => by rw [Function.update_of_ne (Nat.ne_of_lt (h.chains c hc i hi))]]
    obtain ⟨hnone, -⟩ | ⟨j, m, -, -, htag⟩ := h.sees c hc key hkey
    · exact hnone
    · exact absurd (tags_names (List.mem_of_getElem? htag)) (hunused c hc key hkey)
  · exact fun hmem => hparams c hc key hkey (List.mem_map_of_mem hmem)

/-- A closure is made: it finds the slots where the program is. -/
theorem capture (h : Inv s) {free : List CStr} {compiled : Bool}
    (hfree : compiled = true → ∀ key ∈ free, Unshadowed s.frame key) :
    Inv { s with closures := ⟨s.chain, free, compiled⟩ :: s.closures } := by
  refine { h with chains := fun c hc => ?_, sees := fun c hc key hkey => ?_ }
  · rcases List.mem_cons.mp hc with rfl | hc
    · intro j hj
      obtain ⟨b, hb, rfl⟩ := List.mem_map.mp hj
      exact h.old b hb
    · exact h.chains c hc
  · rcases List.mem_cons.mp hc with rfl | hc
    · obtain ⟨hnone, hscan⟩ | ⟨j, m, hj, hm, htag⟩ := h.current key
      · exact .inl ⟨hnone, not_live hscan⟩
      · refine .inr ⟨j, m, hj, ?_, htag⟩
        rw [Closure.scan]
        cases compiled with
        | false => exact hm
        | true =>
          show scanUp s.frame key = some m
          rw [scanUp_of_unshadowed (hfree rfl key hkey), hm]
    · exact h.sees c hc key hkey

end Inv

/-! ## Runs -/

/-- **Every step that meets the condition keeps the invariant.** -/
theorem Inv.step {s s' : State V} {l : Step V} (h : Inv s) (hok : ok s l)
    (hstep : Capture.step s l = some s') : Inv s' := by
  cases l with
  | block bs =>
    rw [Capture.step] at hstep
    split at hstep
    · obtain rfl := Option.some.inj hstep
      exact h.block hok.1 hok.2
    · cases hstep
  | more name v =>
    rw [Capture.step] at hstep
    split at hstep
    · rename_i j names outer rest hblocks
      split at hstep
      · obtain rfl := Option.some.inj hstep
        exact h.more hblocks (hok.1 _ (by rw [hblocks]; rfl)) hok.2
      · cases hstep
    · cases hstep
  | hidden v =>
    rw [Capture.step] at hstep
    split at hstep
    · rename_i j names outer rest hblocks
      split at hstep
      · obtain rfl := Option.some.inj hstep
        exact h.hidden hblocks
      · cases hstep
    · cases hstep
  | endBlock =>
    rw [Capture.step] at hstep
    split at hstep
    · rename_i j names outer rest hblocks
      obtain rfl := Option.some.inj hstep
      exact h.endBlock hblocks (hok _ (by rw [hblocks]; rfl))
    · cases hstep
  | assign key v =>
    obtain rfl := Option.some.inj hstep
    exact h.assign (h.current key)
  | evalAssign key v =>
    obtain rfl := Option.some.inj hstep
    refine h.assign ?_
    rw [scanUp_of_unshadowed hok]
    exact h.current key
  | closureAssign i key v =>
    rw [Capture.step] at hstep
    obtain ⟨c, hc, hif⟩ := Option.bind_eq_some_iff.mp hstep
    split at hif
    · rename_i hkey
      obtain rfl := Option.some.inj hif
      refine h.assign ?_
      obtain ⟨hnone, hno⟩ | ⟨j, m, hj, hm, htag⟩ := h.sees c (List.mem_of_getElem? hc) key hkey
      · exact .inl ⟨hnone, scanUp_of_not_live hno⟩
      · refine .inr ⟨j, m, hj, ?_, htag⟩
        rw [Closure.scan] at hm
        split at hm
        · exact hm
        · rwa [scanUp_of_unshadowed hok]
    · cases hif
  | capture free compiled =>
    obtain rfl := Option.some.inj hstep
    exact h.capture hok
  | tailSelf args =>
    rw [Capture.step] at hstep
    obtain ⟨base, hbase, hif⟩ := Option.bind_eq_some_iff.mp hstep
    split at hif
    · rename_i hargs
      obtain rfl := Option.some.inj hif
      exact h.tailSelf hbase hargs hok
    · cases hif
  | tailCall params args =>
    rw [Capture.step] at hstep
    split at hstep
    · rename_i hargs
      obtain rfl := Option.some.inj hstep
      exact h.tailCall hargs.1 hargs.2 hok.1 hok.2.1 hok.2.2
    · cases hstep

section Lost

def noStale : Stale ℕ := ⟨fun _ => none, fun _ => none⟩

def nameY : CStr := .ofBytes [0x79]

/-- `(def f (y) (g (reverse (list (fn () y)))))`: the call of `g` rebinds the slot of `y`. -/
theorem closure_after_tailCall : ∃ s c,
    run Capture.step (State.init noStale [nameY] [1]) [.capture [nameY] true, .tailCall [nameY] [2]] =
      some s ∧ c ∈ s.closures ∧ nameY ∈ c.free ∧ s.seen c nameY = some 2 ∧ s.defined c nameY = some 1 :=
  ⟨_, _, rfl, List.mem_cons_self, List.mem_cons_self, rfl, rfl⟩

end Lost

end Alcove.Binding.Capture
