import Alcove.Persist.Dump
import Mathlib.Logic.Relation

/-!
# The check before a dump

`is_fully_dumpable` of `dict.h` and what it is worth. A dump succeeds when every value inside has a
record of its own (`dump_isSome_iff`), and the check does not look at all of them (`Overlooked`).

**Main result:** `dump_of_isFullyDumpable`.
-/

namespace Alcove.Persist

/-! ## The check -/

/-- `ALCOVE_DUMPABLE_MAX_DEPTH` -/
def alcoveDumpableMaxDepth : ℕ := 512

/-- The contents that `while (p && ispair(p) && istrue(p))` meets, and where `p` ends. -/
def spine : Exp → List Exp × Exp
  | .pair content next =>
    if content.isNull && next.isNull then ([], .pair content next)
    else (content :: (spine next).1, (spine next).2)
  | p => ([], p)

/-- `p && !ispair(p)` -/
def isTail : Exp → Bool
  | .null | .nil | .pair _ _ => false
  | _ => true

variable (reg : Registry)

/-- `is_fully_dumpable` at depth `alcoveDumpableMaxDepth + 1 - room`. -/
def isFullyDumpable : ℕ → Exp → Bool
  | 0, _ => false
  | room + 1, e => match e with
    | .null | .nil | .fix _ | .char _ | .type _ => true
    | .lambda multi _ _ _ => !multi
    | .vector cells => cells.all (isFullyDumpable room)
    | .set d | .dict d => d.entries.all fun kv => isFullyDumpable room kv.2
    | .deque vals => vals.all (isFullyDumpable room)
    | .pair content next =>
      let p := spine (.pair content next)
      p.1.all (isFullyDumpable room) && (!isTail p.2 || isFullyDumpable room p.2)
    | e => isDumpable reg e

/-! ## What a dump writes -/

/-- The values whose records are in the record of a value. -/
inductive Part : Exp → Exp → Prop
  | content {content next : Exp} (h : content.isNull = false) : Part (.pair content next) content
  | next {content next : Exp} (h : next.isNull = false) : Part (.pair content next) next
  | cell {cells : List Exp} {x : Exp} (h : x ∈ cells) : Part (.vector cells) x
  | dict {d : Dict Exp} {kv : CStr × Exp} (h : kv ∈ d.entries) : Part (.dict d) kv.2
  | set {d : Dict Exp} {kv : CStr × Exp} (h : kv ∈ d.entries) : Part (.set d) kv.2
  | deque {vals : List Exp} {x : Exp} (h : x ∈ vals) : Part (.deque vals) x
  | key {entries : List (Exp × Exp)} {kv : Exp × Exp} (h : kv ∈ entries) : Part (.hamt entries) kv.1
  | val {entries : List (Exp × Exp)} {kv : Exp × Exp} (h : kv ∈ entries) : Part (.hamt entries) kv.2
  | params {multi : Bool} {name : CStr} {params body : Exp} (h : params.isNull = false) :
      Part (.lambda multi name params body) params
  | body {multi : Bool} {name : CStr} {params body : Exp} (h : body.isNull = false) :
      Part (.lambda multi name params body) body
  | macroParams {name : CStr} {params body : Exp} (h : params.isNull = false) :
      Part (.expander name params body) params
  | macroBody {name : CStr} {params body : Exp} (h : body.isNull = false) :
      Part (.expander name params body) body

/-- A value, its parts, their parts and so on. -/
def Inside : Exp → Exp → Prop := Relation.ReflTransGen Part

/-- A value has a record, apart from those of its parts. -/
def Writable (reg : Registry) : Exp → Prop
  | .null => False
  | .type id => id.toNat < typeUserMin ∨ (reg.userTypeName id.toNat).isSome
  | .foreign (.custom id ptr) => ∃ dump, reg.customDump id = some dump ∧ (dump ptr).isSome
  | .foreign _ => False
  | _ => True

theorem Part.sizeOf_lt {e x : Exp} (h : Part e x) : sizeOf x < sizeOf e := by
  cases h with
  | content | next =>
    simp only [Exp.pair.sizeOf_spec]
    omega
  | cell h | deque h =>
    have := List.sizeOf_lt_of_mem h
    simp only [Exp.vector.sizeOf_spec, Exp.deque.sizeOf_spec]
    omega
  | dict h => simpa using sizeOf_entry_lt h
  | set h => simpa using sizeOf_entry_lt h
  | key h => simpa using sizeOf_key_lt h
  | val h => simpa using sizeOf_val_lt h
  | params | body =>
    simp only [Exp.lambda.sizeOf_spec]
    omega
  | macroParams | macroBody =>
    simp only [Exp.expander.sizeOf_spec]
    omega

/-- The rule for claims about a value and all that is inside. -/
theorem part_induction {P : Exp → Prop} (h : ∀ e, (∀ x, Part e x → P x) → P e) (e : Exp) : P e := by
  induction hn : sizeOf e using Nat.strong_induction_on generalizing e with
  | _ n ih =>
    apply h
    intro x hx
    exact ih (sizeOf x) (hn ▸ hx.sizeOf_lt) x rfl

/-! ## When a dump succeeds -/

theorem concat_isSome {records : List (Option (List UInt8))} :
    (concat records).isSome ↔ ∀ x ∈ records, x.isSome := by
  induction records with
  | nil => simp [concat]
  | cons record records ih =>
    cases record with
    | none => simp [concat]
    | some x =>
      rw [List.forall_mem_cons, ← ih]
      cases h : concat records <;> simp [concat, h]

variable {reg}

theorem isDumpable_of_dump {e : Exp} (h : (dump reg e).isSome) :
    e.isNull = false ∧ isDumpable reg e = true := by
  cases e with
  | null => simp [dump] at h
  | foreign type =>
    cases type with
    | custom id ptr =>
      rw [dump] at h
      refine ⟨rfl, ?_⟩
      cases hd : reg.customDump id with
      | none => simp [hd] at h
      | some dump => simp [isDumpable, hd]
    | _ => simp [dump] at h
  | _ => exact ⟨rfl, rfl⟩

theorem dumpElem_isSome {v : Exp} :
    (dumpElem reg v (dump reg v)).isSome ↔ (dump reg v).isSome := by
  unfold dumpElem
  split
  · next h =>
    constructor
    · intro hnone
      cases hnone
    · intro hsome
      obtain ⟨h1, h2⟩ := isDumpable_of_dump hsome
      simp [h1, h2] at h
  · rfl

theorem bind_isSome {α β : Type} {x : Option α} {f : α → β} :
    (x.bind fun a => some (f a)).isSome ↔ x.isSome := by
  cases x <;> rfl

theorem bind₂_isSome {α β γ : Type} {x : Option α} {y : Option β} {f : α → β → γ} :
    (x.bind fun a => y.bind fun b => some (f a b)).isSome ↔ x.isSome ∧ y.isSome := by
  cases x <;> cases y <;> simp

/-- The records of two parts that may be missing. -/
theorem parts_isSome {x y : Exp} {f : List UInt8 → List UInt8 → List UInt8} :
    ((dumpPart x (dump reg x)).bind fun a =>
      (dumpPart y (dump reg y)).bind fun b => some (f a b)).isSome ↔
        (x.isNull = false → (dump reg x).isSome) ∧ (y.isNull = false → (dump reg y).isSome) := by
  rw [bind₂_isSome, dumpPart, dumpPart]
  cases x.isNull <;> cases y.isNull <;> simp

/-- **A dump succeeds when the value has a record and so do its parts.** -/
theorem dump_isSome {e : Exp} :
    (dump reg e).isSome ↔ Writable reg e ∧ ∀ x, Part e x → (dump reg x).isSome := by
  have hleaf (hw : Writable reg e) (hdump : (dump reg e).isSome) (hpart : ∀ x, ¬ Part e x) :
      (dump reg e).isSome ↔ Writable reg e ∧ ∀ x, Part e x → (dump reg x).isSome :=
    ⟨fun _ => ⟨hw, fun x hx => absurd hx (hpart x)⟩, fun _ => hdump⟩
  cases e with
  | null => simp [dump, Writable]
  | nil => exact hleaf trivial (by simp [dump]) fun x h => by cases h
  | t => exact hleaf trivial (by simp [dump]) fun x h => by cases h
  | fix n => exact hleaf trivial (by simp [dump]) fun x h => by cases h
  | char c => exact hleaf trivial (by simp [dump]) fun x h => by cases h
  | float bits => exact hleaf trivial (by simp [dump]) fun x h => by cases h
  | string text => exact hleaf trivial (by simp [dump]) fun x h => by cases h
  | symbol text => exact hleaf trivial (by simp [dump]) fun x h => by cases h
  | blob bytes => exact hleaf trivial (by simp [dump]) fun x h => by cases h
  | rational num den => exact hleaf trivial (by simp [dump]) fun x h => by cases h
  | decimal coef scale => exact hleaf trivial (by simp [dump]) fun x h => by cases h
  | vectorI64 cells => exact hleaf trivial (by simp [dump]) fun x h => by cases h
  | vectorF64 cells => exact hleaf trivial (by simp [dump]) fun x h => by cases h
  | type id =>
    have hparts : ∀ x, Part (.type id) x → (dump reg x).isSome := fun x h => by cases h
    rw [dump, dumpTypeObj, Writable]
    split
    · next h => exact ⟨fun _ => ⟨.inl h, hparts⟩, fun _ => rfl⟩
    · next h => exact ⟨fun hs => ⟨.inr (bind_isSome.mp hs), hparts⟩,
        fun hs => bind_isSome.mpr (hs.1.resolve_left h)⟩
  | foreign type =>
    have hparts : ∀ x, Part (.foreign type) x → (dump reg x).isSome := fun x h => by cases h
    cases type with
    | custom id ptr =>
      rw [dump, Writable]
      cases hd : reg.customDump id with
      | none => simp
      | some dump => simpa using fun _ => hparts
    | _ => simp [dump, Writable]
  | pair content next =>
    rw [dump]
    refine parts_isSome.trans ⟨fun h => ⟨trivial, ?_⟩, fun h => ?_⟩
    · intro x hx
      cases hx with
      | content hc => exact h.1 hc
      | next hn => exact h.2 hn
    · exact ⟨fun hc => h.2 _ (.content hc), fun hn => h.2 _ (.next hn)⟩
  | vector cells =>
    rw [dump]
    refine bind_isSome.trans (concat_isSome.trans ?_)
    simp only [List.forall_mem_map, dumpElem_isSome]
    refine ⟨fun h => ⟨trivial, ?_⟩, fun h x hx => h.2 x (.cell hx)⟩
    intro x hx
    cases hx with
    | cell hx => exact h x hx
  | dict d =>
    rw [dump]
    refine bind_isSome.trans (concat_isSome.trans ?_)
    refine ⟨fun h => ⟨trivial, ?_⟩, fun h => ?_⟩
    · intro x hx
      cases hx with
      | @dict _ kv hkv =>
        exact dumpElem_isSome.mp (bind_isSome.mp (h _ (List.mem_map.mpr ⟨⟨kv, hkv⟩, by simp, rfl⟩)))
    · intro record hrecord
      obtain ⟨⟨kv, hkv⟩, -, rfl⟩ := List.mem_map.mp hrecord
      exact bind_isSome.mpr (dumpElem_isSome.mpr (h.2 _ (.dict hkv)))
  | set d =>
    rw [dump]
    refine bind_isSome.trans (concat_isSome.trans ?_)
    refine ⟨fun h => ⟨trivial, ?_⟩, fun h => ?_⟩
    · intro x hx
      cases hx with
      | @set _ kv hkv =>
        exact dumpElem_isSome.mp (h _ (List.mem_map.mpr ⟨⟨kv, hkv⟩, by simp, rfl⟩))
    · intro record hrecord
      obtain ⟨⟨kv, hkv⟩, -, rfl⟩ := List.mem_map.mp hrecord
      exact dumpElem_isSome.mpr (h.2 _ (.set hkv))
  | deque vals =>
    rw [dump]
    refine bind_isSome.trans (concat_isSome.trans ?_)
    simp only [List.forall_mem_map, dumpElem_isSome]
    refine ⟨fun h => ⟨trivial, ?_⟩, fun h x hx => h.2 x (.deque hx)⟩
    intro x hx
    cases hx with
    | deque hx => exact h x hx
  | hamt entries =>
    rw [dump]
    refine bind_isSome.trans (concat_isSome.trans ?_)
    have hentry (kv : Exp × Exp) : ((dumpElem reg kv.1 (dump reg kv.1)).bind fun x =>
        (dumpElem reg kv.2 (dump reg kv.2)).bind fun y => some (x ++ y)).isSome ↔
          (dump reg kv.1).isSome ∧ (dump reg kv.2).isSome :=
      bind₂_isSome.trans (and_congr dumpElem_isSome dumpElem_isSome)
    refine ⟨fun h => ⟨trivial, ?_⟩, fun h => ?_⟩
    · intro x hx
      cases hx with
      | key hkv => exact ((hentry _).mp (h _ (List.mem_map.mpr ⟨_, hkv, rfl⟩))).1
      | val hkv => exact ((hentry _).mp (h _ (List.mem_map.mpr ⟨_, hkv, rfl⟩))).2
    · intro record hrecord
      obtain ⟨kv, hkv, rfl⟩ := List.mem_map.mp hrecord
      exact (hentry kv).mpr ⟨h.2 _ (.key hkv), h.2 _ (.val hkv)⟩
  | lambda multi name params body =>
    rw [dump]
    refine parts_isSome.trans ⟨fun h => ⟨trivial, ?_⟩, fun h => ?_⟩
    · intro x hx
      cases hx with
      | params hp => exact h.1 hp
      | body hb => exact h.2 hb
    · exact ⟨fun hp => h.2 _ (.params hp), fun hb => h.2 _ (.body hb)⟩
  | expander name params body =>
    rw [dump]
    refine parts_isSome.trans ⟨fun h => ⟨trivial, ?_⟩, fun h => ?_⟩
    · intro x hx
      cases hx with
      | macroParams hp => exact h.1 hp
      | macroBody hb => exact h.2 hb
    · exact ⟨fun hp => h.2 _ (.macroParams hp), fun hb => h.2 _ (.macroBody hb)⟩

/-- A dump succeeds exactly when every value inside has a record. -/
theorem dump_isSome_iff {e : Exp} : (dump reg e).isSome ↔ ∀ x, Inside e x → Writable reg x := by
  induction e using part_induction with
  | h e ih =>
    rw [dump_isSome]
    constructor
    · rintro ⟨hw, hparts⟩ x hx
      rcases hx.cases_head with rfl | ⟨y, hy, hyx⟩
      · exact hw
      · exact (ih y hy).mp (hparts y hy) x hyx
    · intro h
      refine ⟨h e .refl, fun x hx => (ih x hx).mpr fun y hy => h y (.head hx hy)⟩

/-! ## What the check passes over -/

/-- Containers that the check does not look into. -/
def Sealed : Exp → Prop
  | .hamt _ | .lambda _ _ _ _ | .expander _ _ _ => True
  | _ => False

/-- Values that the check lets pass as they are: the NULL pointer, a type object, and an object of a
module's type. -/
def Waved : Exp → Prop
  | .null | .type _ | .foreign (.custom _ _) => True
  | _ => False

/-- The values that the check does not look at: those inside a sealed container, and those it lets pass. -/
inductive Overlooked : Exp → Exp → Prop
  | waved {e : Exp} (h : Waved e) : Overlooked e e
  | inSealed {e x y : Exp} (h : Sealed e) (hx : Part e x) (hy : Inside x y) : Overlooked e y
  | part {e x y : Exp} (h : ¬ Sealed e) (hx : Part e x) (hy : Overlooked x y) : Overlooked e y

theorem Overlooked.inside {e x : Exp} (h : Overlooked e x) : Inside e x := by
  induction h with
  | waved => exact .refl
  | inSealed _ hx hy => exact .head hx hy
  | part _ hx _ ih => exact .head hx ih

/-- What the rest of a list is, once the walk is past a cell: a list that passes, a nil, or a tail. -/
theorem isFullyDumpable_next {room : ℕ} {content next : Exp}
    (h : isFullyDumpable reg (room + 1) (.pair content next) = true) (hnext : next.isNull = false) :
    ∃ room', isFullyDumpable reg room' next = true := by
  rw [isFullyDumpable, spine] at h
  simp only [hnext, Bool.and_false, Bool.false_eq_true, if_false, List.all_cons, Bool.and_eq_true]
    at h
  obtain ⟨⟨-, hall⟩, htail⟩ := h
  cases next with
  | null => cases hnext
  | nil => exact ⟨1, rfl⟩
  | pair content' next' =>
    refine ⟨room + 1, ?_⟩
    rw [isFullyDumpable]
    exact (Bool.and_eq_true _ _).mpr ⟨hall, htail⟩
  | _ => exact ⟨room, htail⟩

theorem isFullyDumpable_content {room : ℕ} {content next : Exp}
    (h : isFullyDumpable reg (room + 1) (.pair content next) = true)
    (hcontent : content.isNull = false) : isFullyDumpable reg room content = true := by
  rw [isFullyDumpable, spine] at h
  simp only [hcontent, Bool.false_and, Bool.false_eq_true, if_false, List.all_cons,
    Bool.and_eq_true] at h
  exact h.1.1

/-- **The check goes down into every container that is not sealed.** -/
theorem isFullyDumpable_part {room : ℕ} {e x : Exp} (h : isFullyDumpable reg room e = true)
    (he : ¬ Sealed e) (hx : Part e x) : ∃ room', isFullyDumpable reg room' x = true := by
  cases room with
  | zero => cases h
  | succ room =>
    cases hx with
    | content hc => exact ⟨room, isFullyDumpable_content h hc⟩
    | next hn => exact isFullyDumpable_next h hn
    | cell hx => exact ⟨room, List.all_eq_true.mp h x hx⟩
    | dict hkv => exact ⟨room, List.all_eq_true.mp h _ hkv⟩
    | set hkv => exact ⟨room, List.all_eq_true.mp h _ hkv⟩
    | deque hx => exact ⟨room, List.all_eq_true.mp h x hx⟩
    | key | val | params | body | macroParams | macroBody => exact absurd trivial he

/-- What passes the check has a record, unless it is waved through. -/
theorem writable_of_isFullyDumpable {room : ℕ} {e : Exp} (h : isFullyDumpable reg room e = true)
    (he : ¬ Waved e) : Writable reg e := by
  cases room with
  | zero => cases h
  | succ room =>
    cases e with
    | null | type => exact absurd trivial he
    | foreign type =>
      cases type with
      | custom => exact absurd trivial he
      | _ => cases h
    | _ => trivial

/-- **A value that passes the check is dumped exactly when what the check overlooks can be**: the inside
of persistent maps, lambdas and macros, NULL pointers, and type objects. -/
theorem dump_of_isFullyDumpable {e : Exp}
    (h : isFullyDumpable reg (alcoveDumpableMaxDepth + 1) e = true) :
    (dump reg e).isSome ↔ ∀ x, Overlooked e x → Writable reg x := by
  constructor
  · intro hdump x hx
    exact dump_isSome_iff.mp hdump x hx.inside
  · intro hwritable
    generalize alcoveDumpableMaxDepth + 1 = room at h
    induction e using part_induction generalizing room with
    | h e ih =>
      have hself : Writable reg e := by
        by_cases he : Waved e
        · exact hwritable e (.waved he)
        · exact writable_of_isFullyDumpable h he
      refine dump_isSome.mpr ⟨hself, fun x hx => ?_⟩
      by_cases he : Sealed e
      · exact dump_isSome_iff.mpr fun y hy => hwritable y (.inSealed he hx hy)
      · obtain ⟨room', hroom'⟩ := isFullyDumpable_part h he hx
        exact ih x hx (fun y hy => hwritable y (.part he hx hy)) room' hroom'

/-- No class is defined and no module is loaded. -/
def bareRegistry : Registry := ⟨fun _ => none, fun _ => none⟩

/-- The persistent map `{1 t}`. -/
theorem dump_of_isFullyDumpable_map :
    isFullyDumpable bareRegistry (alcoveDumpableMaxDepth + 1) (.hamt [(.fix (makeFix 1), .t)]) = true ∧
      ((dump bareRegistry (.hamt [(.fix (makeFix 1), .t)])).isSome ↔
        ∀ x, Overlooked (.hamt [(.fix (makeFix 1), .t)]) x → Writable bareRegistry x) :=
  ⟨rfl, dump_of_isFullyDumpable rfl⟩

/-- **The check lets a port pass in a persistent map**, and the dump fails at it. -/
theorem exists_aborted_dump : ∃ e,
    isFullyDumpable bareRegistry (alcoveDumpableMaxDepth + 1) e = true ∧
      dump bareRegistry e = none := by
  refine ⟨.hamt [(.fix (makeFix 1), .foreign .port)], rfl, ?_⟩
  simp [dump, concat, dumpElem, isDumpable, Exp.isNull]

end Alcove.Persist
