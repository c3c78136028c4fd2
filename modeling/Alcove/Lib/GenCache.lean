import Mathlib.Data.Nat.Init
import Mathlib.Tactic.Cases
import Mathlib.Order.Basic
import Mathlib.Logic.Function.Basic

/-!
# Caches with a generation counter

A cache in front of a partial function that changes: each slot keeps a value for the key of the slot
and the generation in which it was filled, and counts (`GenCache.hit`) in that generation only. A
change of the function either starts a new generation (`GenCache.bump`), after which no slot counts
(`hit_bump`), or must leave the keys of the slots that count alone (`Sound.congr`).
-/

namespace Alcove.Lib

variable {ι κ V : Type*}

/-- The slots, and the current generation; no slot was filled in a later one. -/
structure GenCache (ι V : Type*) where
  slots : ι → Option (V × ℕ)
  gen : ℕ
  bounded : ∀ (i : ι) (v : V) (g : ℕ), slots i = some (v, g) → g ≤ gen

namespace GenCache

/-- No slot is filled. -/
def empty (gen : ℕ) : GenCache ι V := ⟨fun _ => none, gen, fun _ _ _ h => by cases h⟩

/-- The value of a slot that was filled in the current generation. -/
def hit (c : GenCache ι V) (i : ι) : Option V :=
  (c.slots i).bind fun p => if p.2 = c.gen then some p.1 else none

/-- The next generation. -/
def bump (c : GenCache ι V) : GenCache ι V :=
  ⟨c.slots, c.gen + 1, fun i v g h => Nat.le_succ_of_le (c.bounded i v g h)⟩

/-- A slot is filled. -/
def fill [DecidableEq ι] (c : GenCache ι V) (i : ι) (v : V) : GenCache ι V where
  slots := Function.update c.slots i (some (v, c.gen))
  gen := c.gen
  bounded := by
    intro j w g h
    rw [Function.update_apply] at h
    split at h
    · cases h
      exact Nat.le_refl _
    · exact c.bounded j w g h

/-- The slots that count hold what the function has for their keys. -/
def Sound (c : GenCache ι V) (key : ι → κ) (f : κ → Option V) : Prop :=
  ∀ i v, c.hit i = some v → f (key i) = some v

/-- No slot counts. -/
def Idle (c : GenCache ι V) : Prop := ∀ i, c.hit i = none

variable {c : GenCache ι V} {key : ι → κ} {f g : κ → Option V}

theorem idle_empty (gen : ℕ) : (empty gen : GenCache ι V).Idle := fun _ => rfl

theorem idle_bump (c : GenCache ι V) : c.bump.Idle := by
  intro i
  change (c.slots i).bind (fun p => if p.2 = c.gen + 1 then some p.1 else none) = none
  cases hs : c.slots i with
  | none => rfl
  | some p =>
    have hle := c.bounded i p.1 p.2 hs
    rw [Option.bind_some, if_neg (by omega)]

theorem Idle.sound (h : c.Idle) : c.Sound key f := by
  intro i v hv
  rw [h i] at hv
  cases hv

theorem Sound.congr (h : c.Sound key f)
    (hfg : ∀ i v, c.hit i = some v → f (key i) = some v → g (key i) = some v) : c.Sound key g :=
  fun i v hv => hfg i v hv (h i v hv)

theorem hit_fill [DecidableEq ι] (i j : ι) (v : V) :
    (c.fill i v).hit j = if j = i then some v else c.hit j := by
  change (Function.update c.slots i (some (v, c.gen)) j).bind
    (fun p => if p.2 = c.gen then some p.1 else none) = _
  by_cases hj : j = i
  · rw [hj, Function.update_self, if_pos rfl, Option.bind_some, if_pos rfl]
  · rw [Function.update_of_ne hj, if_neg hj, hit]

theorem Sound.fill [DecidableEq ι] {i : ι} {v : V} (h : c.Sound key f) (hv : f (key i) = some v) :
    (c.fill i v).Sound key f := by
  intro j w hw
  rw [hit_fill] at hw
  split at hw
  · rename_i hj
    cases hw
    rw [hj, hv]
  · exact h j w hw

end GenCache

end Alcove.Lib
