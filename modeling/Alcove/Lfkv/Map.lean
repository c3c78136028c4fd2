import Mathlib.Data.Set.Card
import Alcove.Lfkv.Machine

/-!
# What the keyspace is for

A finite map from keys to a value and an expiry (`KeyMap`), and what each call does to it and
returns (`KeyMap.Answers`). An expiry of 0 is none; a pair whose expiry has been reached counts as
absent, and is dropped by the call that meets it. This is the abstract side of the refinement in
`Alcove.Lfkv.Solo`.
-/

namespace Alcove.Lfkv

variable {V : Type*}

/-- A pair with the expiry `x` counts as absent at time `now`. -/
def expired (x now : ℤ) : Bool := x != 0 && decide (x ≤ now)

/-- A finite map from keys to a value and an expiry. -/
@[ext]
structure KeyMap (V : Type*) where
  find : Bytes → Option (V × ℤ)
  finite : {k | find k ≠ none}.Finite

namespace KeyMap

/-- The map of the empty table. -/
def empty : KeyMap V := ⟨fun _ => none, by simp⟩

/-- The map with the pair of `k` replaced by `p`; `none` removes it. -/
def update (m : KeyMap V) (k : Bytes) (p : Option (V × ℤ)) : KeyMap V where
  find := Function.update m.find k p
  finite := by
    refine (m.finite.insert k).subset fun j hj => ?_
    by_cases hjk : j = k
    · exact .inl hjk
    · exact .inr (by simpa [Function.update_of_ne hjk] using hj)

/-- The map without the pairs that meet `p`. -/
def remove (m : KeyMap V) (p : V × ℤ → Bool) : KeyMap V where
  find k := (m.find k).filter fun q => !p q
  finite := by
    refine m.finite.subset fun k hk hnone => hk ?_
    rw [hnone]
    rfl

/-- The number of pairs that meet `p`. -/
noncomputable def countPairs (m : KeyMap V) (p : V × ℤ → Bool) : ℕ :=
  {k | ∃ q, m.find k = some q ∧ p q = true}.ncard

end KeyMap

variable [DecidableEq V]

/-- What a call on one key makes of the pair of the key, and what it returns. -/
def onPair (now : ℤ) (c : Call V) (p : Option (V × ℤ)) : Option (V × ℤ) × Ret V :=
  match c, p with
  | .set _ val, _ => (some (val, 0), .int 0)
  | .setNx _ val, none => (some (val, 0), .int 1)
  | c, none => (none, c.absent)
  | .touchIfValue _ expected expiryUs, some (v, x) =>
    if some v ≠ expected then (p, .int 0)
    else if expired x now then (none, .int 0)
    else (some (v, expiryUs), .int 1)
  | .cas _ expected newVal, some (v, x) =>
    if some v ≠ expected then (p, .int 0)
    else if expired x now then (none, .int 0)
    else (newVal.map (·, x), .int 1)
  | .setNx _ val, some (_, x) => if expired x now then (some (val, 0), .int 1) else (p, .int 0)
  | c, some (v, x) =>
    if expired x now then (none, c.absent)
    else
      match c with
      | .get _ => (p, .val (some v))
      | .del _ => (none, .int 1)
      | .setExpiry _ tsUs => (some (v, tsUs), .int 1)
      | .getExpiry _ => (p, .int x)
      | .setXx _ val => (some (val, 0), .int 1)
      | c => (p, c.absent)

/-- **What a call returns, and the map after it.** -/
def KeyMap.Answers (m : KeyMap V) (now : ℤ) (c : Call V) (r : Ret V) (m' : KeyMap V) : Prop :=
  match c with
  | .count => r = .int (m.countPairs fun _ => true) ∧ m' = m
  | .foreach => m' = m ∧ ∃ l, r = .items l ∧ (l.map Prod.fst).Nodup ∧
      ∀ k v x, (k, v, x) ∈ l ↔ m.find k = some (v, x) ∧ expired x now = false
  | .evictExpired =>
    r = .int (m.countPairs fun q => expired q.2 now) ∧ m' = m.remove fun q => expired q.2 now
  | .clear => r = .int 0 ∧ m' = KeyMap.empty
  | c => r = (onPair now c (m.find c.key)).2 ∧
      m' = m.update c.key (onPair now c (m.find c.key)).1

end Alcove.Lfkv
