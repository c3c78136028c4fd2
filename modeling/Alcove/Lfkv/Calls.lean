import Alcove.Lfkv.Solo

/-!
# Programs that call the keyspace

A command of the server makes calls of the keyspace, each depending on what the earlier ones returned
(`Prog`). `Runs clock Q p kv` says that a thread alone comes to the end of the program, in `Q`, as long
as every call starts on a table with a free slot, at a time of `clock`. In `Serves room clock Q p kv` only
the calls that may take a free slot ask something of the table, to be in `room`.

**Main results:** `Serves.getNone`, `Serves.getSome`, `Serves.cas` and `Serves.setNx`, the rules for calls
on a key that does not expire at these times, on a table that stands for a map.
-/

namespace Alcove.Lfkv

open Lib

/-- A program of calls that comes to a value. -/
inductive Prog (V R : Type) : Type
  | ret (r : R)
  | call (c : Call V) (k : Ret V → Prog V R)

variable {V R S : Type}

/-- One program behind another. -/
def Prog.bind : Prog V R → (R → Prog V S) → Prog V S
  | .ret r, f => f r
  | .call c k, f => .call c fun r => (k r).bind f

/-- `NULL`, or the value reference that was returned. -/
def Ret.value : Ret V → Option V
  | .val v => v
  | _ => none

section Runs

variable [DecidableEq V]

/-- Every call comes to its end, when it starts on a table with a free slot, and the program ends
in `Q`. -/
def Runs (clock : Set ℤ) (Q : Lfkv V → R → Prop) : Prog V R → Lfkv V → Prop
  | .ret r, kv => Q kv r
  | .call c k, kv => HasFree kv → ∀ now ∈ clock,
      Ends c now (fun kv' r => Runs clock Q (k r) kv') kv (c.start kv true)

/-- Every call comes to its end, when it starts on a table in `room` if it may take a slot, and the
program ends in `Q`. -/
def Serves (room : Lfkv V → Prop) (clock : Set ℤ) (Q : Lfkv V → R → Prop) : Prog V R → Lfkv V → Prop
  | .ret r, kv => Q kv r
  | .call c k, kv => (c.TakesSlot → room kv) → ∀ now ∈ clock,
      Ends c now (fun kv' r => Serves room clock Q (k r) kv') kv (c.start kv true)

variable {room : Lfkv V → Prop} {clock : Set ℤ} {Q Q' : Lfkv V → R → Prop} {T : Lfkv V → S → Prop}
  {kv : Lfkv V} {m : KeyMap V}

theorem ends_imp {c : Call V} {now : ℤ} {P P' : Lfkv V → Ret V → Prop} {pc : Pc V}
    (h : Ends c now P kv pc) (hP : ∀ kv' r, P kv' r → P' kv' r) : Ends c now P' kv pc :=
  Inevitable.mono h fun _ ⟨r, hr, hp⟩ => ⟨r, hr, hP _ r hp⟩

/-- What a run of the call returns is in `P`. -/
theorem returned_of_ends {c : Call V} {now : ℤ} {P : Lfkv V → Ret V → Prop} {pc : Pc V}
    (h : Ends c now P kv pc) (addrs : List ℕ) {kv' : Lfkv V} {r : Ret V}
    (hrun : addrs.foldl (soloStep c now) (kv, pc) = (kv', .ret r)) : P kv' r := by
  have hrest : ∀ x : Lfkv V × Pc V, (∃ r, x.2 = .ret r ∧ P x.1 r) →
      ∀ addr, soloStep c now x addr = x := by
    rintro ⟨kv₁, pc₁⟩ ⟨r₁, rfl, -⟩ addr
    rfl
  have hend : ∀ addr, soloStep c now (addrs.foldl (soloStep c now) (kv, pc)) addr =
      addrs.foldl (soloStep c now) (kv, pc) := fun addr => by
    rw [hrun]
    rfl
  obtain ⟨r', hr', hP⟩ := Inevitable.of_foldl h hrest hend
  rw [hrun] at hr' hP
  cases hr'
  exact hP

theorem Serves.runs : ∀ {p : Prog V R} {kv : Lfkv V}, Serves HasFree clock Q p kv → Runs clock Q p kv
  | .ret _, _, h => h
  | .call _ _, _, h => fun hfree now hnow =>
    ends_imp (h (fun _ => hfree) now hnow) fun _ _ hk => Serves.runs hk

theorem Serves.mono (hQ : ∀ kv r, Q kv r → Q' kv r) : ∀ {p : Prog V R} {kv : Lfkv V},
    Serves room clock Q p kv → Serves room clock Q' p kv
  | .ret r, kv, h => hQ kv r h
  | .call _ _, _, h => fun hroom now hnow =>
    ends_imp (h hroom now hnow) fun _ _ hk => Serves.mono hQ hk

theorem Serves.bind {f : R → Prog V S} : ∀ {p : Prog V R} {kv : Lfkv V},
    Serves room clock (fun kv r => Serves room clock T (f r) kv) p kv →
      Serves room clock T (p.bind f) kv
  | .ret _, _, h => h
  | .call _ _, _, h => fun hroom now hnow =>
    ends_imp (h hroom now hnow) fun _ _ hk => Serves.bind hk

/-- A call on one key changes the pair of its key. -/
theorem Serves.keyed {c : Call V} {k : Ret V → Prog V R} (h : Tracks kv m) (hshort : c.Short)
    (hkeyed : c.Keyed) (hroom : c.TakesSlot → room kv → HasFree kv)
    (hk : ∀ now ∈ clock, ∀ kv', Tracks kv' (m.update c.key (onPair now c (m.find c.key)).1) →
      Serves room clock Q (k (onPair now c (m.find c.key)).2) kv') :
    Serves room clock Q (.call c k) kv := by
  intro hstart now hnow
  refine ends_imp (ends_keyed h (fun htakes => hroom htakes (hstart htakes)) hshort hkeyed) ?_
  rintro kv' r ⟨htracks, rfl⟩
  exact hk now hnow kv' htracks

variable {key : Bytes} {k : Ret V → Prog V R} {x : ℤ}

omit [DecidableEq V] in
theorem KeyMap.find_update (m : KeyMap V) (key : Bytes) (p : Option (V × ℤ)) :
    (m.update key p).find key = p := by
  simp [KeyMap.update]

/-- The expiry is at none of the times. -/
def Lasting (clock : Set ℤ) (x : ℤ) : Prop := ∀ now ∈ clock, expired x now = false

theorem lasting_zero : Lasting clock 0 := fun _ _ => rfl

/-- A lookup leaves the map as it was. -/
theorem Serves.lookup {stored : Option V} (h : Tracks kv m) (hshort : key.length < 2 ^ 32)
    (hpair : ∀ now ∈ clock, onPair now (.get key) (m.find key) = (m.find key, .val stored))
    (hk : ∀ kv', Tracks kv' m → Serves room clock Q (k (.val stored)) kv') :
    Serves room clock Q (.call (.get key) k) kv := by
  refine Serves.keyed h hshort trivial False.elim fun now hnow kv' htracks => ?_
  rw [show (Call.get key : Call V).key = key from rfl, hpair now hnow, KeyMap.update_self] at htracks
  rw [show (Call.get key : Call V).key = key from rfl, hpair now hnow]
  exact hk kv' htracks

theorem Serves.getNone (h : Tracks kv m) (hshort : key.length < 2 ^ 32) (hfind : m.find key = none)
    (hk : ∀ kv', Tracks kv' m → Serves room clock Q (k (.val none)) kv') :
    Serves room clock Q (.call (.get key) k) kv :=
  Serves.lookup h hshort (fun _ _ => by rw [hfind]; rfl) hk

theorem Serves.getSome {v : V} (h : Tracks kv m) (hshort : key.length < 2 ^ 32)
    (hfind : m.find key = some (v, x)) (hlasts : Lasting clock x)
    (hk : ∀ kv', Tracks kv' m → Serves room clock Q (k (.val (some v))) kv') :
    Serves room clock Q (.call (.get key) k) kv :=
  Serves.lookup h hshort (fun now hnow => by rw [hfind]; simp [onPair, hlasts now hnow]) hk

/-- A swap of the value that was looked up succeeds. -/
theorem Serves.cas {v : V} {newVal : Option V} (h : Tracks kv m) (hshort : key.length < 2 ^ 32)
    (hfind : m.find key = some (v, x)) (hlasts : Lasting clock x)
    (hk : ∀ kv', Tracks kv' (m.update key (newVal.map (·, x))) → Serves room clock Q (k (.int 1)) kv') :
    Serves room clock Q (.call (.cas key (some v) newVal) k) kv := by
  refine Serves.keyed h hshort trivial False.elim fun now hnow kv' htracks => ?_
  have hpair : onPair now (.cas key (some v) newVal) (m.find key) =
      (newVal.map (·, x), .int 1) := by
    rw [hfind]
    simp [onPair, hlasts now hnow]
  rw [show (Call.cas key (some v) newVal).key = key from rfl, hpair] at htracks ⊢
  exact hk kv' htracks

/-- A key that is not there is inserted. -/
theorem Serves.setNx {v : V} (h : Tracks kv m) (hshort : key.length < 2 ^ 32)
    (hfind : m.find key = none)
    (hk : ∀ kv', Tracks kv' (m.update key (some (v, 0))) → Serves HasFree clock Q (k (.int 1)) kv') :
    Serves HasFree clock Q (.call (.setNx key v) k) kv := by
  refine Serves.keyed h hshort trivial (fun _ => id) fun now _ kv' htracks => ?_
  have hpair : onPair now (.setNx key v) (m.find key) = (some (v, 0), .int 1) := by
    rw [hfind]
    rfl
  rw [show (Call.setNx key v).key = key from rfl, hpair] at htracks ⊢
  exact hk kv' htracks

end Runs

end Alcove.Lfkv
