import Alcove.Lib.Transition
import Alcove.Objects.Hooks

/-!
# Assignment to the parts of a cell

`(= (car x) val)` and `(= (cdr x) val)` in `updatebang`. Both evaluate `x` and store into the field
`content` or `next` of what comes out, after a test for `NULL` and for an error and no other. So
`nil_singleton`, which is an object like others here, may be written to, and so may an object that is no
pair.

**Main result:** `place_assignments`. An assignment meets the law of places exactly when `x` is `NULL`, an
error or a pair that is not empty, and the nil of a run is the empty list exactly as long as no assignment
was to it.
-/

namespace Alcove.Binding.Places

open Lib
open Objects (Ptr ErrorClass orNil)

/-! ## Memory -/

/-- The union of `exp_t` that `content` is a member of: a value, or bits of another meaning (a text, a
number, a pointer to storage). -/
inductive Word
  | val (p : Ptr)
  | raw (bits : UInt64)
  deriving DecidableEq

/-- An object, as far as the place forms read and write it; `other` is of any type but the two. -/
inductive Cell
  | pair (content next : Ptr)
  | error (code : ErrorClass)
  | other (content : Word) (next : Ptr)
  deriving DecidableEq

/-- The singletons and the objects. -/
structure Memory where
  nil : Cell
  t : Cell
  objs : List Cell
  deriving DecidableEq

/-- `car` or `cdr` in the place. -/
inductive Accessor
  | car
  | cdr
  deriving DecidableEq

/-- `is_ptr` of a word that is no value: it has no tag and is not `NULL`. -/
def isPtrWord (bits : UInt64) : Bool := bits % 8 = 0 ∧ bits ≠ 0

namespace Memory

variable (m : Memory)

/-- The object behind a pointer; there is none behind `NULL` and behind a tagged immediate. -/
def look : Ptr → Option Cell
  | .nil => some m.nil
  | .t => some m.t
  | .ref i => m.objs[i]?
  | _ => none

/-- The memory after an object was changed. -/
def write : Ptr → Cell → Memory
  | .nil, c => { m with nil := c }
  | .t, c => { m with t := c }
  | .ref i, c => { m with objs := m.objs.set i c }
  | _, _ => m

/-- A new object. -/
def alloc (c : Cell) : Ptr × Memory := (.ref m.objs.length, { m with objs := m.objs ++ [c] })

/-- `iserror` -/
def isError (p : Ptr) : Bool :=
  match m.look p with
  | some (.error _) => true
  | _ => false

/-- A pair for which `istrue` holds. -/
def nonEmptyPair (p : Ptr) : Bool :=
  match m.look p with
  | some (.pair content next) => content ≠ .null ∨ next ≠ .null
  | _ => false

end Memory

/-! ## Stores -/

/-- `unrefexp(key->content); key->content = refexp(val);`, or the same with `next`. An error never gets
here; a word that is no value but looks like a pointer is not one to an object. -/
def Cell.put : Accessor → Cell → Ptr → Option Cell
  | .car, .pair _ next, v => some (.pair v next)
  | .cdr, .pair content _, v => some (.pair content v)
  | .car, .other (.raw bits) next, v => if isPtrWord bits then none else some (.other (.val v) next)
  | .car, .other (.val _) next, v => some (.other (.val v) next)
  | .cdr, .other content _, v => some (.other content v)
  | _, .error _, _ => none

/-- `updatebang` for `(car x)` and `(cdr x)`, where `eval` is `EVAL` of the operand; `none` where it
has no defined result. -/
def updatebang {ε : Type} (eval : ε → Memory → Ptr × Memory) (acc : Accessor) (operand : ε) (val : Ptr)
    (m : Memory) : Option (Ptr × Memory) :=
  let val := orNil val
  let (key, m) := eval operand m
  if key = .null then some (m.alloc (.error .missingParameter))
  else if m.isError key then some (key, m)
  else (m.look key).bind fun c => (c.put acc val).map fun c' => (val, m.write key c')

/-! ## The law of places -/

/-- The objects are what they were; there may be new ones. -/
def Unchanged (m m' : Memory) : Prop := m'.nil = m.nil ∧ m'.t = m.t ∧ m.objs <+: m'.objs

/-- The field of a pair is `v` now, and its other field and all other objects are what they were. -/
def Stored (acc : Accessor) (x v : Ptr) (m m' : Memory) : Prop :=
  ∃ content next, m.look x = some (.pair content next) ∧
    m'.look x = some (match acc with
      | .car => .pair v next
      | .cdr => .pair content v) ∧
    ∀ p, p ≠ x → m'.look p = m.look p

variable {ε : Type} (eval : ε → Memory → Ptr × Memory)

/-- **The law of places**, for a place whose operand evaluates to `x` and leaves the memory `m`: a pair
that is not empty gets the value in its field, anything else is an error and changes nothing. -/
def Lawful (acc : Accessor) (operand : ε) (val : Ptr) (m : Memory) : Prop :=
  let (x, m₁) := eval operand m
  if m₁.nonEmptyPair x then
    ∃ m', updatebang eval acc operand val m = some (orNil val, m') ∧ Stored acc x (orNil val) m₁ m'
  else
    ∃ e m', updatebang eval acc operand val m = some (e, m') ∧ m'.isError e = true ∧ Unchanged m₁ m'

/-- What the operand may evaluate to. -/
def Assignable (m : Memory) (x : Ptr) : Prop :=
  x = .null ∨ m.isError x = true ∨ m.nonEmptyPair x = true

variable {m m' : Memory} {x v : Ptr} {acc : Accessor}

theorem look_write_self {c c' : Cell} (h : m.look x = some c) : (m.write x c').look x = some c' := by
  cases x with
  | nil | t => rfl
  | ref i =>
    have hi : i < m.objs.length := (List.getElem?_eq_some_iff.1 h).1
    exact List.getElem?_set_self hi
  | _ => cases h

theorem look_write_of_ne {p : Ptr} {c : Cell} (h : p ≠ x) : (m.write x c).look p = m.look p := by
  cases x with
  | ref i =>
    cases p with
    | ref j => exact List.getElem?_set_ne fun hij => h (congrArg Ptr.ref hij.symm)
    | _ => rfl
  | nil | t => cases p <;> first | rfl | exact absurd rfl h
  | _ => rfl

/-- A new object is behind a pointer of its own. -/
theorem look_alloc (m : Memory) (c : Cell) : (m.alloc c).2.look (m.alloc c).1 = some c :=
  List.getElem?_concat_length

theorem isError_alloc (m : Memory) (code : ErrorClass) :
    (m.alloc (.error code)).2.isError (m.alloc (.error code)).1 = true := by
  rw [Memory.isError, look_alloc]

theorem unchanged_alloc (m : Memory) (c : Cell) : Unchanged m (m.alloc c).2 :=
  ⟨rfl, rfl, List.prefix_append _ _⟩

theorem unchanged_refl (m : Memory) : Unchanged m m := ⟨rfl, rfl, List.prefix_refl _⟩

variable {eval}

theorem updatebang_null {operand : ε} {val : Ptr} (hx : eval operand m = (.null, m')) :
    updatebang eval acc operand val m = some (m'.alloc (.error .missingParameter)) := by
  rw [updatebang, hx]
  rfl

theorem updatebang_error {operand : ε} {val : Ptr} (hx : eval operand m = (x, m'))
    (herr : m'.isError x = true) : updatebang eval acc operand val m = some (x, m') := by
  have hne : x ≠ .null := by
    rintro rfl
    cases herr
  rw [updatebang, hx]
  simp only [if_neg hne, if_pos herr]

/-- Past the two tests, the field of the object is written, whatever it is. -/
theorem updatebang_store {operand : ε} {val : Ptr} (hx : eval operand m = (x, m')) (hne : x ≠ .null)
    (herr : ¬ m'.isError x = true) :
    updatebang eval acc operand val m = (m'.look x).bind fun c =>
      (c.put acc (orNil val)).map fun c' => (orNil val, m'.write x c') := by
  rw [updatebang, hx]
  simp only [if_neg hne, if_neg herr]

theorem pair_of_nonEmptyPair (h : m.nonEmptyPair x = true) :
    ∃ content next, m.look x = some (.pair content next) := by
  rw [Memory.nonEmptyPair] at h
  split at h
  · exact ⟨_, _, by assumption⟩
  · cases h

theorem not_isError_of_pair {content next : Ptr} (h : m.look x = some (.pair content next)) :
    ¬ m.isError x = true := by
  rw [Memory.isError, h]
  nofun

/-- An object that was written to looks as it did only where the same was there. -/
theorem write_of_unchanged {c : Cell} (h : Unchanged m (m.write x c)) : m.write x c = m := by
  obtain ⟨hnil, ht, hobjs⟩ := h
  have hlen : m.objs.length = (m.write x c).objs.length := by
    cases x <;> simp [Memory.write]
  have hsame : (m.write x c).objs = m.objs := (hobjs.eq_of_length hlen).symm
  rcases m with ⟨nil, t, objs⟩
  generalize Memory.write ⟨nil, t, objs⟩ x c = m' at *
  rcases m' with ⟨nil', t', objs'⟩
  cases hnil
  cases ht
  cases hsame
  rfl

theorem lawful_iff {operand : ε} {val : Ptr} (hx : eval operand m = (x, m'))
    (hval : m'.isError (orNil val) = false) : Lawful eval acc operand val m ↔ Assignable m' x := by
  rw [Lawful, hx]
  constructor
  · intro h
    by_contra hnot
    simp only [Assignable, not_or] at hnot
    obtain ⟨hnull, herr, hpair⟩ := hnot
    simp only [if_neg hpair] at h
    obtain ⟨e, m'', hrun, he, hsame⟩ := h
    rw [updatebang_store hx hnull herr] at hrun
    simp only [Option.bind_eq_some_iff, Option.map_eq_some_iff] at hrun
    obtain ⟨c, -, c', -, heq⟩ := hrun
    obtain ⟨rfl, rfl⟩ := Prod.mk.inj heq
    rw [write_of_unchanged hsame, hval] at he
    cases he
  · rintro (rfl | herr | hpair)
    · exact ⟨_, _, updatebang_null hx, isError_alloc _ _, unchanged_alloc _ _⟩
    · have hpair : ¬ m'.nonEmptyPair x = true := fun h => by
        obtain ⟨content, next, hlook⟩ := pair_of_nonEmptyPair h
        exact not_isError_of_pair hlook herr
      simp only [if_neg hpair]
      exact ⟨x, m', updatebang_error hx herr, herr, unchanged_refl m'⟩
    · obtain ⟨content, next, hlook⟩ := pair_of_nonEmptyPair hpair
      have hne : x ≠ .null := by
        rintro rfl
        cases hlook
      simp only [if_pos hpair]
      rw [updatebang_store hx hne (not_isError_of_pair hlook), hlook]
      cases acc with
      | car => exact ⟨_, rfl, content, next, hlook, look_write_self hlook, fun p hp => look_write_of_ne hp⟩
      | cdr => exact ⟨_, rfl, content, next, hlook, look_write_self hlook, fun p hp => look_write_of_ne hp⟩

/-! ## Runs -/

/-- What a program does to memory here: it makes an object, or assigns to a place whose operand it has
evaluated. -/
inductive Step
  | alloc (c : Cell)
  | assign (acc : Accessor) (x val : Ptr)

namespace Memory

/-- The transition of a program. -/
def next (m : Memory) : Step → Option Memory
  | .alloc c => some (m.alloc c).2
  | .assign acc x val => (updatebang (fun p m => (p, m)) acc x val m).map Prod.snd

/-- `nil_singleton` is the empty list. -/
def NilEmpty (m : Memory) : Prop := m.nil = .pair .null .null

/-- `nil_singleton` is a pair that is not empty. -/
def NilFull (m : Memory) : Prop := ∃ content next, m.nil = .pair content next ∧ (content ≠ .null ∨ next ≠ .null)

end Memory

theorem orNil_ne_null (val : Ptr) : orNil val ≠ .null := by
  cases val <;> nofun

/-- An assignment to anything but nil leaves it alone. -/
theorem next_nil_of_ne {l : Step} (h : m.next l = some m') (hl : ∀ acc val, l ≠ .assign acc .nil val) :
    m'.nil = m.nil := by
  cases l with
  | alloc c =>
    obtain rfl := Option.some.inj h
    rfl
  | assign acc x val =>
    obtain ⟨⟨v, m''⟩, hrun, rfl⟩ := Option.map_eq_some_iff.1 h
    by_cases hnull : x = .null
    · subst hnull
      rw [updatebang_null rfl] at hrun
      obtain ⟨-, rfl⟩ := Prod.mk.inj (Option.some.inj hrun)
      rfl
    by_cases herr : m.isError x = true
    · rw [updatebang_error rfl herr] at hrun
      obtain ⟨-, rfl⟩ := Prod.mk.inj (Option.some.inj hrun)
      rfl
    rw [updatebang_store rfl hnull herr] at hrun
    simp only [Option.bind_eq_some_iff, Option.map_eq_some_iff] at hrun
    obtain ⟨c, -, c', -, heq⟩ := hrun
    obtain ⟨-, rfl⟩ := Prod.mk.inj heq
    cases x with
    | nil => exact absurd rfl (hl acc val)
    | _ => rfl

/-- An assignment to nil, while it is a pair, fills it. -/
theorem next_assign_nil {val content next : Ptr} (hnil : m.nil = .pair content next)
    (h : m.next (.assign acc .nil val) = some m') : m'.NilFull := by
  obtain ⟨⟨v, m''⟩, hrun, rfl⟩ := Option.map_eq_some_iff.1 h
  have hlook : m.look .nil = some (.pair content next) := congrArg some hnil
  rw [updatebang_store rfl (by nofun) (not_isError_of_pair hlook), hlook] at hrun
  cases acc with
  | car =>
    obtain ⟨-, rfl⟩ := Prod.mk.inj (Option.some.inj hrun)
    exact ⟨_, _, rfl, .inl (orNil_ne_null val)⟩
  | cdr =>
    obtain ⟨-, rfl⟩ := Prod.mk.inj (Option.some.inj hrun)
    exact ⟨_, _, rfl, .inr (orNil_ne_null val)⟩

/-- Nothing empties nil again. -/
theorem Memory.NilFull.next {l : Step} (hfull : m.NilFull) (h : m.next l = some m') : m'.NilFull := by
  obtain ⟨content, next, hnil, hne⟩ := hfull
  by_cases hl : ∃ acc val, l = .assign acc .nil val
  · obtain ⟨acc, val, rfl⟩ := hl
    exact next_assign_nil hnil h
  · have hsame := next_nil_of_ne h fun acc val heq => hl ⟨acc, val, heq⟩
    exact ⟨content, next, hsame.trans hnil, hne⟩

theorem Memory.NilFull.not_nilEmpty (h : m.NilFull) : ¬ m.NilEmpty := by
  obtain ⟨content, next, hnil, hne⟩ := h
  intro hempty
  obtain ⟨rfl, rfl⟩ := Cell.pair.inj (hnil.symm.trans hempty)
  exact hne.elim (fun h => h rfl) fun h => h rfl

theorem Memory.NilFull.run {ls : List Step} (hfull : m.NilFull) (h : run Memory.next m ls = some m') :
    m'.NilFull := by
  induction ls generalizing m with
  | nil =>
    obtain rfl := Option.some.inj h
    exact hfull
  | cons l ls ih =>
    obtain ⟨m₁, hl, hrest⟩ := Option.bind_eq_some_iff.1 h
    exact ih (hfull.next hl) hrest

/-- Nil is the empty list at the end of a run exactly when no assignment of the run was to nil. -/
theorem nilEmpty_run_iff {ls : List Step} (hempty : m.NilEmpty) (h : run Memory.next m ls = some m') :
    m'.NilEmpty ↔ ∀ acc val, Step.assign acc .nil val ∉ ls := by
  induction ls generalizing m with
  | nil =>
    obtain rfl := Option.some.inj h
    exact iff_of_true hempty fun _ _ => List.not_mem_nil
  | cons l ls ih =>
    obtain ⟨m₁, hl, hrest⟩ := Option.bind_eq_some_iff.1 h
    by_cases hassign : ∃ acc val, l = .assign acc .nil val
    · obtain ⟨acc, val, rfl⟩ := hassign
      have hfull := (next_assign_nil hempty hl).run hrest
      exact iff_of_false hfull.not_nilEmpty fun hnot => hnot acc val List.mem_cons_self
    · have hne : ∀ acc val, l ≠ .assign acc .nil val := fun acc val heq => hassign ⟨acc, val, heq⟩
      have hempty₁ : m₁.NilEmpty := (next_nil_of_ne hl hne).trans hempty
      rw [ih hempty₁ hrest]
      simp only [List.mem_cons, not_or]
      exact ⟨fun hls acc val => ⟨(hne acc val).symm, hls acc val⟩, fun hls acc val => (hls acc val).2⟩

/-- **Place assignments.** For every operand and value, the law of places holds exactly when the operand
evaluates to `NULL`, an error or a pair that is not empty; and nil stays the empty list in a run exactly
when no assignment of it is to nil. -/
theorem place_assignments {ε : Type} (eval : ε → Memory → Ptr × Memory) (acc : Accessor)
    (operand : ε) (val : Ptr) (m : Memory) (hval : (eval operand m).2.isError (orNil val) = false) :
    (Lawful eval acc operand val m ↔ Assignable (eval operand m).2 (eval operand m).1) ∧
    ∀ (m m' : Memory) (ls : List Step), m.NilEmpty → run Memory.next m ls = some m' →
      (m'.NilEmpty ↔ ∀ acc val, Step.assign acc .nil val ∉ ls) :=
  ⟨lawful_iff rfl hval, fun _ _ _ hempty h => nilEmpty_run_iff hempty h⟩

/-- The memory at the start, with the symbol `t` and no other object. -/
def Memory.start : Memory := ⟨.pair .null .null, .other (.raw 0x74) .null, []⟩

/-- `(= (car x) t)` where `x` is a cell that holds a character. -/
theorem place_assignments_cell :
    Lawful (fun p m => (p, m)) .car (.ref 0) .t (Memory.start.alloc (.pair (.char 97) .null)).2 ∧
      ∃ m', run Memory.next Memory.start [.alloc (.pair (.char 97) .null), .assign .car (.ref 0) .t] =
        some m' ∧ m'.NilEmpty := by
  have h := place_assignments (fun p m => (p, m)) .car (.ref 0) .t
    (Memory.start.alloc (.pair (.char 97) .null)).2 rfl
  refine ⟨h.1.2 (.inr (.inr rfl)), _, rfl, ?_⟩
  refine (h.2 Memory.start _
    [.alloc (.pair (.char 97) .null), .assign .car (.ref 0) .t] rfl rfl).2 fun acc val => ?_
  simp

/-- `(= (car nil) t)` returns `t`, and nil is the list that holds `t`. -/
theorem nil_assigned :
    ¬ Lawful (fun p m => (p, m)) .car .nil .t Memory.start ∧
      ∃ m', run Memory.next Memory.start [.assign .car .nil .t] = some m' ∧
        m'.nil = .pair .t .null := by
  refine ⟨fun h => ?_, _, rfl, rfl⟩
  obtain ⟨e, m', hrun, he, -⟩ : ∃ e m', updatebang (fun p m => (p, m)) .car .nil .t Memory.start =
      some (e, m') ∧ m'.isError e = true ∧ Unchanged Memory.start m' := h
  obtain ⟨rfl, rfl⟩ := Prod.mk.inj (Option.some.inj hrun)
  cases he

end Alcove.Binding.Places
