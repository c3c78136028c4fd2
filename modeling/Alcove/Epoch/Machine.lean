import Mathlib.Algebra.Group.Nat.Defs
import Mathlib.Data.Finset.Card
import Alcove.Lib.Transition

/-!
# Epoch-based reclamation: the machine

The atomic steps of `epoch.c`, with the readers and writers around it: threads that load entry
pointers from slots, use them until their next tick, and retire the pointers that their
compare-and-swap removed from a slot. A pointer is the number of the object it points at; an
object is published once, with a number that has not been used.

`epochGlobal` is a 64-bit counter and wraps. A retire list is the list of its nodes, head first.
-/

namespace Alcove.Epoch

/-- `EPOCH_MAX_THREADS` -/
def epochMaxThreads : ℕ := 64

/-- `EPOCH_GC_THRESHOLD` -/
def epochGcThreshold : ℕ := 1024

/-- `UINT64_MAX` -/
def uint64Max : ℕ := 2 ^ 64 - 1

/-- A node of a retire list. -/
structure RetireNode where
  ptr : ℕ
  retireEpoch : ℕ
  deriving DecidableEq

/-- A slot of the array `epoch_threads`. -/
structure EpochThread where
  quiescent : ℕ
  retireHead : List RetireNode
  retireCount : ℕ
  deriving DecidableEq

/-- Where a thread is; each point is just before the atomic operation it names. -/
inductive Pc
  /-- in no call of this module -/
  | idle
  /-- `epoch_register`: the increment of `epoch_nthreads` -/
  | registerAdd
  /-- `epoch_register`: the rollback of the increment -/
  | registerSub
  /-- `epoch_update_quiescent` in `epoch_register`: the load of `epoch_global` -/
  | registerLoad
  /-- the store of `quiescent`, and of the empty retire list -/
  | registerStore (g : ℕ)
  /-- `epoch_update_quiescent` in `epoch_tick` -/
  | tickLoad
  | tickStore (g : ℕ)
  /-- `epoch_min_quiescent`: the load of `epoch_nthreads` -/
  | gcLoad
  /-- the load of `epoch_threads[i].quiescent`, with the minimum `mn` so far -/
  | gcScan (n i mn : ℕ)
  /-- `epoch_gc`: the node at position `k` of the retire list is next -/
  | gcWalk (safe k : ℕ)
  /-- `epoch_retire` of a pointer that a compare-and-swap removed from a slot -/
  | retire (p : ℕ)
  deriving DecidableEq

/-- A thread: `epoch_my_idx`, the pointers it may still use, and where it is. -/
structure Reactor where
  myIdx : Option ℕ
  held : List ℕ
  pc : Pc
  deriving DecidableEq

structure State where
  epochGlobal : ℕ
  epochNthreads : ℕ
  epochThreads : ℕ → EpochThread
  reactors : ℕ → Reactor
  /-- the entry pointers of the slots -/
  slots : ℕ → Option ℕ
  /-- objects from this number on have not been published -/
  fresh : ℕ
  /-- how often the freer of an object has run -/
  freed : ℕ → ℕ

/-- What a thread may do next. -/
inductive Label
  /-- call `epoch_register`, `epoch_tick` or `epoch_gc` -/
  | register (t : ℕ)
  | tick (t : ℕ)
  | gc (t : ℕ)
  /-- the next atomic step of the call; `ok` when the allocation of a node succeeds -/
  | step (t : ℕ) (ok : Bool)
  /-- load the pointer in slot `x` -/
  | load (t x : ℕ)
  /-- use the pointer `p` -/
  | use (t p : ℕ)
  /-- swap the pointer in slot `x` for a new object, or for `NULL` -/
  | swap (t x : ℕ) (new : Bool)
  deriving DecidableEq

namespace State

/-- Before any thread has registered. -/
def init : State where
  epochGlobal := 1
  epochNthreads := 0
  epochThreads := fun _ => ⟨0, [], 0⟩
  reactors := fun _ => ⟨none, [], .idle⟩
  slots := fun _ => none
  fresh := 0
  freed := fun _ => 0

/-- The thread `t` is now `r`. -/
def setReactor (s : State) (t : ℕ) (r : Reactor) : State :=
  { s with reactors := Function.update s.reactors t r }

/-- The array slot `i` is now `e`. -/
def setThread (s : State) (i : ℕ) (e : EpochThread) : State :=
  { s with epochThreads := Function.update s.epochThreads i e }

/-- `epoch_min_quiescent`: the minimum after reading `q`; 0 is skipped. -/
def minQuiescent (q mn : ℕ) : ℕ := if q = 0 then mn else if q < mn then q else mn

/-- The next atomic step of the thread `t`, registered with the index `i`. -/
def stepAt (s : State) (t i : ℕ) (r : Reactor) (ok : Bool) : State :=
  let e := s.epochThreads i
  match r.pc with
  | .registerLoad => s.setReactor t { r with pc := .registerStore s.epochGlobal }
  | .registerStore g => (s.setThread i ⟨g, [], 0⟩).setReactor t { r with pc := .idle }
  | .tickLoad => s.setReactor t { r with pc := .tickStore s.epochGlobal }
  | .tickStore g =>
    (s.setThread i { e with quiescent := g }).setReactor t
      { r with pc := if epochGcThreshold ≤ e.retireCount then .gcLoad else .idle }
  | .gcLoad =>
    let n := min s.epochNthreads epochMaxThreads
    s.setReactor t { r with pc := if n = 0 then .idle else .gcScan n 0 uint64Max }
  | .gcScan n j mn =>
    let mn' := minQuiescent (s.epochThreads j).quiescent mn
    let pc := if j + 1 < n then .gcScan n (j + 1) mn'
      else if mn' = uint64Max then .idle else .gcWalk mn' 0
    s.setReactor t { r with pc := pc }
  | .gcWalk safe k =>
    match e.retireHead[k]? with
    | none => s.setReactor t { r with pc := .idle }
    | some cur =>
      if cur.retireEpoch < safe then
        { s.setThread i
            { e with retireHead := e.retireHead.eraseIdx k, retireCount := e.retireCount - 1 } with
          freed := Function.update s.freed cur.ptr (s.freed cur.ptr + 1) }
      else s.setReactor t { r with pc := .gcWalk safe (k + 1) }
  | .retire p =>
    let s' := { s with epochGlobal := (s.epochGlobal + 1) % 2 ^ 64 }.setReactor t
      { r with pc := .idle }
    if ok then
      s'.setThread i { e with
        retireHead := ⟨p, s.epochGlobal⟩ :: e.retireHead, retireCount := e.retireCount + 1 }
    else s'
  | _ => s

/-- The transition of the system. -/
def next (s : State) : Label → Option State
  | .register t =>
    let r := s.reactors t
    match r.pc, r.myIdx with
    | .idle, none => some (s.setReactor t { r with pc := .registerAdd })
    | .idle, some _ => some s
    | _, _ => none
  | .tick t =>
    let r := s.reactors t
    match r.pc, r.myIdx with
    | .idle, some _ => some (s.setReactor t { r with held := [], pc := .tickLoad })
    | .idle, none => some s
    | _, _ => none
  | .gc t =>
    let r := s.reactors t
    match r.pc, r.myIdx with
    | .idle, some _ => some (s.setReactor t { r with pc := .gcLoad })
    | .idle, none => some s
    | _, _ => none
  | .step t ok =>
    let r := s.reactors t
    match r.pc, r.myIdx with
    | .idle, _ => none
    | .registerAdd, _ =>
      let idx := s.epochNthreads
      let s' := { s with epochNthreads := idx + 1 }
      if epochMaxThreads ≤ idx then some (s'.setReactor t { r with pc := .registerSub })
      else some (s'.setReactor t { r with myIdx := some idx, pc := .registerLoad })
    | .registerSub, _ =>
      some ({ s with epochNthreads := s.epochNthreads - 1 }.setReactor t { r with pc := .idle })
    | _, some i => some (s.stepAt t i r ok)
    | _, none => none
  | .load t x =>
    let r := s.reactors t
    match r.pc, r.myIdx with
    | .idle, some _ => some (s.setReactor t { r with held := (s.slots x).toList ++ r.held })
    | _, _ => none
  | .use t p => if p ∈ (s.reactors t).held then some s else none
  | .swap t x new =>
    let r := s.reactors t
    match r.pc, r.myIdx with
    | .idle, some _ =>
      some ({ s with
        slots := Function.update s.slots x (if new then some s.fresh else none)
        fresh := if new then s.fresh + 1 else s.fresh }.setReactor t
          { r with
            held := if new then s.fresh :: r.held else r.held
            pc := (s.slots x).elim .idle .retire })
    | _, _ => none

end State

/-- The step is the increment of `epoch_global` in `epoch_retire`. -/
def retires (s : State) : Label → Bool
  | .step t _ => match (s.reactors t).pc with
    | .retire _ => true
    | _ => false
  | _ => false

end Alcove.Epoch
