import Mathlib.Logic.Function.Basic
import Alcove.Lib.Transition

/-!
# The queue: the machine

The atomic steps of `mpsc_enqueue` and `mpsc_dequeue` (`mpsc.h`), with any number of producers and
one consumer. A producer enqueues only nodes that are its own (`busy`): a node is in the hands of
the queue from the call of `mpsc_enqueue` until `mpsc_dequeue` returns it, and may then be enqueued
again. `calls`, `exchanges` and `returned` record the run: the calls of each producer, the
exchanges of `head` by producers, and what the calls of `mpsc_dequeue` have returned, in order.
-/

namespace Alcove.Mpsc

/-- `&q->stub`, or the address of a node. -/
inductive Ptr
  | stub
  | node (n : ℕ)
  deriving DecidableEq

/-- Where a producer is, just before the atomic operation. -/
inductive Producer
  | idle
  /-- the store of `NULL` into `n->next` -/
  | clear (n : ℕ)
  /-- the exchange of `head` -/
  | exchange (n : ℕ)
  /-- the store of `n` into `prev->next` -/
  | link (prev : Ptr) (n : ℕ)
  deriving DecidableEq

/-- Where the consumer is; `tail` is `q->tail` in all of them. -/
inductive Consumer
  | idle
  /-- the first load of `tail->next` -/
  | loadNext
  /-- the load of `tail->next` after the stub was skipped -/
  | skipNext
  | loadHead
  /-- the store of `NULL` into `stub.next` -/
  | stubClear
  | stubExchange
  | stubLink (prev : Ptr)
  /-- the last load of `tail->next` -/
  | lastNext
  deriving DecidableEq

structure State where
  next : Ptr → Option Ptr
  head : Ptr
  tail : Ptr
  producers : ℕ → Producer
  consumer : Consumer
  busy : ℕ → Bool
  calls : ℕ → List ℕ
  exchanges : List (ℕ × ℕ)
  returned : List (Option Ptr)

inductive Label
  /-- call `mpsc_enqueue` -/
  | enqueue (t n : ℕ)
  /-- the next atomic step of the call -/
  | produce (t : ℕ)
  /-- call `mpsc_dequeue` -/
  | dequeue
  | consume
  deriving DecidableEq

namespace State

/-- `mpsc_init` -/
def init : State where
  next := fun _ => none
  head := .stub
  tail := .stub
  producers := fun _ => .idle
  consumer := .idle
  busy := fun _ => false
  calls := fun _ => []
  exchanges := []
  returned := []

/-- `mpsc_dequeue` returns `NULL`. -/
def returnNull (s : State) : State :=
  { s with consumer := .idle, returned := s.returned ++ [none] }

/-- `mpsc_dequeue` moves `tail` to `next` and returns the old one. -/
def returnTail (s : State) (next : Ptr) : State :=
  { s with
    tail := next
    consumer := .idle
    busy := match s.tail with
      | .node n => Function.update s.busy n false
      | .stub => s.busy
    returned := s.returned ++ [some s.tail] }

/-- The next atomic step of `mpsc_dequeue`. -/
def consume (s : State) : Option State :=
  match s.consumer with
  | .idle => none
  | .loadNext =>
    if s.tail = .stub then
      match s.next s.tail with
      | none => some s.returnNull
      | some next => some { s with tail := next, consumer := .skipNext }
    else
      match s.next s.tail with
      | none => some { s with consumer := .loadHead }
      | some next => some (s.returnTail next)
  | .skipNext =>
    match s.next s.tail with
    | none => some { s with consumer := .loadHead }
    | some next => some (s.returnTail next)
  | .loadHead =>
    if s.tail ≠ s.head then some s.returnNull else some { s with consumer := .stubClear }
  | .stubClear =>
    some { s with next := Function.update s.next .stub none, consumer := .stubExchange }
  | .stubExchange => some { s with head := .stub, consumer := .stubLink s.head }
  | .stubLink prev =>
    some { s with next := Function.update s.next prev (some .stub), consumer := .lastNext }
  | .lastNext =>
    match s.next s.tail with
    | none => some s.returnNull
    | some next => some (s.returnTail next)

/-- The next atomic step of `mpsc_enqueue`. -/
def produce (s : State) (t : ℕ) : Option State :=
  match s.producers t with
  | .idle => none
  | .clear n => some { s with
      next := Function.update s.next (.node n) none
      producers := Function.update s.producers t (.exchange n) }
  | .exchange n => some { s with
      head := .node n
      producers := Function.update s.producers t (.link s.head n)
      exchanges := s.exchanges ++ [(t, n)] }
  | .link prev n => some { s with
      next := Function.update s.next prev (some (.node n))
      producers := Function.update s.producers t .idle }

/-- The transition of the system. -/
def step (s : State) : Label → Option State
  | .enqueue t n =>
    if s.producers t = .idle ∧ s.busy n = false then
      some { s with
        producers := Function.update s.producers t (.clear n)
        busy := Function.update s.busy n true
        calls := Function.update s.calls t (s.calls t ++ [n]) }
    else none
  | .produce t => s.produce t
  | .dequeue => if s.consumer = .idle then some { s with consumer := .loadNext } else none
  | .consume => s.consume

end State

end Alcove.Mpsc
