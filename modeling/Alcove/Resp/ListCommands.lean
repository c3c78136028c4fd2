import Alcove.Resp.Deque
import Alcove.Resp.Integer

/-!
# The list commands

`LPUSH`, `RPUSH`, `LPOP`, `RPOP`, `LLEN`, `LINDEX` and `LRANGE` as programs that call the keyspace: a
command that changes a list copies it and swaps the copy in, and the last value takes its key with it.

`listExec` says what the commands are for: a sequence of byte strings, whose negative indices count from
its end.
-/

namespace Alcove.Resp

open Lfkv Lib

/-! ## Commands -/

/-- A value of the keyspace: a list of blobs, or of another type. -/
inductive ListStored
  | list (l : AlcList)
  | other
  deriving DecidableEq

abbrev notInteger : Reply := .err "ERR value is not an integer or out of range"

/-- `resp_norm_index` -/
def respNormIndex (idx len : ℤ) : ℤ :=
  -- a length is added to a negative index only, so that no sum leaves 64 bits
  let idx := if idx < 0 then idx + len else idx
  if idx < 0 ∨ len ≤ idx then -1 else idx

/-- The loop of `cmd_lpush_rpush` over the values. -/
def pushAll (left : Bool) (l : AlcList) (vals : List Bytes) : AlcList :=
  vals.foldl (fun l v => if left then l.pushLeft v else l.pushRight v) l

/-- The value that `cmd_lpop_rpop` takes, and the list without it, if there is one. -/
def popped (left : Bool) (src : AlcList) : Option (Bytes × Option AlcList) := do
  let target ← if left then src.head else src.tail
  let v ← src.val target
  if src.len = 1 then return (v, none)
  else
    let start ← if left then src.head.bind src.next else some src.head
    let fresh ← src.copyFrom (fun a => !left && src.tail = some a) src.nodes.length start .empty
    return (v, some fresh)

/-- The value at an index, walked to from the nearer end. -/
def listAt (l : AlcList) (idx : ℤ) : Option Reply :=
  let ni := respNormIndex idx l.len
  if ni < 0 then some .nil
  else do
    let nd ← if ni < (l.len : ℤ) / 2 then advance l.next ni.toNat l.head
      else advance l.prev (l.len - 1 - ni).toNat l.tail
    let v ← nd.bind l.val
    return .bulk v

/-- The values from one index to another. -/
def listRange (l : AlcList) (start stop : ℤ) : Option Reply :=
  let start := if start < 0 then start + l.len else start
  let stop := if stop < 0 then stop + l.len else stop
  let start := if start < 0 then 0 else start
  let stop := if (l.len : ℤ) ≤ stop then (l.len : ℤ) - 1 else stop
  if stop < start ∨ (l.len : ℤ) ≤ start then some (.array 0 [])
  else do
    let nd ← advance l.next start.toNat l.head
    let vals ← l.readVals (stop - start + 1).toNat nd
    return .array (stop - start + 1).toNat vals

section Commands

variable (key : Bytes) (args : List Bytes)

/-- The rounds of `cmd_lpush_rpush` that are left. A program that comes to no reply has followed a bad
pointer, or walks for ever. -/
def pushLoop (left : Bool) : ℕ → Prog ListStored (Option Reply)
  | 0 => .ret (some tooManyRetries)
  | n + 1 => .call (.get key) fun cur =>
    match cur.value with
    | some .other => .ret (some wrongType)
    | some (.list l) =>
      match l.respListClone with
      | none => .ret none
      | some fresh =>
        .call (.cas key (some (.list l)) (some (.list (pushAll left fresh args)))) fun ok =>
          if ok = .int 1 then .ret (some (.int (pushAll left fresh args).len)) else pushLoop left n
    | none =>
      .call (.setNx key (.list (pushAll left .empty args))) fun ok =>
        if ok = .int 1 then .ret (some (.int (pushAll left .empty args).len)) else pushLoop left n

/-- `cmd_lpush_rpush`, with the arguments behind the key -/
def cmdLpushRpush (left : Bool) : Prog ListStored (Option Reply) :=
  if args.length < 1 then .ret (some wrongArgs) else pushLoop key args left 1001

/-- The rounds of `cmd_lpop_rpop` that are left. -/
def popLoop (left : Bool) : ℕ → Prog ListStored (Option Reply)
  | 0 => .ret (some tooManyRetries)
  | n + 1 => .call (.get key) fun cur =>
    match cur.value with
    | none => .ret (some .nil)
    | some .other => .ret (some wrongType)
    | some (.list src) =>
      if src.len = 0 then .ret (some .nil)
      else
        match popped left src with
        | none => .ret none
        | some (v, rest) =>
          .call (.cas key (some (.list src)) (rest.map .list)) fun ok =>
            if ok = .int 1 then .ret (some (.bulk v)) else popLoop left n

/-- `cmd_lpop_rpop` -/
def cmdLpopRpop (left : Bool) : Prog ListStored (Option Reply) :=
  match args with
  | [] => popLoop key left 1001
  | _ => .ret (some wrongArgs)

/-- A command that looks at the list of the key, if there is one. -/
def lookAtList (missing : Reply) (k : AlcList → Option Reply) : Prog ListStored (Option Reply) :=
  .call (.get key) fun v =>
    match v.value with
    | none => .ret (some missing)
    | some .other => .ret (some wrongType)
    | some (.list l) => .ret (k l)

/-- `cmd_llen` -/
def cmdLlen : Prog ListStored (Option Reply) :=
  match args with
  | [] => lookAtList key (.int 0) fun l => some (.int l.len)
  | _ => .ret (some wrongArgs)

/-- `cmd_lindex` -/
def cmdLindex : Prog ListStored (Option Reply) :=
  match args with
  | [i] =>
    match respArgToLl i with
    | none => .ret (some notInteger)
    | some idx => lookAtList key .nil fun l => listAt l idx
  | _ => .ret (some wrongArgs)

/-- `cmd_lrange` -/
def cmdLrange : Prog ListStored (Option Reply) :=
  match args with
  | [i, j] =>
    match respArgToLl i, respArgToLl j with
    | some start, some stop => lookAtList key (.array 0 []) fun l => listRange l start stop
    | _, _ => .ret (some notInteger)
  | _ => .ret (some wrongArgs)

end Commands

/-- The commands -/
inductive LCommand
  | lpush
  | rpush
  | lpop
  | rpop
  | llen
  | lindex
  | lrange

/-- A command with the arguments behind its key -/
def LCommand.prog (key : Bytes) (args : List Bytes) : LCommand → Prog ListStored (Option Reply)
  | lpush => cmdLpushRpush key args true
  | rpush => cmdLpushRpush key args false
  | lpop => cmdLpopRpop key args true
  | rpop => cmdLpopRpop key args false
  | llen => cmdLlen key args
  | lindex => cmdLindex key args
  | lrange => cmdLrange key args

/-- Commands on one key, one after the other, with their replies. -/
def listSession (key : Bytes) : List (LCommand × List Bytes) → Prog ListStored (List (Option Reply))
  | [] => .ret []
  | (cmd, args) :: cmds => (cmd.prog key args).bind fun r =>
    (listSession key cmds).bind fun replies => .ret (r :: replies)

/-! ## What the commands are for -/

/-- The position of an index: a negative one counts from the end. -/
def position (xs : List Bytes) (i : ℤ) : ℤ := if i < 0 then i + xs.length else i

/-- The element at an index, if there is one. -/
def elementAt (xs : List Bytes) (i : ℤ) : Option Bytes :=
  if position xs i < 0 then none else xs[(position xs i).toNat]?

/-- The elements from one index to another, both of them included. -/
def elementsBetween (xs : List Bytes) (i j : ℤ) : List Bytes :=
  ((List.range xs.length).filter fun n : ℕ => position xs i ≤ n ∧ n ≤ position xs j).filterMap
    fun n : ℕ => xs[n]?

/-- What a command replies on a sequence, and what it leaves of it. -/
def listExec (xs args : List Bytes) : LCommand → Reply × List Bytes
  | .lpush => if args.length < 1 then (wrongArgs, xs)
    else (.int (args.reverse ++ xs).length, args.reverse ++ xs)
  | .rpush => if args.length < 1 then (wrongArgs, xs) else (.int (xs ++ args).length, xs ++ args)
  | .lpop => if args ≠ [] then (wrongArgs, xs) else ((xs.head?.map Reply.bulk).getD .nil, xs.tail)
  | .rpop => if args ≠ [] then (wrongArgs, xs)
    else ((xs.getLast?.map Reply.bulk).getD .nil, xs.dropLast)
  | .llen => (if args ≠ [] then wrongArgs else .int xs.length, xs)
  | .lindex =>
    (match args with
      | [i] =>
        match respArgToLl i with
        | some i => ((elementAt xs i).map Reply.bulk).getD .nil
        | none => notInteger
      | _ => wrongArgs, xs)
  | .lrange =>
    (match args with
      | [i, j] =>
        match respArgToLl i, respArgToLl j with
        | some i, some j => .array (elementsBetween xs i j).length (elementsBetween xs i j)
        | _, _ => notInteger
      | _ => wrongArgs, xs)

/-- The replies of a session on a sequence, and what it leaves of it. -/
def listRun : List Bytes → List (LCommand × List Bytes) → List Reply × List Bytes
  | xs, [] => ([], xs)
  | xs, (cmd, args) :: cmds =>
    ((listExec xs args cmd).1 :: (listRun (listExec xs args cmd).2 cmds).1,
      (listRun (listExec xs args cmd).2 cmds).2)

end Alcove.Resp
