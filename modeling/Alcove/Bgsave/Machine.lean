import Mathlib.Logic.Function.Basic
import Alcove.Lfkv.Table
import Alcove.Lib.Transition

/-!
# Saving: the machine

`SAVE`, `BGSAVE` and the poll of the background save (`resp.c`), as any number of reactors run them in
the atomic steps of the file system, of `fork` and `waitpid`, and of the shared variables. A dump is
written through a descriptor of its own, wherever the name of the temporary file leads by then.

What a dump writes is fixed when it opens the file: `observed` records it, beside what
`alcove_db_path` held at the start. `authors` are the saves that opened a file last or wrote to it
since, by their `ticket`; `exits` are the children's status codes, and `handled` tells whose file
was renamed or removed by the reactor that reaped them. The program reads none of these.
-/

namespace Alcove.Bgsave

/-! ## Files -/

/-- What `alcove_db_path` and its `.tmp` lead to, and the contents of all files. -/
structure Disk where
  data : ℕ → Bytes
  tmp : Option ℕ
  db : Option ℕ
  next : ℕ
  authors : ℕ → List ℕ

/-- `write` at an offset, which may lie past the end. -/
def writeAt (d : Bytes) (off : ℕ) (bs : Bytes) : Bytes :=
  d.take off ++ List.replicate (off - d.length) 0 ++ bs ++ d.drop (off + bs.length)

namespace Disk

/-- The disk at the start, when the two files, if there are any, hold `db` and `tmp`. -/
def init (db tmp : Option Bytes) : Disk where
  data := fun i => if i = 0 then db.getD [] else tmp.getD []
  tmp := tmp.map fun _ => 1
  db := db.map fun _ => 0
  next := 2
  authors := fun _ => []

/-- `fopen(tmp, "w")` -/
def fopen (d : Disk) (ticket : ℕ) : Disk × ℕ :=
  let i := d.tmp.getD d.next
  ({ d with
      data := Function.update d.data i []
      tmp := some i
      next := if d.tmp.isSome then d.next else d.next + 1
      authors := Function.update d.authors i [ticket] }, i)

def write (d : Disk) (ticket i off : ℕ) (bs : Bytes) : Disk :=
  { d with
    data := Function.update d.data i (writeAt (d.data i) off bs)
    authors := Function.update d.authors i ((d.authors i).insert ticket) }

/-- `unlink(tmp)` -/
def unlink (d : Disk) : Disk := { d with tmp := none }

/-- `rename(tmp, path)` -/
def rename (d : Disk) : Disk := { d with tmp := none, db := d.tmp }

end Disk

/-! ## Dumping -/

/-- Where a call of `resp_dump_to_tmp` is; `rest` has not reached the file yet. -/
inductive Dump
  /-- before `fopen` -/
  | fopen
  /-- in `alcove_dump_unified` -/
  | write (i off : ℕ) (rest : Bytes)
  /-- `fflush` and `fsync` are done: before `fclose` -/
  | flushed
  /-- one of them failed: before `fclose`, which flushes too -/
  | failed (i off : ℕ) (rest : Bytes)
  /-- before `unlink` -/
  | unlink
  | ret (code : ℕ)
  deriving DecidableEq

/-- The steps of a dump. -/
inductive Act
  | fopen (image : Bytes)
  | fopenFails
  | write (n : ℕ)
  | flush
  | fail
  | fclose
  | unlink
  deriving DecidableEq

/-- The next step of the dump with a ticket. -/
def Dump.step (d : Disk) (ticket : ℕ) : Dump → Act → Option (Disk × Dump)
  | .fopen, .fopen image =>
    let (d', i) := d.fopen ticket
    some (d', .write i 0 image)
  | .fopen, .fopenFails => some (d, .ret 1)
  | .write i off rest, .write n =>
    if 0 < n ∧ n ≤ rest.length then
      some (d.write ticket i off (rest.take n), .write i (off + n) (rest.drop n))
    else none
  | .write _ _ rest, .flush => if rest = [] then some (d, .flushed) else none
  | .write i off rest, .fail => some (d, .failed i off rest)
  | .failed i off rest, .write n =>
    if 0 < n ∧ n ≤ rest.length then
      some (d.write ticket i off (rest.take n), .failed i (off + n) (rest.drop n))
    else none
  | .flushed, .fclose => some (d, .ret 0)
  | .failed _ _ _, .fclose => some (d, .unlink)
  | .unlink, .unlink => some (d.unlink, .ret 2)
  | _, _ => none

/-! ## Reactors and children -/

/-- Where a reactor is, just before the next step. -/
inductive Reactor
  | idle
  /-- `cmd_bgsave`, which has set the pid to `-1`: before `fork` -/
  | starting
  /-- the store of `0` after a failure -/
  | giveUp
  /-- the stores of `resp_bgsave_tmp`, `resp_bgsave_dst` and of the pid -/
  | stashTmp (pid : ℕ)
  | stashDst (pid : ℕ)
  | publish (pid : ℕ)
  /-- `resp_bgsave_poll`: before `waitpid` -/
  | waitpid (pid : ℕ)
  /-- the exchange of the pid after `ECHILD` -/
  | echild (pid : ℕ)
  /-- the loads of `resp_bgsave_tmp` and `resp_bgsave_dst` -/
  | reaped (ticket : ℕ) (ok : Bool)
  | commit (ticket : ℕ)
  | rollback (ticket : ℕ)
  | freeTmp
  | freeDst
  /-- the store of `0` -/
  | clear
  /-- `cmd_save` -/
  | saving (ticket : ℕ) (d : Dump)
  | renameTmp
  deriving DecidableEq

/-- A child process that has not been waited for. -/
inductive Kid
  | running (ticket : ℕ) (d : Dump)
  | exited (ticket code : ℕ)
  | killed (ticket : ℕ)
  deriving DecidableEq

structure State where
  disk : Disk
  reactors : ℕ → Reactor
  kids : ℕ → Option Kid
  /-- `resp_bgsave_pid` -/
  pid : ℤ
  /-- `resp_bgsave_tmp` and `resp_bgsave_dst` are not `NULL` -/
  tmp : Bool
  dst : Bool
  tickets : ℕ
  exits : ℕ → Option ℕ
  handled : ℕ → Bool
  observed : List Bytes

inductive Label
  /-- `BGSAVE`: the exchange of the pid -/
  | bgsave (r : ℕ)
  | fork (r pid : ℕ)
  /-- `malloc` or `fork` fails -/
  | forkFails (r : ℕ)
  /-- `resp_bgsave_poll`: the load of the pid -/
  | poll (r : ℕ)
  /-- the next step of a reactor that has no choice -/
  | next (r : ℕ)
  /-- `rename(tmp, path)`, which fails when there is no `tmp`, or else as the system finds -/
  | rename (r : ℕ) (fails : Bool)
  | save (r : ℕ)
  /-- a step of the dump of `SAVE` -/
  | dump (r : ℕ) (a : Act)
  /-- a step of the dump of a child -/
  | child (pid : ℕ) (a : Act)
  | exit (pid : ℕ)
  /-- a child crashes -/
  | kill (pid : ℕ)
  deriving DecidableEq

namespace State

/-- The start, with what the two files hold. -/
def init (db tmp : Option Bytes) : State where
  disk := .init db tmp
  reactors := fun _ => .idle
  kids := fun _ => none
  pid := 0
  tmp := false
  dst := false
  tickets := 0
  exits := fun _ => none
  handled := fun _ => false
  observed := db.toList

/-- Reactor `r` goes on to `p`. -/
def goto (s : State) (r : ℕ) (p : Reactor) : State :=
  { s with reactors := Function.update s.reactors r p }

@[simp] theorem goto_self (s : State) (r : ℕ) (p : Reactor) : (s.goto r p).reactors r = p :=
  Function.update_self ..

theorem goto_of_ne (s : State) {r r' : ℕ} (p : Reactor) (hr : r' ≠ r) :
    (s.goto r p).reactors r' = s.reactors r' :=
  Function.update_of_ne hr ..

/-- The save with this ticket has its file renamed or removed. -/
def handle (s : State) (ticket : ℕ) : State :=
  { s with handled := Function.update s.handled ticket true }

/-- What a dump is about to write, when it opens the file. -/
def observe (s : State) : Act → State
  | .fopen image => { s with observed := image :: s.observed }
  | _ => s

/-- The next step of a reactor, when it has no choice. -/
def next (s : State) (r : ℕ) : Option State :=
  match s.reactors r with
  | .giveUp => some ({ s with pid := 0 }.goto r .idle)
  | .stashTmp p => some ({ s with tmp := true }.goto r (.stashDst p))
  | .stashDst p => some ({ s with dst := true }.goto r (.publish p))
  | .publish p => some ({ s with pid := p }.goto r .idle)
  | .waitpid p =>
    match s.kids p with
    | some (.running _ _) => some (s.goto r .idle)
    | some (.exited t code) =>
      some ({ s with kids := Function.update s.kids p none }.goto r (.reaped t (code = 0)))
    | some (.killed t) =>
      some ({ s with kids := Function.update s.kids p none }.goto r (.reaped t false))
    | none => some (s.goto r (.echild p))
  | .echild p => some ({ s with pid := if s.pid = p then 0 else s.pid }.goto r .idle)
  | .reaped t ok =>
    if ok && s.tmp && s.dst then some (s.goto r (.commit t))
    else if s.tmp then some (s.goto r (.rollback t))
    else some ((s.handle t).goto r .freeTmp)
  | .rollback t =>
    let disk := if s.tmp then s.disk.unlink else s.disk
    some (({ s with disk := disk }.handle t).goto r .freeTmp)
  | .freeTmp => some ({ s with tmp := false }.goto r .freeDst)
  | .freeDst => some ({ s with dst := false }.goto r .clear)
  | .clear => some ({ s with pid := 0 }.goto r .idle)
  | .saving _ (.ret 0) => some (s.goto r .renameTmp)
  | .saving _ (.ret _) => some (s.goto r .idle)
  | _ => none

/-- The transition of the system. -/
def step (s : State) : Label → Option State
  | .bgsave r =>
    if s.reactors r = .idle then
      some (if s.pid = 0 then { s with pid := -1 }.goto r .starting else s)
    else none
  | .fork r pid =>
    if s.reactors r = .starting ∧ 0 < pid ∧ s.kids pid = none then
      some ({ s with
        kids := Function.update s.kids pid (some (.running s.tickets .fopen))
        tickets := s.tickets + 1 }.goto r (.stashTmp pid))
    else none
  | .forkFails r => if s.reactors r = .starting then some (s.goto r .giveUp) else none
  | .poll r =>
    if s.reactors r = .idle then
      some (if s.pid ≤ 0 then s else s.goto r (.waitpid s.pid.toNat))
    else none
  | .next r => s.next r
  | .rename r fails =>
    match s.reactors r with
    | .commit t =>
      if fails || !s.tmp || !s.dst || s.disk.tmp.isNone then some (s.goto r (.rollback t))
      else some (({ s with disk := s.disk.rename }.handle t).goto r .freeTmp)
    | .renameTmp =>
      if fails || s.disk.tmp.isNone then some (s.goto r .idle)
      else some ({ s with disk := s.disk.rename }.goto r .idle)
    | _ => none
  | .save r =>
    if s.reactors r = .idle then
      some ({ s with tickets := s.tickets + 1 }.goto r (.saving s.tickets .fopen))
    else none
  | .dump r a =>
    match s.reactors r with
    | .saving t d => (d.step s.disk t a).map fun (disk, d') =>
      ({ s.observe a with disk := disk }.goto r (.saving t d'))
    | _ => none
  | .child pid a =>
    match s.kids pid with
    | some (.running t d) => (d.step s.disk t a).map fun (disk, d') =>
      { s.observe a with disk := disk, kids := Function.update s.kids pid (some (.running t d')) }
    | _ => none
  | .exit pid =>
    match s.kids pid with
    | some (.running t (.ret code)) => some { s with
        kids := Function.update s.kids pid (some (.exited t code))
        exits := Function.update s.exits t (some code) }
    | _ => none
  | .kill pid =>
    match s.kids pid with
    | some (.running t _) => some { s with
        kids := Function.update s.kids pid (some (.killed t)) }
    | _ => none

end State

end Alcove.Bgsave
