import Alcove.Lfkv.Table

/-!
# The lock-free keyspace: its operations as atomic steps

Every function of `lfkv.c` as a small-step machine: one step is one atomic load, compare-and-swap
or fetch-and-add, together with the local code up to the next one. `Pc` is a program point with
the locals that are live there, `step` the transition. The functions differ in what they do at
the points they share: after their `LFKV_PROBE` (`Call.found`, `Call.missing`), after loading the
entry of the record found (`Call.loaded`), around `slot_retire_entry` (`Call.retired`,
`Call.lostEntry`) and when they publish (`Call.newEntry`, `Call.published`).

Memory reclamation (`epoch_retire`) and the watch hook (`LFKV_EMIT`) do not touch the table and
take no step here. An allocation succeeds when the step's `ok` is true; the entry it makes gets
the address `addr` of the step that publishes it.
-/

namespace Alcove.Lfkv

/-- A call of the keyspace interface; the value references are never `NULL`. -/
inductive Call (V : Type*)
  /-- `lfkv_set` -/
  | set (k : Bytes) (val : V)
  /-- `lfkv_get`, and `lfkv_peek`, which differs in the reference count only -/
  | get (k : Bytes)
  /-- `lfkv_del` -/
  | del (k : Bytes)
  /-- `lfkv_set_expiry` -/
  | setExpiry (k : Bytes) (tsUs : ℤ)
  /-- `lfkv_touch_if_value` -/
  | touchIfValue (k : Bytes) (expected : Option V) (expiryUs : ℤ)
  /-- `lfkv_get_expiry` -/
  | getExpiry (k : Bytes)
  /-- `lfkv_set_nx` -/
  | setNx (k : Bytes) (val : V)
  /-- `lfkv_set_xx` -/
  | setXx (k : Bytes) (val : V)
  /-- `lfkv_cas` -/
  | cas (k : Bytes) (expected newVal : Option V)
  /-- `lfkv_count` -/
  | count
  /-- `lfkv_foreach`, with a callback that collects every entry -/
  | foreach
  /-- `lfkv_evict_expired` -/
  | evictExpired
  /-- `lfkv_clear` -/
  | clear
  deriving DecidableEq

/-- What a call returns. -/
inductive Ret (V : Type*)
  | int (n : ℤ)
  | val (v : Option V)
  | items (l : List (Bytes × V × ℤ))
  deriving DecidableEq

/-- A program point with its live locals; each is just before the atomic operation it names. -/
inductive Pc (V : Type*)
  /-- `probe`: load of `slots[i]`, in iteration `p` -/
  | probe (p i : ℕ) (tomb : Option ℕ)
  /-- `probe`: load of the entry of `s = slots[i]` -/
  | probeEntry (p i : ℕ) (tomb : Option ℕ) (s : SlotId)
  /-- load of the entry of the record the probe found -/
  | loadEntry (s : SlotId)
  /-- `slot_retire_entry`: the swap of `e` for `NULL` -/
  | retire (s : SlotId) (e : LfEntry V)
  /-- `slot_retire_entry`: the decrement of `count` -/
  | retireSub (e : LfEntry V)
  /-- the swap of `e` for the caller's new entry -/
  | publish (s : SlotId) (e : LfEntry V)
  /-- `lfkv_cas` without a new value: the decrement of `count` -/
  | publishSub
  /-- `slot_install_if_null`: the swap of `NULL` for the new entry -/
  | install (s : SlotId)
  /-- `slot_replace_entry`: the load of the old entry -/
  | replaceLoad (s : SlotId)
  /-- `slot_replace_entry`: the swap of `old` for the new entry -/
  | replaceCas (s : SlotId) (old : Option (LfEntry V))
  /-- `lfkv_set`: load of `slots[tomb]` -/
  | tombLoad (i tomb : ℕ)
  /-- `lfkv_set`: the check that the tombstoned record is still one -/
  | tombCheck (i tomb : ℕ) (old : SlotId)
  /-- `lfkv_set`: the swap of the tombstoned record for a fresh one -/
  | tombCas (i tomb : ℕ) (old : SlotId)
  /-- the swap of `NULL` at `slots[i]` for a fresh record -/
  | claim (i : ℕ)
  /-- load of `slots[i]`, in iteration `p` of the scan after a failed claim -/
  | scan (p i : ℕ)
  /-- the increment of `count`, before returning `r` -/
  | countAdd (r : Ret V)
  /-- `lfkv_count`: its load -/
  | countLoad
  /-- `lfkv_evict_expired`, `lfkv_clear`: load of `slots[i]`, with `n` entries evicted -/
  | sweep (i n : ℕ)
  | sweepEntry (i : ℕ) (s : SlotId) (n : ℕ)
  | sweepRetire (i : ℕ) (s : SlotId) (e : LfEntry V) (n : ℕ)
  | sweepSub (i n : ℕ)
  /-- `lfkv_foreach`: load of `slots[i]` -/
  | each (i : ℕ) (items : List (Bytes × V × ℤ))
  | eachEntry (i : ℕ) (s : SlotId) (items : List (Bytes × V × ℤ))
  /-- the call has returned -/
  | ret (r : Ret V)
  deriving DecidableEq

/-- A call in progress: `now` is the time it read on entry. -/
structure Thread (V : Type*) where
  call : Call V
  now : ℤ
  pc : Pc V
  deriving DecidableEq

variable {V : Type*}

namespace Call

/-- The key of a call on one key. -/
def key : Call V → Bytes
  | set k _ | get k | del k | setExpiry k _ | touchIfValue k _ _ | getExpiry k | setNx k _
  | setXx k _ | cas k _ _ => k
  | count | foreach | evictExpired | clear => []

/-- The hash that `LFKV_PROBE` computes. -/
def hash (c : Call V) : UInt32 := bernsteinHash c.key

/-- What the functions return when there is no (unexpired) entry for the key. -/
def absent : Call V → Ret V
  | get _ => .val none
  | getExpiry _ => .int (-1)
  | _ => .int 0

variable (kv : Lfkv V) (c : Call V)

/-- The start of `LFKV_PROBE`. -/
def probeStart : Pc V := .probe 0 (kv.home c.hash) none

/-- Where a call starts; `lfkv_set` allocates its entry first. -/
def start (ok : Bool) : Pc V :=
  match c with
  | set _ _ => if ok then c.probeStart kv else .ret (.int (-1))
  | touchIfValue _ none _ => .ret (.int 0)
  | count => .countLoad
  | foreach => .each 0 []
  | evictExpired | clear => .sweep 0 0
  | _ => c.probeStart kv

/-- After a probe that found the record `s`. -/
def found (s : SlotId) : Pc V :=
  match c with
  | set _ _ => .replaceLoad s
  | _ => .loadEntry s

/-- After a probe that did not find the key. -/
def missing (ok : Bool) (i : ℕ) (tomb : Option ℕ) : Pc V :=
  match c with
  | set _ _ =>
    if ok then
      match tomb with
      | some t => .tombLoad i t
      | none => .claim i
    else .ret (.int (-1))
  | setNx _ _ => if ok then .claim i else .ret (.int 0)
  | _ => .ret c.absent

/-- After loading the entry of the record `s` that the probe found. -/
def loaded [DecidableEq V] (now : ℤ) (ok : Bool) (s : SlotId) (ent : Option (LfEntry V)) : Pc V :=
  match ent, c with
  | none, setNx _ _ => if ok then .install s else .ret (.int 0)
  | none, _ => .ret c.absent
  | some e, touchIfValue _ expected expiryUs =>
    if some e.val ≠ expected then .ret (.int 0)
    else if entryExpired e now then .retire s e
    else if expiryUs = 0 ∧ e.expiryUs = 0 then .ret (.int 1)
    else if ok then .publish s e else .ret (.int 0)
  | some e, cas _ expected newVal =>
    if some e.val ≠ expected then .ret (.int 0)
    else if entryExpired e now then .retire s e
    else if newVal.isNone || ok then .publish s e else .ret (.int 0)
  | some e, del _ => .retire s e
  | some e, c =>
    if entryExpired e now then .retire s e
    else
      match c with
      | get _ => .ret (.val (some e.val))
      | getExpiry _ => .ret (.int e.expiryUs)
      | setExpiry _ _ | setXx _ _ => if ok then .publish s e else .ret (.int 0)
      | _ => .ret (.int 0)

/-- After `slot_retire_entry` removed the entry `e`. -/
def retired (now : ℤ) (e : LfEntry V) : Pc V :=
  match c with
  | del _ => .ret (.int (if entryExpired e now then 0 else 1))
  | setNx _ _ => c.probeStart kv
  | _ => .ret c.absent

/-- After a swap on the entry of `s` that lost against another thread: the functions that probe
once load the entry again, the others probe again. -/
def lostEntry (s : SlotId) : Pc V :=
  match c with
  | touchIfValue _ _ _ | cas _ _ _ => .loadEntry s
  | _ => c.probeStart kv

/-- The entry that replaces `e`; `none` is `lfkv_cas` without a new value. -/
def newEntry (addr : ℕ) (e : LfEntry V) : Option (LfEntry V) :=
  match c with
  | setExpiry _ tsUs => some ⟨addr, e.val, tsUs⟩
  | touchIfValue _ _ expiryUs => some ⟨addr, e.val, expiryUs⟩
  | setXx _ val => some ⟨addr, val, 0⟩
  | cas _ _ newVal => newVal.map fun v => ⟨addr, v, e.expiryUs⟩
  | _ => none

/-- The entry of a fresh record, or of an empty one. -/
def freshEntry (addr : ℕ) : Option (LfEntry V) :=
  match c with
  | set _ val | setNx _ val => some ⟨addr, val, 0⟩
  | _ => none

/-- The record made by `slot_alloc`. -/
def freshSlot (addr : ℕ) : LfSlot V := slotAlloc c.hash c.key (c.freshEntry addr)

/-- What `lfkv_set` and `lfkv_set_nx` return when they insert a record. -/
def inserted : Ret V :=
  match c with
  | setNx _ _ => .int 1
  | _ => .int 0

/-- A claim or its scan met the record `s` of the key itself. -/
def metOwn (s : SlotId) : Pc V :=
  match c with
  | setNx _ _ => c.probeStart kv
  | _ => .replaceLoad s

/-- The scan went round the whole table. -/
def full : Ret V :=
  match c with
  | setNx _ _ => .int 0
  | _ => .int (-1)

end Call

section Step

variable [DecidableEq V] (kv : Lfkv V)

/-- The probe goes on after iteration `p`, at index `i`, or ends its loop. -/
def Call.probeNext (c : Call V) (ok : Bool) (p i : ℕ) (tomb : Option ℕ) : Pc V :=
  if p + 1 < kv.nslots then .probe (p + 1) (kv.succ i) tomb
  else c.missing ok (kv.home c.hash) tomb

/-- The sweep goes on after index `i`, with `n` entries evicted so far. -/
def Call.sweepNext (c : Call V) (i n : ℕ) : Pc V :=
  if i + 1 < kv.nslots then .sweep (i + 1) n
  else
    match c with
    | .evictExpired => .ret (.int n)
    | _ => .ret (.int 0)

/-- `lfkv_foreach` goes on after index `i`. -/
def eachNext (i : ℕ) (items : List (Bytes × V × ℤ)) : Pc V :=
  if i + 1 < kv.nslots then .each (i + 1) items else .ret (.items items)

/-- **One atomic step of a call.** -/
def step (th : Thread V) (ok : Bool) (addr : ℕ) : Lfkv V × Pc V :=
  let c := th.call
  match th.pc with
  | .probe p i tomb =>
    match kv.slots i with
    | none => (kv, c.missing ok i tomb)
    | some s => (kv, .probeEntry p i tomb s)
  | .probeEntry p i tomb s =>
    match (kv.recs s).entry with
    | none => (kv, c.probeNext kv ok p i (tomb.or (some i)))
    | some _ =>
      if slotKeyEq (kv.recs s) c.hash c.key then (kv, c.found s)
      else (kv, c.probeNext kv ok p i tomb)
  | .loadEntry s => (kv, c.loaded th.now ok s (kv.recs s).entry)
  | .retire s e =>
    match kv.casEntry s (some e) none with
    | some kv' => (kv', .retireSub e)
    | none => (kv, c.lostEntry kv s)
  | .retireSub e => (kv.countSub, c.retired kv th.now e)
  | .publish s e =>
    match kv.casEntry s (some e) (c.newEntry addr e) with
    | some kv' => (kv', if (c.newEntry addr e).isNone then .publishSub else .ret (.int 1))
    | none => (kv, c.lostEntry kv s)
  | .publishSub => (kv.countSub, .ret (.int 1))
  | .install s =>
    match kv.casEntry s none (c.freshEntry addr) with
    | some kv' => (kv', .countAdd (.int 1))
    | none => (kv, c.probeStart kv)
  | .replaceLoad s => (kv, .replaceCas s (kv.recs s).entry)
  | .replaceCas s old =>
    match kv.casEntry s old (c.freshEntry addr) with
    | some kv' => (kv', if old.isNone then .countAdd (.int 0) else .ret (.int 0))
    | none => (kv, .replaceLoad s)
  | .tombLoad i tomb =>
    match kv.slots tomb with
    | none => (kv, .claim i)
    | some old => (kv, .tombCheck i tomb old)
  | .tombCheck i tomb old =>
    (kv, if (kv.recs old).entry.isNone then .tombCas i tomb old else .claim i)
  | .tombCas i tomb old =>
    match kv.casSlot tomb (some old) (c.freshSlot addr) with
    | some kv' => (kv', .countAdd (.int 0))
    | none => (kv, .claim i)
  | .claim i =>
    match kv.casSlot i none (c.freshSlot addr) with
    | some kv' => (kv', .countAdd c.inserted)
    | none =>
      match kv.slots i with
      | none => (kv, .claim i)
      | some s =>
        if slotKeyEq (kv.recs s) c.hash c.key then (kv, c.metOwn kv s)
        else (kv, .scan 0 (kv.succ i))
  | .scan p i =>
    match kv.slots i with
    | none => (kv, .claim i)
    | some s =>
      if slotKeyEq (kv.recs s) c.hash c.key then (kv, c.metOwn kv s)
      else (kv, if p + 1 < kv.nslots then .scan (p + 1) (kv.succ i) else .ret c.full)
  | .countAdd r => (kv.countAdd, .ret r)
  | .countLoad => (kv, .ret (.int kv.count.toNat))
  | .sweep i n =>
    match kv.slots i with
    | none => (kv, c.sweepNext kv i n)
    | some s => (kv, .sweepEntry i s n)
  | .sweepEntry i s n =>
    match (kv.recs s).entry with
    | none => (kv, c.sweepNext kv i n)
    | some e =>
      if c = .clear ∨ entryExpired e th.now then (kv, .sweepRetire i s e n)
      else (kv, c.sweepNext kv i n)
  | .sweepRetire i s e n =>
    match kv.casEntry s (some e) none with
    | some kv' => (kv', .sweepSub i n)
    | none => (kv, if c = .clear then .sweepEntry i s n else c.sweepNext kv i n)
  | .sweepSub i n => (kv.countSub, c.sweepNext kv i (n + 1))
  | .each i items =>
    match kv.slots i with
    | none => (kv, eachNext kv i items)
    | some s => (kv, .eachEntry i s items)
  | .eachEntry i s items =>
    match (kv.recs s).entry with
    | none => (kv, eachNext kv i items)
    | some e =>
      if entryExpired e th.now then (kv, eachNext kv i items)
      else (kv, eachNext kv i (items ++ [((kv.recs s).keyBytes, e.val, e.expiryUs)]))
  | .ret r => (kv, .ret r)

end Step

/-! ## Any number of threads -/

/-- Threads that call the keyspace; a thread that has not called it yet is `none`. -/
structure Sys (V : Type*) where
  kv : Lfkv V
  threads : ℕ → Option (Thread V)

/-- A step of the system: a thread that is in no call starts one, or takes its next step. -/
inductive Label (V : Type*)
  | invoke (t : ℕ) (call : Call V) (now : ℤ) (ok : Bool)
  | step (t : ℕ) (ok : Bool) (addr : ℕ)

/-- Whether a thread may start a call. -/
def idle : Option (Thread V) → Bool
  | none => true
  | some ⟨_, _, .ret _⟩ => true
  | _ => false

namespace Sys

/-- The empty table before any call. -/
def init (V : Type*) (b : ℕ) (hb : b < 64) : Sys V := ⟨lfkvNew V b hb, fun _ => none⟩

/-- The thread `t` is now at `th`, with the table `kv`. -/
def put (s : Sys V) (t : ℕ) (kv : Lfkv V) (th : Thread V) : Sys V :=
  ⟨kv, Function.update s.threads t (some th)⟩

variable [DecidableEq V]

/-- The transition of the system. -/
def next (s : Sys V) : Label V → Option (Sys V)
  | .invoke t call now ok =>
    if idle (s.threads t) then some (s.put t s.kv ⟨call, now, call.start s.kv ok⟩) else none
  | .step t ok addr =>
    if idle (s.threads t) then none
    else
      (s.threads t).map fun th =>
        let r := step s.kv th ok addr
        s.put t r.1 { th with pc := r.2 }

end Sys

end Alcove.Lfkv
