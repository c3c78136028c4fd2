import Mathlib.Data.Nat.Bitwise
import Mathlib.Logic.Function.Basic

/-!
# The lock-free keyspace: its table

The data of `lfkv.h`: a fixed array of slot pointers, each to a record that holds immutable key
bytes and one atomic entry pointer. Entries are immutable once allocated, so an entry pointer is
modelled by the address together with what it points at (`LfEntry`); slot records that have been
published are never freed, so a slot pointer is the index of its record (`SlotId`).

The primitive steps on the table are the atomic operations of the source: `casEntry`, `casSlot`
and the updates of `count`. `probe` is the source's probe run on a table that nobody else writes.
-/

namespace Alcove

/-- A byte string: a key, or the payload of a blob. -/
abbrev Bytes := List UInt8

/-- `bernstein_hash`, on 32-bit unsigned arithmetic. -/
def bernsteinHash (key : Bytes) : UInt32 :=
  key.foldl (fun hash c => (hash + (hash <<< 5)) ^^^ c.toUInt32) 3102

namespace Lfkv

/-- A pointer to a slot record. -/
abbrev SlotId := ℕ

/-- An entry pointer: its address and the (immutable) entry it points at. -/
structure LfEntry (V : Type*) where
  addr : ℕ
  val : V
  expiryUs : ℤ
  deriving DecidableEq

/-- A slot record: `khash`, `klen` (truncated to 32 bits, as stored) and `key` are immutable. -/
structure LfSlot (V : Type*) where
  khash : UInt32
  klen : UInt32
  entry : Option (LfEntry V)
  key : Bytes
  deriving DecidableEq

/-- `entry_expired`. -/
def entryExpired {V : Type*} (e : LfEntry V) (now : ℤ) : Bool :=
  e.expiryUs != 0 && decide (e.expiryUs ≤ now)

/-- `slot_key_eq`: `memcmp` reads the first `klen` bytes of the record's key. -/
def slotKeyEq {V : Type*} (s : LfSlot V) (h : UInt32) (k : Bytes) : Bool :=
  s.khash == h && s.klen.toNat == k.length && s.key.take k.length == k

/-- `slot_alloc`. -/
def slotAlloc {V : Type*} (h : UInt32) (k : Bytes) (initial : Option (LfEntry V)) : LfSlot V where
  khash := h
  klen := UInt32.ofNat k.length
  entry := initial
  key := k

/-- The stored key bytes of a record. -/
def LfSlot.keyBytes {V : Type*} (s : LfSlot V) : Bytes := s.key.take s.klen.toNat

end Lfkv

open Lfkv in
/-- The table. `recs` holds every slot record ever published, `nrecs` of them; `slots` is the array
of slot pointers. -/
structure Lfkv (V : Type*) where
  slots : ℕ → Option SlotId
  recs : SlotId → LfSlot V
  nrecs : ℕ
  nslots : ℕ
  count : UInt64
  /-- `lfkv_new` refuses any other number of slots. -/
  pow2 : ∃ b < 64, nslots = 2 ^ b

namespace Lfkv

variable {V : Type*}

/-- `lfkv_new`, for a number of slots that `size_t` can hold. -/
def lfkvNew (V : Type*) (b : ℕ) (hb : b < 64) : Lfkv V where
  slots := fun _ => none
  recs := fun _ => ⟨0, 0, none, []⟩
  nrecs := 0
  nslots := 2 ^ b
  count := 0
  pow2 := ⟨b, hb, rfl⟩

variable (kv : Lfkv V)

def mask : ℕ := kv.nslots - 1

/-- The slot index the probe of a hash starts at. -/
def home (h : UInt32) : ℕ := h.toNat &&& kv.mask

/-- The slot index the probe visits after `i`. -/
def succ (i : ℕ) : ℕ := (i + 1) &&& kv.mask

/-- Compare-and-swap of an entry pointer, by address; `none` when it fails. -/
def casEntry (s : SlotId) (expected desired : Option (LfEntry V)) : Option (Lfkv V) :=
  if (kv.recs s).entry.map LfEntry.addr = expected.map LfEntry.addr then
    some { kv with recs := Function.update kv.recs s { kv.recs s with entry := desired } }
  else none

/-- Compare-and-swap of a slot pointer to a record allocated by the caller; `none` when it
fails. -/
def casSlot (i : ℕ) (expected : Option SlotId) (fresh : LfSlot V) : Option (Lfkv V) :=
  if kv.slots i = expected then
    some { kv with
      slots := Function.update kv.slots i (some kv.nrecs)
      recs := Function.update kv.recs kv.nrecs fresh
      nrecs := kv.nrecs + 1 }
  else none

/-- `atomic_fetch_add(&kv->count, 1)`. -/
def countAdd : Lfkv V := { kv with count := kv.count + 1 }

/-- `atomic_fetch_sub(&kv->count, 1)`. -/
def countSub : Lfkv V := { kv with count := kv.count - 1 }

/-- What a probe found: the record and its index, or the index where it gave up, with the first
tombstone it passed. -/
inductive ProbeResult
  | found (i : ℕ) (s : SlotId)
  | missing (i : ℕ) (tomb : Option ℕ)
  deriving DecidableEq

/-- The loop of `probe`, with `p` of the `nslots` iterations left. -/
def probeLoop (h : UInt32) (k : Bytes) : ℕ → ℕ → Option ℕ → ProbeResult
  | 0, _, tomb => .missing (kv.home h) tomb
  | p + 1, i, tomb =>
    match kv.slots i with
    | none => .missing i tomb
    | some s =>
      match (kv.recs s).entry with
      | none => probeLoop h k p (kv.succ i) (tomb.or (some i))
      | some _ =>
        if slotKeyEq (kv.recs s) h k then .found i s else probeLoop h k p (kv.succ i) tomb

/-- `probe`, on a table that nobody else writes meanwhile. -/
def probe (k : Bytes) : ProbeResult :=
  kv.probeLoop (bernsteinHash k) k kv.nslots (kv.home (bernsteinHash k)) none

end Lfkv

end Alcove
