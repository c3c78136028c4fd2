import Alcove.Lfkv.Calls
import Alcove.Value.Dict

/-!
# The hash commands

`HSET`, `HDEL`, `HGET`, `HEXISTS`, `HLEN`, `HKEYS`, `HVALS` and `HGETALL` as programs that call the
keyspace: a hash is a `dict_t` from fields to blobs, and a command that changes it clones it and swaps
the clone in. A field is a C string there; one with a NUL byte is passed over by `HSET` and `HDEL`, and
is not found.

`FieldMap.Answers` says what the commands are for: a finite map from fields to values.
-/

namespace Alcove.Resp

open Lfkv

/-! ## Commands -/

/-- A value of the keyspace: a hash, or of another type. -/
inductive Stored
  | hash (d : Dict Bytes)
  | other
  deriving DecidableEq

/-- A reply; an array has the length in its header and its elements. -/
inductive Reply
  | int (n : ℤ)
  | nil
  | bulk (b : Bytes)
  | array (n : ℕ) (elements : List Bytes)
  | err (msg : String)
  deriving DecidableEq

abbrev wrongArgs : Reply := .err "ERR wrong number of arguments"
abbrev wrongType : Reply :=
  .err "WRONGTYPE Operation against a key holding the wrong kind of value"
abbrev tooManyRetries : Reply := .err "ERR OOM or too many retries"

/-- `resp_dup_key` -/
def respDupKey (p : Bytes) : Option CStr := if h : 0 ∉ p then some ⟨p, h⟩ else none

/-- `resp_dict_clone` -/
def respDictClone (src : Dict Bytes) : Dict Bytes := Dict.ofList src.entries

/-- `resp_dict_field_set`, and whether a field was created -/
def respDictFieldSet (d : Dict Bytes) (fk : CStr) (val : Bytes) : Dict Bytes × ℕ :=
  (d.set fk val, if d.used < (d.set fk val).used then 1 else 0)

/-- The loop of `cmd_hset` over fields and values. -/
def setFields : Dict Bytes → List Bytes → Dict Bytes × ℕ
  | d, f :: v :: args =>
    match respDupKey f with
    | none => setFields d args
    | some fk =>
      let (d, created) := respDictFieldSet d fk v
      let (d, more) := setFields d args
      (d, created + more)
  | d, _ => (d, 0)

/-- The loop of `cmd_hdel` over fields. -/
def delFields : Dict Bytes → List Bytes → Dict Bytes × ℕ
  | d, [] => (d, 0)
  | d, f :: args =>
    match respDupKey f with
    | none => delFields d args
    | some fk =>
      let (d, found) := d.erase fk
      let (d, more) := delFields d args
      (d, (if found then 1 else 0) + more)

section Commands

variable (key : Bytes) (args : List Bytes)

/-- The rounds of `cmd_hset` that are left. -/
def hsetLoop : ℕ → Prog Stored Reply
  | 0 => .ret tooManyRetries
  | n + 1 => .call (.get key) fun cur =>
    match cur.value with
    | some .other => .ret wrongType
    | some (.hash d) =>
      let (fresh, created) := setFields (respDictClone d) args
      .call (.cas key (some (.hash d)) (some (.hash fresh))) fun ok =>
        if ok = .int 1 then .ret (.int created) else hsetLoop n
    | none =>
      let (fresh, created) := setFields Dict.create args
      .call (.setNx key (.hash fresh)) fun ok =>
        if ok = .int 1 then .ret (.int created) else hsetLoop n

/-- `cmd_hset`, with the arguments behind the key -/
def cmdHset : Prog Stored Reply :=
  if args.length < 2 then .ret wrongArgs
  else if args.length % 2 ≠ 0 then .ret (.err "ERR wrong number of arguments for 'hset'")
  else hsetLoop key args 1001

/-- The rounds of `cmd_hdel` that are left. -/
def hdelLoop : ℕ → Prog Stored Reply
  | 0 => .ret tooManyRetries
  | n + 1 => .call (.get key) fun cur =>
    match cur.value with
    | none => .ret (.int 0)
    | some .other => .ret wrongType
    | some (.hash d) =>
      let (fresh, deleted) := delFields (respDictClone d) args
      let swapped := if fresh.used = 0 then none else some (Stored.hash fresh)
      .call (.cas key (some (.hash d)) swapped) fun ok =>
        if ok = .int 1 then .ret (.int deleted) else hdelLoop n

/-- `cmd_hdel` -/
def cmdHdel : Prog Stored Reply :=
  if args.length < 1 then .ret wrongArgs else hdelLoop key args 1001

/-- A command that looks at the hash of the key, if there is one. -/
def lookAt (missing : Reply) (k : Dict Bytes → Reply) : Prog Stored Reply :=
  .call (.get key) fun v =>
    match v.value with
    | none => .ret missing
    | some .other => .ret wrongType
    | some (.hash d) => .ret (k d)

/-- `cmd_hget` -/
def cmdHget : Prog Stored Reply :=
  match args with
  | [f] => lookAt key .nil fun d => (((respDupKey f).bind d.find).map Reply.bulk).getD .nil
  | _ => .ret wrongArgs

/-- `cmd_hexists` -/
def cmdHexists : Prog Stored Reply :=
  match args with
  | [f] => lookAt key (.int 0) fun d => .int (if ((respDupKey f).bind d.find).isSome then 1 else 0)
  | _ => .ret wrongArgs

/-- `cmd_hlen` -/
def cmdHlen : Prog Stored Reply :=
  match args with
  | [] => lookAt key (.int 0) fun d => .int d.used
  | _ => .ret wrongArgs

/-- `hash_emit` -/
def hashEmit (d : Dict Bytes) (keys vals : Bool) : Reply :=
  .array (d.used * if keys && vals then 2 else 1)
    (d.entries.flatMap fun kv => (if keys then [kv.1.bytes] else []) ++ if vals then [kv.2] else [])

/-- `cmd_hkeys_hvals_hgetall` -/
def cmdHkeysHvalsHgetall (keys vals : Bool) : Prog Stored Reply :=
  match args with
  | [] => lookAt key (.array 0 []) fun d => hashEmit d keys vals
  | _ => .ret wrongArgs

end Commands

/-- The commands -/
inductive HCommand
  | hset
  | hdel
  | hget
  | hexists
  | hlen
  | hkeys
  | hvals
  | hgetall

/-- A command with the arguments behind its key -/
def HCommand.prog (key : Bytes) (args : List Bytes) : HCommand → Prog Stored Reply
  | hset => cmdHset key args
  | hdel => cmdHdel key args
  | hget => cmdHget key args
  | hexists => cmdHexists key args
  | hlen => cmdHlen key args
  | hkeys => cmdHkeysHvalsHgetall key args true false
  | hvals => cmdHkeysHvalsHgetall key args false true
  | hgetall => cmdHkeysHvalsHgetall key args true true

/-- Commands on one key, one after the other, with their replies. -/
def session (key : Bytes) : List (HCommand × List Bytes) → Prog Stored (List Reply)
  | [] => .ret []
  | (cmd, args) :: cmds => (cmd.prog key args).bind fun r =>
    (session key cmds).bind fun replies => .ret (r :: replies)

/-! ## What the commands are for -/

/-- A map from fields to values -/
abbrev FieldMap : Type := Bytes → Option Bytes

namespace FieldMap

def empty : FieldMap := fun _ => none

/-- The fields of the map -/
def dom (m : FieldMap) : Set Bytes := {f | m f ≠ none}

/-- The map with some fields set, one after the other. -/
def setAll : FieldMap → List (Bytes × Bytes) → FieldMap
  | m, [] => m
  | m, (f, v) :: kvs => setAll (Function.update m f (some v)) kvs

/-- The map without some fields. -/
def delAll (m : FieldMap) (fs : List Bytes) : FieldMap := fun f => if f ∈ fs then none else m f

/-- The list has every pair of the map once. -/
structure Lists (m : FieldMap) (l : List (Bytes × Bytes)) : Prop where
  nodup : (l.map Prod.fst).Nodup
  mem : ∀ f v, (f, v) ∈ l ↔ m f = some v

end FieldMap

/-- Fields and values in pairs -/
def pairs : List Bytes → List (Bytes × Bytes)
  | f :: v :: args => (f, v) :: pairs args
  | _ => []

/-- Whether a field can be a key of the hash. -/
def storable (f : Bytes) : Bool := !f.contains 0

/-- What a command replies and leaves of the map, when its fields are taken as `keep` says: fields that
are not kept are passed over by `HSET` and `HDEL`. -/
noncomputable def FieldMap.Answers (keep : Bytes → Bool) (m : FieldMap) (args : List Bytes) (r : Reply)
    (m' : FieldMap) : HCommand → Prop
  | .hset => if args.length < 2 ∨ args.length % 2 ≠ 0 then (∃ msg, r = .err msg) ∧ m' = m
    else m' = m.setAll ((pairs args).filter fun p => keep p.1) ∧
      r = .int ((m'.dom \ m.dom).ncard : ℕ)
  | .hdel => if args.length < 1 then (∃ msg, r = .err msg) ∧ m' = m
    else m' = m.delAll (args.filter keep) ∧ r = .int ((m.dom \ m'.dom).ncard : ℕ)
  | .hget => m' = m ∧ match args with
    | [f] => r = ((m f).map Reply.bulk).getD .nil
    | _ => ∃ msg, r = .err msg
  | .hexists => m' = m ∧ match args with
    | [f] => r = .int (if (m f).isSome then 1 else 0)
    | _ => ∃ msg, r = .err msg
  | .hlen => m' = m ∧ match args with
    | [] => r = .int (m.dom.ncard : ℕ)
    | _ => ∃ msg, r = .err msg
  | .hkeys => m' = m ∧ match args with
    | [] => ∃ l, m.Lists l ∧ r = .array l.length (l.map Prod.fst)
    | _ => ∃ msg, r = .err msg
  | .hvals => m' = m ∧ match args with
    | [] => ∃ l, m.Lists l ∧ r = .array l.length (l.map Prod.snd)
    | _ => ∃ msg, r = .err msg
  | .hgetall => m' = m ∧ match args with
    | [] => ∃ l, m.Lists l ∧ r = .array (l.length * 2) (l.flatMap fun p => [p.1, p.2])
    | _ => ∃ msg, r = .err msg

/-- The replies of a session are those of the map. -/
inductive FieldMap.Session (keep : Bytes → Bool) :
    FieldMap → List (HCommand × List Bytes) → List Reply → Prop
  | nil (m : FieldMap) : Session keep m [] []
  | cons {m m' : FieldMap} {cmd : HCommand} {args : List Bytes} {r : Reply}
      {cmds : List (HCommand × List Bytes)} {replies : List Reply}
      (h : m.Answers keep args r m' cmd) (rest : Session keep m' cmds replies) :
      Session keep m ((cmd, args) :: cmds) (r :: replies)

end Alcove.Resp
