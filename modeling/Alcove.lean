import Alcove.Lib.Transition
import Alcove.Lib.Object
import Alcove.Lib.Adjacent
import Alcove.Lib.GappedChain
import Alcove.Lib.Incremental
import Alcove.Lib.Checked
import Alcove.Lib.Bitset
import Alcove.Lib.Bytes
import Alcove.Lib.Cursor
import Alcove.Lib.StateCursor
import Alcove.Lib.MessagePack
import Alcove.Lib.JsonGrammar
import Alcove.Lfkv.Machine
import Alcove.Lfkv.Chain
import Alcove.Lfkv.Invariant
import Alcove.Lfkv.Probe
import Alcove.Lfkv.Unique
import Alcove.Lfkv.Publish
import Alcove.Lfkv.Map
import Alcove.Lfkv.Abstract
import Alcove.Lfkv.Solo
import Alcove.Lfkv.Refine
import Alcove.Epoch.Machine
import Alcove.Epoch.Registry
import Alcove.Epoch.Placed
import Alcove.Epoch.Guarded
import Alcove.Epoch.Safe
import Alcove.Mpsc.Machine
import Alcove.Mpsc.Invariant
import Alcove.Mpsc.Fifo
import Alcove.Resp.Parser
import Alcove.Resp.Client
import Alcove.Numeric.Rational
import Alcove.Hamt.Node
import Alcove.Hamt.Bitmap
import Alcove.Hamt.Invariant
import Alcove.Hamt.Update
import Alcove.Hamt.Reach
import Alcove.Hamt.FiniteMap
import Alcove.Value.Text
import Alcove.Value.Dict
import Alcove.Value.DictMap
import Alcove.Value.Exp
import Alcove.Msgpack.Decode
import Alcove.Msgpack.Encode
import Alcove.Msgpack.Lossless
import Alcove.Json.Decode
import Alcove.Json.Sound
import Alcove.Json.Complete
import Alcove.Json.Encode
import Alcove.Json.RoundTrip
import Alcove.Numeric.Decimal
import Alcove.Numeric.Fold
import Alcove.Numeric.Builtins
import Alcove.Numeric.Opcodes
import Alcove.Numeric.FoldRun
import Alcove.Numeric.TierStep
import Alcove.Numeric.Tiers
import Alcove.Numeric.Unrounded
import Alcove.Equality.Heap
import Alcove.Equality.Structural
import Alcove.Equality.Agree
import Alcove.Equality.Iso
import Alcove.Value.Set
import Alcove.Value.Iso
import Alcove.Value.Pmap
import Alcove.Persist.Dump
import Alcove.Persist.Dumpable
import Alcove.Persist.Load
import Alcove.Persist.Reload
import Alcove.Persist.RoundTrip
import Alcove.Restore.Value
import Alcove.Restore.File
import Alcove.Restore.Damage
import Alcove.Restore.Renumber
import Alcove.Restore.Writer
import Alcove.Restore.Restored
import Alcove.Restore.RoundTrip
import Alcove.Binding.Env
import Alcove.Binding.Machine
import Alcove.Binding.Agree
import Alcove.Binding.Guard
import Alcove.Binding.Assign
import Alcove.Binding.Binder
import Alcove.Binding.Code
import Alcove.Binding.FrameReuse
import Alcove.Binding.TailCall
import Alcove.Binding.Capture
import Alcove.Binding.CaptureSlots
import Alcove.Binding.CaptureSees
import Alcove.Objects.Heap
import Alcove.Objects.Hooks
import Alcove.Objects.Mutators
import Alcove.Objects.Observed
import Alcove.Lib.While
import Alcove.Value.Utf8
import Alcove.Inline.Builtins
import Alcove.Inline.Loops
import Alcove.Inline.Agree
import Alcove.Params.Lists
import Alcove.Params.Bind
import Alcove.Params.Agree
import Alcove.Sequence.Builders
import Alcove.Sequence.Traverse
import Alcove.Sequence.Printer
import Alcove.Sequence.Seen
import Alcove.Lib.GenCache
import Alcove.Gcache.Machine
import Alcove.Gcache.Coherent
import Alcove.Control.Forms
import Alcove.Control.Compile
import Alcove.Control.Machine
import Alcove.Control.Agree
import Alcove.Lfkv.Full
import Alcove.Resp.Integer
import Alcove.Resp.Slots
import Alcove.Lfkv.Calls
import Alcove.Resp.Hash
import Alcove.Resp.HashAgree
import Alcove.Lib.Lineage
import Alcove.Classes.Registry
import Alcove.Classes.Methods
import Alcove.Classes.Resolution
import Alcove.Classes.Invariant
import Alcove.Classes.Agree
import Alcove.Instances.Schema
import Alcove.Instances.Machine
import Alcove.Instances.Kept
import Alcove.Value.Utf8Stream
import Alcove.Value.Utf8Valid
import Alcove.Lib.Rounding
import Alcove.Numeric.Rounded
import Alcove.Numeric.DecimalExact
import Alcove.Numeric.DecimalCompare
import Alcove.Numeric.DecimalText
import Alcove.Value.Codec
import Alcove.Value.HashMap
import Alcove.Value.Scalar
import Alcove.Value.SetAlgebra
import Alcove.Lib.Linked
import Alcove.Resp.Deque
import Alcove.Resp.ListCommands
import Alcove.Resp.ListAgree
import Alcove.Binding.Places
import Alcove.Value.Utf8Index
import Alcove.Objects.Strings
import Alcove.Template.Expand
import Alcove.Template.Filled
import Alcove.Numeric.Fused
import Alcove.Infix.Rewrite
import Alcove.Jit.Recurse
import Alcove.Jit.AddTwo
import Alcove.Jit.MulOne
import Alcove.Codegen.Plan
import Alcove.Codegen.Forms
import Alcove.Codegen.Extends
import Alcove.Codegen.Rollback
import Alcove.Vector.Window
import Alcove.Vector.Cells
import Alcove.Vector.Elements
import Alcove.Vector.Deque
import Alcove.Lib.Loops
import Alcove.Vector.Tensor
import Alcove.Vector.Views
import Alcove.Vector.Simulation
import Alcove.Vector.Errors
import Alcove.Vector.Kinds
import Alcove.Vector.Closed
import Alcove.Vector.Aliasing
import Alcove.Match.Patterns
import Alcove.Match.Instances
import Alcove.Match.Clauses
import Alcove.Generator.Step
import Alcove.Generator.Elements
import Alcove.Value.Utf8Offset
import Alcove.Generator.Visit
import Alcove.Numeric.Reduce
import Alcove.Value.Binary64
import Alcove.Sequence.Sort
import Alcove.Control.Truth
import Alcove.Bgsave.Machine
import Alcove.Bgsave.Whole
import Alcove.Bgsave.Outcome
