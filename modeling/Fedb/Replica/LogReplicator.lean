import Fedb.Log.LogReaderWindow
import Fedb.Log.Writer
import Fedb.Base.Chain

/-! # `LogReplicator`: the binlog a leader writes

`LogReplicator` (`src/replica/log_replicator.cc`) writes the binlog of a
table partition. `AppendEntry` gives each entry the next log index and
appends it to the part file being written, after a roll (`RollWLogFile`)
when no part is being written or the part has grown past
`FLAGS_binlog_single_file_max_size` MB; a new part joins `LogParts` with the
log offset at the time it is opened. Every `ReplicateNode` reads the binlog
with a `LogReader` of its own over the same `LogParts` and directory.
`SetSnapshotLogPartIndex(offset)` records the part a reader from a
snapshot's offset starts in, and `DeleteBinlog()` drops the parts below that
one and below the part of every node's reader, and unlinks their files.

The model keeps of `LogReplicator` what these functions read and write. A
node's reader is a `LogReader` whose parts and directory are the
replicator's (`view`), as in the C++ they are the same objects. The writer
`wh_` is a `Writer` of the part `binlog_index_ - 1`, whose bytes the
directory holds as written. `fopen` does not fail, and whether `unlink`
succeeds is a parameter. A run records the log index of every entry it
writes and the part it goes to (`Reachable`): these are a part's entries.
-/

namespace Fedb.Replica

open Fedb.Log Fedb.Base

/-- `DefaultComparator` on the `uint32_t` part indexes of `LogParts`: a
larger index sorts first. -/
def partComparator (a b : Nat) : Int := if a > b then -1 else if a = b then 0 else 1

/-- What the binlog takes from outside the model: the crc table and the
compressions of the log format, `SerializeToString` of an entry with its
log index set, `FLAGS_binlog_single_file_max_size`,
`FLAGS_binlog_enable_crc`, and whether the `unlink` of the file of a part
succeeds. -/
structure Env where
  table0 : UInt8 → UInt32
  compress : CompressType → List UInt8 → Option (List UInt8)
  uncompress : CompressType → List UInt8 → Option (List UInt8)
  serialize : Nat → List UInt8 → List UInt8
  binlogSingleFileMaxSize : Nat
  binlogEnableCrc : Bool
  unlinkOk : Nat → Bool

/-- The members of `LogReplicator` the binlog uses: `logs_`, the directory
`log_path_` as the part files by index, `wh_` as its `Writer`, `log_offset_`,
`binlog_index_`, `snapshot_last_offset_`, `snapshot_log_part_index_`, and the
`LogReader` of each `ReplicateNode` of `nodes_`. -/
structure LogReplicator where
  logs : LogParts
  files : List (Nat × List UInt8)
  wh : Option Writer
  logOffset : Nat
  binlogIndex : Nat
  snapshotLastOffset : Nat
  snapshotLogPartIndex : Int
  nodes : List LogReader

namespace LogReplicator

variable (env : Env)

/-- The constructor and `Init()` over an empty binlog directory, with the
readers of the nodes. -/
def new (nodes : List LogReader) : LogReplicator := ⟨[], [], none, 0, 0, 0, -1, nodes⟩

/-- The directory with the file of part `i` holding `bytes`. -/
def setFile (i : Nat) (bytes : List UInt8) (files : List (Nat × List UInt8)) : List (Nat × List UInt8) :=
  files.map fun f => if f.1 = i then (i, bytes) else f

/-- A reader of the binlog over `logs_` and the directory, which it shares
with the replicator. -/
def view (st : LogReplicator) (lr : LogReader) : LogReader := lr.withParts st.logs st.files

/-- `RollWLogFile()`: `EndLog()` of the part being written, and a new empty
file for the part `binlog_index_`, which joins `LogParts` with `log_offset_`
as its start offset. -/
def rollWLogFile (st : LogReplicator) : LogReplicator :=
  let files := match st.wh with
    | some w => setFile (st.binlogIndex - 1) (Writer.endLog env.table0 env.compress w).1.dest st.files
    | none => st.files
  { st with
    logs := Chain.insert Prod.fst partComparator (st.binlogIndex, st.logOffset) st.logs
    files := (st.binlogIndex, []) :: files
    wh := some (Writer.new "off")
    binlogIndex := st.binlogIndex + 1 }

/-- The test of `AppendEntry` for a roll: no part is being written, or its
file has grown past `FLAGS_binlog_single_file_max_size` MB. -/
def needsRoll (st : LogReplicator) : Bool :=
  match st.wh with
  | none => true
  | some w => decide (w.dest.length / (1024 * 1024) > env.binlogSingleFileMaxSize)

/-- `AppendEntry(entry)`: a roll if needed, then the entry with the log index
`log_offset_ + 1` written to the part, and counted if the write succeeds;
the second component is what `AppendEntry` returns. -/
def appendEntry (entry : List UInt8) (st : LogReplicator) : LogReplicator × Bool :=
  let st := if needsRoll env st then rollWLogFile env st else st
  match st.wh with
  -- a roll leaves a writer
  | none => (st, false)
  | some w =>
    let r := Writer.addRecord env.table0 env.compress w (env.serialize (st.logOffset + 1) entry)
    let st := { st with wh := some r.1, files := setFile (st.binlogIndex - 1) r.1.dest st.files }
    if r.2 = .ok then ({ st with logOffset := st.logOffset + 1 }, true) else (st, false)

/-- `SetSnapshotLogPartIndex(offset)`: the part a new reader from `offset`
opens with its first roll, or `-1`. -/
def setSnapshotLogPartIndex (offset : Nat) (st : LogReplicator) : LogReplicator :=
  let lr := (LogReader.new st.logs st.files false).setOffset offset
  { st with
    snapshotLastOffset := offset
    snapshotLogPartIndex := (LogReader.rollRLogFile env.binlogEnableCrc lr).1.getLogIndex }

/-- The loop of `DeleteBinlog` over the nodes: the smallest of
`snapshot_log_part_index_` and of every node's `GetLogIndex()`, less one. -/
def minLogIndex (st : LogReplicator) : Int :=
  st.nodes.foldl (fun m lr => if lr.getLogIndex < m then lr.getLogIndex else m) st.snapshotLogPartIndex - 1

/-- `DeleteBinlog()`: with more than one part and `min_log_index` not
negative, the parts at or below `min_log_index` leave `LogParts` (`Split`),
and the file of each is unlinked. -/
def deleteBinlog (st : LogReplicator) : LogReplicator :=
  if st.logs.length ≤ 1 then st
  else if minLogIndex st < 0 then st
  else
    let r := Chain.split Prod.fst partComparator (minLogIndex st).toNat st.logs
    { st with
      logs := r.1
      files := st.files.filter fun f => !(r.2.any fun p => p.1 == f.1 && env.unlinkOk p.1) }

/-- `ReadNextRecord` of the reader of the node `i`; `none` where there is no
such node or the read runs out of fuel. -/
def nodeRead (i fuel : Nat) (st : LogReplicator) : Option LogReplicator :=
  match st.nodes[i]? with
  | none => none
  | some lr =>
    (LogReader.readNextRecord env.binlogEnableCrc env.table0 env.uncompress fuel (view st lr)).map
      fun (lr', _, _) => { st with nodes := st.nodes.set i lr' }

/-- The operations on the binlog of a leader. `RollWLogFile` also stands
alone: `AppendEntries` of a follower rolls before its checks, so that parts
may be opened with no entry between them. -/
inductive Op
  | appendEntry (entry : List UInt8)
  | rollWLogFile
  | setSnapshotLogPartIndex (offset : Nat)
  | deleteBinlog
  | nodeRead (i fuel : Nat)

/-- One operation, with the entries it writes: their log index and part. -/
def step (st : LogReplicator) : Op → Option (LogReplicator × List (Nat × Nat))
  | .appendEntry entry =>
    let r := appendEntry env entry st
    some (r.1, if r.2 then [(r.1.logOffset, r.1.binlogIndex - 1)] else [])
  | .rollWLogFile => some (rollWLogFile env st, [])
  | .setSnapshotLogPartIndex offset => some (setSnapshotLogPartIndex env offset st, [])
  | .deleteBinlog => some (deleteBinlog env st, [])
  | .nodeRead i fuel => (nodeRead env i fuel st).map fun st => (st, [])

/-- The states a run from a new replicator reaches, each with the entries
the run wrote, in order, as (log index, part). The nodes' readers start
before their first roll. -/
inductive Reachable : List (Nat × Nat) → LogReplicator → Prop
  | new (nodes : List LogReader) : (∀ lr ∈ nodes, lr.part = none) → Reachable [] (LogReplicator.new nodes)
  | step {es : List (Nat × Nat)} {st st' : LogReplicator} {w : List (Nat × Nat)} (op : Op) :
    Reachable es st → step env st op = some (st', w) → Reachable (es ++ w) st'

end LogReplicator

end Fedb.Replica
