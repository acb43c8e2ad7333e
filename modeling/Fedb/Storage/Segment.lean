import Fedb.Base.Chain
import Fedb.Base.Skiplist
import Fedb.Storage.TTL

/-! # `Segment`

`fedb::storage::Segment` (`src/storage/segment.h`, `segment.cc`) is one
shard of an index: a skiplist of keys (`entries_`) whose nodes hold, for a
segment of one time index, a `KeyEntry`, and for a segment of `ts_cnt_` time
indexes an array of them; each `KeyEntry` holds a skiplist of the key's
records by timestamp, newest first, each pointing at a shared `DataBlock`.
A deleted or emptied key goes on a free list (`entry_free_list_`) tagged with
the GC version, and is freed two versions later.

The skiplists are their level-0 chains (`Chain`): a record list is a list of
`DataNode`, the key index a list of `EntryNode`. Of a record list's `tail_`,
which `GetLast()` returns, the model keeps whether it is the head sentinel:
on a list with records every operation leaves it at the last one, and on an
empty list it is `NULL`, or the head once a split has kept nothing
(`split_tail_head`). A `KeyEntry` is a value held in its node; a write
through the `KeyEntry*` the C++ holds is a change of that node.

A key node holds a `KeyEntry*` in a segment of one time index and a
`KeyEntry**` array of `ts_cnt_` in a segment of several. Where the code reads
the value as the other type (a collector of one time index on a segment of
several, `GcAllType` reading the array of a segment of one), the behaviour is
undefined and the model's operation gives `none`. The loops of the collectors walk the key index node by node
(`walkIndex`); where one unlinks the node it is at (`entries_->Remove(key)`,
the keys of the index being distinct) the node is dropped from the index and
put on the free list. The data blocks live in a heap of their own (`Blocks`);
`FreeList` drops the reference of each node it frees and deletes a block
with its last reference.

Counters are `Nat`: every amount subtracted is one added before, so their
width plays no part; `sizeof` of the node and entry types are parameters
(`Sizes`). The random heights of new nodes are arguments of the calls that
create them. `Ticket` and the readers' `refs_` are not modelled beyond the
field the collectors test.
-/

namespace Fedb.Storage

open Fedb.Base

/-- `Slice`: the bytes of a key. -/
abbrev Slice := List UInt8

/-- `Slice::compare`: bytewise as `memcmp`, then the shorter first; only the
sign of `memcmp` is used. -/
def sliceCompare : Slice → Slice → Int
  | [], [] => 0
  | [], _ :: _ => -1
  | _ :: _, [] => 1
  | a :: as, b :: bs => if a < b then -1 else if b < a then 1 else sliceCompare as bs

/-- `TimeComparator` (`tcmp`): timestamps in descending order, the body of
`DefaultComparator`. -/
def timeComparator : UInt64 → UInt64 → Int := defaultComparator

/-- `DataBlock`: `dim_cnt_down`, the number of time-list nodes still pointing
at the block, and the length of the row. -/
structure DataBlock where
  dimCntDown : UInt8
  size : Nat
  deriving Repr, DecidableEq

/-- The data blocks, by address; `none` where the block was deleted. -/
abbrev Blocks := List (Option DataBlock)

/-- A node of a record list, `Node<uint64_t, DataBlock*>`: the timestamp, the
block and the height. -/
structure DataNode where
  key : UInt64
  value : Nat
  height : Nat
  deriving Repr, DecidableEq

/-- `KeyEntry`: the record list, `refs_`, `count_`, and whether the list's
`tail_` is its head sentinel. -/
structure KeyEntry where
  entries : List DataNode
  refs : Nat
  count : Nat
  tailHead : Bool
  deriving Repr, DecidableEq

/-- `new KeyEntry(height)`: no records, `tail_` `NULL`. -/
instance : Inhabited KeyEntry := ⟨⟨[], 0, 0, false⟩⟩

/-- A node of the key index, `Node<Slice, void*>`: the key, its `KeyEntry` (a
list of one) or its array of `ts_cnt_` of them, and the height. -/
structure EntryNode where
  key : Slice
  value : List KeyEntry
  height : Nat
  deriving Repr, DecidableEq

/-- A node of `entry_free_list_`: the GC version and the key node. -/
structure FreeNode where
  key : UInt64
  value : EntryNode
  deriving Repr, DecidableEq

/-- `TSDimension`: a time-index column and the record's timestamp in it. -/
structure TSDimension where
  idx : Nat
  ts : UInt64
  deriving Repr, DecidableEq

/-- The members of `Segment` the operations read. -/
structure Segment where
  entries : List EntryNode
  idxCnt : Nat
  idxByteSize : Nat
  pkCnt : Nat
  keyEntryMaxHeight : Nat
  entryFreeList : List FreeNode
  tsCnt : Nat
  gcVersion : UInt64
  tsIdxMap : List (Nat × Nat)
  idxCntVec : List Nat
  ttlOffset : UInt64
  deriving Repr, DecidableEq

/-- `sizeof` of the types the byte counts of `record.h` add up. -/
structure Sizes where
  dataBlockByteSize : Nat
  keyEntryByteSize : Nat
  entryNodeSize : Nat
  dataNodeSize : Nat
  keyEntryPtrSize : Nat

/-- The counters a collection reports: `gc_idx_cnt`, `gc_record_cnt`,
`gc_record_byte_size`. -/
structure GcCnt where
  idxCnt : Nat
  recordCnt : Nat
  recordByteSize : Nat
  deriving Repr, DecidableEq

/-- What a collection changes: the segment, the blocks and the counters. -/
structure GcState where
  seg : Segment
  blocks : Blocks
  gc : GcCnt
  deriving Repr, DecidableEq

section Sizes

variable (sz : Sizes)

/-- `GetRecordSize(value_size)`. -/
def getRecordSize (valueSize : Nat) : Nat := valueSize + sz.dataBlockByteSize

/-- `GetRecordPkIdxSize(height, key_size, key_entry_max_height)`. -/
def getRecordPkIdxSize (height keySize keyEntryMaxHeight : Nat) : Nat :=
  height * 8 + sz.entryNodeSize + sz.keyEntryByteSize + keySize + keyEntryMaxHeight * 8 +
    sz.dataNodeSize

/-- `GetRecordPkMultiIdxSize(height, key_size, key_entry_max_height, ts_cnt)`. -/
def getRecordPkMultiIdxSize (height keySize keyEntryMaxHeight tsCnt : Nat) : Nat :=
  height * 8 + sz.entryNodeSize + keySize +
    (sz.keyEntryPtrSize + sz.keyEntryByteSize + keyEntryMaxHeight * 8 + sz.dataNodeSize) * tsCnt

/-- `GetRecordTsIdxSize(height)`. -/
def getRecordTsIdxSize (height : Nat) : Nat := height * 8 + sz.dataNodeSize

end Sizes

/-! ## The time-index map -/

/-- `ts_idx_map_.find(raw)`. -/
def tsIdxFind (m : List (Nat × Nat)) (raw : Nat) : Option Nat :=
  (m.find? fun q => q.1 == raw).map Prod.snd

/-- `ts_idx_map_[k] = v`. -/
def tsIdxAssign (m : List (Nat × Nat)) (k v : Nat) : List (Nat × Nat) :=
  (k, v) :: m.filter fun q => q.1 != k

/-- The map the constructor builds: `ts_idx_map_[ts_idx_vec[i]] = i` in order. -/
def buildTsIdxMap (tsIdxVec : List Nat) : List (Nat × Nat) :=
  tsIdxVec.zipIdx.foldl (fun m q => tsIdxAssign m q.1 q.2) []

namespace KeyEntry

/-- `entries.Insert(time, row)` and `count_.fetch_add(1)`: the list has a
record, and its tail is its last one (the new node where nothing follows
it). -/
def put (e : KeyEntry) (n : DataNode) : KeyEntry :=
  { e with entries := Chain.insert DataNode.key timeComparator n e.entries, count := e.count + 1,
           tailHead := false }

/-- `entries.GetLast()`, by the key of the node: the last record, the head
sentinel (whose key is `0`) where it is the tail, `NULL` otherwise. -/
def getLast (e : KeyEntry) : Option UInt64 :=
  match e.entries.getLast? with
  | some last => some last.key
  | none => if e.tailHead then some 0 else none

/-- `entries.Split(time)`: the records newer than `time` stay, and the last
of them becomes the tail, the head where none does. Returns the entry and the
records cut off. -/
def split (e : KeyEntry) (time : UInt64) : KeyEntry × List DataNode :=
  let r := Chain.split DataNode.key timeComparator time e.entries
  ({ e with entries := r.1, tailHead := r.1.isEmpty }, r.2)

/-- A split by position, `r` what `SplitByPos`, `SplitByKeyOrPos` or
`SplitByKeyAndPos` keep and cut: where a record is cut, `SplitOnPosNode` (or
`Split`) makes the last record kept the tail, the head where none is; where
none is, the call returned before the cut. -/
def splitAt (e : KeyEntry) (r : List DataNode × List DataNode) : KeyEntry × List DataNode :=
  ({ e with entries := r.1, tailHead := if r.2.isEmpty then e.tailHead else r.1.isEmpty }, r.2)

/-- The record list split off whole, as `FreeEntry` does: `Split` at the
first timestamp cuts after the head. -/
def splitAll (e : KeyEntry) : List DataNode :=
  match e.entries with
  | [] => []
  | first :: _ => (Chain.split DataNode.key timeComparator first.key e.entries).2

end KeyEntry

namespace EntryNode

/-- `(KeyEntry*)node->GetValue()`: the entry of a node that holds one; on an
array the cast is undefined. -/
def entry? (n : EntryNode) : Option KeyEntry :=
  match n.value with
  | [e] => some e
  | _ => none

/-- The node with its single `KeyEntry` replaced. -/
def setEntry (n : EntryNode) (e : KeyEntry) : EntryNode := { n with value := n.value.set 0 e }

end EntryNode

namespace Segment

/-- `Segment(height)`: one time index. -/
def new (height : Nat) (ttlOffset : UInt64) : Segment :=
  { entries := [], idxCnt := 0, idxByteSize := 0, pkCnt := 0, keyEntryMaxHeight := height,
    entryFreeList := [], tsCnt := 1, gcVersion := 0, tsIdxMap := [], idxCntVec := [],
    ttlOffset := ttlOffset }

/-- `Segment(height, ts_idx_vec)`: one time index per entry of `ts_idx_vec`. -/
def newTs (height : Nat) (tsIdxVec : List Nat) (ttlOffset : UInt64) : Segment :=
  { entries := [], idxCnt := 0, idxByteSize := 0, pkCnt := 0, keyEntryMaxHeight := height,
    entryFreeList := [], tsCnt := tsIdxVec.length, gcVersion := 0,
    tsIdxMap := buildTsIdxMap tsIdxVec, idxCntVec := List.replicate tsIdxVec.length 0,
    ttlOffset := ttlOffset }

/-- `entries_->Get(key, entry)`, a `NULL` entry counting as not found. -/
def getEntry (s : Segment) (key : Slice) : Option EntryNode :=
  Chain.get EntryNode.key sliceCompare key s.entries

/-- A write to the node of `key` through the pointer `Get` returned. -/
def modifyEntry (s : Segment) (key : Slice) (f : EntryNode → EntryNode) : Segment :=
  { s with entries := Chain.modify EntryNode.key sliceCompare key f s.entries }

/-- `IncrGcVersion()`. -/
def incrGcVersion (s : Segment) : Segment := { s with gcVersion := s.gcVersion + 1 }

/-- `Delete(key)`: the key node is unlinked and put on the free list at the
current version. -/
def delete (s : Segment) (key : Slice) : Segment × Bool :=
  match Chain.remove EntryNode.key sliceCompare key s.entries with
  | (_, none) => (s, false)
  | (entries, some node) =>
    ({ s with entries := entries,
              entryFreeList := Chain.insert FreeNode.key timeComparator ⟨s.gcVersion, node⟩
                s.entryFreeList }, true)

/-- `NewIterator(key, ticket)`: the records of the key; none in a segment of
several time indexes. A key node of a segment of one holds one entry; the
empty list stands for any other shape, which no write builds there. -/
def newIterator (s : Segment) (key : Slice) : List DataNode :=
  if s.tsCnt > 1 then []
  else match s.getEntry key with
    | some n => (n.entry?.map KeyEntry.entries).getD []
    | none => []

/-- `NewIterator(key, idx, ticket)`: the records of the key in time index `idx`. -/
def newIteratorTs (s : Segment) (key : Slice) (idx : Nat) : List DataNode :=
  match tsIdxFind s.tsIdxMap idx with
  | none => []
  | some pos =>
    if s.tsCnt = 1 then s.newIterator key
    else match s.getEntry key with
      | some n => (n.value.getD pos default).entries
      | none => []

section Put

variable (sz : Sizes)

/-- `Put(key, time, row)` with `RandomHeight()` returning `keyHeight` for a new
key node and `height` for the record. -/
def put (s : Segment) (key : Slice) (time : UInt64) (row : Nat) (keyHeight height : Nat) : Segment :=
  if s.tsCnt > 1 then s
  else
    let record : DataNode := ⟨time, row, height⟩
    match s.getEntry key with
    | some _ =>
      { s.modifyEntry key (fun n => { n with value := n.value.modify 0 (·.put record) }) with
        idxCnt := s.idxCnt + 1,
        idxByteSize := s.idxByteSize + getRecordTsIdxSize sz height }
    | none =>
      let node : EntryNode := ⟨key, [(default : KeyEntry).put record], keyHeight⟩
      { s with
        entries := Chain.insert EntryNode.key sliceCompare node s.entries,
        idxCnt := s.idxCnt + 1,
        pkCnt := s.pkCnt + 1,
        idxByteSize := s.idxByteSize +
          (getRecordPkIdxSize sz keyHeight key.length s.keyEntryMaxHeight + getRecordTsIdxSize sz height) }

/-- The loop of `Put(key, ts_dimension, row)` in a segment of several time
indexes, from the dimension at position `j` on: `arr` is `entry_arr`, `none`
while `NULL`, with whether this call created it. A dimension whose column is
no time index of the segment is skipped; the first one kept looks the entry
up and creates it if absent. -/
def putTsLoop (key : Slice) (row keyHeight : Nat) (height : Nat → Nat) :
    Nat → List TSDimension → Segment × Option (List KeyEntry × Bool) →
      Segment × Option (List KeyEntry × Bool)
  | _, [], acc => acc
  | j, d :: ds, (s, arr) =>
    match tsIdxFind s.tsIdxMap d.idx with
    | none => putTsLoop key row keyHeight height (j + 1) ds (s, arr)
    | some pos =>
      let (s, arr, byteSize) : Segment × (List KeyEntry × Bool) × Nat :=
        match arr with
        | some a => (s, a, 0)
        | none =>
          match s.getEntry key with
          | some n => (s, (n.value, false), 0)
          | none =>
            ({ s with pkCnt := s.pkCnt + 1 }, (List.replicate s.tsCnt default, true),
              getRecordPkMultiIdxSize sz keyHeight key.length s.keyEntryMaxHeight s.tsCnt)
      let record : DataNode := ⟨d.ts, row, height j⟩
      let arr := (arr.1.modify pos (·.put record), arr.2)
      let s := { s with
        idxByteSize := s.idxByteSize + (byteSize + getRecordTsIdxSize sz (height j)),
        idxCntVec := s.idxCntVec.modify pos (· + 1) }
      putTsLoop key row keyHeight height (j + 1) ds (s, some arr)

/-- `Put(key, ts_dimension, row)`, `height j` the height `RandomHeight()`
returns for the record of the `j`-th dimension. With one time index, a single
dimension is put whatever its column; of several, the first whose column is in
`ts_idx_map_`. With several, the entry array built by the loop is the value of
the key node, linked if the loop created it. -/
def putTs (s : Segment) (key : Slice) (tsDimension : List TSDimension) (row keyHeight : Nat)
    (height : Nat → Nat) : Segment :=
  match tsDimension with
  | [] => s
  | d :: ds =>
    if s.tsCnt = 1 then
      if ds = [] then s.put sz key d.ts row keyHeight (height 0)
      else if s.tsIdxMap ≠ [] then
        match tsDimension.zipIdx.find? (fun q => (tsIdxFind s.tsIdxMap q.1.idx).isSome) with
        | some (d, j) => s.put sz key d.ts row keyHeight (height j)
        | none => s
      else s
    else
      match putTsLoop sz key row keyHeight height 0 tsDimension (s, none) with
      | (s, none) => s
      | (s, some (arr, true)) =>
        { s with entries := Chain.insert EntryNode.key sliceCompare ⟨key, arr, keyHeight⟩ s.entries }
      | (s, some (arr, false)) => s.modifyEntry key fun n => { n with value := arr }

end Put

/-! ## Freeing -/

section Free

variable (sz : Sizes)

/-- The release of a freed node's block: the block loses one reference, and
is deleted with its last, which counts it in `gc_record_cnt`. A block already
deleted is an access the C++ leaves undefined; the model changes nothing. -/
def releaseBlock (blocks : Blocks) (gc : GcCnt) (p : Nat) : Blocks × GcCnt :=
  match blocks.getD p none with
  | some b =>
    if b.dimCntDown > 1 then (blocks.set p (some { b with dimCntDown := b.dimCntDown - 1 }), gc)
    else (blocks.set p none,
      { gc with recordByteSize := gc.recordByteSize + getRecordSize sz b.size,
                recordCnt := gc.recordCnt + 1 })
  | none => (blocks, gc)

/-- `FreeList(node, gc_idx_cnt, ...)` over the nodes from `node` on, `idxCnt`
the counter passed as `gc_idx_cnt`: each node is counted, its index bytes
are taken off `idx_byte_size_` and its block released. -/
def freeList (st : GcState) (idxCnt : Nat) : List DataNode → GcState × Nat
  | [] => (st, idxCnt)
  | tmp :: rest =>
    let seg := { st.seg with idxByteSize := st.seg.idxByteSize - getRecordTsIdxSize sz tmp.height }
    let (blocks, gc) := releaseBlock sz st.blocks st.gc tmp.value
    freeList ⟨seg, blocks, gc⟩ (idxCnt + 1) rest

/-- The loop of `FreeEntry` over the `ts_cnt_` entries of a key node, from
index `i` on: each record list is freed whole and its count taken off
`idx_cnt_vec_[i]`. -/
def freeEntryLoop (arr : List KeyEntry) : List Nat → GcState → GcState
  | [], st => st
  | i :: is, st =>
    let old := st.gc.idxCnt
    let (st, idxCnt) := freeList sz st st.gc.idxCnt (arr.getD i default).splitAll
    freeEntryLoop arr is
      { st with gc := { st.gc with idxCnt := idxCnt },
                seg := { st.seg with idxCntVec := st.seg.idxCntVec.modify i (· - (idxCnt - old)) } }

/-- `FreeEntry(entry_node, ...)`: every record list of the key is freed, and
the key's bytes and records are taken off the counters. -/
def freeEntry (st : GcState) (entryNode : EntryNode) : Option GcState :=
  if st.seg.tsCnt > 1 then
    let st := freeEntryLoop sz entryNode.value (List.range st.seg.tsCnt) st
    some { st with seg := { st.seg with
      idxByteSize := st.seg.idxByteSize - getRecordPkMultiIdxSize sz entryNode.height
        entryNode.key.length st.seg.keyEntryMaxHeight st.seg.tsCnt } }
  else
    entryNode.entry?.map fun entry =>
      let old := st.gc.idxCnt
      let (st, idxCnt) := freeList sz st st.gc.idxCnt entry.splitAll
      { st with
        gc := { st.gc with idxCnt := idxCnt },
        seg := { st.seg with
          idxByteSize := st.seg.idxByteSize - getRecordPkIdxSize sz entryNode.height
            entryNode.key.length st.seg.keyEntryMaxHeight,
          idxCnt := st.seg.idxCnt - (idxCnt - old) } }

/-- `GcEntryFreeList(version, ...)`: the key nodes put on the free list at or
before `version` are split off and freed, each taken off `pk_cnt_`. -/
def gcEntryFreeList (st : GcState) (version : UInt64) : Option GcState :=
  let (kept, cut) := Chain.split FreeNode.key timeComparator version st.seg.entryFreeList
  cut.foldlM (fun st node =>
      (freeEntry sz st node.value).map fun st => { st with seg := { st.seg with pkCnt := st.seg.pkCnt - 1 } })
    { st with seg := { st.seg with entryFreeList := kept } }

/-- `GcFreeList(...)`, `gcDeletedPkVersionDelta` the flag
`gc_deleted_pk_version_delta`. -/
def gcFreeList (st : GcState) (gcDeletedPkVersionDelta : UInt64) : Option GcState :=
  let curVersion := st.seg.gcVersion
  if curVersion < gcDeletedPkVersionDelta then some st
  else gcEntryFreeList sz st (curVersion - gcDeletedPkVersionDelta)

end Free


/-! ## The collectors -/

/-- What the body of a collector's loop does with the key node it is at. -/
inductive Visit
  /-- the node stays, with its record lists as the body left them -/
  | keep (node : EntryNode)
  /-- `entries_->Remove(key)`, and the node goes on the free list -/
  | unlink (node : EntryNode)
  /-- `return` from the whole loop -/
  | stop (node : EntryNode)
  deriving Repr, DecidableEq

/-- The walk of a collector over the key index, `done` the nodes passed and
kept, newest first. The body does not read the index; where it is undefined
at a node, so is the walk. -/
def walkIndex (step : GcState → EntryNode → Option (GcState × Visit)) :
    GcState → List EntryNode → List EntryNode → Option GcState
  | st, done, [] => some { st with seg := { st.seg with entries := done.reverse } }
  | st, done, n :: rest =>
    match step st n with
    | none => none
    | some (st, .keep n) => walkIndex step st (n :: done) rest
    | some (st, .unlink n) =>
      walkIndex step
        { st with seg := { st.seg with
          entryFreeList := Chain.insert FreeNode.key timeComparator ⟨st.seg.gcVersion, n⟩
            st.seg.entryFreeList } }
        done rest
    | some (st, .stop n) => some { st with seg := { st.seg with entries := done.reverse ++ n :: rest } }

section Collect

variable (sz : Sizes)

/-- The end of every loop body: `FreeList` of the nodes `r.2` cut off the
entry `r.1` with a fresh `entry_gc_idx_cnt`, which is taken off `count_` and
added to `gc_idx_cnt`. Returns the entry left. -/
def collect (st : GcState) (r : KeyEntry × List DataNode) : GcState × KeyEntry :=
  let (st, entryGcIdxCnt) := freeList sz st 0 r.2
  ({ st with gc := { st.gc with idxCnt := st.gc.idxCnt + entryGcIdxCnt } },
    { r.1 with count := r.1.count - entryGcIdxCnt })

/-- A split made only when no reader holds the entry (`refs_ <= 0`). -/
def splitIfFree (e : KeyEntry) (r : KeyEntry × List DataNode) : KeyEntry × List DataNode :=
  if e.refs ≤ 0 then r else (e, [])

/-- The loop shared by `Gc4Head`, `Gc4TTL`, `Gc4TTLAndHead` and
`Gc4TTLOrHead`: walk the index, then take what was freed off `idx_cnt_`. -/
def gcIndex (step : GcState → EntryNode → Option (GcState × Visit)) (st : GcState) : Option GcState :=
  let old := st.gc.idxCnt
  (walkIndex step st [] st.seg.entries).map fun st =>
    { st with seg := { st.seg with idxCnt := st.seg.idxCnt - (st.gc.idxCnt - old) } }

/-- The body of `Gc4Head(keep_cnt)`: all but the first `keep_cnt` records go. -/
def gc4HeadStep (keepCnt : UInt64) (st : GcState) (n : EntryNode) : Option (GcState × Visit) :=
  n.entry?.map fun e =>
    let (st, e) := collect sz st (splitIfFree e (e.splitAt (Chain.splitByPos keepCnt.toNat e.entries)))
    (st, .keep (n.setEntry e))

/-- `Gc4Head(keep_cnt, ...)`. -/
def gc4Head (st : GcState) (keepCnt : UInt64) : Option GcState :=
  if keepCnt = 0 then some st else gcIndex (gc4HeadStep sz keepCnt) st

/-- The body of `Gc4TTL(time)`: an entry whose tail is newer than `time` is
skipped; otherwise the records at or before `time` go, and an entry left
empty is unlinked. -/
def gc4TTLStep (time : UInt64) (st : GcState) (n : EntryNode) : Option (GcState × Visit) :=
  n.entry?.map fun e =>
    match e.getLast with
    | none => (st, .keep n)
    | some last =>
      if last > time then (st, .keep n)
      else
        let (st, e) := collect sz st (splitIfFree e (e.split time))
        (st, if e.entries.isEmpty then .unlink (n.setEntry e) else .keep (n.setEntry e))

/-- `Gc4TTL(time, ...)`. -/
def gc4TTL (st : GcState) (time : UInt64) : Option GcState := gcIndex (gc4TTLStep sz time) st

/-- The body of `Gc4TTLAndHead(time, keep_cnt)`: as `Gc4TTL`, with
`SplitByKeyAndPos`, and no entry unlinked. -/
def gc4TTLAndHeadStep (time keepCnt : UInt64) (st : GcState) (n : EntryNode) :
    Option (GcState × Visit) :=
  n.entry?.map fun e =>
    match e.getLast with
    | none => (st, .keep n)
    | some last =>
      if last > time then (st, .keep n)
      else
        let (st, e) := collect sz st
          (splitIfFree e (e.splitAt (Chain.splitByKeyAndPos DataNode.key timeComparator time keepCnt.toNat
            e.entries)))
        (st, .keep (n.setEntry e))

/-- `Gc4TTLAndHead(time, keep_cnt, ...)`: disabled when either is `0`. -/
def gc4TTLAndHead (st : GcState) (time keepCnt : UInt64) : Option GcState :=
  if time = 0 ∨ keepCnt = 0 then some st else gcIndex (gc4TTLAndHeadStep sz time keepCnt) st

/-- The body of `Gc4TTLOrHead(time, keep_cnt)`: every entry with a tail is
split by `SplitByKeyOrPos`, and an entry left empty is unlinked. -/
def gc4TTLOrHeadStep (time keepCnt : UInt64) (st : GcState) (n : EntryNode) :
    Option (GcState × Visit) :=
  n.entry?.map fun e =>
    match e.getLast with
    | none => (st, .keep n)
    | some _ =>
      let (st, e) := collect sz st
        (splitIfFree e (e.splitAt (Chain.splitByKeyOrPos DataNode.key timeComparator time keepCnt.toNat
          e.entries)))
      (st, if e.entries.isEmpty then .unlink (n.setEntry e) else .keep (n.setEntry e))

/-- `Gc4TTLOrHead(time, keep_cnt, ...)`: a `time` of `0` means no time
bound, a `keep_cnt` of `0` no count bound. -/
def gc4TTLOrHead (st : GcState) (time keepCnt : UInt64) : Option GcState :=
  if time = 0 ∧ keepCnt = 0 then some st
  else if time = 0 then gc4Head sz st keepCnt
  else if keepCnt = 0 then gc4TTL sz st time
  else gcIndex (gc4TTLOrHeadStep sz time keepCnt) st

/-- `ExecuteGc(ttl_st, ...)` at `cur_time` (milliseconds): the collector of
the TTL's type, at the expire time `cur_time - ttl_offset_ - abs_ttl`. -/
def executeGc (st : GcState) (ttlSt : TTLSt) (curTime : UInt64) : Option GcState :=
  match ttlSt.ttlType with
  | .kAbsoluteTime =>
    if ttlSt.absTtl = 0 then some st else gc4TTL sz st (curTime - st.seg.ttlOffset - ttlSt.absTtl)
  | .kLatestTime => if ttlSt.latTtl = 0 then some st else gc4Head sz st ttlSt.latTtl
  | .kAbsAndLat =>
    if ttlSt.absTtl = 0 ∨ ttlSt.latTtl = 0 then some st
    else gc4TTLAndHead sz st (curTime - st.seg.ttlOffset - ttlSt.absTtl) ttlSt.latTtl
  | .kAbsOrLat =>
    if ttlSt.absTtl = 0 ∧ ttlSt.latTtl = 0 then some st
    else
      gc4TTLOrHead sz st (if ttlSt.absTtl = 0 then 0 else curTime - st.seg.ttlOffset - ttlSt.absTtl)
        ttlSt.latTtl
  | .kRelativeTime => some st

/-- What the body of `GcAllType` does for one TTL of the map at a record
list: `none` where the type is unknown (`return`), `some none` where the list
is skipped (`continue_flag`), otherwise the split and whether the list counts
towards `empty_cnt`. The TTL's `abs_ttl` is the time bound as it is. -/
def gcAllTypeSplit (ttl : TTLSt) (e : KeyEntry) :
    Option (Option ((KeyEntry × List DataNode) × Bool)) :=
  match ttl.ttlType with
  | .kAbsoluteTime =>
    match e.getLast with
    | none => some none
    | some last =>
      if last > ttl.absTtl then some none
      else
        let r := splitIfFree e (e.split ttl.absTtl)
        some (some (r, r.1.entries.isEmpty))
  | .kLatestTime =>
    some (some (splitIfFree e (e.splitAt (Chain.splitByPos ttl.latTtl.toNat e.entries)), false))
  | .kAbsAndLat =>
    match e.getLast with
    | none => some none
    | some last =>
      if last > ttl.absTtl then some none
      else some (some (splitIfFree e (e.splitAt (Chain.splitByKeyAndPos DataNode.key timeComparator
        ttl.absTtl ttl.latTtl.toNat e.entries)), false))
  | .kAbsOrLat =>
    match e.getLast with
    | none => some none
    | some _ =>
      let r := splitIfFree e
        (if ttl.absTtl = 0 then e.splitAt (Chain.splitByPos ttl.latTtl.toNat e.entries)
         else if ttl.latTtl = 0 then e.split ttl.absTtl
         else e.splitAt (Chain.splitByKeyOrPos DataNode.key timeComparator ttl.absTtl ttl.latTtl.toNat
          e.entries))
      some (some (r, r.1.entries.isEmpty))
  | .kRelativeTime => none

/-- The loop of `GcAllType` over the TTL map at one key node: each TTL that
needs a collection and names a time index of the segment collects that
index's record list, which is then taken off `idx_cnt_vec_`. Returns the
entry array, and `empty_cnt` unless the loop returned. -/
def gcAllTypeLoop (st : GcState) (arr : List KeyEntry) (emptyCnt : Nat) :
    List (Nat × TTLSt) → Option (GcState × List KeyEntry × Option Nat)
  | [] => some (st, arr, some emptyCnt)
  | (raw, ttl) :: kvs =>
    if ttl.needGc = false then gcAllTypeLoop st arr emptyCnt kvs
    else
      match tsIdxFind st.seg.tsIdxMap raw with
      | none => gcAllTypeLoop st arr emptyCnt kvs
      | some pos =>
        if pos ≥ st.seg.tsCnt then gcAllTypeLoop st arr emptyCnt kvs
        -- `entry_arr[pos]` on the single `KeyEntry*` of a segment of one time index
        else if st.seg.tsCnt ≤ 1 then none
        else
          let e := arr.getD pos default
          match gcAllTypeSplit ttl e with
          | none => some (st, arr, none)
          | some none => gcAllTypeLoop st arr emptyCnt kvs
          | some (some (r, emptied)) =>
            let (st', e) := collect sz st r
            let st := { st' with seg := { st'.seg with
              idxCntVec := st'.seg.idxCntVec.modify pos (· - (st'.gc.idxCnt - st.gc.idxCnt)) } }
            gcAllTypeLoop st (arr.set pos e) (if emptied then emptyCnt + 1 else emptyCnt) kvs

/-- The body of `GcAllType` at a key node: a key all of whose `ts_cnt_` record
lists were counted empty, and are, is unlinked. -/
def gcAllTypeStep (ttlStMap : List (Nat × TTLSt)) (st : GcState) (n : EntryNode) :
    Option (GcState × Visit) :=
  (gcAllTypeLoop sz st n.value 0 ttlStMap).map fun
    | (st, arr, none) => (st, .stop { n with value := arr })
    | (st, arr, some emptyCnt) =>
      let n := { n with value := arr }
      if emptyCnt = st.seg.tsCnt ∧
          (List.range st.seg.tsCnt).all fun i => (arr.getD i default).entries.isEmpty then
        (st, .unlink n)
      else (st, .keep n)

/-- `GcAllType(ttl_st_map, ...)`: the map in the order of its keys. -/
def gcAllType (st : GcState) (ttlStMap : List (Nat × TTLSt)) : Option GcState :=
  walkIndex (gcAllTypeStep sz ttlStMap) st [] st.seg.entries

/-- `ExecuteGc(ttl_st_map, ...)`: a segment of one time index collects by the
first TTL; otherwise every key of the map must be a time index, one TTL must
need a collection, and `GcAllType` runs. `cur_time` is not read there. -/
def executeGcMap (st : GcState) (ttlStMap : List (Nat × TTLSt)) (curTime : UInt64) : Option GcState :=
  match ttlStMap with
  | [] => some st
  | (_, first) :: _ =>
    if st.seg.tsCnt ≤ 1 then executeGc sz st first curTime
    else if ttlStMap.any fun kv => (tsIdxFind st.seg.tsIdxMap kv.1).isNone then some st
    else if ttlStMap.any (fun kv => kv.2.needGc) = false then some st
    else gcAllType sz st ttlStMap

end Collect

end Segment

end Fedb.Storage
