import Fedb.Storage.Segment

/-! # `MemTable::Put` and `MemTable::NewIterator`

A write to a `MemTable` (`src/storage/mem_table.cc`) carries one dimension
per column key it writes, a key for that column key's index, and for the
second overload the record's timestamps by time column. `Put` maps each
dimension to its inner index (`column_key_2_inner_index_`), allocates one
`DataBlock` whose `dim_cnt_down` is the number of ready index definitions
the write reaches, and hands the block to one segment of every inner index
with a ready definition, by the key's hash. The segment decides on its own
how many time-list nodes point at the block.

The two decisions are made apart. With one time column per inner index, a
segment of one time index takes a write of one timestamp whatever its column
(`Segment::Put` with `ts_size == 1`), where the count skips the definitions
whose column the write does not carry: a write for one column links a node
in every inner index but counts one (`put_links_more_than_counted`), and the
iterator of another column sees a record it was not given
(`put_routes_other_column`).

A block is an address in `Blocks`; the segments' `Sizes`, the hash of a key
to its segment and the heights `RandomHeight` returns are parameters.
`TableIndex` is its `indexs_` view, the one of a table without several time
columns per column key.
-/

namespace Fedb.Storage

/-- An `IndexDef` as the write and read paths read it: the position of its
inner index, the time column (`GetTsColumn()->GetTsIdx()`) if any, and
`IsReady()`. -/
structure IndexDef where
  innerPos : Nat
  tsCol : Option Nat
  ready : Bool
  deriving Repr, DecidableEq

/-- `TableIndex`: the index definitions by id, the definitions of each inner
index, and `column_key_2_inner_index_`. -/
structure TableIndex where
  indexs : List IndexDef
  innerIndexs : List (List IndexDef)
  columnKey2InnerIndex : List Nat
  deriving Repr, DecidableEq

namespace TableIndex

/-- `GetInnerIndexPos(column_key_pos)`. -/
def getInnerIndexPos (t : TableIndex) (pos : Nat) : Option Nat := t.columnKey2InnerIndex[pos]?

/-- `GetIndex(idx, ts_idx)`: the definition `idx` if its time column is `ts_idx`. -/
def getIndexTs (t : TableIndex) (idx tsIdx : Nat) : Option IndexDef :=
  match t.indexs[idx]? with
  | some d => if d.tsCol = some tsIdx then some d else none
  | none => none

end TableIndex

/-- A `Dimension` of a write: the column key position and the key. -/
structure Dimension where
  idx : Nat
  key : Slice
  deriving Repr, DecidableEq

/-- The members of `MemTable` a write reads and changes: `segments_[i][j]`
for inner index `i` and segment `j`, and the blocks. -/
structure MemTable where
  tableIndex : TableIndex
  segCnt : Nat
  segments : List (List Segment)
  blocks : Blocks
  recordCnt : Nat
  recordByteSize : Nat
  deriving Repr, DecidableEq

namespace MemTable

/-- `emplace(pos, key)` into a `std::map` ordered by position: a position
already present keeps its key. -/
def emplace (pos : Nat) (key : Slice) : List (Nat × Slice) → List (Nat × Slice)
  | [] => [(pos, key)]
  | (p, k) :: rest =>
    if pos = p then (p, k) :: rest
    else if pos < p then (pos, key) :: (p, k) :: rest
    else (p, k) :: emplace pos key rest

/-- The loop building `inner_index_key_map`: `none` for a dimension no column
key maps. -/
def innerIndexKeyMap (t : TableIndex) : List Dimension → List (Nat × Slice) → Option (List (Nat × Slice))
  | [], m => some m
  | d :: ds, m =>
    match t.getInnerIndexPos d.idx with
    | none => none
    | some pos => innerIndexKeyMap t ds (emplace pos d.key m)

/-- The definitions of an inner index `Put` counts in `real_ref_cnt`: ready,
and with their time column among the write's if they have one. -/
def countedDefs (tsDimensions : List TSDimension) (defs : List IndexDef) : Nat :=
  (defs.filter fun d =>
    d.ready && match d.tsCol with
      | some c => tsDimensions.any (·.idx == c)
      | none => true).length

/-- `real_ref_cnt`: `none` where an inner position has no inner index. -/
def realRefCnt (t : TableIndex) (tsDimensions : List TSDimension) (m : List (Nat × Slice)) : Option Nat :=
  m.foldl (fun acc kv => acc.bind fun n => (t.innerIndexs[kv.1]?).map fun defs => n + countedDefs tsDimensions defs)
    (some 0)

/-- `real_ref_cnt` of `Put(time, value, dimensions)`: the ready definitions;
`none` where an inner position has no inner index or a definition has a time
column. -/
def realRefCntPlain (t : TableIndex) (m : List (Nat × Slice)) : Option Nat :=
  m.foldl (fun acc kv => acc.bind fun n => (t.innerIndexs[kv.1]?).bind fun defs =>
      if defs.any (·.tsCol.isSome) then none else some (n + (defs.filter (·.ready)).length))
    (some 0)

/-- Whether an inner index has a ready definition (`need_put`). -/
def needPut (t : TableIndex) (pos : Nat) : Bool := ((t.innerIndexs[pos]?).getD []).any (·.ready)

/-- `segments_[pos][seg_idx]`, changed by `f`. -/
def modifySegment (m : MemTable) (pos segIdx : Nat) (f : Segment → Segment) : MemTable :=
  { m with segments := m.segments.modify pos fun arr => arr.modify segIdx f }

section Put

variable (sz : Sizes) (hash : Slice → Nat) (keyHeight : Nat) (height : Nat → Nat)

/-- The loop handing the block at `addr` to one segment of each inner index
of the key map that has a ready definition, by `put`. -/
def putSegments (put : Segment → Slice → Segment) (m : MemTable) (keyMap : List (Nat × Slice)) : MemTable :=
  keyMap.foldl (fun m kv =>
      if needPut m.tableIndex kv.1 then
        m.modifySegment kv.1 (if m.segCnt > 1 then hash kv.2 % m.segCnt else 0) fun s => put s kv.2
      else m)
    m

/-- The new block, and the counters of the record. -/
def addBlock (m : MemTable) (refCnt valueSize : Nat) : MemTable :=
  { m with blocks := m.blocks ++ [some ⟨refCnt.toUInt8, valueSize⟩], recordCnt := m.recordCnt + 1,
           recordByteSize := m.recordByteSize + getRecordSize sz valueSize }

/-- `Put(time, value, dimensions)` with a value of `valueSize` bytes: `none`
where it returns `false`. -/
def put (m : MemTable) (time : UInt64) (valueSize : Nat) (dimensions : List Dimension) : Option MemTable :=
  (innerIndexKeyMap m.tableIndex dimensions []).bind fun keyMap =>
    (realRefCntPlain m.tableIndex keyMap).map fun refCnt =>
      putSegments hash (fun s key => s.put sz key time m.blocks.length keyHeight (height 0))
        (addBlock sz m refCnt valueSize) keyMap

/-- `Put(dimensions, ts_dimensions, value)` with a value of `valueSize`
bytes: `none` where it returns `false`. -/
def putTs (m : MemTable) (dimensions : List Dimension) (tsDimensions : List TSDimension)
    (valueSize : Nat) : Option MemTable :=
  if dimensions.isEmpty ∨ tsDimensions.isEmpty then none
  else
    (innerIndexKeyMap m.tableIndex dimensions []).bind fun keyMap =>
      (realRefCnt m.tableIndex tsDimensions keyMap).map fun refCnt =>
        putSegments hash (fun s key => s.putTs sz key tsDimensions m.blocks.length keyHeight height)
          (addBlock sz m refCnt valueSize) keyMap

end Put

/-- `NewIterator(index, ts_idx, pk)`: the records of `pk` in the time list of
`ts_idx` of the segment the key hashes to; `none` for no ready definition. -/
def newIteratorTs (hash : Slice → Nat) (m : MemTable) (index tsIdx : Nat) (pk : Slice) :
    Option (List DataNode) :=
  match m.tableIndex.getIndexTs index tsIdx with
  | some d =>
    if d.ready then
      let segIdx := if m.segCnt > 1 then hash pk % m.segCnt else 0
      some ((((m.segments[d.innerPos]?).bind fun arr => arr[segIdx]?).map fun s => s.newIteratorTs pk tsIdx).getD [])
    else none
  | none => none

/-- The time-list nodes of every segment that point at the block `addr`. -/
def nodesAt (m : MemTable) (addr : Nat) : Nat :=
  (m.segments.map fun arr => (arr.map fun s =>
    (s.entries.map fun n => (n.value.map fun e => (e.entries.filter (·.value == addr)).length).sum).sum).sum).sum

end MemTable

/-- A table of two column keys, each its own inner index with its own time
column (`0` and `1`), both ready, in one segment each. -/
def twoColumnTable : MemTable :=
  ⟨⟨[⟨0, some 0, true⟩, ⟨1, some 1, true⟩], [[⟨0, some 0, true⟩], [⟨1, some 1, true⟩]], [0, 1]⟩, 1,
    [[Segment.newTs 4 [0] 0], [Segment.newTs 4 [1] 0]], [], 0, 0⟩

/-- A write of both keys with a timestamp for column `0` only counts one
reference, for the definition of column `0`; the segment of column `1`, of
one time index, takes the single timestamp all the same, so two nodes point
at a block whose `dim_cnt_down` is `1`. -/
theorem put_links_more_than_counted (sz : Sizes) (hash : Slice → Nat) :
    ∃ m, twoColumnTable.putTs sz hash 1 (fun _ => 1) [⟨0, [1]⟩, ⟨1, [2]⟩] [⟨0, 5⟩] 3 = some m ∧
      m.blocks = [some ⟨1, 3⟩] ∧ m.nodesAt 0 = 2 :=
  ⟨_, rfl, rfl, rfl⟩

/-- After the same write, the iterator of the index on column `1` holds a
record at the timestamp given for column `0`. -/
theorem put_routes_other_column (sz : Sizes) (hash : Slice → Nat) :
    ∃ m, twoColumnTable.putTs sz hash 1 (fun _ => 1) [⟨0, [1]⟩, ⟨1, [2]⟩] [⟨0, 5⟩] 3 = some m ∧
      twoColumnTable.newIteratorTs hash 1 1 [2] = some [] ∧
      m.newIteratorTs hash 1 1 [2] = some [⟨5, 0, 1⟩] :=
  ⟨_, rfl, rfl, rfl⟩

end Fedb.Storage
