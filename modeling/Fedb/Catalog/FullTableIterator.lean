import Fedb.Storage.TraverseIterator

/-! # `FullTableIterator`

`fedb::catalog::FullTableIterator` (`src/catalog/distribute_iterator.cc`)
scans a whole table, partition by partition in the order of the map
`tables_`, through each partition's `NewTraverseIterator(0)`. It reads the
traverse iterator becoming invalid as the end of that partition and moves on
to the next one whose iterator is valid after `SeekToFirst`.

A partition is its traverse iterator as `NewTraverseIterator(0)` creates it.
Since the traverse iterator also stops, invalid, on a key without live
records once its budget is spent, what the scan yields depends on
`FLAGS_max_traverse_cnt` (`fullTable_depends_on_budget`).
-/

namespace Fedb.Catalog

open Fedb.Storage

/-- The members of `FullTableIterator`: the partitions by id, in the map's
order, `cur_pid_`, `it_` and `key_`. -/
structure FullTableIterator where
  tables : List (Nat × TraverseIterator)
  curPid : Nat
  it : Option TraverseIterator
  key : UInt64
  deriving Repr, DecidableEq

namespace FullTableIterator

section Budget

variable (maxTraverseCnt : UInt64)

def new (tables : List (Nat × TraverseIterator)) : FullTableIterator := ⟨tables, 0, none, 0⟩

/-- The loop shared by `SeekToFirst()` and `Next()`: the first partition of
`tables` whose iterator is valid after `SeekToFirst()`; the iterator left is
the last one tried. -/
def seekFrom : List (Nat × TraverseIterator) → FullTableIterator → FullTableIterator
  | [], f => f
  | (pid, t) :: rest, f =>
    let t := t.seekToFirst maxTraverseCnt
    if t.valid then { f with it := some t, curPid := pid, key := t.getKey }
    else seekFrom rest { f with it := some t }

def seekToFirst (f : FullTableIterator) : FullTableIterator := seekFrom maxTraverseCnt f.tables { f with it := none }

def valid (f : FullTableIterator) : Bool := (f.it.map TraverseIterator.valid).getD false

/-- `Next()`: on the end of a partition, the partitions after `cur_pid_`. -/
def next (f : FullTableIterator) : FullTableIterator :=
  match f.it with
  | none => f
  | some t =>
    let t := t.next maxTraverseCnt
    let f := { f with it := some t }
    let f :=
      if t.valid then f
      else
        match f.tables.findIdx? (·.1 == f.curPid) with
        | none => f
        | some i => seekFrom maxTraverseCnt (f.tables.drop (i + 1)) f
    if f.valid then { f with key := (f.it.map TraverseIterator.getKey).getD 0 } else f

/-- `GetValue()`. -/
def getValue (f : FullTableIterator) : Nat := (f.it.map TraverseIterator.getValue).getD 0

/-- What `Valid()`, `GetKey()`, `GetValue()` and `Next()` yield from
`SeekToFirst()` on, in at most `fuel` rounds. -/
def rows (fuel : Nat) (f : FullTableIterator) : List (UInt64 × Nat) :=
  Cursor.drain valid (next maxTraverseCnt) (fun f => (f.key, f.getValue)) fuel (f.seekToFirst maxTraverseCnt)

end Budget

end FullTableIterator

/-- A partition of one segment whose key `[1]` holds only an expired record
(timestamp `1`, expire time `2`) and key `[2]` a live one (timestamp `5`). -/
def expiredFirstPartition : TraverseIterator :=
  TraverseIterator.new
    [{ Segment.new 4 0 with
        entries := [⟨[1], [⟨[⟨1, 0, 1⟩], 0, 1, false⟩], 1⟩, ⟨[2], [⟨[⟨5, 1, 1⟩], 0, 1, false⟩], 1⟩] }]
    .kAbsoluteTime 2 0 0

/-- A partition whose key `[3]` holds a live record at timestamp `6`. -/
def livePartition : TraverseIterator :=
  TraverseIterator.new [{ Segment.new 4 0 with entries := [⟨[3], [⟨[⟨6, 2, 1⟩], 0, 1, false⟩], 1⟩] }]
    .kAbsoluteTime 2 0 0

/-- With a budget of `1`, `SeekToFirst` of the first partition spends it on
the expired key `[1]` and stops, not valid, before the live key `[2]`: the
scan moves to the next partition and never yields the record at `5`, which a
budget of `100` yields. -/
theorem fullTable_depends_on_budget :
    FullTableIterator.rows 1 4 (.new [(0, expiredFirstPartition), (1, livePartition)]) = [(6, 2)] ∧
      FullTableIterator.rows 100 4 (.new [(0, expiredFirstPartition), (1, livePartition)]) =
        [(5, 1), (6, 2)] := by
  decide

end Fedb.Catalog
