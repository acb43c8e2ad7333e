import Fedb.Storage.TimeIterator
import Fedb.Lib.Cursor

/-! # `MemTableTraverseIterator`

`MemTableTraverseIterator` (`src/storage/mem_table.cc`) walks every record of
an index: the segments in order, the keys of each segment in key order, and
the records of each key newest first, skipping the rest of a key at its
first expired record. Each key's walk starts at rank `record_idx_ = 1`. It
counts the nodes it visits in `traverse_cnt_` and stops early, on whatever
it stands at, once that count reaches `FLAGS_max_traverse_cnt`; the count is
never reset.

The state is the members of the C++ iterator: the segments, `seg_idx_`, the
key iterator `pk_it_` as the key nodes from its position (`none` for
`NULL`), the record iterator `it_`, the two counters, `ts_idx_` (the
record list of the index's time column in a segment of several time
indexes) and the TTL with the expire time in `abs_ttl`. The budget and the
segment a key hashes to (`hash(key) % seg_cnt_`) are parameters.

`NextPK` takes the record list at position `0` of a key's array where
`SeekToFirst` and `Seek` take the one at `ts_idx_`
(`nextPK_reads_first_ts`). Once the budget is spent, `SeekToFirst` and
`NextPK` stop on a key with no live record, where the iterator is not valid
although records follow.
-/

namespace Fedb.Storage

/-- The members of `MemTableTraverseIterator`; the ticket plays no part. -/
structure TraverseIterator where
  segments : List Segment
  segIdx : Nat
  pkIt : Option (List EntryNode)
  it : Option TimeIt
  recordIdx : UInt32
  tsIdx : Nat
  expireValue : TTLSt
  traverseCnt : UInt64
  deriving Repr, DecidableEq

/-- The record list of a key node at `slot`: `((KeyEntry**)value)[slot]` in a
segment of several time indexes, `(KeyEntry*)value` otherwise. The arrays
have `ts_cnt_` entries and a node of a segment of one holds one entry; the
empty list stands for any other shape, which no write builds. -/
def Segment.entryOf (s : Segment) (n : EntryNode) (slot : Nat) : KeyEntry :=
  if s.tsCnt > 1 then n.value.getD slot default else n.entry?.getD default

/-- The first segment from `i` on that has keys, and its keys. -/
def firstKeysFrom : Nat → List Segment → Option (Nat × List EntryNode)
  | _, [] => none
  | i, s :: ss => if s.entries.isEmpty then firstKeysFrom (i + 1) ss else some (i, s.entries)

namespace TraverseIterator

/-- The constructor: `ts_idx_` is the position of the time column `ts_index`
in the first segment, `0` if it has none. -/
def new (segments : List Segment) (ttlType : TTLType) (expireTime expireCnt : UInt64) (tsIndex : Nat) :
    TraverseIterator :=
  ⟨segments, 0, none, none, 0,
    ((segments.head?.bind fun s => tsIdxFind s.tsIdxMap tsIndex)).getD 0,
    ⟨expireTime, expireCnt, ttlType⟩, 0⟩

/-- `segments_[i]`. -/
def seg (t : TraverseIterator) (i : Nat) : Segment := t.segments.getD i (Segment.new 0 0)

/-- The number of key nodes of all segments. -/
def keyCount (t : TraverseIterator) : Nat := (t.segments.map fun s => s.entries.length).sum

/-- Whether the record iterator stands at a record the TTL rejects at the
current rank, or at none. -/
def exhausted (t : TraverseIterator) (it : TimeIt) : Bool :=
  !it.valid || t.expireValue.isExpired it.getKey t.recordIdx

def valid (t : TraverseIterator) : Bool :=
  match t.pkIt, t.it with
  | some (_ :: _), some it => !t.exhausted it
  | _, _ => false

/-- `GetPK()`: the empty key where `pk_it_` is `NULL`. -/
def getPK (t : TraverseIterator) : Slice :=
  match t.pkIt with
  | some (n :: _) => n.key
  | _ => []

/-- `GetKey()`: `UINT64_MAX` where the record iterator is not valid. -/
def getKey (t : TraverseIterator) : UInt64 :=
  match t.it with
  | some it => if it.valid then it.getKey else 0xFFFFFFFFFFFFFFFF
  | none => 0xFFFFFFFFFFFFFFFF

def getValue (t : TraverseIterator) : Nat := (t.it.map TimeIt.getValue).getD 0

/-- `GetCount()`. -/
def getCount (t : TraverseIterator) : UInt64 := t.traverseCnt

section Budget

variable (maxTraverseCnt : UInt64)

/-- The move of `pk_it_` to the next key at the top of `NextPK`'s loop: one
step, and on to the next segment with keys when the segment ends; `none`
past the last segment. -/
def advance (t : TraverseIterator) : Option (Nat × List EntryNode) :=
  match t.pkIt with
  | some (_ :: n :: rest) => some (t.segIdx, n :: rest)
  | _ => firstKeysFrom (t.segIdx + 1) (t.segments.drop (t.segIdx + 1))

/-- The loop of `NextPK()`, for at most `fuel` rounds: each round moves to the
next key and opens the record list at position `0` of its array, until one
has a live first record or the budget is spent. -/
def nextPKLoop : Nat → TraverseIterator → TraverseIterator
  | 0, t => t
  | fuel + 1, t =>
    match t.advance with
    | some (i, n :: rest) =>
      let it := TimeIt.first ((t.seg i).entryOf n 0).entries
      let t : TraverseIterator :=
        { t with segIdx := i, pkIt := some (n :: rest), it := some it, recordIdx := 1,
                 traverseCnt := t.traverseCnt + 1 }
      if t.traverseCnt ≥ maxTraverseCnt then t
      else if t.exhausted it then nextPKLoop fuel t
      else t
    | _ => { t with segIdx := t.segments.length, pkIt := none }

/-- `NextPK()`: each round passes one key, so one round per key suffices. -/
def nextPK (t : TraverseIterator) : TraverseIterator := nextPKLoop maxTraverseCnt (t.keyCount + 1) { t with it := none }

/-- `Next()`. -/
def next (t : TraverseIterator) : TraverseIterator :=
  let it := t.it.map TimeIt.next
  let t : TraverseIterator := { t with it := it, recordIdx := t.recordIdx + 1, traverseCnt := t.traverseCnt + 1 }
  match it with
  | some it => if t.exhausted it then t.nextPK maxTraverseCnt else t
  | none => t.nextPK maxTraverseCnt

/-- The loop of `SeekToFirst()` over the keys of segment `s`: whether it
returned, and the state. The first test reads the rank left by the last walk. -/
def seekToFirstKeys (s : Segment) : List EntryNode → TraverseIterator → Bool × TraverseIterator
  | [], t => (false, t)
  | n :: rest, t =>
    let it := TimeIt.first (s.entryOf n t.tsIdx).entries
    let t : TraverseIterator := { t with traverseCnt := t.traverseCnt + 1 }
    if it.valid && !t.expireValue.isExpired it.getKey t.recordIdx then
      (true, { t with pkIt := some (n :: rest), it := some it, recordIdx := 1 })
    else
      let t : TraverseIterator := { t with it := none, pkIt := some rest }
      if t.traverseCnt ≥ maxTraverseCnt then (true, t) else seekToFirstKeys s rest t

/-- The loop of `SeekToFirst()` over the segments from `i` on. -/
def seekToFirstSegs : Nat → List Segment → TraverseIterator → TraverseIterator
  | i, [], t => { t with segIdx := i, pkIt := none }
  | i, s :: ss, t =>
    match seekToFirstKeys maxTraverseCnt s s.entries { t with segIdx := i, pkIt := some s.entries } with
    | (true, t) => t
    | (false, t) => seekToFirstSegs (i + 1) ss { t with pkIt := none }

/-- `SeekToFirst()`. -/
def seekToFirst (t : TraverseIterator) : TraverseIterator :=
  seekToFirstSegs maxTraverseCnt 0 t.segments { t with pkIt := none, it := none }

/-- What `Valid()`, `GetPK()`, `GetKey()`, `GetValue()` and `Next()` yield, in at
most `fuel` rounds. -/
def rows (fuel : Nat) (t : TraverseIterator) : List (Slice × UInt64 × Nat) :=
  Cursor.drain valid (next maxTraverseCnt) (fun t => (t.getPK, t.getKey, t.getValue)) fuel t

/-- The walk of `Seek(pk, ts)` under `kLatestTime` over a key's records, rank
`idx`: it returns at the first record older than `ts` within the first
`lat_ttl`; `false` where it runs out and calls `NextPK()`. -/
def seekLatestLoop (ts latTtl : UInt64) : List DataNode → UInt32 → UInt64 → Bool × List DataNode × UInt32 × UInt64
  | [], idx, cnt => (false, [], idx, cnt)
  | d :: ds, idx, cnt =>
    if idx.toUInt64 ≤ latTtl then
      if d.key < ts then (true, d :: ds, idx, cnt + 1)
      else seekLatestLoop ts latTtl ds (idx + 1) (cnt + 1)
    else (false, d :: ds, idx, cnt)

variable (hash : Slice → Nat)

/-- `Seek(pk, ts)`: the key's segment by its hash, the first key not before
`pk`; on `pk` itself, the first record after `(pk, ts)`. The rank is reset
only on the `kLatestTime` path and on another key. -/
def seek (t : TraverseIterator) (key : Slice) (ts : UInt64) : TraverseIterator :=
  let segIdx := if t.segments.length > 1 then hash key % t.segments.length else t.segIdx
  let s := t.seg segIdx
  let keys := s.entries.dropWhile fun n => decide (sliceCompare n.key key < 0)
  let t : TraverseIterator := { t with segIdx := segIdx, pkIt := some keys, it := none }
  match keys with
  | [] => t.nextPK maxTraverseCnt
  | n :: _ =>
    let list := (s.entryOf n t.tsIdx).entries
    if sliceCompare key n.key ≠ 0 then
      let it := TimeIt.first list
      let t : TraverseIterator := { t with it := some it, traverseCnt := t.traverseCnt + 1, recordIdx := 1 }
      if t.exhausted it then t.nextPK maxTraverseCnt else t
    else if t.expireValue.ttlType = .kLatestTime then
      match seekLatestLoop ts t.expireValue.latTtl list 1 t.traverseCnt with
      | (true, rest, idx, cnt) => { t with it := some ⟨list, rest⟩, recordIdx := idx, traverseCnt := cnt }
      | (false, rest, idx, cnt) =>
        ({ t with it := some ⟨list, rest⟩, recordIdx := idx, traverseCnt := cnt }).nextPK maxTraverseCnt
    else
      let it := (⟨list, []⟩ : TimeIt).seek ts
      let it := if it.valid && it.getKey = ts then it.next else it
      let t : TraverseIterator := { t with it := some it, traverseCnt := t.traverseCnt + 1 }
      if t.exhausted it then t.nextPK maxTraverseCnt else t

end Budget

end TraverseIterator

/-- A segment of two time indexes, columns `0` and `1`, with two keys. -/
def twoTsSegment : Segment :=
  { Segment.newTs 4 [0, 1] 0 with
    entries := [⟨[1], [⟨[], 0, 0, false⟩, ⟨[⟨7, 0, 1⟩], 0, 1, false⟩], 1⟩,
                ⟨[2], [⟨[⟨8, 1, 1⟩], 0, 1, false⟩, ⟨[⟨9, 2, 1⟩], 0, 1, false⟩], 1⟩] }

/-- A traverse of time column `1` over a segment of two time indexes: the
first key is opened at position `1` by `SeekToFirst`, the second at position
`0` by `NextPK`, so the walk yields `(key 2, ts 8)` of the other time index
and never `(key 2, ts 9)`. -/
theorem nextPK_reads_first_ts :
    (TraverseIterator.new [twoTsSegment] .kAbsoluteTime 0 0 1).tsIdx = 1 ∧
      TraverseIterator.rows 100 3 ((TraverseIterator.new [twoTsSegment] .kAbsoluteTime 0 0 1).seekToFirst 100) =
        [([1], 7, 0), ([2], 8, 1)] := by
  decide

end Fedb.Storage
