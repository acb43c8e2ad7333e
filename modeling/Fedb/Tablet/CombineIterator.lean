import Fedb.Storage.TimeIterator
import Fedb.Lib.Cursor

/-! # `CombineIterator`

`fedb::tablet::CombineIterator` (`src/tablet/combine_iterator.cc`) merges the
record iterators of a key in several partitions, newest first, for `Get`
and `Scan`. `SeekToFirst` positions each partition at the start bound;
`SelectIterator` then scans every partition, drops for good one whose record
is expired (by the TTL with a per-partition position `iter_pos`), and selects
the largest timestamp by a strict comparison against an initial `0`. The
selection is a raw pointer into `q_its_`, which the same call compacts when
it dropped a partition.

The pointer is modelled as the slot it points at (`curQit`): after the
compaction that slot holds whatever `remove_if` moved there. Two behaviours
follow that a k-way merge does not have (`combine_drops_zero_and_misreads`):
a record of timestamp `0` is never selected, and a drop before the selected
partition makes `GetTs` read, and `Next` advance, the partition after it.
-/

namespace Fedb.Tablet

open Fedb.Storage

/-- `::fedb::api::GetType`. -/
inductive GetType
  | kSubKeyEq
  | kSubKeyLt
  | kSubKeyLe
  | kSubKeyGt
  | kSubKeyGe
  deriving Repr, DecidableEq

/-- `Seek(it, time, type)` of `combine_iterator.h`, the iterator it leaves. -/
def seek (it : TimeIt) (time : UInt64) : GetType → TimeIt
  | .kSubKeyEq | .kSubKeyLe => it.seek time
  | .kSubKeyLt => it.seek (time - 1)
  | .kSubKeyGe | .kSubKeyGt => it.seekToFirst

/-- The loop of `SeekWithCount(it, time, type, max_cnt, cnt)` over the records
from the iterator's position, `cnt` counting those passed: the records left,
the count and the result. -/
def seekWithCountLoop (time : UInt64) (type : GetType) (maxCnt : UInt32) :
    List DataNode → UInt32 → List DataNode × UInt32 × Bool
  | [], cnt => ([], cnt, false)
  | d :: ds, cnt =>
    if cnt < maxCnt ∨ maxCnt = 0 then
      match type with
      | .kSubKeyEq =>
        if d.key ≤ time then (d :: ds, cnt, d.key == time) else seekWithCountLoop time type maxCnt ds (cnt + 1)
      | .kSubKeyLe => if d.key ≤ time then (d :: ds, cnt, true) else seekWithCountLoop time type maxCnt ds (cnt + 1)
      | .kSubKeyLt => if d.key < time then (d :: ds, cnt, true) else seekWithCountLoop time type maxCnt ds (cnt + 1)
      | .kSubKeyGe => (d :: ds, cnt, decide (d.key ≥ time))
      | .kSubKeyGt => (d :: ds, cnt, decide (d.key > time))
    else (d :: ds, cnt, false)

/-- `SeekWithCount(it, time, type, max_cnt, cnt)`: from the first record. -/
def seekWithCount (it : TimeIt) (time : UInt64) (type : GetType) (maxCnt cnt : UInt32) :
    TimeIt × UInt32 × Bool :=
  let (rest, cnt, found) := seekWithCountLoop time type maxCnt it.list cnt
  ({ it with rest := rest }, cnt, found)

/-- `QueryIt`: whether `table` is set, the partition's iterator (`none` once
reset) and `iter_pos`. The ticket plays no part. -/
structure QueryIt where
  hasTable : Bool
  it : Option TimeIt
  iterPos : UInt32
  deriving Repr, DecidableEq

/-- The members of `CombineIterator`; `curQit` is the slot of `q_its_` that
`cur_qit_` points at. -/
structure CombineIterator where
  qIts : List QueryIt
  st : UInt64
  stType : GetType
  ttlType : TTLType
  expireTime : UInt64
  expireCnt : UInt32
  curQit : Option Nat
  deriving Repr, DecidableEq

namespace CombineIterator

/-- The constructor: the TTL's `abs_ttl` is the expire time, and `lat_ttl`
is stored in the 32-bit `expire_cnt_`. -/
def new (qIts : List QueryIt) (startTime : UInt64) (stType : GetType) (expiredValue : TTLSt) :
    CombineIterator :=
  ⟨qIts, startTime, stType, expiredValue.ttlType, expiredValue.absTtl, expiredValue.latTtl.toUInt32, none⟩

/-- The positioning of one partition by `SeekToFirst`. -/
def seekOne (c : CombineIterator) (q : QueryIt) : QueryIt :=
  match q.it with
  | none => q
  | some it =>
    if c.st > 0 then
      if c.expireCnt = 0 then { q with it := some (seek it c.st c.stType) }
      else
        match c.ttlType with
        | .kAbsoluteTime => { q with it := some (seek it c.st c.stType) }
        | .kAbsAndLat =>
          -- a failed count-bounded seek keeps the count it reached
          let (it', pos, found) := seekWithCount it c.st c.stType c.expireCnt q.iterPos
          if found then { q with it := some it', iterPos := pos }
          else { q with it := some (seek it' c.st c.stType), iterPos := pos }
        | _ =>
          let (it', pos, _) := seekWithCount it c.st c.stType c.expireCnt q.iterPos
          { q with it := some it', iterPos := pos }
    else { q with it := some it.seekToFirst }

/-- The expiry test of `SelectIterator` at a partition standing at `curTs`. -/
def isExpire (c : CombineIterator) (q : QueryIt) (curTs : UInt64) : Bool :=
  let byCnt := c.expireCnt != 0 && decide (q.iterPos ≥ c.expireCnt)
  let byTime := c.expireTime != 0 && decide (curTs ≤ c.expireTime)
  match c.ttlType with
  | .kAbsoluteTime => byTime
  | .kLatestTime => byCnt
  | .kAbsAndLat => byCnt && byTime
  | .kAbsOrLat => byCnt || byTime
  | .kRelativeTime => false

/-- The scan of `SelectIterator` from slot `slot`, with the largest timestamp
so far and the slot holding it: each partition with an expired record is
reset; returns the partitions, the slot selected and whether one was reset. -/
def selectLoop (c : CombineIterator) (slot : Nat) (maxTs : UInt64) (cur : Option Nat) (needDelete : Bool) :
    List QueryIt → List QueryIt × Option Nat × Bool
  | [] => ([], cur, needDelete)
  | q :: qs =>
    match q.it with
    | some it =>
      if it.valid then
        if c.isExpire q it.getKey then
          let (qs, cur, nd) := selectLoop c (slot + 1) maxTs cur true qs
          ({ q with it := none } :: qs, cur, nd)
        else if it.getKey > maxTs then
          let (qs, cur, nd) := selectLoop c (slot + 1) it.getKey (some slot) needDelete qs
          (q :: qs, cur, nd)
        else
          let (qs, cur, nd) := selectLoop c (slot + 1) maxTs cur needDelete qs
          (q :: qs, cur, nd)
      else
        let (qs, cur, nd) := selectLoop c (slot + 1) maxTs cur needDelete qs
        (q :: qs, cur, nd)
    | none =>
      let (qs, cur, nd) := selectLoop c (slot + 1) maxTs cur needDelete qs
      (q :: qs, cur, nd)

/-- `SelectIterator()`: the scan, then the compaction of `q_its_` by
`remove_if`/`erase` if a partition was reset; the selected slot is kept. -/
def selectIterator (c : CombineIterator) : CombineIterator :=
  let (qs, cur, needDelete) := selectLoop c 0 0 none false c.qIts
  { c with qIts := if needDelete then qs.filter (·.it.isSome) else qs, curQit := cur }

/-- `SeekToFirst()`: partitions without a table or an iterator are removed,
`kSubKeyEq` is read as `kSubKeyLe`, and every partition is positioned. -/
def seekToFirst (c : CombineIterator) : CombineIterator :=
  let qIts := c.qIts.filter fun q => q.hasTable && q.it.isSome
  if qIts.isEmpty then { c with qIts := qIts }
  else
    let c := { c with qIts := qIts, stType := if c.stType = GetType.kSubKeyEq then GetType.kSubKeyLe else c.stType }
    selectIterator { c with qIts := c.qIts.map c.seekOne }

/-- `Next()`: the partition at the selected slot steps, then a new selection. -/
def next (c : CombineIterator) : CombineIterator :=
  match c.curQit with
  | some slot =>
    selectIterator { c with
      qIts := c.qIts.modify slot fun q => { q with it := q.it.map TimeIt.next, iterPos := q.iterPos + 1 },
      curQit := none }
  | none => selectIterator c

def valid (c : CombineIterator) : Bool := c.curQit.isSome

/-- The iterator at the selected slot. -/
def current (c : CombineIterator) : Option TimeIt :=
  match c.curQit with
  | some slot => (c.qIts[slot]?).bind (·.it)
  | none => none

/-- `GetTs()`. -/
def getTs (c : CombineIterator) : UInt64 := (c.current.map TimeIt.getKey).getD 0

/-- `GetValue()`. -/
def getValue (c : CombineIterator) : Nat := (c.current.map TimeIt.getValue).getD 0

/-- What `Valid()`, `GetTs()`, `GetValue()` and `Next()` yield, in at most
`fuel` rounds. -/
def rows (fuel : Nat) (c : CombineIterator) : List (UInt64 × Nat) :=
  Cursor.drain valid next (fun c => (c.getTs, c.getValue)) fuel c

end CombineIterator

/-- A partition of `Get`/`Scan` over a record list. -/
def QueryIt.ofList (xs : List DataNode) : QueryIt := ⟨true, some ⟨xs, []⟩, 0⟩

/-- Three partitions under `kAbsoluteTime` with expire time `2`, their
records at `1` (expired), `5` and `3`, read from the newest record. -/
def threePartitions : CombineIterator :=
  CombineIterator.new
    [QueryIt.ofList [⟨1, 10, 1⟩], QueryIt.ofList [⟨5, 11, 1⟩], QueryIt.ofList [⟨3, 12, 1⟩]] 0 .kSubKeyLe
    ⟨2, 0, .kAbsoluteTime⟩

/-- One partition whose one record has timestamp `0`, without a TTL bound. -/
def zeroPartition : CombineIterator :=
  CombineIterator.new [QueryIt.ofList [⟨0, 13, 1⟩]] 0 .kSubKeyLe ⟨0, 0, .kAbsoluteTime⟩

/-- The merge of `threePartitions` yields `3` before `5`: the first selection
picks slot `1` (timestamp `5`), and dropping the expired partition moves the
one of timestamp `3` into that slot, so `GetTs` reads `3` and `Next`
advances that partition. `zeroPartition` yields nothing: its record at `0`
is never selected. -/
theorem combine_drops_zero_and_misreads :
    threePartitions.seekToFirst.curQit = some 1 ∧ threePartitions.seekToFirst.getTs = 3 ∧
      threePartitions.seekToFirst.rows 4 = [(3, 12), (5, 11)] ∧
      Cursor.ends CombineIterator.valid CombineIterator.next 2 threePartitions.seekToFirst = true ∧
      zeroPartition.seekToFirst.valid = false ∧ zeroPartition.seekToFirst.rows 2 = [] := by
  decide

end Fedb.Tablet
