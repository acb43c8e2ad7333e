import Fedb.Storage.TraverseIterator

/-! # `TabletImpl::Traverse`

The `Traverse` RPC (`src/tablet/tablet_impl.cc`) pages through an index: a
call without `pk` starts with `SeekToFirst`, a call with `(pk, ts)` resumes
with `Seek(pk, ts)`, which skips the record `(pk, ts)` itself. A page ends
at `limit` records, when the iterator ends, or when the iterator's count
reaches `FLAGS_max_traverse_cnt`; the cursor handed back is the last record
returned, except after the budget is spent, where it is wherever the
iterator stands.

When the limit ends a page on the same round in which `NextPK` spent the
budget, the iterator stands at a record it has not returned, and the cursor
names it: the next call's `Seek` skips it (`traverse_skips_record`).

The response's byte layout is not modelled: `pairs` is the list of triples
in the order of `value_map`, by key and then as returned.
-/

namespace Fedb.Tablet

open Fedb.Storage

/-- The fields of `TraverseRequest` the loop reads; `pk` is `none` where the
request has no key or an empty one. -/
structure TraverseRequest where
  pk : Option Slice
  ts : UInt64
  limit : UInt32
  dedup : Bool
  deriving Repr, DecidableEq

/-- The fields of `TraverseResponse` set on success. -/
structure TraverseResponse where
  pairs : List (Slice × UInt64 × Nat)
  count : UInt32
  pk : Slice
  ts : UInt64
  isFinish : Bool
  deriving Repr, DecidableEq

/-- `value_map[pk].push_back(v)` in a `std::map` ordered by the key bytes. -/
def pushValue (m : List (Slice × List (UInt64 × Nat))) (pk : Slice) (v : UInt64 × Nat) :
    List (Slice × List (UInt64 × Nat)) :=
  match m with
  | [] => [(pk, [v])]
  | (k, vs) :: rest =>
    if sliceCompare k pk = 0 then (k, vs ++ [v]) :: rest
    else if sliceCompare pk k < 0 then (pk, [v]) :: (k, vs) :: rest
    else (k, vs) :: pushValue rest pk v

section Traverse

variable (maxTraverseCnt : UInt64) (hash : Slice → Nat)

/-- The loop `for (; it->Valid(); it->Next())` of `Traverse`, in at most
`fuel` rounds: `scount` records taken, the last `(pk, ts)` and the map. -/
def traverseLoop (limit : UInt32) (dedup : Bool) :
    Nat → TraverseIterator → UInt32 → Slice → UInt64 → List (Slice × List (UInt64 × Nat)) →
      TraverseIterator × UInt32 × Slice × UInt64 × List (Slice × List (UInt64 × Nat))
  | 0, it, scount, lastPk, lastTime, m => (it, scount, lastPk, lastTime, m)
  | fuel + 1, it, scount, lastPk, lastTime, m =>
    if !it.valid then (it, scount, lastPk, lastTime, m)
    else if limit > 0 ∧ scount > limit - 1 then (it, scount, lastPk, lastTime, m)
    else if dedup ∧ lastTime = it.getKey ∧ lastPk = it.getPK then
      traverseLoop limit dedup fuel (it.next maxTraverseCnt) scount lastPk lastTime m
    else
      let m := pushValue m it.getPK (it.getKey, it.getValue)
      if it.getCount ≥ maxTraverseCnt then (it, scount + 1, it.getPK, it.getKey, m)
      else traverseLoop limit dedup fuel (it.next maxTraverseCnt) (scount + 1) it.getPK it.getKey m

/-- `Traverse(request, response)` over the iterator `NewTraverseIterator`
creates, with at most `fuel` rounds of its loop. -/
def traverse (fresh : TraverseIterator) (req : TraverseRequest) (fuel : Nat) : TraverseResponse :=
  let (it, lastPk, lastTime) : TraverseIterator × Slice × UInt64 :=
    match req.pk with
    | some pk => (fresh.seek maxTraverseCnt hash pk req.ts, pk, req.ts)
    | none => (fresh.seekToFirst maxTraverseCnt, [], 0)
  let (it, scount, lastPk, lastTime, m) := traverseLoop maxTraverseCnt req.limit req.dedup fuel it 0 lastPk lastTime []
  let (lastPk, lastTime, isFinish) : Slice × UInt64 × Bool :=
    if it.getCount ≥ maxTraverseCnt then (it.getPK, it.getKey, it.getPK.isEmpty)
    else (lastPk, lastTime, decide (scount < req.limit))
  ⟨m.flatMap (fun kv => kv.2.map fun v => (kv.1, v)), scount, lastPk, lastTime, isFinish⟩

end Traverse

/-- One segment with keys `[1]` and `[2]`, one live record each, at `1` and
`2`, under `kAbsoluteTime` without a bound. -/
def twoKeyIndex : TraverseIterator :=
  TraverseIterator.new
    [{ Segment.new 4 0 with
        entries := [⟨[1], [⟨[⟨1, 0, 1⟩], 0, 1, false⟩], 1⟩, ⟨[2], [⟨[⟨2, 1, 1⟩], 0, 1, false⟩], 1⟩] }]
    .kAbsoluteTime 0 0 0

/-- Pages of `limit = 1` with `FLAGS_max_traverse_cnt = 2` over
`twoKeyIndex`: the first page returns `([1], 1)` and, the budget spent by
`NextPK` on the way to `[2]`, hands back the cursor `([2], 2)` of a record
it did not return; the second page seeks past that record and finishes
empty, so `([2], 2)` is never returned. -/
theorem traverse_skips_record (hash : Slice → Nat) :
    traverse 2 hash twoKeyIndex ⟨none, 0, 1, false⟩ 4 = ⟨[([1], 1, 0)], 1, [2], 2, false⟩ ∧
      traverse 2 hash twoKeyIndex ⟨some [2], 2, 1, false⟩ 4 = ⟨[], 0, [2], 2, true⟩ := by
  constructor <;> rfl

end Fedb.Tablet
