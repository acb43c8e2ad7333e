import Fedb.Storage.SegmentGc

/-! # Iterators over a record list

Every read path walks a key's record list with a `TimeEntries::Iterator`
(wrapped by `MemTableIterator`) and stops at the first record its TTL test
rejects. The tests differ in where they start counting. The window iterator
of the SQL path, `MemTableWindowIterator`, starts `record_idx_` at `0`;
`MemTableTraverseIterator` sets it to `1` at the first record of a key; both
hand it to `TTLSt::IsExpired`, which rejects a rank above `lat_ttl`.

At the rank `i + 1` the test is the negation of the rule `TTLSt.live` at
position `i`, the expire time standing in `abs_ttl` (`isExpired_succ`), so a
walk ranked from `1` yields exactly the live records of a newest-first list
(`unexpired_one`). A walk ranked from `0`, as the window iterator's, yields
one record more under a count bound (`window_exposes_gc_removed`).
-/

namespace Fedb.Storage

open Fedb.Base

/-- A `TimeEntries::Iterator`: the record list and the records from its
position on. -/
structure TimeIt where
  list : List DataNode
  rest : List DataNode
  deriving Repr, DecidableEq

namespace TimeIt

def valid (it : TimeIt) : Bool := !it.rest.isEmpty

/-- `GetKey()`, read only where the iterator is valid. -/
def getKey (it : TimeIt) : UInt64 :=
  match it.rest with
  | d :: _ => d.key
  | [] => 0

/-- `GetValue()`: the address of the record's block. -/
def getValue (it : TimeIt) : Nat :=
  match it.rest with
  | d :: _ => d.value
  | [] => 0

def next (it : TimeIt) : TimeIt := { it with rest := it.rest.tail }

def seekToFirst (it : TimeIt) : TimeIt := { it with rest := it.list }

/-- `Seek(time)`: `FindLessThan(time)` and one step, the first record not
newer than `time`. -/
def seek (it : TimeIt) (time : UInt64) : TimeIt :=
  { it with rest := it.list.dropWhile fun d => decide (time < d.key) }

/-- `NewIterator()` then `SeekToFirst()`. -/
def first (xs : List DataNode) : TimeIt := ⟨xs, xs⟩

end TimeIt

/-! ## The walk a reader makes -/

/-- What a reader gets from a record iterator standing at the first of `xs`
with rank counter `idx`, by `Valid()`, `GetKey()` and `Next()`: the records up
to the first that `IsExpired` rejects. -/
def unexpired (t : TTLSt) : UInt32 → List DataNode → List DataNode
  | _, [] => []
  | idx, d :: ds => if t.isExpired d.key idx then [] else d :: unexpired t (idx + 1) ds

/-- A walk stops where the test first rejects: it keeps the first `n` records
when the test rejects exactly the ranks from the `n`-th on. -/
theorem unexpired_eq_take (t : TTLSt) :
    ∀ (xs : List DataNode) (k n : Nat),
      (∀ j (hj : j < xs.length), t.isExpired xs[j].key (k + j).toUInt32 = !decide (j < n)) →
      unexpired t k.toUInt32 xs = xs.take n
  | [], _, _, _ => by simp [unexpired]
  | d :: ds, k, n, h => by
    have h0 := h 0 (by simp)
    simp only [Nat.add_zero, List.getElem_cons_zero] at h0
    cases n with
    | zero =>
      rw [unexpired, h0]
      rfl
    | succ n =>
      -- the head passes; the tail is ranked from `k + 1` against `n`
      have htail : ∀ j (hj : j < ds.length), t.isExpired ds[j].key (k + 1 + j).toUInt32 = !decide (j < n) := by
        intro j hj
        have hs := h (j + 1) (by simp; omega)
        rw [show k + (j + 1) = k + 1 + j by omega, List.getElem_cons_succ] at hs
        rw [hs, decide_eq_decide.2 (by omega : j + 1 < n + 1 ↔ j < n)]
      have hk : k.toUInt32 + 1 = (k + 1).toUInt32 := by simp
      rw [unexpired, h0, decide_eq_true (Nat.succ_pos n), Bool.not_true, if_neg Bool.false_ne_true, hk,
        unexpired_eq_take t ds (k + 1) n htail, List.take_succ_cons]

/-- `IsExpired` at the 1-based rank `i + 1`, with the expire time in
`abs_ttl`, rejects exactly what the rule does not keep at position `i`. -/
theorem isExpired_succ (t : TTLSt) (ts : UInt64) {i : Nat} (hi : i + 1 < 2 ^ 32)
    (ht : t.ttlType ≠ .kRelativeTime) :
    t.isExpired ts (i + 1).toUInt32 = !t.live t.absTtl i ts := by
  have hrank : decide ((i + 1).toUInt32.toUInt64 > t.latTtl) = !decide (i < t.latTtl.toNat) := by
    have hidx : (i + 1).toUInt32.toUInt64.toNat = i + 1 := by
      simp
      omega
    rw [← decide_not, decide_eq_decide, GT.gt, UInt64.lt_iff_toNat_lt, hidx]
    omega
  have htime : decide (ts ≤ t.absTtl) = !decide (ts > t.absTtl) := by
    rw [← decide_not, decide_eq_decide, GT.gt, UInt64.lt_iff_toNat_lt, UInt64.le_iff_toNat_le]
    omega
  obtain ⟨absTtl, latTtl, ttlType⟩ := t
  simp only at hrank htime ht ⊢
  unfold TTLSt.isExpired TTLSt.live
  rw [hrank, htime]
  -- one case per type, and per zero bound as `IsExpired` tests them
  cases ttlType with
  | kRelativeTime => exact absurd rfl ht
  | kAbsoluteTime => by_cases ha : absTtl = 0 <;> simp [ha]
  | kLatestTime => by_cases hl : latTtl = 0 <;> simp [hl]
  | kAbsAndLat => by_cases ha : absTtl = 0 <;> by_cases hl : latTtl = 0 <;> simp [ha, hl]
  | kAbsOrLat => by_cases ha : absTtl = 0 <;> by_cases hl : latTtl = 0 <;> simp [ha, hl]

/-- A walk ranked from `1` over a newest-first list yields its live records:
the traverse iterator's view of a key is the rule's. -/
theorem unexpired_one {xs : List DataNode} (hs : Segment.Sorted xs) (hlen : xs.length < 2 ^ 32)
    (t : TTLSt) (ht : t.ttlType ≠ .kRelativeTime) :
    unexpired t 1 xs = Segment.liveRecords t t.absTtl xs := by
  rw [Segment.liveRecords_eq_take hs]
  refine unexpired_eq_take t xs 1 _ fun j hj => ?_
  rw [Nat.add_comm, isExpired_succ t _ (by omega) ht, Segment.live_eq_decide_lt hs t t.absTtl j hj]

/-! ## `MemTableWindowIterator` -/

/-- `MemTableWindowIterator`: the record iterator, `record_idx_` and
`expire_value_`, whose `abs_ttl` holds the expire time. -/
structure WindowIterator where
  it : TimeIt
  recordIdx : UInt32
  expireValue : TTLSt
  deriving Repr, DecidableEq

namespace WindowIterator

/-- The constructor, given an iterator after `SeekToFirst()`: `record_idx_`
starts at `0`. -/
def new (it : TimeIt) (ttlType : TTLType) (expireTime expireCnt : UInt64) : WindowIterator :=
  ⟨it, 0, ⟨expireTime, expireCnt, ttlType⟩⟩

def valid (w : WindowIterator) : Bool := w.it.valid && !w.expireValue.isExpired w.it.getKey w.recordIdx

def next (w : WindowIterator) : WindowIterator := { w with it := w.it.next, recordIdx := w.recordIdx + 1 }

/-- The records a reader gets from where the iterator stands. -/
def rows (w : WindowIterator) : List DataNode := unexpired w.expireValue w.recordIdx w.it.rest

/-- A valid iterator yields its record, then what `Next()` leaves. -/
theorem rows_of_valid {w : WindowIterator} (h : w.valid = true) :
    ∃ d ds, w.it.rest = d :: ds ∧ w.rows = d :: w.next.rows := by
  obtain ⟨⟨list, rest⟩, idx, t⟩ := w
  cases rest with
  | nil => simp [valid, TimeIt.valid] at h
  | cons d ds =>
    simp only [valid, TimeIt.valid, TimeIt.getKey, List.isEmpty_cons, Bool.not_false, Bool.true_and,
      Bool.not_eq_true'] at h
    exact ⟨d, ds, rfl, by simp [rows, unexpired, h, next, TimeIt.next]⟩

theorem rows_of_not_valid {w : WindowIterator} (h : w.valid = false) : w.rows = [] := by
  obtain ⟨⟨list, rest⟩, idx, t⟩ := w
  cases rest with
  | nil => rfl
  | cons d ds =>
    simp only [valid, TimeIt.valid, TimeIt.getKey, List.isEmpty_cons, Bool.not_false, Bool.true_and,
      Bool.not_eq_false'] at h
    simp [rows, unexpired, h]

end WindowIterator

/-- `MemTableWindowIterator` ranks the first record `0`: under `kLatestTime`
with `lat_ttl = 1` it yields both records of a key, where a walk ranked from
`1`, the traverse iterator's, yields one, and `Gc4Head(1)` keeps one. -/
theorem window_exposes_gc_removed :
    (WindowIterator.new (TimeIt.first [⟨5, 0, 1⟩, ⟨3, 1, 1⟩]) .kLatestTime 0 1).rows =
        [⟨5, 0, 1⟩, ⟨3, 1, 1⟩] ∧
      unexpired ⟨0, 1, .kLatestTime⟩ 1 [⟨5, 0, 1⟩, ⟨3, 1, 1⟩] = [⟨5, 0, 1⟩] ∧
      Segment.liveRecords ⟨0, 1, .kLatestTime⟩ 0 [⟨5, 0, 1⟩, ⟨3, 1, 1⟩] = [⟨5, 0, 1⟩] ∧
      (Chain.splitByPos 1 [(⟨5, 0, 1⟩ : DataNode), ⟨3, 1, 1⟩]).1 = [⟨5, 0, 1⟩] := by
  decide

end Fedb.Storage
