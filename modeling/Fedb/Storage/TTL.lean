import Mathlib

/-! # TTL settings

`TTLSt` (`src/storage/schema.h`) carries an absolute TTL, a count of latest
records to keep, and the type that combines them. `NeedGc` says whether a
garbage collection has anything to do, and `IsExpired`, with the absolute
field holding an expire time, is the test the read iterators apply to each
record. `live` is the rule the four types stand for, stated once: the record
at position `i` (from the newest) with timestamp `ts` is live when it is
newer than the expire time (`kAbsoluteTime`), among the first `lat_ttl`
(`kLatestTime`), either (`kAbsAndLat`) or both (`kAbsOrLat`), a zero bound
meaning no limit. The collector and the read paths are measured against it.
-/

namespace Fedb.Storage

/-- `TTLType`. No conversion produces `kRelativeTime`; the switches treat it
in their `default` branch. -/
inductive TTLType
  | kAbsoluteTime
  | kRelativeTime
  | kLatestTime
  | kAbsAndLat
  | kAbsOrLat
  deriving Repr, DecidableEq

/-- `TTLSt`: `abs_ttl` in milliseconds (or, in an iterator, the expire time),
`lat_ttl` a number of records. -/
structure TTLSt where
  absTtl : UInt64
  latTtl : UInt64
  ttlType : TTLType
  deriving Repr, DecidableEq

namespace TTLSt

/-- `NeedGc()`: a bound of zero disables its part. -/
def needGc (t : TTLSt) : Bool :=
  match t.ttlType with
  | .kAbsoluteTime => if t.absTtl = 0 then false else true
  | .kLatestTime => if t.latTtl = 0 then false else true
  | .kAbsAndLat => if t.absTtl = 0 ∨ t.latTtl = 0 then false else true
  | .kAbsOrLat => if t.absTtl = 0 ∧ t.latTtl = 0 then false else true
  | .kRelativeTime => true

/-- `IsExpired(abs, record_idx)`, with `abs_ttl` holding the expire time:
a record is expired at or before it, or at an index past `lat_ttl`. -/
def isExpired (t : TTLSt) (abs : UInt64) (recordIdx : UInt32) : Bool :=
  match t.ttlType with
  | .kAbsoluteTime => if t.absTtl = 0 then false else decide (abs ≤ t.absTtl)
  | .kLatestTime => if t.latTtl = 0 then false else decide (recordIdx.toUInt64 > t.latTtl)
  | .kAbsAndLat =>
    if t.absTtl = 0 ∨ t.latTtl = 0 then false
    else decide (abs ≤ t.absTtl) && decide (recordIdx.toUInt64 > t.latTtl)
  | .kAbsOrLat =>
    if t.absTtl = 0 then
      if t.latTtl = 0 then false else decide (recordIdx.toUInt64 > t.latTtl)
    else if t.latTtl = 0 then decide (abs ≤ t.absTtl)
    else decide (abs ≤ t.absTtl) || decide (recordIdx.toUInt64 > t.latTtl)
  | .kRelativeTime => true

/-! ## What the types stand for -/

/-- The retention rule of a TTL at expire time `expire`: whether the record
at position `i` from the newest, with timestamp `ts`, is live. -/
def live (t : TTLSt) (expire : UInt64) (i : Nat) (ts : UInt64) : Bool :=
  let byTime := decide (t.absTtl = 0) || decide (ts > expire)
  let byCount := decide (t.latTtl = 0) || decide (i < t.latTtl.toNat)
  match t.ttlType with
  | .kAbsoluteTime => byTime
  | .kLatestTime => byCount
  | .kAbsAndLat => byTime || byCount
  | .kAbsOrLat => byTime && byCount
  | .kRelativeTime => true

end TTLSt

end Fedb.Storage
