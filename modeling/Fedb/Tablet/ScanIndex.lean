import Fedb.Tablet.CombineIterator

/-! # `ScanIndex` and `CountIndex`

`TabletImpl::ScanIndex` (`src/tablet/tablet_impl.cc`) reads a key's records
through a `CombineIterator`, from the start bound down to the end bound
`et`, and `TabletImpl::CountIndex` counts them by walking the record
iterator directly, with its own TTL test and counters. Both raise the end
bound to the expire time under `kAbsoluteTime` and `kAbsOrLat`, and read an
end bound `kSubKeyGt` below the expire time as `kSubKeyGe`.

The two differ on a record of timestamp `0`: the walk of `CountIndex`
counts it, and `CombineIterator` never selects it
(`count_scan_differ_at_zero`).

Projections and the byte encoding of the rows are not modelled: a row is the
timestamp and the address of its block, `blockSize` gives the block's length
for the byte bound `FLAGS_scan_max_bytes_size`.
-/

namespace Fedb.Tablet

open Fedb.Storage

/-- The fields of `ScanRequest` that `ScanIndex` reads, without projection;
`dedup` is `has_enable_remove_duplicated_record() &&
enable_remove_duplicated_record()`. -/
structure ScanRequest where
  limit : UInt32
  atleast : UInt32
  st : UInt64
  et : UInt64
  etType : GetType
  dedup : Bool
  deriving Repr, DecidableEq

/-- Whether a row at `ts` ends the scan at the end bound: `none` for an end
type `ScanIndex` rejects. -/
def pastEnd (etType : GetType) (et ts : UInt64) : Option Bool :=
  match etType with
  | .kSubKeyEq => some (ts != et)
  | .kSubKeyGt => some (decide (ts ≤ et))
  | .kSubKeyGe => some (decide (ts < et))
  | _ => none

/-- The end bound as both paths adjust it: the bound and its type. -/
def endBound (ttlType : TTLType) (expireTime et : UInt64) (etType : GetType) : UInt64 × GetType :=
  (if ttlType = .kAbsoluteTime ∨ ttlType = .kAbsOrLat then max et expireTime else et,
    if et < expireTime ∧ etType = .kSubKeyGt then .kSubKeyGe else etType)

section Scan

variable (maxBytes : Nat) (blockSize : Nat → Nat)

/-- The loop of `ScanIndex` over the combined iterator, in at most `fuel`
rounds: `tmp` the rows so far, `lastTime` the last row's timestamp, `total`
their bytes. An error code is `.error`. -/
def scanLoop (limit atleast : UInt32) (et : UInt64) (realEtType : GetType) (dedup : Bool) :
    Nat → CombineIterator → List (UInt64 × Nat) → UInt64 → Nat → Except Int (List (UInt64 × Nat))
  | 0, _, tmp, _, _ => .ok tmp
  | fuel + 1, c, tmp, lastTime, total =>
    if !c.valid then .ok tmp
    else if limit > 0 ∧ tmp.length ≥ limit.toNat then .ok tmp
    else if dedup ∧ tmp.length > 0 ∧ lastTime = c.getTs then
      scanLoop limit atleast et realEtType dedup fuel c.next tmp lastTime total
    else
      let ts := c.getTs
      let jumpOut := if atleast ≤ 0 ∨ tmp.length ≥ atleast.toNat then pastEnd realEtType et ts else some false
      match jumpOut with
      | none => .error (-2)
      | some true => .ok tmp
      | some false =>
        let total := total + blockSize c.getValue
        if total > maxBytes then .error (-3)
        else scanLoop limit atleast et realEtType dedup fuel c.next (tmp ++ [(ts, c.getValue)]) ts total

/-- `ScanIndex(request, ..., combine_it, pairs, count)`: the rows, in at most
`fuel` rounds of the loop. -/
def scanIndex (req : ScanRequest) (c : CombineIterator) (fuel : Nat) : Except Int (List (UInt64 × Nat)) :=
  if req.atleast > req.limit ∧ req.limit ≠ 0 then .error (-1)
  else
    let (et, realEtType) := endBound c.ttlType c.expireTime req.et req.etType
    if req.st > 0 ∧ req.st < et then .error (-1)
    else scanLoop maxBytes blockSize req.limit req.atleast et realEtType req.dedup fuel c.seekToFirst [] 0 0

end Scan

/-- The fields of `CountRequest` that `CountIndex` reads. -/
structure CountRequest where
  st : UInt64
  stType : GetType
  et : UInt64
  etType : GetType
  dedup : Bool
  deriving Repr, DecidableEq

/-- The TTL test of the loop of `CountIndex` at a record of timestamp `key`
with `cnt` records passed. -/
def countExpired (ttlType : TTLType) (expireTime expireCnt : UInt64) (cnt : UInt32) (key : UInt64) : Bool :=
  let byCnt := expireCnt != 0 && decide (cnt.toUInt64 ≥ expireCnt)
  let byTime := expireTime != 0 && decide (key ≤ expireTime)
  match ttlType with
  | .kAbsoluteTime => byTime
  | .kLatestTime => byCnt
  | .kAbsAndLat => byCnt && byTime
  | _ => byCnt || byTime

/-- The loop of `CountIndex` over the records from the iterator's position:
`cnt` counts the records passed, `internalCnt` those counted. -/
def countLoop (ttlType : TTLType) (expireTime expireCnt : UInt64) (et : UInt64) (realEtType : GetType)
    (dedup : Bool) : List DataNode → UInt32 → UInt64 → UInt32 → Except Int UInt32
  | [], _, _, internalCnt => .ok internalCnt
  | d :: ds, cnt, lastKey, internalCnt =>
    if dedup ∧ internalCnt > 0 ∧ lastKey = d.key then
      countLoop ttlType expireTime expireCnt et realEtType dedup ds (cnt + 1) lastKey internalCnt
    else if countExpired ttlType expireTime expireCnt cnt d.key then .ok internalCnt
    else
      match pastEnd realEtType et d.key with
      | none => .error (-2)
      | some true => .ok internalCnt
      | some false =>
        countLoop ttlType expireTime expireCnt et realEtType dedup ds (cnt + 1) d.key (internalCnt + 1)

/-- `CountIndex(expire_time, expire_cnt, ttl_type, it, request, count)`. -/
def countIndex (expireTime expireCnt : UInt64) (ttlType : TTLType) (it : TimeIt) (req : CountRequest) :
    Except Int UInt32 :=
  let (et, realEtType) := endBound ttlType expireTime req.et req.etType
  let realStType := if req.stType = GetType.kSubKeyEq then GetType.kSubKeyLe else req.stType
  if req.stType ≠ .kSubKeyEq ∧ req.stType ≠ .kSubKeyLe ∧ req.stType ≠ .kSubKeyLt then .error (-2)
  else if req.st > 0 then
    if req.st < et then .error (-1)
    else
      let (it, cnt) : TimeIt × UInt32 :=
        if expireCnt = 0 then (seek it req.st realStType, 0)
        else
          match ttlType with
          | .kAbsoluteTime => (seek it req.st realStType, 0)
          | .kAbsAndLat =>
            let (it', cnt, found) := seekWithCount it req.st realStType expireCnt.toUInt32 0
            if found then (it', cnt) else (seek it' req.st realStType, cnt)
          | _ =>
            let (it', cnt, _) := seekWithCount it req.st realStType expireCnt.toUInt32 0
            (it', cnt)
      countLoop ttlType expireTime expireCnt et realEtType req.dedup it.rest cnt 0 0
  else countLoop ttlType expireTime expireCnt et realEtType req.dedup it.list 0 0 0

/-- One partition whose key holds a single record, of timestamp `0`, under
`kAbsoluteTime` without a bound, read from the newest record (`st = 0`) down
to `et = 0` (`kSubKeyGe`): `CountIndex` counts the record, and `ScanIndex`,
whatever its fuel, byte bound and block sizes, returns code `0` with no row. -/
theorem count_scan_differ_at_zero (maxBytes : Nat) (blockSize : Nat → Nat) (fuel : Nat) :
    countIndex 0 0 .kAbsoluteTime (TimeIt.first [⟨0, 7, 1⟩]) ⟨0, .kSubKeyLe, 0, .kSubKeyGe, false⟩ = .ok 1 ∧
      scanIndex maxBytes blockSize ⟨0, 0, 0, 0, .kSubKeyGe, false⟩
        (CombineIterator.new [QueryIt.ofList [⟨0, 7, 1⟩]] 0 .kSubKeyLe ⟨0, 0, .kAbsoluteTime⟩) (fuel + 1) =
        .ok [] :=
  ⟨rfl, rfl⟩

end Fedb.Tablet
