import Fedb.Lib.Cursor
import Fedb.Lib.OrderedMap
import Fedb.Codec.Schema
import Fedb.Storage.Segment

/-! # The pair encodings of scan and traverse responses

`ScanResponse.pairs` holds records `[8 + size][time][value]`, written by
`codec::EncodeRows` with `codec::Encode` (`src/codec/row_codec.h`).
`TraverseResponse.pairs` holds records `[8 + |pk| + size][|pk|][time][pk][value]`,
written at the end of `TabletImpl::Traverse` with `codec::EncodeFull`.

Three decoders read them back, and each finds the records' boundaries its
own way. `codec::Decode` counts `total_size` down by `size + 4` and
`codec::DecodeFull` by `size + 8`. `base::KvIterator` advances `offset_` and
stops once it has passed `tsize_`.

Lengths and times are stored least significant byte first, and the counters
are `uint32_t` (`u32`). A decoder can meet a length that would take it past
the end of the string; the C++ loop then reads on past it. It can also meet
an `assert` that fails. In both cases the model's decoder gives `none`.
-/

namespace Fedb.Codec

open ByteBuffer
open Fedb.Storage (Slice sliceCompare)

/-! ## The encoders -/

/-- The record `Encode(time, data, size, ...)` writes: `8 + size`, the time
and the data. -/
def pairRecord (time : UInt64) (data : List UInt8) : List UInt8 :=
  leBytes 4 (u32 (8 + data.length)) ++ leBytes 8 time.toNat ++ data

/-- `Encode(time, data, size, buffer, offset)`. -/
def encode (time : UInt64) (data : List UInt8) (buffer : List UInt8) (offset : Nat) : List UInt8 :=
  writeBytes buffer offset (pairRecord time data)

/-- The loop of `EncodeRows`: each row at `offset`, which then advances by
`4 + 8 + size`. -/
def encodeRowsLoop : List (UInt64 × List UInt8) → List UInt8 → Nat → List UInt8
  | [], buffer, _ => buffer
  | (time, data) :: rows, buffer, offset =>
    encodeRowsLoop rows (encode time data buffer offset) (u32 (offset + (4 + 8 + data.length)))

/-- `EncodeRows(rows, total_block_size, pairs)`. `pairs` is resized to
`rows.size() * 12 + total_block_size` when there are rows. The rows are
written one after the other, and the size is returned as an `int32_t`. -/
def encodeRows (rows : List (UInt64 × List UInt8)) (totalBlockSize : Nat) (pairs : List UInt8) :
    Int32 × List UInt8 :=
  let totalSize := u32 (rows.length * (8 + 4) + totalBlockSize)
  let pairs := if rows.length > 0 then resize pairs totalSize else pairs
  (Int32.ofNat totalSize, encodeRowsLoop rows pairs 0)

/-- The record `EncodeFull(pk, time, data, size, ...)` writes: `8 + |pk| +
size`, `|pk|`, the time, the key and the data. -/
def fullRecord (pk : Slice) (time : UInt64) (data : List UInt8) : List UInt8 :=
  leBytes 4 (u32 (8 + pk.length + data.length)) ++ leBytes 4 (u32 pk.length) ++ leBytes 8 time.toNat ++
    pk ++ data

/-- `EncodeFull(pk, time, data, size, buffer, offset)`. -/
def encodeFull (pk : Slice) (time : UInt64) (data : List UInt8) (buffer : List UInt8) (offset : Nat) :
    List UInt8 :=
  writeBytes buffer offset (fullRecord pk time data)

/-- The loop at the end of `Traverse` that writes the records of
`value_map` at `offset`, which then advances by `4 + 4 + 8 + |pk| + size`. -/
def traverseEncodeLoop : List (Slice × UInt64 × List UInt8) → List UInt8 → Nat → List UInt8
  | [], buffer, _ => buffer
  | (pk, time, data) :: records, buffer, offset =>
    traverseEncodeLoop records (encodeFull pk time data buffer offset)
      (u32 (offset + (4 + 4 + 8 + pk.length + data.length)))

/-- The `pairs` that `Traverse` writes for the records it took, in the order
of `value_map`.
* `scount` is the number of records.
* `total_block_size` is the sum of the keys' and the values' lengths.
* `pairs` is resized to `scount * 16 + total_block_size`, or to `0` when
  there are no records.
* The records are then written one after the other. -/
def traversePairs (records : List (Slice × UInt64 × List UInt8)) (pairs : List UInt8) : List UInt8 :=
  let scount := records.length
  let totalBlockSize := u32 (records.map fun r => r.1.length + r.2.2.length).sum
  let totalSize := u32 (scount * (8 + 4 + 4) + totalBlockSize)
  let pairs := if scount ≤ 0 then resize pairs 0 else resize pairs totalSize
  traverseEncodeLoop records pairs 0

/-! ## The decoders -/

/-- One round of the loop `while (total_size > 0)` of `Decode`, from `pos`.
It reads the record's length `size`, its time and `size - 8` bytes of data,
and lowers `total_size` by `size + 4`. -/
def decodeLoop (buf : List UInt8) (pos totalSize : Nat) : Option (List (UInt64 × List UInt8)) :=
  if totalSize = 0 then some []
  else
    let size := readLE buf pos 4
    -- `assert(size >= 8)`; a record longer than the rest would wrap `total_size`
    if size < 8 ∨ totalSize < size + 4 then none
    else
      (decodeLoop buf (pos + 4 + size) (totalSize - (size + 4))).map
        ((UInt64.ofNat (readLE buf (pos + 4) 8), readBytes buf (pos + 12) (size - 8)) :: ·)
termination_by totalSize

/-- `Decode(str, pairs)`: the pairs, in the order of the records. -/
def decode (str : List UInt8) : Option (List (UInt64 × List UInt8)) :=
  decodeLoop str 0 (u32 str.length)

/-- The `std::map` that `DecodeFull` fills: each key's bytes with the pairs
read under it. It is ordered by the key bytes, as `std::string` compares
them. -/
abbrev ValueMap := List (Slice × List (UInt64 × List UInt8))

/-- One round of the loop of `DecodeFull`, from `pos`. It reads `size`,
`pk_size`, the time, the key and `size - 8 - pk_size` bytes of data. The
pair is pushed under the key, and `total_size` is lowered by `size + 8`. -/
def decodeFullLoop (buf : List UInt8) (pos totalSize : Nat) (valueMap : ValueMap) : Option ValueMap :=
  if totalSize = 0 then some valueMap
  else
    let size := readLE buf pos 4
    let pkSize := readLE buf (pos + 4) 4
    -- `assert(size > pk_size + 8)`; a record longer than the rest would wrap `total_size`
    if size ≤ pkSize + 8 ∨ totalSize < size + 8 then none
    else
      let valueSize := size - 8 - pkSize
      decodeFullLoop buf (pos + 16 + pkSize + valueSize) (totalSize - (size + 8))
        (OrderedMap.push sliceCompare valueMap (readBytes buf (pos + 16) pkSize)
          (UInt64.ofNat (readLE buf (pos + 8) 8), readBytes buf (pos + 16 + pkSize) valueSize))
termination_by totalSize

/-- `DecodeFull(str, value_map)`. -/
def decodeFull (str : List UInt8) (valueMap : ValueMap) : Option ValueMap :=
  decodeFullLoop str 0 (u32 str.length) valueMap

/-! ## `KvIterator` -/

/-- The members of `KvIterator`. `buf` holds the bytes of `pairs` and `pos`
is the position of `buffer_` in them. Then come `tsize_` and `offset_`, the
record read last (`time_`, `pk_`, `tmp_`), and `has_pk_`. -/
structure KvIterator where
  buf : List UInt8
  pos : Nat
  tsize : Nat
  offset : Nat
  time : UInt64
  pk : Slice
  value : List UInt8
  hasPk : Bool
  deriving Repr, DecidableEq

namespace KvIterator

/-- `Next()`: the next record. When fewer bytes than a record's lengths are
left, only `offset_` moves on. -/
def next (it : KvIterator) : KvIterator :=
  if it.hasPk then
    if u32 (it.offset + 8) > it.tsize then { it with offset := u32 (it.offset + 8) }
    else
      let totalSize := readLE it.buf it.pos 4
      let pkSize := readLE it.buf (it.pos + 4) 4
      let valueSize := u32Sub (u32Sub totalSize pkSize) 8
      { it with
        pos := it.pos + 16 + pkSize + valueSize
        offset := u32 (it.offset + (8 + totalSize))
        time := UInt64.ofNat (readLE it.buf (it.pos + 8) 8)
        pk := readBytes it.buf (it.pos + 16) pkSize
        value := readBytes it.buf (it.pos + 16 + pkSize) valueSize }
  else
    if u32 (it.offset + 4) > it.tsize then { it with offset := u32 (it.offset + 4) }
    else
      let blockSize := readLE it.buf it.pos 4
      let valueSize := u32Sub blockSize 8
      { it with
        pos := it.pos + 12 + valueSize
        offset := u32 (it.offset + (4 + blockSize))
        time := UInt64.ofNat (readLE it.buf (it.pos + 4) 8)
        value := readBytes it.buf (it.pos + 12) valueSize }

/-- `KvIterator(response)` over the response's `pairs`, with `has_pk_` set
for a `TraverseResponse`. The constructor ends by reading the first
record. -/
def new (pairs : List UInt8) (hasPk : Bool) : KvIterator :=
  next ⟨pairs, 0, u32 pairs.length, 0, 0, [], [], hasPk⟩

/-- `Valid()`: `offset_` has not passed `tsize_`, and the buffer holds at
least one record's lengths and time. -/
def valid (it : KvIterator) : Bool :=
  !(it.offset > it.tsize) && (if it.hasPk then !(it.tsize < 16) else !(it.tsize < 12))

/-- `GetKey()`. -/
def getKey (it : KvIterator) : UInt64 := it.time

/-- `GetPK()`. -/
def getPK (it : KvIterator) : Slice := it.pk

/-- `GetValue()`. -/
def getValue (it : KvIterator) : List UInt8 := it.value

/-- What a reader of a `ScanResponse` takes in at most `fuel` rounds of
`for (; it.Valid(); it.Next())`. -/
def pairs (fuel : Nat) (it : KvIterator) : List (UInt64 × List UInt8) :=
  Cursor.drain valid next (fun it => (it.getKey, it.getValue)) fuel it

/-- What a reader of a `TraverseResponse` takes in at most `fuel` rounds. -/
def triples (fuel : Nat) (it : KvIterator) : List (Slice × UInt64 × List UInt8) :=
  Cursor.drain valid next (fun it => (it.getPK, it.getKey, it.getValue)) fuel it

end KvIterator

end Fedb.Codec
