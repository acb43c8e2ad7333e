import Fedb.Log.Format

/-! # `log::Reader`

`Reader` (`src/log/log_reader.cc`) reads a log back. `ReadPhysicalRecord`
parses the next physical record out of `buffer_`; once fewer bytes than a
header are left there (a trailer, or the end of what was read), it reads the
next block: `kBlockSize` bytes, or in a compressed log a header of
`kHeaderSizeOfCompressBlock` bytes, the compressed block it announces and the
block uncompressed. `ReadRecord` calls it until a record is whole, gluing
`kFirstType`, `kMiddleType` and `kLastType` fragments in `scratch`.

The file is the list of its bytes and a position; a read returns what is
left of it up to the size asked for, with an OK status also at the end of the
file, as `PosixSequentialFile::Read` does, and copies it to the front of
`backing_store_` (`store`, whose other bytes are those of earlier reads, or
zero). The header of a compressed block is read through `backing_store_`, so
a short read leaves earlier bytes in it. The uncompression is a parameter,
`none` where the library fails. A type byte is a `char`, widened to
`unsigned int` through its sign (`typeCode`).

`ReadRecord`'s loop is given fuel, `none` where it runs out: a compressed
log can keep it going without reading the file. Offsets are natural numbers;
the reporter is left out.
-/

namespace Fedb.Log

open ByteBuffer

/-- The members of `log::Reader`, with the file it reads. -/
structure Reader where
  file : List UInt8
  pos : Nat
  checksum : Bool
  compressed : Bool
  store : List UInt8
  buffer : List UInt8
  lastRecordOffset : Nat
  lastRecordEndOffset : Nat
  endOfBufferOffset : Nat
  lastEndOfBufferOffset : Nat
  initialOffset : Nat
  resyncing : Bool
  deriving Repr, DecidableEq

namespace Reader

/-- `Reader(file, reporter, checksum, initial_offset, compressed)` on a file
at its start. -/
def new (file : List UInt8) (checksum : Bool) (initialOffset : Nat) (compressed : Bool) : Reader :=
  ⟨file, 0, checksum, compressed, [], [], 0, 0, 0, 0, initialOffset, decide (initialOffset > 0)⟩

/-- `block_size_`. -/
def blockSize (r : Reader) : Nat := if r.compressed then kCompressBlockSize else kBlockSize

/-- `header_size_`. -/
def headerSize (r : Reader) : Nat := if r.compressed then kHeaderSizeForCompress else kHeaderSize

/-- `file_->Read(n, &result, backing_store_)`. -/
def read (r : Reader) (n : Nat) : Reader × List UInt8 :=
  let bytes := (r.file.drop r.pos).take n
  ({ r with pos := r.pos + bytes.length, store := bytes ++ r.store.drop bytes.length }, bytes)

/-- A header byte as `ReadPhysicalRecord` reads it: a `char`, converted to
`unsigned int`. -/
def typeCode (b : UInt8) : Nat := if b.toNat < 128 then b.toNat else 2 ^ 32 - 256 + b.toNat

/-- The compress type of a compressed block's header, copied as one byte
into a `CompressType`. -/
def compressTypeOf (b : UInt8) : Option CompressType :=
  if b = 2 then some .kSnappy else if b = 1 then some .kZlib else none

section Read

variable (table0 : UInt8 → UInt32) (uncompress : CompressType → List UInt8 → Option (List UInt8))

/-- The read of `ReadPhysicalRecord` into an empty buffer: the next block, or
the code it returns when a compressed block is bad. -/
def readBlock (r : Reader) : Reader × Except Nat (List UInt8) :=
  if ¬ r.compressed then
    let (r, block) := r.read r.blockSize
    (r, .ok block)
  else
    let (r, _) := r.read kHeaderSizeOfCompressBlock
    -- `compress_len` and the compress type come from `backing_store_`
    let compressLen := readLE r.store 0 4
    let compressType := r.store.getD 4 0
    let (r, block) := r.read compressLen
    match compressTypeOf compressType with
    | none => (r, .error kBadRecord)
    | some t =>
      match uncompress t block with
      | none => (r, .error kBadRecord)
      | some u => if u.length ≠ r.blockSize then (r, .error kBadRecord) else (r, .ok u)

/-- The position of the type byte in a header, where the checksummed bytes
start. -/
def typeOffset (r : Reader) : Nat := if r.compressed then 8 else 6

/-- The payload length a header holds, low byte first. -/
def lengthOf (r : Reader) (header : List UInt8) : Nat :=
  let a := (header.getD 4 0).toNat
  let b := (header.getD 5 0).toNat
  if ¬ r.compressed then a ||| (b <<< 8)
  else
    let c := (header.getD 6 0).toNat
    let d := (header.getD 7 0).toNat
    a ||| (b <<< 8) ||| (c <<< 16) ||| (d <<< 24)

/-- `ReadPhysicalRecord` from "Parse the header" on: the code and the
fragment of the physical record at the front of `buffer_`. -/
def parse (r : Reader) : Reader × Nat × List UInt8 :=
  let header := r.buffer
  let type := typeCode (header.getD r.typeOffset 0)
  let length := r.lengthOf header
  -- `header_size_ + length` is a `uint32_t`
  if (r.headerSize + length) % 2 ^ 32 > header.length then (r, kWaitRecord, [])
  else if r.checksum ∧ unmask (decodeFixed32 header) ≠ value table0 ((header.drop r.typeOffset).take (1 + length))
  then ({ r with buffer := [] }, kBadRecord, [])
  else if type = RecordType.kEofType.toNat ∧ length = 0 then ({ r with buffer := [] }, kEof, [])
  else if type = RecordType.kZeroType.toNat ∧ length = 0 then ({ r with buffer := [] }, kBadRecord, [])
  else
    let r := { r with buffer := r.buffer.drop ((r.headerSize + length) % 2 ^ 32) }
    -- a physical record that started before `initial_offset_`
    if r.endOfBufferOffset - r.buffer.length - r.headerSize - length < r.initialOffset then (r, kBadRecord, [])
    else (r, type, (header.drop r.headerSize).take length)

/-- `ReadPhysicalRecord(&result, offset)`: the code, the fragment, and
`offset`, set to where a block was read from if one was. -/
def readPhysicalRecord (r : Reader) : Reader × Nat × List UInt8 × Nat :=
  if r.buffer.length < r.headerSize then
    -- the last read was a full read, so this is a trailer to skip
    match readBlock uncompress { r with buffer := [] } with
    | (r, .error code) => (r, code, [], 0)
    | (r, .ok block) =>
      let offset := r.endOfBufferOffset
      let r := { r with buffer := block, endOfBufferOffset := r.endOfBufferOffset + block.length }
      if block.length < r.headerSize then (r, kWaitRecord, [], offset)
      else
        let (r, code, fragment) := parse table0 r
        (r, code, fragment, offset)
  else
    let (r, code, fragment) := parse table0 r
    (r, code, fragment, 0)

/-- `GoBackToLastBlock()`: back to the start of the block last read by a
call that returned a record. -/
def goBackToLastBlock (r : Reader) : Reader :=
  let offsetInBlock := r.lastEndOfBufferOffset % r.blockSize
  let blockStartLocation :=
    if r.lastEndOfBufferOffset > offsetInBlock then r.lastEndOfBufferOffset - offsetInBlock else 0
  { r with endOfBufferOffset := blockStartLocation, buffer := [], pos := blockStartLocation }

/-- `GoBackToStart()`. -/
def goBackToStart (r : Reader) : Reader := { r with endOfBufferOffset := 0, buffer := [], pos := 0 }

/-- `SkipToInitialBlock()`: to the block that can hold the record at
`initial_offset_`; the skip of the file does not fail. -/
def skipToInitialBlock (r : Reader) : Reader :=
  let offsetInBlock := r.initialOffset % r.blockSize
  let blockStartLocation := r.initialOffset - offsetInBlock
  -- don't search a block if we'd be in the trailer
  let blockStartLocation :=
    if offsetInBlock > r.blockSize - 6 then blockStartLocation + r.blockSize else blockStartLocation
  { r with endOfBufferOffset := blockStartLocation,
           pos := if blockStartLocation > 0 then r.pos + blockStartLocation else r.pos }

/-- The offsets `ReadRecord` sets when it returns a record that began at
`recordOffset`. -/
def recordRead (r : Reader) (recordOffset offset : Nat) : Reader :=
  { r with lastRecordOffset := recordOffset,
           lastRecordEndOffset := r.endOfBufferOffset - r.buffer.length,
           lastEndOfBufferOffset := if offset ≠ 0 then offset else r.lastEndOfBufferOffset }

/-- The loop of `ReadRecord(record, scratch)`, one physical record a round:
the reader, the status and the record, or `none` when the fuel runs out. -/
def readRecordLoop : Nat → Reader → Bool → List UInt8 → Nat → Option (Reader × Status × List UInt8)
  | 0, _, _, _, _ => none
  | fuel + 1, r, inFragmentedRecord, scratch, prospectiveRecordOffset =>
    let (r, recordType, fragment, offset) := readPhysicalRecord table0 uncompress r
    let physicalRecordOffset := r.endOfBufferOffset - r.buffer.length - r.headerSize - fragment.length
    if r.resyncing ∧ recordType = RecordType.kMiddleType.toNat then
      readRecordLoop fuel r inFragmentedRecord scratch prospectiveRecordOffset
    else if r.resyncing ∧ recordType = RecordType.kLastType.toNat then
      readRecordLoop fuel { r with resyncing := false } inFragmentedRecord scratch prospectiveRecordOffset
    else
      let r := { r with resyncing := false }
      if recordType = RecordType.kFullType.toNat then
        some (r.recordRead physicalRecordOffset offset, .ok, fragment)
      else if recordType = kWaitRecord then some (r.goBackToLastBlock, .waitRecord, [])
      else if recordType = RecordType.kFirstType.toNat then
        readRecordLoop fuel r true fragment physicalRecordOffset
      else if recordType = RecordType.kMiddleType.toNat then
        if ¬ inFragmentedRecord then readRecordLoop fuel r inFragmentedRecord scratch prospectiveRecordOffset
        else readRecordLoop fuel r inFragmentedRecord (scratch ++ fragment) prospectiveRecordOffset
      else if recordType = RecordType.kLastType.toNat then
        if ¬ inFragmentedRecord then readRecordLoop fuel r inFragmentedRecord scratch prospectiveRecordOffset
        else some (r.recordRead prospectiveRecordOffset offset, .ok, scratch ++ fragment)
      else if recordType = kEof then some (r, .eof, [])
      else some (r, .invalidRecord, [])

/-- `ReadRecord(record, scratch)`. -/
def readRecord (fuel : Nat) (r : Reader) : Option (Reader × Status × List UInt8) :=
  let r := if r.lastRecordOffset < r.initialOffset then r.skipToInitialBlock else r
  readRecordLoop table0 uncompress fuel r false [] 0

end Read

end Reader

end Fedb.Log
