import Fedb.Lib.ByteBuffer
import Fedb.Lib.Checksum

/-! # The log format

The binlog and the snapshots are written as logs (`src/log/log_format.h`):
blocks of `kBlockSize` bytes, or of `kCompressBlockSize` bytes compressed one
by one, each holding physical records of a header and a payload. A header is
a masked crc32c of the type and the payload (4 bytes), the payload's length
(2 bytes, or 4 in a compressed log) and the type (1 byte). A record longer
than a block's room is cut into a `kFirstType` fragment, `kMiddleType`
fragments and a `kLastType` fragment; one that fits is a `kFullType` record.

The crc32c of `crc32c.cc` is modelled byte by byte (`STEP1`) over its table
`table0_`, which every definition here takes as a parameter: the 4-byte
rounds of `Extend` compute the same register, and no proof depends on the
table. The fixed-width integers of `coding.h` are stored and loaded least
significant byte first, as on the little-endian machines `memcpy` serves.
-/

namespace Fedb.Log

open ByteBuffer Checksum

/-- `RecordType`. -/
inductive RecordType
  | kZeroType
  | kFullType
  | kFirstType
  | kMiddleType
  | kLastType
  | kEofType
  deriving Repr, DecidableEq

/-- The value of a `RecordType`. -/
def RecordType.toNat : RecordType → Nat
  | .kZeroType => 0
  | .kFullType => 1
  | .kFirstType => 2
  | .kMiddleType => 3
  | .kLastType => 4
  | .kEofType => 5

/-- `CompressType`. -/
inductive CompressType
  | kNoCompress
  | kZlib
  | kSnappy
  deriving Repr, DecidableEq

/-- The value of a `CompressType`. -/
def CompressType.toNat : CompressType → Nat
  | .kNoCompress => 0
  | .kZlib => 1
  | .kSnappy => 2

/-- `Writer::GetCompressType(compress_type)`. -/
def getCompressType (compressType : String) : CompressType :=
  if compressType = "zlib" then .kZlib
  else if compressType = "snappy" then .kSnappy
  else .kNoCompress

def kMaxRecordType : Nat := RecordType.kEofType.toNat

theorem RecordType.toNat_le (t : RecordType) : t.toNat ≤ kMaxRecordType := by
  cases t <;> decide

theorem RecordType.toNat_inj {t s : RecordType} (h : t.toNat = s.toNat) : t = s := by
  cases t <;> cases s <;> first | rfl | exact absurd h (by decide)

def kBlockSize : Nat := 4 * 1024

def kCompressBlockSize : Nat := 1 * 1024 * 1024

def kHeaderSize : Nat := 4 + 2 + 1

def kHeaderSizeForCompress : Nat := 4 + 4 + 1

def kHeaderSizeOfCompressBlock : Nat := 64

/-- The codes `ReadPhysicalRecord` returns besides a record's type. -/
def kEof : Nat := kMaxRecordType + 1

def kBadRecord : Nat := kMaxRecordType + 2

def kWaitRecord : Nat := kMaxRecordType + 3

/-- The outcomes of the writer's and the reader's calls. -/
inductive Status
  | ok
  | eof
  | waitRecord
  | invalidRecord
  | ioError
  deriving Repr, DecidableEq

/-! ## crc32c -/

def kMaskDelta : UInt32 := 0xa282ead8

/-- `Mask(crc)`: rotate right by 15 bits and add a constant. -/
def mask (crc : UInt32) : UInt32 := ((crc >>> 15) ||| (crc <<< 17)) + kMaskDelta

/-- `Unmask(masked_crc)`. -/
def unmask (maskedCrc : UInt32) : UInt32 :=
  let rot := maskedCrc - kMaskDelta
  (rot >>> 17) ||| (rot <<< 15)

/-- `STEP1` of `Extend`: one byte through `table0_`. -/
def crcStep (table0 : UInt8 → UInt32) (l : UInt32) (b : UInt8) : UInt32 :=
  table0 (l.toUInt8 ^^^ b) ^^^ (l >>> 8)

/-- `Extend(init_crc, data, n)`: the register starts and ends inverted. -/
def extend (table0 : UInt8 → UInt32) (initCrc : UInt32) (data : List UInt8) : UInt32 :=
  xorFold (crcStep table0) initCrc data

/-- `Value(data, n)`. -/
def value (table0 : UInt8 → UInt32) (data : List UInt8) : UInt32 := extend table0 0 data

/-- The stored checksum reads back. -/
theorem unmask_mask (crc : UInt32) : unmask (mask crc) = crc := by
  have hrot : ∀ x : UInt32, (x >>> 15) ||| (x <<< 17) = rotr x 15 := fun _ => rfl
  have hrot' : ∀ x : UInt32, (x >>> 17) ||| (x <<< 15) = rotr x (32 - 15) := fun _ => rfl
  simp only [unmask, mask, UInt32.add_sub_cancel, hrot, hrot']
  exact rotr_rotr crc (by decide) (by decide)

/-- The checksum of a type byte extended over a payload, as `EmitPhysicalRecord`
computes it from `type_crc_`, is the checksum of the two together, as the
reader computes it. -/
theorem extend_value (table0 : UInt8 → UInt32) (t : UInt8) (payload : List UInt8) :
    extend table0 (value table0 [t]) payload = value table0 (t :: payload) :=
  xorFold_append _ _ [t] payload

/-! ## Fixed-width integers -/

/-- `EncodeFixed32(buf, value)`. -/
def encodeFixed32 (buf : List UInt8) (value : UInt32) : List UInt8 := writeLE buf 0 4 value.toNat

/-- `DecodeFixed32(ptr)`. -/
def decodeFixed32 (buf : List UInt8) : UInt32 := (readLE buf 0 4).toUInt32

theorem decodeFixed32_encodeFixed32 {buf : List UInt8} (h : 4 ≤ buf.length) (v : UInt32) :
    decodeFixed32 (encodeFixed32 buf v) = v := by
  rw [decodeFixed32, encodeFixed32, readLE_writeLE_of_lt h (by simpa using v.toNat_lt)]
  exact UInt32.ofNat_toNat

end Fedb.Log
