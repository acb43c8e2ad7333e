import Fedb.Lib.ByteBuffer

/-! # The flat-array row format (format version 0)

`FlatArrayCodec` (`src/codec/flat_array.h`) encodes a row as a column-count
header and one field per column: a type byte, the length of the value in one
byte, or in two with the high bit of the first set, and the value's bytes.
`Append*` stores each value in `datas_`, `Build()` sizes the buffer with
`GetSize()` and writes the header and the fields. A table that gained
columns writes `modify_times_`, the number of added columns, with a flag bit
in place of the count.

`FlatArrayIterator` reads it back: its constructor reads the header, as one
byte when the reader's `column_size` is below `128` and as two otherwise,
and `Next()` the header of the next field; each `Get*` checks the type and
reads the value. The header's width is chosen by three tests that do not
agree: `GetSize()` by the number of columns, `Build()` by the columns less
the added ones, and the reader by the `column_size` it is given.

The buffer is the list of its bytes; the integers are stored least
significant byte first (`memrev*ifbe` swaps nothing on a little-endian
machine), `float` and `double` values as their bit patterns. A type byte is
kept as the byte itself, compared with the values of `ColType`.
-/

namespace Fedb.Codec

open ByteBuffer

/-- `ColType`. -/
inductive ColType
  | kString | kFloat | kInt32 | kInt64 | kDouble | kNull | kUInt32 | kUInt64 | kTimestamp | kDate
  | kInt16 | kUInt16 | kBool | kEmptyString | kUnknown
  deriving DecidableEq, Repr

/-- The value of a `ColType`, the byte a field's type is stored as. -/
def ColType.toUInt8 : ColType → UInt8
  | .kString => 0
  | .kFloat => 1
  | .kInt32 => 2
  | .kInt64 => 3
  | .kDouble => 4
  | .kNull => 5
  | .kUInt32 => 6
  | .kUInt64 => 7
  | .kTimestamp => 8
  | .kDate => 9
  | .kInt16 => 10
  | .kUInt16 => 11
  | .kBool => 12
  | .kEmptyString => 100
  | .kUnknown => 200

theorem ColType.toUInt8_inj {t s : ColType} (h : t.toUInt8 = s.toUInt8) : t = s := by
  cases t <;> cases s <;> first | rfl | exact absurd h (by decide)

def MAX_STRING_LENGTH : Nat := 32767

/-- `EMPTY_STRING`, the text `!@#$%`, as its bytes. -/
def EMPTY_STRING : List UInt8 := [33, 64, 35, 36, 37]

/-- `Column`: a field's type and the bytes of its value. -/
structure Column where
  type : ColType
  buffer : List UInt8
  deriving DecidableEq, Repr

instance : Inhabited Column := ⟨⟨.kString, []⟩⟩

/-- The members of `FlatArrayCodec`, with the string `buffer_` points to. -/
structure FlatArrayCodec where
  buffer : List UInt8
  colCnt : Nat
  curCnt : Nat
  datas : List Column
  modifyTimes : Int
  deriving DecidableEq, Repr

namespace FlatArrayCodec

/-- `FlatArrayCodec(buffer, col_cnt, modify_times)`: `col_cnt` columns of
type `0`, `kString`, with no value. -/
def new (buffer : List UInt8) (colCnt : Nat) (modifyTimes : Int) : FlatArrayCodec :=
  ⟨buffer, colCnt, 0, List.replicate colCnt default, modifyTimes⟩

/-- `Encode(type, data, size)`: the column `cur_cnt_` gets the type, and the
bytes unless there are none. -/
def encode (c : FlatArrayCodec) (type : ColType) (data : List UInt8) : FlatArrayCodec :=
  { c with datas := c.datas.modify c.curCnt fun col => ⟨type, if data.length ≠ 0 then data else col.buffer⟩ }

/-- The `Append` of a value of `width` bytes: the next column, if there is
one, gets its bytes. -/
def appendFixed (c : FlatArrayCodec) (type : ColType) (width v : Nat) : Option FlatArrayCodec :=
  if c.curCnt ≥ c.colCnt then none
  else some { c.encode type (leBytes width v) with curCnt := c.curCnt + 1 }

def appendBool (c : FlatArrayCodec) (data : Bool) : Option FlatArrayCodec :=
  c.appendFixed .kBool 1 (if data then 1 else 0)

def appendUInt16 (c : FlatArrayCodec) (data : UInt16) : Option FlatArrayCodec :=
  c.appendFixed .kUInt16 2 data.toNat

def appendInt16 (c : FlatArrayCodec) (data : Int16) : Option FlatArrayCodec :=
  c.appendFixed .kInt16 2 data.toUInt16.toNat

def appendFloat (c : FlatArrayCodec) (data : UInt32) : Option FlatArrayCodec :=
  c.appendFixed .kFloat 4 data.toNat

def appendInt32 (c : FlatArrayCodec) (data : Int32) : Option FlatArrayCodec :=
  c.appendFixed .kInt32 4 data.toUInt32.toNat

def appendInt64 (c : FlatArrayCodec) (data : Int64) : Option FlatArrayCodec :=
  c.appendFixed .kInt64 8 data.toUInt64.toNat

def appendUInt32 (c : FlatArrayCodec) (data : UInt32) : Option FlatArrayCodec :=
  c.appendFixed .kUInt32 4 data.toNat

def appendUInt64 (c : FlatArrayCodec) (data : UInt64) : Option FlatArrayCodec :=
  c.appendFixed .kUInt64 8 data.toNat

def appendTimestamp (c : FlatArrayCodec) (data : UInt64) : Option FlatArrayCodec :=
  c.appendFixed .kTimestamp 8 data.toNat

def appendDate (c : FlatArrayCodec) (data : UInt64) : Option FlatArrayCodec :=
  c.appendFixed .kDate 8 data.toNat

def appendDouble (c : FlatArrayCodec) (data : UInt64) : Option FlatArrayCodec :=
  c.appendFixed .kDouble 8 data.toNat

/-- `Append(const std::string&)`: an empty string is a `kEmptyString` field
without bytes. -/
def appendString (c : FlatArrayCodec) (data : List UInt8) : Option FlatArrayCodec :=
  if c.curCnt ≥ c.colCnt then none
  else if data.length > MAX_STRING_LENGTH then none
  else if data.isEmpty then some { c.encode .kEmptyString [] with curCnt := c.curCnt + 1 }
  else some { c.encode .kString data with curCnt := c.curCnt + 1 }

def appendNull (c : FlatArrayCodec) : Option FlatArrayCodec :=
  if c.curCnt ≥ c.colCnt then none
  else some { c.encode .kNull [] with curCnt := c.curCnt + 1 }

/-- The header `Build()` writes: two bytes when the columns less the added
ones are at least `128`, else one; the added columns with a flag bit when
there are any, else the column count. -/
def headerBytes (colCnt : Nat) (modifyTimes : Int) : List UInt8 :=
  if (colCnt : Int) - modifyTimes ≥ 128 then
    -- `modify_times_` is positive here, so its bits are its `Nat` bits
    if modifyTimes > 0 then leBytes 2 ((modifyTimes.toNat ||| 0x8000) % 2 ^ 16)
    else leBytes 2 colCnt
  else if modifyTimes > 0 then [UInt8.ofNat (modifyTimes.toNat ||| 0x80)]
  else [UInt8.ofNat colCnt]

/-- The length of a value as `Build()` writes it, of `(uint16_t)size`: one
byte below `128`, else two with the high bit of the first set. -/
def sizeBytes (n : Nat) : List UInt8 :=
  let size := n % 2 ^ 16
  if size < 128 then [UInt8.ofNat size]
  else [UInt8.ofNat ((size >>> 8) ||| 0x80), UInt8.ofNat (size &&& 0xFF)]

/-- A field as `Build()` writes it. -/
def columnBytes (col : Column) : List UInt8 := col.type.toUInt8 :: sizeBytes col.buffer.length ++ col.buffer

/-- `GetSize()`: a one-byte header, two from `128` columns on, and each
field with its type, its length and its bytes, in `uint32_t`. -/
def getSize (c : FlatArrayCodec) : Nat :=
  (1 + (if c.datas.length ≥ 128 then 1 else 0) +
    (c.datas.map fun col => col.buffer.length + 1 + 1 + if col.buffer.length ≥ 128 then 1 else 0).sum) % 2 ^ 32

/-- `Build()`: the buffer resized to `GetSize()`, then the header and the
fields from its start. -/
def build (c : FlatArrayCodec) : FlatArrayCodec :=
  { c with buffer :=
      writeBytes (resize c.buffer c.getSize) 0 (headerBytes c.colCnt c.modifyTimes ++ (c.datas.map columnBytes).flatten) }

end FlatArrayCodec

/-- The members of `FlatArrayIterator`, with the buffer it reads from its
start: `buffer_` is the position `pos` in it. -/
structure FlatArrayIterator where
  buf : List UInt8
  pos : Nat
  colCnt : Nat
  bsize : Nat
  type : UInt8
  fsize : Nat
  offset : Nat
  deriving DecidableEq, Repr

namespace FlatArrayIterator

/-- `Next()`: the type and the length of the next field, unless fewer than
two bytes are left. -/
def next (it : FlatArrayIterator) : FlatArrayIterator :=
  if it.offset + 2 > it.bsize then { it with offset := it.offset + 2 }
  else
    let type := byteAt it.buf it.pos
    let b := byteAt it.buf (it.pos + 1)
    if b &&& 0x80 = 0 then { it with type := type, fsize := b.toNat, pos := it.pos + 2, offset := it.offset + 2 }
    else
      { it with type := type, fsize := ((b &&& 0x7F).toNat <<< 8) ||| (byteAt it.buf (it.pos + 2)).toNat,
                pos := it.pos + 3, offset := it.offset + 3 }

/-- `FlatArrayIterator(buffer, bsize, column_size)`: the column count from a
header of one byte when `column_size < 128` and of two otherwise, the flag
bit read as bit `7` in both; then the first field's header. -/
def new (buf : List UInt8) (bsize columnSize : Nat) : FlatArrayIterator :=
  let it : FlatArrayIterator := ⟨buf, 0, 0, bsize, ColType.kUnknown.toUInt8, 0, 0⟩
  let it :=
    if columnSize < 128 then
      let b := byteAt buf 0
      { it with colCnt := if b &&& 0x80 ≠ 0 then ((b &&& 0x7F).toNat + columnSize) % 2 ^ 16 else b.toNat,
                pos := 1, offset := 1 }
    else
      let tmp := readLE buf 0 2
      { it with colCnt := if tmp &&& 0x0080 ≠ 0 then ((tmp &&& 0x007F) + columnSize) % 2 ^ 16 else tmp,
                pos := 2, offset := 2 }
  it.next

/-- `Size()`. -/
def size (it : FlatArrayIterator) : Nat := it.colCnt

/-- `GetType()`. -/
def getType (it : FlatArrayIterator) : UInt8 := it.type

/-- `IsNULL()`. -/
def isNULL (it : FlatArrayIterator) : Bool :=
  it.type = ColType.kNull.toUInt8 || (it.fsize = 0 && it.type ≠ ColType.kEmptyString.toUInt8)

/-- `Valid()`. -/
def valid (it : FlatArrayIterator) : Bool := !(it.bsize < 2 || it.offset > it.bsize)

/-- The `Get*` of a value of `width` bytes: `false` for another type; `true`
without a value for an empty field; else the value, and the position past
it. -/
def getFixed (it : FlatArrayIterator) (type : ColType) (width : Nat) : FlatArrayIterator × Bool × Option Nat :=
  if it.type ≠ type.toUInt8 then (it, false, none)
  else if it.fsize = 0 then (it, true, none)
  else if it.offset + width > it.bsize then (it, false, none)
  else ({ it with pos := it.pos + width, offset := it.offset + width }, true, some (readLE it.buf it.pos width))

def getFloat (it : FlatArrayIterator) : FlatArrayIterator × Bool × Option UInt32 :=
  let r := it.getFixed .kFloat 4
  (r.1, r.2.1, r.2.2.map UInt32.ofNat)

def getUInt32 (it : FlatArrayIterator) : FlatArrayIterator × Bool × Option UInt32 :=
  let r := it.getFixed .kUInt32 4
  (r.1, r.2.1, r.2.2.map UInt32.ofNat)

def getInt32 (it : FlatArrayIterator) : FlatArrayIterator × Bool × Option Int32 :=
  let r := it.getFixed .kInt32 4
  (r.1, r.2.1, r.2.2.map fun v => (UInt32.ofNat v).toInt32)

def getUInt64 (it : FlatArrayIterator) : FlatArrayIterator × Bool × Option UInt64 :=
  let r := it.getFixed .kUInt64 8
  (r.1, r.2.1, r.2.2.map UInt64.ofNat)

/-- `GetBool(value)`: the byte `1` is `true`, any other `false`. -/
def getBool (it : FlatArrayIterator) : FlatArrayIterator × Bool × Option Bool :=
  let r := it.getFixed .kBool 1
  (r.1, r.2.1, r.2.2.map fun v => v == 1)

def getInt64 (it : FlatArrayIterator) : FlatArrayIterator × Bool × Option Int64 :=
  let r := it.getFixed .kInt64 8
  (r.1, r.2.1, r.2.2.map fun v => (UInt64.ofNat v).toInt64)

def getUInt16 (it : FlatArrayIterator) : FlatArrayIterator × Bool × Option UInt16 :=
  let r := it.getFixed .kUInt16 2
  (r.1, r.2.1, r.2.2.map UInt16.ofNat)

def getInt16 (it : FlatArrayIterator) : FlatArrayIterator × Bool × Option Int16 :=
  let r := it.getFixed .kInt16 2
  (r.1, r.2.1, r.2.2.map fun v => (UInt16.ofNat v).toInt16)

def getDate (it : FlatArrayIterator) : FlatArrayIterator × Bool × Option UInt64 :=
  let r := it.getFixed .kDate 8
  (r.1, r.2.1, r.2.2.map UInt64.ofNat)

def getTimestamp (it : FlatArrayIterator) : FlatArrayIterator × Bool × Option UInt64 :=
  let r := it.getFixed .kTimestamp 8
  (r.1, r.2.1, r.2.2.map UInt64.ofNat)

def getDouble (it : FlatArrayIterator) : FlatArrayIterator × Bool × Option UInt64 :=
  let r := it.getFixed .kDouble 8
  (r.1, r.2.1, r.2.2.map UInt64.ofNat)

/-- `GetString(value)`: a string or an empty string, an empty field read as
`EMPTY_STRING`. -/
def getString (it : FlatArrayIterator) : FlatArrayIterator × Bool × Option (List UInt8) :=
  if it.type ≠ ColType.kString.toUInt8 ∧ it.type ≠ ColType.kEmptyString.toUInt8 then (it, false, none)
  else if it.fsize = 0 then (it, true, some EMPTY_STRING)
  else if it.offset + it.fsize > it.bsize then (it, false, none)
  else
    ({ it with pos := it.pos + it.fsize, offset := it.offset + it.fsize }, true,
      some (readBytes it.buf it.pos it.fsize))

end FlatArrayIterator

/-! ## Fields

A field as a client appends it, with the `Append` it calls, and the getter a
client reads it back with. -/

/-- A value of one of the types `Append` takes, or NULL; `float` and
`double` values are their bit patterns, strings their bytes. -/
inductive Field
  | bool (v : Bool)
  | uint16 (v : UInt16)
  | int16 (v : Int16)
  | float (bits : UInt32)
  | int32 (v : Int32)
  | int64 (v : Int64)
  | uint32 (v : UInt32)
  | uint64 (v : UInt64)
  | timestamp (v : UInt64)
  | date (v : UInt64)
  | double (bits : UInt64)
  | string (v : List UInt8)
  | null
  deriving DecidableEq, Repr

namespace Field

/-- The type `Append` gives the field: `kEmptyString` for an empty string. -/
def type : Field → ColType
  | .bool _ => .kBool
  | .uint16 _ => .kUInt16
  | .int16 _ => .kInt16
  | .float _ => .kFloat
  | .int32 _ => .kInt32
  | .int64 _ => .kInt64
  | .uint32 _ => .kUInt32
  | .uint64 _ => .kUInt64
  | .timestamp _ => .kTimestamp
  | .date _ => .kDate
  | .double _ => .kDouble
  | .string v => if v.isEmpty then .kEmptyString else .kString
  | .null => .kNull

/-- The bytes `Append` stores for the field. -/
def bytes : Field → List UInt8
  | .bool v => leBytes 1 (if v then 1 else 0)
  | .uint16 v => leBytes 2 v.toNat
  | .int16 v => leBytes 2 v.toUInt16.toNat
  | .float v => leBytes 4 v.toNat
  | .int32 v => leBytes 4 v.toUInt32.toNat
  | .int64 v => leBytes 8 v.toUInt64.toNat
  | .uint32 v => leBytes 4 v.toNat
  | .uint64 v => leBytes 8 v.toNat
  | .timestamp v => leBytes 8 v.toNat
  | .date v => leBytes 8 v.toNat
  | .double v => leBytes 8 v.toNat
  | .string v => v
  | .null => []

/-- The column `Append` fills for the field. -/
def toColumn (f : Field) : Column := ⟨f.type, f.bytes⟩

/-- A field `Append` takes: a string of at most `MAX_STRING_LENGTH` bytes,
or any other value. -/
def fits : Field → Bool
  | .string v => decide (v.length ≤ MAX_STRING_LENGTH)
  | _ => true

/-- What the getter of a field gives back: the field itself, except that an
empty string is `EMPTY_STRING`. -/
def readBack : Field → Field
  | .string [] => .string EMPTY_STRING
  | f => f

end Field

/-- The `Append` a client calls for a field. -/
def FlatArrayCodec.appendField (c : FlatArrayCodec) : Field → Option FlatArrayCodec
  | .bool v => c.appendBool v
  | .uint16 v => c.appendUInt16 v
  | .int16 v => c.appendInt16 v
  | .float v => c.appendFloat v
  | .int32 v => c.appendInt32 v
  | .int64 v => c.appendInt64 v
  | .uint32 v => c.appendUInt32 v
  | .uint64 v => c.appendUInt64 v
  | .timestamp v => c.appendTimestamp v
  | .date v => c.appendDate v
  | .double v => c.appendDouble v
  | .string v => c.appendString v
  | .null => c.appendNull

/-- The appends of a list of fields, stopping at the first that fails. -/
def FlatArrayCodec.appendFields (c : FlatArrayCodec) : List Field → Option FlatArrayCodec
  | [] => some c
  | f :: fs => (c.appendField f).bind fun c => c.appendFields fs

/-- The getter a client reads a field with; a NULL field, which has none, is
read by `IsNULL()`. -/
def FlatArrayIterator.readField (it : FlatArrayIterator) : Field → FlatArrayIterator × Bool × Option Field
  | .bool _ => let r := it.getBool; (r.1, r.2.1, r.2.2.map .bool)
  | .uint16 _ => let r := it.getUInt16; (r.1, r.2.1, r.2.2.map .uint16)
  | .int16 _ => let r := it.getInt16; (r.1, r.2.1, r.2.2.map .int16)
  | .float _ => let r := it.getFloat; (r.1, r.2.1, r.2.2.map .float)
  | .int32 _ => let r := it.getInt32; (r.1, r.2.1, r.2.2.map .int32)
  | .int64 _ => let r := it.getInt64; (r.1, r.2.1, r.2.2.map .int64)
  | .uint32 _ => let r := it.getUInt32; (r.1, r.2.1, r.2.2.map .uint32)
  | .uint64 _ => let r := it.getUInt64; (r.1, r.2.1, r.2.2.map .uint64)
  | .timestamp _ => let r := it.getTimestamp; (r.1, r.2.1, r.2.2.map .timestamp)
  | .date _ => let r := it.getDate; (r.1, r.2.1, r.2.2.map .date)
  | .double _ => let r := it.getDouble; (r.1, r.2.1, r.2.2.map .double)
  | .string _ => let r := it.getString; (r.1, r.2.1, r.2.2.map .string)
  | .null => (it, it.isNULL, some .null)

/-- A client's round on a field: its getter, then `Next()`. -/
def FlatArrayIterator.step (it : FlatArrayIterator) (f : Field) : FlatArrayIterator := (it.readField f).1.next

end Fedb.Codec
