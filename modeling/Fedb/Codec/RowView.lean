import Fedb.Codec.Schema

/-! # `RowView`: reading a row

`RowView` (`src/codec/codec.cc`) reads the columns of an encoded row. Its
constructor lays the schema out again (`Init`, the same loop as the builder's
constructor) and checks the row (`Reset`): the size stored in the header
must be the size given. Every getter returns `-1` for a wrong index or type,
`1` for a NULL column and `0` with the value otherwise; the model returns the
code together with the value it writes to the out parameter.

The string offsets are read with `GetAddrLength(size)` bytes each, the
width the builder chose when it was handed a buffer of that size.
-/

namespace Fedb.Codec

open ByteBuffer

/-- The members of `RowView`. -/
structure RowView where
  strAddrLength : Nat
  isValid : Bool
  stringFieldCnt : Nat
  strFieldStartOffset : Nat
  size : Nat
  row : List UInt8
  schema : Schema
  offsetVec : List Nat

namespace RowView

/-- The loop of `Init`: as the builder's, but an unsupported type makes the
view invalid. Returns `offset_vec_`, `string_field_cnt_` and the offset after
the fixed fields, or `none`. -/
def initOffsets : List ColumnDesc → Nat → Nat → Option (List Nat × Nat × Nat)
  | [], strCnt, off => some ([], strCnt, off)
  | col :: cols, strCnt, off =>
    if isStringType col.dataType then
      (initOffsets cols (strCnt + 1) off).map fun r => (strCnt :: r.1, r.2)
    else
      match typeSize col.dataType with
      | some w => (initOffsets cols strCnt (off + w)).map fun r => (off :: r.1, r.2)
      | none => none

/-- `Reset(row, size)`: the row must be longer than the header and carry its
own size. -/
def reset (v : RowView) (row : List UInt8) (size : Nat) : RowView :=
  if v.schema.length = 0 ∨ size ≤ headerLength ∨ readLE row versionLength sizeLength ≠ size then
    { v with isValid := false }
  else { v with row := row, size := size, strAddrLength := getAddrLength size }

/-- `RowView(schema, row, size)`. -/
def new (schema : Schema) (row : List UInt8) (size : Nat) : RowView :=
  let v : RowView :=
    { strAddrLength := 0
      isValid := true
      stringFieldCnt := 0
      strFieldStartOffset := 0
      size := size
      row := row
      schema := schema
      offsetVec := [] }
  if schema.length = 0 then { v with isValid := false }
  else
    match initOffsets schema 0 (headerLength + bitMapSize schema.length) with
    | none => { v with isValid := false }
    | some r => ({ v with offsetVec := r.1, stringFieldCnt := r.2.1,
                          strFieldStartOffset := r.2.2 }).reset row size

/-- `CheckValid(idx, type)`. -/
def checkValid (v : RowView) (idx : Nat) (type : DataType) : Bool :=
  v.isValid &&
    match v.schema[idx]? with
    | none => false
    | some col => col.dataType == type

/-- `IsNULL(row, idx)`: the null bit of column `idx`. -/
def isNULL (row : List UInt8) (idx : Nat) : Bool :=
  testBit (byteAt row (headerLength + (idx >>> 3))) (idx &&& 7)

/-- The body shared by the fixed-width getters: the `width` bytes at the
column's offset. -/
def getField (v : RowView) (idx : Nat) (type : DataType) (width : Nat) : Int × Option Nat :=
  if !v.checkValid idx type then (-1, none)
  else if isNULL v.row idx then (1, none)
  else (0, some (readLE v.row (v.offsetVec.getD idx 0) width))

/-- `GetBool(idx, val)`: the byte read as `int8_t`, `true` exactly when it is `1`. -/
def getBool (v : RowView) (idx : Nat) : Int × Option Bool :=
  let r := v.getField idx .kBool 1
  (r.1, r.2.map fun bits => bits == 1)

def getInt16 (v : RowView) (idx : Nat) : Int × Option Int16 :=
  let r := v.getField idx .kSmallInt 2
  (r.1, r.2.map fun bits => (UInt16.ofNat bits).toInt16)

def getInt32 (v : RowView) (idx : Nat) : Int × Option Int32 :=
  let r := v.getField idx .kInt 4
  (r.1, r.2.map fun bits => (UInt32.ofNat bits).toInt32)

def getInt64 (v : RowView) (idx : Nat) : Int × Option Int64 :=
  let r := v.getField idx .kBigInt 8
  (r.1, r.2.map fun bits => (UInt64.ofNat bits).toInt64)

def getTimestamp (v : RowView) (idx : Nat) : Int × Option Int64 :=
  let r := v.getField idx .kTimestamp 8
  (r.1, r.2.map fun bits => (UInt64.ofNat bits).toInt64)

/-- `GetFloat(idx, val)`, as the bit pattern of the `float`. -/
def getFloat (v : RowView) (idx : Nat) : Int × Option UInt32 :=
  let r := v.getField idx .kFloat 4
  (r.1, r.2.map UInt32.ofNat)

/-- `GetDouble(idx, val)`, as the bit pattern of the `double`. -/
def getDouble (v : RowView) (idx : Nat) : Int × Option UInt64 :=
  let r := v.getField idx .kDouble 8
  (r.1, r.2.map UInt64.ofNat)

/-- `GetDate(idx, val)`: the encoded date. -/
def getDate (v : RowView) (idx : Nat) : Int × Option Int32 :=
  let r := v.getField idx .kDate 4
  (r.1, r.2.map fun bits => (UInt32.ofNat bits).toInt32)

/-- One entry of the offset table, `addr_space` bytes at slot `slot`; the
three-byte form is read most significant byte first. -/
def readStrOffset (row : List UInt8) (strStartOffset slot addrSpace : Nat) : Nat :=
  let ptr := strStartOffset + slot * addrSpace
  if addrSpace = 3 then
    ((((byteAt row ptr).toNat <<< 8) + (byteAt row (ptr + 1)).toNat) <<< 8) +
      (byteAt row (ptr + 2)).toNat
  else readLE row ptr addrSpace

/-- `v1::GetStrField`: the string in slot `field_offset`, which ends where the
next slot's string starts, or at the end of the row for the last slot
(`next_str_field_offset = 0`). Returns `-2` for an offset width other than 1
to 4 bytes. -/
def getStrField (row : List UInt8) (fieldOffset nextStrFieldOffset strStartOffset addrSpace : Nat) :
    Int × Option (List UInt8) :=
  if addrSpace = 0 ∨ addrSpace > 4 then (-2, none)
  else
    let strOffset := readStrOffset row strStartOffset fieldOffset addrSpace
    let nextStrOffset :=
      if nextStrFieldOffset > 0 then readStrOffset row strStartOffset nextStrFieldOffset addrSpace
      else 0
    let size :=
      if nextStrFieldOffset = 0 then u32Sub (readLE row versionLength sizeLength) strOffset
      else u32Sub nextStrOffset strOffset
    (0, some (readBytes row strOffset size))

/-- `GetString(idx, val, length)`. -/
def getString (v : RowView) (idx : Nat) : Int × Option (List UInt8) :=
  if !v.checkValid idx .kVarchar && !v.checkValid idx .kString then (-1, none)
  else if isNULL v.row idx then (1, none)
  else
    let fieldOffset := v.offsetVec.getD idx 0
    let nextStrFieldOffset := if fieldOffset < v.stringFieldCnt - 1 then fieldOffset + 1 else 0
    getStrField v.row fieldOffset nextStrFieldOffset v.strFieldStartOffset v.strAddrLength

end RowView

end Fedb.Codec
