import Fedb.Codec.Schema

/-! # `RowBuilder`: writing a row

`RowBuilder` (`src/codec/codec.cc`) writes one row into a caller's buffer.
The constructor lays the schema out; `SetBuffer` takes the buffer, writes the
header and marks every column NULL; each `Append<Type>` fills the next column
(`cnt_`) and advances. String bodies are written one after the other from
`str_offset_` on; the offset of string `p` is written into the offset table
when the string before it is appended (`SetStrOffset(p)`), the first one when
it is appended itself.

The builder is a record with one field per member of the C++ class; every
operation that can fail (`bool` in C++) returns `Option`, `none` for `false`.
A `nullptr` buffer or value cannot be passed to the model, so the checks for
it are not modelled.
-/

namespace Fedb.Codec

open ByteBuffer

/-- The members of `RowBuilder`. -/
structure RowBuilder where
  schema : Schema
  buf : List UInt8
  cnt : Nat
  size : Nat
  strFieldCnt : Nat
  strAddrLength : Nat
  strFieldStartOffset : Nat
  strOffset : Nat
  schemaVersion : UInt8
  offsetVec : List Nat

namespace RowBuilder

/-- The loop of the constructor over the columns: a string column gets its
position among the string columns (`str_field_cnt_` so far), any other column
its byte offset (`str_field_start_offset_` so far), which then grows by the
size of the type. Returns `offset_vec_`, `str_field_cnt_` and
`str_field_start_offset_`. -/
def initOffsets : List ColumnDesc → Nat → Nat → List Nat × Nat × Nat
  | [], strCnt, off => ([], strCnt, off)
  | col :: cols, strCnt, off =>
    if isStringType col.dataType then
      let r := initOffsets cols (strCnt + 1) off
      (strCnt :: r.1, r.2)
    else
      match typeSize col.dataType with
      | some w =>
        let r := initOffsets cols strCnt (off + w)
        (off :: r.1, r.2)
      -- "type is not supported": nothing is pushed
      | none => initOffsets cols strCnt off

/-- `RowBuilder(schema)`. -/
def new (schema : Schema) : RowBuilder :=
  let r := initOffsets schema 0 (headerLength + bitMapSize schema.length)
  { schema := schema, buf := [], cnt := 0, size := 0, strFieldCnt := r.2.1,
    strAddrLength := 0, strFieldStartOffset := r.2.2, strOffset := 0, schemaVersion := 1,
    offsetVec := r.1 }

/-- `SetBuffer(buf, size)` with `need_clear`: the header is written, the bitmap
is filled with `0xFF` (every column NULL) and the string offsets get the
width `GetAddrLength(size)`. -/
def setBuffer (b : RowBuilder) (buf : List UInt8) (size : Nat) : Option RowBuilder :=
  if size = 0 ∨ size < b.strFieldStartOffset + b.strFieldCnt then none
  else
    let buf := writeLE ((buf.set 0 1).set 1 b.schemaVersion) versionLength sizeLength size
    let buf := fill buf headerLength (bitMapSize b.schema.length) 0xFF
    let addr := getAddrLength size
    some { b with buf := buf, size := size, cnt := 0, strAddrLength := addr,
                  strOffset := b.strFieldStartOffset + addr * b.strFieldCnt }

/-- `SetSchemaVersion(version)`: the version byte the next `SetBuffer` writes. -/
def setSchemaVersion (b : RowBuilder) (version : UInt8) : RowBuilder := { b with schemaVersion := version }

/-- `CalTotalLength(string_length)`: the smallest row size whose offset width
can address it, `0` when none fits in `uint32_t`. -/
def calTotalLength (b : RowBuilder) (stringLength : Nat) : Nat :=
  if b.schema.length = 0 then 0
  else
    let totalLength := u32 (b.strFieldStartOffset + stringLength)
    if u32 (totalLength + b.strFieldCnt) ≤ uint8Max then u32 (totalLength + b.strFieldCnt)
    else if u32 (totalLength + u32 (b.strFieldCnt * 2)) ≤ uint16Max then
      u32 (totalLength + u32 (b.strFieldCnt * 2))
    else if u32 (totalLength + u32 (b.strFieldCnt * 3)) ≤ uint24Max then
      u32 (totalLength + u32 (b.strFieldCnt * 3))
    else if u32 (totalLength + u32 (b.strFieldCnt * 4)) ≤ uint32Max then
      u32 (totalLength + u32 (b.strFieldCnt * 4))
    else 0

/-- `Check(index, type)`. -/
def check (b : RowBuilder) (index : Nat) (type : DataType) : Bool :=
  match b.schema[index]? with
  | none => false
  | some col => col.dataType == type && inTypeSet col.dataType

/-- `SetField(index)`: clear the null bit of the column. -/
def setField (b : RowBuilder) (index : Nat) : RowBuilder :=
  { b with buf := modifyByte b.buf (headerLength + (index >>> 3)) (clearBit · (index &&& 7)) }

/-- `SetStrOffset(str_pos)`: store `str_offset_` into slot `str_pos` of the
offset table, in `str_addr_length_` bytes; past the last slot nothing is
stored. The three-byte form is stored most significant byte first. -/
def setStrOffset (b : RowBuilder) (strPos : Nat) : RowBuilder :=
  if strPos ≥ b.strFieldCnt then b
  else
    let ptr := b.strFieldStartOffset + b.strAddrLength * strPos
    if b.strAddrLength = 1 then { b with buf := writeLE b.buf ptr 1 b.strOffset }
    else if b.strAddrLength = 2 then { b with buf := writeLE b.buf ptr 2 b.strOffset }
    else if b.strAddrLength = 3 then
      { b with buf := ((b.buf.set ptr (UInt8.ofNat (b.strOffset >>> 16))).set (ptr + 1)
                        (UInt8.ofNat ((b.strOffset &&& 0xFF00) >>> 8))).set (ptr + 2)
                        (UInt8.ofNat (b.strOffset &&& 0x00FF)) }
    else { b with buf := writeLE b.buf ptr 4 b.strOffset }

/-- The body shared by the fixed-width setters `SetBool`, `SetInt16`, ...:
check the column, clear its null bit and store the low `width` bytes of
`bits` at its offset. -/
def setFixed (b : RowBuilder) (index : Nat) (type : DataType) (width bits : Nat) :
    Option RowBuilder :=
  if b.check index type then
    let b := b.setField index
    some { b with buf := writeLE b.buf (b.offsetVec.getD index 0) width bits }
  else none

/-- `SetBool(index, val)`: the byte `1` or `0`. -/
def setBool (b : RowBuilder) (index : Nat) (val : Bool) : Option RowBuilder :=
  b.setFixed index .kBool 1 (if val then 1 else 0)

def setInt16 (b : RowBuilder) (index : Nat) (val : Int16) : Option RowBuilder :=
  b.setFixed index .kSmallInt 2 val.toUInt16.toNat

def setInt32 (b : RowBuilder) (index : Nat) (val : Int32) : Option RowBuilder :=
  b.setFixed index .kInt 4 val.toUInt32.toNat

def setInt64 (b : RowBuilder) (index : Nat) (val : Int64) : Option RowBuilder :=
  b.setFixed index .kBigInt 8 val.toUInt64.toNat

def setTimestamp (b : RowBuilder) (index : Nat) (val : Int64) : Option RowBuilder :=
  b.setFixed index .kTimestamp 8 val.toUInt64.toNat

/-- `SetFloat(index, val)`; a `float` is modelled by its bit pattern. -/
def setFloat (b : RowBuilder) (index : Nat) (val : UInt32) : Option RowBuilder :=
  b.setFixed index .kFloat 4 val.toNat

/-- `SetDouble(index, val)`; a `double` is modelled by its bit pattern. -/
def setDouble (b : RowBuilder) (index : Nat) (val : UInt64) : Option RowBuilder :=
  b.setFixed index .kDouble 8 val.toNat

/-- `SetDate(index, date)` with an encoded date. -/
def setDate (b : RowBuilder) (index : Nat) (date : Int32) : Option RowBuilder :=
  b.setFixed index .kDate 4 date.toUInt32.toNat

/-- `SetDate(index, year, month, day)`: range checks, then the encoding
`(year - 1900) << 16 | (month - 1) << 8 | day` is stored before the null bit
is cleared. -/
def setDateYMD (b : RowBuilder) (index year month day : Nat) : Option RowBuilder :=
  if year < 1900 ∨ year > 9999 then none
  else if month < 1 ∨ month > 12 then none
  else if day < 1 ∨ day > 31 then none
  else if !b.check index .kDate then none
  else
    let data := ((year - 1900) <<< 16) ||| ((month - 1) <<< 8) ||| day
    let b := { b with buf := writeLE b.buf (b.offsetVec.getD index 0) 4 data }
    some (b.setField index)

/-- `SetNULL(index)`: set the null bit; a NULL string still records where the
next string starts (`SetStrOffset(str_pos + 1)`). Reading a column past the
schema is undefined in C++ and fails here. -/
def setNULL (b : RowBuilder) (index : Nat) : Option RowBuilder :=
  match b.schema[index]? with
  | none => none
  | some col =>
    if col.notNull then none
    else
      let b := { b with buf := modifyByte b.buf (headerLength + (index >>> 3))
                                 (setBit · (index &&& 7)) }
      if isStringType col.dataType then some (b.setStrOffset (b.offsetVec.getD index 0 + 1))
      else some b

/-- `SetString(index, val, length)`: the bytes go to `str_offset_`; the first
string also records its own start, every string records the start of the
next one. -/
def setString (b : RowBuilder) (index : Nat) (val : List UInt8) : Option RowBuilder :=
  if !b.check index .kVarchar && !b.check index .kString then none
  else if u32 (b.strOffset + val.length) > b.size then none
  else
    let strPos := b.offsetVec.getD index 0
    let b := if strPos = 0 then b.setStrOffset strPos else b
    let b := { b with buf := writeBytes b.buf b.strOffset val }
    let b := { b with strOffset := u32 (b.strOffset + val.length) }
    let b := b.setStrOffset (strPos + 1)
    some (b.setField index)

/-- What every `Append<Type>` does after its setter succeeded: `cnt_++`. -/
def advance (b : RowBuilder) : RowBuilder := { b with cnt := b.cnt + 1 }

def appendBool (b : RowBuilder) (val : Bool) : Option RowBuilder :=
  (b.setBool b.cnt val).map advance

def appendInt16 (b : RowBuilder) (val : Int16) : Option RowBuilder :=
  (b.setInt16 b.cnt val).map advance

def appendInt32 (b : RowBuilder) (val : Int32) : Option RowBuilder :=
  (b.setInt32 b.cnt val).map advance

def appendInt64 (b : RowBuilder) (val : Int64) : Option RowBuilder :=
  (b.setInt64 b.cnt val).map advance

def appendTimestamp (b : RowBuilder) (val : Int64) : Option RowBuilder :=
  (b.setTimestamp b.cnt val).map advance

def appendFloat (b : RowBuilder) (val : UInt32) : Option RowBuilder :=
  (b.setFloat b.cnt val).map advance

def appendDouble (b : RowBuilder) (val : UInt64) : Option RowBuilder :=
  (b.setDouble b.cnt val).map advance

def appendDate (b : RowBuilder) (date : Int32) : Option RowBuilder :=
  (b.setDate b.cnt date).map advance

def appendDateYMD (b : RowBuilder) (year month day : Nat) : Option RowBuilder :=
  (b.setDateYMD b.cnt year month day).map advance

def appendString (b : RowBuilder) (val : List UInt8) : Option RowBuilder :=
  (b.setString b.cnt val).map advance

def appendNULL (b : RowBuilder) : Option RowBuilder :=
  (b.setNULL b.cnt).map advance

/-- `IsComplete()`. -/
def isComplete (b : RowBuilder) : Bool := b.cnt == b.schema.length

/-! ## Fields that the operations keep -/

@[simp] theorem setField_schema (b : RowBuilder) (i : Nat) : (b.setField i).schema = b.schema := rfl
@[simp] theorem setField_cnt (b : RowBuilder) (i : Nat) : (b.setField i).cnt = b.cnt := rfl
@[simp] theorem setField_size (b : RowBuilder) (i : Nat) : (b.setField i).size = b.size := rfl
@[simp] theorem setField_strFieldCnt (b : RowBuilder) (i : Nat) :
    (b.setField i).strFieldCnt = b.strFieldCnt := rfl
@[simp] theorem setField_strAddrLength (b : RowBuilder) (i : Nat) :
    (b.setField i).strAddrLength = b.strAddrLength := rfl
@[simp] theorem setField_strFieldStartOffset (b : RowBuilder) (i : Nat) :
    (b.setField i).strFieldStartOffset = b.strFieldStartOffset := rfl
@[simp] theorem setField_strOffset (b : RowBuilder) (i : Nat) :
    (b.setField i).strOffset = b.strOffset := rfl
@[simp] theorem setField_offsetVec (b : RowBuilder) (i : Nat) :
    (b.setField i).offsetVec = b.offsetVec := rfl
@[simp] theorem setField_buf_length (b : RowBuilder) (i : Nat) :
    (b.setField i).buf.length = b.buf.length := by simp [setField]

/-- `SetStrOffset` changes the buffer only. -/
theorem setStrOffset_eq (b : RowBuilder) (p : Nat) :
    ∃ buf, b.setStrOffset p = { b with buf := buf } := by
  unfold setStrOffset
  split_ifs
  · exact ⟨b.buf, rfl⟩
  all_goals exact ⟨_, rfl⟩

@[simp] theorem setStrOffset_schema (b : RowBuilder) (p : Nat) :
    (b.setStrOffset p).schema = b.schema := by
  obtain ⟨buf, h⟩ := setStrOffset_eq b p; rw [h]
@[simp] theorem setStrOffset_cnt (b : RowBuilder) (p : Nat) :
    (b.setStrOffset p).cnt = b.cnt := by
  obtain ⟨buf, h⟩ := setStrOffset_eq b p; rw [h]
@[simp] theorem setStrOffset_size (b : RowBuilder) (p : Nat) :
    (b.setStrOffset p).size = b.size := by
  obtain ⟨buf, h⟩ := setStrOffset_eq b p; rw [h]
@[simp] theorem setStrOffset_strFieldCnt (b : RowBuilder) (p : Nat) :
    (b.setStrOffset p).strFieldCnt = b.strFieldCnt := by
  obtain ⟨buf, h⟩ := setStrOffset_eq b p; rw [h]
@[simp] theorem setStrOffset_strAddrLength (b : RowBuilder) (p : Nat) :
    (b.setStrOffset p).strAddrLength = b.strAddrLength := by
  obtain ⟨buf, h⟩ := setStrOffset_eq b p; rw [h]
@[simp] theorem setStrOffset_strFieldStartOffset (b : RowBuilder) (p : Nat) :
    (b.setStrOffset p).strFieldStartOffset = b.strFieldStartOffset := by
  obtain ⟨buf, h⟩ := setStrOffset_eq b p; rw [h]
@[simp] theorem setStrOffset_strOffset (b : RowBuilder) (p : Nat) :
    (b.setStrOffset p).strOffset = b.strOffset := by
  obtain ⟨buf, h⟩ := setStrOffset_eq b p; rw [h]
@[simp] theorem setStrOffset_offsetVec (b : RowBuilder) (p : Nat) :
    (b.setStrOffset p).offsetVec = b.offsetVec := by
  obtain ⟨buf, h⟩ := setStrOffset_eq b p; rw [h]

@[simp] theorem setStrOffset_buf_length (b : RowBuilder) (p : Nat) :
    (b.setStrOffset p).buf.length = b.buf.length := by
  unfold setStrOffset
  split_ifs <;> simp

/-! ## The setters when their checks pass -/

section Setters

variable {b : RowBuilder} {index : Nat} {col : ColumnDesc}

theorem check_of_getElem? (h : b.schema[index]? = some col) :
    b.check index col.dataType = true := by
  simp [check, h, inTypeSet_eq_true]

theorem setFixed_of_check {type : DataType} {width bits : Nat} (h : b.check index type = true) :
    b.setFixed index type width bits =
      some { b.setField index with
        buf := writeLE (b.setField index).buf (b.offsetVec.getD index 0) width bits } := by
  simp [setFixed, h]

theorem setNULL_of_nullable (h : b.schema[index]? = some col) (hn : col.notNull = false) :
    b.setNULL index =
      let b1 := { b with buf := modifyByte b.buf (headerLength + (index >>> 3))
                                 (setBit · (index &&& 7)) }
      some (if isStringType col.dataType then b1.setStrOffset (b.offsetVec.getD index 0 + 1)
        else b1) := by
  simp only [setNULL, h, hn, Bool.false_eq_true, if_false]
  split <;> rfl

theorem setString_of_check (h : b.schema[index]? = some col)
    (hs : isStringType col.dataType = true) {val : List UInt8}
    (hle : u32 (b.strOffset + val.length) ≤ b.size) :
    b.setString index val =
      let strPos := b.offsetVec.getD index 0
      let b1 := if strPos = 0 then b.setStrOffset strPos else b
      let b2 := { b1 with buf := writeBytes b1.buf b1.strOffset val }
      let b3 := { b2 with strOffset := u32 (b2.strOffset + val.length) }
      some ((b3.setStrOffset (strPos + 1)).setField index) := by
  have hcheck : (!b.check index .kVarchar && !b.check index .kString) = false := by
    rcases (isStringType_iff _).1 hs with hv | hv <;> simp [check, h, hv, inTypeSet_eq_true]
  simp only [setString, hcheck, Bool.false_eq_true, if_false, gt_iff_lt, not_lt.2 hle]

end Setters

end RowBuilder

end Fedb.Codec
