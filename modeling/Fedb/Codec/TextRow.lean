import Fedb.Lib.Decimal
import Fedb.Codec.RowView
import Fedb.Codec.RowBuilder
import Fedb.Codec.FlatArray

/-! # The text row codec of format version 1

`RowCodec::EncodeRow(input_value, schema, version, row)`
(`src/codec/row_codec.h`) writes a row from one text per column:
`CalStrLength` sums the lengths of the non-NULL strings, the builder gets a
buffer of `CalTotalLength` bytes, and each text goes in through
`RowBuilder::AppendValue` (`src/codec/codec.cc`), which converts it to the
column's type with `boost::lexical_cast`, or through `AppendNULL` where it is
`null` or `NONETOKEN`. `RowCodec::DecodeRow` reads every column back as text
with `RowView::GetStrValue`, and `NONETOKEN` for a NULL column.

`SDKCodec` (`src/codec/sdk_codec.cc`) keeps the table's schema, a map from
schema versions to schemas and the last version. It encodes with the whole
schema under the last version, and decodes with the schema that the row's
version byte selects.

Texts are byte strings, as `std::string`s are. The conversions between text
and numbers come from `boost::lexical_cast` and the C library; they are a
parameter (`TextConv`), with the laws a round trip needs stated apart
(`TextConv.ReadsDecimal`).
`SDKCodec` is modelled for tables of format version 1 only; the flat-array
codec of format version 0 is not.
-/

namespace Fedb.Codec

open ByteBuffer

/-! ## The texts the codec compares with -/

/-- `NONETOKEN`, the text `!N@U#L$L%` that stands for NULL, as its bytes. -/
def NONETOKEN : List UInt8 := [33, 78, 64, 85, 35, 76, 36, 76, 37]

/-- The text `null`. -/
def nullText : List UInt8 := [110, 117, 108, 108]

/-- The text `true`. -/
def trueText : List UInt8 := [116, 114, 117, 101]

/-- The text `false`. -/
def falseText : List UInt8 := [102, 97, 108, 115, 101]

/-- The test `value == "null" || value == NONETOKEN`. -/
def isNullText (v : List UInt8) : Bool := v == nullText || v == NONETOKEN

/-- `::tolower` in the C locale. -/
def toLower (b : UInt8) : UInt8 := if 65 ≤ b ∧ b ≤ 90 then b + 32 else b

/-- The loop of `fedb::base::SplitString(full, delim, result)` for a one-byte
delimiter, with the piece read so far: the pieces between delimiters, the
empty ones dropped. -/
def splitStringLoop (delim : UInt8) : List UInt8 → List UInt8 → List (List UInt8)
  | [], tmp => if tmp.isEmpty then [] else [tmp]
  | c :: rest, tmp =>
    if c = delim then (if tmp.isEmpty then [] else [tmp]) ++ splitStringLoop delim rest []
    else splitStringLoop delim rest (tmp ++ [c])

/-- `SplitString(full, delim, result)`. -/
def splitString (full : List UInt8) (delim : UInt8) : List (List UInt8) := splitStringLoop delim full []

/-! ## The conversions of the C++ libraries -/

/-- The conversions between text and values that the codecs take from the
C++ libraries, left open: `boost::lexical_cast` from text to an integer of
`bits` bits, signed (`toSigned`) or not (`toUnsigned`), to `float` and to
`double`, `none` where it throws; `std::to_string` of a `float` and a
`double`; and, for the flat-array codec, `lexical_cast` to text of an
integer (`showInt`), a `float` and a `double`, the seconds `strptime` and
`mktime` give a text of the format `%Y-%m-%d %H:%M:%S` (`none` where
`strptime` fails), and the text `localtime` and `strftime` with `%Y-%m-%d`
give back. A `float` or `double` is its bit pattern, as in `RowBuilder`. -/
structure TextConv where
  toSigned : Nat → List UInt8 → Option Int
  toUnsigned : Nat → List UInt8 → Option Nat
  parseFloat : List UInt8 → Option UInt32
  parseDouble : List UInt8 → Option UInt64
  printFloat : UInt32 → List UInt8
  printDouble : UInt64 → List UInt8
  showInt : Int → List UInt8
  showFloat : UInt32 → List UInt8
  showDouble : UInt64 → List UInt8
  mktime : List UInt8 → Option Int
  showDate : Int → List UInt8

/-- What the round trips ask of `boost::lexical_cast` from text to an
integer: the decimal text of a number in the range of the type, as
`std::to_string` writes it (no `+`, no leading zero, `-` before a negative
number), reads back as that number. -/
structure TextConv.ReadsDecimal (tc : TextConv) : Prop where
  toSigned_ofInt : ∀ {bits : Nat} {v : Int}, 0 < bits → -(2 ^ (bits - 1) : Int) ≤ v →
    v < 2 ^ (bits - 1) → tc.toSigned bits (Decimal.ofInt v) = some v
  toUnsigned_ofNat : ∀ {bits n : Nat}, n < 2 ^ bits → tc.toUnsigned bits (Decimal.ofNat n) = some n

/-! ## Writing a row from texts -/

/-- `AppendValue(val)`: the text converted to the type of column `cnt_` and
appended. A text that does not convert (`lexical_cast` throws) fails, and so
does a bool other than `true` or `false` in any case. A date is
`year-month-day`, split at `-` (45). -/
def RowBuilder.appendValue (tc : TextConv) (b : RowBuilder) (val : List UInt8) :
    Option RowBuilder :=
  match b.schema[b.cnt]? with
  | none => none
  | some col =>
    match col.dataType with
    | .kString | .kVarchar => b.appendString val
    | .kBool =>
      let bVal := val.map toLower
      if bVal = trueText then b.appendBool true
      else if bVal = falseText then b.appendBool false
      else none
    | .kSmallInt => (tc.toSigned 16 val).bind fun v => b.appendInt16 (Int16.ofInt v)
    | .kInt => (tc.toSigned 32 val).bind fun v => b.appendInt32 (Int32.ofInt v)
    | .kBigInt => (tc.toSigned 64 val).bind fun v => b.appendInt64 (Int64.ofInt v)
    | .kTimestamp => (tc.toSigned 64 val).bind fun v => b.appendTimestamp (Int64.ofInt v)
    | .kFloat => (tc.parseFloat val).bind b.appendFloat
    | .kDouble => (tc.parseDouble val).bind b.appendDouble
    | .kDate =>
      let parts := splitString val 45
      if parts.length ≠ 3 then none
      else
        (tc.toUnsigned 32 (parts.getD 0 [])).bind fun year =>
          (tc.toUnsigned 32 (parts.getD 1 [])).bind fun mon =>
            (tc.toUnsigned 32 (parts.getD 2 [])).bind fun day =>
              b.appendDateYMD year mon day

/-- The loop of `CalStrLength(input_value, schema)`: the lengths of the
non-NULL strings, summed in an `int32_t`, or `-1` for a NULL text in a
`not_null` string column. -/
def calStrLengthLoop : Schema → List (List UInt8) → Int32 → Int32
  | col :: cols, v :: vs, strLen =>
    if isStringType col.dataType then
      if !col.notNull && isNullText v then calStrLengthLoop cols vs strLen
      else if isNullText v then -1
      else calStrLengthLoop cols vs (strLen + Int32.ofNat v.length)
    else calStrLengthLoop cols vs strLen
  | _, _, strLen => strLen

/-- `CalStrLength(input_value, schema)`. -/
def calStrLength (inputValue : List (List UInt8)) (schema : Schema) : Int32 :=
  if inputValue.length ≠ schema.length then -1 else calStrLengthLoop schema inputValue 0

/-- The `ResultMsg` of `EncodeRow`: `0` with `ok`, or `-1` with a message.
The message of a NULL text in a `not_null` column names the column; the
model's `ColumnDesc` has no name, so it carries the column's position. -/
inductive EncodeResult
  | ok
  | inputError
  | calStrLenFailed
  | shouldNotBeNull (index : Nat)
  | appendError (type : DataType)
  deriving DecidableEq, Repr

/-- `ResultMsg::code`. -/
def EncodeResult.code : EncodeResult → Int
  | .ok => 0
  | _ => -1

/-- The loop of `EncodeRow` over the columns, from column `i`: a NULL text in
a nullable column appends NULL, whose result is not looked at; any other
text goes through `AppendValue`. -/
def encodeRowLoop (tc : TextConv) :
    Schema → List (List UInt8) → Nat → RowBuilder → EncodeResult × RowBuilder
  | col :: cols, v :: vs, i, b =>
    if !col.notNull && isNullText v then encodeRowLoop tc cols vs (i + 1) (b.appendNULL.getD b)
    else if isNullText v then (.shouldNotBeNull i, b)
    else
      match b.appendValue tc v with
      | some b' => encodeRowLoop tc cols vs (i + 1) b'
      | none => (.appendError col.dataType, b)
  | _, _, _, b => (.ok, b)

/-- `RowCodec::EncodeRow(input_value, schema, version, row)`: the result and
the row. `row` is resized to `CalTotalLength(str_len)` and the builder writes
into it. `SetBuffer`'s result is not looked at: when it fails, the appends do
not reach `row` (in C++ they go through the builder's null buffer). -/
def encodeRow (tc : TextConv) (inputValue : List (List UInt8)) (schema : Schema) (version : Nat)
    (row : List UInt8) : EncodeResult × List UInt8 :=
  if inputValue.isEmpty || inputValue.length ≠ schema.length then (.inputError, row)
  else
    let strLen := calStrLength inputValue schema
    if strLen < 0 then (.calStrLenFailed, row)
    else
      let builder := RowBuilder.new schema
      let size := builder.calTotalLength strLen.toInt.toNat
      let builder := builder.setSchemaVersion (UInt8.ofNat version)
      let row := resize row size
      match builder.setBuffer row size with
      | some b =>
        let r := encodeRowLoop tc schema inputValue 0 b
        (r.1, r.2.buf)
      | none => ((encodeRowLoop tc schema inputValue 0 builder).1, row)

/-! ## Reading a row as texts -/

/-- `GetValue(row, idx, type, val)`, the overload that reads `row` and not
the view's own row, and does not look at `is_valid_`: the code and the bits
of a fixed-width column. -/
def RowView.getValue (v : RowView) (row : List UInt8) (idx : Nat) (type : DataType) :
    Int × Option Nat :=
  match v.schema[idx]? with
  | none => (-1, none)
  | some column =>
    if column.dataType ≠ type then (-1, none)
    else if readLE row versionLength sizeLength ≤ headerLength then (-1, none)
    else if RowView.isNULL row idx then (1, none)
    else
      match typeSize type with
      | some width => (0, some (readLE row (v.offsetVec.getD idx 0) width))
      | none => (-1, none)

/-- `GetValue(row, idx, val, length)`: the string column `idx` of `row`, its
offsets `GetAddrLength(GetSize(row))` bytes wide. -/
def RowView.getValueString (v : RowView) (row : List UInt8) (idx : Nat) :
    Int × Option (List UInt8) :=
  match v.schema[idx]? with
  | none => (-1, none)
  | some column =>
    if !isStringType column.dataType then (-1, none)
    else
      let size := readLE row versionLength sizeLength
      if size ≤ headerLength then (-1, none)
      else if RowView.isNULL row idx then (1, none)
      else
        let fieldOffset := v.offsetVec.getD idx 0
        let nextStrFieldOffset :=
          if fieldOffset < v.stringFieldCnt - 1 then fieldOffset + 1 else 0
        RowView.getStrField row fieldOffset nextStrFieldOffset v.strFieldStartOffset
          (getAddrLength size)

/-- `GetInteger(row, idx, type, val)`: an integer column widened to
`int64_t`. Only the `smallint` case looks at `GetValue`'s code; the others
return `0` with what `GetValue` stored in the local, `0` if it stored
nothing. -/
def RowView.getInteger (v : RowView) (row : List UInt8) (idx : Nat) (type : DataType) :
    Int × Option Int :=
  match type with
  | .kSmallInt =>
    let r := v.getValue row idx type
    if r.1 = 0 then (0, r.2.map fun bits => (UInt16.ofNat bits).toInt16.toInt) else (r.1, none)
  | .kInt => (0, some (((v.getValue row idx type).2.map fun bits => (UInt32.ofNat bits).toInt32.toInt).getD 0))
  | .kTimestamp | .kBigInt =>
    (0, some (((v.getValue row idx type).2.map fun bits => (UInt64.ofNat bits).toInt64.toInt).getD 0))
  | _ => (-1, none)

/-- `GetStrValue(row, idx, val)`: column `idx` of `row` as text. Integers are
printed in decimal (`std::to_string`), a bool as `true` or `false`, a date
as `year-month-day` without padding, a string as its bytes, a NULL column as
`null`. The codes of the getters it calls are not looked at: a value they did
not store is printed from its initial `0`, `false` or `""`. -/
def RowView.getStrValue (tc : TextConv) (v : RowView) (row : List UInt8) (idx : Nat) :
    Int × Option (List UInt8) :=
  match v.schema[idx]? with
  | none => (-1, none)
  | some column =>
    if readLE row versionLength sizeLength ≤ headerLength then (-1, none)
    else if RowView.isNULL row idx then (1, some nullText)
    else
      match column.dataType with
      | .kBool => (0, some (if (v.getValue row idx .kBool).2 = some 1 then trueText else falseText))
      | .kSmallInt | .kInt | .kTimestamp | .kBigInt =>
        (0, some (Decimal.ofInt ((v.getInteger row idx column.dataType).2.getD 0)))
      | .kFloat => (0, some (tc.printFloat (UInt32.ofNat ((v.getValue row idx .kFloat).2.getD 0))))
      | .kDouble => (0, some (tc.printDouble (UInt64.ofNat ((v.getValue row idx .kDouble).2.getD 0))))
      | .kDate =>
        -- `date & 0xFF` and `date >> 8` on an `int32_t` are `date % 256` and `date / 256`
        let date := ((v.getValue row idx .kDate).2.map fun bits => (UInt32.ofNat bits).toInt32.toInt).getD 0
        let day := (date % 256).toNat
        let date := date / 256
        let month := 1 + (date % 256).toNat
        let year := ((1900 + date / 256) % 2 ^ 32).toNat
        (0, some (Decimal.ofNat year ++ [45] ++ Decimal.ofNat month ++ [45] ++ Decimal.ofNat day))
      | .kVarchar | .kString => (0, some ((v.getValueString row idx).2.getD []))

/-- The text `DecodeRow` gives for column `i`: `NONETOKEN` for a NULL column,
otherwise `GetStrValue`'s, `""` where it stored nothing, and `EMPTY_STRING`
for an empty one when asked. -/
def decodeColumn (tc : TextConv) (rv : RowView) (replaceEmptyStr : Bool) (i : Nat) : List UInt8 :=
  if RowView.isNULL rv.row i then NONETOKEN
  else
    let col := (rv.getStrValue tc rv.row i).2.getD []
    if replaceEmptyStr && col.isEmpty then EMPTY_STRING else col

/-- `DecodeRow(schema, rv, replace_empty_str, start, length, value_vec)`: the
texts of the columns below `start + length` (the loop starts at `0`, not at
`start`), appended to `value_vec`; `false` for a length that is not
positive. -/
def decodeRowView (tc : TextConv) (schema : Schema) (rv : RowView) (replaceEmptyStr : Bool)
    (start length : Int) (valueVec : List (List UInt8)) : Option (List (List UInt8)) :=
  if length ≤ 0 then none
  else
    some (valueVec ++ ((List.range schema.length).takeWhile fun (i : Nat) => (i : Int) < start + length).map
      (decodeColumn tc rv replaceEmptyStr))

/-- `DecodeRow(schema, value, value_vec)`: the view of `value` at its own
length, every column, no replacement. -/
def decodeRow (tc : TextConv) (schema : Schema) (value : List UInt8) (valueVec : List (List UInt8)) :
    Option (List (List UInt8)) :=
  decodeRowView tc schema (RowView.new schema value value.length) false 0 schema.length valueVec

/-! ## `SDKCodec` of a format-version-1 table -/

/-- What `SDKCodec` reads of the meta data of a table of format version 1:
its columns, the columns added to it, and its schema versions, each an id
with the number of columns of that version. -/
structure TableMeta where
  columnDesc : Schema
  addedColumnDesc : Schema
  schemaVersions : List (Int × Int)

/-- The members of `SDKCodec` that `EncodeRow` and `DecodeRow` read for
format version 1: `schema_`, `version_schema_` (a `std::map`, as its list of
entries) and `last_ver_`. -/
structure SDKCodec where
  schema : Schema
  versionSchema : List (Int × Schema)
  lastVer : Int

/-- `std::map::insert`: a key already present keeps its entry. -/
def insertVersion (m : List (Int × Schema)) (ver : Int) (s : Schema) : List (Int × Schema) :=
  if (m.lookup ver).isSome then m else m ++ [(ver, s)]

/-- The loop of `ParseSchemaVer`, with `version_schema_` and `last_ver_`: a
version of `times` columns gets the table's columns and the first
`times - |schema|` added ones; a count outside that range is skipped. -/
def parseSchemaVerLoop (schema addSchema : Schema) :
    List (Int × Int) → List (Int × Schema) → Int → List (Int × Schema) × Int
  | [], m, lastVer => (m, lastVer)
  | (ver, times) :: rest, m, lastVer =>
    let remainSize := times - schema.length
    if remainSize < 0 ∨ remainSize > addSchema.length then parseSchemaVerLoop schema addSchema rest m lastVer
    else
      parseSchemaVerLoop schema addSchema rest
        (insertVersion m ver (schema ++ addSchema.take remainSize.toNat)) ver

/-- `SDKCodec(table_info)` of a format-version-1 table: `ParseColumnDesc`
copies the columns, `ParseSchemaVer` maps version `1` to them and adds the
schema versions, and `ParseAddedColumnDesc` then appends the added columns to
`schema_`. -/
def SDKCodec.new (t : TableMeta) : SDKCodec :=
  let r := parseSchemaVerLoop t.columnDesc t.addedColumnDesc t.schemaVersions [(1, t.columnDesc)] 1
  { schema := t.columnDesc ++ t.addedColumnDesc, versionSchema := r.1, lastVer := r.2 }

/-- `SDKCodec::EncodeRow(raw_data, row)`: `RowCodec::EncodeRow` with
`schema_` and `last_ver_`, which is passed as a `uint32_t`. Returns the code
and the row. -/
def SDKCodec.encodeRow (tc : TextConv) (c : SDKCodec) (rawData : List (List UInt8))
    (row : List UInt8) : Int × List UInt8 :=
  let r := Fedb.Codec.encodeRow tc rawData c.schema (c.lastVer % 2 ^ 32).toNat row
  (r.1.code, r.2)

/-- `SDKCodec::DecodeRow(row, value)`: the schema of the row's version byte,
and `RowCodec::DecodeRow` with it, which is handed the number of columns where
the row's size belongs. Returns the code and `value`. -/
def SDKCodec.decodeRow (tc : TextConv) (c : SDKCodec) (row : List UInt8)
    (value : List (List UInt8)) : Int × List (List UInt8) :=
  match c.versionSchema.lookup ((byteAt row 1).toNat : Int) with
  | none => (-1, value)
  | some schema =>
    match decodeRowView tc schema (RowView.new schema row schema.length) false 0 schema.length value with
    | some value => (0, value)
    | none => (-1, value)

end Fedb.Codec
