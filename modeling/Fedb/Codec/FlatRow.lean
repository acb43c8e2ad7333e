import Fedb.Codec.FlatArrayRoundTrip
import Fedb.Codec.TextRowRoundTrip

/-! # Text rows of the flat-array format

`RowCodec::EncodeRow(input_value, columns, modify_times, row)`
(`src/codec/row_codec.h`) writes a row of format version 0 from one text per
column: each text is converted to its column's type, numbers with
`boost::lexical_cast`, a date with `strptime` and `mktime`, and appended to a
`FlatArrayCodec` of `input_value.size()` columns, which `Build()` then writes
into `row`. `RowCodec::DecodeRow(base_schema_size, get_row_num, value, vrow)`
walks a `FlatArrayIterator` over `value` and appends the text of each of the
first `get_row_num` fields: `NONETOKEN` for a NULL field, the bytes of a
string, a value printed back by `lexical_cast`, or by `localtime` and
`strftime` for a date, and `""` past the last field.

The conversions are the parameter `TextConv`. A caller's value of a column
(`FlatCell`) has a canonical text; the texts of values that fit their columns
come back from `DecodeRow` as they went into `EncodeRow`, except that an empty
string comes back as `EMPTY_STRING`, as `GetString` reads an empty field
(`flatArray_round_trip`, `flatRow_empty_string`). The proof runs the two loops
of `RowCodec` over the field-level walk of `FlatArrayRoundTrip`: the loop of
`EncodeRow` is the appends of the values' fields (`encodeRowLoop_text`), and
the loop of `DecodeRow` prints at each field what its getter reads
(`readText_of_readField`, `decodeRowLoop_fields`).
-/

namespace Fedb.Codec

open ByteBuffer

namespace FlatRow

/-- The `ResultMsg` of `EncodeRow`: `0` with `ok`, or `-1` with a message:
`input error`, the message of the exception a `lexical_cast` threw,
`date format error`, `bool format error` or `encode failed`. -/
inductive EncodeResult
  | ok
  | inputError
  | castError
  | dateFormatError
  | boolFormatError
  | encodeFailed
  deriving DecidableEq, Repr

/-- `ResultMsg::code`. -/
def EncodeResult.code : EncodeResult → Int
  | .ok => 0
  | _ => -1

/-- `codec_ok` of an append: the codec, or `encode failed`. -/
def appended : Option FlatArrayCodec → Except EncodeResult FlatArrayCodec
  | some c => .ok c
  | none => .error .encodeFailed

/-- The append of the value a `lexical_cast` gives, which returns the
exception's message where the cast throws. -/
def castAppend {α : Type} (v : Option α) (append : α → Option FlatArrayCodec) :
    Except EncodeResult FlatArrayCodec :=
  match v with
  | some x => appended (append x)
  | none => .error .castError

/-- `boost::algorithm::starts_with(value, "-")`. -/
def startsWithMinus (v : List UInt8) : Bool := v.head? == some 45

/-- The text ` 00:00:00` a date is completed with before `strptime`. -/
def midnightText : List UInt8 := [32, 48, 48, 58, 48, 48, 58, 48, 48]

/-- The body of `EncodeRow`'s loop at the text `v` of a column of type
`type`: the append the type selects. An unsigned text that starts with `-`
fails as a failed append does. A date is completed with ` 00:00:00` and read
by `strptime` and `mktime` (the model does not follow the copy into a buffer
of 20 bytes, which a text of more than 10 bytes overruns); the seconds times
1000, a `time_t`, are appended as a `uint64_t`. A column of another type
appends NULL. -/
def appendText (tc : TextConv) (c : FlatArrayCodec) (type : ColType) (v : List UInt8) :
    Except EncodeResult FlatArrayCodec :=
  match type with
  | .kInt32 => castAppend (tc.toSigned 32 v) fun x => c.appendInt32 (Int32.ofInt x)
  | .kInt64 => castAppend (tc.toSigned 64 v) fun x => c.appendInt64 (Int64.ofInt x)
  | .kUInt32 =>
    if startsWithMinus v then .error .encodeFailed
    else castAppend (tc.toUnsigned 32 v) fun x => c.appendUInt32 (UInt32.ofNat x)
  | .kUInt64 =>
    if startsWithMinus v then .error .encodeFailed
    else castAppend (tc.toUnsigned 64 v) fun x => c.appendUInt64 (UInt64.ofNat x)
  | .kFloat => castAppend (tc.parseFloat v) c.appendFloat
  | .kDouble => castAppend (tc.parseDouble v) c.appendDouble
  | .kString => appended (c.appendString v)
  | .kTimestamp => castAppend (tc.toUnsigned 64 v) fun x => c.appendTimestamp (UInt64.ofNat x)
  | .kDate =>
    match tc.mktime (v ++ midnightText) with
    | some t => appended (c.appendDate (Int64.ofInt (t * 1000)).toUInt64)
    | none => .error .dateFormatError
  | .kInt16 => castAppend (tc.toSigned 16 v) fun x => c.appendInt16 (Int16.ofInt x)
  | .kUInt16 => castAppend (tc.toUnsigned 16 v) fun x => c.appendUInt16 (UInt16.ofNat x)
  | .kBool =>
    let raw := v.map toLower
    if raw = trueText then appended (c.appendBool true)
    else if raw = falseText then appended (c.appendBool false)
    else .error .boolFormatError
  | _ => appended c.appendNull

/-- The loop of `EncodeRow` over the columns and their texts, which returns at
the first error. -/
def encodeRowLoop (tc : TextConv) :
    List ColType → List (List UInt8) → FlatArrayCodec → Except EncodeResult FlatArrayCodec
  | type :: types, v :: vs, c =>
    match appendText tc c type v with
    | .ok c => encodeRowLoop tc types vs c
    | .error e => .error e
  | _, _, c => .ok c

/-- `EncodeRow(input_value, columns, modify_times, row)`: the result and
`row`, which `Build()` writes at the end and which an error leaves as it was.
The codec has `(uint16_t)input_value.size()` columns. -/
def encodeRow (tc : TextConv) (inputValue : List (List UInt8)) (columns : List ColType) (modifyTimes : Int)
    (row : List UInt8) : EncodeResult × List UInt8 :=
  if inputValue.length ≠ columns.length then (.inputError, row)
  else
    match encodeRowLoop tc columns inputValue (FlatArrayCodec.new row (inputValue.length % 2 ^ 16) modifyTimes) with
    | .ok c => (.ok, c.build.buffer)
    | .error e => (e, row)

/-- The text `DecodeRow` makes of the field the iterator is at, and the
iterator after the getter it calls: `NONETOKEN` for a NULL field; the bytes
of a string or an empty string, which `GetString` reads as `EMPTY_STRING`; a
number printed by `lexical_cast`; a date printed by `localtime` and
`strftime` at its milliseconds over 1000, as a `time_t`; `true` or `false`;
`""` for a type it does not know, where no getter is called. A getter that
reads nothing leaves the local's initial `0` or `false`. -/
def readText (tc : TextConv) (it : FlatArrayIterator) : FlatArrayIterator × List UInt8 :=
  let type := it.getType
  if it.isNULL then (it, NONETOKEN)
  else if type = ColType.kString.toUInt8 ∨ type = ColType.kEmptyString.toUInt8 then
    let r := it.getString
    (r.1, r.2.2.getD [])
  else if type = ColType.kUInt16.toUInt8 then
    let r := it.getUInt16
    (r.1, tc.showInt (r.2.2.getD 0).toNat)
  else if type = ColType.kInt16.toUInt8 then
    let r := it.getInt16
    (r.1, tc.showInt (r.2.2.getD 0).toInt)
  else if type = ColType.kInt32.toUInt8 then
    let r := it.getInt32
    (r.1, tc.showInt (r.2.2.getD 0).toInt)
  else if type = ColType.kInt64.toUInt8 then
    let r := it.getInt64
    (r.1, tc.showInt (r.2.2.getD 0).toInt)
  else if type = ColType.kUInt32.toUInt8 then
    let r := it.getUInt32
    (r.1, tc.showInt (r.2.2.getD 0).toNat)
  else if type = ColType.kUInt64.toUInt8 then
    let r := it.getUInt64
    (r.1, tc.showInt (r.2.2.getD 0).toNat)
  else if type = ColType.kDouble.toUInt8 then
    let r := it.getDouble
    (r.1, tc.showDouble (r.2.2.getD 0))
  else if type = ColType.kFloat.toUInt8 then
    let r := it.getFloat
    (r.1, tc.showFloat (r.2.2.getD 0))
  else if type = ColType.kTimestamp.toUInt8 then
    let r := it.getTimestamp
    (r.1, tc.showInt (r.2.2.getD 0).toNat)
  else if type = ColType.kDate.toUInt8 then
    let r := it.getDate
    (r.1, tc.showDate ((r.2.2.getD 0).toInt64.toInt.tdiv 1000))
  else if type = ColType.kBool.toUInt8 then
    let r := it.getBool
    (r.1, if r.2.2.getD false then trueText else falseText)
  else (it, [])

/-- The loop of `DecodeRow(base_schema_size, get_row_num, value, vrow)`, `n`
the rows still to get: past the last field a row is `""` and the iterator
stays; otherwise the field's text, then `Next()`. -/
def decodeRowLoop (tc : TextConv) : Nat → FlatArrayIterator → List (List UInt8) → List (List UInt8)
  | 0, _, vrow => vrow
  | n + 1, it, vrow =>
    if it.valid then
      let r := readText tc it
      decodeRowLoop tc n r.1.next (vrow ++ [r.2])
    else decodeRowLoop tc n it (vrow ++ [[]])

/-- `DecodeRow(base_schema_size, get_row_num, value, vrow)`, which returns
`true`: `vrow` with the texts of the first `get_row_num` fields. The
iterator's `bsize` is the `uint32_t` of `value.size()` and its `column_size`
the `uint16_t` of `base_schema_size`. -/
def decodeRow (tc : TextConv) (baseSchemaSize getRowNum : Nat) (value : List UInt8)
    (vrow : List (List UInt8)) : List (List UInt8) :=
  decodeRowLoop tc getRowNum (FlatArrayIterator.new value (value.length % 2 ^ 32) (baseSchemaSize % 2 ^ 16)) vrow

end FlatRow

open FlatRow

/-! ## Values and their texts -/

/-- A value of a column as a caller of `EncodeRow` writes it: an integer of a
signed column, a number of an unsigned or timestamp column, a bool, the bits
of a `float` or `double`, the text of a date, a string, or the NULL a column
of a type `EncodeRow` does not convert gets, whatever its text. -/
inductive FlatCell
  | int (v : Int)
  | nat (v : Nat)
  | bool (v : Bool)
  | float (bits : UInt32)
  | double (bits : UInt64)
  | date (text : List UInt8)
  | str (v : List UInt8)
  | null
  deriving DecidableEq, Repr

namespace FlatCell

/-- The canonical text of a value: the decimal text of a number, `true` or
`false`, what `lexical_cast` prints of a `float` or `double`, a date's own
text, a string's bytes; `NONETOKEN` for NULL. -/
def text (tc : TextConv) : FlatCell → List UInt8
  | .int v => Decimal.ofInt v
  | .nat v => Decimal.ofNat v
  | .bool v => if v then trueText else falseText
  | .float b => tc.showFloat b
  | .double b => tc.showDouble b
  | .date s => s
  | .str v => v
  | .null => NONETOKEN

/-- The width of a signed column's type. -/
def signedBits : ColType → Option Nat
  | .kInt16 => some 16
  | .kInt32 => some 32
  | .kInt64 => some 64
  | _ => none

/-- The width of an unsigned or timestamp column's type. -/
def unsignedBits : ColType → Option Nat
  | .kUInt16 => some 16
  | .kUInt32 => some 32
  | .kUInt64 | .kTimestamp => some 64
  | _ => none

/-- The types `EncodeRow` appends NULL for. -/
def appendsNull : ColType → Bool
  | .kNull | .kEmptyString | .kUnknown => true
  | _ => false

/-- The time `mktime` reads from a date's text. -/
def seconds (tc : TextConv) (s : List UInt8) : Option Int := tc.mktime (s ++ midnightText)

/-- A value fits a column: an integer in the range of the column's type; a
`float` or `double` that `lexical_cast` reads back from its text; a date of at
most 10 bytes that `mktime` reads as a time whose milliseconds fit a `time_t`
and that `strftime` prints back as the same text; a string of at most
`MAX_STRING_LENGTH` bytes; NULL in a column that appends NULL. -/
def fits (tc : TextConv) (col : ColType) : FlatCell → Bool
  | .int v =>
    match signedBits col with
    | some w => decide (-(2 ^ (w - 1) : Int) ≤ v ∧ v < 2 ^ (w - 1))
    | none => false
  | .nat v =>
    match unsignedBits col with
    | some w => decide (v < 2 ^ w)
    | none => false
  | .bool _ => col == .kBool
  | .float b => col == .kFloat && tc.parseFloat (tc.showFloat b) == some b
  | .double b => col == .kDouble && tc.parseDouble (tc.showDouble b) == some b
  | .date s =>
    col == .kDate && decide (s.length ≤ 10) &&
      match seconds tc s with
      | some t => decide (-(2 ^ 63 : Int) ≤ t * 1000 ∧ t * 1000 < 2 ^ 63) && tc.showDate t == s
      | none => false
  | .str v => col == .kString && decide (v.length ≤ MAX_STRING_LENGTH)
  | .null => appendsNull col

/-- The text `DecodeRow` gives back for a value: its own, but `EMPTY_STRING`
for an empty string. -/
def decoded (tc : TextConv) : FlatCell → List UInt8
  | .str [] => EMPTY_STRING
  | c => c.text tc

/-- The field `EncodeRow` appends for a value of a column of type `col`. -/
def toField (tc : TextConv) (col : ColType) : FlatCell → Field
  | .int v =>
    match col with
    | .kInt16 => .int16 (Int16.ofInt v)
    | .kInt32 => .int32 (Int32.ofInt v)
    | _ => .int64 (Int64.ofInt v)
  | .nat v =>
    match col with
    | .kUInt16 => .uint16 (UInt16.ofNat v)
    | .kUInt32 => .uint32 (UInt32.ofNat v)
    | .kUInt64 => .uint64 (UInt64.ofNat v)
    | _ => .timestamp (UInt64.ofNat v)
  | .bool v => .bool v
  | .float b => .float b
  | .double b => .double b
  | .date s => .date (Int64.ofInt ((seconds tc s).getD 0 * 1000)).toUInt64
  | .str v => .string v
  | .null => .null

end FlatCell

/-! ## `DecodeRow` prints what the getters read -/

namespace FlatRow

variable (tc : TextConv)

/-- The text `DecodeRow` prints of a field's value. -/
def fieldText : Field → List UInt8
  | .bool v => if v then trueText else falseText
  | .uint16 v => tc.showInt v.toNat
  | .int16 v => tc.showInt v.toInt
  | .float b => tc.showFloat b
  | .int32 v => tc.showInt v.toInt
  | .int64 v => tc.showInt v.toInt
  | .uint32 v => tc.showInt v.toNat
  | .uint64 v => tc.showInt v.toNat
  | .timestamp v => tc.showInt v.toNat
  | .date v => tc.showDate (v.toInt64.toInt.tdiv 1000)
  | .double b => tc.showDouble b
  | .string v => v
  | .null => NONETOKEN

/-- At a field of the type the iterator read, not NULL unless the field is,
whose getter reads back what was appended, `DecodeRow` calls that getter and
prints its value. -/
theorem readText_of_readField {it : FlatArrayIterator} {f : Field}
    (htype : it.getType = f.type.toUInt8) (hnull : it.isNULL = (f == .null))
    (hread : (it.readField f).2 = (true, some f.readBack)) :
    readText tc it = ((it.readField f).1, fieldText tc f.readBack) := by
  unfold readText
  cases f with
  | null =>
    rw [hnull]
    rfl
  | string v =>
    -- a string or an empty string: `GetString`, whatever the type byte says of the length
    have hv : it.getString.2.2 = some (if v.isEmpty then EMPTY_STRING else v) := by
      simp only [FlatArrayIterator.readField, Prod.mk.injEq] at hread
      cases v <;> simpa [Field.readBack] using hread.2
    have hty : it.getType = ColType.kString.toUInt8 ∨ it.getType = ColType.kEmptyString.toUInt8 := by
      rw [htype]
      cases v <;> simp [Field.type]
    rw [hnull, if_neg (by simp), if_pos hty]
    simp only [FlatArrayIterator.readField, hv, Option.getD_some]
    cases v <;> rfl
  | _ =>
    simp only [FlatArrayIterator.readField, Prod.mk.injEq, Option.map_eq_some_iff] at hread
    obtain ⟨-, x, hx, hxf⟩ := hread
    simp only [hnull, htype, Field.type, ColType.toUInt8, FlatArrayIterator.readField, hx, Option.getD_some]
    simp_all [Field.readBack, fieldText]

/-- The run lemma of `DecodeRow`'s loop: from an iterator that presents the
fields one after the other, each read back by its getter, the loop prints
every field's value, one row per field. The induction is on the fields, the
iterator moving on by the client's round (`step`) on each. -/
theorem decodeRowLoop_fields :
    ∀ (fields : List Field) (it0 : FlatArrayIterator) (vrow : List (List UInt8)),
      (∀ done f later, fields = done ++ f :: later →
        (done.foldl FlatArrayIterator.step it0).valid = true ∧
          (done.foldl FlatArrayIterator.step it0).getType = f.type.toUInt8 ∧
          (done.foldl FlatArrayIterator.step it0).isNULL = (f == .null) ∧
          ((done.foldl FlatArrayIterator.step it0).readField f).2 = (true, some f.readBack)) →
      decodeRowLoop tc fields.length it0 vrow = vrow ++ fields.map fun f => fieldText tc f.readBack
  | [], _, vrow, _ => by simp [decodeRowLoop]
  | f :: rest, it0, vrow, h => by
    obtain ⟨hvalid, htype, hnull, hread⟩ := h [] f rest rfl
    simp only [List.foldl_nil] at hvalid htype hnull hread
    -- the rest of the fields, seen from the iterator after the round on `f`
    have hrest : ∀ done g later, rest = done ++ g :: later →
        (done.foldl FlatArrayIterator.step (it0.step f)).valid = true ∧
          (done.foldl FlatArrayIterator.step (it0.step f)).getType = g.type.toUInt8 ∧
          (done.foldl FlatArrayIterator.step (it0.step f)).isNULL = (g == .null) ∧
          ((done.foldl FlatArrayIterator.step (it0.step f)).readField g).2 = (true, some g.readBack) :=
      fun done g later hsplit => h (f :: done) g later (by rw [hsplit, List.cons_append])
    have hstep : (readText tc it0).1.next = it0.step f := by
      rw [readText_of_readField tc htype hnull hread]
      rfl
    rw [List.length_cons, decodeRowLoop, if_pos hvalid]
    dsimp only
    rw [hstep, decodeRowLoop_fields rest (it0.step f) _ hrest, readText_of_readField tc htype hnull hread,
      List.map_cons, List.append_assoc, List.singleton_append]

/-! ## `EncodeRow` appends the fields of the values -/

variable {tc}

/-- The decimal text of a number does not start with `-`. -/
theorem startsWithMinus_ofNat (n : Nat) : startsWithMinus (Decimal.ofNat n) = false := by
  obtain ⟨c, cs, hcs, hc⟩ := Decimal.exists_head_ofNat n
  have h45 : c ≠ 45 := fun h' => by subst h'; exact absurd hc (by decide)
  simp [startsWithMinus, hcs, h45]

/-- `EncodeRow`'s body at the canonical text of a value that fits its column
is the append of the value's field. -/
theorem appendText_text (hc : tc.ReadsDecimal) {col : ColType} {t : FlatCell} (hfit : t.fits tc col = true)
    (c : FlatArrayCodec) : appendText tc c col (t.text tc) = appended (c.appendField (t.toField tc col)) := by
  cases t with
  | int v =>
    -- the decimal text reads back as `v`, in the range of the column's type
    cases col <;> simp only [FlatCell.fits, FlatCell.signedBits, decide_eq_true_eq, Bool.false_eq_true] at hfit <;>
      simp only [appendText, FlatCell.text, FlatCell.toField, castAppend,
        hc.toSigned_ofInt (by decide) hfit.1 hfit.2] <;> rfl
  | nat v =>
    cases col <;> simp only [FlatCell.fits, FlatCell.unsignedBits, decide_eq_true_eq, Bool.false_eq_true] at hfit <;>
      simp only [appendText, FlatCell.text, FlatCell.toField, castAppend, startsWithMinus_ofNat,
        Bool.false_eq_true, if_false, hc.toUnsigned_ofNat hfit] <;> rfl
  | bool v =>
    have hcol : col = .kBool := by simpa [FlatCell.fits] using hfit
    subst hcol
    cases v <;> rfl
  | float b =>
    obtain ⟨rfl, hb⟩ : col = .kFloat ∧ tc.parseFloat (tc.showFloat b) = some b := by simpa [FlatCell.fits] using hfit
    simp only [appendText, FlatCell.text, FlatCell.toField, castAppend, hb]
    rfl
  | double b =>
    obtain ⟨rfl, hb⟩ : col = .kDouble ∧ tc.parseDouble (tc.showDouble b) = some b := by
      simpa [FlatCell.fits] using hfit
    simp only [appendText, FlatCell.text, FlatCell.toField, castAppend, hb]
    rfl
  | date s =>
    -- `mktime` reads the date, and the field holds its milliseconds
    have hcol : col = .kDate := by simp_all [FlatCell.fits]
    subst hcol
    obtain ⟨t, ht⟩ : ∃ t, FlatCell.seconds tc s = some t := by
      cases h : FlatCell.seconds tc s with
      | none => simp [FlatCell.fits, h] at hfit
      | some t => exact ⟨t, rfl⟩
    have hmk : tc.mktime (s ++ midnightText) = some t := ht
    simp only [appendText, FlatCell.text, FlatCell.toField, hmk, ht, Option.getD_some]
    rfl
  | str v =>
    have hcol : col = .kString := by simp_all [FlatCell.fits]
    subst hcol
    rfl
  | null =>
    cases col <;> simp only [FlatCell.fits, FlatCell.appendsNull, Bool.false_eq_true] at hfit <;> rfl

/-- The run lemma of `EncodeRow`'s loop: where the appends of the fields of
values that fit their columns succeed, the loop over the values' texts ends
with the same codec. -/
theorem encodeRowLoop_text (hc : tc.ReadsDecimal) :
    ∀ {columns : List ColType} {cells : List FlatCell},
      List.Forall₂ (fun col t => t.fits tc col = true) columns cells → ∀ {c c' : FlatArrayCodec},
        c.appendFields (List.zipWith (fun col t => t.toField tc col) columns cells) = some c' →
          encodeRowLoop tc columns (cells.map (FlatCell.text tc)) c = .ok c' := by
  intro columns cells hall
  -- on the pairs of columns and values the loop walks in step
  induction hall with
  | nil =>
    intro c c' h
    simp only [List.zipWith_nil_left, FlatArrayCodec.appendFields, Option.some.injEq] at h
    subst h
    rfl
  | cons hhead _ ih =>
    intro c c' h
    rw [List.zipWith_cons_cons, FlatArrayCodec.appendFields, Option.bind_eq_some_iff] at h
    obtain ⟨c1, h1, h2⟩ := h
    rw [List.map_cons, encodeRowLoop, appendText_text hc hhead, h1]
    exact ih h2

/-! ## What comes back of each value -/

/-- The field of a value that fits its column is one `Append` takes. -/
theorem fits_toField {col : ColType} {t : FlatCell} (hfit : t.fits tc col = true) :
    (t.toField tc col).fits = true := by
  cases t with
  | str v =>
    have hv : col = .kString ∧ v.length ≤ MAX_STRING_LENGTH := by simpa [FlatCell.fits] using hfit
    simpa [FlatCell.toField, Field.fits] using hv.2
  | int v => cases col <;> rfl
  | nat v => cases col <;> rfl
  | _ => rfl

theorem ofInt_natCast (n : Nat) : Decimal.ofInt (n : Int) = Decimal.ofNat n := by
  simp [Decimal.ofInt]

/-- What `DecodeRow` prints of the field of a value that fits its column is
the value's text, but `EMPTY_STRING` for an empty string: an integer in the
range of the column's type survives the cast to it and back, and the
milliseconds of a date divided by 1000 are its seconds again. -/
theorem fieldText_toField (hshow : ∀ v, tc.showInt v = Decimal.ofInt v) {col : ColType} {t : FlatCell}
    (hfit : t.fits tc col = true) : fieldText tc (t.toField tc col).readBack = t.decoded tc := by
  cases t with
  | int v =>
    cases col <;> simp only [FlatCell.fits, FlatCell.signedBits, Nat.reduceSub, decide_eq_true_eq,
      Bool.false_eq_true] at hfit
    case kInt16 =>
      simp only [FlatCell.toField, Field.readBack, fieldText, hshow, Int16.toInt_ofInt_of_le hfit.1 hfit.2,
        FlatCell.decoded, FlatCell.text]
    case kInt32 =>
      simp only [FlatCell.toField, Field.readBack, fieldText, hshow, Int32.toInt_ofInt_of_le hfit.1 hfit.2,
        FlatCell.decoded, FlatCell.text]
    case kInt64 =>
      simp only [FlatCell.toField, Field.readBack, fieldText, hshow, Int64.toInt_ofInt_of_le hfit.1 hfit.2,
        FlatCell.decoded, FlatCell.text]
  | nat v =>
    cases col <;> simp only [FlatCell.fits, FlatCell.unsignedBits, decide_eq_true_eq, Bool.false_eq_true] at hfit
    case kUInt16 =>
      simp only [FlatCell.toField, Field.readBack, fieldText, hshow,
        UInt16.toNat_ofNat_of_lt' (show v < UInt16.size from hfit), ofInt_natCast, FlatCell.decoded, FlatCell.text]
    case kUInt32 =>
      simp only [FlatCell.toField, Field.readBack, fieldText, hshow,
        UInt32.toNat_ofNat_of_lt' (show v < UInt32.size from hfit), ofInt_natCast, FlatCell.decoded, FlatCell.text]
    case kUInt64 =>
      simp only [FlatCell.toField, Field.readBack, fieldText, hshow,
        UInt64.toNat_ofNat_of_lt' (show v < UInt64.size from hfit), ofInt_natCast, FlatCell.decoded, FlatCell.text]
    case kTimestamp =>
      simp only [FlatCell.toField, Field.readBack, fieldText, hshow,
        UInt64.toNat_ofNat_of_lt' (show v < UInt64.size from hfit), ofInt_natCast, FlatCell.decoded, FlatCell.text]
  | bool v => cases v <;> rfl
  | float b => rfl
  | double b => rfl
  | date s =>
    -- the date's seconds, as `mktime` read them, and `strftime` prints them back as the text
    obtain ⟨t, ht, hlo, hhi, hshowDate⟩ : ∃ t, FlatCell.seconds tc s = some t ∧
        -(2 ^ 63 : Int) ≤ t * 1000 ∧ t * 1000 < 2 ^ 63 ∧ tc.showDate t = s := by
      cases h : FlatCell.seconds tc s with
      | none => simp [FlatCell.fits, h] at hfit
      | some t =>
        simp only [FlatCell.fits, h, Bool.and_eq_true, beq_iff_eq, decide_eq_true_eq] at hfit
        exact ⟨t, rfl, hfit.2.1.1, hfit.2.1.2, hfit.2.2⟩
    simp only [FlatCell.toField, ht, Option.getD_some, Field.readBack, fieldText, Int64.toInt64_toUInt64,
      Int64.toInt_ofInt_of_le hlo hhi, Int.mul_tdiv_cancel t (by decide : (1000 : Int) ≠ 0), hshowDate,
      FlatCell.decoded, FlatCell.text]
  | str v => cases v <;> rfl
  | null => rfl

/-! ## The round trip -/

variable (tc) in
/-- The fields `EncodeRow` appends for the values of the columns. -/
def cellFields (columns : List ColType) (cells : List FlatCell) : List Field :=
  List.zipWith (fun col t => t.toField tc col) columns cells

section Cells

variable {columns : List ColType} {cells : List FlatCell}

theorem length_cellFields (hfit : List.Forall₂ (fun col t => t.fits tc col = true) columns cells) :
    (cellFields tc columns cells).length = cells.length := by
  rw [cellFields, List.length_zipWith, hfit.length_eq, Nat.min_self]

theorem fits_cellFields (hfit : List.Forall₂ (fun col t => t.fits tc col = true) columns cells) :
    ∀ f ∈ cellFields tc columns cells, f.fits = true := by
  induction hfit with
  | nil => simp [cellFields]
  | cons hhead _ ih =>
    intro f hf
    rw [cellFields, List.zipWith_cons_cons, List.mem_cons] at hf
    rcases hf with rfl | hf
    · exact fits_toField hhead
    · exact ih f hf

theorem map_cellFields (hshow : ∀ v, tc.showInt v = Decimal.ofInt v)
    (hfit : List.Forall₂ (fun col t => t.fits tc col = true) columns cells) :
    (cellFields tc columns cells).map (fun f => fieldText tc f.readBack) = cells.map (FlatCell.decoded tc) := by
  induction hfit with
  | nil => rfl
  | cons hhead _ ih =>
    rw [cellFields, List.zipWith_cons_cons, List.map_cons, List.map_cons, fieldText_toField hshow hhead]
    exact congrArg _ ih

end Cells

/-- The texts of `c` values that fit their columns, `EncodeRow` with
`modify_times = m`, and `DecodeRow(c - m, c, row)`: the encoding succeeds,
and the texts come back, but `EMPTY_STRING` for an empty string. -/
theorem text_round_trip (hc : tc.ReadsDecimal) (hshow : ∀ v, tc.showInt v = Decimal.ofInt v)
    (columns : List ColType) (cells : List FlatCell) (m : Nat) (row : List UInt8) (vrow : List (List UInt8))
    (hlen : cells.length < 2 ^ 16) (hm : m < cells.length)
    (hfit : List.Forall₂ (fun col t => t.fits tc col = true) columns cells) :
    (encodeRow tc (cells.map (FlatCell.text tc)) columns m row).1 = .ok ∧
      decodeRow tc (cells.length - m) cells.length (encodeRow tc (cells.map (FlatCell.text tc)) columns m row).2
        vrow = vrow ++ cells.map (FlatCell.decoded tc) := by
  have hfl := length_cellFields hfit
  obtain ⟨c, happ, hsize, hread, -⟩ :=
    fields_round_trip row (cellFields tc columns cells) m (by omega) (by omega) (fits_cellFields hfit)
  rw [hfl] at happ hread
  -- `EncodeRow`'s codec has the `c` columns, and its loop is the appends of the fields
  have hcnt : (cells.map (FlatCell.text tc)).length % 2 ^ 16 = cells.length := by
    rw [List.length_map, Nat.mod_eq_of_lt hlen]
  have henc : encodeRow tc (cells.map (FlatCell.text tc)) columns m row = (.ok, c.build.buffer) := by
    rw [encodeRow, if_neg (by rw [List.length_map, hfit.length_eq]; exact not_not.mpr rfl), hcnt,
      encodeRowLoop_text hc hfit happ]
  -- the reader's `bsize` and `column_size` are the buffer's length and `c - m`, which fit their types
  have hbsize : c.build.buffer.length % 2 ^ 32 = c.build.buffer.length := by
    rw [hsize, FlatArrayCodec.getSize, Nat.mod_mod]
  have hcol : (cells.length - m) % 2 ^ 16 = cells.length - m := Nat.mod_eq_of_lt (by omega)
  -- `DecodeRow`'s loop prints every field of the walk
  have hdec := decodeRowLoop_fields tc (cellFields tc columns cells)
    (FlatArrayIterator.new c.build.buffer c.build.buffer.length (cells.length - m)) vrow hread
  rw [hfl, map_cellFields hshow hfit] at hdec
  refine ⟨by rw [henc], ?_⟩
  rw [henc, decodeRow, hbsize, hcol]
  exact hdec

end FlatRow

open FlatRow

/-- **Flat-array round trip.** The appends of `c` fields, `Build()`, and the
iterator over the buffer with `column_size = c - m` present the fields in
order, each with its type, its NULL flag and its value read back, valid
before each field and no longer after the last. And, for every conversion
that reads the decimal text of a number back and prints integers in decimal:
`RowCodec::EncodeRow` of the canonical texts of `c` values that fit their
columns, with `modify_times = m`, returns `ok`, and `RowCodec::DecodeRow(c - m,
c, row)` gives the texts back, but `EMPTY_STRING` for an empty string. -/
theorem flatArray_round_trip :
    (∀ (buffer : List UInt8) (fields : List Field) (m : Nat), fields.length < 2 ^ 16 → m < fields.length →
      (∀ f ∈ fields, f.fits = true) →
      ∃ c, (FlatArrayCodec.new buffer fields.length m).appendFields fields = some c ∧
        c.build.buffer.length = c.getSize ∧
        (∀ done f later, fields = done ++ f :: later →
          let it := done.foldl FlatArrayIterator.step
            (FlatArrayIterator.new c.build.buffer c.build.buffer.length (fields.length - m))
          it.valid = true ∧ it.getType = f.type.toUInt8 ∧ it.isNULL = (f == .null) ∧
            (it.readField f).2 = (true, some f.readBack)) ∧
        (fields.foldl FlatArrayIterator.step
          (FlatArrayIterator.new c.build.buffer c.build.buffer.length (fields.length - m))).valid = false) ∧
    (∀ tc : TextConv, tc.ReadsDecimal → (∀ v, tc.showInt v = Decimal.ofInt v) →
      ∀ (columns : List ColType) (cells : List FlatCell) (m : Nat) (row : List UInt8) (vrow : List (List UInt8)),
        cells.length < 2 ^ 16 → m < cells.length → List.Forall₂ (fun col t => t.fits tc col = true) columns cells →
        (FlatRow.encodeRow tc (cells.map (FlatCell.text tc)) columns m row).1 = .ok ∧
          FlatRow.decodeRow tc (cells.length - m) cells.length
              (FlatRow.encodeRow tc (cells.map (FlatCell.text tc)) columns m row).2 vrow =
            vrow ++ cells.map (FlatCell.decoded tc)) :=
  ⟨fun buffer fields m hc hm hfit => fields_round_trip buffer fields m hc hm hfit,
    fun _ hc hshow columns cells m row vrow hlen hm hfit =>
      text_round_trip hc hshow columns cells m row vrow hlen hm hfit⟩

/-- The round trip at an `int32` field, a string and a NULL, one column of
them added, and at their texts `5`, `hi` and `NONETOKEN` in columns of type
`kInt32`, `kString` and `kNull`. -/
theorem flatArray_round_trip_three :
    ([Field.int32 5, .string [104, 105], .null].length < 2 ^ 16 ∧
      1 < [Field.int32 5, .string [104, 105], .null].length ∧
      (∀ f ∈ [Field.int32 5, .string [104, 105], .null], f.fits = true) ∧
      ∃ c, (FlatArrayCodec.new [] 3 1).appendFields [.int32 5, .string [104, 105], .null] = some c ∧
        c.build.buffer.length = c.getSize) ∧
    decimalConv.ReadsDecimal ∧ (∀ v, decimalConv.showInt v = Decimal.ofInt v) ∧
    [FlatCell.int 5, .str [104, 105], .null].length < 2 ^ 16 ∧
    1 < [FlatCell.int 5, .str [104, 105], .null].length ∧
    List.Forall₂ (fun col t => t.fits decimalConv col = true) [ColType.kInt32, .kString, .kNull]
      [FlatCell.int 5, .str [104, 105], .null] ∧
    (FlatRow.encodeRow decimalConv ([FlatCell.int 5, .str [104, 105], .null].map (FlatCell.text decimalConv))
      [.kInt32, .kString, .kNull] 1 []).1 = .ok ∧
    FlatRow.decodeRow decimalConv 2 3
        (FlatRow.encodeRow decimalConv ([FlatCell.int 5, .str [104, 105], .null].map (FlatCell.text decimalConv))
          [.kInt32, .kString, .kNull] 1 []).2 [] =
      [] ++ [FlatCell.int 5, .str [104, 105], .null].map (FlatCell.decoded decimalConv) := by
  obtain ⟨hfields, htext⟩ := flatArray_round_trip
  obtain ⟨c, happ, hlen, -⟩ := hfields [] [.int32 5, .string [104, 105], .null] 1 (by decide) (by decide) (by decide)
  have hfit : List.Forall₂ (fun col t => t.fits decimalConv col = true) [ColType.kInt32, .kString, .kNull]
      [FlatCell.int 5, .str [104, 105], .null] :=
    .cons (by decide) (.cons (by decide) (.cons (by decide) .nil))
  obtain ⟨henc, hdec⟩ := htext decimalConv decimalConv_readsDecimal (fun _ => rfl) _ _ 1 [] [] (by decide)
    (by decide) hfit
  exact ⟨⟨by decide, by decide, by decide, c, happ, hlen⟩, decimalConv_readsDecimal, fun _ => rfl, by decide,
    by decide, hfit, henc, hdec⟩

/-- An empty string comes back as `EMPTY_STRING`: `EncodeRow` of the text
`""` in a string column appends a `kEmptyString` field without bytes, which
`GetString` reads as `!@#$%`. -/
theorem flatRow_empty_string :
    (FlatRow.encodeRow decimalConv [[]] [.kString] 0 []).1 = .ok ∧
      FlatRow.decodeRow decimalConv 1 1 (FlatRow.encodeRow decimalConv [[]] [.kString] 0 []).2 [] =
        [EMPTY_STRING] ∧ EMPTY_STRING ≠ [] := by
  decide

end Fedb.Codec
