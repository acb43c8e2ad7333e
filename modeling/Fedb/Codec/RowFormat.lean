import Fedb.Codec.RowBuilder
import Fedb.Codec.RowView

/-! # The row format, and why `RowView` reads it

This module states the format version 1 row layout as a predicate,
`Encodes schema cells buf size`, on a buffer: what the header, the null
bitmap, the fixed fields, the string offset table and the string bodies hold
for a list of cell values. The builder's side (`RowRoundTrip`) shows that
`RowBuilder` produces a buffer with this property; this side shows that
`RowView` reads every cell of such a buffer back (`readCell_of_encodes`).

Both the builder and the view compute the schema layout with their own loop
(`RowBuilder::RowBuilder`, `RowView::Init`); `RowView.initOffsets_eq` shows
the two agree.
-/

namespace Fedb.Codec

open ByteBuffer

/-! ## Cell values -/

/-- A cell of a row, as it is handed to `Append<Type>`: NULL or a value of one
of the column types. `float` and `double` values are their bit patterns, so
that equality is bit-for-bit; strings are arbitrary bytes. -/
inductive Cell
  | null
  | bool (v : Bool)
  | smallInt (v : Int16)
  | int (v : Int32)
  | bigInt (v : Int64)
  | float (bits : UInt32)
  | double (bits : UInt64)
  | date (v : Int32)
  | timestamp (v : Int64)
  | str (v : List UInt8)
  deriving DecidableEq, Repr

namespace Cell

/-- A cell fits a column: NULL only where the column is nullable, otherwise a
value of the column's type. -/
def fits (col : ColumnDesc) : Cell → Bool
  | .null => !col.notNull
  | .bool _ => col.dataType == .kBool
  | .smallInt _ => col.dataType == .kSmallInt
  | .int _ => col.dataType == .kInt
  | .bigInt _ => col.dataType == .kBigInt
  | .float _ => col.dataType == .kFloat
  | .double _ => col.dataType == .kDouble
  | .date _ => col.dataType == .kDate
  | .timestamp _ => col.dataType == .kTimestamp
  | .str _ => isStringType col.dataType

/-- The bits a fixed-width cell is stored as. -/
def bits : Cell → Nat
  | .bool v => if v then 1 else 0
  | .smallInt v => v.toUInt16.toNat
  | .int v => v.toUInt32.toNat
  | .bigInt v => v.toUInt64.toNat
  | .float v => v.toNat
  | .double v => v.toNat
  | .date v => v.toUInt32.toNat
  | .timestamp v => v.toUInt64.toNat
  | .null | .str _ => 0

/-- The length of the body a cell puts into the string area. -/
def bodyLen : Cell → Nat
  | .str v => v.length
  | _ => 0

end Cell

/-- The total length of the string bodies, the argument of `CalTotalLength`. -/
def strLength (cells : List Cell) : Nat := (cells.map Cell.bodyLen).sum

/-! ## The schema layout -/

/-- The width of a column's fixed field, `0` for a string column. -/
def fieldWidth (col : ColumnDesc) : Nat := (typeSize col.dataType).getD 0

/-- The number of string columns. -/
def strCount (cols : List ColumnDesc) : Nat := (cols.filter fun c => isStringType c.dataType).length

/-- The total width of the fixed fields. -/
def fixedWidth (cols : List ColumnDesc) : Nat := (cols.map fieldWidth).sum

@[simp] theorem strCount_nil : strCount [] = 0 := rfl

@[simp] theorem strCount_cons (c : ColumnDesc) (cols : List ColumnDesc) :
    strCount (c :: cols) = (if isStringType c.dataType then 1 else 0) + strCount cols := by
  unfold strCount
  split <;> simp_all [Nat.add_comm]

@[simp] theorem fixedWidth_nil : fixedWidth [] = 0 := rfl

@[simp] theorem fixedWidth_cons (c : ColumnDesc) (cols : List ColumnDesc) :
    fixedWidth (c :: cols) = fieldWidth c + fixedWidth cols := by
  simp [fixedWidth]

theorem fieldWidth_of_string {c : ColumnDesc} (h : isStringType c.dataType = true) :
    fieldWidth c = 0 := by
  rw [fieldWidth, (typeSize_eq_none_iff _).2 h]
  rfl

/-- A string column's position is below the number of string columns. -/
theorem strCount_take_lt {cols : List ColumnDesc} {j : Nat} (hj : j < cols.length)
    (hs : isStringType cols[j].dataType = true) : strCount (cols.take j) < strCount cols := by
  induction cols generalizing j with
  | nil => simp at hj
  | cons c cols ih =>
    cases j with
    | zero => simp_all
    | succ j =>
      simp only [List.take_succ_cons, strCount_cons]
      have := ih (by simpa using hj) (by simpa using hs)
      omega

theorem typeSize_of_fieldWidth {c : ColumnDesc} (h : isStringType c.dataType = false) :
    typeSize c.dataType = some (fieldWidth c) := by
  obtain ⟨w, hw, -⟩ := typeSize_of_not_string h
  simp [fieldWidth, hw]

namespace RowBuilder

theorem initOffsets_strCnt (cols : List ColumnDesc) (s o : Nat) :
    (initOffsets cols s o).2.1 = s + strCount cols := by
  induction cols generalizing s o with
  | nil => rfl
  | cons c cols ih =>
    unfold initOffsets
    by_cases hs : isStringType c.dataType
    · simp [hs, ih]
      omega
    · rw [Bool.not_eq_true] at hs
      simp [hs, typeSize_of_fieldWidth hs, ih]

theorem initOffsets_end (cols : List ColumnDesc) (s o : Nat) :
    (initOffsets cols s o).2.2 = o + fixedWidth cols := by
  induction cols generalizing s o with
  | nil => rfl
  | cons c cols ih =>
    unfold initOffsets
    by_cases hs : isStringType c.dataType
    · simp [hs, ih, fieldWidth_of_string hs]
    · rw [Bool.not_eq_true] at hs
      simp [hs, typeSize_of_fieldWidth hs, ih]
      omega

/-- Entry `j` of `offset_vec_`: the string position of a string column, the
byte offset of any other. -/
theorem initOffsets_getD (cols : List ColumnDesc) (s o : Nat) {j : Nat}
    (hj : j < cols.length) :
    (initOffsets cols s o).1.getD j 0 =
      if isStringType cols[j].dataType then s + strCount (cols.take j)
      else o + fixedWidth (cols.take j) := by
  induction cols generalizing s o j with
  | nil => simp at hj
  | cons c cols ih =>
    unfold initOffsets
    cases j with
    | zero =>
      by_cases hs : isStringType c.dataType
      · simp [hs]
      · rw [Bool.not_eq_true] at hs
        simp [hs, typeSize_of_fieldWidth hs]
    | succ j =>
      have hj' : j < cols.length := by simpa using hj
      by_cases hs : isStringType c.dataType
      · simp only [hs, if_true, List.getD_cons_succ, ih _ _ hj', List.getElem_cons_succ,
          List.take_succ_cons, strCount_cons, fixedWidth_cons, fieldWidth_of_string hs]
        split <;> omega
      · rw [Bool.not_eq_true] at hs
        simp only [hs, Bool.false_eq_true, if_false, typeSize_of_fieldWidth hs, List.getD_cons_succ,
          ih _ _ hj', List.getElem_cons_succ, List.take_succ_cons, strCount_cons, fixedWidth_cons]
        split <;> omega

end RowBuilder

/-- The view's layout loop computes the builder's. -/
theorem RowView.initOffsets_eq (cols : List ColumnDesc) (s o : Nat) :
    RowView.initOffsets cols s o = some (RowBuilder.initOffsets cols s o) := by
  induction cols generalizing s o with
  | nil => rfl
  | cons c cols ih =>
    unfold RowView.initOffsets RowBuilder.initOffsets
    by_cases hs : isStringType c.dataType
    · simp [hs, ih]
    · rw [Bool.not_eq_true] at hs
      simp [hs, typeSize_of_fieldWidth hs, ih]

/-! ## The format -/

/-- The layout both constructors compute for a schema: `offset_vec_`, the
number of string columns and the offset of the string offset table. -/
def layout (schema : Schema) : List Nat × Nat × Nat :=
  RowBuilder.initOffsets schema 0 (headerLength + bitMapSize schema.length)

/-- Where the string offset table starts: after the header, the bitmap and
the fixed fields. -/
def strTableStart (schema : Schema) : Nat :=
  headerLength + bitMapSize schema.length + fixedWidth schema

/-- Where the string bodies start in a row of `size` bytes. -/
def bodyStart (schema : Schema) (size : Nat) : Nat :=
  strTableStart schema + getAddrLength size * strCount schema

/-- Where the body of column `j` starts: after the bodies of the columns before it. -/
def strStart (schema : Schema) (cells : List Cell) (size j : Nat) : Nat :=
  bodyStart schema size + strLength (cells.take j)

theorem layout_strCnt (schema : Schema) : (layout schema).2.1 = strCount schema := by
  simp [layout, RowBuilder.initOffsets_strCnt]

theorem layout_end (schema : Schema) : (layout schema).2.2 = strTableStart schema := by
  simp [layout, RowBuilder.initOffsets_end, strTableStart]

theorem layout_getD_string {schema : Schema} {j : Nat} {col : ColumnDesc}
    (hcol : schema[j]? = some col) (hs : isStringType col.dataType = true) :
    (layout schema).1.getD j 0 = strCount (schema.take j) := by
  obtain ⟨hj, rfl⟩ := List.getElem?_eq_some_iff.1 hcol
  rw [layout, RowBuilder.initOffsets_getD _ _ _ hj, if_pos hs, Nat.zero_add]

theorem layout_getD_fixed {schema : Schema} {j : Nat} {col : ColumnDesc}
    (hcol : schema[j]? = some col) (hs : isStringType col.dataType = false) :
    (layout schema).1.getD j 0 = headerLength + bitMapSize schema.length + fixedWidth (schema.take j) := by
  obtain ⟨hj, rfl⟩ := List.getElem?_eq_some_iff.1 hcol
  rw [layout, RowBuilder.initOffsets_getD _ _ _ hj, if_neg (by simp [hs])]

/-- A buffer of `size` bytes holds the row `cells` of `schema` in format
version 1: the header carries the size, the null bitmap marks exactly the
NULL cells, every fixed-width value is at its offset, the offset table points
at every string body and at its end, and every body is in place. Only what a
reader looks at is fixed: the bytes of NULL fields and unused slots are free. -/
structure Encodes (schema : Schema) (cells : List Cell) (buf : List UInt8) (size : Nat) :
    Prop where
  length : buf.length = size
  header : readLE buf versionLength sizeLength = size
  header_lt : headerLength < size
  bound : size < 2 ^ 32
  nullBit : ∀ j c, cells[j]? = some c → RowView.isNULL buf j = (c == .null)
  fixed : ∀ j col c, schema[j]? = some col → cells[j]? = some c →
    isStringType col.dataType = false → c ≠ .null →
    readLE buf ((layout schema).1.getD j 0) (fieldWidth col) = c.bits
  slot : ∀ j col c, schema[j]? = some col → cells[j]? = some c →
    isStringType col.dataType = true → c ≠ .null →
    RowView.readStrOffset buf (strTableStart schema) (strCount (schema.take j))
      (getAddrLength size) = strStart schema cells size j
  nextSlot : ∀ j col c, schema[j]? = some col → cells[j]? = some c →
    isStringType col.dataType = true → c ≠ .null →
    strCount (schema.take j) + 1 < strCount schema →
    RowView.readStrOffset buf (strTableStart schema) (strCount (schema.take j) + 1)
      (getAddrLength size) = strStart schema cells size j + c.bodyLen
  lastEnd : ∀ j col c, schema[j]? = some col → cells[j]? = some c →
    isStringType col.dataType = true → strCount (schema.take j) + 1 = strCount schema →
    size = strStart schema cells size j + c.bodyLen
  bodyEnd : ∀ j c, cells[j]? = some c → strStart schema cells size j + c.bodyLen ≤ size
  body : ∀ j v, cells[j]? = some (.str v) → readBytes buf (strStart schema cells size j) v.length = v

/-! ## Reading an encoded row -/

/-- The getter `RowView` offers for a column of type `col`, `GetBool` to
`GetString`, called at `idx`, with its value as a cell. -/
def RowView.readCell (v : RowView) (idx : Nat) (col : ColumnDesc) : Int × Option Cell :=
  match col.dataType with
  | .kBool => let r := v.getBool idx; (r.1, r.2.map .bool)
  | .kSmallInt => let r := v.getInt16 idx; (r.1, r.2.map .smallInt)
  | .kInt => let r := v.getInt32 idx; (r.1, r.2.map .int)
  | .kBigInt => let r := v.getInt64 idx; (r.1, r.2.map .bigInt)
  | .kFloat => let r := v.getFloat idx; (r.1, r.2.map .float)
  | .kDouble => let r := v.getDouble idx; (r.1, r.2.map .double)
  | .kDate => let r := v.getDate idx; (r.1, r.2.map .date)
  | .kTimestamp => let r := v.getTimestamp idx; (r.1, r.2.map .timestamp)
  | .kVarchar | .kString => let r := v.getString idx; (r.1, r.2.map .str)

section Reader

variable {schema : Schema} {cells : List Cell} {buf : List UInt8} {size : Nat}

/-- The view of an encoded row is valid and has the builder's layout. -/
theorem RowView.new_of_encodes (h : Encodes schema cells buf size) (hne : schema ≠ []) :
    RowView.new schema buf size =
      { strAddrLength := getAddrLength size, isValid := true,
        stringFieldCnt := strCount schema, strFieldStartOffset := strTableStart schema,
        size := size, row := buf, schema := schema, offsetVec := (layout schema).1 } := by
  have hlen : schema.length ≠ 0 := by simpa using hne
  simp only [RowView.new, hlen, if_false, RowView.initOffsets_eq, RowView.reset]
  simp [layout, RowBuilder.initOffsets_strCnt, RowBuilder.initOffsets_end, strTableStart,
    h.header_lt, h.header]

theorem fits_null {col : ColumnDesc} {c : Cell} (hc : c ≠ .null) (hfit : c.fits col = true)
    (hs : isStringType col.dataType = true) : ∃ v, c = .str v := by
  cases c <;> simp_all [Cell.fits, isStringType]

/-- A fixed-width column of an encoded row reads back as the bits stored. -/
theorem getField_of_encodes (h : Encodes schema cells buf size) (hne : schema ≠ [])
    {j : Nat} {col : ColumnDesc} {c : Cell} (hcol : schema[j]? = some col)
    (hc : cells[j]? = some c) (hs : isStringType col.dataType = false) (hnull : c ≠ .null) :
    (RowView.new schema buf size).getField j col.dataType (fieldWidth col) = (0, some c.bits) := by
  rw [RowView.new_of_encodes h hne]
  have hfix := h.fixed j col c hcol hc hs hnull
  simp [RowView.getField, RowView.checkValid, hcol, h.nullBit j c hc, hnull]
  simpa using hfix

/-- A string column of an encoded row reads back as its bytes: the slot of
the column holds the start of its body, and the body ends at the next slot's
start or, for the last string column, at the end of the row. -/
theorem getString_of_encodes (h : Encodes schema cells buf size) (hne : schema ≠ [])
    {j : Nat} {col : ColumnDesc} {v : List UInt8} (hcol : schema[j]? = some col)
    (hc : cells[j]? = some (.str v)) (hs : isStringType col.dataType = true) :
    (RowView.new schema buf size).getString j = (0, some v) := by
  have hpos : strCount (schema.take j) < strCount schema := by
    obtain ⟨hj, rfl⟩ := List.getElem?_eq_some_iff.1 hcol
    exact strCount_take_lt hj hs
  have hslot := h.slot j col (.str v) hcol hc hs (by simp)
  have hend := h.bodyEnd j (.str v) hc
  have hbody := h.body j v hc
  simp only [Cell.bodyLen] at hend
  have haddr := getAddrLength_pos size
  have haddr4 := getAddrLength_le_four size
  -- the column passes `CheckValid` as a varchar or as a string, and is not NULL
  have hvalid : (!RowView.checkValid (RowView.new schema buf size) j .kVarchar &&
      !RowView.checkValid (RowView.new schema buf size) j .kString) = false := by
    rw [RowView.new_of_encodes h hne]
    rcases (isStringType_iff _).1 hs with hv | hv <;> simp [RowView.checkValid, hcol, hv]
  unfold RowView.getString
  rw [if_neg (by simp [hvalid]), RowView.new_of_encodes h hne]
  simp only [if_false, h.nullBit j _ hc, beq_iff_eq, reduceCtorEq]
  rw [layout_getD_string hcol hs]
  simp only [RowView.getStrField, if_neg (by omega : ¬ (getAddrLength size = 0 ∨ getAddrLength size > 4)),
    hslot]
  by_cases hlast : strCount (schema.take j) + 1 = strCount schema
  · -- the last string column ends at the end of the row
    have hsz := h.lastEnd j col (.str v) hcol hc hs hlast
    simp only [Cell.bodyLen] at hsz
    have hnext0 : (if strCount (schema.take j) < strCount schema - 1 then
        strCount (schema.take j) + 1 else 0) = 0 := if_neg (by omega)
    rw [hnext0, if_pos rfl, h.header, u32Sub_of_le (by omega) h.bound,
      show size - strStart schema cells size j = v.length by omega, hbody]
  · -- any other ends where the next one starts
    have hnext := h.nextSlot j col (.str v) hcol hc hs (by simp) (by omega)
    simp only [Cell.bodyLen] at hnext
    have hnext1 : (if strCount (schema.take j) < strCount schema - 1 then
        strCount (schema.take j) + 1 else 0) = strCount (schema.take j) + 1 := if_pos (by omega)
    rw [hnext1, if_neg (show ¬ strCount (schema.take j) + 1 = 0 by omega),
      if_pos (show strCount (schema.take j) + 1 > 0 by omega), hnext,
      u32Sub_of_le (by omega) (by have := h.bound; omega), Nat.add_sub_cancel_left, hbody]

/-- Every non-NULL cell of an encoded row reads back, bit for bit, through the
getter of its column's type. -/
theorem readCell_of_encodes (h : Encodes schema cells buf size) (hne : schema ≠ [])
    {j : Nat} {col : ColumnDesc} {c : Cell} (hcol : schema[j]? = some col)
    (hc : cells[j]? = some c) (hfit : c.fits col = true) (hnull : c ≠ .null) :
    (RowView.new schema buf size).readCell j col = (0, some c) := by
  -- a fixed-width cell: its getter sees the stored bits
  have hfixed : isStringType col.dataType = false →
      (RowView.new schema buf size).getField j col.dataType (fieldWidth col) = (0, some c.bits) :=
    fun hs => getField_of_encodes h hne hcol hc hs hnull
  cases c with
  | null => exact absurd rfl hnull
  | str v =>
    have hs : isStringType col.dataType = true := hfit
    have hg := getString_of_encodes h hne hcol hc hs
    rcases (isStringType_iff _).1 hs with hv | hv <;> simp [RowView.readCell, hv, hg]
  | bool b =>
    have hdt : col.dataType = .kBool := by simpa [Cell.fits] using hfit
    have hf := hfixed (by simp [hdt, isStringType])
    simp only [hdt, fieldWidth, typeSize, Option.getD_some] at hf
    cases b <;> simp [RowView.readCell, hdt, RowView.getBool, hf, Cell.bits]
  | smallInt x =>
    have hdt : col.dataType = .kSmallInt := by simpa [Cell.fits] using hfit
    have hf := hfixed (by simp [hdt, isStringType])
    simp only [hdt, fieldWidth, typeSize, Option.getD_some] at hf
    simp only [RowView.readCell, hdt, RowView.getInt16, hf, Cell.bits, Option.map_some,
      UInt16.ofNat_toNat, Int16.toInt16_toUInt16]
  | int x =>
    have hdt : col.dataType = .kInt := by simpa [Cell.fits] using hfit
    have hf := hfixed (by simp [hdt, isStringType])
    simp only [hdt, fieldWidth, typeSize, Option.getD_some] at hf
    simp only [RowView.readCell, hdt, RowView.getInt32, hf, Cell.bits, Option.map_some,
      UInt32.ofNat_toNat, Int32.toInt32_toUInt32]
  | bigInt x =>
    have hdt : col.dataType = .kBigInt := by simpa [Cell.fits] using hfit
    have hf := hfixed (by simp [hdt, isStringType])
    simp only [hdt, fieldWidth, typeSize, Option.getD_some] at hf
    simp only [RowView.readCell, hdt, RowView.getInt64, hf, Cell.bits, Option.map_some,
      UInt64.ofNat_toNat, Int64.toInt64_toUInt64]
  | float x =>
    have hdt : col.dataType = .kFloat := by simpa [Cell.fits] using hfit
    have hf := hfixed (by simp [hdt, isStringType])
    simp only [hdt, fieldWidth, typeSize, Option.getD_some] at hf
    simp [RowView.readCell, hdt, RowView.getFloat, hf, Cell.bits]
  | double x =>
    have hdt : col.dataType = .kDouble := by simpa [Cell.fits] using hfit
    have hf := hfixed (by simp [hdt, isStringType])
    simp only [hdt, fieldWidth, typeSize, Option.getD_some] at hf
    simp [RowView.readCell, hdt, RowView.getDouble, hf, Cell.bits]
  | date x =>
    have hdt : col.dataType = .kDate := by simpa [Cell.fits] using hfit
    have hf := hfixed (by simp [hdt, isStringType])
    simp only [hdt, fieldWidth, typeSize, Option.getD_some] at hf
    simp only [RowView.readCell, hdt, RowView.getDate, hf, Cell.bits, Option.map_some,
      UInt32.ofNat_toNat, Int32.toInt32_toUInt32]
  | timestamp x =>
    have hdt : col.dataType = .kTimestamp := by simpa [Cell.fits] using hfit
    have hf := hfixed (by simp [hdt, isStringType])
    simp only [hdt, fieldWidth, typeSize, Option.getD_some] at hf
    simp only [RowView.readCell, hdt, RowView.getTimestamp, hf, Cell.bits, Option.map_some,
      UInt64.ofNat_toNat, Int64.toInt64_toUInt64]

/-- A NULL cell of an encoded row reads as NULL through the getter of its
column's type. -/
theorem readCell_of_encodes_null (h : Encodes schema cells buf size) (hne : schema ≠ [])
    {j : Nat} {col : ColumnDesc} (hcol : schema[j]? = some col) (hc : cells[j]? = some .null) :
    (RowView.new schema buf size).readCell j col = (1, none) := by
  have hnull : RowView.isNULL buf j = true := by simpa using h.nullBit j .null hc
  rw [RowView.new_of_encodes h hne]
  cases hdt : col.dataType <;>
    simp [RowView.readCell, hdt, RowView.getBool, RowView.getInt16, RowView.getInt32,
      RowView.getInt64, RowView.getFloat, RowView.getDouble, RowView.getDate,
      RowView.getTimestamp, RowView.getString, RowView.getField, RowView.checkValid, hcol, hnull]

end Reader

end Fedb.Codec
