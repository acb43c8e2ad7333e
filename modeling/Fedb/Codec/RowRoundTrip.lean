import Fedb.Codec.RowWriter

/-! # Row codec round trip

A row is built as a client of `RowBuilder` builds it (`src/codec/codec_test.cc`,
`RowCodec::EncodeRow`): `SetBuffer(buf, CalTotalLength(l))` with `l` the total
length of the non-NULL strings, then one `Append<Type>` or `AppendNULL` per
column, in schema order (`buildRow`). The main theorem, `row_round_trip`,
says that for every schema and every fitting list of cells whose row is
shorter than `2^32` bytes, every append succeeds, the row is complete, the
offset width the builder allotted is the one `RowView` reads with, and the
view reads every cell back.

The proof composes the two halves of the format: the builder establishes
`Encodes` (`Built.encodes`, `RowWriter`) and the view inverts it
(`readCell_of_encodes`, `RowFormat`). What is left here is the size:
`CalTotalLength` computes, at every width boundary, the size whose
`GetAddrLength` is the width it reserved for each offset (`rowLength_eq`,
`calTotalLength_new`).
-/

namespace Fedb.Codec

open ByteBuffer

/-- A row built the way clients build one. -/
def buildRow (schema : Schema) (buf : List UInt8) (cells : List Cell) : Option RowBuilder :=
  let b := RowBuilder.new schema
  (b.setBuffer buf (b.calTotalLength (strLength cells))).bind fun b' => b'.appendCells cells

/-- The length of the row of a schema whose strings have `stringLength` bytes
in all, with unbounded arithmetic: the offsets take the fewest bytes in which
the row length fits. -/
def rowLength (schema : Schema) (stringLength : Nat) : Nat :=
  let total := strTableStart schema + stringLength
  let n := strCount schema
  if total + n ≤ uint8Max then total + n
  else if total + 2 * n ≤ uint16Max then total + 2 * n
  else if total + 3 * n ≤ uint24Max then total + 3 * n
  else total + 4 * n

/-! ## The row length and the offset width -/

/-- The width `CalTotalLength` allots to each offset is the width
`GetAddrLength` reads it with, at every size boundary. -/
theorem rowLength_eq (schema : Schema) (l : Nat) :
    rowLength schema l =
      strTableStart schema + l + getAddrLength (rowLength schema l) * strCount schema := by
  unfold rowLength getAddrLength uint8Max uint16Max uint24Max
  dsimp only
  split_ifs <;> omega

theorem calTotalLength_new {schema : Schema} {l : Nat} (hne : schema ≠ [])
    (hlen : rowLength schema l < 2 ^ 32) :
    (RowBuilder.new schema).calTotalLength l = rowLength schema l := by
  have hs : schema.length ≠ 0 := by simpa using hne
  have hn : (RowBuilder.new schema).strFieldCnt = strCount schema := by
    simp [RowBuilder.new, RowBuilder.initOffsets_strCnt]
  have hf : (RowBuilder.new schema).strFieldStartOffset = strTableStart schema := by
    simp [RowBuilder.new, RowBuilder.initOffsets_end, strTableStart]
  have hsch : (RowBuilder.new schema).schema = schema := rfl
  have hbound : strTableStart schema + l + 4 * strCount schema < 2 ^ 32 := by
    unfold rowLength uint8Max uint16Max uint24Max at hlen
    dsimp only at hlen
    split_ifs at hlen <;> omega
  unfold RowBuilder.calTotalLength rowLength
  simp only [hsch, hs, if_false, hn, hf]
  -- no sum of the cascade leaves the 32-bit range, so every `u32` is the identity
  simp only [u32_of_lt (by omega : strTableStart schema + l < 2 ^ 32),
    u32_of_lt (by omega : strCount schema * 2 < 2 ^ 32),
    u32_of_lt (by omega : strCount schema * 3 < 2 ^ 32),
    u32_of_lt (by omega : strCount schema * 4 < 2 ^ 32),
    u32_of_lt (by omega : strTableStart schema + l + strCount schema < 2 ^ 32),
    u32_of_lt (by omega : strTableStart schema + l + strCount schema * 2 < 2 ^ 32),
    u32_of_lt (by omega : strTableStart schema + l + strCount schema * 3 < 2 ^ 32),
    u32_of_lt (by omega : strTableStart schema + l + strCount schema * 4 < 2 ^ 32)]
  unfold uint8Max uint16Max uint24Max uint32Max
  split_ifs <;> omega

/-- The row a client asks `CalTotalLength` for: its size reserves for every
offset the width `GetAddrLength` reads it with. -/
theorem rowShape_rowLength {schema : Schema} {cells : List Cell} (hfits : Fits schema cells)
    (hschema : schema ≠ []) (hlen : rowLength schema (strLength cells) < 2 ^ 32) :
    RowShape schema cells (rowLength schema (strLength cells)) := by
  refine ⟨hfits, ?_, hlen, hschema⟩
  have := rowLength_eq schema (strLength cells)
  rw [bodyStart]
  omega

/-- **Row codec round trip.** For every non-empty schema and every list of
cells that fits it, with a row shorter than `2^32` bytes: building the row as
a client does succeeds (`SetBuffer` and every append return `true`), the row
is complete, its size reserves for every string offset exactly the width
`GetAddrLength(size)` with which the builder stores the offsets and the view
reads them, and `RowView` reports the null bit of every cell and reads every
non-NULL cell back through the getter of its column's type. -/
theorem row_round_trip (schema : Schema) (cells : List Cell) (buf : List UInt8)
    (hschema : schema ≠ [])
    (hfit : List.Forall₂ (fun col c => c.fits col = true) schema cells)
    (hlen : rowLength schema (strLength cells) < 2 ^ 32)
    (hbuf : buf.length = (RowBuilder.new schema).calTotalLength (strLength cells)) :
    ∃ b, buildRow schema buf cells = some b ∧ b.isComplete = true ∧
      b.strAddrLength = (RowView.new schema b.buf b.size).strAddrLength ∧
      b.size = strTableStart schema + strLength cells + b.strAddrLength * strCount schema ∧
      ∀ j col c, schema[j]? = some col → cells[j]? = some c →
        RowView.isNULL (RowView.new schema b.buf b.size).row j = (c == .null) ∧
        (c ≠ .null → (RowView.new schema b.buf b.size).readCell j col = (0, some c)) := by
  have hfits := Fits.of_forall₂ hfit
  have hsize := calTotalLength_new hschema hlen
  have hr := rowShape_rowLength hfits hschema hlen
  obtain ⟨b0, hb0, hbuilt0⟩ := built_setBuffer hr (hbuf.trans hsize)
  obtain ⟨b, hb, hbuilt⟩ := built_appendCells hr cells.length 0 b0 (by omega) hbuilt0
  have henc := hbuilt.encodes hr
  have hnew := RowView.new_of_encodes henc hschema
  refine ⟨b, ?_, ?_, ?_, ?_, ?_⟩
  · rw [buildRow]
    simp only [hsize, hb0, Option.bind_some]
    exact hb
  · simp [RowBuilder.isComplete, hbuilt.cnt_eq, hbuilt.schema_eq, hfits.length_eq]
  · rw [hbuilt.size_eq, hnew, hbuilt.strAddrLength_eq]
  · rw [hbuilt.size_eq, hbuilt.strAddrLength_eq]
    exact rowLength_eq schema (strLength cells)
  · intro j col c hcol hc
    rw [hbuilt.size_eq]
    refine ⟨by rw [hnew]; exact henc.nullBit j c hc, fun hnull => ?_⟩
    exact readCell_of_encodes henc hschema hcol hc (hfits.cell j col c hcol hc) hnull

/-- The round trip at an `int` and a `varchar` column and the row `(5, "hi")`,
in the buffer of 14 bytes that `CalTotalLength` asks for. -/
theorem row_round_trip_int_varchar :
    [(⟨.kInt, false⟩ : ColumnDesc), ⟨.kVarchar, false⟩] ≠ [] ∧
    List.Forall₂ (fun (col : ColumnDesc) (c : Cell) => c.fits col = true)
      [(⟨.kInt, false⟩ : ColumnDesc), ⟨.kVarchar, false⟩] [Cell.int 5, .str [104, 105]] ∧
    rowLength [⟨.kInt, false⟩, ⟨.kVarchar, false⟩] (strLength [Cell.int 5, .str [104, 105]]) < 2 ^ 32 ∧
    (List.replicate 14 (0 : UInt8)).length =
      (RowBuilder.new [⟨.kInt, false⟩, ⟨.kVarchar, false⟩]).calTotalLength
        (strLength [Cell.int 5, .str [104, 105]]) ∧
    ∃ b, buildRow [⟨.kInt, false⟩, ⟨.kVarchar, false⟩] (List.replicate 14 0)
        [Cell.int 5, .str [104, 105]] = some b ∧ b.isComplete = true ∧
      b.strAddrLength =
        (RowView.new [⟨.kInt, false⟩, ⟨.kVarchar, false⟩] b.buf b.size).strAddrLength ∧
      b.size = strTableStart [⟨.kInt, false⟩, ⟨.kVarchar, false⟩] +
        strLength [Cell.int 5, .str [104, 105]] +
        b.strAddrLength * strCount [⟨.kInt, false⟩, ⟨.kVarchar, false⟩] ∧
      ∀ j col c, [(⟨.kInt, false⟩ : ColumnDesc), ⟨.kVarchar, false⟩][j]? = some col →
        [Cell.int 5, .str [104, 105]][j]? = some c →
        RowView.isNULL (RowView.new [⟨.kInt, false⟩, ⟨.kVarchar, false⟩] b.buf b.size).row j =
          (c == .null) ∧
        (c ≠ .null →
          (RowView.new [⟨.kInt, false⟩, ⟨.kVarchar, false⟩] b.buf b.size).readCell j col =
            (0, some c)) :=
  ⟨by decide, .cons rfl (.cons rfl .nil), by decide, by decide,
    row_round_trip _ _ _ (by decide) (.cons rfl (.cons rfl .nil)) (by decide) (by decide)⟩

end Fedb.Codec
