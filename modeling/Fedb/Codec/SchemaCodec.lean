import Fedb.Codec.FlatArray

/-! # `SchemaCodec`: the legacy schema format

`SchemaCodec` (`src/codec/schema_codec.h`) turns the column descriptions of
a table into the `schema` bytes the nameserver stores in the table's meta,
and back: the snapshot code and the SDK codec decode them. Each column is a
record of a type byte, an `add_ts_idx` byte, a name-size byte and the name.

`Encode` sizes the buffer with `GetSize`, a `uint32_t` sum, rejects a
schema over `MAX_ROW_BYTE_SIZE` and, in its loop, a name of `128` bytes or
more, after writing that record's first two bytes. `Decode` reads records
until fewer bytes are left than the next record needs, and appends each to
the vector it is given; it never sets `is_ts_col`, which the format does not
carry. `ConvertColumnDesc` builds the column descriptions from a table's
protobuf descriptions, mapping each type name by `ConvertType`.

This module proves:

* `Encode` succeeds exactly on schemas of at most `MAX_ROW_BYTE_SIZE` bytes
  whose names are below `128` bytes, and then writes the records one after
  the other, whatever the buffer held (`encode_spec`, `encode_ok_iff`);
* `Decode` reads a record back whatever follows it (`decodeLoop_columnBytes`)
  and stops, changing nothing, at a record cut short (`decodeLoop_cut`);
* `ConvertColumnDesc` succeeds exactly when every type name is known
  (`convertLoop_spec`);
* what `Encode` writes `Decode` reads back, with `is_ts_col` cleared, and any
  prefix of it decodes to a prefix of the columns (`schema_round_trip`).

A name is the list of its bytes and a column type the byte `Decode` casts
to `ColType`. A write past the end of the buffer, which `GetSize` wrapping
past `2^32` would allow, is dropped by the model (`List.set` out of range).
-/

namespace Fedb.Codec

namespace SchemaCodec

open ByteBuffer

def MAX_ROW_BYTE_SIZE : Nat := 1024 * 1024

def HEADER_BYTE_SIZE : Nat := 3

/-- `fedb::codec::ColumnDesc`. The type is the byte it is stored as: `Encode`
casts it to `uint8_t` and `Decode` casts any byte back to `ColType`. -/
structure ColumnDesc where
  type : UInt8
  name : List UInt8
  addTsIdx : Bool := false
  isTsCol : Bool := false
  deriving DecidableEq, Repr

/-- `GetSize(columns)`: a header and the name of each column, summed in
`uint32_t`. -/
def getSize (columns : List ColumnDesc) : Nat :=
  columns.foldl (fun byteSize c => (byteSize + (HEADER_BYTE_SIZE + c.name.length)) % 2 ^ 32) 0

/-- The loop of `Encode` from offset `off` of the buffer: the type byte and
the `add_ts_idx` byte, then, for a name below `128` bytes, its size and the
name; a longer name stops the loop with `false`. -/
def encodeLoop : List UInt8 → Nat → List ColumnDesc → Bool × List UInt8
  | buf, _, [] => (true, buf)
  | buf, off, c :: cs =>
    let buf := writeBytes buf off [c.type]
    let buf := writeBytes buf (off + 1) [if c.addTsIdx then 1 else 0]
    if c.name.length ≥ 128 then (false, buf)
    else
      let buf := writeBytes buf (off + 2) [UInt8.ofNat c.name.length]
      let buf := writeBytes buf (off + 3) c.name
      encodeLoop buf (off + 3 + c.name.length) cs

/-- `Encode(columns, buffer)`: `false`, the buffer untouched, over
`MAX_ROW_BYTE_SIZE`; otherwise the buffer resized to `GetSize` and the loop. -/
def encode (columns : List ColumnDesc) (buffer : List UInt8) : Bool × List UInt8 :=
  let byteSize := getSize columns
  if byteSize > MAX_ROW_BYTE_SIZE then (false, buffer)
  else encodeLoop (resize buffer byteSize) 0 columns

/-- The loop of `Decode` over what is left of the schema: a record whose
bytes are all there is appended, anything shorter ends the loop. -/
def decodeLoop (rest : List UInt8) (columns : List ColumnDesc) : List ColumnDesc :=
  match rest with
  | type :: addTsIdx :: nameSize :: more =>
    if more.length < nameSize.toNat then columns
    else
      decodeLoop (more.drop nameSize.toNat)
        (columns ++ [{ type := type, name := more.take nameSize.toNat, addTsIdx := addTsIdx != 0 }])
  | _ => columns
termination_by rest.length
decreasing_by simp; omega

/-- `Decode(schema, columns)`: the records of `schema` appended to `columns`. -/
def decode (schema : List UInt8) (columns : List ColumnDesc) : List ColumnDesc :=
  decodeLoop schema columns

/-- `ConvertType(raw_type)`: the type of a type name, `kUnknown` for a name
it does not know. -/
def convertType (rawType : String) : ColType :=
  if rawType = "int32" then .kInt32
  else if rawType = "int64" then .kInt64
  else if rawType = "uint32" then .kUInt32
  else if rawType = "uint64" then .kUInt64
  else if rawType = "float" then .kFloat
  else if rawType = "double" then .kDouble
  else if rawType = "string" then .kString
  else if rawType = "timestamp" then .kTimestamp
  else if rawType = "int16" then .kInt16
  else if rawType = "uint16" then .kUInt16
  else if rawType = "bool" then .kBool
  else if rawType = "date" then .kDate
  else .kUnknown

/-- The fields `ConvertColumnDesc` reads of a column description of a
`TableInfo`: `type`, `name`, `add_ts_idx` and `is_ts_col`. -/
structure PbColumnDesc where
  type : String
  name : List UInt8
  addTsIdx : Bool
  isTsCol : Bool
  deriving DecidableEq, Repr

/-- The fields of `TableInfo` `ConvertColumnDesc` reads: `column_desc_v1`,
`column_desc` and `added_column_desc`. -/
structure TableInfo where
  columnDescV1 : List PbColumnDesc
  columnDesc : List PbColumnDesc
  addedColumnDesc : List PbColumnDesc
  deriving DecidableEq, Repr

/-- The loops of `ConvertColumnDesc`, which differ in the flags they copy:
each description is converted and pushed, and an unknown type stops the
loop with `-1`. -/
def convertLoop (keepAddTsIdx keepIsTsCol : Bool) :
    List PbColumnDesc → List ColumnDesc → Int × List ColumnDesc
  | [], columns => (0, columns)
  | d :: ds, columns =>
    let type := convertType d.type
    if type = .kUnknown then (-1, columns)
    else
      convertLoop keepAddTsIdx keepIsTsCol ds
        (columns ++ [{ type := type.toUInt8, name := d.name,
                       addTsIdx := keepAddTsIdx && d.addTsIdx,
                       isTsCol := keepIsTsCol && d.isTsCol }])

/-- `ConvertColumnDesc(column_desc_field, columns, added_column_field)`: the
descriptions with both flags, then the added columns with neither. -/
def convertSchema (columnDescField addedColumnField : List PbColumnDesc) : Int × List ColumnDesc :=
  match convertLoop true true columnDescField [] with
  | (0, columns) => convertLoop false false addedColumnField columns
  | r => r

/-- `ConvertColumnDesc(table_info, columns, modify_index)`: the `v1`
descriptions and, from a `modify_index` above `0`, every added column;
without `v1` descriptions, those of `column_desc`, with `add_ts_idx` only,
and the first `modify_index` added columns. -/
def convertColumnDesc (tableInfo : TableInfo) (modifyIndex : Nat) : Int × List ColumnDesc :=
  if tableInfo.columnDescV1 ≠ [] then
    if modifyIndex > 0 then convertSchema tableInfo.columnDescV1 tableInfo.addedColumnDesc
    else convertSchema tableInfo.columnDescV1 []
  else
    match convertLoop true false tableInfo.columnDesc [] with
    | (0, columns) =>
      if modifyIndex > 0 then convertLoop false false (tableInfo.addedColumnDesc.take modifyIndex) columns
      else (0, columns)
    | r => r

/-- `HasTSCol(columns)`. -/
def hasTSCol (columns : List ColumnDesc) : Bool := columns.any (·.isTsCol)

/-! ## The format -/

/-- The record of a column. -/
def columnBytes (c : ColumnDesc) : List UInt8 :=
  [c.type, if c.addTsIdx then 1 else 0, UInt8.ofNat c.name.length] ++ c.name

/-- The records of the columns, one after the other. -/
def schemaBytes (columns : List ColumnDesc) : List UInt8 := columns.flatMap columnBytes

/-- A record's size as `GetSize` counts it. -/
def recordSize (c : ColumnDesc) : Nat := HEADER_BYTE_SIZE + c.name.length

/-- A column `Encode` accepts: a name below `128` bytes. -/
def Fits (c : ColumnDesc) : Prop := c.name.length < 128

instance (c : ColumnDesc) : Decidable (Fits c) := by unfold Fits; infer_instance

/-- What `Decode` reads of a column's record: the column without `is_ts_col`. -/
def ColumnDesc.erase (c : ColumnDesc) : ColumnDesc := { c with isTsCol := false }

theorem columnBytes_eq (c : ColumnDesc) :
    columnBytes c = c.type :: (if c.addTsIdx then 1 else 0) :: UInt8.ofNat c.name.length :: c.name := rfl

@[simp] theorem length_columnBytes (c : ColumnDesc) : (columnBytes c).length = recordSize c := by
  rw [columnBytes_eq, recordSize, HEADER_BYTE_SIZE, List.length_cons, List.length_cons, List.length_cons]
  omega

theorem length_schemaBytes (columns : List ColumnDesc) :
    (schemaBytes columns).length = (columns.map recordSize).sum := by
  induction columns with
  | nil => rfl
  | cons c cs ih =>
    rw [schemaBytes, List.flatMap_cons, List.length_append, ← schemaBytes, ih, length_columnBytes,
      List.map_cons, List.sum_cons]

/-! ## `GetSize` and `Encode` -/

/-- The `uint32_t` sum of `GetSize` from `acc` is the plain sum while that
stays below `2^32`. -/
theorem foldl_getSize (columns : List ColumnDesc) :
    ∀ acc, acc + (columns.map recordSize).sum < 2 ^ 32 →
      columns.foldl (fun byteSize c => (byteSize + (HEADER_BYTE_SIZE + c.name.length)) % 2 ^ 32) acc =
        acc + (columns.map recordSize).sum := by
  induction columns with
  | nil => intro acc _; rfl
  | cons c cs ih =>
    intro acc h
    rw [List.map_cons, List.sum_cons] at h
    have hlt : acc + recordSize c < 2 ^ 32 := by omega
    rw [List.foldl_cons, show HEADER_BYTE_SIZE + c.name.length = recordSize c from rfl,
      Nat.mod_eq_of_lt hlt, ih _ (by omega), List.map_cons, List.sum_cons, Nat.add_assoc]

theorem getSize_eq {columns : List ColumnDesc} (h : (columns.map recordSize).sum < 2 ^ 32) :
    getSize columns = (columns.map recordSize).sum := by
  rw [getSize, foldl_getSize columns 0 (by omega), Nat.zero_add]

/-- The four stores of one round of the loop are one store of the record. -/
theorem writeBytes_record (buf : List UInt8) (off : Nat) (c : ColumnDesc) :
    writeBytes (writeBytes (writeBytes (writeBytes buf off [c.type]) (off + 1)
        [if c.addTsIdx then 1 else 0]) (off + 2) [UInt8.ofNat c.name.length]) (off + 3) c.name =
      writeBytes buf off (columnBytes c) := by
  have e1 := writeBytes_append [c.type] buf off [if c.addTsIdx then 1 else 0]
  have e2 := writeBytes_append ([c.type] ++ [if c.addTsIdx then 1 else 0]) buf off
    [UInt8.ofNat c.name.length]
  have e3 := writeBytes_append ([c.type] ++ [if c.addTsIdx then 1 else 0] ++ [UInt8.ofNat c.name.length])
    buf off c.name
  simp only [List.length_append, List.length_singleton] at e1 e2 e3
  rw [e1, e2, e3]
  rfl

/-- The loop stores the records of columns that fit one after the other. -/
theorem encodeLoop_fits :
    ∀ (columns : List ColumnDesc) (buf : List UInt8) (off : Nat), (∀ c ∈ columns, Fits c) →
      encodeLoop buf off columns = (true, writeBytes buf off (schemaBytes columns))
  | [], buf, off, _ => rfl
  | c :: cs, buf, off, h => by
    have hc : ¬ c.name.length ≥ 128 := Nat.not_le.2 (h c List.mem_cons_self)
    rw [encodeLoop]
    simp only [if_neg hc]
    rw [writeBytes_record, encodeLoop_fits cs _ _ fun d hd => h d (List.mem_cons_of_mem _ hd),
      show off + 3 + c.name.length = off + (columnBytes c).length by simp [recordSize, HEADER_BYTE_SIZE]; omega,
      writeBytes_append]
    rfl

/-- The loop reaches a name that does not fit after every earlier column fit:
it returns `false`. -/
theorem encodeLoop_not_fits :
    ∀ (columns : List ColumnDesc) (buf : List UInt8) (off : Nat), (∃ c ∈ columns, ¬ Fits c) →
      (encodeLoop buf off columns).1 = false
  | [], _, _, ⟨_, hc, _⟩ => absurd hc List.not_mem_nil
  | c :: cs, buf, off, ⟨d, hd, hnd⟩ => by
    rw [encodeLoop]
    by_cases hc : c.name.length ≥ 128
    · simp only [if_pos hc]
    · simp only [if_neg hc]
      -- the column that does not fit is a later one
      rcases List.mem_cons.1 hd with rfl | hd
      · exact absurd (Nat.not_le.1 hc) hnd
      · exact encodeLoop_not_fits cs _ _ ⟨d, hd, hnd⟩

/-- `Encode` of columns that fit, within `MAX_ROW_BYTE_SIZE`: `true` and the
records, whatever the buffer held. -/
theorem encode_spec {columns : List ColumnDesc} (hfit : ∀ c ∈ columns, Fits c)
    (hsize : (columns.map recordSize).sum ≤ MAX_ROW_BYTE_SIZE) (buffer : List UInt8) :
    encode columns buffer = (true, schemaBytes columns) := by
  have hget : getSize columns = (schemaBytes columns).length := by
    rw [getSize_eq (by unfold MAX_ROW_BYTE_SIZE at hsize; omega), length_schemaBytes]
  have hle : ¬ getSize columns > MAX_ROW_BYTE_SIZE := by
    rw [getSize_eq (by unfold MAX_ROW_BYTE_SIZE at hsize; omega)]
    omega
  rw [encode]
  simp only [if_neg hle]
  rw [encodeLoop_fits columns _ 0 hfit, hget, writeBytes_whole (length_resize _ _).symm]

/-- `Encode` succeeds exactly on columns that fit within `MAX_ROW_BYTE_SIZE`,
for any schema whose size does not wrap `GetSize`. -/
theorem encode_ok_iff {columns : List ColumnDesc} (hwrap : (columns.map recordSize).sum < 2 ^ 32)
    (buffer : List UInt8) :
    (encode columns buffer).1 = true ↔
      (columns.map recordSize).sum ≤ MAX_ROW_BYTE_SIZE ∧ ∀ c ∈ columns, Fits c := by
  constructor
  · intro hok
    by_cases hsize : (columns.map recordSize).sum ≤ MAX_ROW_BYTE_SIZE
    · refine ⟨hsize, fun c hc => ?_⟩
      by_contra hnc
      have hle : ¬ getSize columns > MAX_ROW_BYTE_SIZE := by
        rw [getSize_eq hwrap]
        omega
      rw [encode] at hok
      simp only [if_neg hle] at hok
      rw [encodeLoop_not_fits columns _ 0 ⟨c, hc, hnc⟩] at hok
      exact Bool.false_ne_true hok
    · -- over the bound `Encode` returns at once
      have hgt : getSize columns > MAX_ROW_BYTE_SIZE := by
        rw [getSize_eq hwrap]
        omega
      rw [encode] at hok
      simp only [if_pos hgt] at hok
      exact absurd hok Bool.false_ne_true
  · rintro ⟨hsize, hfit⟩
    rw [encode_spec hfit hsize buffer]

/-! ## `Decode` -/

/-- A record is read back whatever follows it. -/
theorem decodeLoop_columnBytes {c : ColumnDesc} (hc : Fits c) (rest : List UInt8)
    (columns : List ColumnDesc) :
    decodeLoop (columnBytes c ++ rest) columns = decodeLoop rest (columns ++ [c.erase]) := by
  have hsize : (UInt8.ofNat c.name.length).toNat = c.name.length := by
    rw [UInt8.toNat_ofNat']
    unfold Fits at hc
    omega
  have hflag : ((if c.addTsIdx then (1 : UInt8) else 0) != 0) = c.addTsIdx := by
    cases c.addTsIdx <;> rfl
  rw [columnBytes_eq, List.cons_append, List.cons_append, List.cons_append, decodeLoop.eq_1, hsize,
    if_neg (Nat.not_lt.2 (by rw [List.length_append]; omega)), List.drop_left, List.take_left, hflag]
  rfl

/-- The records of the columns are read back whatever follows them. -/
theorem decodeLoop_schemaBytes :
    ∀ {columns : List ColumnDesc}, (∀ c ∈ columns, Fits c) → ∀ (rest : List UInt8) (acc : List ColumnDesc),
      decodeLoop (schemaBytes columns ++ rest) acc = decodeLoop rest (acc ++ columns.map ColumnDesc.erase)
  | [], _, rest, acc => by rw [schemaBytes, List.flatMap_nil, List.nil_append, List.map_nil, List.append_nil]
  | c :: cs, h, rest, acc => by
    rw [schemaBytes, List.flatMap_cons, List.append_assoc, ← schemaBytes,
      decodeLoop_columnBytes (h c List.mem_cons_self),
      decodeLoop_schemaBytes (fun d hd => h d (List.mem_cons_of_mem _ hd)), List.map_cons,
      List.append_assoc, List.singleton_append]

/-- Fewer bytes than a header end the loop. -/
theorem decodeLoop_short {rest : List UInt8} (h : rest.length < 3) (columns : List ColumnDesc) :
    decodeLoop rest columns = columns :=
  decodeLoop.eq_2 rest columns fun _ _ _ _ heq => by
    rw [heq, List.length_cons, List.length_cons, List.length_cons] at h
    omega

/-- A record cut short ends the loop and adds nothing. -/
theorem decodeLoop_cut {c : ColumnDesc} (hc : Fits c) {k : Nat} (hk : k < recordSize c)
    (columns : List ColumnDesc) : decodeLoop ((columnBytes c).take k) columns = columns := by
  have hsize : (UInt8.ofNat c.name.length).toNat = c.name.length := by
    rw [UInt8.toNat_ofNat']
    unfold Fits at hc
    omega
  -- fewer than three bytes, or a name cut short
  match k, hk with
  | 0, _ => exact decodeLoop_short (by simp) columns
  | 1, _ => exact decodeLoop_short (by simp) columns
  | 2, _ => exact decodeLoop_short (by simp) columns
  | k + 3, hk =>
    rw [columnBytes_eq, List.take_succ_cons, List.take_succ_cons, List.take_succ_cons, decodeLoop.eq_1,
      hsize, List.length_take, if_pos (by simp only [recordSize, HEADER_BYTE_SIZE] at hk; omega)]

/-- A prefix of the records decodes to a prefix of the columns. -/
theorem decodeLoop_take_schemaBytes :
    ∀ {columns : List ColumnDesc}, (∀ c ∈ columns, Fits c) → ∀ (k : Nat) (acc : List ColumnDesc),
      ∃ j, decodeLoop ((schemaBytes columns).take k) acc = acc ++ (columns.map ColumnDesc.erase).take j
  | [], _, k, acc => ⟨0, by rw [schemaBytes, List.flatMap_nil, List.take_nil]; simp [decodeLoop]⟩
  | c :: cs, h, k, acc => by
    have hc := h c List.mem_cons_self
    rw [schemaBytes, List.flatMap_cons, ← schemaBytes, List.take_append]
    by_cases hk : k < recordSize c
    · -- the cut falls inside the first record
      refine ⟨0, ?_⟩
      rw [Nat.sub_eq_zero_of_le (by rw [length_columnBytes]; omega), List.take_zero, List.append_nil,
        decodeLoop_cut hc hk, List.take_zero, List.append_nil]
    · -- the first record is whole
      rw [List.take_of_length_le (by rw [length_columnBytes]; omega), decodeLoop_columnBytes hc]
      obtain ⟨j, hj⟩ := decodeLoop_take_schemaBytes (fun d hd => h d (List.mem_cons_of_mem _ hd))
        (k - (columnBytes c).length) (acc ++ [c.erase])
      refine ⟨j + 1, ?_⟩
      rw [hj, List.map_cons, List.take_succ_cons, List.append_assoc, List.singleton_append]

/-- `Decode` never reports a timestamp column. -/
theorem hasTSCol_decodeLoop (rest : List UInt8) (columns : List ColumnDesc)
    (h : hasTSCol columns = false) : hasTSCol (decodeLoop rest columns) = false := by
  induction rest, columns using decodeLoop.induct with
  | case1 columns type addTsIdx nameSize more hlt =>
    rw [decodeLoop.eq_1, if_pos hlt]
    exact h
  | case2 columns type addTsIdx nameSize more hge ih =>
    rw [decodeLoop.eq_1, if_neg hge]
    -- the record appended has `is_ts_col` unset
    refine ih ?_
    simp only [hasTSCol, List.any_append, List.any_cons, List.any_nil, Bool.or_false] at h ⊢
    rw [h]
  | case3 rest columns hnot =>
    rw [decodeLoop.eq_2 rest columns hnot]
    exact h

/-! ## `ConvertColumnDesc` -/

/-- A loop of `ConvertColumnDesc` succeeds exactly when every type name is
known, and then pushes every description converted. -/
theorem convertLoop_spec (keepAddTsIdx keepIsTsCol : Bool) :
    ∀ (ds : List PbColumnDesc) (columns : List ColumnDesc),
      (convertLoop keepAddTsIdx keepIsTsCol ds columns).1 = 0 ↔ ∀ d ∈ ds, convertType d.type ≠ .kUnknown
  | [], _ => by simp [convertLoop]
  | d :: ds, columns => by
    rw [convertLoop]
    by_cases hd : convertType d.type = .kUnknown
    · simp only [if_pos hd]
      constructor
      · intro h
        exact absurd h (by decide)
      · intro h
        exact absurd hd (h d List.mem_cons_self)
    · simp only [if_neg hd]
      rw [convertLoop_spec keepAddTsIdx keepIsTsCol ds, List.forall_mem_cons]
      exact ⟨fun h => ⟨hd, h⟩, fun h => h.2⟩

/-! ## The round trip -/

/-- What `Encode` writes of columns that fit within `MAX_ROW_BYTE_SIZE`,
`Decode` reads back, appended to the vector it is given, with `is_ts_col`
cleared, so that it never reports a timestamp column; and a prefix of what
was written, as a write cut short leaves it, decodes to a prefix of the
columns. -/
theorem schema_round_trip {columns : List ColumnDesc} (hfit : ∀ c ∈ columns, Fits c)
    (hsize : (columns.map recordSize).sum ≤ MAX_ROW_BYTE_SIZE) (buffer : List UInt8)
    (acc : List ColumnDesc) :
    ∃ schema, encode columns buffer = (true, schema) ∧
      decode schema acc = acc ++ columns.map ColumnDesc.erase ∧
      hasTSCol (decode schema []) = false ∧
      ∀ k, ∃ j, decode (schema.take k) acc = acc ++ (columns.map ColumnDesc.erase).take j := by
  refine ⟨schemaBytes columns, encode_spec hfit hsize buffer, ?_, ?_, ?_⟩
  · have h := decodeLoop_schemaBytes hfit [] acc
    rw [List.append_nil] at h
    rw [decode, h, decodeLoop_short (by simp)]
  · exact hasTSCol_decodeLoop _ [] rfl
  · exact fun k => decodeLoop_take_schemaBytes hfit k acc

/-- A column `id` of type `kInt32` with a time index and a column `ts` of
type `kTimestamp` marked as the timestamp column: the mark is lost. -/
theorem schema_round_trip_idTs :
    ∃ schema, encode [⟨2, [105, 100], true, false⟩, ⟨8, [116, 115], false, true⟩] [] = (true, schema) ∧
      decode schema [] = [⟨2, [105, 100], true, false⟩, ⟨8, [116, 115], false, false⟩] ∧
      hasTSCol (decode schema []) = false ∧
      ∀ k, ∃ j, decode (schema.take k) [] =
        ([⟨2, [105, 100], true, false⟩, ⟨8, [116, 115], false, false⟩] : List ColumnDesc).take j := by
  obtain ⟨schema, henc, hdec, hts, hcut⟩ := schema_round_trip
    (by decide : ∀ c ∈ ([⟨2, [105, 100], true, false⟩, ⟨8, [116, 115], false, true⟩] : List ColumnDesc), Fits c)
    (by decide) [] []
  exact ⟨schema, henc, hdec, hts, hcut⟩

end SchemaCodec

end Fedb.Codec
