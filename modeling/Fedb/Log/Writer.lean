import Fedb.Log.Format

/-! # `log::Writer`

`Writer` (`src/log/log_writer.cc`) appends records to a file. `AddRecord`
cuts a record into fragments that fit the room left in the current block
after a header, and emits each as a physical record; when fewer bytes than
a header are left in a block, they are filled with zeros and a new block is
begun. `EndLog` emits an empty `kEofType` record the same way.

Uncompressed, every physical record goes to the file at once. Compressed
(`zlib` or `snappy`), the records fill a block of `kCompressBlockSize` bytes
in `buffer_`, which is compressed and written behind a header of
`kHeaderSizeOfCompressBlock` bytes once it is full, the `kEofType` record
filling it up with zeros. The compression is a parameter, `none` where it
fails; the file's `Append` does not fail here.

`buffer` holds the bytes of `buffer_` written since the block began, the
first `block_offset_` of them. The zeros `AppendInternal` writes come from a
literal of six zero bytes and its terminating zero; a trailer of eight bytes
(compressed logs only) reads one byte past it, which the model takes as zero
too: the reader never looks at a trailer.
-/

namespace Fedb.Log

open ByteBuffer

/-- The members of `log::Writer`: what `dest_` holds, `block_offset_`,
`compress_type_`, and `buffer_` as far as the current block filled it. -/
structure Writer where
  dest : List UInt8
  blockOffset : Nat
  compressType : CompressType
  buffer : List UInt8
  deriving Repr, DecidableEq

namespace Writer

/-- `header_size_`. -/
def headerSize (w : Writer) : Nat :=
  if w.compressType ≠ .kNoCompress then kHeaderSizeForCompress else kHeaderSize

/-- `block_size_`. -/
def blockSize (w : Writer) : Nat :=
  if w.compressType ≠ .kNoCompress then kCompressBlockSize else kBlockSize

/-- `Writer(compress_type, dest)` on an empty file. -/
def new (compressType : String) : Writer := ⟨[], 0, getCompressType compressType, []⟩

section Write

variable (table0 : UInt8 → UInt32) (compress : CompressType → List UInt8 → Option (List UInt8))

/-- `CompressRecord()`: the block compressed, behind a header holding the
length of the compressed bytes, least significant byte first, and the
compress type. -/
def compressRecord (w : Writer) : Writer × Status :=
  match w.compressType with
  | .kNoCompress => (w, .invalidRecord)
  | t =>
    match compress t w.buffer with
    | none => (w, .invalidRecord)
    | some c =>
      -- `compress_len` is an `int32_t`
      if c.length ≥ 2 ^ 31 then (w, .invalidRecord)
      else
        let headOfCompress :=
          (writeLE (List.replicate kHeaderSizeOfCompressBlock 0) 0 4 c.length).set 4 (UInt8.ofNat t.toNat)
        ({ w with dest := w.dest ++ headOfCompress ++ c }, .ok)

/-- `AppendInternal(dest_, leftover)`: `leftover` zeros, to the file or to the
block, which is then compressed. -/
def appendInternal (w : Writer) (leftover : Nat) : Writer × Status :=
  if w.compressType = .kNoCompress then ({ w with dest := w.dest ++ List.replicate leftover 0 }, .ok)
  else compressRecord compress { w with buffer := w.buffer ++ List.replicate leftover 0 }

/-- The header `EmitPhysicalRecord` formats for a fragment of `n` bytes of
type `t`, before its checksum: the length from byte 4 on, low byte first, and
the type. -/
def formatHeader (w : Writer) (t : RecordType) (n : Nat) : List UInt8 :=
  let buf := List.replicate w.headerSize 0
  if w.compressType = .kNoCompress then
    ((buf.set 4 (UInt8.ofNat (n &&& 0xff))).set 5 (UInt8.ofNat (n >>> 8))).set 6 (UInt8.ofNat t.toNat)
  else
    ((((buf.set 4 (UInt8.ofNat (n &&& 0xff))).set 5 (UInt8.ofNat ((n >>> 8) &&& 0xff))).set 6
      (UInt8.ofNat ((n >>> 16) &&& 0xff))).set 7 (UInt8.ofNat (n >>> 24))).set 8 (UInt8.ofNat t.toNat)

/-- The bytes of a physical record: the header, with the masked checksum of
the type and the payload in its first four bytes, then the payload. -/
def physicalRecord (w : Writer) (t : RecordType) (payload : List UInt8) : List UInt8 :=
  encodeFixed32 (w.formatHeader t payload.length)
      (mask (extend table0 (value table0 [UInt8.ofNat t.toNat]) payload)) ++ payload

/-- `EmitPhysicalRecord(t, ptr, n)`. -/
def emitPhysicalRecord (w : Writer) (t : RecordType) (payload : List UInt8) : Writer × Status :=
  if w.compressType = .kNoCompress then
    ({ w with dest := w.dest ++ w.physicalRecord table0 t payload,
              blockOffset := w.blockOffset + w.headerSize + payload.length }, .ok)
  else
    let w := { w with buffer := w.buffer ++ w.physicalRecord table0 t payload,
                      blockOffset := w.blockOffset + w.headerSize + payload.length }
    -- the `kEofType` record fills the block
    let w :=
      if t = .kEofType then
        { w with buffer := w.buffer ++ List.replicate (w.blockSize - w.blockOffset) 0, blockOffset := w.blockSize }
      else w
    if w.blockOffset = w.blockSize then compressRecord compress w else (w, .ok)

/-- The start of each round of `AddRecord` and `EndLog`: a block with fewer
bytes left than a header is filled with zeros, and a new block begun. -/
def switchBlock (w : Writer) : Writer × Status :=
  let leftover := w.blockSize - w.blockOffset
  if leftover < w.headerSize then
    if leftover > 0 then
      match appendInternal compress w leftover with
      | (w, .ok) => ({ w with blockOffset := 0, buffer := [] }, .ok)
      | r => r
    else ({ w with blockOffset := 0, buffer := [] }, .ok)
  else (w, .ok)

theorem compressRecord_fields (w : Writer) :
    (compressRecord compress w).1.compressType = w.compressType ∧
      (compressRecord compress w).1.blockOffset = w.blockOffset := by
  unfold compressRecord
  split
  · exact ⟨rfl, rfl⟩
  · split
    · exact ⟨rfl, rfl⟩
    · split
      · exact ⟨rfl, rfl⟩
      · exact ⟨rfl, rfl⟩

theorem headerSize_pos (w : Writer) : 0 < w.headerSize := by
  unfold headerSize
  split <;> decide

theorem headerSize_le_blockSize (w : Writer) : w.headerSize < w.blockSize := by
  unfold headerSize blockSize
  split <;> decide

theorem headerSize_congr {w w' : Writer} (h : w'.compressType = w.compressType) :
    w'.headerSize = w.headerSize ∧ w'.blockSize = w.blockSize := by
  unfold headerSize blockSize
  rw [h]
  exact ⟨rfl, rfl⟩

/-- After a switch the block has room for a header, and either a new block
began or the old one had that room. -/
theorem switchBlock_ok {w w' : Writer} (h : switchBlock compress w = (w', .ok)) :
    w'.compressType = w.compressType ∧
      (w'.blockOffset = 0 ∨ (w'.blockOffset = w.blockOffset ∧ w.headerSize ≤ w.blockSize - w.blockOffset)) := by
  unfold switchBlock at h
  dsimp only at h
  split at h
  · split at h
    · -- the trailer filled
      split at h
      · rename_i w1 happ
        have hf : w1.compressType = w.compressType := by
          have := congrArg (fun p => p.1.compressType) happ
          simp only [appendInternal] at this
          split at this
          · exact this.symm
          · exact this.symm.trans (compressRecord_fields compress _).1
        rw [← (Prod.mk.inj h).1]
        exact ⟨hf, Or.inl rfl⟩
      · rename_i hne
        exact (hne _ h).elim
    · rw [← (Prod.mk.inj h).1]
      exact ⟨rfl, Or.inl rfl⟩
  · rw [← (Prod.mk.inj h).1]
    exact ⟨rfl, Or.inr ⟨rfl, by omega⟩⟩

/-- A physical record other than `kEofType` advances the block by its header
and payload, whatever the compression does. -/
theorem emitPhysicalRecord_fields (w : Writer) {t : RecordType} (ht : t ≠ .kEofType) (payload : List UInt8) :
    (emitPhysicalRecord table0 compress w t payload).1.compressType = w.compressType ∧
      (emitPhysicalRecord table0 compress w t payload).1.blockOffset =
        w.blockOffset + w.headerSize + payload.length := by
  unfold emitPhysicalRecord
  split
  · exact ⟨rfl, rfl⟩
  · simp only [ht, if_false]
    split
    · exact compressRecord_fields compress _
    · exact ⟨rfl, rfl⟩

/-- The loop of `AddRecord(slice)`: `rest` the bytes still to write, `begin`
whether none was written yet. Each round emits the fragment that fits the
block; the loop ends at the last fragment or at a failed write. -/
def addRecordLoop (w : Writer) (rest : List UInt8) (begin : Bool) : Writer × Status :=
  match _hs : switchBlock compress w with
  | (w', .ok) =>
    let avail := w'.blockSize - w'.blockOffset - w'.headerSize
    let last := decide (rest.length ≤ avail)
    let type : RecordType :=
      if begin ∧ last then .kFullType
      else if begin then .kFirstType
      else if last then .kLastType
      else .kMiddleType
    match _he : emitPhysicalRecord table0 compress w' type (rest.take avail) with
    | (w'', .ok) => if last then (w'', .ok) else addRecordLoop w'' (rest.drop avail) false
    | r => r
  | r => r
termination_by (rest.length, w.blockSize - w.blockOffset)
decreasing_by
  -- a round writes some bytes of the record, or fills the block with an empty fragment
  rename_i hlast
  obtain ⟨hc, hoff⟩ := switchBlock_ok compress _hs
  have hsz := headerSize_congr hc
  have htype : type ≠ .kEofType := by
    simp only [type]
    split_ifs <;> decide
  obtain ⟨hc'', hoff''⟩ := emitPhysicalRecord_fields table0 compress w' htype (rest.take avail)
  rw [_he] at hc'' hoff''
  dsimp only at hc'' hoff''
  have hsz'' := headerSize_congr (hc''.trans hc)
  have hpos := headerSize_pos w
  have hlt := headerSize_le_blockSize w
  simp only [last, decide_eq_true_eq] at hlast
  simp only [List.length_drop, List.length_take] at hoff'' ⊢
  rcases Nat.eq_zero_or_pos avail with h0 | h0
  · apply Prod.Lex.right'
    · omega
    · rw [hsz''.2]
      rcases hoff with h | ⟨h, _⟩ <;> omega
  · apply Prod.Lex.left
    omega

/-- `AddRecord(slice)`; an empty record is one empty fragment. -/
def addRecord (w : Writer) (slice : List UInt8) : Writer × Status := addRecordLoop table0 compress w slice true

/-- `EndLog()`: one round, of an empty `kEofType` fragment. -/
def endLog (w : Writer) : Writer × Status :=
  match switchBlock compress w with
  | (w, .ok) => emitPhysicalRecord table0 compress w .kEofType []
  | r => r

/-! ## The writer only appends -/

theorem dest_prefix_compressRecord (w : Writer) : w.dest <+: (compressRecord compress w).1.dest := by
  unfold compressRecord
  split
  · exact List.prefix_refl _
  · split
    · exact List.prefix_refl _
    · split
      · exact List.prefix_refl _
      · exact List.prefix_append_of_prefix (List.prefix_append _ _)

theorem dest_prefix_switchBlock (w : Writer) : w.dest <+: (switchBlock compress w).1.dest := by
  have happ : w.dest <+: (appendInternal compress w (w.blockSize - w.blockOffset)).1.dest := by
    unfold appendInternal
    split
    · exact List.prefix_append _ _
    · exact dest_prefix_compressRecord compress
        { w with buffer := w.buffer ++ List.replicate (w.blockSize - w.blockOffset) 0 }
  unfold switchBlock
  dsimp only
  split
  · split
    · split
      · rename_i w1 h
        rw [h] at happ
        exact happ
      · exact happ
    · exact List.prefix_refl _
  · exact List.prefix_refl _

theorem dest_prefix_emitPhysicalRecord (w : Writer) (t : RecordType) (payload : List UInt8) :
    w.dest <+: (emitPhysicalRecord table0 compress w t payload).1.dest := by
  unfold emitPhysicalRecord
  split
  · exact List.prefix_append _ _
  · -- the block is compressed into the file once it is full
    have key : ∀ w' : Writer, w'.dest = w.dest →
        w.dest <+: (if w'.blockOffset = w'.blockSize then compressRecord compress w' else (w', .ok)).1.dest := by
      intro w' hd
      split
      · exact hd ▸ dest_prefix_compressRecord compress w'
      · exact hd ▸ List.prefix_refl _
    apply key
    split <;> rfl

theorem dest_prefix_addRecordLoop (w : Writer) (rest : List UInt8) (begin : Bool) :
    w.dest <+: (addRecordLoop table0 compress w rest begin).1.dest := by
  fun_induction addRecordLoop table0 compress w rest begin with
  | case1 w rest begin w' hs avail last type w'' he hlast =>
    -- the last fragment
    have h1 := dest_prefix_switchBlock compress w
    have h2 := dest_prefix_emitPhysicalRecord table0 compress w' type (rest.take avail)
    rw [hs] at h1
    rw [he] at h2
    exact h1.trans h2
  | case2 w rest begin w' hs avail last type w'' he hlast ih =>
    have h1 := dest_prefix_switchBlock compress w
    have h2 := dest_prefix_emitPhysicalRecord table0 compress w' type (rest.take avail)
    rw [hs] at h1
    rw [he] at h2
    exact h1.trans (h2.trans ih)
  | case3 w rest begin w' hs avail last type hne =>
    -- a failed write keeps what was written before it
    have h1 := dest_prefix_switchBlock compress w
    rw [hs] at h1
    exact h1.trans (dest_prefix_emitPhysicalRecord table0 compress w' type (rest.take avail))
  | case4 w rest begin hne => exact dest_prefix_switchBlock compress w

theorem dest_prefix_endLog (w : Writer) : w.dest <+: (endLog table0 compress w).1.dest := by
  have h1 := dest_prefix_switchBlock compress w
  unfold endLog
  split
  · rename_i w' hs
    rw [hs] at h1
    exact h1.trans (dest_prefix_emitPhysicalRecord table0 compress w' _ _)
  · exact h1

/-! ## The uncompressed log -/

/-- A writer of an uncompressed log: the block offset is where the file's
last block stands, and `buffer_` is not used. -/
structure Plain (w : Writer) : Prop where
  noCompress : w.compressType = .kNoCompress
  blockOffset_le : w.blockOffset ≤ kBlockSize
  dest_mod : w.dest.length % kBlockSize = w.blockOffset % kBlockSize
  buffer_nil : w.buffer = []

theorem new_plain {compressType : String} (h : getCompressType compressType = .kNoCompress) :
    Plain (new compressType) :=
  ⟨h, Nat.zero_le _, rfl, rfl⟩

theorem headerSize_of_noCompress {w : Writer} (h : w.compressType = .kNoCompress) :
    w.headerSize = kHeaderSize := by
  simp [headerSize, h]

theorem blockSize_of_noCompress {w : Writer} (h : w.compressType = .kNoCompress) :
    w.blockSize = kBlockSize := by
  simp [blockSize, h]

theorem length_physicalRecord {w : Writer} (h : w.compressType = .kNoCompress) (t : RecordType)
    (payload : List UInt8) : (w.physicalRecord table0 t payload).length = kHeaderSize + payload.length := by
  simp [physicalRecord, encodeFixed32, formatHeader, h, headerSize_of_noCompress h]

/-- Uncompressed, a switch fills the trailer of a block too short for a
header with zeros, and begins a new block. -/
theorem switchBlock_of_plain {w : Writer} (hw : Plain w) :
    switchBlock compress w =
      (if kBlockSize - w.blockOffset < kHeaderSize then
        { w with dest := w.dest ++ List.replicate (kBlockSize - w.blockOffset) 0, blockOffset := 0 }
      else w, .ok) := by
  obtain ⟨dest, off, ct, buf⟩ := w
  obtain ⟨hc, -, -, hb⟩ := hw
  dsimp only at hc hb
  subst hc hb
  unfold switchBlock appendInternal
  simp only [headerSize, blockSize, ne_eq, not_true_eq_false, if_false, if_true]
  by_cases hlt : kBlockSize - off < kHeaderSize
  · -- a trailer, empty when the block is full
    by_cases hpos : kBlockSize - off > 0
    · simp [hlt, hpos]
    · have h0 : kBlockSize - off = 0 := by omega
      have hH : 0 < kHeaderSize := by decide
      simp [h0, hH]
  · simp [hlt]

/-- Uncompressed, a physical record goes to the file. -/
theorem emitPhysicalRecord_of_noCompress {w : Writer} (h : w.compressType = .kNoCompress) (t : RecordType)
    (payload : List UInt8) :
    emitPhysicalRecord table0 compress w t payload =
      ({ w with dest := w.dest ++ w.physicalRecord table0 t payload,
                blockOffset := w.blockOffset + kHeaderSize + payload.length }, .ok) := by
  simp [emitPhysicalRecord, h, headerSize_of_noCompress h]

/-- After the switch of a round the block has room for a header. -/
theorem plain_switchBlock {w : Writer} (hw : Plain w) :
    Plain (switchBlock compress w).1 ∧ (switchBlock compress w).1.blockOffset + kHeaderSize ≤ kBlockSize := by
  have hm := hw.dest_mod
  have hle := hw.blockOffset_le
  rw [switchBlock_of_plain compress hw]
  split
  · -- a new block
    refine ⟨⟨hw.noCompress, Nat.zero_le _, ?_, hw.buffer_nil⟩, by dsimp only; decide⟩
    simp only [List.length_append, List.length_replicate]
    unfold kBlockSize at *
    omega
  · rename_i hlt
    dsimp only
    unfold kBlockSize kHeaderSize at *
    exact ⟨hw, by omega⟩

/-- A physical record that fits the block keeps the writer's invariant. -/
theorem plain_emitPhysicalRecord {w : Writer} (hw : Plain w) (t : RecordType) {payload : List UInt8}
    (h : w.blockOffset + kHeaderSize + payload.length ≤ kBlockSize) :
    Plain (emitPhysicalRecord table0 compress w t payload).1 := by
  have hm := hw.dest_mod
  rw [emitPhysicalRecord_of_noCompress table0 compress hw.noCompress]
  refine ⟨hw.noCompress, h, ?_, hw.buffer_nil⟩
  simp only [List.length_append, length_physicalRecord table0 hw.noCompress]
  unfold kBlockSize at *
  omega

/-- The fragment of a round fits the room the switch left. -/
theorem fragment_fits {w : Writer} (hw : Plain w) (hroom : w.blockOffset + kHeaderSize ≤ kBlockSize)
    (rest : List UInt8) :
    w.blockOffset + kHeaderSize + (rest.take (w.blockSize - w.blockOffset - w.headerSize)).length ≤ kBlockSize := by
  rw [blockSize_of_noCompress hw.noCompress, headerSize_of_noCompress hw.noCompress, List.length_take]
  omega

/-- Uncompressed, `AddRecord` succeeds and keeps the writer's invariant. -/
theorem addRecordLoop_plain {w : Writer} (hw : Plain w) (rest : List UInt8) (begin : Bool) :
    Plain (addRecordLoop table0 compress w rest begin).1 ∧ (addRecordLoop table0 compress w rest begin).2 = .ok := by
  fun_induction addRecordLoop table0 compress w rest begin with
  | case1 w rest begin w' hs avail last type w'' he hlast =>
    obtain ⟨h1, hroom⟩ := plain_switchBlock compress hw
    rw [hs] at h1 hroom
    have h2 := plain_emitPhysicalRecord table0 compress h1 type (fragment_fits h1 hroom rest)
    rw [he] at h2
    exact ⟨h2, rfl⟩
  | case2 w rest begin w' hs avail last type w'' he hlast ih =>
    obtain ⟨h1, hroom⟩ := plain_switchBlock compress hw
    rw [hs] at h1 hroom
    have h2 := plain_emitPhysicalRecord table0 compress h1 type (fragment_fits h1 hroom rest)
    rw [he] at h2
    exact ih h2
  | case3 w rest begin w' hs avail last type hne =>
    -- uncompressed, a physical record is always written
    have h1 := (plain_switchBlock compress hw).1
    rw [hs] at h1
    exact absurd (emitPhysicalRecord_of_noCompress table0 compress h1.noCompress _ _) (hne _)
  | case4 w rest begin hne =>
    exact absurd (switchBlock_of_plain compress hw) (hne _)

end Write

end Writer

end Fedb.Log
