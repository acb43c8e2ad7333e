import Fedb.Log.Writer
import Fedb.Log.Reader

/-! # Reading back an uncompressed log

What `Writer` writes to an uncompressed log, `Reader` reads back: the
records in order, each with `LastRecordEndOffset()` the length of the file
after its `AddRecord`, and then `Eof` where `EndLog` was called or
`WaitRecord` where it was not, with the checksum checked or not.

The proof follows the writer round by round. `At F q r` says that the
reader `r` of the file `F` has consumed its first `q` bytes, where the
writer's file ended: its buffer holds the rest of `q`'s block as far as it
was read. A round of the writer switches the block, which the reader does by
dropping the trailer when it refills, and emits one physical record, which
the reader parses (`parse_physicalRecord`) and steps over; `ReadRecord`'s
loop then follows `AddRecord`'s loop fragment by fragment
(`readRecordLoop_addRecordLoop`).
-/

namespace Fedb.Log

open ByteBuffer

/-- What follows a prefix of a file. -/
theorem drop_length_of_prefix_append {a b F : List UInt8} (h : a ++ b <+: F) :
    F.drop a.length = b ++ F.drop (a.length + b.length) := by
  obtain ⟨t, rfl⟩ := h
  simp [List.drop_append]

/-! ## The bytes of an uncompressed physical record -/

namespace Writer

section Bytes

variable (table0 : UInt8 → UInt32) {w : Writer} (hw : w.compressType = .kNoCompress) (t : RecordType)
  (payload : List UInt8)

include hw

theorem byteAt_formatHeader_length_low :
    byteAt (w.formatHeader t payload.length) 4 = UInt8.ofNat (payload.length &&& 0xff) := by
  simp only [formatHeader, hw, if_true, headerSize_of_noCompress hw]
  rw [byteAt_set_of_ne _ (by decide), byteAt_set_of_ne _ (by decide), byteAt_set_self _ (by simp [kHeaderSize])]

theorem byteAt_formatHeader_length_high :
    byteAt (w.formatHeader t payload.length) 5 = UInt8.ofNat (payload.length >>> 8) := by
  simp only [formatHeader, hw, if_true, headerSize_of_noCompress hw]
  rw [byteAt_set_of_ne _ (by decide), byteAt_set_self _ (by simp [kHeaderSize])]

theorem byteAt_formatHeader_type :
    byteAt (w.formatHeader t payload.length) 6 = UInt8.ofNat t.toNat := by
  simp only [formatHeader, hw, if_true, headerSize_of_noCompress hw]
  rw [byteAt_set_self _ (by simp [kHeaderSize])]

theorem length_formatHeader : (w.formatHeader t payload.length).length = kHeaderSize := by
  simp [formatHeader, hw, headerSize_of_noCompress hw]

/-- Bytes 4 to 6 of the record are those of the header: the checksum only
takes the first four. -/
theorem byteAt_physicalRecord_header {i : Nat} (h4 : 4 ≤ i) (h7 : i < kHeaderSize) :
    byteAt (w.physicalRecord table0 t payload) i = byteAt (w.formatHeader t payload.length) i := by
  have hlen : i < (encodeFixed32 (w.formatHeader t payload.length)
      (mask (extend table0 (value table0 [UInt8.ofNat t.toNat]) payload))).length := by
    simp [encodeFixed32, length_formatHeader hw t payload, h7]
  rw [physicalRecord, byteAt_append_of_lt _ hlen, encodeFixed32, byteAt_writeLE_of_ge h4]

/-- The checksum the reader expects. -/
theorem decodeFixed32_physicalRecord (rest : List UInt8) :
    unmask (decodeFixed32 (w.physicalRecord table0 t payload ++ rest)) =
      value table0 (UInt8.ofNat t.toNat :: payload) := by
  have hlen := length_formatHeader hw t payload
  have h4 : 0 + 4 ≤ (w.physicalRecord table0 t payload).length := by
    rw [length_physicalRecord table0 hw]
    unfold kHeaderSize
    omega
  have h4' : 0 + 4 ≤ (encodeFixed32 (w.formatHeader t payload.length)
      (mask (extend table0 (value table0 [UInt8.ofNat t.toNat]) payload))).length := by
    simp [encodeFixed32, hlen, kHeaderSize]
  rw [decodeFixed32, readLE_append_of_le rest h4, physicalRecord, readLE_append_of_le payload h4',
    ← decodeFixed32, decodeFixed32_encodeFixed32 (by simp [hlen, kHeaderSize]), unmask_mask, extend_value]

theorem drop_physicalRecord_headerSize :
    (w.physicalRecord table0 t payload).drop kHeaderSize = payload := by
  rw [physicalRecord]
  exact List.drop_left' (by simp [encodeFixed32, length_formatHeader hw t payload])

/-- From the type byte on, the record is the type and the payload. -/
theorem drop_physicalRecord_typeOffset :
    (w.physicalRecord table0 t payload).drop 6 = UInt8.ofNat t.toNat :: payload := by
  have hlen : (w.physicalRecord table0 t payload).length = 7 + payload.length :=
    length_physicalRecord table0 hw t payload
  have h6 := byteAt_physicalRecord_header table0 hw t payload (i := 6) (by decide) (by decide)
  rw [byteAt_formatHeader_type hw, byteAt, List.getD_eq_getElem?_getD,
    List.getElem?_eq_getElem (by omega), Option.getD_some] at h6
  -- the byte at 6 is the type, and the payload follows the header
  rw [List.drop_eq_getElem_cons (by omega), h6]
  exact congrArg _ (drop_physicalRecord_headerSize table0 hw t payload)

end Bytes

end Writer

/-! ## The reader parses a physical record -/

namespace Reader

variable (table0 : UInt8 → UInt32)

theorem typeCode_toNat (t : RecordType) : typeCode (UInt8.ofNat t.toNat) = t.toNat := by
  have hle : t.toNat ≤ 5 := t.toNat_le
  have h : (UInt8.ofNat t.toNat).toNat = t.toNat := by
    rw [UInt8.toNat_ofNat']
    exact Nat.mod_eq_of_lt (by omega)
  unfold typeCode
  rw [h, if_pos (by omega)]

/-- The two length bytes of an uncompressed header read back the length. -/
theorem length_bytes {n : Nat} (h : n < 2 ^ 16) :
    (UInt8.ofNat (n &&& 0xff)).toNat ||| ((UInt8.ofNat (n >>> 8)).toNat <<< 8) = n := by
  have h1 : (UInt8.ofNat (n &&& 0xff)).toNat = n % 256 := by
    rw [UInt8.toNat_ofNat', Nat.and_two_pow_sub_one_eq_mod n 8]
    omega
  have h2 : (UInt8.ofNat (n >>> 8)).toNat = n / 256 := by
    rw [UInt8.toNat_ofNat', Nat.shiftRight_eq_div_pow]
    omega
  -- the high byte shifted up and the low byte do not overlap
  rw [h1, h2, Nat.lor_comm, ← Nat.shiftLeft_add_eq_or_of_lt (by omega), Nat.shiftLeft_eq]
  omega

/-- `ReadPhysicalRecord` parses what `EmitPhysicalRecord` wrote, checksum
checked or not, and steps over it. -/
theorem parse_physicalRecord {r : Reader} (hc : r.compressed = false) (hi : r.initialOffset = 0)
    {w : Writer} (hw : w.compressType = .kNoCompress) {t : RecordType} {payload rest : List UInt8}
    (hb : r.buffer = w.physicalRecord table0 t payload ++ rest) (hp : payload.length < 2 ^ 16)
    (ht : t ≠ .kEofType) (hz : t ≠ .kZeroType) :
    parse table0 r = ({ r with buffer := rest }, t.toNat, payload) := by
  have hR : (w.physicalRecord table0 t payload).length = 7 + payload.length :=
    Writer.length_physicalRecord table0 hw t payload
  have hH : r.headerSize = 7 := by simp [headerSize, hc, kHeaderSize]
  have hT : r.typeOffset = 6 := by simp [typeOffset, hc]
  have htype : typeCode (r.buffer.getD r.typeOffset 0) = t.toNat := by
    have := Writer.byteAt_physicalRecord_header table0 hw t payload (i := 6) (by decide) (by decide)
    rw [hT, hb, ← byteAt, byteAt_append_of_lt _ (by omega), this, Writer.byteAt_formatHeader_type hw,
      typeCode_toNat]
  have hlen : r.lengthOf r.buffer = payload.length := by
    have h4 := Writer.byteAt_physicalRecord_header table0 hw t payload (i := 4) (by decide) (by decide)
    have h5 := Writer.byteAt_physicalRecord_header table0 hw t payload (i := 5) (by decide) (by decide)
    simp only [lengthOf, hc, Bool.false_eq_true, not_false_eq_true, if_true]
    rw [hb, ← byteAt, ← byteAt, byteAt_append_of_lt _ (by omega), byteAt_append_of_lt _ (by omega), h4, h5,
      Writer.byteAt_formatHeader_length_low hw, Writer.byteAt_formatHeader_length_high hw, length_bytes hp]
  have hfits : ¬ (r.headerSize + payload.length) % 2 ^ 32 > r.buffer.length := by
    rw [hH, hb, List.length_append, hR, Nat.mod_eq_of_lt (by omega)]
    omega
  have hcrc : unmask (decodeFixed32 r.buffer) =
      value table0 ((r.buffer.drop r.typeOffset).take (1 + payload.length)) := by
    rw [hb, Writer.decodeFixed32_physicalRecord table0 hw, hT, List.drop_append_of_le_length (by omega),
      Writer.drop_physicalRecord_typeOffset table0 hw, List.cons_append, Nat.add_comm, List.take_succ_cons,
      List.take_left]
  have hdrop : r.buffer.drop ((r.headerSize + payload.length) % 2 ^ 32) = rest := by
    rw [hH, Nat.mod_eq_of_lt (by omega), hb, ← hR, List.drop_left]
  have hfrag : (r.buffer.drop r.headerSize).take payload.length = payload := by
    rw [hH, hb, List.drop_append_of_le_length (by omega)]
    rw [show 7 = kHeaderSize from rfl, Writer.drop_physicalRecord_headerSize table0 hw,
      List.take_append_of_le_length (le_refl _), List.take_length]
  have heof : ¬ (t.toNat = RecordType.kEofType.toNat ∧ payload.length = 0) :=
    fun h => ht (RecordType.toNat_inj h.1)
  have hzero : ¬ (t.toNat = RecordType.kZeroType.toNat ∧ payload.length = 0) :=
    fun h => hz (RecordType.toNat_inj h.1)
  unfold parse
  simp only [htype, hlen, hfits, hcrc, ne_eq, not_true_eq_false, and_false, heof, hzero, if_false, hdrop, hi,
    Nat.not_lt_zero]
  -- the header size of the reader after the step is its own
  exact Prod.ext rfl (Prod.ext rfl hfrag)

/-- The `kEofType` record `EndLog` writes reads as `kEof`. -/
theorem parse_eof {r : Reader} (hc : r.compressed = false) {w : Writer} (hw : w.compressType = .kNoCompress)
    {rest : List UInt8} (hb : r.buffer = w.physicalRecord table0 .kEofType [] ++ rest) :
    parse table0 r = ({ r with buffer := [] }, kEof, []) := by
  have hR : (w.physicalRecord table0 .kEofType []).length = 7 :=
    Writer.length_physicalRecord table0 hw .kEofType []
  have hH : r.headerSize = 7 := by simp [headerSize, hc, kHeaderSize]
  have hT : r.typeOffset = 6 := by simp [typeOffset, hc]
  have htype : typeCode (r.buffer.getD r.typeOffset 0) = RecordType.kEofType.toNat := by
    have := Writer.byteAt_physicalRecord_header table0 hw .kEofType [] (i := 6) (by decide) (by decide)
    rw [hT, hb, ← byteAt, byteAt_append_of_lt _ (by omega), this,
      Writer.byteAt_formatHeader_type hw, typeCode_toNat]
  have hlen : r.lengthOf r.buffer = 0 := by
    have h4 := Writer.byteAt_physicalRecord_header table0 hw .kEofType [] (i := 4) (by decide) (by decide)
    have h5 := Writer.byteAt_physicalRecord_header table0 hw .kEofType [] (i := 5) (by decide) (by decide)
    simp only [lengthOf, hc, Bool.false_eq_true, not_false_eq_true, if_true]
    rw [hb, ← byteAt, ← byteAt, byteAt_append_of_lt _ (by omega),
      byteAt_append_of_lt _ (by omega), h4, h5, Writer.byteAt_formatHeader_length_low hw,
      Writer.byteAt_formatHeader_length_high hw, List.length_nil, length_bytes (by decide)]
  have hfits : ¬ (r.headerSize + 0) % 2 ^ 32 > r.buffer.length := by
    rw [hH, hb, List.length_append, hR]
    omega
  have hcrc : unmask (decodeFixed32 r.buffer) = value table0 ((r.buffer.drop r.typeOffset).take (1 + 0)) := by
    rw [hb, Writer.decodeFixed32_physicalRecord table0 hw, hT, List.drop_append_of_le_length (by omega),
      Writer.drop_physicalRecord_typeOffset table0 hw]
    rfl
  unfold parse
  simp only [htype, hlen, hfits, hcrc, ne_eq, not_true_eq_false, and_false, if_false, and_self, if_true]

/-! ## The reader at a position of the file -/

section Position

variable (table0 : UInt8 → UInt32) (uncompress : CompressType → List UInt8 → Option (List UInt8))

/-- A physical record whose buffer is short is read after a refill,
whatever the buffer held. -/
theorem readPhysicalRecord_of_short {r : Reader} (h : r.buffer.length < r.headerSize) :
    readPhysicalRecord table0 uncompress r = readPhysicalRecord table0 uncompress { r with buffer := [] } := by
  have h0 : ({ r with buffer := [] } : Reader).buffer.length < ({ r with buffer := [] } : Reader).headerSize := by
    show 0 < r.headerSize
    unfold headerSize
    split <;> decide
  conv_rhs => unfold readPhysicalRecord
  unfold readPhysicalRecord
  rw [if_pos h, if_pos h0]

/-- An uncompressed refill reads a block from the file's position. -/
theorem readBlock_of_plain {r : Reader} (hc : r.compressed = false) :
    readBlock uncompress r =
      ({ r with pos := r.pos + ((r.file.drop r.pos).take kBlockSize).length,
                store := (r.file.drop r.pos).take kBlockSize ++
                  r.store.drop ((r.file.drop r.pos).take kBlockSize).length },
        .ok ((r.file.drop r.pos).take kBlockSize)) := by
  simp [readBlock, hc, read, blockSize]

theorem with_resyncing_of_false {r : Reader} (h : r.resyncing = false) : { r with resyncing := false } = r := by
  cases r
  cases h
  rfl

end Position

end Reader

/-- The reader `r` of the uncompressed log `F` has consumed its first `q`
bytes: its buffer holds what it read of `q`'s block past `q`, the rest of
that block or of the file, or nothing at the start of a block not read yet. -/
structure At (F : List UInt8) (q : Nat) (r : Reader) : Prop where
  file : r.file = F
  plain : r.compressed = false
  initialOffset : r.initialOffset = 0
  resyncing : r.resyncing = false
  endOfBufferOffset : r.endOfBufferOffset = r.pos
  buffer : r.buffer = (F.drop q).take (r.pos - q)
  le_pos : q ≤ r.pos
  pos_le : r.pos ≤ F.length
  block : (r.pos = q ∧ q % kBlockSize = 0) ∨ r.pos = min (q - q % kBlockSize + kBlockSize) F.length

/-- `At` with the rest of `q`'s block read. -/
structure Loaded (F : List UInt8) (q : Nat) (r : Reader) : Prop extends At F q r where
  pos_eq : r.pos = min (q - q % kBlockSize + kBlockSize) F.length

namespace At

variable (table0 : UInt8 → UInt32) (uncompress : CompressType → List UInt8 → Option (List UInt8))
  {F : List UInt8} {q : Nat} {r : Reader}

theorem new (checksum : Bool) : At F 0 (Reader.new F checksum 0 false) where
  file := rfl
  plain := rfl
  initialOffset := rfl
  resyncing := rfl
  endOfBufferOffset := rfl
  buffer := by simp [Reader.new]
  le_pos := Nat.le_refl 0
  pos_le := Nat.zero_le _
  block := Or.inl ⟨rfl, rfl⟩

theorem length_buffer (h : At F q r) : r.buffer.length = r.pos - q := by
  rw [h.buffer, List.length_take, List.length_drop]
  have := h.pos_le
  omega

/-- `LastRecordEndOffset()` is where the reader stands. -/
theorem consumed (h : At F q r) : r.endOfBufferOffset - r.buffer.length = q := by
  rw [h.length_buffer, h.endOfBufferOffset]
  have := h.le_pos
  omega

theorem headerSize (h : At F q r) : r.headerSize = kHeaderSize := by
  simp [Reader.headerSize, h.plain]

/-- The offsets set for a record returned leave the reader where it is. -/
theorem recordRead (h : At F q r) (recordOffset offset : Nat) : At F q (r.recordRead recordOffset offset) where
  file := h.file
  plain := h.plain
  initialOffset := h.initialOffset
  resyncing := h.resyncing
  endOfBufferOffset := h.endOfBufferOffset
  buffer := h.buffer
  le_pos := h.le_pos
  pos_le := h.pos_le
  block := h.block

/-- With a header's room left in `q`'s block and a header in the file past
`q`, `ReadPhysicalRecord` parses the rest of the block, read now if it was
not yet. -/
theorem readPhysicalRecord_eq (h : At F q r) (hroom : q % kBlockSize + kHeaderSize ≤ kBlockSize)
    (hF : q + kHeaderSize ≤ F.length) :
    ∃ r1 off, Loaded F q r1 ∧
      Reader.readPhysicalRecord table0 uncompress r =
        ((Reader.parse table0 r1).1, (Reader.parse table0 r1).2.1, (Reader.parse table0 r1).2.2, off) := by
  have hH := h.headerSize
  have hlen := h.length_buffer
  have hroom' : q % 4096 + 7 ≤ 4096 := hroom
  have hF' : q + 7 ≤ F.length := hF
  rcases h.block with ⟨hpos, hmod⟩ | hpos
  · -- at the start of a block not read yet: the refill reads it
    have hshort : r.buffer.length < r.headerSize := by
      rw [hlen, hH, hpos, Nat.sub_self]
      decide
    let block := (F.drop q).take kBlockSize
    have hblock : block.length = min kBlockSize (F.length - q) := by simp [block]
    let r1 : Reader := { r with pos := r.pos + block.length, store := block ++ r.store.drop block.length,
                                buffer := block, endOfBufferOffset := r.endOfBufferOffset + block.length }
    have hloaded : Loaded F q r1 := by
      refine ⟨⟨h.file, h.plain, h.initialOffset, h.resyncing, ?_, ?_, ?_, ?_, ?_⟩, ?_⟩
      · simp [r1, h.endOfBufferOffset]
      · simp only [r1, block, hpos, Nat.add_sub_cancel_left, List.length_take, List.length_drop]
        rw [List.take_eq_take_min, List.length_drop, Nat.min_comm]
      · simp only [r1, hpos]
        omega
      · simp only [r1, hpos, hblock]
        omega
      · right
        simp only [r1, hpos, hblock, hmod]
        unfold kBlockSize
        omega
      · simp only [r1, hpos, hblock, hmod]
        unfold kBlockSize
        omega
    refine ⟨r1, r.endOfBufferOffset, hloaded, ?_⟩
    have hread : Reader.readBlock uncompress { r with buffer := [] } =
        ({ r with buffer := [], pos := r.pos + block.length, store := block ++ r.store.drop block.length },
          .ok block) := by
      rw [Reader.readBlock_of_plain uncompress (r := { r with buffer := [] }) h.plain]
      simp [block, h.file, hpos]
    have hnot : ¬ block.length < r1.headerSize := by
      rw [hloaded.headerSize, hblock]
      unfold kBlockSize kHeaderSize
      omega
    unfold Reader.readPhysicalRecord
    rw [if_pos hshort, hread]
    exact if_neg hnot
  · -- the block is read: the buffer holds a header
    have hlong : ¬ r.buffer.length < r.headerSize := by
      rw [hlen, hH, hpos]
      unfold kBlockSize kHeaderSize
      omega
    refine ⟨r, 0, ⟨h, hpos⟩, ?_⟩
    unfold Reader.readPhysicalRecord
    rw [if_neg hlong]

end At

/-! ## The reader steps over what a round of the writer wrote -/

namespace Loaded

variable (table0 : UInt8 → UInt32) {F : List UInt8} {q : Nat} {r : Reader}

/-- The buffer of a loaded reader holds the bytes of the file past `q`
as far as the block goes. -/
theorem buffer_eq (h : Loaded F q r) {R rest : List UInt8} (hF : F.drop q = R ++ rest)
    (hR : q % kBlockSize + R.length ≤ kBlockSize) :
    r.buffer = R ++ rest.take (r.pos - q - R.length) := by
  have hFlen := congrArg List.length hF
  simp only [List.length_drop, List.length_append] at hFlen
  have hpos := h.pos_eq
  unfold kBlockSize at hpos hR
  rw [h.buffer, hF, List.take_append, List.take_of_length_le (by omega)]

/-- The physical record at `q`, fitting `q`'s block, is parsed and stepped
over. -/
theorem parse_record (h : Loaded F q r) {w : Writer} (hw : w.compressType = .kNoCompress)
    {t : RecordType} {payload rest : List UInt8} (hF : F.drop q = w.physicalRecord table0 t payload ++ rest)
    (hfit : q % kBlockSize + kHeaderSize + payload.length ≤ kBlockSize) (ht : t ≠ .kEofType)
    (hz : t ≠ .kZeroType) :
    ∃ r', Reader.parse table0 r = (r', t.toNat, payload) ∧ At F (q + kHeaderSize + payload.length) r' := by
  have hR : (w.physicalRecord table0 t payload).length = kHeaderSize + payload.length :=
    Writer.length_physicalRecord table0 hw t payload
  have hFlen := congrArg List.length hF
  simp only [List.length_drop, List.length_append, hR] at hFlen
  have hpos := h.pos_eq
  have hb := h.buffer_eq hF (by omega)
  refine ⟨_, Reader.parse_physicalRecord table0 h.plain h.initialOffset hw hb
    (by unfold kBlockSize at hfit; omega) ht hz, ?_⟩
  refine ⟨h.file, h.plain, h.initialOffset, h.resyncing, h.endOfBufferOffset, ?_, ?_, h.pos_le, ?_⟩
  · -- the buffer keeps what follows the record
    show rest.take (r.pos - q - _) = (F.drop _).take (r.pos - _)
    rw [Nat.add_assoc, ← List.drop_drop, hF, List.drop_left' hR, hR, Nat.sub_sub]
  · show _ ≤ r.pos
    unfold kBlockSize kHeaderSize at *
    omega
  · -- at the end of the block the reader is at the start of the next one
    show (r.pos = _ ∧ _) ∨ r.pos = _
    unfold kBlockSize kHeaderSize at *
    by_cases hm : (q + (4 + 2 + 1) + payload.length) % (4 * 1024) = 0
    · left
      omega
    · right
      omega

/-- The `kEofType` record at `q` is read as `kEof`. -/
theorem parse_eof (h : Loaded F q r) {w : Writer} (hw : w.compressType = .kNoCompress) {rest : List UInt8}
    (hF : F.drop q = w.physicalRecord table0 .kEofType [] ++ rest)
    (hfit : q % kBlockSize + kHeaderSize ≤ kBlockSize) :
    ∃ r', Reader.parse table0 r = (r', kEof, []) := by
  have hR : (w.physicalRecord table0 .kEofType []).length = kHeaderSize + 0 :=
    Writer.length_physicalRecord table0 hw .kEofType []
  exact ⟨_, Reader.parse_eof table0 h.plain hw (h.buffer_eq hF (by rw [hR]; exact hfit))⟩

end Loaded

namespace At

variable (table0 : UInt8 → UInt32) (compress : CompressType → List UInt8 → Option (List UInt8))
  (uncompress : CompressType → List UInt8 → Option (List UInt8)) {F : List UInt8} {q : Nat} {r : Reader}

/-- `ReadPhysicalRecord` reads the physical record at `q` that fits `q`'s
block. -/
theorem readPhysicalRecord_record (h : At F q r) {w : Writer} (hw : w.compressType = .kNoCompress)
    {t : RecordType} {payload rest : List UInt8} (hF : F.drop q = w.physicalRecord table0 t payload ++ rest)
    (hfit : q % kBlockSize + kHeaderSize + payload.length ≤ kBlockSize) (ht : t ≠ .kEofType)
    (hz : t ≠ .kZeroType) :
    ∃ r' off, Reader.readPhysicalRecord table0 uncompress r = (r', t.toNat, payload, off) ∧
      At F (q + kHeaderSize + payload.length) r' := by
  have hFlen := congrArg List.length hF
  simp only [List.length_drop, List.length_append, Writer.length_physicalRecord table0 hw] at hFlen
  unfold kHeaderSize at hFlen
  obtain ⟨r1, off, hl, heq⟩ := h.readPhysicalRecord_eq table0 uncompress (by omega) (by unfold kHeaderSize; omega)
  obtain ⟨r', hp, hat⟩ := hl.parse_record table0 hw hF hfit ht hz
  exact ⟨r', off, by rw [heq, hp], hat⟩

/-- `ReadPhysicalRecord` reads the `kEofType` record at `q` as `kEof`. -/
theorem readPhysicalRecord_eof (h : At F q r) {w : Writer} (hw : w.compressType = .kNoCompress)
    {rest : List UInt8} (hF : F.drop q = w.physicalRecord table0 .kEofType [] ++ rest)
    (hfit : q % kBlockSize + kHeaderSize ≤ kBlockSize) :
    ∃ r' off, Reader.readPhysicalRecord table0 uncompress r = (r', kEof, [], off) := by
  have hFlen := congrArg List.length hF
  simp only [List.length_drop, List.length_append, Writer.length_physicalRecord table0 hw] at hFlen
  unfold kHeaderSize at hFlen
  obtain ⟨r1, off, hl, heq⟩ := h.readPhysicalRecord_eq table0 uncompress hfit (by unfold kHeaderSize; omega)
  obtain ⟨r', hp⟩ := hl.parse_eof table0 hw hF hfit
  exact ⟨r', off, by rw [heq, hp]⟩

/-- At the end of the file there is nothing to read yet. -/
theorem readPhysicalRecord_end (h : At F F.length r) :
    ∃ r' off, Reader.readPhysicalRecord table0 uncompress r = (r', kWaitRecord, [], off) := by
  have hpos : r.pos = F.length := Nat.le_antisymm h.pos_le h.le_pos
  have hshort : r.buffer.length < r.headerSize := by
    rw [h.length_buffer, h.headerSize, hpos, Nat.sub_self]
    decide
  have hread : Reader.readBlock uncompress { r with buffer := [] } = ({ r with buffer := [] }, .ok []) := by
    rw [Reader.readBlock_of_plain uncompress (r := { r with buffer := [] }) h.plain]
    simp [h.file, hpos]
  unfold Reader.readPhysicalRecord
  rw [if_pos hshort, hread]
  exact ⟨_, _, if_pos (by show 0 < r.headerSize; rw [h.headerSize]; decide)⟩

/-- A trailer too short for a header is dropped when the next block is
read. -/
theorem skipTrailer (h : At F q r) (hshort : kBlockSize - q % kBlockSize < kHeaderSize)
    (hF : q - q % kBlockSize + kBlockSize ≤ F.length) :
    At F (q - q % kBlockSize + kBlockSize) { r with buffer := [] } ∧
      Reader.readPhysicalRecord table0 uncompress r =
        Reader.readPhysicalRecord table0 uncompress { r with buffer := [] } := by
  have hlen := h.length_buffer
  have hH := h.headerSize
  -- a block that ends in a trailer was read to its end
  have hpos : r.pos = q - q % kBlockSize + kBlockSize := by
    rcases h.block with ⟨_, hm⟩ | hpos <;> unfold kBlockSize kHeaderSize at * <;> omega
  refine ⟨⟨h.file, h.plain, h.initialOffset, h.resyncing, h.endOfBufferOffset, ?_, ?_, h.pos_le, ?_⟩, ?_⟩
  · show [] = (F.drop _).take (r.pos - _)
    rw [hpos, Nat.sub_self, List.take_zero]
  · show _ ≤ r.pos
    omega
  · left
    refine ⟨hpos, ?_⟩
    unfold kBlockSize
    omega
  · apply Reader.readPhysicalRecord_of_short table0 uncompress
    rw [hlen, hH, hpos]
    unfold kBlockSize kHeaderSize at *
    omega

/-- The reader follows the switch of a round of the writer: it stays, or
it drops the trailer the writer filled. -/
theorem switchBlock_readPhysicalRecord {w : Writer} (h : At F w.dest.length r) (hw : w.Plain)
    (hF : (Writer.switchBlock compress w).1.dest.length ≤ F.length) :
    ∃ r', At F (Writer.switchBlock compress w).1.dest.length r' ∧
      Reader.readPhysicalRecord table0 uncompress r = Reader.readPhysicalRecord table0 uncompress r' := by
  have hm := hw.dest_mod
  have hle := hw.blockOffset_le
  rw [Writer.switchBlock_of_plain compress hw] at hF ⊢
  by_cases hs : kBlockSize - w.blockOffset < kHeaderSize
  · simp only [hs, if_true, List.length_append, List.length_replicate] at hF ⊢
    rcases Nat.eq_zero_or_pos (kBlockSize - w.blockOffset) with h0 | h0
    · -- the block is full: the reader is at the start of the next one
      rw [h0, Nat.add_zero]
      exact ⟨r, h, rfl⟩
    · -- the trailer: the writer's offset in the block is the file's
      have hq : w.dest.length + (kBlockSize - w.blockOffset) =
          w.dest.length - w.dest.length % kBlockSize + kBlockSize := by
        unfold kBlockSize at *
        omega
      rw [hq] at hF ⊢
      obtain ⟨hat, heq⟩ := h.skipTrailer table0 uncompress (by unfold kBlockSize kHeaderSize at *; omega) hF
      exact ⟨_, hat, heq⟩
  · simp only [hs, if_false]
    exact ⟨r, h, rfl⟩

/-- After the switch of a round, the reader stands where the writer does,
reading what it would have read, and the writer's offset in its block is
the file's, with a header's room left. -/
theorem afterSwitch {w w' : Writer} (h : At F w.dest.length r) (hw : w.Plain)
    (hs : Writer.switchBlock compress w = (w', .ok)) (hF : w'.dest.length ≤ F.length) :
    ∃ r', At F w'.dest.length r' ∧
      Reader.readPhysicalRecord table0 uncompress r = Reader.readPhysicalRecord table0 uncompress r' ∧
      w'.Plain ∧ w'.dest.length % kBlockSize = w'.blockOffset ∧ w'.blockOffset + kHeaderSize ≤ kBlockSize := by
  obtain ⟨hw', hroom⟩ := Writer.plain_switchBlock compress hw
  rw [hs] at hw' hroom
  obtain ⟨r', hat', heq'⟩ := h.switchBlock_readPhysicalRecord table0 compress uncompress hw (by rw [hs]; exact hF)
  rw [hs] at hat'
  have hmod : w'.dest.length % kBlockSize = w'.blockOffset := by
    rw [hw'.dest_mod]
    exact Nat.mod_eq_of_lt (by unfold kHeaderSize at hroom; omega)
  exact ⟨r', hat', heq', hw', hmod, hroom⟩

/-- A round of the writer: the reader follows its switch and reads the
physical record it emits. -/
theorem round {w w' w'' : Writer} (h : At F w.dest.length r) (hw : w.Plain)
    (hs : Writer.switchBlock compress w = (w', .ok)) {t : RecordType} {fragment : List UInt8}
    (he : Writer.emitPhysicalRecord table0 compress w' t fragment = (w'', .ok))
    (hfit : w'.blockOffset + kHeaderSize + fragment.length ≤ kBlockSize) (hF : w''.dest <+: F)
    (ht : t ≠ .kEofType) (hz : t ≠ .kZeroType) :
    ∃ r'' off, Reader.readPhysicalRecord table0 uncompress r = (r'', t.toNat, fragment, off) ∧
      At F w''.dest.length r'' := by
  have hc' : w'.compressType = .kNoCompress := by
    rw [(Writer.switchBlock_ok compress hs).1]
    exact hw.noCompress
  have hd : w''.dest = w'.dest ++ w'.physicalRecord table0 t fragment := by
    rw [Writer.emitPhysicalRecord_of_noCompress table0 compress hc'] at he
    rw [← (Prod.mk.inj he).1]
  rw [hd] at hF ⊢
  have hlen := hF.length_le
  simp only [List.length_append] at hlen
  obtain ⟨r', hat', heq', -, hmod, -⟩ := h.afterSwitch table0 compress uncompress hw hs (by omega)
  obtain ⟨r'', off, hrp, hat''⟩ := hat'.readPhysicalRecord_record table0 uncompress hc'
    (drop_length_of_prefix_append hF)
    (by rw [hmod]; exact hfit) ht hz
  refine ⟨r'', off, heq'.trans hrp, ?_⟩
  rwa [List.length_append, Writer.length_physicalRecord table0 hc', ← Nat.add_assoc]

/-- `EndLog`'s round: the reader reads its record as `kEof`. -/
theorem round_endLog {w : Writer} (h : At F w.dest.length r) (hw : w.Plain)
    (hF : (Writer.endLog table0 compress w).1.dest <+: F) :
    ∃ r'' off, Reader.readPhysicalRecord table0 uncompress r = (r'', kEof, [], off) := by
  obtain ⟨w', hs⟩ : ∃ w', Writer.switchBlock compress w = (w', .ok) :=
    ⟨_, Writer.switchBlock_of_plain compress hw⟩
  have hc' : w'.compressType = .kNoCompress := by
    rw [(Writer.switchBlock_ok compress hs).1]
    exact hw.noCompress
  have hd : (Writer.endLog table0 compress w).1.dest = w'.dest ++ w'.physicalRecord table0 .kEofType [] := by
    unfold Writer.endLog
    rw [hs]
    dsimp only
    rw [Writer.emitPhysicalRecord_of_noCompress table0 compress hc']
  rw [hd] at hF
  have hlen := hF.length_le
  simp only [List.length_append] at hlen
  obtain ⟨r', hat', heq', -, hmod, hroom⟩ := h.afterSwitch table0 compress uncompress hw hs (by omega)
  obtain ⟨r'', off, hrp⟩ := hat'.readPhysicalRecord_eof table0 uncompress hc'
    (drop_length_of_prefix_append hF)
    (by rw [hmod]; exact hroom)
  exact ⟨r'', off, heq'.trans hrp⟩

end At

/-! ## One round of `ReadRecord`'s loop -/

namespace Reader

section Loop

variable (table0 : UInt8 → UInt32) (uncompress : CompressType → List UInt8 → Option (List UInt8))
  {r r' : Reader} {fragment : List UInt8} {offset : Nat} (fuel : Nat) (inFragmentedRecord : Bool)
  (scratch : List UInt8) (prospectiveRecordOffset : Nat)

/-- One round of the loop, as `readRecordLoop` unfolds at `fuel + 1`. -/
theorem readRecordLoop_succ :
    readRecordLoop table0 uncompress (fuel + 1) r inFragmentedRecord scratch prospectiveRecordOffset =
      let (r, recordType, fragment, offset) := readPhysicalRecord table0 uncompress r
      let physicalRecordOffset := r.endOfBufferOffset - r.buffer.length - r.headerSize - fragment.length
      if r.resyncing ∧ recordType = RecordType.kMiddleType.toNat then
        readRecordLoop table0 uncompress fuel r inFragmentedRecord scratch prospectiveRecordOffset
      else if r.resyncing ∧ recordType = RecordType.kLastType.toNat then
        readRecordLoop table0 uncompress fuel { r with resyncing := false } inFragmentedRecord scratch
          prospectiveRecordOffset
      else
        let r := { r with resyncing := false }
        if recordType = RecordType.kFullType.toNat then
          some (r.recordRead physicalRecordOffset offset, .ok, fragment)
        else if recordType = kWaitRecord then some (r.goBackToLastBlock, .waitRecord, [])
        else if recordType = RecordType.kFirstType.toNat then
          readRecordLoop table0 uncompress fuel r true fragment physicalRecordOffset
        else if recordType = RecordType.kMiddleType.toNat then
          if ¬ inFragmentedRecord then
            readRecordLoop table0 uncompress fuel r inFragmentedRecord scratch prospectiveRecordOffset
          else readRecordLoop table0 uncompress fuel r inFragmentedRecord (scratch ++ fragment)
            prospectiveRecordOffset
        else if recordType = RecordType.kLastType.toNat then
          if ¬ inFragmentedRecord then
            readRecordLoop table0 uncompress fuel r inFragmentedRecord scratch prospectiveRecordOffset
          else some (r.recordRead prospectiveRecordOffset offset, .ok, scratch ++ fragment)
        else if recordType = kEof then some (r, .eof, [])
        else some (r, .invalidRecord, []) := rfl

theorem readRecordLoop_full
    (hrp : readPhysicalRecord table0 uncompress r = (r', RecordType.kFullType.toNat, fragment, offset))
    (hres : r'.resyncing = false) :
    readRecordLoop table0 uncompress (fuel + 1) r inFragmentedRecord scratch prospectiveRecordOffset =
      some (r'.recordRead (r'.endOfBufferOffset - r'.buffer.length - r'.headerSize - fragment.length) offset,
        .ok, fragment) := by
  rw [readRecordLoop_succ]
  simp [hrp, hres, with_resyncing_of_false hres, RecordType.toNat]

theorem readRecordLoop_first
    (hrp : readPhysicalRecord table0 uncompress r = (r', RecordType.kFirstType.toNat, fragment, offset))
    (hres : r'.resyncing = false) :
    readRecordLoop table0 uncompress (fuel + 1) r inFragmentedRecord scratch prospectiveRecordOffset =
      readRecordLoop table0 uncompress fuel r' true fragment
        (r'.endOfBufferOffset - r'.buffer.length - r'.headerSize - fragment.length) := by
  rw [readRecordLoop_succ]
  simp [hrp, hres, with_resyncing_of_false hres, RecordType.toNat, kWaitRecord, kMaxRecordType]

theorem readRecordLoop_middle
    (hrp : readPhysicalRecord table0 uncompress r = (r', RecordType.kMiddleType.toNat, fragment, offset))
    (hres : r'.resyncing = false) :
    readRecordLoop table0 uncompress (fuel + 1) r true scratch prospectiveRecordOffset =
      readRecordLoop table0 uncompress fuel r' true (scratch ++ fragment) prospectiveRecordOffset := by
  rw [readRecordLoop_succ]
  simp [hrp, hres, with_resyncing_of_false hres, RecordType.toNat, kWaitRecord, kMaxRecordType]

theorem readRecordLoop_last
    (hrp : readPhysicalRecord table0 uncompress r = (r', RecordType.kLastType.toNat, fragment, offset))
    (hres : r'.resyncing = false) :
    readRecordLoop table0 uncompress (fuel + 1) r true scratch prospectiveRecordOffset =
      some (r'.recordRead prospectiveRecordOffset offset, .ok, scratch ++ fragment) := by
  rw [readRecordLoop_succ]
  simp [hrp, hres, with_resyncing_of_false hres, RecordType.toNat, kWaitRecord, kMaxRecordType]

theorem readRecordLoop_eof (hrp : readPhysicalRecord table0 uncompress r = (r', kEof, fragment, offset)) :
    readRecordLoop table0 uncompress (fuel + 1) r inFragmentedRecord scratch prospectiveRecordOffset =
      some ({ r' with resyncing := false }, .eof, []) := by
  rw [readRecordLoop_succ]
  simp [hrp, RecordType.toNat, kWaitRecord, kEof, kMaxRecordType]

theorem readRecordLoop_wait (hrp : readPhysicalRecord table0 uncompress r = (r', kWaitRecord, fragment, offset)) :
    readRecordLoop table0 uncompress (fuel + 1) r inFragmentedRecord scratch prospectiveRecordOffset =
      some ({ r' with resyncing := false }.goBackToLastBlock, .waitRecord, []) := by
  rw [readRecordLoop_succ]
  simp [hrp, RecordType.toNat, kWaitRecord, kMaxRecordType]

end Loop

end Reader

/-! ## A record, fragment by fragment -/

section Record

variable (table0 : UInt8 → UInt32) (compress : CompressType → List UInt8 → Option (List UInt8))
  (uncompress : CompressType → List UInt8 → Option (List UInt8))

/-- `ReadRecord`'s loop reads back the fragments one `AddRecord` wrote, from
where the writer stood to where it stands after: the record, or when the
record began earlier, what `scratch` holds of it and the rest. -/
theorem readRecordLoop_addRecordLoop {F : List UInt8} {w : Writer} {rest : List UInt8} {begin : Bool}
    (hw : w.Plain) (hF : (Writer.addRecordLoop table0 compress w rest begin).1.dest <+: F)
    {r : Reader} (hr : At F w.dest.length r) {inFragmentedRecord : Bool} {scratch : List UInt8}
    {prospectiveRecordOffset : Nat} (hin : begin = false → inFragmentedRecord = true) {fuel : Nat}
    (hfuel : (Writer.addRecordLoop table0 compress w rest begin).1.dest.length - w.dest.length < fuel) :
    ∃ r', Reader.readRecordLoop table0 uncompress fuel r inFragmentedRecord scratch prospectiveRecordOffset =
        some (r', .ok, (if begin then [] else scratch) ++ rest) ∧
      At F (Writer.addRecordLoop table0 compress w rest begin).1.dest.length r' ∧
      r'.lastRecordEndOffset = (Writer.addRecordLoop table0 compress w rest begin).1.dest.length := by
  fun_induction Writer.addRecordLoop table0 compress w rest begin
    generalizing r inFragmentedRecord scratch prospectiveRecordOffset fuel with
  | case1 =>
    rename_i w rest begin w' hs avail last type w'' he hlast
    -- the last fragment: `kFullType`, or `kLastType` after others
    dsimp only at hF hfuel ⊢
    obtain ⟨hw', hroom⟩ := Writer.plain_switchBlock compress hw
    rw [hs] at hw' hroom
    have htz : type ≠ .kEofType ∧ type ≠ .kZeroType := by
      simp only [type]
      split_ifs <;> decide
    obtain ⟨r'', off, hrp, hat⟩ := hr.round table0 compress uncompress hw hs he
      (Writer.fragment_fits hw' hroom rest) hF htz.1 htz.2
    have hall : rest.take avail = rest := List.take_of_length_le (by simpa [last] using hlast)
    rw [hall] at hrp
    cases fuel with
    | zero => exact absurd hfuel (Nat.not_lt_zero _)
    | succ fuel =>
      cases begin with
      | true =>
        have htype : type = .kFullType := by simp [type, hlast]
        rw [htype] at hrp
        rw [Reader.readRecordLoop_full table0 uncompress fuel inFragmentedRecord scratch prospectiveRecordOffset
          hrp hat.resyncing]
        exact ⟨_, rfl, hat.recordRead _ _, hat.consumed⟩
      | false =>
        have htype : type = .kLastType := by simp [type, hlast]
        rw [htype] at hrp
        rw [hin rfl, Reader.readRecordLoop_last table0 uncompress fuel scratch prospectiveRecordOffset hrp
          hat.resyncing]
        exact ⟨_, rfl, hat.recordRead _ _, hat.consumed⟩
  | case2 =>
    rename_i w rest begin w' hs avail last type w'' he hlast ih
    -- a fragment before the last: `kFirstType` or `kMiddleType`, then the rest of the record
    obtain ⟨hw', hroom⟩ := Writer.plain_switchBlock compress hw
    rw [hs] at hw' hroom
    have htz : type ≠ .kEofType ∧ type ≠ .kZeroType := by
      simp only [type]
      split_ifs <;> decide
    have hF'' := (Writer.dest_prefix_addRecordLoop table0 compress w'' (rest.drop avail) false).trans hF
    obtain ⟨r'', off, hrp, hat⟩ := hr.round table0 compress uncompress hw hs he
      (Writer.fragment_fits hw' hroom rest) hF'' htz.1 htz.2
    have hw'' : w''.Plain := by
      have := Writer.plain_emitPhysicalRecord table0 compress hw' type (Writer.fragment_fits hw' hroom rest)
      rwa [he] at this
    -- the round wrote a header at least
    have hgrow : w.dest.length + kHeaderSize ≤ w''.dest.length := by
      have h1 := (Writer.dest_prefix_switchBlock compress w).length_le
      rw [hs, Writer.emitPhysicalRecord_of_noCompress table0 compress hw'.noCompress] at *
      rw [← (Prod.mk.inj he).1]
      simp only [List.length_append, Writer.length_physicalRecord table0 hw'.noCompress] at h1 ⊢
      omega
    have hend := (Writer.dest_prefix_addRecordLoop table0 compress w'' (rest.drop avail) false).length_le
    cases fuel with
    | zero => exact absurd hfuel (Nat.not_lt_zero _)
    | succ fuel =>
      have hfuel' : (Writer.addRecordLoop table0 compress w'' (rest.drop avail) false).1.dest.length -
          w''.dest.length < fuel := by
        unfold kHeaderSize at hgrow
        omega
      cases begin with
      | true =>
        have htype : type = .kFirstType := by simp [type, hlast]
        rw [htype] at hrp
        rw [Reader.readRecordLoop_first table0 uncompress fuel inFragmentedRecord scratch prospectiveRecordOffset
          hrp hat.resyncing]
        obtain ⟨r', hread, hat', hend'⟩ := ih hw'' hF hat (fun _ => rfl) hfuel'
        refine ⟨r', ?_, hat', hend'⟩
        rw [hread, if_neg Bool.false_ne_true, List.take_append_drop, if_pos rfl, List.nil_append]
      | false =>
        have htype : type = .kMiddleType := by simp [type, hlast]
        rw [htype] at hrp
        rw [hin rfl, Reader.readRecordLoop_middle table0 uncompress fuel scratch prospectiveRecordOffset hrp
          hat.resyncing]
        obtain ⟨r', hread, hat', hend'⟩ := ih hw'' hF hat (fun _ => rfl) hfuel'
        refine ⟨r', ?_, hat', hend'⟩
        rw [hread, if_neg Bool.false_ne_true, List.append_assoc, List.take_append_drop]
        rfl
  | case3 =>
    rename_i w rest begin w' hs avail last type hne
    -- uncompressed, a physical record is always written
    have hw' := (Writer.plain_switchBlock compress hw).1
    rw [hs] at hw'
    exact absurd (Writer.emitPhysicalRecord_of_noCompress table0 compress hw'.noCompress _ _) (hne _)
  | case4 =>
    rename_i w rest begin hne
    exact absurd (Writer.switchBlock_of_plain compress hw) (hne _)

end Record

/-! ## Whole logs -/

namespace Reader

/-- The calls of `ReadRecord`, `n` at most, until one returns a status other
than OK: each record with `LastRecordEndOffset()` after it, and the status
that ended the calls; `none` where a call ran out of fuel. -/
def readRecords (table0 : UInt8 → UInt32) (uncompress : CompressType → List UInt8 → Option (List UInt8))
    (fuel : Nat) : Nat → Reader → Option (List (List UInt8 × Nat) × Status)
  | 0, _ => some ([], .ok)
  | n + 1, r =>
    match readRecord table0 uncompress fuel r with
    | some (r, .ok, record) =>
      (readRecords table0 uncompress fuel n r).map fun (records, s) => ((record, r.lastRecordEndOffset) :: records, s)
    | some (_, s, _) => some ([], s)
    | none => none

end Reader

section Log

variable (table0 : UInt8 → UInt32) (compress : CompressType → List UInt8 → Option (List UInt8))
  (uncompress : CompressType → List UInt8 → Option (List UInt8))

/-- A reader at a position starts `ReadRecord` there: it has no initial
offset to skip to. -/
theorem readRecord_of_at {F : List UInt8} {q : Nat} {r : Reader} (h : At F q r) (fuel : Nat) :
    Reader.readRecord table0 uncompress fuel r = Reader.readRecordLoop table0 uncompress fuel r false [] 0 := by
  unfold Reader.readRecord
  rw [h.initialOffset, if_neg (Nat.not_lt_zero _)]

theorem dest_prefix_foldl (records : List (List UInt8)) (w : Writer) :
    w.dest <+: (records.foldl (fun w record => (w.addRecord table0 compress record).1) w).dest := by
  induction records generalizing w with
  | nil => exact List.prefix_refl _
  | cons record records ih =>
    exact (Writer.dest_prefix_addRecordLoop table0 compress w record true).trans (ih _)

theorem plain_foldl (records : List (List UInt8)) {w : Writer} (hw : w.Plain) :
    (records.foldl (fun w record => (w.addRecord table0 compress record).1) w).Plain := by
  induction records generalizing w with
  | nil => exact hw
  | cons record records ih => exact ih (Writer.addRecordLoop_plain table0 compress hw record true).1

/-- The records written from `w` on are read back in order, each with the
length of the file after it, and the call after the last returns the
status `s` the end of the log gives. -/
theorem readRecords_foldl {F : List UInt8} {fuel : Nat} (hfuel : F.length < fuel) {s : Status} (hs : s ≠ .ok)
    (records : List (List UInt8)) {w : Writer} (hw : w.Plain) {r : Reader} (hr : At F w.dest.length r)
    (hF : (records.foldl (fun w record => (w.addRecord table0 compress record).1) w).dest <+: F)
    (hend : ∀ r', At F (records.foldl (fun w record => (w.addRecord table0 compress record).1) w).dest.length r' →
      ∃ r'', Reader.readRecord table0 uncompress fuel r' = some (r'', s, [])) :
    Reader.readRecords table0 uncompress fuel (records.length + 1) r =
      some (records.zip ((records.scanl (fun w record => (w.addRecord table0 compress record).1) w).tail.map
        (·.dest.length)), s) := by
  induction records generalizing w r with
  | nil =>
    -- the end of the log
    obtain ⟨r'', hread⟩ := hend r hr
    cases s with
    | ok => exact absurd rfl hs
    | _ => simp [Reader.readRecords, hread]
  | cons record records ih =>
    -- the next record, then the rest from where it ends
    let w1 := (Writer.addRecordLoop table0 compress w record true).1
    have hw1 : w1.Plain := (Writer.addRecordLoop_plain table0 compress hw record true).1
    have hF1 : w1.dest <+: F := (dest_prefix_foldl table0 compress records w1).trans hF
    obtain ⟨r', hloop, hat, hlast⟩ : ∃ r', Reader.readRecordLoop table0 uncompress fuel r false [] 0 =
          some (r', .ok, (if true = true then [] else []) ++ record) ∧ At F w1.dest.length r' ∧
        r'.lastRecordEndOffset = w1.dest.length :=
      readRecordLoop_addRecordLoop table0 compress uncompress hw hF1 hr (fun h => nomatch h)
        (by have : (Writer.addRecordLoop table0 compress w record true).1.dest.length ≤ F.length :=
              hF1.length_le
            omega)
    have hread : Reader.readRecord table0 uncompress fuel r = some (r', .ok, record) := by
      rw [readRecord_of_at table0 uncompress hr, hloop, if_pos rfl, List.nil_append]
    -- a scan begins with where it starts
    have hscan : ∀ (l : List (List UInt8)) (b : Writer),
        l.scanl (fun w record => (w.addRecord table0 compress record).1) b =
          b :: (l.scanl (fun w record => (w.addRecord table0 compress record).1) b).tail := by
      intro l b
      cases l with
      | nil => rfl
      | cons x xs => rw [List.scanl_cons, List.tail_cons]
    rw [List.length_cons, Reader.readRecords, hread]
    dsimp only
    rw [ih hw1 hat hF hend]
    conv_rhs => rw [List.scanl_cons, List.tail_cons, hscan records, List.map_cons, List.zip_cons_cons]
    rw [Option.map_some, hlast]
    rfl

/-- Records written to an uncompressed log, then `EndLog`, read back from
the start of the file, checksum checked or not: each record in order, with
`LastRecordEndOffset()` the length of the file after its `AddRecord`, and
then `Eof`. -/
theorem log_round_trip_endLog {compressType : String} (hc : getCompressType compressType = .kNoCompress)
    (checksum : Bool) (records : List (List UInt8)) :
    let add := fun (w : Writer) (record : List UInt8) => (w.addRecord table0 compress record).1
    let F := (Writer.endLog table0 compress (records.foldl add (Writer.new compressType))).1.dest
    Reader.readRecords table0 uncompress (F.length + 1) (records.length + 1) (Reader.new F checksum 0 false) =
      some (records.zip ((records.scanl add (Writer.new compressType)).tail.map (·.dest.length)), .eof) := by
  intro add F
  have hw := Writer.new_plain hc
  have hlast := plain_foldl table0 compress records hw
  apply readRecords_foldl table0 compress uncompress (Nat.lt_succ_self _) (by decide) records hw (At.new checksum)
    (Writer.dest_prefix_endLog table0 compress _)
  -- the call after the last record reads the `kEofType` record
  intro r' hat
  obtain ⟨r'', off, hrp⟩ := hat.round_endLog table0 compress uncompress hlast (List.prefix_refl _)
  exact ⟨_, by
    rw [readRecord_of_at table0 uncompress hat, Reader.readRecordLoop_eof table0 uncompress _ _ _ _ hrp]⟩

theorem log_round_trip_endLog_off :
    getCompressType "off" = .kNoCompress ∧
      let add := fun (w : Writer) (record : List UInt8) => (w.addRecord (fun _ => 0) (fun _ _ => none) record).1
      let records : List (List UInt8) := [List.replicate 5000 7, [], [1, 2, 3]]
      let F := (Writer.endLog (fun _ => 0) (fun _ _ => none) (records.foldl add (Writer.new "off"))).1.dest
      Reader.readRecords (fun _ => 0) (fun _ _ => none) (F.length + 1) (records.length + 1)
          (Reader.new F true 0 false) =
        some (records.zip ((records.scanl add (Writer.new "off")).tail.map (·.dest.length)), .eof) :=
  ⟨by decide, log_round_trip_endLog (fun _ => 0) (fun _ _ => none) (fun _ _ => none) (by decide) true _⟩

/-- Records written to an uncompressed log without `EndLog`, read back from
the start of the file, checksum checked or not: each record in order, with
`LastRecordEndOffset()` the length of the file after its `AddRecord`, and
then `WaitRecord`. -/
theorem log_round_trip_waitRecord {compressType : String} (hc : getCompressType compressType = .kNoCompress)
    (checksum : Bool) (records : List (List UInt8)) :
    let add := fun (w : Writer) (record : List UInt8) => (w.addRecord table0 compress record).1
    let F := (records.foldl add (Writer.new compressType)).dest
    Reader.readRecords table0 uncompress (F.length + 1) (records.length + 1) (Reader.new F checksum 0 false) =
      some (records.zip ((records.scanl add (Writer.new compressType)).tail.map (·.dest.length)), .waitRecord) := by
  intro add F
  have hw := Writer.new_plain hc
  apply readRecords_foldl table0 compress uncompress (Nat.lt_succ_self _) (by decide) records hw (At.new checksum)
    (List.prefix_refl _)
  -- the call after the last record finds nothing more in the file
  intro r' hat
  obtain ⟨r'', off, hrp⟩ := hat.readPhysicalRecord_end table0 uncompress
  exact ⟨_, by
    rw [readRecord_of_at table0 uncompress hat, Reader.readRecordLoop_wait table0 uncompress _ _ _ _ hrp]⟩

theorem log_round_trip_waitRecord_off :
    getCompressType "off" = .kNoCompress ∧
      let add := fun (w : Writer) (record : List UInt8) => (w.addRecord (fun _ => 0) (fun _ _ => none) record).1
      let records : List (List UInt8) := [List.replicate 5000 7, [], [1, 2, 3]]
      let F := (records.foldl add (Writer.new "off")).dest
      Reader.readRecords (fun _ => 0) (fun _ _ => none) (F.length + 1) (records.length + 1)
          (Reader.new F false 0 false) =
        some (records.zip ((records.scanl add (Writer.new "off")).tail.map (·.dest.length)), .waitRecord) :=
  ⟨by decide, log_round_trip_waitRecord (fun _ => 0) (fun _ _ => none) (fun _ _ => none) (by decide) false _⟩

end Log

end Fedb.Log
