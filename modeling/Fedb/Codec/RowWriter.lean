import Fedb.Codec.RowLayout

/-! # What `RowBuilder` writes

The appends of a row, one per column in schema order, and the invariant
`Built k` they keep: after the first `k` appends the buffer holds the header,
the null bits (every column from `k` on still NULL) and the fixed field, the
offset-table slots and the string body of each of the first `k` columns.
`SetBuffer` starts it (`built_setBuffer`); one append keeps it
(`Built.step`, with one lemma per kind of cell saying what that append
stores, `built_append_fixed`, `built_append_null`, `built_append_str`); the
whole run keeps it (`built_appendCells`); and after the last append it gives
the format predicate `Encodes` of `RowFormat` (`Built.encodes`).

Each append stores only to the bytes of its own column (`Touched`): its null
bit's byte, its fixed field, the slot after its string position, slot `0` for
the first string column, and its body. The frame lemmas say that these bytes
are disjoint from what the earlier columns left, so `Built.step` needs from
each kind of append only what it stores for column `k`.
-/

namespace Fedb.Codec

open ByteBuffer PrefixSum

/-- The `Append<Type>` call for a cell. -/
def RowBuilder.appendCell (b : RowBuilder) : Cell → Option RowBuilder
  | .null => b.appendNULL
  | .bool v => b.appendBool v
  | .smallInt v => b.appendInt16 v
  | .int v => b.appendInt32 v
  | .bigInt v => b.appendInt64 v
  | .float v => b.appendFloat v
  | .double v => b.appendDouble v
  | .date v => b.appendDate v
  | .timestamp v => b.appendTimestamp v
  | .str v => b.appendString v

/-- One append per cell, stopping at the first that fails. -/
def RowBuilder.appendCells (b : RowBuilder) : List Cell → Option RowBuilder
  | [] => some b
  | c :: cs => (b.appendCell c).bind fun b' => b'.appendCells cs

/-! ## What the builder has written after `k` appends -/

section Writer

variable {schema : Schema} {cells : List Cell} {size : Nat}

/-- The row a client builds: fitting cells, a size that `CalTotalLength`
computed (the bodies end the row) and that fits in 32 bits. -/
structure RowShape (schema : Schema) (cells : List Cell) (size : Nat) : Prop where
  fits : Fits schema cells
  size_eq : size = bodyStart schema size + strLength cells
  bound : size < 2 ^ 32
  ne_nil : schema ≠ []

theorem RowShape.strStart_le_size (hr : RowShape schema cells size) (j : Nat) :
    strStart schema cells size j ≤ size := by
  have := strStart_le schema cells size j
  have := hr.size_eq
  omega

theorem RowShape.header_lt (hr : RowShape schema cells size) :
    headerLength + bitMapSize schema.length ≤ strTableStart schema ∧ 0 < bitMapSize schema.length ∧
      strTableStart schema ≤ size := by
  have hn : 0 < schema.length := List.length_pos_iff.2 hr.ne_nil
  have hb : 0 < bitMapSize schema.length := by rw [bitMapSize_eq]; omega
  have := hr.strStart_le_size 0
  simp only [strStart, bodyStart] at this
  refine ⟨by simp [strTableStart], hb, by omega⟩

/-- The bytes of slot `p` of the offset table. -/
def InSlot (schema : Schema) (size p i : Nat) : Prop :=
  strTableStart schema + getAddrLength size * p ≤ i ∧
    i < strTableStart schema + getAddrLength size * p + getAddrLength size

/-- The bytes the append of column `k`, of type `col`, may store to: the byte
of its null bit, its fixed field, the slot after its string position (if the
table has one), slot `0` while no string column came before it, and its
string body. -/
def Touched (schema : Schema) (cells : List Cell) (size k : Nat) (col : ColumnDesc) (i : Nat) :
    Prop :=
  i = headerLength + (k >>> 3) ∨
  (headerLength + bitMapSize schema.length + fixedWidth (schema.take k) ≤ i ∧
    i < headerLength + bitMapSize schema.length + fixedWidth (schema.take k) + fieldWidth col) ∨
  (strCount (schema.take k) + 1 < strCount schema ∧
    InSlot schema size (strCount (schema.take k) + 1) i) ∨
  (strCount (schema.take k) = 0 ∧ 0 < strCount schema ∧ InSlot schema size 0 i) ∨
  (strStart schema cells size k ≤ i ∧ i < strStart schema cells size (k + 1))

/-- An append changes no member of the layout. -/
structure SameLayout (b b' : RowBuilder) : Prop where
  schema : b'.schema = b.schema
  offsetVec : b'.offsetVec = b.offsetVec
  strFieldCnt : b'.strFieldCnt = b.strFieldCnt
  strFieldStartOffset : b'.strFieldStartOffset = b.strFieldStartOffset
  size : b'.size = b.size
  strAddrLength : b'.strAddrLength = b.strAddrLength

/-- The builder after the first `k` appends of `cells`: its members, the
header, the null bits (every column from `k` on still NULL), and for each of
the first `k` columns its fixed field, the slots its append stored and its
string body. -/
structure Built (schema : Schema) (cells : List Cell) (size k : Nat) (b : RowBuilder) : Prop where
  schema_eq : b.schema = schema
  offsetVec_eq : b.offsetVec = (layout schema).1
  strFieldCnt_eq : b.strFieldCnt = strCount schema
  strFieldStartOffset_eq : b.strFieldStartOffset = strTableStart schema
  size_eq : b.size = size
  strAddrLength_eq : b.strAddrLength = getAddrLength size
  cnt_eq : b.cnt = k
  strOffset_eq : b.strOffset = strStart schema cells size k
  length_eq : b.buf.length = size
  header : readLE b.buf versionLength sizeLength = size
  nullBit : ∀ j (c : Cell), cells[j]? = some c →
    RowView.isNULL b.buf j = (decide (k ≤ j) || c == .null)
  fixed : ∀ j col (c : Cell), j < k → schema[j]? = some col → cells[j]? = some c →
    isStringType col.dataType = false → c ≠ .null →
    readLE b.buf ((layout schema).1.getD j 0) (fieldWidth col) = c.bits
  nextSlot : ∀ j (col : ColumnDesc), j < k → schema[j]? = some col →
    isStringType col.dataType = true → strCount (schema.take j) + 1 < strCount schema →
    RowView.readStrOffset b.buf (strTableStart schema) (strCount (schema.take j) + 1)
      (getAddrLength size) = strStart schema cells size (j + 1)
  firstSlot : ∀ j col (c : Cell), j < k → schema[j]? = some col → cells[j]? = some c →
    isStringType col.dataType = true → strCount (schema.take j) = 0 → c ≠ .null →
    RowView.readStrOffset b.buf (strTableStart schema) 0 (getAddrLength size) =
      strStart schema cells size j
  body : ∀ j v, j < k → cells[j]? = some (.str v) →
    readBytes b.buf (strStart schema cells size j) v.length = v

/-- `SetBuffer` starts the invariant: the header holds the size and every
column is NULL. The version byte is the one the builder was given. -/
theorem built_setBuffer_version (hr : RowShape schema cells size) {buf : List UInt8}
    (hbuf : buf.length = size) (version : UInt8) :
    ∃ b, ((RowBuilder.new schema).setSchemaVersion version).setBuffer buf size = some b ∧
      Built schema cells size 0 b ∧ byteAt b.buf 1 = version := by
  have hS : ((RowBuilder.new schema).setSchemaVersion version).strFieldCnt = strCount schema := by
    simp [RowBuilder.setSchemaVersion, RowBuilder.new, RowBuilder.initOffsets_strCnt]
  have hF : ((RowBuilder.new schema).setSchemaVersion version).strFieldStartOffset =
      strTableStart schema := by
    simp [RowBuilder.setSchemaVersion, RowBuilder.new, RowBuilder.initOffsets_end, strTableStart]
  have hA := getAddrLength_pos size
  have hAS : strCount schema ≤ getAddrLength size * strCount schema :=
    Nat.le_mul_of_pos_left _ hA
  obtain ⟨hbm, hbm0, hFle⟩ := hr.header_lt
  have hsz := hr.size_eq
  have hh : headerLength = 6 := rfl
  have hv : versionLength = 2 := rfl
  have hs : sizeLength = 4 := rfl
  have hsch : ((RowBuilder.new schema).setSchemaVersion version).schema = schema := rfl
  have hver : ((RowBuilder.new schema).setSchemaVersion version).schemaVersion = version := rfl
  unfold RowBuilder.setBuffer
  rw [if_neg (by simp only [bodyStart] at hsz; omega), hS, hF, hsch, hver]
  refine ⟨_, rfl, ?_, ?_⟩
  · -- the buffer `SetBuffer` leaves: header, then a bitmap of `0xFF`
    have hlen : (fill (writeLE ((buf.set 0 1).set 1 version) versionLength sizeLength size)
        headerLength (bitMapSize schema.length) 0xFF).length = size := by
      simp [hbuf]
    refine ⟨rfl, rfl, rfl, rfl, rfl, rfl, rfl, by simp [strStart, bodyStart, strLength], hlen,
      ?_, ?_, fun j _ _ hj => absurd hj (Nat.not_lt_zero _),
      fun j _ hj => absurd hj (Nat.not_lt_zero _), fun j _ _ hj => absurd hj (Nat.not_lt_zero _),
      fun j _ hj => absurd hj (Nat.not_lt_zero _)⟩
    · -- the header is outside the bitmap
      rw [readLE_congr fun i _ h2 => byteAt_fill_outside (Or.inl (by omega))]
      exact readLE_writeLE_of_lt (by simp [hbuf]; omega) (by rw [hs]; have := hr.bound; omega)
    · intro j c hc
      have hj : j < schema.length := hr.fits.length_eq ▸ (List.getElem?_eq_some_iff.1 hc).1
      have hbit : j / 8 < bitMapSize schema.length := div_eight_lt_bitMapSize hj
      unfold RowView.isNULL
      rw [byteAt_fill_inside (by omega) (by rw [Nat.shiftRight_eq_div_pow]; omega)
          (by simp [hbuf]; omega),
        testBit_ff (by rw [and_seven_eq]; omega)]
      simp
  · -- byte `1` is below both the size field and the bitmap
    rw [byteAt_fill_outside (Or.inl (by omega)), byteAt_writeLE_outside (Or.inl (by omega)),
      byteAt_set_self _ (by simp [hbuf]; omega)]

/-- `SetBuffer` of a builder fresh from its constructor, version `1`. -/
theorem built_setBuffer (hr : RowShape schema cells size) {buf : List UInt8}
    (hbuf : buf.length = size) :
    ∃ b, (RowBuilder.new schema).setBuffer buf size = some b ∧ Built schema cells size 0 b := by
  obtain ⟨b, hb, hbuilt, -⟩ := built_setBuffer_version hr hbuf 1
  exact ⟨b, hb, hbuilt⟩

end Writer

/-! ## Frames: what the append of column `k` leaves alone -/

section Frame

variable {schema : Schema} {cells : List Cell} {size : Nat} {k : Nat} {col : ColumnDesc}

theorem fixed_end_le (hcol : schema[k]? = some col) :
    headerLength + bitMapSize schema.length + fixedWidth (schema.take k) + fieldWidth col ≤
      strTableStart schema := by
  obtain ⟨hk, rfl⟩ := List.getElem?_eq_some_iff.1 hcol
  have := fixedWidth_take_add_le hk
  simp only [strTableStart]
  omega

theorem bitmap_byte_lt {j : Nat} (hj : j < schema.length) :
    headerLength + (j >>> 3) < headerLength + bitMapSize schema.length := by
  have := div_eight_lt_bitMapSize hj
  rw [Nat.shiftRight_eq_div_pow]
  omega

theorem strTableStart_le_strStart (schema : Schema) (cells : List Cell) (size j : Nat) :
    strTableStart schema ≤ strStart schema cells size j := by
  simp only [strStart, bodyStart]
  omega

theorem not_touched_header {i : Nat} (hi : i < headerLength) :
    ¬ Touched schema cells size k col i := by
  have := strTableStart_le_strStart schema cells size k
  have : headerLength ≤ strTableStart schema := by simp only [strTableStart]; omega
  unfold Touched InSlot
  omega

theorem not_touched_bitmap (hcol : schema[k]? = some col) {j : Nat} (hj : j < schema.length)
    (hjk : j >>> 3 ≠ k >>> 3) : ¬ Touched schema cells size k col (headerLength + (j >>> 3)) := by
  have := bitmap_byte_lt hj
  have := fixed_end_le hcol
  have := strTableStart_le_strStart schema cells size k
  unfold Touched InSlot
  omega

theorem not_touched_fixed (hcol : schema[k]? = some col) {j : Nat} {col' : ColumnDesc}
    (hcol' : schema[j]? = some col') (hjk : j < k) {i : Nat}
    (h1 : headerLength + bitMapSize schema.length + fixedWidth (schema.take j) ≤ i)
    (h2 : i < headerLength + bitMapSize schema.length + fixedWidth (schema.take j) +
      fieldWidth col') :
    ¬ Touched schema cells size k col i := by
  have hk : k < schema.length := (List.getElem?_eq_some_iff.1 hcol).1
  obtain ⟨hj, rfl⟩ := List.getElem?_eq_some_iff.1 hcol'
  have := bitmap_byte_lt hk
  have := fixedWidth_take_add_le_of_lt hj hjk
  have := fixed_end_le hcol'
  have := strTableStart_le_strStart schema cells size k
  unfold Touched InSlot
  omega

/-- A slot other than the ones the append of column `k` stores to. -/
theorem not_touched_slot (hcol : schema[k]? = some col) {p : Nat}
    (hp : p < strCount schema) (hpk : p ≠ strCount (schema.take k) + 1)
    (h0 : p = 0 → 0 < strCount (schema.take k)) {i : Nat} (hi : InSlot schema size p i) :
    ¬ Touched schema cells size k col i := by
  have hk : k < schema.length := (List.getElem?_eq_some_iff.1 hcol).1
  have := bitmap_byte_lt hk
  have := fixed_end_le hcol
  have := slot_end_le schema size hp
  have := strTableStart_le_strStart schema cells size k
  have : bodyStart schema size ≤ strStart schema cells size k := by simp [strStart]
  -- the slots stored to lie before or after slot `p`
  have hlo := slot_end_le_of_lt schema size (p := p) (q := strCount (schema.take k) + 1)
  have hhi := slot_end_le_of_lt schema size (p := strCount (schema.take k) + 1) (q := p)
  have hz := slot_end_le_of_lt schema size (p := 0) (q := p)
  unfold Touched
  unfold InSlot at hi ⊢
  omega

theorem not_touched_body (hcol : schema[k]? = some col) {j : Nat} (hjk : j < k) {i : Nat}
    (h1 : strStart schema cells size j ≤ i) (h2 : i < strStart schema cells size (j + 1)) :
    ¬ Touched schema cells size k col i := by
  have hk : k < schema.length := (List.getElem?_eq_some_iff.1 hcol).1
  have := bitmap_byte_lt hk
  have := fixed_end_le hcol
  have hb : bodyStart schema size ≤ strStart schema cells size j := by simp [strStart]
  have := strStart_mono schema cells size (show j + 1 ≤ k by omega)
  have := slot_end_le schema size (p := strCount (schema.take k) + 1)
  have := slot_end_le schema size (p := 0)
  have : strTableStart schema ≤ bodyStart schema size := by simp [bodyStart]
  unfold Touched InSlot
  omega

end Frame

/-! ## One append keeps the invariant -/

section Step

variable {schema : Schema} {cells : List Cell} {size k : Nat} {col : ColumnDesc} {c : Cell}
  {b b' : RowBuilder}

/-- The null bits after the append of column `k`: its own bit says whether
its cell is NULL, every other bit is kept. -/
theorem isNULL_step (hcol : schema[k]? = some col)
    (hframe : ∀ i, ¬ Touched schema cells size k col i → byteAt b'.buf i = byteAt b.buf i)
    (hbit : byteAt b'.buf (headerLength + (k >>> 3)) =
      (if c = .null then setBit else clearBit) (byteAt b.buf (headerLength + (k >>> 3))) (k &&& 7))
    {j : Nat} (hj : j < schema.length) :
    RowView.isNULL b'.buf j = if j = k then (c == .null) else RowView.isNULL b.buf j := by
  have hk7 : k &&& 7 < 8 := by rw [and_seven_eq]; omega
  have hj7 : j &&& 7 < 8 := by rw [and_seven_eq]; omega
  unfold RowView.isNULL
  by_cases hjk : j = k
  · subst hjk
    rw [if_pos rfl, hbit]
    by_cases hc : c = .null
    · simp [hc, testBit_setBit _ hj7 hk7]
    · simp [hc, testBit_clearBit _ hj7 hk7]
  · rw [if_neg hjk]
    by_cases hbyte : j >>> 3 = k >>> 3
    · -- another bit of the same byte
      have hbits : j &&& 7 ≠ k &&& 7 := by
        rw [and_seven_eq, and_seven_eq]
        rw [Nat.shiftRight_eq_div_pow, Nat.shiftRight_eq_div_pow] at hbyte
        omega
      rw [hbyte, hbit]
      by_cases hc : c = .null
      · simp [hc, testBit_setBit _ hj7 hk7, hbits]
      · simp [hc, testBit_clearBit _ hj7 hk7, hbits]
    · rw [hframe _ (not_touched_bitmap hcol hj hbyte)]

/-- The step lemma: an append that changes no layout member, stores only to
the bytes of column `k`, sets or clears its null bit as its cell is NULL or
not, and leaves the field, slots and body of column `k` as the format asks,
takes `Built k` to `Built (k + 1)`. -/
theorem Built.step (hr : RowShape schema cells size) (hb : Built schema cells size k b)
    (hcol : schema[k]? = some col) (hc : cells[k]? = some c) (hsame : SameLayout b b')
    (hcnt : b'.cnt = k + 1) (hoff : b'.strOffset = strStart schema cells size (k + 1))
    (hlen : b'.buf.length = b.buf.length)
    (hframe : ∀ i, ¬ Touched schema cells size k col i → byteAt b'.buf i = byteAt b.buf i)
    (hbit : byteAt b'.buf (headerLength + (k >>> 3)) =
      (if c = .null then setBit else clearBit) (byteAt b.buf (headerLength + (k >>> 3))) (k &&& 7))
    (hfixed : isStringType col.dataType = false → c ≠ .null →
      readLE b'.buf ((layout schema).1.getD k 0) (fieldWidth col) = c.bits)
    (hnext : isStringType col.dataType = true → strCount (schema.take k) + 1 < strCount schema →
      RowView.readStrOffset b'.buf (strTableStart schema) (strCount (schema.take k) + 1)
        (getAddrLength size) = strStart schema cells size (k + 1))
    (hfirst : isStringType col.dataType = true → strCount (schema.take k) = 0 → c ≠ .null →
      RowView.readStrOffset b'.buf (strTableStart schema) 0 (getAddrLength size) =
        strStart schema cells size k)
    (hbody : ∀ v, c = .str v → readBytes b'.buf (strStart schema cells size k) v.length = v) :
    Built schema cells size (k + 1) b' where
  schema_eq := hsame.schema.trans hb.schema_eq
  offsetVec_eq := hsame.offsetVec.trans hb.offsetVec_eq
  strFieldCnt_eq := hsame.strFieldCnt.trans hb.strFieldCnt_eq
  strFieldStartOffset_eq := hsame.strFieldStartOffset.trans hb.strFieldStartOffset_eq
  size_eq := hsame.size.trans hb.size_eq
  strAddrLength_eq := hsame.strAddrLength.trans hb.strAddrLength_eq
  cnt_eq := hcnt
  strOffset_eq := hoff
  length_eq := hlen.trans hb.length_eq
  header := by
    have hh : headerLength = versionLength + sizeLength := rfl
    rw [readLE_congr fun i _ h2 => hframe i (not_touched_header (by omega))]
    exact hb.header
  nullBit := by
    intro j c' hc'
    have hj : j < schema.length := hr.fits.length_eq ▸ (List.getElem?_eq_some_iff.1 hc').1
    rw [isNULL_step hcol hframe hbit hj]
    by_cases hjk : j = k
    · subst hjk
      obtain rfl : c' = c := Option.some_injective _ (hc'.symm.trans hc)
      simp
    · rw [if_neg hjk, hb.nullBit j c' hc']
      by_cases hkj : k ≤ j
      · simp [hkj, show k + 1 ≤ j by omega]
      · simp [hkj, show ¬ k + 1 ≤ j by omega]
  fixed := by
    intro j col' c' hj hcol' hc' hs hnull
    by_cases hjk : j = k
    · subst hjk
      obtain rfl : col' = col := Option.some_injective _ (hcol'.symm.trans hcol)
      obtain rfl : c' = c := Option.some_injective _ (hc'.symm.trans hc)
      exact hfixed hs hnull
    · -- an earlier field, which the append does not store to
      rw [layout_getD_fixed hcol' hs,
        readLE_congr fun i h1 h2 => hframe i (not_touched_fixed hcol hcol' (by omega) h1 h2),
        ← layout_getD_fixed hcol' hs]
      exact hb.fixed j col' c' (by omega) hcol' hc' hs hnull
  nextSlot := by
    intro j col' hj hcol' hs hpos
    by_cases hjk : j = k
    · subst hjk
      obtain rfl : col' = col := Option.some_injective _ (hcol'.symm.trans hcol)
      exact hnext hs hpos
    · -- the slot after an earlier string column lies before the slots of column `k`
      obtain ⟨hjl, rfl⟩ := List.getElem?_eq_some_iff.1 hcol'
      have hsucc := strCount_take_succ hjl
      have hmono := strCount_take_mono schema (show j + 1 ≤ k by omega)
      simp only [strFlag, hs, if_true] at hsucc
      rw [readStrOffset_congr fun i h1 h2 =>
        hframe i (not_touched_slot hcol hpos (by omega) (by omega) ⟨h1, h2⟩)]
      exact hb.nextSlot j _ (by omega) hcol' hs hpos
  firstSlot := by
    intro j col' c' hj hcol' hc' hs hpos hnull
    by_cases hjk : j = k
    · subst hjk
      obtain rfl : col' = col := Option.some_injective _ (hcol'.symm.trans hcol)
      obtain rfl : c' = c := Option.some_injective _ (hc'.symm.trans hc)
      exact hfirst hs hpos hnull
    · -- column `k` comes after a string column, so it does not store to slot `0`
      obtain ⟨hjl, rfl⟩ := List.getElem?_eq_some_iff.1 hcol'
      have hsucc := strCount_take_succ hjl
      have hmono := strCount_take_mono schema (show j + 1 ≤ k by omega)
      have hlt := strCount_take_lt hjl hs
      simp only [strFlag, hs, if_true] at hsucc
      rw [readStrOffset_congr fun i h1 h2 =>
        hframe i (not_touched_slot hcol (p := 0) (by omega) (by omega) (by omega) ⟨h1, h2⟩)]
      exact hb.firstSlot j _ c' (by omega) hcol' hc' hs hpos hnull
  body := by
    intro j v hj hc'
    by_cases hjk : j = k
    · subst hjk
      exact hbody v (Option.some_injective _ (hc.symm.trans hc'))
    · -- an earlier body ends where the body of column `j + 1` starts
      have hjl : j < cells.length := (List.getElem?_eq_some_iff.1 hc').1
      have hend := strStart_succ schema size hjl
      rw [List.getElem?_eq_some_iff.1 hc' |>.2] at hend
      simp only [Cell.bodyLen] at hend
      rw [readBytes_congr fun i h1 h2 =>
        hframe i (not_touched_body hcol (show j < k by omega) h1 (by omega))]
      exact hb.body j v (by omega) hc'

end Step

/-! ## Each kind of append keeps the invariant -/

section Appends

variable {schema : Schema} {cells : List Cell} {size k : Nat} {col : ColumnDesc} {c : Cell}
  {b : RowBuilder}

/-- `SetStrOffset` on a builder with the row's layout stores to its slot only. -/
theorem byteAt_setStrOffset_of_not_inSlot (schema : Schema) (size : Nat) {b : RowBuilder} {p i : Nat}
    (hS : b.strFieldCnt = strCount schema) (hF : b.strFieldStartOffset = strTableStart schema)
    (hA : b.strAddrLength = getAddrLength size)
    (h : ¬ (p < strCount schema ∧ InSlot schema size p i)) :
    byteAt (b.setStrOffset p).buf i = byteAt b.buf i := by
  have h0 := getAddrLength_pos size
  have h4 := getAddrLength_le_four size
  apply RowBuilder.byteAt_setStrOffset_outside (by omega) (by omega)
  rw [hS, hF, hA]
  unfold InSlot at h
  omega

/-- `SetStrOffset` on a builder with the row's layout stores an offset the
view reads back. -/
theorem readStrOffset_setStrOffset_of_layout (hr : RowShape schema cells size) (b : RowBuilder)
    {p : Nat} (hS : b.strFieldCnt = strCount schema)
    (hF : b.strFieldStartOffset = strTableStart schema) (hA : b.strAddrLength = getAddrLength size)
    (hlen : b.buf.length = size) (hp : p < strCount schema) (hv : b.strOffset ≤ size) :
    RowView.readStrOffset (b.setStrOffset p).buf (strTableStart schema) p (getAddrLength size) =
      b.strOffset := by
  have hend := slot_end_le schema size hp
  have hbody := strStart_le schema cells size 0
  have hsz := hr.size_eq
  rw [← hF, ← hA]
  exact RowBuilder.readStrOffset_setStrOffset (by omega) (by rw [hA]; exact getAddrLength_pos size)
    (by rw [hA]; exact getAddrLength_le_four size) (by rw [hF, hA]; simp only [strStart] at hbody; omega)
    (by rw [hA]; exact lt_pow_getAddrLength hv hr.bound)

theorem RowBuilder.appendCell_fixed (b : RowBuilder) (hfit : c.fits col = true)
    (hs : isStringType col.dataType = false) (hnull : c ≠ .null) :
    b.appendCell c = (b.setFixed b.cnt col.dataType (fieldWidth col) c.bits).map RowBuilder.advance := by
  cases c <;> simp_all [Cell.fits, isStringType, RowBuilder.appendCell, RowBuilder.appendBool,
    RowBuilder.appendInt16, RowBuilder.appendInt32, RowBuilder.appendInt64,
    RowBuilder.appendTimestamp, RowBuilder.appendFloat, RowBuilder.appendDouble,
    RowBuilder.appendDate, RowBuilder.setBool, RowBuilder.setInt16, RowBuilder.setInt32,
    RowBuilder.setInt64, RowBuilder.setTimestamp, RowBuilder.setFloat, RowBuilder.setDouble,
    RowBuilder.setDate, fieldWidth, typeSize, Cell.bits]

/-- A fixed-width value: its bits go to its field and its null bit is cleared. -/
theorem built_append_fixed (hr : RowShape schema cells size) (hb : Built schema cells size k b)
    (hcol : schema[k]? = some col) (hc : cells[k]? = some c)
    (hs : isStringType col.dataType = false) (hnull : c ≠ .null) :
    ∃ b', b.appendCell c = some b' ∧ Built schema cells size (k + 1) b' := by
  have hfit := hr.fits.cell k col c hcol hc
  have hk : k < schema.length := (List.getElem?_eq_some_iff.1 hcol).1
  have hcheck : b.check k col.dataType = true :=
    RowBuilder.check_of_getElem? (by rw [hb.schema_eq]; exact hcol)
  rw [RowBuilder.appendCell_fixed b hfit hs hnull, hb.cnt_eq, RowBuilder.setFixed_of_check hcheck,
    Option.map_some]
  refine ⟨_, rfl, ?_⟩
  have hoff : b.offsetVec.getD k 0 =
      headerLength + bitMapSize schema.length + fixedWidth (schema.take k) := by
    rw [hb.offsetVec_eq, layout_getD_fixed hcol hs]
  have hend := fixed_end_le hcol
  have hbm := bitmap_byte_lt hk
  have hF := hr.header_lt.2.2
  have hlen := hb.length_eq
  have hstr : strStart schema cells size (k + 1) = strStart schema cells size k := by
    rw [strStart_succ schema size (hr.fits.length_eq ▸ hk), (List.getElem?_eq_some_iff.1 hc).2,
      Cell.bodyLen_of_not_string hfit hs, Nat.add_zero]
  apply Built.step hr hb hcol hc
  · exact ⟨rfl, rfl, rfl, rfl, rfl, rfl⟩
  · simp [RowBuilder.advance, hb.cnt_eq]
  · simp [RowBuilder.advance, hb.strOffset_eq, hstr]
  · simp [RowBuilder.advance, RowBuilder.setField]
  · -- the field and the byte of the null bit are the only bytes stored to
    intro i hi
    unfold Touched InSlot at hi
    simp only [RowBuilder.advance, RowBuilder.setField, hoff]
    rw [byteAt_writeLE_outside (by omega), byteAt_modifyByte_of_ne _ (by omega)]
  · simp only [RowBuilder.advance, RowBuilder.setField, hoff, if_neg hnull]
    rw [byteAt_writeLE_outside (Or.inl (by omega)), byteAt_modifyByte_self _ (by omega)]
  · intro _ _
    simp only [RowBuilder.advance, RowBuilder.setField, ← hb.offsetVec_eq]
    exact readLE_writeLE_of_lt (by rw [length_modifyByte, hoff]; omega) (Cell.bits_lt hfit hs)
  · intro hs'
    exact absurd hs' (by simp [hs])
  · intro hs'
    exact absurd hs' (by simp [hs])
  · intro v hv
    subst hv
    exact absurd hfit (by simp [Cell.fits, hs])

/-- A NULL cell: its null bit is set; a NULL string still stores where the
next string starts. -/
theorem built_append_null (hr : RowShape schema cells size) (hb : Built schema cells size k b)
    (hcol : schema[k]? = some col) (hc : cells[k]? = some .null) :
    ∃ b', b.appendCell .null = some b' ∧ Built schema cells size (k + 1) b' := by
  have hfit := hr.fits.cell k col .null hcol hc
  have hn : col.notNull = false := by simpa [Cell.fits] using hfit
  have hk : k < schema.length := (List.getElem?_eq_some_iff.1 hcol).1
  have hbm := bitmap_byte_lt hk
  have hend := fixed_end_le hcol
  have hF := hr.header_lt.2.2
  have hlen := hb.length_eq
  have hstr : strStart schema cells size (k + 1) = strStart schema cells size k := by
    rw [strStart_succ schema size (hr.fits.length_eq ▸ hk), (List.getElem?_eq_some_iff.1 hc).2]
    rfl
  rw [RowBuilder.appendCell, RowBuilder.appendNULL, hb.cnt_eq,
    RowBuilder.setNULL_of_nullable (by rw [hb.schema_eq]; exact hcol) hn]
  dsimp only
  by_cases hs : isStringType col.dataType
  · -- a NULL string stores the offset of the next slot
    rw [if_pos hs, Option.map_some]
    refine ⟨_, rfl, ?_⟩
    have hpos : b.offsetVec.getD k 0 = strCount (schema.take k) := by
      rw [hb.offsetVec_eq, layout_getD_string hcol hs]
    rw [hpos]
    have hlt := strCount_take_lt hk (by rw [(List.getElem?_eq_some_iff.1 hcol).2]; exact hs)
    apply Built.step hr hb hcol hc
    · constructor <;> simp [RowBuilder.advance]
    · simp [RowBuilder.advance, hb.cnt_eq]
    · simp [RowBuilder.advance, hb.strOffset_eq, hstr]
    · simp [RowBuilder.advance]
    · intro i hi
      unfold Touched at hi
      simp only [RowBuilder.advance]
      rw [byteAt_setStrOffset_of_not_inSlot schema size ?_ ?_ ?_ ?_]
      · dsimp only
        exact byteAt_modifyByte_of_ne _ (by omega)
      · exact hb.strFieldCnt_eq
      · exact hb.strFieldStartOffset_eq
      · exact hb.strAddrLength_eq
      · unfold InSlot at hi ⊢
        omega
    · simp only [RowBuilder.advance]
      rw [byteAt_setStrOffset_of_not_inSlot schema size ?_ ?_ ?_ ?_]
      · dsimp only
        exact byteAt_modifyByte_self _ (by omega)
      · exact hb.strFieldCnt_eq
      · exact hb.strFieldStartOffset_eq
      · exact hb.strAddrLength_eq
      · unfold InSlot
        omega
    · intro hs'
      exact absurd hs' (by simp [hs])
    · intro _ hnext
      simp only [RowBuilder.advance]
      rw [readStrOffset_setStrOffset_of_layout hr _ ?_ ?_ ?_ ?_ hnext ?_]
      · exact hb.strOffset_eq.trans hstr.symm
      · exact hb.strFieldCnt_eq
      · exact hb.strFieldStartOffset_eq
      · exact hb.strAddrLength_eq
      · simpa using hlen
      · show b.strOffset ≤ size
        rw [hb.strOffset_eq]
        exact hr.strStart_le_size k
    · intro _ _ h
      exact absurd rfl h
    · intro v hv
      cases hv
  · -- a NULL fixed-width field: only the null bit changes
    rw [if_neg hs, Option.map_some]
    refine ⟨_, rfl, ?_⟩
    rw [Bool.not_eq_true] at hs
    apply Built.step hr hb hcol hc
    · exact ⟨rfl, rfl, rfl, rfl, rfl, rfl⟩
    · simp [RowBuilder.advance, hb.cnt_eq]
    · simp [RowBuilder.advance, hb.strOffset_eq, hstr]
    · simp [RowBuilder.advance]
    · intro i hi
      unfold Touched at hi
      dsimp only [RowBuilder.advance]
      exact byteAt_modifyByte_of_ne _ (by omega)
    · dsimp only [RowBuilder.advance]
      exact byteAt_modifyByte_self _ (by omega)
    · intro _ h
      exact absurd rfl h
    · intro hs'
      exact absurd hs' (by simp [hs])
    · intro hs'
      exact absurd hs' (by simp [hs])
    · intro v hv
      cases hv

/-- A string: the first string column stores its own offset, the body goes to
`str_offset_`, the next slot gets the offset after the body, and the null bit
is cleared. -/
theorem built_append_str (hr : RowShape schema cells size) (hb : Built schema cells size k b)
    (hcol : schema[k]? = some col) {v : List UInt8} (hc : cells[k]? = some (.str v)) :
    ∃ b', b.appendCell (.str v) = some b' ∧ Built schema cells size (k + 1) b' := by
  have hs : isStringType col.dataType = true := hr.fits.cell k col (.str v) hcol hc
  have hk : k < schema.length := (List.getElem?_eq_some_iff.1 hcol).1
  have hbm := bitmap_byte_lt hk
  have hend := fixed_end_le hcol
  have hlen := hb.length_eq
  have hlt := strCount_take_lt hk (by rw [(List.getElem?_eq_some_iff.1 hcol).2]; exact hs)
  have hstr : strStart schema cells size (k + 1) = strStart schema cells size k + v.length := by
    rw [strStart_succ schema size (hr.fits.length_eq ▸ hk), (List.getElem?_eq_some_iff.1 hc).2]
    rfl
  have hsize := hr.strStart_le_size (k + 1)
  have hbound := hr.bound
  have hB : bodyStart schema size ≤ strStart schema cells size k := by simp [strStart]
  have hslot0 := slot_end_le schema size (p := 0) (by omega)
  have hslotP := slot_end_le schema size (p := strCount (schema.take k) + 1)
  have hslot01 := slot_end_le_of_lt schema size (p := 0) (q := strCount (schema.take k) + 1)
    (by omega)
  have hpos : b.offsetVec.getD k 0 = strCount (schema.take k) := by
    rw [hb.offsetVec_eq, layout_getD_string hcol hs]
  have hnext : u32 (b.strOffset + v.length) = strStart schema cells size (k + 1) := by
    rw [hb.strOffset_eq, ← hstr, u32_of_lt (by omega)]
  have hle : u32 (b.strOffset + v.length) ≤ b.size := by
    rw [hnext, hb.size_eq]
    exact hsize
  rw [RowBuilder.appendCell, RowBuilder.appendString, hb.cnt_eq,
    RowBuilder.setString_of_check (by rw [hb.schema_eq]; exact hcol) hs hle, Option.map_some]
  refine ⟨_, rfl, ?_⟩
  dsimp only
  rw [hpos]
  -- the first string column stores its own offset into slot `0`
  obtain ⟨b1, hb1, hsame1, hcnt1, hoff1, hlen1, hframe1, hfirst1⟩ : ∃ b1,
      (if strCount (schema.take k) = 0 then b.setStrOffset (strCount (schema.take k)) else b) = b1 ∧
      SameLayout b b1 ∧ b1.cnt = b.cnt ∧ b1.strOffset = b.strOffset ∧
      b1.buf.length = b.buf.length ∧
      (∀ i, ¬ (strCount (schema.take k) = 0 ∧ InSlot schema size 0 i) →
        byteAt b1.buf i = byteAt b.buf i) ∧
      (strCount (schema.take k) = 0 →
        RowView.readStrOffset b1.buf (strTableStart schema) 0 (getAddrLength size) =
          strStart schema cells size k) := by
    by_cases hP : strCount (schema.take k) = 0
    · refine ⟨_, rfl, ?_⟩
      rw [if_pos hP, hP]
      refine ⟨by constructor <;> simp, by simp, by simp, by simp, fun i hi => ?_, fun _ => ?_⟩
      · exact byteAt_setStrOffset_of_not_inSlot schema size hb.strFieldCnt_eq
          hb.strFieldStartOffset_eq hb.strAddrLength_eq (by unfold InSlot at hi ⊢; omega)
      · rw [readStrOffset_setStrOffset_of_layout hr b hb.strFieldCnt_eq hb.strFieldStartOffset_eq
          hb.strAddrLength_eq hlen (by omega) (by rw [hb.strOffset_eq]; exact hr.strStart_le_size k)]
        exact hb.strOffset_eq
    · refine ⟨_, rfl, ?_⟩
      rw [if_neg hP]
      exact ⟨⟨rfl, rfl, rfl, rfl, rfl, rfl⟩, rfl, rfl, rfl, fun _ _ => rfl, fun h => absurd h hP⟩
  rw [hb1]
  -- after the body, the next slot gets the offset where the body ends
  obtain ⟨b4, hb4, hsame4, hcnt4, hoff4, hlen4, hframe4, hnext4⟩ : ∃ b4,
      ({ b1 with buf := writeBytes b1.buf b1.strOffset v,
                 strOffset := u32 (b1.strOffset + v.length) } : RowBuilder).setStrOffset
          (strCount (schema.take k) + 1) = b4 ∧
      SameLayout b b4 ∧ b4.cnt = b.cnt ∧ b4.strOffset = strStart schema cells size (k + 1) ∧
      b4.buf.length = b.buf.length ∧
      (∀ i, ¬ (strCount (schema.take k) + 1 < strCount schema ∧
          InSlot schema size (strCount (schema.take k) + 1) i) →
        byteAt b4.buf i = byteAt (writeBytes b1.buf (strStart schema cells size k) v) i) ∧
      (strCount (schema.take k) + 1 < strCount schema →
        RowView.readStrOffset b4.buf (strTableStart schema) (strCount (schema.take k) + 1)
          (getAddrLength size) = strStart schema cells size (k + 1)) := by
    refine ⟨_, rfl, ?_, ?_, ?_, ?_, fun i hi => ?_, fun hp => ?_⟩
    · constructor <;> simp [hsame1.schema, hsame1.offsetVec, hsame1.strFieldCnt,
        hsame1.strFieldStartOffset, hsame1.size, hsame1.strAddrLength]
    · simp [hcnt1]
    · simp [hoff1, hnext]
    · simp [hlen1]
    · rw [byteAt_setStrOffset_of_not_inSlot schema size ?_ ?_ ?_ hi]
      · rw [← hb.strOffset_eq, ← hoff1]
      · exact hsame1.strFieldCnt.trans hb.strFieldCnt_eq
      · exact hsame1.strFieldStartOffset.trans hb.strFieldStartOffset_eq
      · exact hsame1.strAddrLength.trans hb.strAddrLength_eq
    · rw [readStrOffset_setStrOffset_of_layout hr _ ?_ ?_ ?_ ?_ hp ?_]
      · show u32 (b1.strOffset + v.length) = _
        rw [hoff1, hnext]
      · exact hsame1.strFieldCnt.trans hb.strFieldCnt_eq
      · exact hsame1.strFieldStartOffset.trans hb.strFieldStartOffset_eq
      · exact hsame1.strAddrLength.trans hb.strAddrLength_eq
      · show (writeBytes b1.buf b1.strOffset v).length = size
        rw [length_writeBytes, hlen1, hlen]
      · show u32 (b1.strOffset + v.length) ≤ size
        rw [hoff1, hnext]
        exact hsize
  rw [hb4]
  have hbuf1 : b1.buf.length = size := hlen1.trans hlen
  apply Built.step hr hb hcol hc
  · constructor <;> simp [RowBuilder.advance, hsame4.schema, hsame4.offsetVec, hsame4.strFieldCnt,
      hsame4.strFieldStartOffset, hsame4.size, hsame4.strAddrLength]
  · simp [RowBuilder.advance, hcnt4, hb.cnt_eq]
  · simp [RowBuilder.advance, hoff4]
  · simp [RowBuilder.advance, hlen4]
  · -- outside the bytes of column `k` every store leaves the byte alone
    intro i hi
    unfold Touched at hi
    simp only [RowBuilder.advance, RowBuilder.setField]
    rw [byteAt_modifyByte_of_ne _ (by omega), hframe4 i (by unfold InSlot at hi ⊢; omega),
      byteAt_writeBytes_outside (by omega), hframe1 i (by unfold InSlot at hi ⊢; omega)]
  · simp only [RowBuilder.advance, RowBuilder.setField, reduceCtorEq, if_false]
    rw [byteAt_modifyByte_self _ (by rw [hlen4]; omega),
      hframe4 _ (by unfold InSlot; omega), byteAt_writeBytes_outside (by omega),
      hframe1 _ (by unfold InSlot; omega)]
  · intro hs'
    exact absurd hs (by simp [hs'])
  · intro _ hp
    simp only [RowBuilder.advance, RowBuilder.setField]
    rw [readStrOffset_congr fun i h1 h2 => byteAt_modifyByte_of_ne _ (by omega)]
    exact hnext4 hp
  · -- slot `0` was stored before the body and the next slot
    intro _ hP0 _
    simp only [RowBuilder.advance, RowBuilder.setField]
    refine (readStrOffset_congr fun i h1 h2 => ?_).trans (hfirst1 hP0)
    rw [byteAt_modifyByte_of_ne _ (by omega), hframe4 i (by unfold InSlot; omega),
      byteAt_writeBytes_outside (by omega)]
  · -- the body, stored after the slots and before the bytes stored later
    intro v' hv'
    cases hv'
    simp only [RowBuilder.advance, RowBuilder.setField]
    refine (readBytes_congr fun i h1 h2 => ?_).trans
      (@readBytes_writeBytes b1.buf (strStart schema cells size k) v (by omega))
    rw [byteAt_modifyByte_of_ne _ (by omega), hframe4 i (by unfold InSlot; omega)]

/-- The step lemma for every kind of cell. -/
theorem built_appendCell (hr : RowShape schema cells size) (hb : Built schema cells size k b)
    (hk : k < cells.length) :
    ∃ b', b.appendCell cells[k] = some b' ∧ Built schema cells size (k + 1) b' := by
  have hks : k < schema.length := hr.fits.length_eq ▸ hk
  have hcol : schema[k]? = some schema[k] := List.getElem?_eq_getElem hks
  have hc : cells[k]? = some cells[k] := List.getElem?_eq_getElem hk
  generalize cells[k] = c at hc ⊢
  by_cases hnull : c = .null
  · subst hnull
    exact built_append_null hr hb hcol hc
  · by_cases hs : isStringType schema[k].dataType
    · obtain ⟨v, rfl⟩ := fits_null hnull (hr.fits.cell k _ c hcol hc) hs
      exact built_append_str hr hb hcol hc
    · exact built_append_fixed hr hb hcol hc (by simpa using hs) hnull

theorem not_inSlot_of_lt_header {p i : Nat} (hi : i < headerLength) : ¬ InSlot schema size p i := by
  have : headerLength ≤ strTableStart schema := by simp only [strTableStart]; omega
  unfold InSlot
  omega

/-- No append stores to the header: the version byte and the size stay. -/
theorem byteAt_appendCell_header (hr : RowShape schema cells size) (hb : Built schema cells size k b)
    (hk : k < cells.length) {b' : RowBuilder} (h : b.appendCell cells[k] = some b') {i : Nat}
    (hi : i < headerLength) : byteAt b'.buf i = byteAt b.buf i := by
  have hks : k < schema.length := hr.fits.length_eq ▸ hk
  have hcol : schema[k]? = some schema[k] := List.getElem?_eq_getElem hks
  have hc : cells[k]? = some cells[k] := List.getElem?_eq_getElem hk
  have hbit : headerLength + (k >>> 3) ≠ i := by omega
  -- a slot of the offset table lies past the header, whatever the builder's buffer
  have hslot : ∀ (b1 : RowBuilder) p, b1.strFieldCnt = b.strFieldCnt →
      b1.strFieldStartOffset = b.strFieldStartOffset → b1.strAddrLength = b.strAddrLength →
      byteAt (b1.setStrOffset p).buf i = byteAt b1.buf i := fun b1 p hS hF hA =>
    byteAt_setStrOffset_of_not_inSlot schema size (hS.trans hb.strFieldCnt_eq)
      (hF.trans hb.strFieldStartOffset_eq) (hA.trans hb.strAddrLength_eq)
      (fun h' => not_inSlot_of_lt_header hi h'.2)
  generalize cells[k] = c at hc h
  have hfit := hr.fits.cell k _ c hcol hc
  by_cases hnull : c = .null
  · -- `SetNULL`: the null bit, and for a string the next slot
    subst hnull
    have hn : schema[k].notNull = false := by simpa [Cell.fits] using hfit
    rw [RowBuilder.appendCell, RowBuilder.appendNULL, hb.cnt_eq,
      RowBuilder.setNULL_of_nullable (by rw [hb.schema_eq]; exact hcol) hn] at h
    simp only [Option.map_some, Option.some.injEq] at h
    subst h
    simp only [RowBuilder.advance]
    split
    · exact (hslot { b with buf := modifyByte b.buf (headerLength + (k >>> 3)) (setBit · (k &&& 7)) }
        _ rfl rfl rfl).trans (@byteAt_modifyByte_of_ne b.buf _ _ (setBit · (k &&& 7)) hbit)
    · exact @byteAt_modifyByte_of_ne b.buf _ _ (setBit · (k &&& 7)) hbit
  · by_cases hs : isStringType schema[k].dataType
    · -- `SetString`: the slots, the body past the offset table, the null bit
      obtain ⟨v, rfl⟩ := fits_null hnull hfit hs
      have hstart := strTableStart_le_strStart schema cells size k
      have hhead : headerLength ≤ strTableStart schema := by simp only [strTableStart]; omega
      have hle : u32 (b.strOffset + v.length) ≤ b.size := by
        have hstr : strStart schema cells size (k + 1) = strStart schema cells size k + v.length := by
          rw [strStart_succ schema size hk, (List.getElem?_eq_some_iff.1 hc).2]
          rfl
        have := hr.strStart_le_size (k + 1)
        rw [hb.strOffset_eq, hb.size_eq, u32_of_lt (by have := hr.bound; omega)]
        omega
      rw [RowBuilder.appendCell, RowBuilder.appendString, hb.cnt_eq,
        RowBuilder.setString_of_check (by rw [hb.schema_eq]; exact hcol) hs hle] at h
      simp only [Option.map_some, Option.some.injEq] at h
      subst h
      have hoff : (if b.offsetVec.getD k 0 = 0 then b.setStrOffset (b.offsetVec.getD k 0)
          else b).strOffset = b.strOffset := by split <;> simp
      simp only [RowBuilder.advance, RowBuilder.setField]
      rw [byteAt_modifyByte_of_ne _ hbit, hslot _ _ (by split <;> simp) (by split <;> simp)
        (by split <;> simp), byteAt_writeBytes_outside (Or.inl (by rw [hoff, hb.strOffset_eq]; omega))]
      split
      · exact hslot _ _ rfl rfl rfl
      · rfl
    · -- a fixed-width value: its field past the bitmap, the null bit
      have hcheck : b.check k schema[k].dataType = true :=
        RowBuilder.check_of_getElem? (by rw [hb.schema_eq]; exact hcol)
      rw [RowBuilder.appendCell_fixed b hfit (by simpa using hs) hnull, hb.cnt_eq,
        RowBuilder.setFixed_of_check hcheck] at h
      simp only [Option.map_some, Option.some.injEq] at h
      subst h
      have hoff : b.offsetVec.getD k 0 =
          headerLength + bitMapSize schema.length + fixedWidth (schema.take k) := by
        rw [hb.offsetVec_eq, layout_getD_fixed hcol (by simpa using hs)]
      simp only [RowBuilder.advance, RowBuilder.setField, hoff]
      rw [byteAt_writeLE_outside (Or.inl (by omega)), byteAt_modifyByte_of_ne _ hbit]

/-- The run lemma: the appends of the remaining cells all succeed and leave
the whole row built. -/
theorem built_appendCells (hr : RowShape schema cells size) :
    ∀ m k (b : RowBuilder), k + m = cells.length → Built schema cells size k b →
      ∃ b', b.appendCells (cells.drop k) = some b' ∧ Built schema cells size cells.length b' := by
  intro m
  induction m with
  | zero =>
    intro k b hkm hb
    rw [List.drop_of_length_le (by omega)]
    exact ⟨b, rfl, by rwa [← hkm]⟩
  | succ m ih =>
    intro k b hkm hb
    have hk : k < cells.length := by omega
    obtain ⟨b1, hb1, hbuilt1⟩ := built_appendCell hr hb hk
    obtain ⟨b', hb', hbuilt'⟩ := ih (k + 1) b1 (by omega) hbuilt1
    refine ⟨b', ?_, hbuilt'⟩
    rw [List.drop_eq_getElem_cons hk, RowBuilder.appendCells, hb1, Option.bind_some, hb']

end Appends

/-! ## The whole row -/

section Row

variable {schema : Schema} {cells : List Cell} {size : Nat} {b : RowBuilder}

/-- The slot of a non-NULL string column holds the start of its body: stored
by the column itself if it is the first string column, and otherwise by the
string column before it, whose body ends where this one starts. -/
theorem Built.slot (hr : RowShape schema cells size) (hb : Built schema cells size cells.length b)
    {j : Nat} {col : ColumnDesc} {c : Cell} (hcol : schema[j]? = some col)
    (hc : cells[j]? = some c) (hs : isStringType col.dataType = true) (hnull : c ≠ .null) :
    RowView.readStrOffset b.buf (strTableStart schema) (strCount (schema.take j))
      (getAddrLength size) = strStart schema cells size j := by
  have hj : j < cells.length := (List.getElem?_eq_some_iff.1 hc).1
  obtain ⟨hjs, rfl⟩ := List.getElem?_eq_some_iff.1 hcol
  have hlt := strCount_take_lt hjs hs
  cases hpos : strCount (schema.take j) with
  | zero => exact hb.firstSlot j _ c hj hcol hc hs hpos hnull
  | succ p =>
    obtain ⟨i, hij, his, hstr, hposi⟩ := exists_prev_string hpos
    have hsucc := strCount_take_succ his
    simp only [strFlag, hstr, if_true] at hsucc
    have hnext := hb.nextSlot i _ (by omega) (List.getElem?_eq_getElem his) hstr (by omega)
    rw [hposi] at hnext
    rw [hnext, strStart, strStart,
      strLength_eq_of_strCount_eq hr.fits (show i + 1 ≤ j by omega) (by omega)]

/-- After the last append the buffer holds the row in the format. -/
theorem Built.encodes (hr : RowShape schema cells size)
    (hb : Built schema cells size cells.length b) : Encodes schema cells b.buf size where
  length := hb.length_eq
  header := hb.header
  header_lt := by
    obtain ⟨h1, h2, h3⟩ := hr.header_lt
    omega
  bound := hr.bound
  nullBit := by
    intro j c hc
    have hj : j < cells.length := (List.getElem?_eq_some_iff.1 hc).1
    rw [hb.nullBit j c hc]
    simp [show ¬ cells.length ≤ j by omega]
  fixed := fun j col c hcol hc hs hnull =>
    hb.fixed j col c (List.getElem?_eq_some_iff.1 hc).1 hcol hc hs hnull
  slot := fun j col c hcol hc hs hnull => hb.slot hr hcol hc hs hnull
  nextSlot := by
    intro j col c hcol hc hs hnull hpos
    have hj : j < cells.length := (List.getElem?_eq_some_iff.1 hc).1
    rw [hb.nextSlot j col hj hcol hs hpos, strStart_succ schema size hj,
      (List.getElem?_eq_some_iff.1 hc).2]
  lastEnd := by
    -- no string column follows the last one, so no body follows its body
    intro j col c hcol hc hs hlast
    have hj : j < cells.length := (List.getElem?_eq_some_iff.1 hc).1
    obtain ⟨hjs, rfl⟩ := List.getElem?_eq_some_iff.1 hcol
    have hsucc := strCount_take_succ hjs
    simp only [strFlag, hs, if_true] at hsucc
    have hall : strCount (schema.take schema.length) = strCount schema := by
      rw [List.take_length]
    have hrest := strLength_eq_of_strCount_eq hr.fits (show j + 1 ≤ schema.length by omega)
      (by omega)
    rw [← hr.fits.length_eq, List.take_length] at hrest
    have hend := strStart_succ schema size hj
    rw [(List.getElem?_eq_some_iff.1 hc).2] at hend
    have hsz := hr.size_eq
    simp only [strStart] at hend ⊢
    omega
  bodyEnd := by
    intro j c hc
    have hj : j < cells.length := (List.getElem?_eq_some_iff.1 hc).1
    have hend := strStart_succ schema size hj
    rw [(List.getElem?_eq_some_iff.1 hc).2] at hend
    have := hr.strStart_le_size (j + 1)
    omega
  body := fun j v hc => hb.body j v (List.getElem?_eq_some_iff.1 hc).1 hc

end Row

end Fedb.Codec
