import Fedb.Codec.RowFormat
import Fedb.Lib.PrefixSum

/-! # The row layout, column by column

Arithmetic of the format version 1 layout that the builder's proofs use: the
fixed fields, the string positions and the string bodies are each packed in
column order, so each is a prefix sum over the columns (`PrefixSum`); the
offset table has one slot of `GetAddrLength(size)` bytes per string column.
The second half gives the store `SetStrOffset` and the load `readStrOffset`
of one slot their specification.
-/

namespace Fedb.Codec

open ByteBuffer PrefixSum

/-! ## Cells that fit a schema -/

/-- One cell per column, each fitting its column. -/
structure Fits (schema : Schema) (cells : List Cell) : Prop where
  length_eq : cells.length = schema.length
  cell : ∀ (j : Nat) (col : ColumnDesc) (c : Cell), schema[j]? = some col → cells[j]? = some c → c.fits col = true

theorem Fits.of_forall₂ {schema : Schema} {cells : List Cell}
    (h : List.Forall₂ (fun col c => c.fits col = true) schema cells) : Fits schema cells := by
  refine ⟨h.length_eq.symm, fun j col c hcol hc => ?_⟩
  obtain ⟨hj, rfl⟩ := List.getElem?_eq_some_iff.1 hcol
  obtain ⟨hj', rfl⟩ := List.getElem?_eq_some_iff.1 hc
  exact (List.forall₂_iff_get.1 h).2 j hj hj'

/-- A cell of a column that is not a string column has no body. -/
theorem Cell.bodyLen_of_not_string {col : ColumnDesc} {c : Cell} (hfit : c.fits col = true)
    (hs : isStringType col.dataType = false) : c.bodyLen = 0 := by
  cases c <;> simp_all [Cell.fits, Cell.bodyLen]

/-- A fixed-width value fits in the field of its column. -/
theorem Cell.bits_lt {col : ColumnDesc} {c : Cell} (hfit : c.fits col = true)
    (hs : isStringType col.dataType = false) : c.bits < 256 ^ fieldWidth col := by
  cases c with
  | null => simp [Cell.bits]
  | str v => simp_all [Cell.fits]
  | bool v =>
    have hdt : col.dataType = .kBool := by simpa [Cell.fits] using hfit
    cases v <;> simp [Cell.bits, fieldWidth, hdt, typeSize]
  | smallInt v =>
    have hdt : col.dataType = .kSmallInt := by simpa [Cell.fits] using hfit
    simpa [Cell.bits, fieldWidth, hdt, typeSize] using v.toUInt16.toNat_lt
  | int v =>
    have hdt : col.dataType = .kInt := by simpa [Cell.fits] using hfit
    simpa [Cell.bits, fieldWidth, hdt, typeSize] using v.toUInt32.toNat_lt
  | bigInt v =>
    have hdt : col.dataType = .kBigInt := by simpa [Cell.fits] using hfit
    simpa [Cell.bits, fieldWidth, hdt, typeSize] using v.toUInt64.toNat_lt
  | float v =>
    have hdt : col.dataType = .kFloat := by simpa [Cell.fits] using hfit
    simpa [Cell.bits, fieldWidth, hdt, typeSize] using v.toNat_lt
  | double v =>
    have hdt : col.dataType = .kDouble := by simpa [Cell.fits] using hfit
    simpa [Cell.bits, fieldWidth, hdt, typeSize] using v.toNat_lt
  | date v =>
    have hdt : col.dataType = .kDate := by simpa [Cell.fits] using hfit
    simpa [Cell.bits, fieldWidth, hdt, typeSize] using v.toUInt32.toNat_lt
  | timestamp v =>
    have hdt : col.dataType = .kTimestamp := by simpa [Cell.fits] using hfit
    simpa [Cell.bits, fieldWidth, hdt, typeSize] using v.toUInt64.toNat_lt

/-! ## The layout as prefix sums

The fixed fields, the string positions and the string bodies are each packed
in column order, so each is a prefix sum over the columns (`PrefixSum`). -/

/-- `1` for a string column, the width of a column in the offset table. -/
def strFlag (c : ColumnDesc) : Nat := if isStringType c.dataType then 1 else 0

theorem strCount_take_eq (cols : List ColumnDesc) (j : Nat) :
    strCount (cols.take j) = prefixSum strFlag cols j := by
  have hsum : ∀ l : List ColumnDesc, strCount l = (l.map strFlag).sum := by
    intro l
    induction l with
    | nil => rfl
    | cons c l ih => simp [strFlag, ih]
  rw [hsum, prefixSum]

theorem fixedWidth_take_eq (cols : List ColumnDesc) (j : Nat) :
    fixedWidth (cols.take j) = prefixSum fieldWidth cols j := rfl

theorem strLength_take_eq (cells : List Cell) (j : Nat) :
    strLength (cells.take j) = prefixSum Cell.bodyLen cells j := rfl

/-- The string position grows by one at a string column and stays at any other. -/
theorem strCount_take_succ {cols : List ColumnDesc} {j : Nat} (hj : j < cols.length) :
    strCount (cols.take (j + 1)) = strCount (cols.take j) + strFlag cols[j] := by
  rw [strCount_take_eq, strCount_take_eq, prefixSum_succ _ _ hj]

theorem strCount_take_mono (cols : List ColumnDesc) {i j : Nat} (h : i ≤ j) :
    strCount (cols.take i) ≤ strCount (cols.take j) := by
  rw [strCount_take_eq, strCount_take_eq]
  exact prefixSum_mono _ _ h

/-- The string column before a string position `p + 1`. -/
theorem exists_prev_string {cols : List ColumnDesc} {j p : Nat}
    (h : strCount (cols.take j) = p + 1) :
    ∃ i, i < j ∧ ∃ hi : i < cols.length, isStringType cols[i].dataType = true ∧
      strCount (cols.take i) = p := by
  induction j with
  | zero => simp at h
  | succ j ih =>
    rcases Nat.lt_or_ge j cols.length with hj | hj
    · rw [strCount_take_succ hj] at h
      by_cases hs : isStringType cols[j].dataType
      · -- column `j` is the string column sought
        exact ⟨j, by omega, hj, hs, by simp [strFlag, hs] at h; omega⟩
      · obtain ⟨i, hij, hi, his, hp⟩ := ih (by simpa [strFlag, hs] using h)
        exact ⟨i, by omega, hi, his, hp⟩
    · -- past the end nothing changes
      rw [List.take_of_length_le (by omega)] at h
      obtain ⟨i, hij, hi, his, hp⟩ := ih (by rwa [List.take_of_length_le hj])
      exact ⟨i, by omega, hi, his, hp⟩

section Layout

variable {schema : Schema} {cells : List Cell} {size : Nat}

/-- Between two columns of the same string position the cells have no body. -/
theorem strLength_eq_of_strCount_eq (hfit : Fits schema cells) {i j : Nat} (hij : i ≤ j)
    (h : strCount (schema.take i) = strCount (schema.take j)) :
    strLength (cells.take i) = strLength (cells.take j) := by
  rw [strLength_take_eq, strLength_take_eq]
  apply prefixSum_eq_of_eq_zero _ _ hij
  intro m hm him hmj
  have hms : m < schema.length := hfit.length_eq ▸ hm
  have hflag : strFlag schema[m] = 0 := by
    rw [strCount_take_eq, strCount_take_eq] at h
    exact eq_zero_of_prefixSum_eq _ _ h hms him hmj
  have hs : isStringType schema[m].dataType = false := by
    simpa [strFlag] using hflag
  exact Cell.bodyLen_of_not_string (hfit.cell m _ _ (by simp) (by simp)) hs

theorem strStart_succ (schema : Schema) (size : Nat) {j : Nat} (hj : j < cells.length) :
    strStart schema cells size (j + 1) = strStart schema cells size j + cells[j].bodyLen := by
  simp only [strStart, strLength_take_eq, prefixSum_succ _ _ hj]
  omega

theorem strStart_mono (schema : Schema) (cells : List Cell) (size : Nat) {i j : Nat} (h : i ≤ j) :
    strStart schema cells size i ≤ strStart schema cells size j := by
  simp only [strStart, strLength_take_eq]
  have := prefixSum_mono Cell.bodyLen cells h
  omega

theorem strStart_le (schema : Schema) (cells : List Cell) (size j : Nat) :
    strStart schema cells size j ≤ bodyStart schema size + strLength cells := by
  simp only [strStart, strLength_take_eq]
  have := prefixSum_le_sum Cell.bodyLen cells j
  simp only [strLength]
  omega

/-- The fixed field of a column ends before the offset table. -/
theorem fixedWidth_take_add_le {j : Nat} (hj : j < schema.length) :
    fixedWidth (schema.take j) + fieldWidth schema[j] ≤ fixedWidth schema := by
  rw [fixedWidth_take_eq, ← prefixSum_succ _ _ hj]
  exact prefixSum_le_sum _ _ _

/-- The fixed fields of two columns do not overlap. -/
theorem fixedWidth_take_add_le_of_lt {i j : Nat} (hi : i < schema.length) (hij : i < j) :
    fixedWidth (schema.take i) + fieldWidth schema[i] ≤ fixedWidth (schema.take j) := by
  rw [fixedWidth_take_eq, fixedWidth_take_eq]
  exact prefixSum_add_le _ _ hi hij

/-- Slot `p` of the offset table ends before the string bodies. -/
theorem slot_end_le (schema : Schema) (size : Nat) {p : Nat} (hp : p < strCount schema) :
    strTableStart schema + getAddrLength size * p + getAddrLength size ≤ bodyStart schema size := by
  have := Nat.mul_le_mul_left (getAddrLength size) (show p + 1 ≤ strCount schema by omega)
  simp only [bodyStart]
  rw [Nat.mul_succ] at this
  omega

/-- Two slots of the offset table do not overlap. -/
theorem slot_end_le_of_lt (schema : Schema) (size : Nat) {p q : Nat} (hpq : p < q) :
    strTableStart schema + getAddrLength size * p + getAddrLength size ≤
      strTableStart schema + getAddrLength size * q := by
  have := Nat.mul_le_mul_left (getAddrLength size) (show p + 1 ≤ q by omega)
  rw [Nat.mul_succ] at this
  omega

end Layout

/-! ## The offset table -/

/-- `readStrOffset` is a big-endian load in the three-byte form and a
little-endian one otherwise. -/
theorem readStrOffset_eq (row : List UInt8) (start slot addrSpace : Nat) :
    RowView.readStrOffset row start slot addrSpace =
      if addrSpace = 3 then readBE row (start + addrSpace * slot) 3
      else readLE row (start + addrSpace * slot) addrSpace := by
  unfold RowView.readStrOffset
  rw [Nat.mul_comm slot addrSpace, readBE_three]

theorem readStrOffset_congr {a a' : List UInt8} {start slot addrSpace : Nat}
    (h : ∀ i, start + addrSpace * slot ≤ i → i < start + addrSpace * slot + addrSpace →
      byteAt a i = byteAt a' i) :
    RowView.readStrOffset a start slot addrSpace = RowView.readStrOffset a' start slot addrSpace := by
  rw [readStrOffset_eq, readStrOffset_eq]
  split
  · next h3 => subst h3; exact readBE_congr h
  · exact readLE_congr h

namespace RowBuilder

variable {b : RowBuilder} {p : Nat}

/-- What `SetStrOffset(p)` stores into a slot of the table: `str_offset_`, in
`str_addr_length_` bytes, big-endian in the three-byte form. -/
theorem setStrOffset_buf_of_lt (hp : p < b.strFieldCnt) (hA : 0 < b.strAddrLength)
    (hA4 : b.strAddrLength ≤ 4) :
    (b.setStrOffset p).buf =
      if b.strAddrLength = 3 then
        writeBE b.buf (b.strFieldStartOffset + b.strAddrLength * p) 3 b.strOffset
      else writeLE b.buf (b.strFieldStartOffset + b.strAddrLength * p) b.strAddrLength b.strOffset := by
  unfold setStrOffset
  rw [if_neg (by omega)]
  -- one case per width; the four-byte store is the `else` branch of the source
  obtain h | h | h | h : b.strAddrLength = 1 ∨ b.strAddrLength = 2 ∨ b.strAddrLength = 3 ∨
      b.strAddrLength = 4 := by omega
  · simp [h]
  · simp [h]
  · rw [if_neg (by omega), if_neg (by omega), if_pos h, if_pos h]
    exact writeBE_three _ _ _
  · simp [h]

/-- `SetStrOffset(p)` stores to slot `p` only, and to nothing past the table. -/
theorem byteAt_setStrOffset_outside {i : Nat} (hA : 0 < b.strAddrLength) (hA4 : b.strAddrLength ≤ 4)
    (h : p < b.strFieldCnt → i < b.strFieldStartOffset + b.strAddrLength * p ∨
      b.strFieldStartOffset + b.strAddrLength * p + b.strAddrLength ≤ i) :
    byteAt (b.setStrOffset p).buf i = byteAt b.buf i := by
  by_cases hp : p < b.strFieldCnt
  · rw [setStrOffset_buf_of_lt hp hA hA4]
    have h := h hp
    split
    · next h3 => exact byteAt_writeBE_outside (by omega)
    · exact byteAt_writeLE_outside h
  · unfold setStrOffset
    rw [if_pos (by omega)]

/-- The view reads back the offset `SetStrOffset` stored. -/
theorem readStrOffset_setStrOffset (hp : p < b.strFieldCnt) (hA : 0 < b.strAddrLength)
    (hA4 : b.strAddrLength ≤ 4)
    (hlen : b.strFieldStartOffset + b.strAddrLength * p + b.strAddrLength ≤ b.buf.length)
    (hv : b.strOffset < 256 ^ b.strAddrLength) :
    RowView.readStrOffset (b.setStrOffset p).buf b.strFieldStartOffset p b.strAddrLength =
      b.strOffset := by
  rw [readStrOffset_eq, setStrOffset_buf_of_lt hp hA hA4]
  by_cases h3 : b.strAddrLength = 3
  · rw [if_pos h3, if_pos h3]
    have hv3 : b.strOffset < 256 ^ 3 := h3 ▸ hv
    exact readBE_writeBE_of_lt (by omega) hv3
  · rw [if_neg h3, if_neg h3]
    exact readLE_writeLE_of_lt hlen hv

end RowBuilder

end Fedb.Codec
