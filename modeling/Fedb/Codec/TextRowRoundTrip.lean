import Fedb.Codec.TextRow
import Fedb.Codec.RowRoundTrip

/-! # Text row codec round trip

A caller of the text codec writes one text per column: `null` for NULL, or
the canonical text of a value of the column's type (`TextCell.text`). The
texts go in through `RowCodec::EncodeRow` and come back out of
`RowCodec::DecodeRow` as they went in, with `NONETOKEN` for each `null`
(`textRow_round_trip`).

The proof rests on the binary round trip of `RowWriter` and `RowFormat`.
`AppendValue` on a canonical text is the `Append<Type>` call of the value it
parses to (`appendValue_text`), so the loop of `EncodeRow` is the builder's run
(`encodeRowLoop_built`). `GetStrValue` on a row that holds a value prints its
canonical text (`decodeColumn_of_encodes`). What is left is arithmetic: the
decimal text parses back to its number, an integer of the column's range
survives the cast to the column's type and back, and the date's bit fields
come apart again.

`SDKCodec` decodes with the schema that the row's version byte selects. That
schema is the one it encoded with only if its version map sends the last
version to the whole schema, as the name server keeps it; a table with an
added column and no schema version loses that column (`textRow_round_trip_breaks`).
-/

namespace Fedb.Codec

open ByteBuffer

/-! ## The canonical texts of values -/

/-- A value of a column as a caller of the text codec writes it. -/
inductive TextCell
  | null
  | bool (v : Bool)
  | int (v : Int)
  | date (year month day : Nat)
  | str (v : List UInt8)
  deriving DecidableEq, Repr

namespace TextCell

/-- The width of an integer column's type. -/
def intBits : DataType → Option Nat
  | .kSmallInt => some 16
  | .kInt => some 32
  | .kBigInt | .kTimestamp => some 64
  | _ => none

/-- A value fits a column: NULL only where the column is nullable, an integer
in the range of the column's type, a date with `1900 ≤ year ≤ 9999`,
`1 ≤ month ≤ 12` and `1 ≤ day ≤ 31`, a string other than `null` and
`NONETOKEN`. A `float` or `double` column takes NULL only. -/
def fits (col : ColumnDesc) : TextCell → Bool
  | .null => !col.notNull
  | .bool _ => col.dataType == .kBool
  | .int v =>
    match intBits col.dataType with
    | some w => decide (-(2 ^ (w - 1) : Int) ≤ v ∧ v < 2 ^ (w - 1))
    | none => false
  | .date year month day =>
    col.dataType == .kDate &&
      decide (1900 ≤ year ∧ year ≤ 9999 ∧ 1 ≤ month ∧ month ≤ 12 ∧ 1 ≤ day ∧ day ≤ 31)
  | .str v => isStringType col.dataType && !isNullText v

/-- The canonical text of a value: `null`, `true` or `false`, an integer in
decimal without leading zeros or `+`, a date as `year-month-day` without
padding, a string as its bytes. -/
def text : TextCell → List UInt8
  | .null => nullText
  | .bool v => if v then trueText else falseText
  | .int v => Decimal.ofInt v
  | .date year month day =>
    Decimal.ofNat year ++ [45] ++ Decimal.ofNat month ++ [45] ++ Decimal.ofNat day
  | .str v => v

/-- The text read back: the canonical text, `NONETOKEN` for NULL. -/
def decoded : TextCell → List UInt8
  | .null => NONETOKEN
  | c => c.text

/-- The encoding `SetDate(index, year, month, day)` stores. -/
def dateBits (year month day : Nat) : Nat := ((year - 1900) <<< 16) ||| ((month - 1) <<< 8) ||| day

/-- The binary cell a value is stored as in a column of type `t`. -/
def toCell (t : DataType) : TextCell → Cell
  | .null => .null
  | .bool v => .bool v
  | .int v =>
    match t with
    | .kSmallInt => .smallInt (Int16.ofInt v)
    | .kInt => .int (Int32.ofInt v)
    | .kBigInt => .bigInt (Int64.ofInt v)
    | _ => .timestamp (Int64.ofInt v)
  | .date year month day => .date (Int32.ofNat (dateBits year month day))
  | .str v => .str v

end TextCell

/-- The cells a row of values is stored as. -/
def textCells (schema : Schema) (texts : List TextCell) : List Cell :=
  List.zipWith (fun col t => t.toCell col.dataType) schema texts

/-! ## Facts about the texts -/

namespace TextCell

theorem fits_toCell {col : ColumnDesc} {t : TextCell} (h : t.fits col = true) :
    (t.toCell col.dataType).fits col = true := by
  cases t with
  | int v => cases hc : col.dataType <;> simp_all [fits, intBits, toCell, Cell.fits]
  | _ => cases hc : col.dataType <;> simp_all [fits, toCell, Cell.fits]

theorem toCell_ne_null {t : TextCell} (h : t ≠ .null) (ty : DataType) : t.toCell ty ≠ .null := by
  cases t with
  | null => exact absurd rfl h
  | int v => cases ty <;> simp [toCell]
  | _ => simp [toCell]

theorem dateBits_eq {year month day : Nat} (hm : month - 1 < 256) (hd : day < 256) :
    dateBits year month day = ((year - 1900) * 256 + (month - 1)) * 256 + day := by
  have hhigh : (year - 1900) <<< 16 ||| (month - 1) <<< 8 = ((year - 1900) <<< 8 + (month - 1)) <<< 8 := by
    rw [Nat.shiftLeft_add_eq_or_of_lt (show month - 1 < 2 ^ 8 from hm), Nat.shiftLeft_or_distrib,
      ← Nat.shiftLeft_add]
  rw [dateBits, hhigh, ← Nat.shiftLeft_add_eq_or_of_lt (show day < 2 ^ 8 from hd),
    Nat.shiftLeft_eq, Nat.shiftLeft_eq]

/-- A canonical text is never `null` or `NONETOKEN`, except NULL's own. -/
theorem isNullText_text {col : ColumnDesc} {t : TextCell} (h : t.fits col = true) (hnn : t ≠ .null) :
    isNullText t.text = false := by
  -- a number's text starts with `-` or a digit, neither `n` nor `!`
  have hnum : ∀ (c : UInt8) cs, (c = 45 ∨ Decimal.isDigit c = true) → isNullText (c :: cs) = false := by
    intro c cs hc
    rcases hc with rfl | hc
    · rfl
    · have h110 : c ≠ 110 := fun h => by subst h; exact absurd hc (by decide)
      have h33 : c ≠ 33 := fun h => by subst h; exact absurd hc (by decide)
      simp [isNullText, nullText, NONETOKEN, h110, h33]
  cases t with
  | null => exact absurd rfl hnn
  | bool v => cases v <;> rfl
  | int v =>
    show isNullText (Decimal.ofInt v) = false
    unfold Decimal.ofInt
    split
    · exact hnum 45 _ (Or.inl rfl)
    · obtain ⟨c, cs, hcs, hc⟩ := Decimal.exists_head_ofNat v.toNat
      rw [hcs]
      exact hnum c cs (Or.inr hc)
  | date y m d =>
    obtain ⟨c, cs, hcs, hc⟩ := Decimal.exists_head_ofNat y
    simp only [text, hcs, List.cons_append]
    exact hnum c _ (Or.inr hc)
  | str v =>
    simp only [fits, Bool.and_eq_true, Bool.not_eq_true'] at h
    exact h.2

/-- A value in a string column is NULL or a string. -/
theorem exists_str_of_fits {col : ColumnDesc} {t : TextCell} (h : t.fits col = true)
    (hs : isStringType col.dataType = true) (hnn : t ≠ .null) : ∃ v, t = .str v := by
  cases t with
  | null => exact absurd rfl hnn
  | str v => exact ⟨v, rfl⟩
  | int v => cases hc : col.dataType <;> simp_all [fits, intBits, isStringType]
  | _ => cases hc : col.dataType <;> simp_all [fits, isStringType]

end TextCell

theorem getElem?_textCells {schema : Schema} {texts : List TextCell} {j : Nat} {col : ColumnDesc}
    {t : TextCell} (hcol : schema[j]? = some col) (ht : texts[j]? = some t) :
    (textCells schema texts)[j]? = some (t.toCell col.dataType) := by
  simp [textCells, List.getElem?_zipWith, hcol, ht]

theorem forall₂_textCells {schema : Schema} {texts : List TextCell}
    (h : List.Forall₂ (fun col t => t.fits col = true) schema texts) :
    List.Forall₂ (fun col c => c.fits col = true) schema (textCells schema texts) := by
  induction h with
  | nil => exact .nil
  | cons hhead _ ih => exact .cons (TextCell.fits_toCell hhead) ih

/-! ## The date's text -/

theorem splitStringLoop_append {delim : UInt8} {xs : List UInt8} (h : delim ∉ xs)
    (rest tmp : List UInt8) :
    splitStringLoop delim (xs ++ rest) tmp = splitStringLoop delim rest (tmp ++ xs) := by
  induction xs generalizing tmp with
  | nil => simp
  | cons x xs ih =>
    have hx : x ≠ delim := fun hx => h (hx ▸ List.mem_cons_self)
    rw [List.cons_append, splitStringLoop, if_neg hx, ih (fun hm => h (List.mem_cons_of_mem _ hm))]
    simp

/-- A non-empty piece followed by the delimiter. -/
theorem splitStringLoop_piece {delim : UInt8} {xs : List UInt8} (h : delim ∉ xs) (hne : xs ≠ [])
    (rest : List UInt8) :
    splitStringLoop delim (xs ++ delim :: rest) [] = xs :: splitStringLoop delim rest [] := by
  rw [splitStringLoop_append h, List.nil_append, splitStringLoop, if_pos rfl,
    List.isEmpty_eq_false_iff.2 hne]
  rfl

/-- The last piece, with no delimiter after it. -/
theorem splitStringLoop_last {delim : UInt8} {xs : List UInt8} (h : delim ∉ xs) (hne : xs ≠ []) :
    splitStringLoop delim xs [] = [xs] := by
  rw [← List.append_nil xs, splitStringLoop_append h, List.nil_append, splitStringLoop,
    List.append_nil, List.isEmpty_eq_false_iff.2 hne]
  rfl

/-- `year-month-day` splits at its two `-` into its three numbers. -/
theorem splitString_date (year month day : Nat) :
    splitString (Decimal.ofNat year ++ [45] ++ Decimal.ofNat month ++ [45] ++ Decimal.ofNat day) 45 =
      [Decimal.ofNat year, Decimal.ofNat month, Decimal.ofNat day] := by
  have hno : ∀ n, (45 : UInt8) ∉ Decimal.ofNat n := fun n =>
    Decimal.not_mem_ofNat_of_not_isDigit (by decide)
  simp only [splitString, List.append_assoc, List.cons_append, List.nil_append]
  rw [splitStringLoop_piece (hno year) (Decimal.ofNat_ne_nil year),
    splitStringLoop_piece (hno month) (Decimal.ofNat_ne_nil month),
    splitStringLoop_last (hno day) (Decimal.ofNat_ne_nil day)]

/-! ## `AppendValue` on a canonical text -/

theorem TextCell.dateBits_lt {year month day : Nat} (hy : year ≤ 9999) (hm : 1 ≤ month ∧ month ≤ 12)
    (hd : day ≤ 31) : TextCell.dateBits year month day < 2 ^ 31 := by
  rw [TextCell.dateBits_eq (by omega) (by omega)]
  omega

/-- `SetDate(index, year, month, day)` in range stores what `SetDate(index,
date)` stores for the encoded date: it writes the field before it clears the
null bit, which lies in another byte. -/
theorem RowBuilder.setDateYMD_eq_setDate {b : RowBuilder} {index year month day : Nat}
    (hoff : headerLength + (index >>> 3) < b.offsetVec.getD index 0)
    (hy : 1900 ≤ year ∧ year ≤ 9999) (hm : 1 ≤ month ∧ month ≤ 12) (hd : 1 ≤ day ∧ day ≤ 31) :
    b.setDateYMD index year month day =
      b.setDate index (Int32.ofNat (TextCell.dateBits year month day)) := by
  have hbits : (Int32.ofNat (TextCell.dateBits year month day)).toUInt32.toNat =
      TextCell.dateBits year month day := by
    have := TextCell.dateBits_lt hy.2 hm hd.2
    simp
    omega
  unfold RowBuilder.setDateYMD RowBuilder.setDate RowBuilder.setFixed
  rw [if_neg (by omega), if_neg (by omega), if_neg (by omega)]
  by_cases hc : b.check index .kDate
  · simp only [hc, Bool.not_true, Bool.false_eq_true, if_false, if_true, hbits]
    -- the null bit's byte is below the field
    simp only [RowBuilder.setField]
    rw [writeLE_modifyByte_comm _ (Or.inl hoff)]
    rfl
  · simp [hc]

/-- `AppendValue` on the canonical text of a value that fits column `k` is
the `Append<Type>` call of the value. -/
theorem appendValue_text {tc : TextConv} (hc : tc.ReadsDecimal) {schema : Schema} {cells : List Cell}
    {size k : Nat} {b : RowBuilder} {col : ColumnDesc} (hb : Built schema cells size k b)
    (hcol : schema[k]? = some col)
    {t : TextCell} (hfit : t.fits col = true) (hnn : t ≠ .null) :
    b.appendValue tc t.text = b.appendCell (t.toCell col.dataType) := by
  have hsc : b.schema[b.cnt]? = some col := by rw [hb.schema_eq, hb.cnt_eq]; exact hcol
  unfold RowBuilder.appendValue
  rw [hsc]
  dsimp only
  cases t with
  | null => exact absurd rfl hnn
  | bool v =>
    have hdt : col.dataType = .kBool := by simpa [TextCell.fits] using hfit
    rw [hdt]
    cases v <;> rfl
  | int v =>
    -- the text parses back to `v`, in the range of the column's type
    simp only [TextCell.text]
    cases hdt : col.dataType <;>
      simp only [TextCell.fits, TextCell.intBits, hdt, decide_eq_true_eq, reduceCtorEq] at hfit <;>
      dsimp only <;>
      rw [hc.toSigned_ofInt (by decide) (by simpa using hfit.1) (by simpa using hfit.2)] <;>
      rfl
  | date y m d =>
    have hdt : col.dataType = .kDate := by simp_all [TextCell.fits]
    have hr : 1900 ≤ y ∧ y ≤ 9999 ∧ 1 ≤ m ∧ m ≤ 12 ∧ 1 ≤ d ∧ d ≤ 31 := by
      simpa [TextCell.fits, hdt] using hfit
    have hk : k < schema.length := (List.getElem?_eq_some_iff.1 hcol).1
    -- the date's field lies past the bitmap, so past the null bit's byte
    have hoff : headerLength + (b.cnt >>> 3) < b.offsetVec.getD b.cnt 0 := by
      rw [hb.cnt_eq, hb.offsetVec_eq, layout_getD_fixed hcol (by simp [hdt, isStringType])]
      have := bitmap_byte_lt hk
      omega
    rw [hdt]
    simp only [TextCell.text, splitString_date, List.length_cons, List.length_nil]
    simp only [List.getD_cons_zero, List.getD_cons_succ, hc.toUnsigned_ofNat (show y < 2 ^ 32 by omega),
      hc.toUnsigned_ofNat (show m < 2 ^ 32 by omega), hc.toUnsigned_ofNat (show d < 2 ^ 32 by omega),
      Option.bind_some, ne_eq, not_true_eq_false, if_false]
    rw [RowBuilder.appendDateYMD, RowBuilder.setDateYMD_eq_setDate hoff ⟨hr.1, hr.2.1⟩
      ⟨hr.2.2.1, hr.2.2.2.1⟩ ⟨hr.2.2.2.2.1, hr.2.2.2.2.2⟩]
    rfl
  | str v =>
    have hs : isStringType col.dataType = true := by simp_all [TextCell.fits]
    rcases (isStringType_iff _).1 hs with hv | hv <;> rw [hv] <;> rfl

/-! ## `EncodeRow` on canonical texts -/

section Encode

variable {schema : Schema} {texts : List TextCell} {size : Nat}

theorem length_textCells (hfit : List.Forall₂ (fun col t => t.fits col = true) schema texts) :
    (textCells schema texts).length = texts.length := by
  simp [textCells, hfit.length_eq]

/-- `CalStrLength` sums the lengths of the strings in an `int32_t`. -/
theorem calStrLengthLoop_text (hfit : List.Forall₂ (fun col t => t.fits col = true) schema texts) :
    ∀ acc, calStrLengthLoop schema (texts.map TextCell.text) acc =
      acc + Int32.ofNat (strLength (textCells schema texts)) := by
  induction hfit with
  | nil => intro acc; simp [calStrLengthLoop, textCells, strLength]
  | @cons col t cols ts hhead _ ih =>
    intro acc
    have hcells : strLength (textCells (col :: cols) (t :: ts)) =
        (t.toCell col.dataType).bodyLen + strLength (textCells cols ts) := by
      simp [textCells, strLength]
    rw [hcells, Int32.ofNat_add, ← Int32.add_assoc]
    by_cases hs : isStringType col.dataType
    · by_cases hnull : t = .null
      · -- a NULL string counts nothing
        subst hnull
        have hn : col.notNull = false := by simpa [TextCell.fits] using hhead
        simp only [List.map_cons, calStrLengthLoop, hs, if_true, hn, Bool.not_false, TextCell.text,
          show isNullText nullText = true from rfl, Bool.and_self, TextCell.toCell, Cell.bodyLen]
        rw [ih]
        simp
      · -- a string counts its length
        obtain ⟨v, rfl⟩ := TextCell.exists_str_of_fits hhead hs hnull
        have hv : isNullText v = false := TextCell.isNullText_text hhead hnull
        simp only [List.map_cons, calStrLengthLoop, hs, if_true, TextCell.text, hv, Bool.and_false,
          Bool.false_eq_true, if_false, TextCell.toCell, Cell.bodyLen]
        rw [ih]
    · have hbody : (t.toCell col.dataType).bodyLen = 0 :=
        Cell.bodyLen_of_not_string (TextCell.fits_toCell hhead) (by simpa using hs)
      simp only [List.map_cons, calStrLengthLoop, hs, Bool.false_eq_true, if_false, hbody]
      rw [ih]
      simp

/-- The run lemma of `EncodeRow`'s loop: from the builder of the first `k`
columns, every remaining text goes in, the builder ends with the whole row,
and the header stays as `SetBuffer` wrote it. -/
theorem encodeRowLoop_built {tc : TextConv} (hc : tc.ReadsDecimal) (hr : RowShape schema (textCells schema texts) size)
    (hfit : List.Forall₂ (fun col t => t.fits col = true) schema texts) :
    ∀ m k (b : RowBuilder), k + m = texts.length → Built schema (textCells schema texts) size k b →
      ∃ b', encodeRowLoop tc (schema.drop k) ((texts.drop k).map TextCell.text) k b = (.ok, b') ∧
        Built schema (textCells schema texts) size (textCells schema texts).length b' ∧
        ∀ i < headerLength, byteAt b'.buf i = byteAt b.buf i := by
  have hlen := length_textCells hfit
  intro m
  induction m with
  | zero =>
    intro k b hkm hb
    rw [List.drop_of_length_le (by rw [hfit.length_eq]; omega),
      List.drop_of_length_le (by omega)]
    exact ⟨b, by cases schema.drop k <;> rfl, by rwa [hlen, ← hkm], fun _ _ => rfl⟩
  | succ m ih =>
    intro k b hkm hb
    have hk : k < texts.length := by omega
    have hks : k < schema.length := hfit.length_eq ▸ hk
    have hcol : schema[k]? = some schema[k] := List.getElem?_eq_getElem hks
    have ht : texts[k]? = some texts[k] := List.getElem?_eq_getElem hk
    have hhead : texts[k].fits schema[k] = true := (List.forall₂_iff_get.1 hfit).2 k hks hk
    have hcell : (textCells schema texts)[k] = texts[k].toCell schema[k].dataType := by
      have := getElem?_textCells hcol ht
      rw [List.getElem?_eq_getElem (by omega)] at this
      exact Option.some.inj this
    obtain ⟨b1, hb1, hbuilt1⟩ := built_appendCell hr hb (by omega)
    obtain ⟨b', hb', hbuilt', hhdr'⟩ := ih (k + 1) b1 (by omega) hbuilt1
    refine ⟨b', ?_, hbuilt', fun i hi => (hhdr' i hi).trans
      (byteAt_appendCell_header hr hb (by omega) hb1 hi)⟩
    rw [List.drop_eq_getElem_cons hks, List.drop_eq_getElem_cons hk, List.map_cons]
    rw [hcell] at hb1
    by_cases hnull : texts[k] = .null
    · -- a NULL text: `AppendNULL`, which the builder's run took too
      have hn : schema[k].notNull = false := by
        have := hhead
        rw [hnull] at this
        simpa [TextCell.fits] using this
      rw [hnull] at hb1
      simp only [encodeRowLoop, hnull, TextCell.text, hn, Bool.not_false,
        show isNullText nullText = true from rfl, Bool.and_self, if_true]
      rw [show b.appendNULL = some b1 from hb1, Option.getD_some]
      exact hb'
    · -- any other text: `AppendValue`, the builder's `Append<Type>`
      have hv : isNullText texts[k].text = false := TextCell.isNullText_text hhead hnull
      simp only [encodeRowLoop, hv, Bool.and_false, Bool.false_eq_true, if_false]
      rw [appendValue_text hc hb hcol hhead hnull, hb1]
      exact hb'

/-- `EncodeRow` on the canonical texts of a row of values succeeds: the row
it writes is the builder's row of their cells, under the version byte it was
given. -/
theorem encodeRow_text {tc : TextConv} (hc : tc.ReadsDecimal) (hschema : schema ≠ [])
    (hfit : List.Forall₂ (fun col t => t.fits col = true) schema texts)
    (hstr : strLength (textCells schema texts) < 2 ^ 31)
    (hlen : rowLength schema (strLength (textCells schema texts)) < 2 ^ 32)
    (version : Nat) (row : List UInt8) :
    ∃ b, encodeRow tc (texts.map TextCell.text) schema version row = (.ok, b.buf) ∧
      Built schema (textCells schema texts) (rowLength schema (strLength (textCells schema texts)))
        (textCells schema texts).length b ∧ byteAt b.buf 1 = UInt8.ofNat version := by
  have hfits := Fits.of_forall₂ (forall₂_textCells hfit)
  have hr := rowShape_rowLength hfits hschema hlen
  have hne : (texts.map TextCell.text).isEmpty = false := by
    have : texts ≠ [] := fun h => hschema (List.eq_nil_of_length_eq_zero (by rw [hfit.length_eq, h]; rfl))
    simpa using this
  -- the strings' length fits an `int32_t`
  have hcal : calStrLength (texts.map TextCell.text) schema =
      Int32.ofNat (strLength (textCells schema texts)) := by
    rw [calStrLength, if_neg (by simp [hfit.length_eq]), calStrLengthLoop_text hfit, Int32.zero_add]
  have hint : (Int32.ofNat (strLength (textCells schema texts))).toInt = strLength (textCells schema texts) :=
    Int32.toInt_ofNat_of_lt hstr
  have hpos : ¬ Int32.ofNat (strLength (textCells schema texts)) < 0 := by
    rw [Int32.lt_iff_toInt_lt, hint]
    simp
  obtain ⟨b0, hb0, hbuilt0, hver0⟩ := built_setBuffer_version hr
    (length_resize row (rowLength schema (strLength (textCells schema texts)))) (UInt8.ofNat version)
  obtain ⟨b, hb, hbuilt, hhdr⟩ := encodeRowLoop_built hc hr hfit texts.length 0 b0 (by omega) hbuilt0
  refine ⟨b, ?_, hbuilt, (hhdr 1 (by decide)).trans hver0⟩
  simp only [List.drop_zero] at hb
  rw [encodeRow, if_neg (by simp [hne, hfit.length_eq]), hcal, if_neg hpos]
  dsimp only
  rw [hint, Int.toNat_natCast, calTotalLength_new hschema hlen, hb0]
  dsimp only
  rw [hb]

end Encode

/-! ## `DecodeRow` on a row of values -/

/-- A view laid out for `schema` over `row`, whatever `Reset` made of its
size and validity: what the getters that take the row read. -/
structure RowView.LaidOut (v : RowView) (schema : Schema) (row : List UInt8) : Prop where
  schema_eq : v.schema = schema
  offsetVec_eq : v.offsetVec = (layout schema).1
  stringFieldCnt_eq : v.stringFieldCnt = strCount schema
  strFieldStartOffset_eq : v.strFieldStartOffset = strTableStart schema
  row_eq : v.row = row

/-- The constructor lays the view out at any size it is handed: a size that
`Reset` rejects only clears `is_valid_`, and the row stays. -/
theorem RowView.laidOut_new {schema : Schema} (hne : schema ≠ []) (row : List UInt8) (size : Nat) :
    (RowView.new schema row size).LaidOut schema row := by
  have hlen : schema.length ≠ 0 := by simpa using hne
  simp only [RowView.new, hlen, if_false, RowView.initOffsets_eq, RowView.reset]
  split_ifs <;>
    exact ⟨rfl, rfl, by simp [← layout_strCnt, layout], by simp [← layout_end, layout], rfl⟩

section Decode

variable (tc : TextConv) {schema : Schema} {cells : List Cell} {row : List UInt8} {size : Nat}
  {v : RowView}

/-- `GetValue(row, idx, type, val)` on a fixed-width column that holds a
value: its bits. -/
theorem getValue_of_encodes (h : Encodes schema cells row size) (hv : v.LaidOut schema row)
    {j : Nat} {col : ColumnDesc} {c : Cell} (hcol : schema[j]? = some col) (hc : cells[j]? = some c)
    (hs : isStringType col.dataType = false) (hnull : c ≠ .null) :
    v.getValue row j col.dataType = (0, some c.bits) := by
  have hfix := h.fixed j col c hcol hc hs hnull
  have hhdr : ¬ readLE row versionLength sizeLength ≤ headerLength := by
    rw [h.header]; have := h.header_lt; omega
  simp only [RowView.getValue, hv.schema_eq, hcol, ne_eq, not_true_eq_false, if_false, hhdr,
    h.nullBit j c hc, typeSize_of_fieldWidth hs, hv.offsetVec_eq, hfix]
  simp [hnull]

/-- `GetValue(row, idx, val, length)` on a string column that holds a value:
what `GetString` of the valid view reads, its bytes. -/
theorem getValueString_of_encodes (h : Encodes schema cells row size) (hne : schema ≠ [])
    (hv : v.LaidOut schema row) {j : Nat} {col : ColumnDesc} {s : List UInt8}
    (hcol : schema[j]? = some col) (hc : cells[j]? = some (.str s)) (hs : isStringType col.dataType = true) :
    v.getValueString row j = (0, some s) := by
  rw [← getString_of_encodes h hne hcol hc hs]
  have hhdr : ¬ readLE row versionLength sizeLength ≤ headerLength := by
    rw [h.header]; have := h.header_lt; omega
  have hvalid : (!RowView.checkValid (RowView.new schema row size) j .kVarchar &&
      !RowView.checkValid (RowView.new schema row size) j .kString) = false := by
    rw [RowView.new_of_encodes h hne]
    rcases (isStringType_iff _).1 hs with hd | hd <;> simp [RowView.checkValid, hcol, hd]
  unfold RowView.getValueString RowView.getString
  simp only [hvalid, Bool.false_eq_true, if_false]
  rw [RowView.new_of_encodes h hne, hv.schema_eq, hcol]
  dsimp only
  rw [if_neg (by simp [hs]), if_neg hhdr, hv.offsetVec_eq, hv.stringFieldCnt_eq,
    hv.strFieldStartOffset_eq, h.header]

/-- `DecodeRow` reads every column of a row of values back as the value's
text, `NONETOKEN` for NULL. -/
theorem decodeColumn_of_encodes {texts : List TextCell}
    (h : Encodes schema (textCells schema texts) row size) (hne : schema ≠ [])
    (hv : v.LaidOut schema row) {j : Nat} {col : ColumnDesc} {t : TextCell}
    (hcol : schema[j]? = some col) (ht : texts[j]? = some t) (hfit : t.fits col = true) :
    decodeColumn tc v false j = t.decoded := by
  have hc := getElem?_textCells hcol ht
  have hbit := h.nullBit j _ hc
  by_cases hnull : t = .null
  · subst hnull
    simp [decodeColumn, hv.row_eq, hbit, TextCell.toCell, TextCell.decoded]
  have hnn := TextCell.toCell_ne_null hnull col.dataType
  have hhdr : ¬ readLE row versionLength sizeLength ≤ headerLength := by
    rw [h.header]; have := h.header_lt; omega
  have hnot : RowView.isNULL row j = false := by rw [hbit]; exact beq_false_of_ne hnn
  -- the text `GetStrValue` prints for the value
  suffices hstr : v.getStrValue tc row j = (0, some t.text) by
    have hdec : t.decoded = t.text := by cases t <;> first | exact absurd rfl hnull | rfl
    simp [decodeColumn, hv.row_eq, hnot, hstr, hdec]
  have hfixed : isStringType col.dataType = false →
      v.getValue row j col.dataType = (0, some (t.toCell col.dataType).bits) :=
    fun hs => getValue_of_encodes h hv hcol hc hs hnn
  unfold RowView.getStrValue
  rw [hv.schema_eq, hcol]
  simp only [hhdr, if_false, hnot, Bool.false_eq_true]
  cases t with
  | null => exact absurd rfl hnull
  | bool b =>
    have hdt : col.dataType = .kBool := by simpa [TextCell.fits] using hfit
    have hf := hfixed (by simp [hdt, isStringType])
    rw [hdt] at hf ⊢
    cases b <;> simp [hf, TextCell.toCell, Cell.bits, TextCell.text]
  | int x =>
    -- the bits come back as the integer, which is in the range of the type
    cases hdt : col.dataType <;>
      simp only [TextCell.fits, TextCell.intBits, hdt, decide_eq_true_eq, reduceCtorEq] at hfit <;>
      have hf := hfixed (by simp [hdt, isStringType]) <;>
      rw [hdt] at hf <;>
      simp only [RowView.getInteger, hf, TextCell.toCell, Cell.bits, Option.map_some, Option.getD_some,
        if_true, UInt16.ofNat_toNat, Int16.toInt16_toUInt16, UInt32.ofNat_toNat, Int32.toInt32_toUInt32,
        UInt64.ofNat_toNat, Int64.toInt64_toUInt64, TextCell.text]
    · rw [Int16.toInt_ofInt, Int.bmod_eq_of_le (by simp [Int16.size]; omega) (by simp [Int16.size]; omega)]
    · rw [Int32.toInt_ofInt, Int.bmod_eq_of_le (by simp [Int32.size]; omega) (by simp [Int32.size]; omega)]
    · rw [Int64.toInt_ofInt, Int.bmod_eq_of_le (by simp [Int64.size]; omega) (by simp [Int64.size]; omega)]
    · rw [Int64.toInt_ofInt, Int.bmod_eq_of_le (by simp [Int64.size]; omega) (by simp [Int64.size]; omega)]
  | date y m d =>
    have hdt : col.dataType = .kDate := by simp_all [TextCell.fits]
    have hr : 1900 ≤ y ∧ y ≤ 9999 ∧ 1 ≤ m ∧ m ≤ 12 ∧ 1 ≤ d ∧ d ≤ 31 := by
      simpa [TextCell.fits, hdt] using hfit
    have hf := hfixed (by simp [hdt, isStringType])
    rw [hdt] at hf ⊢
    -- the stored date is positive, so its bit fields are its base-256 digits
    have hbits := @TextCell.dateBits_eq y _ _ (show m - 1 < 256 by omega) (show d < 256 by omega)
    have hdate : (Int32.ofNat (TextCell.dateBits y m d)).toInt = (TextCell.dateBits y m d : Int) :=
      Int32.toInt_ofNat_of_lt (TextCell.dateBits_lt hr.2.1 ⟨hr.2.2.1, hr.2.2.2.1⟩ hr.2.2.2.2.2)
    simp only [hf, TextCell.toCell, Cell.bits, Option.map_some, Option.getD_some, UInt32.ofNat_toNat,
      Int32.toInt32_toUInt32, TextCell.text]
    rw [hdate, hbits]
    have hday : (((((y - 1900) * 256 + (m - 1)) * 256 + d : Nat) : Int) % 256).toNat = d := by omega
    have hmon : 1 + (((((y - 1900) * 256 + (m - 1)) * 256 + d : Nat) : Int) / 256 % 256).toNat = m := by
      omega
    have hyear : ((1900 + ((((y - 1900) * 256 + (m - 1)) * 256 + d : Nat) : Int) / 256 / 256) %
        2 ^ 32).toNat = y := by omega
    rw [hday, hmon, hyear]
  | str x =>
    have hs : isStringType col.dataType = true := by simp_all [TextCell.fits]
    rcases (isStringType_iff _).1 hs with hd | hd <;>
      simp [hd, getValueString_of_encodes h hne hv hcol hc hs, TextCell.text]

/-- `DecodeRow(schema, rv, false, 0, |schema|, value_vec)` on a row of values
appends the texts of all of them. -/
theorem decodeRowView_of_encodes {texts : List TextCell}
    (h : Encodes schema (textCells schema texts) row size) (hne : schema ≠ [])
    (hfit : List.Forall₂ (fun col t => t.fits col = true) schema texts) (hv : v.LaidOut schema row)
    (valueVec : List (List UInt8)) :
    decodeRowView tc schema v false 0 schema.length valueVec =
      some (valueVec ++ texts.map TextCell.decoded) := by
  have hpos : 0 < schema.length := List.length_pos_iff.2 hne
  have hall : (List.range schema.length).takeWhile (fun (i : Nat) => (i : Int) < 0 + schema.length) =
      List.range schema.length :=
    List.takeWhile_eq_self_iff.2 fun i hi => by simp at hi; simp; omega
  rw [decodeRowView, if_neg (by omega), hall]
  congr 2
  apply List.ext_getElem (by simp [hfit.length_eq])
  intro i h1 h2
  have hi : i < schema.length := by simpa using h1
  rw [List.getElem_map, List.getElem_range, List.getElem_map]
  exact decodeColumn_of_encodes tc h hne hv (List.getElem?_eq_getElem hi)
    (List.getElem?_eq_getElem (by simpa using h2)) ((List.forall₂_iff_get.1 hfit).2 i hi (by simpa using h2))

end Decode

/-! ## The round trip -/

section RoundTrip

variable (tc : TextConv) {schema : Schema} {texts : List TextCell}

/-- Encoding the texts of a row of values under any version, then decoding
with a view of the row at any size, gives the texts back. -/
theorem encodeRow_decodeRowView (hc : tc.ReadsDecimal) (hschema : schema ≠ [])
    (hfit : List.Forall₂ (fun col t => t.fits col = true) schema texts)
    (hstr : strLength (textCells schema texts) < 2 ^ 31)
    (hlen : rowLength schema (strLength (textCells schema texts)) < 2 ^ 32)
    (version : Nat) (row : List UInt8) (valueVec : List (List UInt8)) :
    ∃ out, encodeRow tc (texts.map TextCell.text) schema version row = (.ok, out) ∧
      byteAt out 1 = UInt8.ofNat version ∧
      ∀ s, decodeRowView tc schema (RowView.new schema out s) false 0 schema.length valueVec =
        some (valueVec ++ texts.map TextCell.decoded) := by
  obtain ⟨b, hb, hbuilt, hver⟩ := encodeRow_text hc hschema hfit hstr hlen version row
  have henc := hbuilt.encodes (rowShape_rowLength (Fits.of_forall₂ (forall₂_textCells hfit)) hschema hlen)
  exact ⟨b.buf, hb, hver, fun s =>
    decodeRowView_of_encodes tc henc hschema hfit (RowView.laidOut_new hschema b.buf s) valueVec⟩

/-- The version byte `SetSchemaVersion` stores for `last_ver_`, passed as a
`uint32_t` and cut to a `uint8_t`. -/
theorem toNat_ofNat_version (x : Int) : ((UInt8.ofNat (x % 2 ^ 32).toNat).toNat : Int) = x % 256 := by
  rw [UInt8.toNat_ofNat']
  omega

end RoundTrip

/-! ## A conversion that reads decimal text

The round trips hold for every `lexical_cast` that reads the decimal text of
a number back (`TextConv.ReadsDecimal`). `decimalConv` is one: an optional
sign, then the digits of a number in the type's range; it converts nothing
else. -/

section Decimal

/-- The optional sign before the digits: whether it is `-` (45), and the
text after a `-` or a `+` (43). -/
def splitSign : List UInt8 → Bool × List UInt8
  | [] => (false, [])
  | c :: rest => if c = 45 then (true, rest) else if c = 43 then (false, rest) else (false, c :: rest)

/-- Decimal text to an unsigned number of `bits` bits: the digits must make a
number below `2^bits`; a `-` before them negates it modulo `2^bits`. -/
def decimalUnsigned (bits : Nat) (s : List UInt8) : Option Nat :=
  let r := splitSign s
  match Decimal.parse? r.2 with
  | some v => if v < 2 ^ bits then some (if r.1 then (2 ^ bits - v) % 2 ^ bits else v) else none
  | none => none

/-- Decimal text to a signed number of `bits` bits: the magnitude must be at
most `2^(bits-1)` after a `-` and below it otherwise. -/
def decimalSigned (bits : Nat) (s : List UInt8) : Option Int :=
  let r := splitSign s
  match Decimal.parse? r.2 with
  | some v =>
    if v < 2 ^ bits ∧ (if r.1 then v ≤ 2 ^ (bits - 1) else v < 2 ^ (bits - 1)) then
      some (if r.1 then -(v : Int) else v)
    else none
  | none => none

/-- The conversion that reads and prints decimal integers and converts
nothing else. -/
def decimalConv : TextConv where
  toSigned := decimalSigned
  toUnsigned := decimalUnsigned
  parseFloat _ := none
  parseDouble _ := none
  printFloat _ := []
  printDouble _ := []
  showInt := Decimal.ofInt
  showFloat _ := []
  showDouble _ := []
  mktime _ := none
  showDate _ := []

theorem splitSign_of_isDigit {c : UInt8} (h : Decimal.isDigit c = true) (cs : List UInt8) :
    splitSign (c :: cs) = (false, c :: cs) := by
  have h45 : c ≠ 45 := fun h' => by subst h'; exact absurd h (by decide)
  have h43 : c ≠ 43 := fun h' => by subst h'; exact absurd h (by decide)
  simp [splitSign, h45, h43]

theorem splitSign_ofNat (n : Nat) : splitSign (Decimal.ofNat n) = (false, Decimal.ofNat n) := by
  obtain ⟨c, cs, hcs, hc⟩ := Decimal.exists_head_ofNat n
  rw [hcs]
  exact splitSign_of_isDigit hc cs

theorem decimalUnsigned_ofNat {w n : Nat} (h : n < 2 ^ w) : decimalUnsigned w (Decimal.ofNat n) = some n := by
  simp [decimalUnsigned, splitSign_ofNat, h]

/-- An integer in the range of a signed type of `bits` bits reads back from
its text. -/
theorem decimalSigned_ofInt {bits : Nat} (hbits : 0 < bits) {v : Int} (hlo : -(2 ^ (bits - 1) : Int) ≤ v)
    (hhi : v < 2 ^ (bits - 1)) : decimalSigned bits (Decimal.ofInt v) = some v := by
  obtain ⟨w, rfl⟩ : ∃ w, bits = w + 1 := ⟨bits - 1, by omega⟩
  simp only [Nat.add_sub_cancel] at hlo hhi
  have hpow : ((2 ^ w : Nat) : Int) = 2 ^ w := by push_cast; rfl
  have hsucc : 2 ^ (w + 1) = 2 * 2 ^ w := by rw [Nat.pow_succ, Nat.mul_comm]
  unfold Decimal.ofInt
  by_cases hneg : v < 0
  · -- `-` and the digits of `|v|`, which is at most `2^w`
    have habs : v.natAbs ≤ 2 ^ w := by omega
    have hsign : splitSign (45 :: Decimal.ofNat v.natAbs) = (true, Decimal.ofNat v.natAbs) := by
      simp [splitSign]
    rw [if_pos hneg, decimalSigned, hsign]
    simp only [Decimal.parse?_ofNat, Nat.add_sub_cancel, if_true]
    rw [if_pos ⟨by omega, habs⟩]
    congr 1
    omega
  · have hnat : v.toNat < 2 ^ w := by omega
    rw [if_neg hneg, decimalSigned, splitSign_ofNat]
    simp only [Decimal.parse?_ofNat, Nat.add_sub_cancel, Bool.false_eq_true, if_false]
    rw [if_pos ⟨by omega, hnat⟩]
    congr 1
    omega

theorem decimalConv_readsDecimal : decimalConv.ReadsDecimal where
  toSigned_ofInt hbits hlo hhi := decimalSigned_ofInt hbits hlo hhi
  toUnsigned_ofNat h := decimalUnsigned_ofNat h

end Decimal

/-- **Text row codec round trip.** For every conversion that reads decimal
text back, every non-empty schema and every row of values that fit it, whose
strings are shorter than `2^31` bytes in all and whose row is shorter than
`2^32` bytes: `EncodeRow` of their canonical texts returns `ok`, and
`DecodeRow` gives the texts back, with `NONETOKEN` for each `null`. The same
holds through `SDKCodec` for a table whose columns are the schema and whose
version map sends the last version, as the row's version byte carries it, to
that schema. -/
theorem textRow_round_trip (tc : TextConv) (hc : tc.ReadsDecimal) (schema : Schema) (texts : List TextCell)
    (version : Nat) (row : List UInt8) (valueVec : List (List UInt8)) (hschema : schema ≠ [])
    (hfit : List.Forall₂ (fun col t => t.fits col = true) schema texts)
    (hstr : strLength (textCells schema texts) < 2 ^ 31)
    (hlen : rowLength schema (strLength (textCells schema texts)) < 2 ^ 32) :
    (encodeRow tc (texts.map TextCell.text) schema version row).1 = .ok ∧
    decodeRow tc schema (encodeRow tc (texts.map TextCell.text) schema version row).2 valueVec =
      some (valueVec ++ texts.map TextCell.decoded) ∧
    ∀ t : TableMeta, (SDKCodec.new t).schema = schema →
      (SDKCodec.new t).versionSchema.lookup ((SDKCodec.new t).lastVer % 256) = some schema →
      ((SDKCodec.new t).encodeRow tc (texts.map TextCell.text) row).1 = 0 ∧
      (SDKCodec.new t).decodeRow tc ((SDKCodec.new t).encodeRow tc (texts.map TextCell.text) row).2
        valueVec = (0, valueVec ++ texts.map TextCell.decoded) := by
  obtain ⟨out, hout, -, hdec⟩ := encodeRow_decodeRowView tc hc hschema hfit hstr hlen version row valueVec
  refine ⟨by rw [hout], by rw [hout]; exact hdec out.length, ?_⟩
  intro t hsch hmap
  -- `SDKCodec` encodes under `last_ver_`, and the row's version byte selects the schema back
  obtain ⟨out', hout', hver', hdec'⟩ := encodeRow_decodeRowView tc hc hschema hfit hstr hlen
    ((SDKCodec.new t).lastVer % 2 ^ 32).toNat row valueVec
  have henc : (SDKCodec.new t).encodeRow tc (texts.map TextCell.text) row = (0, out') := by
    rw [SDKCodec.encodeRow, hsch, hout']
    rfl
  have hlookup : (SDKCodec.new t).versionSchema.lookup ((byteAt out' 1).toNat : Int) = some schema := by
    rw [hver', toNat_ofNat_version, hmap]
  refine ⟨by rw [henc], ?_⟩
  rw [henc, SDKCodec.decodeRow, hlookup]
  dsimp only
  rw [hdec' schema.length]

/-- An `int` column and a nullable `varchar` column. -/
def intNullSchema : Schema := [⟨.kInt, true⟩, ⟨.kVarchar, false⟩]

/-- A table of those columns, with no column added and no schema version. -/
def intNullTable : TableMeta := ⟨intNullSchema, [], []⟩

/-- The round trip at the texts `-7` and `null`, directly and through the
`SDKCodec` of a table of the two columns. -/
theorem textRow_round_trip_int_null :
    decimalConv.ReadsDecimal ∧ intNullSchema ≠ [] ∧
    List.Forall₂ (fun col t => TextCell.fits col t = true) intNullSchema [.int (-7), .null] ∧
    strLength (textCells intNullSchema [.int (-7), .null]) < 2 ^ 31 ∧
    rowLength intNullSchema (strLength (textCells intNullSchema [.int (-7), .null])) < 2 ^ 32 ∧
    (SDKCodec.new intNullTable).schema = intNullSchema ∧
    (SDKCodec.new intNullTable).versionSchema.lookup ((SDKCodec.new intNullTable).lastVer % 256) =
      some intNullSchema ∧
    (encodeRow decimalConv ([TextCell.int (-7), .null].map TextCell.text) intNullSchema 1 []).1 = .ok ∧
    decodeRow decimalConv intNullSchema
        (encodeRow decimalConv ([TextCell.int (-7), .null].map TextCell.text) intNullSchema 1 []).2 [] =
      some ([] ++ [TextCell.int (-7), .null].map TextCell.decoded) ∧
    ((SDKCodec.new intNullTable).encodeRow decimalConv ([TextCell.int (-7), .null].map TextCell.text) []).1 = 0 ∧
    (SDKCodec.new intNullTable).decodeRow decimalConv
        ((SDKCodec.new intNullTable).encodeRow decimalConv ([TextCell.int (-7), .null].map TextCell.text) []).2
        [] = (0, [] ++ [TextCell.int (-7), .null].map TextCell.decoded) := by
  have hfit : List.Forall₂ (fun col t => TextCell.fits col t = true) intNullSchema [.int (-7), .null] :=
    .cons rfl (.cons rfl .nil)
  have hsch : (SDKCodec.new intNullTable).schema = intNullSchema := rfl
  have hmap : (SDKCodec.new intNullTable).versionSchema.lookup ((SDKCodec.new intNullTable).lastVer % 256) =
      some intNullSchema := by decide
  obtain ⟨henc, hdec, hsdk⟩ := textRow_round_trip decimalConv decimalConv_readsDecimal intNullSchema
    [.int (-7), .null] 1 [] [] (by decide) hfit (by decide) (by decide)
  exact ⟨decimalConv_readsDecimal, by decide, hfit, by decide, by decide, hsch, hmap, henc, hdec,
    hsdk intNullTable hsch hmap⟩

/-- A string of `2^31` bytes overflows the `int32_t` of `CalStrLength`, and
`EncodeRow` fails. -/
theorem encodeRow_long_string (tc : TextConv) {s : List UInt8} (hs : s.length = 2 ^ 31) (notNull : Bool)
    (version : Nat) (row : List UInt8) :
    (encodeRow tc [s] [⟨.kVarchar, notNull⟩] version row).1 = .calStrLenFailed := by
  have hnull : isNullText s = false := by
    have h1 : s ≠ nullText := fun h => absurd (h ▸ hs) (by decide)
    have h2 : s ≠ NONETOKEN := fun h => absurd (h ▸ hs) (by decide)
    simp [isNullText, h1, h2]
  have hcal : calStrLength [s] [⟨.kVarchar, notNull⟩] = Int32.ofNat (2 ^ 31) := by
    simp only [calStrLength, List.length_singleton, ne_eq, not_true_eq_false, if_false, calStrLengthLoop,
      isStringType, beq_self_eq_true, Bool.true_or, if_true, hnull, Bool.and_false, Bool.false_eq_true, hs,
      Int32.zero_add]
  simp only [encodeRow, List.isEmpty_cons, List.length_singleton, ne_eq, not_true_eq_false,
    decide_false, Bool.or_self, Bool.false_eq_true, if_false, hcal]
  rw [if_pos (by decide)]

/-- A table with a column added and no schema version loses that column:
with a conversion that reads decimal text, its `SDKCodec` encodes the row
`1, 2` under version `1`, which its version map holds, but for the first
column only, and decoding gives `1` alone. And a string of `2^31` bytes
makes `EncodeRow` fail. -/
theorem textRow_round_trip_breaks :
    decimalConv.ReadsDecimal ∧
    ((SDKCodec.new ⟨[⟨.kInt, false⟩], [⟨.kInt, false⟩], []⟩).encodeRow decimalConv [[49], [50]] []).1 = 0 ∧
    ((SDKCodec.new ⟨[⟨.kInt, false⟩], [⟨.kInt, false⟩], []⟩).versionSchema.lookup
      ((byteAt ((SDKCodec.new ⟨[⟨.kInt, false⟩], [⟨.kInt, false⟩], []⟩).encodeRow
        decimalConv [[49], [50]] []).2 1).toNat : Int)).isSome = true ∧
    (SDKCodec.new ⟨[⟨.kInt, false⟩], [⟨.kInt, false⟩], []⟩).decodeRow decimalConv
      ((SDKCodec.new ⟨[⟨.kInt, false⟩], [⟨.kInt, false⟩], []⟩).encodeRow decimalConv [[49], [50]] []).2 [] =
        (0, [[49]]) ∧
    (encodeRow decimalConv [List.replicate (2 ^ 31) 97] [⟨.kVarchar, false⟩] 1 []).1 = .calStrLenFailed :=
  ⟨decimalConv_readsDecimal, by decide, by decide, by decide,
    encodeRow_long_string _ List.length_replicate false 1 []⟩

end Fedb.Codec
