import Fedb.Codec.FlatArray

/-! # The flat-array round trip

The fields a client appends, as `Build()` writes them, are read back by
`FlatArrayIterator` one after the other: `Next()` reads each field's type and
length, the getter of its type its value, and past the last field the
iterator is no longer valid. The header is where the three width tests of
`FlatArrayCodec` and `FlatArrayIterator` meet: `Build()` and the reader agree
on its width, `GetSize()` may count one byte more, and the column count in a
two-byte header is read with the flag bit of a one-byte one.
-/

namespace Fedb.Codec

open ByteBuffer

/-! ## Appending: each field fills the next column -/

namespace FlatArrayCodec

/-- The codec after the fields `done` of `n` columns were appended. -/
def filled (buffer : List UInt8) (n : Nat) (modifyTimes : Int) (done : List Field) : FlatArrayCodec :=
  ⟨buffer, n, done.length, done.map Field.toColumn ++ List.replicate (n - done.length) default, modifyTimes⟩

theorem filled_nil (buffer : List UInt8) (n : Nat) (modifyTimes : Int) :
    filled buffer n modifyTimes [] = new buffer n modifyTimes := by
  simp [filled, new]

theorem modify_append_replicate {α : Type} (g : α → α) (d : α) (k : Nat) :
    ∀ A : List α, (A ++ List.replicate (k + 1) d).modify A.length g = A ++ g d :: List.replicate k d
  | [] => by rw [List.nil_append, List.replicate_succ, List.length_nil, List.modify_zero_cons, List.nil_append]
  | a :: A => by
    rw [List.cons_append, List.length_cons, List.modify_succ_cons, modify_append_replicate g d k A]
    rfl

/-- The append of a field that `Append` takes, where a column is left. -/
theorem appendField_eq (c : FlatArrayCodec) (f : Field) (hcur : c.curCnt < c.colCnt) (hfit : f.fits = true) :
    c.appendField f = some { c.encode f.type f.bytes with curCnt := c.curCnt + 1 } := by
  have hnot : ¬ c.curCnt ≥ c.colCnt := by omega
  cases f with
  | string v =>
    simp only [Field.fits, decide_eq_true_eq] at hfit
    have hlong : ¬ v.length > MAX_STRING_LENGTH := by omega
    -- an empty string is `kEmptyString` without bytes
    by_cases hv : v.isEmpty
    · have hnil : v = [] := List.isEmpty_iff.mp hv
      subst hnil
      simp [appendField, appendString, hnot, Field.type, Field.bytes]
    · simp [appendField, appendString, hnot, hlong, hv, Field.type, Field.bytes]
  | null => simp [appendField, appendNull, hnot, Field.type, Field.bytes]
  | _ => simp [appendField, appendFixed, appendBool, appendUInt16, appendInt16, appendFloat, appendInt32,
      appendInt64, appendUInt32, appendUInt64, appendTimestamp, appendDate, appendDouble, hnot, Field.type,
      Field.bytes]

/-- One more field appended fills the next column. -/
theorem appendField_filled (buffer : List UInt8) (n : Nat) (modifyTimes : Int) (done : List Field) (f : Field)
    (hroom : done.length < n) (hfit : f.fits = true) :
    (filled buffer n modifyTimes done).appendField f = some (filled buffer n modifyTimes (done ++ [f])) := by
  rw [appendField_eq _ f hroom hfit]
  obtain ⟨k, hk⟩ : ∃ k, n - done.length = k + 1 := ⟨n - done.length - 1, by omega⟩
  have hcol : (⟨f.type, if f.bytes.length ≠ 0 then f.bytes else (default : Column).buffer⟩ : Column) =
      f.toColumn := by
    by_cases h : f.bytes.length = 0
    · simp [Field.toColumn, List.length_eq_zero_iff.mp h]
      rfl
    · simp [Field.toColumn, h]
  simp only [filled, encode, hk, List.length_append, List.length_cons, List.length_nil]
  rw [← List.length_map (f := Field.toColumn), modify_append_replicate, hcol]
  simp only [List.map_append, List.map_cons, List.map_nil, List.append_assoc, List.cons_append,
    List.nil_append]
  have hk' : n - (done.length + 1) = k := by omega
  simp only [List.length_map, Nat.zero_add, hk']

/-- Every field of a list that fits the columns left is appended. -/
theorem appendFields_filled (buffer : List UInt8) (n : Nat) (modifyTimes : Int) :
    ∀ (done rest : List Field), done.length + rest.length ≤ n → (∀ f ∈ rest, f.fits = true) →
      (filled buffer n modifyTimes done).appendFields rest = some (filled buffer n modifyTimes (done ++ rest))
  | done, [], _, _ => by simp [appendFields]
  | done, f :: rest, hlen, hfit => by
    simp only [List.length_cons] at hlen
    rw [appendFields, appendField_filled buffer n modifyTimes done f (by omega) (hfit f List.mem_cons_self),
      Option.bind_some, appendFields_filled buffer n modifyTimes (done ++ [f]) rest (by simp; omega)
        fun g hg => hfit g (List.mem_cons_of_mem f hg)]
    simp

end FlatArrayCodec

/-! ## The bytes `Build()` writes -/

/-- The lengths of a field's bytes below `128`, and the two-byte form from
`128` to `2^15`, read back as `Next()` reads them. -/
theorem ofNat_and_0x80_of_lt : ∀ n : Fin 128, UInt8.ofNat n.val &&& 0x80 = 0 ∧ (UInt8.ofNat n.val).toNat = n.val := by
  decide

theorem high_byte_or_0x80 : ∀ hi : Fin 128,
    UInt8.ofNat (hi.val ||| 0x80) &&& 0x80 ≠ 0 ∧ (UInt8.ofNat (hi.val ||| 0x80) &&& 0x7F).toNat = hi.val := by
  decide

theorem length_sizeBytes {n : Nat} (h : n < 2 ^ 16) : (FlatArrayCodec.sizeBytes n).length = if n < 128 then 1 else 2 := by
  simp only [FlatArrayCodec.sizeBytes, Nat.mod_eq_of_lt h]
  split <;> rfl

theorem length_columnBytes (col : Column) (h : col.buffer.length < 2 ^ 16) :
    (FlatArrayCodec.columnBytes col).length =
      col.buffer.length + 1 + 1 + if col.buffer.length ≥ 128 then 1 else 0 := by
  simp only [FlatArrayCodec.columnBytes, List.cons_append, List.length_cons, List.length_append,
    length_sizeBytes h]
  split_ifs <;> omega

theorem length_columnBytes_eq (col : Column) :
    (FlatArrayCodec.columnBytes col).length = 1 + (FlatArrayCodec.sizeBytes col.buffer.length).length +
      col.buffer.length := by
  simp [FlatArrayCodec.columnBytes]
  omega

namespace Field

theorem length_bytes_le (f : Field) (h : f.fits = true) : f.bytes.length ≤ MAX_STRING_LENGTH := by
  cases f with
  | string v => simpa [fits, bytes] using h
  | _ => simp [bytes, MAX_STRING_LENGTH]

end Field

/-- The fields as `Build()` writes them, one after the other. -/
def fieldsBytes (fields : List Field) : List UInt8 :=
  (fields.map fun f => FlatArrayCodec.columnBytes f.toColumn).flatten

theorem fieldsBytes_cons (f : Field) (fields : List Field) :
    fieldsBytes (f :: fields) = FlatArrayCodec.columnBytes f.toColumn ++ fieldsBytes fields := by
  simp [fieldsBytes]

namespace FlatArrayCodec

theorem length_headerBytes (n : Nat) (m : Int) :
    (headerBytes n m).length = if (n : Int) - m ≥ 128 then 2 else 1 := by
  unfold headerBytes
  split_ifs <;> simp

/-- `GetSize()` of a codec with all its columns filled counts its header as
two bytes from `128` columns on, whatever `Build()` writes. -/
theorem getSize_filled (buffer : List UInt8) (modifyTimes : Int) (fields : List Field)
    (hfit : ∀ f ∈ fields, f.fits = true)
    (hsize : 1 + (if fields.length ≥ 128 then 1 else 0) + (fieldsBytes fields).length < 2 ^ 32) :
    (filled buffer fields.length modifyTimes fields).getSize =
      1 + (if fields.length ≥ 128 then 1 else 0) + (fieldsBytes fields).length := by
  have hsum : ∀ fs : List Field, (∀ f ∈ fs, f.fits = true) →
      ((fs.map Field.toColumn).map fun col => col.buffer.length + 1 + 1 +
        if col.buffer.length ≥ 128 then 1 else 0).sum = (fieldsBytes fs).length := by
    intro fs hfs
    induction fs with
    | nil => rfl
    | cons f fs ih =>
      have hf := Field.length_bytes_le f (hfs f List.mem_cons_self)
      rw [List.map_cons, List.map_cons, List.sum_cons, fieldsBytes_cons, List.length_append,
        length_columnBytes _ (by simp only [Field.toColumn]; unfold MAX_STRING_LENGTH at hf; omega),
        ih fun g hg => hfs g (List.mem_cons_of_mem f hg)]
  unfold getSize filled
  simp only [Nat.sub_self, List.replicate_zero, List.append_nil, List.length_map]
  rw [hsum fields hfit, Nat.mod_eq_of_lt hsize]

/-- The buffer `Build()` writes for the fields: the header, the fields, and
the byte of a two-byte header `GetSize()` counted where `Build()` wrote one. -/
theorem build_filled (buffer : List UInt8) (modifyTimes : Int) (fields : List Field)
    (hm : 0 ≤ modifyTimes) (hfit : ∀ f ∈ fields, f.fits = true)
    (hsize : 2 + (fieldsBytes fields).length < 2 ^ 32) :
    ∃ pad, (filled buffer fields.length modifyTimes fields).build.buffer =
        headerBytes fields.length modifyTimes ++ fieldsBytes fields ++ pad ∧ pad.length ≤ 1 ∧
      (filled buffer fields.length modifyTimes fields).build.buffer.length =
        (filled buffer fields.length modifyTimes fields).getSize := by
  have hS := getSize_filled buffer modifyTimes fields hfit (by split_ifs <;> omega)
  have hH := length_headerBytes fields.length modifyTimes
  -- `Build()`'s header is at most the one `GetSize()` counts
  have hroom : (headerBytes fields.length modifyTimes ++ fieldsBytes fields).length ≤
      (filled buffer fields.length modifyTimes fields).getSize := by
    rw [List.length_append, hH, hS]
    split_ifs <;> omega
  have hbuild : (filled buffer fields.length modifyTimes fields).build.buffer =
      writeBytes (resize buffer (filled buffer fields.length modifyTimes fields).getSize) 0
        (headerBytes fields.length modifyTimes ++ fieldsBytes fields) := by
    simp only [build, filled, Nat.sub_self, List.replicate_zero, List.append_nil, fieldsBytes, List.map_map]
    rfl
  refine ⟨(resize buffer (filled buffer fields.length modifyTimes fields).getSize).drop
      (headerBytes fields.length modifyTimes ++ fieldsBytes fields).length, ?_, ?_, ?_⟩
  · rw [hbuild, writeBytes_eq (by rw [length_resize]; omega), List.take_zero, List.nil_append, Nat.zero_add]
  · rw [List.length_drop, length_resize, List.length_append, hH, hS]
    split_ifs <;> omega
  · rw [hbuild, length_writeBytes, length_resize]

end FlatArrayCodec

/-! ## Reading: `Next()` and the getters walk the fields `Build()` wrote -/

theorem sizeBytes_short {n : Nat} (h : n < 128) : FlatArrayCodec.sizeBytes n = [UInt8.ofNat n] := by
  have hmod : n % 65536 = n := Nat.mod_eq_of_lt (by omega)
  simp [FlatArrayCodec.sizeBytes, hmod, h]

theorem sizeBytes_long {n : Nat} (h1 : 128 ≤ n) (h2 : n < 2 ^ 15) :
    FlatArrayCodec.sizeBytes n = [UInt8.ofNat (n / 256 ||| 0x80), UInt8.ofNat (n % 256)] := by
  have hmask : n &&& 0xFF = n % 256 := by simpa using Nat.and_two_pow_sub_one_eq_mod n 8
  have hmod : n % 65536 = n := Nat.mod_eq_of_lt (by omega)
  simp [FlatArrayCodec.sizeBytes, hmod, Nat.shiftRight_eq_div_pow, hmask, show ¬ n < 128 by omega]

/-- The two bytes of a length from `128` to `2^15` give it back, the high
byte without its bit `7`. -/
theorem long_size_value {n : Nat} (h2 : n < 2 ^ 15) :
    ((UInt8.ofNat (n / 256 ||| 0x80) &&& 0x7F).toNat <<< 8) ||| (UInt8.ofNat (n % 256)).toNat = n := by
  have hhi : (UInt8.ofNat (n / 256 ||| 0x80) &&& 0x7F).toNat = n / 256 :=
    (high_byte_or_0x80 ⟨n / 256, by omega⟩).2
  have hlo : (UInt8.ofNat (n % 256)).toNat = n % 256 := by
    rw [UInt8.toNat_ofNat', Nat.mod_mod_of_dvd _ (by decide)]
  rw [hhi, hlo, Nat.shiftLeft_eq, Nat.mul_comm,
    ← Nat.two_pow_add_eq_or_of_lt (Nat.mod_lt n (by decide) : n % 256 < 2 ^ 8)]
  omega

namespace FlatArrayIterator

/-- The iterator over `out` stands at byte `p`, as its position and its offset. -/
structure At (out : List UInt8) (p : Nat) (it : FlatArrayIterator) : Prop where
  buf : it.buf = out
  bsize : it.bsize = out.length
  pos : it.pos = p
  offset : it.offset = p

/-- `Next()` has read the header of the field `f` that `Build()` wrote at
`p`, in front of the bytes `rest`. -/
structure AtField (out : List UInt8) (p : Nat) (f : Field) (rest : List UInt8) (it : FlatArrayIterator) :
    Prop where
  here : At out (p + 1 + (FlatArrayCodec.sizeBytes f.bytes.length).length) it
  drop : out.drop p = FlatArrayCodec.columnBytes f.toColumn ++ rest
  type : it.type = f.type.toUInt8
  fsize : it.fsize = f.bytes.length

theorem length_of_drop {out rest : List UInt8} {p : Nat} {f : Field}
    (hd : out.drop p = FlatArrayCodec.columnBytes f.toColumn ++ rest) :
    out.length = p + (FlatArrayCodec.columnBytes f.toColumn).length + rest.length := by
  have hlen := congrArg List.length hd
  have hpos : 0 < (FlatArrayCodec.columnBytes f.toColumn).length := by simp [FlatArrayCodec.columnBytes]
  rw [List.length_drop, List.length_append] at hlen
  omega

/-- `Next()` at the start of a field reads its type and its length. -/
theorem next_of_at {out rest : List UInt8} {p : Nat} {f : Field} {it : FlatArrayIterator}
    (h : At out p it) (hd : out.drop p = FlatArrayCodec.columnBytes f.toColumn ++ rest) (hf : f.fits = true) :
    AtField out p f rest it.next := by
  obtain ⟨hbuf, hbsize, hpos, hoff⟩ := h
  have hL := Field.length_bytes_le f hf
  unfold MAX_STRING_LENGTH at hL
  have hlen := length_of_drop hd
  rw [length_columnBytes _ (by simp only [Field.toColumn]; omega)] at hlen
  have hd' : out.drop p = f.type.toUInt8 :: (FlatArrayCodec.sizeBytes f.bytes.length ++ (f.bytes ++ rest)) := by
    simpa [FlatArrayCodec.columnBytes, Field.toColumn] using hd
  have htype := byteAt_of_drop hd'
  have hd1 := drop_succ_of_drop hd'
  have hroom : ¬ it.offset + 2 > it.bsize := by
    rw [hoff, hbsize]
    simp only [Field.toColumn] at hlen
    omega
  -- a length below `128` is one byte; up to `2^15` it is two, the first with bit `7` set
  by_cases hs : f.bytes.length < 128
  · rw [sizeBytes_short hs] at hd1
    have hb := byteAt_of_drop hd1
    have hmask : UInt8.ofNat f.bytes.length &&& 0x80 = 0 := (ofNat_and_0x80_of_lt ⟨_, hs⟩).1
    have hval : (UInt8.ofNat f.bytes.length).toNat = f.bytes.length := (ofNat_and_0x80_of_lt ⟨_, hs⟩).2
    have hnext : it.next =
        { it with type := f.type.toUInt8, fsize := f.bytes.length, pos := p + 2, offset := p + 2 } := by
      unfold next
      dsimp only
      rw [if_neg hroom, hbuf, hpos, htype, hb, if_pos hmask, hval, hoff]
    have hwidth : (FlatArrayCodec.sizeBytes f.bytes.length).length = 1 := by rw [sizeBytes_short hs]; rfl
    rw [hnext]
    exact ⟨⟨hbuf, hbsize, by rw [hwidth], by rw [hwidth]⟩, hd, rfl, rfl⟩
  · have hs2 : f.bytes.length < 2 ^ 15 := by omega
    rw [sizeBytes_long (by omega) hs2] at hd1
    have hb0 := byteAt_of_drop hd1
    have hb1 := byteAt_of_drop (drop_succ_of_drop hd1)
    have hmask : UInt8.ofNat (f.bytes.length / 256 ||| 0x80) &&& 0x80 ≠ 0 :=
      (high_byte_or_0x80 ⟨f.bytes.length / 256, by omega⟩).1
    have hnext : it.next =
        { it with type := f.type.toUInt8, fsize := f.bytes.length, pos := p + 3, offset := p + 3 } := by
      unfold next
      dsimp only
      rw [if_neg hroom, hbuf, hpos, htype, hb0, if_neg hmask, hb1, long_size_value hs2, hoff]
    have hwidth : (FlatArrayCodec.sizeBytes f.bytes.length).length = 2 := by
      rw [sizeBytes_long (by omega) hs2]; rfl
    rw [hnext]
    exact ⟨⟨hbuf, hbsize, by rw [hwidth], by rw [hwidth]⟩, hd, rfl, rfl⟩

/-- Fewer than two bytes past the last field: `Next()` overshoots and the
iterator is no longer valid. -/
theorem next_invalid_of_at {out : List UInt8} {p : Nat} {it : FlatArrayIterator}
    (h : At out p it) (hp : out.length ≤ p + 1) : it.next.valid = false := by
  obtain ⟨_, hbsize, _, hoff⟩ := h
  have hover : it.offset + 2 > it.bsize := by omega
  have hnext : it.next = { it with offset := it.offset + 2 } := by
    unfold next
    rw [if_pos hover]
  rw [hnext, valid]
  simp only [Bool.not_eq_false', Bool.or_eq_true, decide_eq_true_eq]
  omega

namespace AtField

variable {out rest : List UInt8} {p : Nat} {f : Field} {it : FlatArrayIterator}

theorem length_eq (h : AtField out p f rest it) :
    out.length = p + 1 + (FlatArrayCodec.sizeBytes f.bytes.length).length + f.bytes.length + rest.length := by
  have hlen := length_of_drop h.drop
  have hcol : (FlatArrayCodec.columnBytes f.toColumn).length =
      1 + (FlatArrayCodec.sizeBytes f.bytes.length).length + f.bytes.length := length_columnBytes_eq f.toColumn
  omega

/-- The value's bytes stand at the iterator's position. -/
theorem drop_pos (h : AtField out p f rest it) : out.drop it.pos = f.bytes ++ rest := by
  have hsplit : FlatArrayCodec.columnBytes f.toColumn ++ rest =
      (f.type.toUInt8 :: FlatArrayCodec.sizeBytes f.bytes.length) ++ (f.bytes ++ rest) := by
    simp [FlatArrayCodec.columnBytes, Field.toColumn]
  rw [h.here.pos, Nat.add_assoc, ← List.drop_drop, h.drop, hsplit, Nat.add_comm]
  exact List.drop_left

theorem value_le (h : AtField out p f rest it) : it.offset + f.bytes.length ≤ it.bsize := by
  rw [h.here.offset, h.here.bsize, h.length_eq]
  omega

/-- Past the value, the iterator stands at the next field. -/
theorem advance (h : AtField out p f rest it) {w : Nat} (hw : f.bytes.length = w) :
    At out (p + (FlatArrayCodec.columnBytes f.toColumn).length)
      { it with pos := it.pos + w, offset := it.offset + w } := by
  have hcol : (FlatArrayCodec.columnBytes f.toColumn).length =
      1 + (FlatArrayCodec.sizeBytes f.bytes.length).length + f.bytes.length := length_columnBytes_eq f.toColumn
  refine ⟨h.here.buf, h.here.bsize, ?_, ?_⟩
  · show it.pos + w = _
    rw [h.here.pos, hcol]
    omega
  · show it.offset + w = _
    rw [h.here.offset, hcol]
    omega

theorem valid_eq (h : AtField out p f rest it) : it.valid = true := by
  have hsize : 0 < (FlatArrayCodec.sizeBytes f.bytes.length).length := by
    simp only [FlatArrayCodec.sizeBytes]
    split <;> simp
  have hoff := h.here.offset
  have hbsize := h.here.bsize
  have hlen := h.length_eq
  rw [valid]
  simp only [Bool.not_eq_eq_eq_not, Bool.not_true, Bool.or_eq_false_iff, decide_eq_false_iff_not, not_lt]
  omega

theorem isNULL_eq (h : AtField out p f rest it) : it.isNULL = (f == .null) := by
  rw [isNULL, h.type, h.fsize]
  cases f with
  | string v => cases v <;> simp [Field.type, Field.bytes, ColType.toUInt8]
  | _ => simp [Field.type, Field.bytes, ColType.toUInt8]

/-- The getter of a value of `width` bytes reads the value appended. -/
theorem getFixed_eq (h : AtField out p f rest it) {t : ColType} {w v : Nat} (ht : f.type = t)
    (hb : f.bytes = leBytes w v) (hw : 0 < w) :
    it.getFixed t w = ({ it with pos := it.pos + w, offset := it.offset + w }, true, some (v % 256 ^ w)) := by
  have hlen : f.bytes.length = w := by rw [hb, length_leBytes]
  have hroom := h.value_le
  have hval : readLE it.buf it.pos w = v % 256 ^ w := by
    rw [h.here.buf]
    exact readLE_of_drop (hb ▸ h.drop_pos)
  unfold getFixed
  rw [if_neg (by rw [h.type, ht]; exact not_not.mpr rfl), if_neg (by rw [h.fsize]; omega),
    if_neg (by omega), hval]

/-- The getter of the field's type reads back what was appended, and leaves
the iterator at the next field. -/
theorem readField_eq (h : AtField out p f rest it) :
    ∃ it', it.readField f = (it', true, some f.readBack) ∧
      At out (p + (FlatArrayCodec.columnBytes f.toColumn).length) it' := by
  cases f with
  -- each fixed-width getter reads its bytes little-endian and converts them back
  | bool b =>
    refine ⟨_, ?_, h.advance (w := 1) rfl⟩
    simp only [readField, getBool, h.getFixed_eq (t := .kBool) (w := 1) rfl rfl (by decide), Option.map_some]
    cases b <;> rfl
  | uint16 v =>
    refine ⟨_, ?_, h.advance (w := 2) rfl⟩
    simp only [readField, getUInt16, h.getFixed_eq (t := .kUInt16) (w := 2) rfl rfl (by decide), Option.map_some,
      Nat.reducePow, UInt16.toNat_mod_size, UInt16.ofNat_toNat, Field.readBack]
  | int16 v =>
    refine ⟨_, ?_, h.advance (w := 2) rfl⟩
    simp only [readField, getInt16, h.getFixed_eq (t := .kInt16) (w := 2) rfl rfl (by decide), Option.map_some,
      Nat.reducePow, UInt16.toNat_mod_size, UInt16.ofNat_toNat, Int16.toInt16_toUInt16, Field.readBack]
  | float v =>
    refine ⟨_, ?_, h.advance (w := 4) rfl⟩
    simp only [readField, getFloat, h.getFixed_eq (t := .kFloat) (w := 4) rfl rfl (by decide), Option.map_some,
      Nat.reducePow, UInt32.toNat_mod_size, UInt32.ofNat_toNat, Field.readBack]
  | int32 v =>
    refine ⟨_, ?_, h.advance (w := 4) rfl⟩
    simp only [readField, getInt32, h.getFixed_eq (t := .kInt32) (w := 4) rfl rfl (by decide), Option.map_some,
      Nat.reducePow, UInt32.toNat_mod_size, UInt32.ofNat_toNat, Int32.toInt32_toUInt32, Field.readBack]
  | int64 v =>
    refine ⟨_, ?_, h.advance (w := 8) rfl⟩
    simp only [readField, getInt64, h.getFixed_eq (t := .kInt64) (w := 8) rfl rfl (by decide), Option.map_some,
      Nat.reducePow, UInt64.toNat_mod_size, UInt64.ofNat_toNat, Int64.toInt64_toUInt64, Field.readBack]
  | uint32 v =>
    refine ⟨_, ?_, h.advance (w := 4) rfl⟩
    simp only [readField, getUInt32, h.getFixed_eq (t := .kUInt32) (w := 4) rfl rfl (by decide), Option.map_some,
      Nat.reducePow, UInt32.toNat_mod_size, UInt32.ofNat_toNat, Field.readBack]
  | uint64 v =>
    refine ⟨_, ?_, h.advance (w := 8) rfl⟩
    simp only [readField, getUInt64, h.getFixed_eq (t := .kUInt64) (w := 8) rfl rfl (by decide), Option.map_some,
      Nat.reducePow, UInt64.toNat_mod_size, UInt64.ofNat_toNat, Field.readBack]
  | timestamp v =>
    refine ⟨_, ?_, h.advance (w := 8) rfl⟩
    simp only [readField, getTimestamp, h.getFixed_eq (t := .kTimestamp) (w := 8) rfl rfl (by decide), Option.map_some,
      Nat.reducePow, UInt64.toNat_mod_size, UInt64.ofNat_toNat, Field.readBack]
  | date v =>
    refine ⟨_, ?_, h.advance (w := 8) rfl⟩
    simp only [readField, getDate, h.getFixed_eq (t := .kDate) (w := 8) rfl rfl (by decide), Option.map_some,
      Nat.reducePow, UInt64.toNat_mod_size, UInt64.ofNat_toNat, Field.readBack]
  | double v =>
    refine ⟨_, ?_, h.advance (w := 8) rfl⟩
    simp only [readField, getDouble, h.getFixed_eq (t := .kDouble) (w := 8) rfl rfl (by decide), Option.map_some,
      Nat.reducePow, UInt64.toNat_mod_size, UInt64.ofNat_toNat, Field.readBack]
  | string v =>
    -- an empty string is a `kEmptyString` field without bytes, read as `EMPTY_STRING`
    cases v with
    | nil =>
      refine ⟨it, ?_, by simpa using h.advance (w := 0) rfl⟩
      have hty : it.type = ColType.kEmptyString.toUInt8 := h.type
      have hfs : it.fsize = 0 := h.fsize
      unfold readField getString
      rw [hty, hfs, if_neg (by decide), if_pos rfl]
      rfl
    | cons b bs =>
      have hty : it.type = ColType.kString.toUInt8 := h.type
      have hfs : it.fsize = (b :: bs).length := h.fsize
      have hroom : ¬ it.offset + (b :: bs).length > it.bsize := Nat.not_lt.mpr h.value_le
      have hval : readBytes it.buf it.pos (b :: bs).length = b :: bs := by
        rw [h.here.buf]
        exact readBytes_of_drop h.drop_pos
      refine ⟨_, ?_, h.advance rfl⟩
      unfold readField getString
      rw [hty, hfs, if_neg (by decide), if_neg (by simp), if_neg hroom, hval]
      rfl
  | null =>
    refine ⟨it, by rw [readField, h.isNULL_eq]; rfl, ?_⟩
    simpa using h.advance (w := 0) rfl

/-- A client's round on a field in front of the field `g`: the getter, then
`Next()` reads `g`'s header. -/
theorem step_of_next {g : Field} (h : AtField out p f (FlatArrayCodec.columnBytes g.toColumn ++ rest) it)
    (hg : g.fits = true) :
    AtField out (p + (FlatArrayCodec.columnBytes f.toColumn).length) g rest (it.step f) := by
  obtain ⟨it', hread, hat⟩ := h.readField_eq
  have hdrop : out.drop (p + (FlatArrayCodec.columnBytes f.toColumn).length) =
      FlatArrayCodec.columnBytes g.toColumn ++ rest := by
    rw [← List.drop_drop, h.drop, List.drop_left]
  rw [step, hread]
  exact next_of_at hat hdrop hg

/-- A round on the last field leaves at most one byte: the iterator is no
longer valid. -/
theorem step_of_last {pad : List UInt8} (h : AtField out p f pad it) (hpad : pad.length ≤ 1) :
    (it.step f).valid = false := by
  obtain ⟨it', hread, hat⟩ := h.readField_eq
  have hlen := length_of_drop h.drop
  rw [step, hread]
  exact next_invalid_of_at hat (by omega)

end AtField

/-- The rounds on the fields `done` in front of `f`: from the header of the
first field on, the iterator reaches the header of `f`. The induction is on
`done`, the invariant `AtField` at the field next to read. -/
theorem walk_atField {out pad : List UInt8} {f : Field} {later : List Field} :
    ∀ (done : List Field) (g : Field) (tail : List Field) (p : Nat) (it : FlatArrayIterator),
      g :: tail = done ++ f :: later → (∀ e ∈ g :: tail, e.fits = true) →
      AtField out p g (fieldsBytes tail ++ pad) it →
      ∃ q, AtField out q f (fieldsBytes later ++ pad) (done.foldl step it)
  | [], g, tail, p, it, hsplit, _, h => by
    obtain ⟨rfl, rfl⟩ := List.cons_eq_cons.mp hsplit
    exact ⟨p, h⟩
  | d :: done, g, tail, p, it, hsplit, hfit, h => by
    rw [List.cons_append] at hsplit
    obtain ⟨rfl, htail⟩ := List.cons_eq_cons.mp hsplit
    -- the field after `g` is the head of `done ++ f :: later`
    obtain ⟨g', tail', hnext⟩ : ∃ g' tail', done ++ f :: later = g' :: tail' := by
      cases done with
      | nil => exact ⟨f, later, rfl⟩
      | cons e done => exact ⟨e, done ++ f :: later, rfl⟩
    rw [htail, hnext] at h hfit
    rw [fieldsBytes_cons, List.append_assoc] at h
    have hstep := h.step_of_next (hfit g' (List.mem_cons_of_mem _ List.mem_cons_self))
    exact walk_atField done g' tail' _ _ hnext.symm (fun e he => hfit e (List.mem_cons_of_mem _ he)) hstep

theorem colCnt_next (it : FlatArrayIterator) : it.next.colCnt = it.colCnt := by
  unfold next
  split
  · rfl
  · dsimp only
    split <;> rfl

/-- The constructor reads a header of one byte when `column_size < 128` and
of two otherwise, and then `Next()` reads the first field's header. -/
theorem new_eq_next (buf : List UInt8) (columnSize : Nat) :
    ∃ it, At buf (if columnSize < 128 then 1 else 2) it ∧ new buf buf.length columnSize = it.next := by
  unfold new
  dsimp only
  split <;> exact ⟨_, ⟨rfl, rfl, rfl, rfl⟩, rfl⟩

end FlatArrayIterator

theorem length_sizeBytes_le (n : Nat) : (FlatArrayCodec.sizeBytes n).length ≤ 2 := by
  simp only [FlatArrayCodec.sizeBytes]
  split <;> simp

/-- A field takes at most `32770` bytes: its type, two bytes of length and
`MAX_STRING_LENGTH` bytes of value. -/
theorem length_fieldsBytes_le :
    ∀ fields : List Field, (∀ f ∈ fields, f.fits = true) → (fieldsBytes fields).length ≤ 32770 * fields.length
  | [], _ => by simp [fieldsBytes]
  | f :: fields, hfit => by
    have hf := Field.length_bytes_le f (hfit f List.mem_cons_self)
    have hcol : (FlatArrayCodec.columnBytes f.toColumn).length =
        1 + (FlatArrayCodec.sizeBytes f.bytes.length).length + f.bytes.length :=
      length_columnBytes_eq f.toColumn
    have hs := length_sizeBytes_le f.bytes.length
    have ih := length_fieldsBytes_le fields fun g hg => hfit g (List.mem_cons_of_mem f hg)
    rw [fieldsBytes_cons, List.length_append, List.length_cons]
    unfold MAX_STRING_LENGTH at hf
    omega

/-- The field-level round trip: the appends of `c` fields, `Build()`, and the
iterator over the buffer with `column_size = c - m` present the fields in
order, each with its type, its NULL flag and its value read back, valid before
each field and no longer after the last. -/
theorem fields_round_trip (buffer : List UInt8) (fields : List Field) (m : Nat)
    (hc : fields.length < 2 ^ 16) (hm : m < fields.length) (hfit : ∀ f ∈ fields, f.fits = true) :
    ∃ c, (FlatArrayCodec.new buffer fields.length m).appendFields fields = some c ∧
      c.build.buffer.length = c.getSize ∧
      (∀ done f later, fields = done ++ f :: later →
        let it := done.foldl FlatArrayIterator.step
          (FlatArrayIterator.new c.build.buffer c.build.buffer.length (fields.length - m))
        it.valid = true ∧ it.getType = f.type.toUInt8 ∧ it.isNULL = (f == .null) ∧
          (it.readField f).2 = (true, some f.readBack)) ∧
      (fields.foldl FlatArrayIterator.step
        (FlatArrayIterator.new c.build.buffer c.build.buffer.length (fields.length - m))).valid = false := by
  have happ := FlatArrayCodec.appendFields_filled buffer fields.length m [] fields (by simp) hfit
  rw [FlatArrayCodec.filled_nil, List.nil_append] at happ
  refine ⟨_, happ, ?_⟩
  have hbytes := length_fieldsBytes_le fields hfit
  obtain ⟨pad, hout, hpad, hlen⟩ :=
    FlatArrayCodec.build_filled buffer m fields (by omega) hfit (by omega)
  refine ⟨hlen, ?_⟩
  -- the reader's header is as wide as the one `Build()` wrote
  obtain ⟨it, hat, hnew⟩ := FlatArrayIterator.new_eq_next
    (FlatArrayCodec.filled buffer fields.length m fields).build.buffer (fields.length - m)
  have hwidth : (if fields.length - m < 128 then 1 else 2) = (FlatArrayCodec.headerBytes fields.length m).length := by
    rw [FlatArrayCodec.length_headerBytes]
    split_ifs <;> omega
  rw [hwidth] at hat
  rw [hnew]
  obtain ⟨f0, rest, hfields⟩ : ∃ f0 rest, fields = f0 :: rest := by
    cases fields with
    | nil => simp at hm
    | cons f0 rest => exact ⟨f0, rest, rfl⟩
  have hdrop : (FlatArrayCodec.filled buffer fields.length m fields).build.buffer.drop
      (FlatArrayCodec.headerBytes fields.length m).length =
        FlatArrayCodec.columnBytes f0.toColumn ++ (fieldsBytes rest ++ pad) := by
    rw [hout, List.append_assoc, List.drop_left, hfields, fieldsBytes_cons, List.append_assoc]
  have hfirst := FlatArrayIterator.next_of_at hat hdrop (hfit f0 (by rw [hfields]; exact List.mem_cons_self))
  have hwalk := fun done f later (hsplit : f0 :: rest = done ++ f :: later) =>
    FlatArrayIterator.walk_atField done f0 rest _ _ hsplit (hfields ▸ hfit) hfirst
  constructor
  · intro done f later hsplit
    obtain ⟨q, hq⟩ := hwalk done f later (hfields ▸ hsplit)
    obtain ⟨it', hread, -⟩ := hq.readField_eq
    exact ⟨hq.valid_eq, hq.type, hq.isNULL_eq, by rw [hread]⟩
  · -- the last round leaves only the byte `GetSize()` counted in excess
    obtain ⟨init, last, hlast⟩ : ∃ init last, fields = init ++ [last] :=
      ⟨fields.dropLast, fields.getLast (by rw [hfields]; simp), (List.dropLast_append_getLast _).symm⟩
    obtain ⟨q, hq⟩ := hwalk init last [] (hfields ▸ hlast)
    rw [hlast, List.foldl_append, List.foldl_cons, List.foldl_nil]
    exact hq.step_of_last (by simpa [fieldsBytes] using hpad)

/-! ## The column count in a two-byte header -/

/-- With `column_size` from `128` on, `Size()` is the first two bytes, read
as added columns when their bit `7` is set. -/
theorem size_new_of_wide (buf : List UInt8) {columnSize : Nat} (h : ¬ columnSize < 128) :
    (FlatArrayIterator.new buf buf.length columnSize).size =
      if readLE buf 0 2 &&& 0x0080 ≠ 0 then ((readLE buf 0 2 &&& 0x007F) + columnSize) % 2 ^ 16
      else readLE buf 0 2 := by
  unfold FlatArrayIterator.new FlatArrayIterator.size
  rw [FlatArrayIterator.colCnt_next]
  simp only [h, if_false]

/-- For `129` columns and no added column, `Build()` writes the column count
`129` in two bytes, and the reader, which tests bit `7` of them for added
columns, gives `Size()` as `130`. -/
theorem build_header_size_misread (buffer : List UInt8) :
    ∃ c, (FlatArrayCodec.new buffer 129 0).appendFields (List.replicate 129 .null) = some c ∧
      (FlatArrayIterator.new c.build.buffer c.build.buffer.length 129).size = 130 := by
  have hfit : ∀ f ∈ List.replicate 129 Field.null, f.fits = true := by
    intro f hf
    rw [List.eq_of_mem_replicate hf]
    rfl
  have happ := FlatArrayCodec.appendFields_filled buffer 129 0 [] (List.replicate 129 .null) (by simp) hfit
  rw [FlatArrayCodec.filled_nil, List.nil_append] at happ
  refine ⟨_, happ, ?_⟩
  have hbytes := length_fieldsBytes_le _ hfit
  rw [List.length_replicate] at hbytes
  obtain ⟨pad, hout, -, -⟩ :=
    FlatArrayCodec.build_filled buffer 0 (List.replicate 129 .null) le_rfl hfit (by omega)
  rw [List.length_replicate] at hout
  have hheader : FlatArrayCodec.headerBytes 129 0 = leBytes 2 129 := by
    simp [FlatArrayCodec.headerBytes]
  have hdrop : (FlatArrayCodec.filled buffer 129 0 (List.replicate 129 .null)).build.buffer.drop 0 =
      leBytes 2 129 ++ (fieldsBytes (List.replicate 129 .null) ++ pad) := by
    rw [List.drop_zero, ← hheader, ← List.append_assoc]
    exact hout
  have hread : readLE (FlatArrayCodec.filled buffer 129 0 (List.replicate 129 .null)).build.buffer 0 2 = 129 :=
    (readLE_of_drop hdrop).trans (by norm_num)
  rw [size_new_of_wide _ (by decide), hread]
  decide

end Fedb.Codec
