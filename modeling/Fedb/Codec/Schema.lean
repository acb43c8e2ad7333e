import Fedb.Lib.ByteBuffer

/-! # Row schemas and the fixed layout of an encoded row

The data model of the row codec (`src/codec/codec.h`, `src/codec/codec.cc`):
column types, column descriptions and the constants of the row format.

An encoded row (format version 1) is laid out as

* a header of `HEADER_LENGTH = 6` bytes: the format version, the schema
  version and the total row size as a little-endian `uint32`;
* a null bitmap of `BitMapSize(n)` bytes, one bit per column, set for NULL;
* the fixed-width fields, at offsets computed from the schema in column order;
* a table of string offsets, `GetAddrLength(size)` bytes each, one per string
  column;
* the string bodies, one after the other.

The `uint32_t` arithmetic of the codec is modelled in `Nat`; where a sum can
leave the 32-bit range on real inputs (the row length and the string offsets)
the model reduces it with `u32`, as the machine does.
-/

namespace Fedb.Codec

/-- `fedb::type::DataType` (`src/proto/type.proto`). -/
inductive DataType
  | kBool | kSmallInt | kInt | kBigInt | kFloat | kDouble | kDate | kTimestamp
  | kVarchar | kString
  deriving DecidableEq, Repr

/-- The fields of `fedb::common::ColumnDesc` the codec reads. -/
structure ColumnDesc where
  dataType : DataType
  notNull : Bool
  deriving DecidableEq, Repr

/-- `Schema`, a `RepeatedPtrField<ColumnDesc>`. -/
abbrev Schema := List ColumnDesc

def versionLength : Nat := 2
def sizeLength : Nat := 4
def headerLength : Nat := versionLength + sizeLength
def uint8Max : Nat := 2 ^ 8 - 1
def uint16Max : Nat := 2 ^ 16 - 1
def uint24Max : Nat := 2 ^ 24 - 1
def uint32Max : Nat := 2 ^ 32 - 1

/-- Reduction of a sum to `uint32_t`. -/
def u32 (n : Nat) : Nat := n % 2 ^ 32

/-- `uint32_t` subtraction `a - b`, which wraps around below zero. -/
def u32Sub (a b : Nat) : Nat := (a + (2 ^ 32 - b % 2 ^ 32)) % 2 ^ 32

/-- `BitMapSize(size)`: one bit per column, rounded up to whole bytes. -/
def bitMapSize (size : Nat) : Nat := (size >>> 3) + (if size &&& 7 = 0 then 0 else 1)

/-- Membership in `TYPE_SET`, the types the builder accepts (all of them). -/
def inTypeSet : DataType → Bool
  | .kBool | .kSmallInt | .kInt | .kBigInt | .kFloat | .kDouble | .kDate | .kTimestamp
  | .kVarchar | .kString => true

theorem inTypeSet_eq_true (t : DataType) : inTypeSet t = true := by
  cases t <;> rfl

/-- `TYPE_SIZE_ARRAY[t]`, `none` where the enum value of `t` lies past the array
(the string types, numbered 13 and 14). -/
def typeSize : DataType → Option Nat
  | .kBool => some 1
  | .kSmallInt => some 2
  | .kInt => some 4
  | .kBigInt => some 8
  | .kFloat => some 4
  | .kDouble => some 8
  | .kDate => some 4
  | .kTimestamp => some 8
  | .kVarchar | .kString => none

/-- The test `cur_type == kVarchar || cur_type == kString`. -/
def isStringType (t : DataType) : Bool := t == .kVarchar || t == .kString

/-- `GetAddrLength(size)`: the width of one string offset in a row of `size` bytes. -/
def getAddrLength (size : Nat) : Nat :=
  if size ≤ uint8Max then 1
  else if size ≤ uint16Max then 2
  else if size ≤ uint24Max then 3
  else 4

/-! ## Arithmetic facts about the layout constants -/

theorem u32_of_lt {n : Nat} (h : n < 2 ^ 32) : u32 n = n := Nat.mod_eq_of_lt h

theorem u32Sub_of_le {a b : Nat} (hb : b ≤ a) (ha : a < 2 ^ 32) : u32Sub a b = a - b := by
  unfold u32Sub
  rw [Nat.mod_eq_of_lt (by omega : b < 2 ^ 32)]
  rw [show a + (2 ^ 32 - b) = (a - b) + 2 ^ 32 by omega, Nat.add_mod_right,
    Nat.mod_eq_of_lt (by omega)]

theorem bitMapSize_eq (n : Nat) : bitMapSize n = (n + 7) / 8 := by
  unfold bitMapSize
  rw [Nat.shiftRight_eq_div_pow, show (7 : Nat) = 2 ^ 3 - 1 by rfl, Nat.and_two_pow_sub_one_eq_mod]
  split <;> omega

/-- Column `i` has its null bit inside the bitmap. -/
theorem div_eight_lt_bitMapSize {i n : Nat} (h : i < n) : i / 8 < bitMapSize n := by
  rw [bitMapSize_eq]
  omega

/-- The bit of column `k` within its bitmap byte, `k & 7`. -/
theorem and_seven_eq (k : Nat) : k &&& 7 = k % 8 := by
  rw [show (7 : Nat) = 2 ^ 3 - 1 by rfl, Nat.and_two_pow_sub_one_eq_mod]

theorem isStringType_iff (t : DataType) :
    isStringType t = true ↔ t = .kVarchar ∨ t = .kString := by
  cases t <;> simp [isStringType]

/-- Every non-string type has a size in `TYPE_SIZE_ARRAY`, of at most 8 bytes. -/
theorem typeSize_of_not_string {t : DataType} (h : isStringType t = false) :
    ∃ w, typeSize t = some w ∧ 0 < w ∧ w ≤ 8 := by
  cases t <;> simp_all [isStringType, typeSize]

theorem typeSize_eq_none_iff (t : DataType) : typeSize t = none ↔ isStringType t = true := by
  cases t <;> simp [isStringType, typeSize]

theorem getAddrLength_pos (size : Nat) : 0 < getAddrLength size := by
  unfold getAddrLength
  split_ifs <;> omega

theorem getAddrLength_le_four (size : Nat) : getAddrLength size ≤ 4 := by
  unfold getAddrLength
  split_ifs <;> omega

/-- A value below the row size fits in the offset width of that size. -/
theorem lt_pow_getAddrLength {v size : Nat} (hv : v ≤ size) (hs : size < 2 ^ 32) :
    v < 256 ^ getAddrLength size := by
  unfold getAddrLength uint8Max uint16Max uint24Max at *
  split_ifs <;> norm_num <;> omega

end Fedb.Codec
