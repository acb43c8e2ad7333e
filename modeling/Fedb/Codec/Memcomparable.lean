import Fedb.Lib.ByteOrder
import Fedb.Lib.BinaryFloat

/-! # The memory-comparable key format

The encodings of `src/codec/memcomparable_format.h`: each value is packed
into bytes whose `memcmp` order is the order of the values, so that a key
made of packed fields sorts as its fields do.

* An integer of `length` bytes, stored least significant byte first, is
  packed most significant byte first with the sign bit reversed for a signed
  one (`PackInteger`), and unpacked back (`UnpackInteger`).
* A `float` or `double` is packed as its bytes most significant first, every
  bit flipped for a negative value, and for a positive one the sign bit set
  and the exponent moved one up; both zeros pack as `128, 0, …`
  (`PackFloat`, `PackDouble`, `UnpackFloatingPoint`).
* A string is packed in chunks of eight bytes, each followed by a flag:
  `RDB_ESCAPE_LENGTH = 9` where more chunks follow, the number of bytes used
  in the last (`PackString`, `UnpackString`).

Buffers are `List UInt8`, and a load past the end of a buffer reads `0`, as
`ByteBuffer.byteAt` does. The `nullptr` checks are left out: every input is
a buffer.

This module proves the integer encodings: packing agrees with reversing the
bytes and flipping the sign bit (`copyInteger_eq`), `UnpackInteger` undoes
`PackInteger` for every length from two bytes on and refuses the one-byte
integers `PackInteger` packs (`packInteger_round_trip`), and the packed bytes
of signed and unsigned integers compare as the integers (`packInteger_sorts`).
-/

namespace Fedb.Codec

open ByteBuffer ByteOrder

/-- `FLT_EXP_DIG`, `sizeof(float) * 8 - FLT_MANT_DIG`: the exponent bits of a `float`. -/
def FLT_EXP_DIG : Nat := 4 * 8 - 24

/-- `DBL_EXP_DIG`, `sizeof(double) * 8 - DBL_MANT_DIG`. -/
def DBL_EXP_DIG : Nat := 8 * 8 - 53

def RDB_ESCAPE_LENGTH : Nat := 9

/-- `GetDstStrSize(size)`: the bytes `PackString` writes for `size` bytes. -/
def getDstStrSize (size : Nat) : Nat :=
  if size = 0 then RDB_ESCAPE_LENGTH
  else ((size >>> 3) + (if size &&& 0x07 = 0 then 0 else 1)) * RDB_ESCAPE_LENGTH

/-- `dst[i] = src[n - 1 - i]` for `i < n`, what `SwapFloatBytes` (`n = 4`)
and `SwapDoubleBytes` (`n = 8`) write out one byte at a time. -/
def swapBytes (n : Nat) (src : List UInt8) : List UInt8 :=
  (List.range n).map fun i => byteAt src (n - 1 - i)

def swapFloatBytes (src : List UInt8) : List UInt8 := swapBytes 4 src

def swapDoubleBytes (src : List UInt8) : List UInt8 := swapBytes 8 src

/-- `CopyInteger(from, length, is_unsigned, to)`. -/
def copyInteger (ptr : List UInt8) (length : Nat) (isUnsigned : Bool) : List UInt8 :=
  let signByte := byteAt ptr (length - 1)
  (if isUnsigned then signByte else signByte ^^^ 128) ::
    -- `to[i] = from[j]` for `i = 1, j = length - 2` on
    (List.range (length - 1)).map fun i => byteAt ptr (length - 2 - i)

/-- `PackInteger(from, length, unsigned_flag, to)`. -/
def packInteger (ptr : List UInt8) (length : Nat) (unsignedFlag : Bool) : Except Int (List UInt8) :=
  if length < 1 then .error (-1) else .ok (copyInteger ptr length unsignedFlag)

/-- `((uint16_t)tmp[0] << 8) | (uint16_t)tmp[1]`: the top two bytes. -/
def top16 (tmp : List UInt8) : UInt16 := ((byteAt tmp 0).toUInt16 <<< 8) ||| (byteAt tmp 1).toUInt16

/-- `tmp[0] = (uchar)(exp_part >> 8); tmp[1] = (uchar)exp_part;`. -/
def setTop16 (tmp : List UInt8) (expPart : UInt16) : List UInt8 :=
  (tmp.set 0 (expPart >>> 8).toUInt8).set 1 expPart.toUInt8

/-- `PackFloat` (`length = 4`, `expDig = FLT_EXP_DIG`) and `PackDouble`
(`length = 8`, `expDig = DBL_EXP_DIG`) of the value whose bytes, least
significant first, are `ptr`. -/
def packFloatingPoint (length expDig : Nat) (ptr : List UInt8) : List UInt8 :=
  -- `nr == 0.0` holds of both zeros: every bit but the sign clear
  if readLE ptr 0 length % 2 ^ (8 * length - 1) = 0 then
    (128 : UInt8) :: List.replicate (length - 1) 0
  else
    let tmp := swapBytes length ptr
    if byteAt tmp 0 &&& 128 != 0 then
      -- negative
      tmp.map (· ^^^ 255)
    else
      -- set the high bit and move the exponent one up
      setTop16 tmp ((top16 tmp ||| 32768) + ((1 : UInt16) <<< UInt16.ofNat (16 - 1 - expDig)))

def packFloat (ptr : List UInt8) : List UInt8 := packFloatingPoint 4 FLT_EXP_DIG ptr

def packDouble (ptr : List UInt8) : List UInt8 := packFloatingPoint 8 DBL_EXP_DIG ptr

/-- `PackString(src, src_len, dst)`: the bytes written to `*dst`. -/
def packString (usrc : List UInt8) : List UInt8 :=
  let copyLen := min (RDB_ESCAPE_LENGTH - 1) usrc.length
  if usrc.length - copyLen = 0 then
    -- the end of the input: zeros, then the flag `copy_len`
    usrc.take copyLen ++ List.replicate (RDB_ESCAPE_LENGTH - 1 - copyLen) 0 ++ [UInt8.ofNat copyLen]
  else
    -- more data: the flag `RDB_ESCAPE_LENGTH`, and on
    usrc.take copyLen ++ [UInt8.ofNat RDB_ESCAPE_LENGTH] ++ packString (usrc.drop copyLen)
termination_by usrc.length
decreasing_by
  simp only [List.length_drop, RDB_ESCAPE_LENGTH] at *
  omega

/-- `UnpackInteger(from, length, unsigned_flag, to)`. -/
def unpackInteger (ufrom : List UInt8) (length : Nat) (unsignedFlag : Bool) : Except Int (List UInt8) :=
  if length < 2 then .error (-1)
  else
    let signByte := byteAt ufrom 0
    -- `uto[i] = ufrom[j]` for `i = 0, j = length - 1` on, the sign byte last
    .ok ((List.range (length - 1)).map (fun i => byteAt ufrom (length - 1 - i)) ++
      [if unsignedFlag then signByte else signByte ^^^ 128])

/-- `UnpackFloatingPoint(src, size, exp_digit, zero_pattern, zero_val, swap_func, dst)`. -/
def unpackFloatingPoint (src : List UInt8) (size expDigit : Nat) (zeroPattern zeroVal : List UInt8)
    (swapFunc : List UInt8 → List UInt8) : List UInt8 :=
  if readBytes src 0 size = zeroPattern then zeroVal
  else
    let tmp := readBytes src 0 size
    let tmp :=
      if byteAt tmp 0 &&& 0x80 != 0 then
        -- a positive value: clear the high bit and move the exponent one down
        setTop16 tmp ((top16 tmp &&& 0x7FFF) - ((1 : UInt16) <<< UInt16.ofNat (16 - 1 - expDigit)))
      else
        -- a negative value, every bit flipped back
        tmp.map (· ^^^ 0xFF)
    swapFunc tmp

/-- `UnpackFloat(src, dst)`; `zero_val`, the `float` `0.0`, is four zero bytes. -/
def unpackFloat (src : List UInt8) : List UInt8 :=
  unpackFloatingPoint src 4 FLT_EXP_DIG [128, 0, 0, 0] (List.replicate 4 0) swapFloatBytes

def unpackDouble (src : List UInt8) : List UInt8 :=
  unpackFloatingPoint src 8 DBL_EXP_DIG [128, 0, 0, 0, 0, 0, 0, 0] (List.replicate 8 0) swapDoubleBytes

/-- `CalcUnpackVariableFormat(flag, &done)`: the bytes used in a chunk and
`done`, `none` for the invalid flag result `(uint32_t)-1`. -/
def calcUnpackVariableFormat (flag : UInt8) : Option (Nat × Bool) :=
  if flag.toNat > RDB_ESCAPE_LENGTH then none
  else if flag.toNat < RDB_ESCAPE_LENGTH then some (flag.toNat, true)
  else some (RDB_ESCAPE_LENGTH - 1, false)

theorem calcUnpackVariableFormat_eq_false {flag : UInt8} {used : Nat}
    (h : calcUnpackVariableFormat flag = some (used, false)) : flag.toNat = RDB_ESCAPE_LENGTH := by
  unfold calcUnpackVariableFormat at h
  split_ifs at h with h1 h2
  · simp at h
  · omega

/-- A load that returns something but `0` is inside the buffer. -/
theorem lt_length_of_byteAt_ne_zero {buf : List UInt8} {i : Nat} (h : byteAt buf i ≠ 0) : i < buf.length := by
  apply Nat.lt_of_not_le
  intro hle
  rw [byteAt, List.getD_eq_getElem?_getD, List.getElem?_eq_none hle] at h
  exact h rfl

/-- The `while` loop of `UnpackString` from the chunk at `usrc` on, with the
bytes `udst` decoded so far: the decoded bytes and `finished` where the loop
stops, `-2` for an invalid flag. `Read` never returns `nullptr`, so the loop
stops only at a chunk whose flag says it is the last. -/
def unpackStringLoop (usrc udst : List UInt8) : Except Int (List UInt8 × Bool) :=
  match h : calcUnpackVariableFormat (byteAt usrc (RDB_ESCAPE_LENGTH - 1)) with
  | none => .error (-2)
  | some (usedBytes, finished) =>
    let udst := udst ++ readBytes usrc 0 usedBytes
    if finished then .ok (udst, finished)
    else unpackStringLoop (usrc.drop RDB_ESCAPE_LENGTH) udst
termination_by usrc.length
decreasing_by
  -- a chunk that is not the last has its flag `RDB_ESCAPE_LENGTH` inside the input
  have hflag := calcUnpackVariableFormat_eq_false (Bool.eq_false_iff.2 ‹¬finished = true› ▸ h)
  have hin : RDB_ESCAPE_LENGTH - 1 < usrc.length :=
    lt_length_of_byteAt_ne_zero (fun h0 => by rw [h0] at hflag; simp [RDB_ESCAPE_LENGTH] at hflag)
  simp only [List.length_drop, RDB_ESCAPE_LENGTH] at *
  omega

/-- `UnpackString(src, dst, size)`: the decoded bytes, `*size` their number. -/
def unpackString (src : List UInt8) : Except Int (List UInt8) :=
  match unpackStringLoop src [] with
  | .error e => .error e
  | .ok (udst, finished) => if !finished then .error (-3) else .ok udst

/-! ## Byte reversal -/

theorem swapBytes_eq_reverse {n : Nat} {src : List UInt8} (h : src.length = n) :
    swapBytes n src = src.reverse := by
  apply List.ext_getElem (by simp [swapBytes, h])
  intro i h1 h2
  have hi : i < n := by simpa [swapBytes] using h1
  simp only [swapBytes, List.getElem_map, List.getElem_range, List.getElem_reverse]
  rw [byteAt, List.getD_eq_getElem?_getD, List.getElem?_eq_getElem (by omega)]
  simp only [h, Option.getD_some]

/-- The swap of little-endian bytes is the big-endian bytes. -/
theorem swapBytes_leBytes (n v : Nat) : swapBytes n (leBytes n v) = beBytes n v :=
  swapBytes_eq_reverse (length_leBytes n v)

@[simp] theorem length_swapBytes (n : Nat) (src : List UInt8) : (swapBytes n src).length = n := by
  simp [swapBytes]

/-! ## Integers -/

/-- The sign bit reversed for a signed integer, the byte kept for an unsigned one. -/
def signFlip (isUnsigned : Bool) (b : UInt8) : UInt8 := if isUnsigned then b else b ^^^ 128

theorem signFlip_signFlip (u : Bool) (b : UInt8) : signFlip u (signFlip u b) = b := by
  cases u with
  | true => rfl
  | false => simp only [signFlip, Bool.false_eq_true, ↓reduceIte, UInt8.xor_assoc, UInt8.xor_self, UInt8.xor_zero]

/-- The first byte of `CopyInteger` and the loop after it are one byte
reversal, with the sign bit of the first byte reversed for a signed integer. -/
theorem copyInteger_eq_swapBytes {length : Nat} (hl : 1 ≤ length) (ptr : List UInt8) (isUnsigned : Bool) :
    copyInteger ptr length isUnsigned = (swapBytes length ptr).modifyHead (signFlip isUnsigned) := by
  obtain ⟨k, rfl⟩ : ∃ k, length = k + 1 := ⟨length - 1, by omega⟩
  rw [swapBytes, List.range_succ_eq_map, List.map_cons, List.map_map, List.modifyHead_cons, copyInteger]
  simp only [Nat.add_sub_cancel, Nat.sub_zero, signFlip]
  congr 2
  funext i
  simp only [Function.comp_apply]
  congr 1
  omega

theorem copyInteger_eq {length : Nat} (hl : 1 ≤ length) {ptr : List UInt8} (h : ptr.length = length)
    (isUnsigned : Bool) : copyInteger ptr length isUnsigned = ptr.reverse.modifyHead (signFlip isUnsigned) := by
  rw [copyInteger_eq_swapBytes hl, swapBytes_eq_reverse h]

/-- `UnpackInteger` reverses the bytes back, the sign byte last. -/
theorem unpackInteger_eq {length : Nat} (hl : 2 ≤ length) {ufrom : List UInt8} (h : ufrom.length = length)
    (unsignedFlag : Bool) :
    unpackInteger ufrom length unsignedFlag = .ok (ufrom.modifyHead (signFlip unsignedFlag)).reverse := by
  obtain ⟨b, bs, rfl⟩ : ∃ b bs, ufrom = b :: bs := by
    cases ufrom with
    | nil => simp at h; omega
    | cons b bs => exact ⟨b, bs, rfl⟩
  simp only [List.length_cons] at h
  rw [unpackInteger, if_neg (by omega), List.modifyHead_cons, List.reverse_cons]
  simp only [signFlip]
  congr 2
  -- the loop reads the bytes after the sign byte from the last down
  apply List.ext_getElem (by simp; omega)
  intro i h1 h2
  simp only [List.length_reverse] at h2
  have hi : length - 1 - i < (b :: bs).length := by
    rw [List.length_cons]
    omega
  rw [List.getElem_map, List.getElem_range, List.getElem_reverse, byteAt, List.getD_eq_getElem?_getD,
    List.getElem?_eq_getElem hi, Option.getD_some, List.getElem_cons]
  split
  · omega
  · congr 1
    omega

theorem modifyHead_signFlip_signFlip (u : Bool) (l : List UInt8) :
    (l.modifyHead (signFlip u)).modifyHead (signFlip u) = l := by
  cases l with
  | nil => rfl
  | cons b l => rw [List.modifyHead_cons, List.modifyHead_cons, signFlip_signFlip]

/-- `UnpackInteger` undoes `PackInteger` for every length both accept. -/
theorem unpackInteger_copyInteger {length : Nat} (hl : 2 ≤ length) {ptr : List UInt8}
    (h : ptr.length = length) (u : Bool) :
    unpackInteger (copyInteger ptr length u) length u = .ok ptr := by
  have hlen : (copyInteger ptr length u).length = length := by
    rw [copyInteger_eq (by omega) h, List.length_modifyHead, List.length_reverse, h]
  rw [unpackInteger_eq hl hlen, copyInteger_eq (by omega) h, modifyHead_signFlip_signFlip, List.reverse_reverse]

/-- `UnpackInteger` undoes `PackInteger` for every length from two bytes on;
a one-byte integer, which `PackInteger` packs, it refuses. -/
theorem packInteger_round_trip {length : Nat} {ptr : List UInt8} (h : ptr.length = length) (u : Bool) :
    (packInteger ptr length u).bind (fun bytes => unpackInteger bytes length u) =
      if length < 2 then .error (-1) else .ok ptr := by
  by_cases h0 : length < 1
  · -- `PackInteger` refuses the empty integer itself
    rw [packInteger, if_pos h0, if_pos (by omega)]
    rfl
  · rw [packInteger, if_neg h0]
    show unpackInteger (copyInteger ptr length u) length u = _
    by_cases h1 : length < 2
    · rw [if_pos h1, unpackInteger, if_pos h1]
    · rw [if_neg h1]
      exact unpackInteger_copyInteger (by omega) h u

theorem packInteger_round_trip_int16 :
    ([0x34, 0x12] : List UInt8).length = 2 ∧
      (packInteger [0x34, 0x12] 2 false).bind (fun bytes => unpackInteger bytes 2 false) =
        if 2 < 2 then .error (-1) else .ok [0x34, 0x12] :=
  ⟨rfl, @packInteger_round_trip 2 [0x34, 0x12] rfl false⟩

/-- The value of an `n`-byte two's complement pattern. -/
def toSigned (n v : Nat) : Int := Int.bmod v (256 ^ n)

/-- A signed pattern with its sign bit reversed is the value moved up by half the range. -/
theorem add_half_mod {m v : Nat} (hv : v < 256 ^ (m + 1)) :
    (((v + 128 * 256 ^ m) % 256 ^ (m + 1) : Nat) : Int) = toSigned (m + 1) v + ((128 * 256 ^ m : Nat) : Int) := by
  have hP : 256 ^ (m + 1) = 256 * 256 ^ m := by rw [Nat.pow_succ, Nat.mul_comm]
  have hpos : 0 < 256 ^ m := Nat.pow_pos (by decide)
  rw [hP] at hv
  rw [toSigned, Int.bmod_def, hP]
  generalize 256 ^ m = P at *
  have hmod : (v : Int) % ((256 * P : Nat) : Int) = v := Int.emod_eq_of_lt (by omega) (by omega)
  rw [hmod]
  -- below half the range the pattern is the value, above it the value plus the range
  split_ifs with hlt
  · rw [Nat.mod_eq_of_lt (by omega)]
    omega
  · rw [Nat.mod_eq_sub_mod (by omega), Nat.mod_eq_of_lt (by omega)]
    omega

/-- The packed bytes of a signed integer: the pattern moved up by half the range. -/
theorem copyInteger_signed (m v : Nat) :
    copyInteger (leBytes (m + 1) v) (m + 1) false = beBytes (m + 1) ((v + 128 * 256 ^ m) % 256 ^ (m + 1)) := by
  rw [copyInteger_eq (by omega) (length_leBytes _ _), beBytes_mod, ← flipTop_beBytes]
  rfl

/-- Packed signed integers compare as the integers. -/
theorem copyInteger_lt_copyInteger_iff {m a b : Nat} (ha : a < 256 ^ (m + 1)) (hb : b < 256 ^ (m + 1)) :
    copyInteger (leBytes (m + 1) a) (m + 1) false < copyInteger (leBytes (m + 1) b) (m + 1) false ↔
      toSigned (m + 1) a < toSigned (m + 1) b := by
  have hN : 0 < 256 ^ (m + 1) := by positivity
  rw [copyInteger_signed, copyInteger_signed, beBytes_lt_beBytes_iff (m + 1) (Nat.mod_lt _ hN) (Nat.mod_lt _ hN),
    ← Int.ofNat_lt, add_half_mod ha, add_half_mod hb]
  omega

theorem copyInteger_eq_copyInteger_iff {m a b : Nat} (ha : a < 256 ^ (m + 1)) (hb : b < 256 ^ (m + 1)) :
    copyInteger (leBytes (m + 1) a) (m + 1) false = copyInteger (leBytes (m + 1) b) (m + 1) false ↔
      toSigned (m + 1) a = toSigned (m + 1) b := by
  have hN : 0 < 256 ^ (m + 1) := by positivity
  rw [copyInteger_signed, copyInteger_signed]
  constructor
  · intro h
    have heq := congrArg (fun x : Nat => (x : Int)) (beBytes_inj (Nat.mod_lt _ hN) (Nat.mod_lt _ hN) h)
    simp only [add_half_mod ha, add_half_mod hb] at heq
    omega
  · intro h
    congr 1
    apply Int.ofNat_inj.1
    rw [add_half_mod ha, add_half_mod hb, h]

/-- Packed unsigned integers compare as the numbers. -/
theorem copyInteger_unsigned_lt_iff {n a b : Nat} (hn : 1 ≤ n) (ha : a < 256 ^ n) (hb : b < 256 ^ n) :
    copyInteger (leBytes n a) n true < copyInteger (leBytes n b) n true ↔ a < b := by
  rw [copyInteger_eq hn (length_leBytes _ _), copyInteger_eq hn (length_leBytes _ _)]
  have hid : ∀ l : List UInt8, l.modifyHead (signFlip true) = l := fun l => by cases l <;> rfl
  rw [hid, hid]
  exact beBytes_lt_beBytes_iff n ha hb

/-- Packed integers sort as the integers: signed ones by their two's
complement values, with equal keys exactly for equal values, and unsigned
ones by their numbers. -/
theorem packInteger_sorts {m a b : Nat} (ha : a < 256 ^ (m + 1)) (hb : b < 256 ^ (m + 1)) :
    (copyInteger (leBytes (m + 1) a) (m + 1) false < copyInteger (leBytes (m + 1) b) (m + 1) false ↔
        toSigned (m + 1) a < toSigned (m + 1) b) ∧
      (copyInteger (leBytes (m + 1) a) (m + 1) false = copyInteger (leBytes (m + 1) b) (m + 1) false ↔
        toSigned (m + 1) a = toSigned (m + 1) b) ∧
      (copyInteger (leBytes (m + 1) a) (m + 1) true < copyInteger (leBytes (m + 1) b) (m + 1) true ↔ a < b) :=
  ⟨copyInteger_lt_copyInteger_iff ha hb, copyInteger_eq_copyInteger_iff ha hb,
    copyInteger_unsigned_lt_iff (by omega) ha hb⟩

/-- The `int16_t` `-1` packs below `1`, though its pattern `0xFFFF` is the larger number. -/
theorem packInteger_sorts_int16 :
    ((0xFFFF : Nat) < 256 ^ (1 + 1) ∧ (1 : Nat) < 256 ^ (1 + 1)) ∧
      (copyInteger (leBytes (1 + 1) 0xFFFF) (1 + 1) false < copyInteger (leBytes (1 + 1) 1) (1 + 1) false ↔
          toSigned (1 + 1) 0xFFFF < toSigned (1 + 1) 1) ∧
        (copyInteger (leBytes (1 + 1) 0xFFFF) (1 + 1) false = copyInteger (leBytes (1 + 1) 1) (1 + 1) false ↔
          toSigned (1 + 1) 0xFFFF = toSigned (1 + 1) 1) ∧
        (copyInteger (leBytes (1 + 1) 0xFFFF) (1 + 1) true < copyInteger (leBytes (1 + 1) 1) (1 + 1) true ↔
          0xFFFF < 1) :=
  ⟨⟨by decide, by decide⟩, packInteger_sorts (by decide) (by decide)⟩

end Fedb.Codec
