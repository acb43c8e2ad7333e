import Mathlib

/-! # Byte buffers with fixed-width fields

A buffer is a `List UInt8` of fixed length, written in place: a store past
its end is lost (as `List.set` does) and a load past its end reads `0`.
Multi-byte fields are stored and loaded at an offset, least significant byte
first (`LE`, what a `reinterpret_cast` store does on a little-endian machine)
or most significant byte first (`BE`). Single bits of a byte are set, cleared
and tested with a one-bit mask, as `x |= 1 << k`, `x &= ~(1 << k)` and
`x & (1 << k)` do in C.

A layout proof needs three facts about every store, and this file gives them
for each kind: a load after a store at the same place returns the stored
value, a store leaves every byte outside its range alone, and a load depends
only on the bytes of its range.
-/

namespace ByteBuffer

/-- The byte at `i`, `0` past the end. -/
def byteAt (buf : List UInt8) (i : Nat) : UInt8 := buf.getD i 0

/-- Store the low `n` bytes of `v` at `off`, least significant byte first. -/
def writeLE : List UInt8 → Nat → Nat → Nat → List UInt8
  | buf, _, 0, _ => buf
  | buf, off, n + 1, v => writeLE (buf.set off (UInt8.ofNat (v % 256))) (off + 1) n (v / 256)

/-- Load `n` bytes at `off`, least significant byte first. -/
def readLE (buf : List UInt8) : Nat → Nat → Nat
  | _, 0 => 0
  | off, n + 1 => (byteAt buf off).toNat + 256 * readLE buf (off + 1) n

/-- Store the low `n` bytes of `v` at `off`, most significant byte first. -/
def writeBE : List UInt8 → Nat → Nat → Nat → List UInt8
  | buf, _, 0, _ => buf
  | buf, off, n + 1, v => (writeBE buf off n (v / 256)).set (off + n) (UInt8.ofNat (v % 256))

/-- Load `n` bytes at `off`, most significant byte first. -/
def readBE (buf : List UInt8) (off : Nat) : Nat → Nat
  | 0 => 0
  | n + 1 => readBE buf off n * 256 + (byteAt buf (off + n)).toNat

/-- Store the bytes `bs` from `off` on, as `memcpy` does. -/
def writeBytes : List UInt8 → Nat → List UInt8 → List UInt8
  | buf, _, [] => buf
  | buf, off, b :: bs => writeBytes (buf.set off b) (off + 1) bs

/-- The `n` bytes from `off` on. -/
def readBytes (buf : List UInt8) (off n : Nat) : List UInt8 :=
  (List.range n).map fun i => byteAt buf (off + i)

/-- Store `b` in the `n` bytes from `off` on, as `memset` does. -/
def fill : List UInt8 → Nat → Nat → UInt8 → List UInt8
  | buf, _, 0, _ => buf
  | buf, off, n + 1, b => fill (buf.set off b) (off + 1) n b

/-- `x | (1 << k)`: the byte with bit `k` set. -/
def setBit (x : UInt8) (k : Nat) : UInt8 := x ||| ((1 : UInt8) <<< UInt8.ofNat k)

/-- `x & ~(1 << k)`: the byte with bit `k` cleared. -/
def clearBit (x : UInt8) (k : Nat) : UInt8 := x &&& ~~~((1 : UInt8) <<< UInt8.ofNat k)

/-- `(x & (1 << k)) != 0`: whether bit `k` of the byte is set. -/
def testBit (x : UInt8) (k : Nat) : Bool := x &&& ((1 : UInt8) <<< UInt8.ofNat k) != 0

/-- Store `f (byteAt buf i)` at `i`: a read-modify-write of one byte. -/
def modifyByte (buf : List UInt8) (i : Nat) (f : UInt8 → UInt8) : List UInt8 :=
  buf.set i (f (byteAt buf i))

/-! ## Lengths -/

@[simp] theorem length_writeLE (buf : List UInt8) (off n v : Nat) :
    (writeLE buf off n v).length = buf.length := by
  induction n generalizing buf off v with
  | zero => rfl
  | succ n ih => simp [writeLE, ih]

@[simp] theorem length_writeBE (buf : List UInt8) (off n v : Nat) :
    (writeBE buf off n v).length = buf.length := by
  induction n generalizing v with
  | zero => rfl
  | succ n ih => simp [writeBE, ih]

@[simp] theorem length_writeBytes (buf : List UInt8) (off : Nat) (bs : List UInt8) :
    (writeBytes buf off bs).length = buf.length := by
  induction bs generalizing buf off with
  | nil => rfl
  | cons b bs ih => simp [writeBytes, ih]

@[simp] theorem length_fill (buf : List UInt8) (off n : Nat) (b : UInt8) :
    (fill buf off n b).length = buf.length := by
  induction n generalizing buf off with
  | zero => rfl
  | succ n ih => simp [fill, ih]

@[simp] theorem length_readBytes (buf : List UInt8) (off n : Nat) :
    (readBytes buf off n).length = n := by
  simp [readBytes]

@[simp] theorem length_modifyByte (buf : List UInt8) (i : Nat) (f : UInt8 → UInt8) :
    (modifyByte buf i f).length = buf.length := by
  simp [modifyByte]

/-! ## Single bytes -/

theorem byteAt_set_self {buf : List UInt8} {i : Nat} (b : UInt8) (h : i < buf.length) :
    byteAt (buf.set i b) i = b := by
  simp [byteAt, List.getD_eq_getElem?_getD, h]

theorem byteAt_set_of_ne {buf : List UInt8} {i j : Nat} (b : UInt8) (h : i ≠ j) :
    byteAt (buf.set i b) j = byteAt buf j := by
  simp [byteAt, List.getD_eq_getElem?_getD, h]

theorem byteAt_modifyByte_self {buf : List UInt8} {i : Nat} (f : UInt8 → UInt8)
    (h : i < buf.length) : byteAt (modifyByte buf i f) i = f (byteAt buf i) :=
  byteAt_set_self _ h

theorem byteAt_modifyByte_of_ne {buf : List UInt8} {i j : Nat} (f : UInt8 → UInt8)
    (h : i ≠ j) : byteAt (modifyByte buf i f) j = byteAt buf j :=
  byteAt_set_of_ne _ h

/-! ## Frames: a store leaves the bytes outside its range alone -/

theorem byteAt_writeLE_of_lt {buf : List UInt8} {off n v i : Nat} (h : i < off) :
    byteAt (writeLE buf off n v) i = byteAt buf i := by
  induction n generalizing buf off v with
  | zero => rfl
  | succ n ih =>
    simp only [writeLE]
    rw [ih (by omega), byteAt_set_of_ne _ (by omega)]

theorem byteAt_writeLE_of_ge {buf : List UInt8} {off n v i : Nat} (h : off + n ≤ i) :
    byteAt (writeLE buf off n v) i = byteAt buf i := by
  induction n generalizing buf off v with
  | zero => rfl
  | succ n ih =>
    simp only [writeLE]
    rw [ih (by omega), byteAt_set_of_ne _ (by omega)]

theorem byteAt_writeLE_outside {buf : List UInt8} {off n v i : Nat}
    (h : i < off ∨ off + n ≤ i) : byteAt (writeLE buf off n v) i = byteAt buf i := by
  rcases h with h | h
  · exact byteAt_writeLE_of_lt h
  · exact byteAt_writeLE_of_ge h

/-- A read-modify-write of one byte commutes with a store that misses it. -/
theorem writeLE_modifyByte_comm {i : Nat} (f : UInt8 → UInt8) :
    ∀ {buf : List UInt8} {off n v : Nat}, (i < off ∨ off + n ≤ i) →
      writeLE (modifyByte buf i f) off n v = modifyByte (writeLE buf off n v) i f
  | _, _, 0, _, _ => rfl
  | buf, off, n + 1, v, h => by
    have hne : i ≠ off := by omega
    have hswap : (modifyByte buf i f).set off (UInt8.ofNat (v % 256)) =
        modifyByte (buf.set off (UInt8.ofNat (v % 256))) i f := by
      rw [modifyByte, modifyByte, byteAt_set_of_ne _ (Ne.symm hne), List.set_comm _ _ hne]
    simp only [writeLE]
    rw [hswap]
    exact writeLE_modifyByte_comm f (by omega)

theorem byteAt_writeBE_outside {buf : List UInt8} {off n v i : Nat}
    (h : i < off ∨ off + n ≤ i) : byteAt (writeBE buf off n v) i = byteAt buf i := by
  induction n generalizing v with
  | zero => rfl
  | succ n ih =>
    simp only [writeBE]
    rw [byteAt_set_of_ne _ (by omega), ih (by omega)]

theorem byteAt_writeBytes_outside {buf : List UInt8} {off i : Nat} {bs : List UInt8}
    (h : i < off ∨ off + bs.length ≤ i) : byteAt (writeBytes buf off bs) i = byteAt buf i := by
  induction bs generalizing buf off with
  | nil => rfl
  | cons b bs ih =>
    simp only [writeBytes]
    rw [ih (by simp at h; omega), byteAt_set_of_ne _ (by simp at h; omega)]

theorem byteAt_fill_outside {buf : List UInt8} {off n i : Nat} {b : UInt8}
    (h : i < off ∨ off + n ≤ i) : byteAt (fill buf off n b) i = byteAt buf i := by
  induction n generalizing buf off with
  | zero => rfl
  | succ n ih =>
    simp only [fill]
    rw [ih (by omega), byteAt_set_of_ne _ (by omega)]

theorem byteAt_fill_inside {buf : List UInt8} {off n i : Nat} {b : UInt8}
    (h1 : off ≤ i) (h2 : i < off + n) (hlen : off + n ≤ buf.length) :
    byteAt (fill buf off n b) i = b := by
  induction n generalizing buf off with
  | zero => omega
  | succ n ih =>
    simp only [fill]
    by_cases hi : i = off
    · subst hi
      rw [byteAt_fill_outside (Or.inl (by omega)), byteAt_set_self _ (by omega)]
    · exact ih (by omega) (by omega) (by simp; omega)

/-! ## Loads depend only on the bytes of their range -/

theorem readLE_congr {a b : List UInt8} {off n : Nat}
    (h : ∀ i, off ≤ i → i < off + n → byteAt a i = byteAt b i) :
    readLE a off n = readLE b off n := by
  induction n generalizing off with
  | zero => rfl
  | succ n ih =>
    simp only [readLE]
    rw [h off (le_refl _) (by omega), ih (fun i h1 h2 => h i (by omega) (by omega))]

theorem readBE_congr {a b : List UInt8} {off n : Nat}
    (h : ∀ i, off ≤ i → i < off + n → byteAt a i = byteAt b i) :
    readBE a off n = readBE b off n := by
  induction n with
  | zero => rfl
  | succ n ih =>
    simp only [readBE]
    rw [h (off + n) (by omega) (by omega), ih (fun i h1 h2 => h i h1 (by omega))]

theorem readBytes_congr {a b : List UInt8} {off n : Nat}
    (h : ∀ i, off ≤ i → i < off + n → byteAt a i = byteAt b i) :
    readBytes a off n = readBytes b off n := by
  unfold readBytes
  apply List.map_congr_left
  intro i hi
  rw [List.mem_range] at hi
  exact h (off + i) (by omega) (by omega)

theorem byteAt_append_of_lt {a : List UInt8} {i : Nat} (b : List UInt8) (h : i < a.length) :
    byteAt (a ++ b) i = byteAt a i :=
  List.getD_append a b 0 i h

/-- A load within a prefix reads the prefix. -/
theorem readLE_append_of_le {a : List UInt8} {off n : Nat} (b : List UInt8) (h : off + n ≤ a.length) :
    readLE (a ++ b) off n = readLE a off n :=
  readLE_congr fun i _ hi => byteAt_append_of_lt b (by omega)

/-- A load is unchanged by a store to a disjoint range. -/
theorem readLE_writeLE_disjoint {buf : List UInt8} {off n v off' n' : Nat}
    (h : off' + n' ≤ off ∨ off + n ≤ off') :
    readLE (writeLE buf off n v) off' n' = readLE buf off' n' :=
  readLE_congr fun _ h1 h2 => byteAt_writeLE_outside (by omega)

theorem readBE_writeLE_disjoint {buf : List UInt8} {off n v off' n' : Nat}
    (h : off' + n' ≤ off ∨ off + n ≤ off') :
    readBE (writeLE buf off n v) off' n' = readBE buf off' n' :=
  readBE_congr fun _ h1 h2 => byteAt_writeLE_outside (by omega)

theorem readLE_writeBE_disjoint {buf : List UInt8} {off n v off' n' : Nat}
    (h : off' + n' ≤ off ∨ off + n ≤ off') :
    readLE (writeBE buf off n v) off' n' = readLE buf off' n' :=
  readLE_congr fun _ h1 h2 => byteAt_writeBE_outside (by omega)

theorem readBE_writeBE_disjoint {buf : List UInt8} {off n v off' n' : Nat}
    (h : off' + n' ≤ off ∨ off + n ≤ off') :
    readBE (writeBE buf off n v) off' n' = readBE buf off' n' :=
  readBE_congr fun _ h1 h2 => byteAt_writeBE_outside (by omega)

theorem readLE_modifyByte_disjoint {buf : List UInt8} {i off n : Nat} (f : UInt8 → UInt8)
    (h : i < off ∨ off + n ≤ i) : readLE (modifyByte buf i f) off n = readLE buf off n :=
  readLE_congr fun _ h1 h2 => byteAt_modifyByte_of_ne f (by omega)

theorem readBE_modifyByte_disjoint {buf : List UInt8} {i off n : Nat} (f : UInt8 → UInt8)
    (h : i < off ∨ off + n ≤ i) : readBE (modifyByte buf i f) off n = readBE buf off n :=
  readBE_congr fun _ h1 h2 => byteAt_modifyByte_of_ne f (by omega)

/-! ## Round trips: a load after a store returns the stored value -/

theorem toNat_ofNat_mod (v : Nat) : (UInt8.ofNat (v % 256)).toNat = v % 256 := by
  rw [UInt8.toNat_ofNat']
  omega

theorem readLE_writeLE {buf : List UInt8} {off n : Nat} (v : Nat) (h : off + n ≤ buf.length) :
    readLE (writeLE buf off n v) off n = v % 256 ^ n := by
  induction n generalizing buf off v with
  | zero => simp [readLE, Nat.mod_one]
  | succ n ih =>
    -- the first byte survives the stores of the remaining `n`, which start past it
    have hfirst : byteAt (writeLE (buf.set off (UInt8.ofNat (v % 256))) (off + 1) n (v / 256)) off
        = UInt8.ofNat (v % 256) := by
      rw [byteAt_writeLE_of_lt (by omega), byteAt_set_self _ (by omega)]
    have hrest := @ih (buf.set off (UInt8.ofNat (v % 256))) (off + 1) (v / 256) (by simp; omega)
    simp only [writeLE, readLE, hfirst, hrest, toNat_ofNat_mod]
    rw [pow_succ', Nat.mod_mul]

theorem readBE_writeBE {buf : List UInt8} {off n : Nat} (v : Nat) (h : off + n ≤ buf.length) :
    readBE (writeBE buf off n v) off n = v % 256 ^ n := by
  induction n generalizing v with
  | zero => simp [readBE, Nat.mod_one]
  | succ n ih =>
    have hlast : byteAt ((writeBE buf off n (v / 256)).set (off + n) (UInt8.ofNat (v % 256)))
        (off + n) = UInt8.ofNat (v % 256) := byteAt_set_self _ (by simp; omega)
    have hinit : readBE ((writeBE buf off n (v / 256)).set (off + n) (UInt8.ofNat (v % 256))) off n
        = readBE (writeBE buf off n (v / 256)) off n :=
      readBE_congr fun i _ h2 => byteAt_set_of_ne _ (by omega)
    simp only [writeBE, readBE, hlast, hinit, ih (v / 256) (by omega), toNat_ofNat_mod]
    rw [pow_succ', Nat.mod_mul]
    omega

@[simp] theorem getElem_readBytes (buf : List UInt8) (off n i : Nat) (h : i < (readBytes buf off n).length) :
    (readBytes buf off n)[i] = byteAt buf (off + i) := by
  simp [readBytes]

theorem byteAt_writeBytes_inside {buf : List UInt8} {off i : Nat} {bs : List UInt8}
    (h1 : off ≤ i) (h2 : i < off + bs.length) (hlen : off + bs.length ≤ buf.length) :
    byteAt (writeBytes buf off bs) i = bs.getD (i - off) 0 := by
  induction bs generalizing buf off with
  | nil => simp at h2; omega
  | cons b bs ih =>
    simp only [List.length_cons] at h2 hlen
    simp only [writeBytes]
    by_cases hi : i = off
    · subst hi
      rw [byteAt_writeBytes_outside (Or.inl (by omega)), byteAt_set_self _ (by omega)]
      simp
    · rw [ih (by omega) (by omega) (by simp; omega)]
      have hsucc : i - off = (i - (off + 1)) + 1 := by omega
      simp [hsucc]

theorem readBytes_writeBytes {buf : List UInt8} {off : Nat} (bs : List UInt8)
    (h : off + bs.length ≤ buf.length) : readBytes (writeBytes buf off bs) off bs.length = bs := by
  apply List.ext_getElem (by simp)
  intro i h1 h2
  rw [getElem_readBytes, byteAt_writeBytes_inside (by omega) (by omega) h]
  simp [List.getD_eq_getElem?_getD, h2]

/-- A field narrower than its width reads back exactly. -/
theorem readLE_writeLE_of_lt {buf : List UInt8} {off n v : Nat} (h : off + n ≤ buf.length)
    (hv : v < 256 ^ n) : readLE (writeLE buf off n v) off n = v := by
  rw [readLE_writeLE v h, Nat.mod_eq_of_lt hv]

theorem readBE_writeBE_of_lt {buf : List UInt8} {off n v : Nat} (h : off + n ≤ buf.length)
    (hv : v < 256 ^ n) : readBE (writeBE buf off n v) off n = v := by
  rw [readBE_writeBE v h, Nat.mod_eq_of_lt hv]

/-! ## The three-byte big-endian form written with shifts and masks -/

theorem ofNat_eq_of_mod_eq {a b : Nat} (h : a % 256 = b % 256) : UInt8.ofNat a = UInt8.ofNat b :=
  calc UInt8.ofNat a = UInt8.ofNat (a % 2 ^ 8) := UInt8.ofNat_mod_size.symm
    _ = UInt8.ofNat (b % 2 ^ 8) := congrArg UInt8.ofNat h
    _ = UInt8.ofNat b := UInt8.ofNat_mod_size

/-- Storing the bytes `v >> 16`, `(v & 0xFF00) >> 8` and `v & 0xFF` one after
the other is the big-endian store of `v` in three bytes. -/
theorem writeBE_three (buf : List UInt8) (ptr v : Nat) :
    ((buf.set ptr (UInt8.ofNat (v >>> 16))).set (ptr + 1) (UInt8.ofNat ((v &&& 0xFF00) >>> 8))).set
      (ptr + 2) (UInt8.ofNat (v &&& 0x00FF)) = writeBE buf ptr 3 v := by
  have h0 : UInt8.ofNat (v >>> 16) = UInt8.ofNat (v / 256 / 256 % 256) := by
    apply ofNat_eq_of_mod_eq
    rw [Nat.shiftRight_eq_div_pow]
    omega
  -- the mask keeps bits 8 to 15, which the shift brings down
  have h1 : UInt8.ofNat ((v &&& 0xFF00) >>> 8) = UInt8.ofNat (v / 256 % 256) := by
    apply ofNat_eq_of_mod_eq
    rw [Nat.shiftRight_and_distrib, show (0xFF00 : Nat) >>> 8 = 2 ^ 8 - 1 by rfl,
      Nat.and_two_pow_sub_one_eq_mod, Nat.shiftRight_eq_div_pow]
  have h2 : UInt8.ofNat (v &&& 0x00FF) = UInt8.ofNat (v % 256) := by
    rw [show (0x00FF : Nat) = 2 ^ 8 - 1 by rfl, Nat.and_two_pow_sub_one_eq_mod]
  simp only [writeBE, Nat.add_zero, h0, h1, h2]

/-- The three-byte big-endian load written with shifts. -/
theorem readBE_three (buf : List UInt8) (ptr : Nat) :
    readBE buf ptr 3 = ((((byteAt buf ptr).toNat <<< 8) + (byteAt buf (ptr + 1)).toNat) <<< 8) +
      (byteAt buf (ptr + 2)).toNat := by
  simp only [readBE, Nat.add_zero, Nat.shiftLeft_eq]
  omega

/-! ## Bits of a byte -/

theorem toBitVec_one_shiftLeft {k : Nat} (hk : k < 8) :
    ((1 : UInt8) <<< UInt8.ofNat k).toBitVec = BitVec.twoPow 8 k := by
  apply BitVec.eq_of_getLsbD_eq
  intro i _
  simp [UInt8.toBitVec_shiftLeft, BitVec.getLsbD_shiftLeft, BitVec.getLsbD_twoPow,
    Nat.mod_eq_of_lt hk]
  by_cases h : i = k
  · simp [h, hk]
  · simp [hk, Ne.symm h]
    omega

theorem testBit_eq_getLsbD (x : UInt8) {k : Nat} (hk : k < 8) :
    testBit x k = x.toBitVec.getLsbD k := by
  have hand : (x &&& ((1 : UInt8) <<< UInt8.ofNat k)).toBitVec
      = x.toBitVec &&& BitVec.twoPow 8 k := by
    rw [UInt8.toBitVec_and, toBitVec_one_shiftLeft hk]
  have hne : BitVec.twoPow 8 k ≠ 0#8 := by
    intro h0
    have := congrArg (fun v => v.getLsbD k) h0
    simp [hk] at this
  unfold testBit
  by_cases hb : x.toBitVec.getLsbD k
  · simp only [hb, bne_iff_ne, ne_eq, ← UInt8.toBitVec_inj, hand, BitVec.and_twoPow]
    simpa using hne
  · simp only [hb, bne_eq_false_iff_eq, ← UInt8.toBitVec_inj, hand, BitVec.and_twoPow]
    rfl

/-- Every bit of `0xFF` is set. -/
theorem testBit_ff {k : Nat} (hk : k < 8) : testBit 0xFF k = true := by
  interval_cases k <;> decide

theorem testBit_setBit (x : UInt8) {j k : Nat} (hj : j < 8) (hk : k < 8) :
    testBit (setBit x k) j = (j == k || testBit x j) := by
  rw [testBit_eq_getLsbD _ hj, testBit_eq_getLsbD _ hj, setBit, UInt8.toBitVec_or,
    toBitVec_one_shiftLeft hk, BitVec.getLsbD_or, BitVec.getLsbD_twoPow]
  by_cases h : j = k
  · simp [h, hk]
  · simp [h, Ne.symm h]

theorem testBit_clearBit (x : UInt8) {j k : Nat} (hj : j < 8) (hk : k < 8) :
    testBit (clearBit x k) j = (j != k && testBit x j) := by
  rw [testBit_eq_getLsbD _ hj, testBit_eq_getLsbD _ hj, clearBit, UInt8.toBitVec_and,
    UInt8.toBitVec_not, toBitVec_one_shiftLeft hk, BitVec.getLsbD_and, BitVec.getLsbD_not,
    BitVec.getLsbD_twoPow]
  by_cases h : j = k
  · simp [h, hk]
  · simp [h, Ne.symm h, hj]

/-! ## Fields at an offset of a buffer

A decoder that walks a buffer reads each field where the buffer, dropped to
the field's offset, begins with the field's bytes; these lemmas read a
field so placed, whatever follows it. -/

/-- The `n` bytes of `v`, least significant first: what `memcpy` copies out
of an `n`-byte integer on a little-endian machine. -/
def leBytes : Nat → Nat → List UInt8
  | 0, _ => []
  | n + 1, v => UInt8.ofNat (v % 256) :: leBytes n (v / 256)

/-- `resize(n)` of a string: cut to `n` bytes, or padded with zeros. -/
def resize (buf : List UInt8) (n : Nat) : List UInt8 := buf.take n ++ List.replicate (n - buf.length) 0

@[simp] theorem length_leBytes (n v : Nat) : (leBytes n v).length = n := by
  induction n generalizing v with
  | zero => rfl
  | succ n ih => simp [leBytes, ih]

@[simp] theorem length_resize (buf : List UInt8) (n : Nat) : (resize buf n).length = n := by
  simp only [resize, List.length_append, List.length_take, List.length_replicate]
  omega

theorem byteAt_of_drop {buf rest : List UInt8} {off : Nat} {b : UInt8} (h : buf.drop off = b :: rest) :
    byteAt buf off = b := by
  have hget : buf[off]? = some b := by
    rw [← Nat.add_zero off, ← List.getElem?_drop, h]
    rfl
  rw [byteAt, List.getD_eq_getElem?_getD, hget]
  rfl

theorem drop_succ_of_drop {buf rest : List UInt8} {off : Nat} {b : UInt8} (h : buf.drop off = b :: rest) :
    buf.drop (off + 1) = rest := by
  rw [← List.drop_drop, h]
  rfl

/-- Past a prefix of what stands at `off`, the rest stands. -/
theorem drop_add_of_drop {buf front rest : List UInt8} {off : Nat} (h : buf.drop off = front ++ rest) :
    buf.drop (off + front.length) = rest := by
  rw [← List.drop_drop, h, List.drop_left]

/-- A little-endian field read where its bytes are. -/
theorem readLE_of_drop {n : Nat} : ∀ {buf rest : List UInt8} {off v : Nat},
    buf.drop off = leBytes n v ++ rest → readLE buf off n = v % 256 ^ n := by
  induction n with
  | zero => intros; simp only [readLE, pow_zero, Nat.mod_one]
  | succ n ih =>
    intro buf rest off v h
    rw [leBytes, List.cons_append] at h
    rw [readLE, byteAt_of_drop h, ih (drop_succ_of_drop h), toNat_ofNat_mod, pow_succ,
      Nat.mul_comm (256 ^ n) 256, Nat.mod_mul]

/-- Bytes read where they are. -/
theorem readBytes_of_drop {buf bs rest : List UInt8} {off : Nat} (h : buf.drop off = bs ++ rest) :
    readBytes buf off bs.length = bs := by
  apply List.ext_getElem (by simp)
  intro i h1 h2
  have hget : buf[off + i]? = some bs[i] := by
    rw [← List.getElem?_drop, h, List.getElem?_append_left h2, List.getElem?_eq_getElem h2]
  rw [getElem_readBytes, byteAt, List.getD_eq_getElem?_getD, hget]
  rfl

/-- A store inside a buffer replaces the bytes of its range. -/
theorem writeBytes_eq {bs : List UInt8} : ∀ {buf : List UInt8} {off : Nat}, off + bs.length ≤ buf.length →
    writeBytes buf off bs = buf.take off ++ bs ++ buf.drop (off + bs.length) := by
  induction bs with
  | nil => intros; simp [writeBytes]
  | cons b bs ih =>
    intro buf off h
    simp only [List.length_cons] at h
    have hset : buf.set off b = buf.take off ++ b :: buf.drop (off + 1) := by
      rw [List.set_eq_take_append_cons_drop, if_pos (by omega)]
    have hA : (buf.take off).length = off := by simp; omega
    -- the byte stored at `off` and what follows the range
    have h1 : (buf.take off ++ b :: buf.drop (off + 1)).take (off + 1) = buf.take off ++ [b] := by
      rw [List.take_append, hA, List.take_of_length_le (l := buf.take off) (by omega),
        show off + 1 - off = 1 by omega]
      rfl
    have h2 : (buf.take off ++ b :: buf.drop (off + 1)).drop (off + 1 + bs.length) =
        buf.drop (off + (bs.length + 1)) := by
      rw [List.drop_append, hA,
        List.drop_eq_nil_of_le (show (buf.take off).length ≤ off + 1 + bs.length by omega), List.nil_append,
        show off + 1 + bs.length - off = bs.length + 1 by omega, List.drop_succ_cons, List.drop_drop]
      congr 1
      omega
    rw [writeBytes, ih (by simp; omega), hset, h1, h2]
    simp

/-- A store that covers the whole buffer leaves only what it stored. -/
theorem writeBytes_whole {buf bs : List UInt8} (h : bs.length = buf.length) : writeBytes buf 0 bs = bs := by
  rw [writeBytes_eq (by omega), List.take_zero, List.nil_append, Nat.zero_add, h, List.drop_length,
    List.append_nil]

/-- Two stores, the second right after the first, are one store of both. -/
theorem writeBytes_append (a : List UInt8) :
    ∀ (buf : List UInt8) (off : Nat) (b : List UInt8),
      writeBytes (writeBytes buf off a) (off + a.length) b = writeBytes buf off (a ++ b) := by
  induction a with
  | nil => intro buf off b; rfl
  | cons x a ih =>
    intro buf off b
    rw [List.cons_append, writeBytes, writeBytes, List.length_cons, ← ih (buf.set off x) (off + 1) b]
    congr 1
    omega

/-- Nothing can be stored in an empty buffer. -/
theorem writeBytes_nil (off : Nat) (bs : List UInt8) : writeBytes [] off bs = [] :=
  List.eq_nil_of_length_eq_zero (by rw [length_writeBytes, List.length_nil])

end ByteBuffer
