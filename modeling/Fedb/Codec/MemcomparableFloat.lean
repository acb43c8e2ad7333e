import Fedb.Codec.Memcomparable

/-! # Packed floating-point keys

`PackFloat` and `PackDouble` are one function of the width and the exponent
bits, `packFloatingPoint`. On the bits of a finite value it writes the
big-endian bytes of the value's `BinaryFloat.sortKey`
(`packFloatingPoint_leBytes`), so that

* packed keys compare as the values and are equal exactly for equal values
  (`packFloatingPoint_lt_iff`, `packFloatingPoint_eq_iff`);
* `UnpackFloatingPoint` gives the bits back, `-0.0` as `0.0`
  (`unpackFloatingPoint_packFloatingPoint`).

The exponent step of a positive value is a `uint16_t` addition, which wraps
for the patterns whose exponent field is all ones: `+∞` packs below every
finite value (`packFloat_infinity_below`). The source assumes no infinity and
no NaN is stored.
-/

namespace Fedb.Codec

open ByteBuffer ByteOrder BinaryFloat

/-! ## The top two bytes -/

theorem beBytes_succ_succ (n v : Nat) :
    beBytes (n + 2) v = UInt8.ofNat (v / 256 ^ (n + 1) % 256) :: UInt8.ofNat (v / 256 ^ n % 256) :: beBytes n v := by
  rw [beBytes_succ, beBytes_succ]

theorem byteAt_beBytes_zero (n v : Nat) : byteAt (beBytes (n + 1) v) 0 = UInt8.ofNat (v / 256 ^ n % 256) := by
  rw [beBytes_succ, byteAt, List.getD_cons_zero]

theorem toNat_top16_beBytes (n v : Nat) : (top16 (beBytes (n + 2) v)).toNat = v / 256 ^ n % 65536 := by
  have hdiv : v / 256 ^ (n + 1) = v / 256 ^ n / 256 := by rw [pow_succ, Nat.div_div_eq_div_mul]
  rw [beBytes_succ_succ, top16, byteAt, byteAt, List.getD_cons_zero, List.getD_cons_succ, List.getD_cons_zero,
    UInt16.toNat_or, UInt16.toNat_shiftLeft, UInt8.toNat_toUInt16, UInt8.toNat_toUInt16, UInt8.toNat_ofNat',
    UInt8.toNat_ofNat', Nat.mod_mod, Nat.mod_mod, hdiv]
  generalize v / 256 ^ n = w
  have hhi : (w / 256 % 256) <<< 8 < 2 ^ 16 := by rw [Nat.shiftLeft_eq]; omega
  rw [show (8 : UInt16).toNat % 16 = 8 from rfl, Nat.mod_eq_of_lt hhi,
    ← Nat.shiftLeft_add_eq_or_of_lt (Nat.mod_lt w (by decide : 0 < 2 ^ 8)), Nat.shiftLeft_eq]
  omega

theorem setTop16_beBytes (n v : Nat) (x : UInt16) :
    setTop16 (beBytes (n + 2) v) x = beBytes (n + 2) (x.toNat * 256 ^ n + v % 256 ^ n) := by
  have hpos : 0 < 256 ^ n := Nat.pow_pos (by decide)
  have hr : v % 256 ^ n < 256 ^ n := Nat.mod_lt v hpos
  -- the new top two bytes are `x`, the rest is kept
  have hdiv : (x.toNat * 256 ^ n + v % 256 ^ n) / 256 ^ n = x.toNat := by
    rw [Nat.add_comm, Nat.add_mul_div_right _ _ hpos, Nat.div_eq_of_lt hr, Nat.zero_add]
  have hdiv1 : (x.toNat * 256 ^ n + v % 256 ^ n) / 256 ^ (n + 1) = x.toNat / 256 := by
    rw [pow_succ, ← Nat.div_div_eq_div_mul, hdiv]
  have hmod : (x.toNat * 256 ^ n + v % 256 ^ n) % 256 ^ n = v % 256 ^ n := by
    rw [Nat.add_comm, Nat.add_mul_mod_self_right, Nat.mod_mod]
  rw [beBytes_succ_succ, beBytes_succ_succ (v := x.toNat * 256 ^ n + v % 256 ^ n), setTop16, List.set_cons_zero,
    List.set_cons_succ, List.set_cons_zero, hdiv, hdiv1, ← beBytes_mod n (_ + _), hmod, beBytes_mod]
  congr 1
  · rw [← UInt8.toNat_inj, UInt16.toNat_toUInt8, UInt16.toNat_shiftRight, UInt8.toNat_ofNat',
      show (8 : UInt16).toNat % 16 = 8 from rfl, Nat.shiftRight_eq_div_pow]
    omega
  · congr 1
    rw [← UInt8.toNat_inj, UInt16.toNat_toUInt8, UInt8.toNat_ofNat']
    omega

/-- `(uint16_t)1 << (16 - 1 - exp_digit)`: one step of the exponent field in the top two bytes. -/
theorem toNat_exponentStep {E : Nat} (hE : E ≤ 15) :
    ((1 : UInt16) <<< UInt16.ofNat (16 - 1 - E)).toNat = 2 ^ (15 - E) := by
  have hlt : 2 ^ (15 - E) < 2 ^ 16 := Nat.pow_lt_pow_right (by decide) (by omega)
  rw [UInt16.toNat_shiftLeft, UInt16.toNat_ofNat', show (1 : UInt16).toNat = 1 from rfl, Nat.one_shiftLeft,
    Nat.mod_eq_of_lt (show 16 - 1 - E < 2 ^ 16 by omega), Nat.mod_eq_of_lt (show 16 - 1 - E < 16 by omega),
    show 16 - 1 - E = 15 - E by omega, Nat.mod_eq_of_lt hlt]

/-- `128, 0, …`, the key of both zeros. -/
theorem zeroPattern_eq (n : Nat) : (128 : UInt8) :: List.replicate n 0 = beBytes (n + 1) (128 * 256 ^ n) := by
  have hpos : 0 < 256 ^ n := Nat.pow_pos (by decide)
  rw [beBytes_succ, Nat.mul_div_cancel _ hpos, ← beBytes_mod n, Nat.mul_mod_left, beBytes, leBytes_zero,
    List.reverse_replicate]
  rfl

/-- The swap of big-endian bytes is the little-endian bytes. -/
theorem swapBytes_beBytes (n v : Nat) : swapBytes n (beBytes n v) = leBytes n v := by
  rw [swapBytes_eq_reverse (length_beBytes n v), beBytes, List.reverse_reverse]

/-! ## The format of `n + 2` bytes with `E` exponent bits

Its fraction has `M = 8 * n + 15 - E` bits. In the top two bytes the sign
bit is `32768`, and one step of the exponent `2 ^ (15 - E)`; over all the
bytes these are `2 ^ (E + M)` and `2 ^ M`. -/

section Format

variable {n E : Nat}

theorem two_pow_add_eight_mul (k n : Nat) : 2 ^ (k + 8 * n) = 2 ^ k * 256 ^ n := by
  rw [pow_add, pow_mul]
  norm_num

theorem signBit_eq (hE : E ≤ 15) : 2 ^ (E + (8 * n + 15 - E)) = 32768 * 256 ^ n := by
  rw [show E + (8 * n + 15 - E) = 15 + 8 * n by omega, two_pow_add_eight_mul]
  rfl

theorem exponentStep_eq (hE : E ≤ 15) : 2 ^ (8 * n + 15 - E) = 2 ^ (15 - E) * 256 ^ n := by
  rw [show 8 * n + 15 - E = (15 - E) + 8 * n by omega, two_pow_add_eight_mul]

theorem width_eq (hE : E ≤ 15) : 256 ^ (n + 2) = 2 ^ (E + (8 * n + 15 - E) + 1) := by
  rw [show E + (8 * n + 15 - E) + 1 = 16 + 8 * n by omega, two_pow_add_eight_mul, pow_add]
  ring

/-- The exponent steps that fit below the sign bit in the top two bytes. -/
theorem steps_mul_eq (hE : E ≤ 15) : (2 ^ E - 1) * 2 ^ (15 - E) = 32768 - 2 ^ (15 - E) := by
  rw [Nat.sub_mul, Nat.one_mul, ← pow_add, show E + (15 - E) = 15 by omega]
  rfl

/-- The high bit of the first byte: the pattern at or above the sign bit. -/
theorem topBit_iff {v : Nat} (hv : v < 256 ^ (n + 2)) :
    (byteAt (beBytes (n + 2) v) 0 &&& 128 != 0) = true ↔ 32768 * 256 ^ n ≤ v := by
  have htop : 128 * 256 ^ (n + 1) = 32768 * 256 ^ n := by rw [pow_succ]; ring
  have hq : v / 256 ^ (n + 1) < 256 := Nat.div_lt_of_lt_mul (by rw [← pow_succ]; exact hv)
  rw [byteAt_beBytes_zero, bne_iff_ne, ne_eq, and_128_eq_zero_iff, toNat_ofNat_of_lt (Nat.mod_lt _ (by decide)),
    Nat.mod_eq_of_lt hq, Nat.not_lt, Nat.le_div_iff_mul_le (Nat.pow_pos (by decide)), htop]

/-- The sign byte of a pattern tests its sign. -/
theorem signByte_ne_zero_iff (hE : E ≤ 15) {v : Nat} (hv : v < 256 ^ (n + 2)) :
    (byteAt (beBytes (n + 2) v) 0 &&& 128 != 0) = true ↔ sign E (8 * n + 15 - E) v = 1 := by
  rw [topBit_iff hv, sign_eq_one_iff E _ (width_eq hE ▸ hv), signBit_eq hE]

/-- A finite positive pattern is its own magnitude, below the last exponent
of the top two bytes. -/
theorem lt_of_finite_of_sign_eq_zero (hE : E ≤ 15) {v : Nat} (hv : v < 256 ^ (n + 2))
    (hfin : Finite E (8 * n + 15 - E) v) (hs : sign E (8 * n + 15 - E) v = 0) :
    v < (32768 - 2 ^ (15 - E)) * 256 ^ n ∧ mag E (8 * n + 15 - E) v = v := by
  obtain ⟨hsplit, -⟩ := sign_mul_add_mag E (8 * n + 15 - E) (width_eq hE ▸ hv)
  rw [hs, Nat.zero_mul, Nat.zero_add] at hsplit
  unfold BinaryFloat.Finite at hfin
  rw [← hsplit, exponentStep_eq hE, ← Nat.mul_assoc, steps_mul_eq hE] at hfin
  exact ⟨hfin, hsplit.symm⟩

/-- The step up of `PackFloat` on a positive pattern below the last exponent:
the sign bit and one exponent step added to the top two bytes, with no carry
out of them. -/
theorem setTop16_stepUp (hE : E ≤ 15) {v : Nat} (hv : v < (32768 - 2 ^ (15 - E)) * 256 ^ n) :
    setTop16 (beBytes (n + 2) v)
        ((top16 (beBytes (n + 2) v) ||| 32768) + ((1 : UInt16) <<< UInt16.ofNat (16 - 1 - E))) =
      beBytes (n + 2) (32768 * 256 ^ n + 2 ^ (15 - E) * 256 ^ n + v) := by
  have hR : 0 < 256 ^ n := Nat.pow_pos (by decide)
  have htop : v / 256 ^ n < 32768 - 2 ^ (15 - E) := (Nat.div_lt_iff_lt_mul hR).2 hv
  have hdm := Nat.div_add_mod' v (256 ^ n)
  rw [setTop16_beBytes, UInt16.toNat_add, UInt16.toNat_or, toNat_top16_beBytes,
    show (32768 : UInt16).toNat = 32768 from rfl, toNat_exponentStep hE]
  generalize 2 ^ (15 - E) = q at *
  generalize 256 ^ n = R at *
  generalize v / R = t at *
  have hor : t % 65536 ||| 32768 = t + 32768 := by
    rw [Nat.mod_eq_of_lt (by omega)]
    exact Nat.or_two_pow_eq_add_of_lt (n := 15) (by rw [show (2 : Nat) ^ 15 = 32768 from rfl]; omega)
  have hlt : t + 32768 + q < 2 ^ 16 := by
    rw [show (2 : Nat) ^ 16 = 65536 from rfl]
    omega
  rw [hor, Nat.mod_eq_of_lt hlt]
  congr 1
  rw [Nat.add_mul, Nat.add_mul]
  omega

/-- The step down of `UnpackFloatingPoint` undoes the step up: the sign bit
masked off and the exponent step taken back, with no borrow. -/
theorem setTop16_stepDown (hE : E ≤ 15) {v : Nat} (hv : v < (32768 - 2 ^ (15 - E)) * 256 ^ n) :
    setTop16 (beBytes (n + 2) (32768 * 256 ^ n + 2 ^ (15 - E) * 256 ^ n + v))
        ((top16 (beBytes (n + 2) (32768 * 256 ^ n + 2 ^ (15 - E) * 256 ^ n + v)) &&& 0x7FFF) -
          ((1 : UInt16) <<< UInt16.ofNat (16 - 1 - E))) =
      beBytes (n + 2) v := by
  have hR : 0 < 256 ^ n := Nat.pow_pos (by decide)
  have hmod := Nat.div_add_mod' (32768 * 256 ^ n + 2 ^ (15 - E) * 256 ^ n + v) (256 ^ n)
  -- the quotient by `256 ^ n` is the top two bytes, with the sign bit and one step in them
  have hlo : (32768 + 2 ^ (15 - E)) * 256 ^ n ≤ 32768 * 256 ^ n + 2 ^ (15 - E) * 256 ^ n + v := by
    rw [Nat.add_mul]
    omega
  have hge := (Nat.le_div_iff_mul_le hR).2 hlo
  have hlt : (32768 * 256 ^ n + 2 ^ (15 - E) * 256 ^ n + v) / 256 ^ n < 65536 :=
    (Nat.div_lt_iff_lt_mul hR).2 (by rw [Nat.sub_mul] at hv; omega)
  rw [setTop16_beBytes]
  congr 1
  rw [UInt16.toNat_sub, UInt16.toNat_and, toNat_top16_beBytes,
    show (0x7FFF : UInt16).toNat = 2 ^ 15 - 1 from rfl, Nat.and_two_pow_sub_one_eq_mod, toNat_exponentStep hE]
  generalize 2 ^ (15 - E) = q at *
  generalize 256 ^ n = R at *
  generalize (32768 * R + q * R + v) / R = t at *
  have hmask : t % 32768 = t - 32768 := by
    rw [Nat.mod_eq_sub_mod (by omega), Nat.mod_eq_of_lt (by omega)]
  have hback : (65536 - q + (t - 32768)) % 65536 = t - 32768 - q := by
    rw [show 65536 - q + (t - 32768) = 65536 + (t - 32768 - q) by omega, Nat.add_mod_left,
      Nat.mod_eq_of_lt (by omega)]
  have hsub : (t - 32768 - q) * R = t * R - 32768 * R - q * R := by
    rw [Nat.sub_mul, Nat.sub_mul]
  rw [show (2 : Nat) ^ 16 = 65536 from rfl, Nat.mod_eq_of_lt hlt, hmask, hback, hsub]
  have hmul : (32768 + q) * R ≤ t * R := Nat.mul_le_mul_right R hge
  rw [Nat.add_mul] at hmul
  omega

/-- On the bits of a finite value, `PackFloat` and `PackDouble` write the
big-endian bytes of its sort key. -/
theorem packFloatingPoint_leBytes (hE : E ≤ 15) {v : Nat} (hv : v < 256 ^ (n + 2))
    (hfin : Finite E (8 * n + 15 - E) v) :
    packFloatingPoint (n + 2) E (leBytes (n + 2) v) = beBytes (n + 2) (sortKey E (8 * n + 15 - E) v) := by
  have hsplit := sign_mul_add_mag E (8 * n + 15 - E) (width_eq hE ▸ hv)
  have hP := signBit_eq (n := n) hE
  have hQ := exponentStep_eq (n := n) hE
  have hzero : readLE (leBytes (n + 2) v) 0 (n + 2) % 2 ^ (8 * (n + 2) - 1) = mag E (8 * n + 15 - E) v := by
    rw [readLE_leBytes, Nat.mod_eq_of_lt hv, mag, show 8 * (n + 2) - 1 = E + (8 * n + 15 - E) by omega]
  unfold packFloatingPoint sortKey
  rw [hzero, swapBytes_leBytes]
  by_cases h0 : mag E (8 * n + 15 - E) v = 0
  · -- both zeros
    rw [if_pos h0, if_pos h0, show n + 2 - 1 = n + 1 from rfl, zeroPattern_eq, hP, pow_succ]
    congr 1
    ring
  rw [if_neg h0, if_neg h0]
  by_cases hs : sign E (8 * n + 15 - E) v = 1
  · -- a negative value: the complement
    rw [if_pos ((signByte_ne_zero_iff hE hv).2 hs), if_pos hs, map_xor_beBytes (n + 2) hv, width_eq hE]
    congr 1
    rw [hs, Nat.one_mul] at hsplit
    rw [pow_succ]
    omega
  · -- a positive value: the sign bit set and the exponent one step up
    rw [if_neg (fun h => hs ((signByte_ne_zero_iff hE hv).1 h)), if_neg hs]
    obtain ⟨hlow, hmag⟩ := lt_of_finite_of_sign_eq_zero hE hv hfin (by omega)
    rw [hmag, setTop16_stepUp hE hlow, hP, hQ]

theorem sortKey_lt_width (hE : E ≤ 15) {v : Nat} (hfin : Finite E (8 * n + 15 - E) v) :
    sortKey E (8 * n + 15 - E) v < 256 ^ (n + 2) :=
  width_eq hE ▸ (sortKey_pos_lt E _ hfin).2

/-- Packed finite values compare as the values. -/
theorem packFloatingPoint_lt_iff (hE : E ≤ 15) {a b : Nat} (ha : a < 256 ^ (n + 2)) (hb : b < 256 ^ (n + 2))
    (hfa : Finite E (8 * n + 15 - E) a) (hfb : Finite E (8 * n + 15 - E) b) :
    packFloatingPoint (n + 2) E (leBytes (n + 2) a) < packFloatingPoint (n + 2) E (leBytes (n + 2) b) ↔
      value E (8 * n + 15 - E) a < value E (8 * n + 15 - E) b := by
  rw [packFloatingPoint_leBytes hE ha hfa, packFloatingPoint_leBytes hE hb hfb,
    beBytes_lt_beBytes_iff (n + 2) (sortKey_lt_width hE hfa) (sortKey_lt_width hE hfb), sortKey_lt_sortKey_iff]

/-- Packed finite values are equal exactly for equal values: `-0.0` and `0.0` pack alike. -/
theorem packFloatingPoint_eq_iff (hE : E ≤ 15) {a b : Nat} (ha : a < 256 ^ (n + 2)) (hb : b < 256 ^ (n + 2))
    (hfa : Finite E (8 * n + 15 - E) a) (hfb : Finite E (8 * n + 15 - E) b) :
    packFloatingPoint (n + 2) E (leBytes (n + 2) a) = packFloatingPoint (n + 2) E (leBytes (n + 2) b) ↔
      value E (8 * n + 15 - E) a = value E (8 * n + 15 - E) b := by
  rw [packFloatingPoint_leBytes hE ha hfa, packFloatingPoint_leBytes hE hb hfb, ← sortKey_eq_sortKey_iff]
  constructor
  · exact beBytes_inj (sortKey_lt_width hE hfa) (sortKey_lt_width hE hfb)
  · intro h
    rw [h]

theorem readBytes_beBytes (n v : Nat) : readBytes (beBytes n v) 0 n = beBytes n v := by
  have hdrop : (beBytes n v).drop 0 = beBytes n v ++ [] := by rw [List.drop_zero, List.append_nil]
  have h := readBytes_of_drop hdrop
  rwa [length_beBytes] at h

/-- `UnpackFloatingPoint` gives back the bits of a finite value, those of
`-0.0` as `0.0`. -/
theorem unpackFloatingPoint_packFloatingPoint (hE : E ≤ 15) {v : Nat} (hv : v < 256 ^ (n + 2))
    (hfin : Finite E (8 * n + 15 - E) v) :
    unpackFloatingPoint (packFloatingPoint (n + 2) E (leBytes (n + 2) v)) (n + 2) E
        ((128 : UInt8) :: List.replicate (n + 1) 0) (List.replicate (n + 2) 0) (swapBytes (n + 2)) =
      leBytes (n + 2) (if mag E (8 * n + 15 - E) v = 0 then 0 else v) := by
  have hsplit := sign_mul_add_mag E (8 * n + 15 - E) (width_eq hE ▸ hv)
  have hK := sortKey_lt_width hE hfin
  have hP := signBit_eq (n := n) hE
  have hQ := exponentStep_eq (n := n) hE
  have hR : 0 < 256 ^ n := Nat.pow_pos (by decide)
  have hzero : (128 : UInt8) :: List.replicate (n + 1) 0 = beBytes (n + 2) (32768 * 256 ^ n) := by
    rw [zeroPattern_eq, pow_succ]
    congr 1
    ring
  have hwidth : 256 ^ (n + 2) = 65536 * 256 ^ n := by rw [pow_add]; ring
  rw [packFloatingPoint_leBytes hE hv hfin]
  unfold unpackFloatingPoint
  rw [readBytes_beBytes, hzero]
  by_cases h0 : mag E (8 * n + 15 - E) v = 0
  · -- both zeros unpack as `0.0`
    have hkey : sortKey E (8 * n + 15 - E) v = 32768 * 256 ^ n := by rw [sortKey, if_pos h0, hP]
    rw [hkey, if_pos rfl, if_pos h0, leBytes_zero]
  have hne : beBytes (n + 2) (sortKey E (8 * n + 15 - E) v) ≠ beBytes (n + 2) (32768 * 256 ^ n) := by
    intro h
    have := beBytes_inj hK (by omega) h
    unfold sortKey at this
    rw [if_neg h0, hP] at this
    split_ifs at this <;> omega
  rw [if_neg hne, if_neg h0]
  dsimp only
  by_cases hs : sign E (8 * n + 15 - E) v = 1
  · -- a negative value: its complement lies below the sign bit
    have hkey : sortKey E (8 * n + 15 - E) v = 32768 * 256 ^ n - 1 - mag E (8 * n + 15 - E) v := by
      rw [sortKey, if_neg h0, if_pos hs, hP]
    rw [hs, Nat.one_mul, hP] at hsplit
    rw [if_neg (fun h => by have := (topBit_iff hK).1 h; omega), map_xor_beBytes (n + 2) hK, swapBytes_beBytes]
    congr 1
    omega
  · -- a positive value: the sign bit cleared and the exponent one step down
    obtain ⟨hlow, hmag⟩ := lt_of_finite_of_sign_eq_zero hE hv hfin (by omega)
    have hkey : sortKey E (8 * n + 15 - E) v = 32768 * 256 ^ n + 2 ^ (15 - E) * 256 ^ n + v := by
      rw [sortKey, if_neg h0, if_neg hs, hP, hQ, hmag]
    rw [if_pos ((topBit_iff hK).2 (by omega)), hkey, setTop16_stepDown hE hlow, swapBytes_beBytes]

/-- `PackFloat` and `PackDouble` sort finite values: the packed keys compare
as the values, are equal exactly for equal values, and unpack to the bits,
those of `-0.0` to `0.0`. -/
theorem packFloatingPoint_sorts (hE : E ≤ 15) {a b : Nat} (ha : a < 256 ^ (n + 2)) (hb : b < 256 ^ (n + 2))
    (hfa : Finite E (8 * n + 15 - E) a) (hfb : Finite E (8 * n + 15 - E) b) :
    (packFloatingPoint (n + 2) E (leBytes (n + 2) a) < packFloatingPoint (n + 2) E (leBytes (n + 2) b) ↔
        value E (8 * n + 15 - E) a < value E (8 * n + 15 - E) b) ∧
      (packFloatingPoint (n + 2) E (leBytes (n + 2) a) = packFloatingPoint (n + 2) E (leBytes (n + 2) b) ↔
        value E (8 * n + 15 - E) a = value E (8 * n + 15 - E) b) ∧
      unpackFloatingPoint (packFloatingPoint (n + 2) E (leBytes (n + 2) a)) (n + 2) E
          ((128 : UInt8) :: List.replicate (n + 1) 0) (List.replicate (n + 2) 0) (swapBytes (n + 2)) =
        leBytes (n + 2) (if mag E (8 * n + 15 - E) a = 0 then 0 else a) :=
  ⟨packFloatingPoint_lt_iff hE ha hb hfa hfb, packFloatingPoint_eq_iff hE ha hb hfa hfb,
    unpackFloatingPoint_packFloatingPoint hE ha hfa⟩

/-- The `float`s `-0.0` and `1.0`. -/
theorem packFloatingPoint_sorts_float :
    ((8 ≤ 15 ∧ 0x80000000 < 256 ^ (2 + 2) ∧ 0x3F800000 < 256 ^ (2 + 2)) ∧
      Finite 8 (8 * 2 + 15 - 8) 0x80000000 ∧ Finite 8 (8 * 2 + 15 - 8) 0x3F800000) ∧
    (packFloat (leBytes 4 0x80000000) < packFloat (leBytes 4 0x3F800000) ↔
        value 8 23 0x80000000 < value 8 23 0x3F800000) ∧
      (packFloat (leBytes 4 0x80000000) = packFloat (leBytes 4 0x3F800000) ↔
        value 8 23 0x80000000 = value 8 23 0x3F800000) ∧
      unpackFloat (packFloat (leBytes 4 0x80000000)) = leBytes 4 (if mag 8 23 0x80000000 = 0 then 0 else 0x80000000) :=
  ⟨⟨⟨by decide, by decide, by decide⟩, by decide, by decide⟩,
    packFloatingPoint_sorts (n := 2) (E := 8) (by decide) (by decide) (by decide) (by decide) (by decide)⟩

end Format

/-- `+∞` is above every finite `float`, but `PackFloat` packs it to four zero
bytes, below every packed finite value: the `uint16_t` step of its exponent
wraps. -/
theorem packFloat_infinity_below {v : Nat} (hv : v < 2 ^ 32) (hfin : Finite 8 23 v) :
    packFloat (leBytes 4 0x7F800000) = [0, 0, 0, 0] ∧
      value 8 23 v < value 8 23 0x7F800000 ∧ packFloat (leBytes 4 0x7F800000) < packFloat (leBytes 4 v) := by
  have hzero : packFloat (leBytes 4 0x7F800000) = [0, 0, 0, 0] := by decide
  have hkey := sortKey_pos_lt 8 23 hfin
  have hinf : sortKey 8 23 0x7F800000 = 2 ^ 32 := by decide
  have hpack : packFloat (leBytes 4 v) = beBytes 4 (sortKey 8 23 v) :=
    packFloatingPoint_leBytes (n := 2) (E := 8) (by decide) hv hfin
  refine ⟨hzero, ?_, ?_⟩
  · -- the key of `+∞` is past every finite key
    rw [← sortKey_lt_sortKey_iff, hinf]
    exact hkey.2
  · rw [hzero, hpack, show ([0, 0, 0, 0] : List UInt8) = beBytes 4 0 from rfl,
      beBytes_lt_beBytes_iff 4 (by decide) hkey.2]
    exact hkey.1

/-- `FLT_MAX`, `0x7F7FFFFF`. -/
theorem packFloat_infinity_below_max :
    ((0x7F7FFFFF : Nat) < 2 ^ 32 ∧ Finite 8 23 0x7F7FFFFF) ∧
      packFloat (leBytes 4 0x7F800000) = [0, 0, 0, 0] ∧ value 8 23 0x7F7FFFFF < value 8 23 0x7F800000 ∧
        packFloat (leBytes 4 0x7F800000) < packFloat (leBytes 4 0x7F7FFFFF) :=
  ⟨⟨by decide, by decide⟩, packFloat_infinity_below (by decide) (by decide)⟩

end Fedb.Codec
