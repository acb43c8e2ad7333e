import Mathlib

/-! # Checksums of byte streams, and masking them

A table-driven CRC keeps its register inverted while it folds the bytes in,
and inverts it again at the end (`xorFold`). Such a checksum extends: the
checksum of `a ++ b` is the one of `b` continued from the checksum of `a`
(`xorFold_append`), whatever the step, so a checksum may be started on a
prefix and finished later.

A checksum stored next to the data it covers is often masked, rotated and
offset by a constant, so that data holding checksums does not checksum to
itself. Rotating a 32-bit word right by `k` and then by `32 - k` gives it
back (`rotr_rotr`).
-/

namespace Checksum

/-- The fold of `step` over `data` from `init`, inverted on entry and on exit. -/
def xorFold (step : UInt32 → UInt8 → UInt32) (init : UInt32) (data : List UInt8) : UInt32 :=
  data.foldl step (init ^^^ 0xffffffff) ^^^ 0xffffffff

theorem xorFold_nil (step : UInt32 → UInt8 → UInt32) (init : UInt32) : xorFold step init [] = init := by
  simp [xorFold]

/-- The checksum of `a ++ b` continues the checksum of `a` over `b`. -/
theorem xorFold_append (step : UInt32 → UInt8 → UInt32) (init : UInt32) (a b : List UInt8) :
    xorFold step (xorFold step init a) b = xorFold step init (a ++ b) := by
  -- the inversion on exit of `a` and the one on entry of `b` cancel
  have hcancel : ∀ y : UInt32, y ^^^ 0xffffffff ^^^ 0xffffffff = y := by
    intro y
    rw [UInt32.xor_assoc, UInt32.xor_self, UInt32.xor_zero]
  simp only [xorFold, hcancel, List.foldl_append]

/-- A 32-bit word rotated right by `k`, by two shifts. -/
def rotr (x : UInt32) (k : Nat) : UInt32 := (x >>> k.toUInt32) ||| (x <<< (32 - k).toUInt32)

/-- Rotating right by `k` and then by `32 - k` is a full turn. -/
theorem rotr_rotr (x : UInt32) {k : Nat} (h0 : 0 < k) (h32 : k < 32) : rotr (rotr x k) (32 - k) = x := by
  apply UInt32.toBitVec_inj.1
  ext i hi
  simp only [rotr, UInt32.toBitVec_or, UInt32.toBitVec_shiftRight, UInt32.toBitVec_shiftLeft, BitVec.getElem_or]
  simp
  have e1 : k % 32 = k := Nat.mod_eq_of_lt h32
  have e2 : (32 - k) % 32 = 32 - k := by omega
  have e3 : (32 - (32 - k)) % 32 = k := by omega
  simp only [e1, e2, e3]
  rw [BitVec.getLsbD_of_ge _ _ (by omega), Bool.false_or]
  -- bit `i` comes back through the left shift below `k`, through the right shift from `k` on
  rcases Nat.lt_or_ge i k with h | h
  · have h1 : 32 - k + i < 32 := by omega
    simp [h, h1, BitVec.getLsbD_eq_getElem hi]
  · have h2 : k + (i - k) = i := by omega
    have h3 : ¬ 32 - k + i < 32 := by omega
    have h4 : ¬ i < k := by omega
    have h5 : ¬ 32 - k ≤ i - k := by omega
    simp [h2, h3, h4, h5, BitVec.getLsbD_eq_getElem hi]

end Checksum
