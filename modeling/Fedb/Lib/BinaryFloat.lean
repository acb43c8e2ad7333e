import Mathlib

/-! # Binary floating-point formats

An IEEE 754 binary format of `E` exponent bits and `M` fraction bits: a bit
pattern of `1 + E + M` bits is a sign bit, an exponent field `e` and a
fraction field `f`. With `bias = 2 ^ (E - 1) - 1`, a pattern whose exponent
field is not all ones (`Finite`) has the value `±(1 + f / 2 ^ M) * 2 ^ (e - bias)`,
or `±f * 2 ^ (1 - bias - M)` where `e = 0`. `float` is the format `E = 8`,
`M = 23`, and `double` the format `E = 11`, `M = 52`.

This module shows the value is the signed magnitude (`signed`), the fields
read as one number, in units of the least subnormal (`value_eq_signed`), and
that the magnitude grows with that number (`scaled_lt_scaled`), so values
compare as the signed magnitudes (`value_lt_value_iff`, `value_eq_value_iff`),
and as a natural number read off the fields, `sortKey`, on which an encoding
that sorts floating-point values as bytes rests (`sortKey_lt_sortKey_iff`,
`sortKey_eq_sortKey_iff`).
-/

namespace BinaryFloat

variable (E M : Nat)

/-- The sign bit. -/
def sign (bits : Nat) : Nat := bits / 2 ^ (E + M) % 2

/-- The exponent and fraction fields, read as one number. -/
def mag (bits : Nat) : Nat := bits % 2 ^ (E + M)

/-- A pattern whose exponent field is not all ones: neither infinite nor NaN. -/
def Finite (bits : Nat) : Prop := mag E M bits < (2 ^ E - 1) * 2 ^ M

instance (bits : Nat) : Decidable (Finite E M bits) := inferInstanceAs (Decidable (_ < _))

/-- The value of a finite pattern. -/
def value (bits : Nat) : ℚ :=
  let s : ℚ := if sign E M bits = 1 then -1 else 1
  let e := mag E M bits / 2 ^ M
  let f := mag E M bits % 2 ^ M
  let bias : ℤ := 2 ^ (E - 1) - 1
  if e = 0 then s * f * 2 ^ (1 - bias - M)
  else s * (1 + f / 2 ^ M) * 2 ^ ((e : ℤ) - bias)

/-- The magnitude of the fields `m` in units of the least subnormal. -/
def scaled (m : Nat) : Nat :=
  if m / 2 ^ M = 0 then m % 2 ^ M else (2 ^ M + m % 2 ^ M) * 2 ^ (m / 2 ^ M - 1)

/-- The signed magnitude. -/
def signed (bits : Nat) : Int :=
  if sign E M bits = 1 then -(scaled M (mag E M bits) : Int) else scaled M (mag E M bits)

/-- The least subnormal, `2 ^ (1 - bias - M)`. -/
def unit : ℚ := 2 ^ ((1 : ℤ) - (2 ^ (E - 1) - 1) - M)

theorem unit_pos : 0 < unit E M := zpow_pos (by norm_num) _

/-! ## The fields -/

theorem mag_lt (bits : Nat) : mag E M bits < 2 ^ (E + M) := Nat.mod_lt _ (Nat.two_pow_pos _)

/-- A pattern of `E + M + 1` bits is its sign bit above its fields. -/
theorem sign_mul_add_mag {bits : Nat} (h : bits < 2 ^ (E + M + 1)) :
    bits = sign E M bits * 2 ^ (E + M) + mag E M bits ∧ sign E M bits < 2 := by
  have hq : bits / 2 ^ (E + M) < 2 := Nat.div_lt_of_lt_mul (by rw [← pow_succ]; exact h)
  have hsplit := Nat.div_add_mod bits (2 ^ (E + M))
  unfold sign mag
  rw [Nat.mod_eq_of_lt hq]
  constructor
  · rw [Nat.mul_comm]
    exact hsplit.symm
  · exact hq

theorem sign_eq_one_iff {bits : Nat} (h : bits < 2 ^ (E + M + 1)) : sign E M bits = 1 ↔ 2 ^ (E + M) ≤ bits := by
  obtain ⟨hsplit, hs⟩ := sign_mul_add_mag E M h
  have hm := mag_lt E M bits
  rcases Nat.lt_or_ge (sign E M bits) 1 with h0 | h1
  · have h0' : sign E M bits = 0 := by omega
    rw [h0', Nat.zero_mul, Nat.zero_add] at hsplit
    omega
  · have h1' : sign E M bits = 1 := by omega
    rw [h1', Nat.one_mul] at hsplit
    omega

/-! ## The magnitude -/

section Scaled

variable {M}

/-- A magnitude is below the first one of the next exponent. -/
theorem scaled_lt_next (m : Nat) : scaled M m < 2 ^ M * 2 ^ (m / 2 ^ M) := by
  have hf := Nat.mod_lt m (Nat.two_pow_pos M)
  unfold scaled
  split_ifs with he
  · rw [he, pow_zero, Nat.mul_one]
    exact hf
  · -- `(2 ^ M + f) * 2 ^ (e - 1) < 2 * 2 ^ M * 2 ^ (e - 1)`
    obtain ⟨k, hk⟩ : ∃ k, m / 2 ^ M = k + 1 := ⟨m / 2 ^ M - 1, (Nat.succ_pred_eq_of_ne_zero he).symm⟩
    rw [hk, Nat.add_sub_cancel]
    calc (2 ^ M + m % 2 ^ M) * 2 ^ k < (2 ^ M + 2 ^ M) * 2 ^ k :=
          Nat.mul_lt_mul_of_pos_right (Nat.add_lt_add_left hf _) (Nat.two_pow_pos k)
      _ = 2 ^ M * 2 ^ (k + 1) := by rw [pow_succ]; ring

/-- A magnitude of exponent `e ≥ 1` is at least the first one of `e`. -/
theorem first_le_scaled {m : Nat} (he : m / 2 ^ M ≠ 0) : 2 ^ M * 2 ^ (m / 2 ^ M - 1) ≤ scaled M m := by
  unfold scaled
  rw [if_neg he]
  exact Nat.mul_le_mul_right _ (Nat.le_add_right _ _)

/-- The magnitude grows with the fields read as one number. -/
theorem scaled_lt_scaled {m m' : Nat} (h : m < m') : scaled M m < scaled M m' := by
  have hdiv : m / 2 ^ M ≤ m' / 2 ^ M := Nat.div_le_div_right h.le
  rcases Nat.lt_or_eq_of_le hdiv with he | he
  · -- a larger exponent: past the whole range of the smaller one
    have he' : m' / 2 ^ M ≠ 0 := Nat.ne_of_gt (Nat.lt_of_le_of_lt (Nat.zero_le _) he)
    calc scaled M m < 2 ^ M * 2 ^ (m / 2 ^ M) := scaled_lt_next m
      _ ≤ 2 ^ M * 2 ^ (m' / 2 ^ M - 1) :=
          Nat.mul_le_mul_left _ (Nat.pow_le_pow_right (by decide) (Nat.le_sub_one_of_lt he))
      _ ≤ scaled M m' := first_le_scaled he'
  · -- one exponent: the fractions decide
    have hf : m % 2 ^ M < m' % 2 ^ M := by
      have h1 := Nat.div_add_mod m (2 ^ M)
      have h2 := Nat.div_add_mod m' (2 ^ M)
      rw [he] at h1
      generalize 2 ^ M * (m' / 2 ^ M) = q at h1 h2
      omega
    unfold scaled
    rw [he]
    split_ifs with h0
    · exact hf
    · exact Nat.mul_lt_mul_of_pos_right (Nat.add_lt_add_left hf _) (Nat.two_pow_pos _)

theorem scaled_le_scaled {m m' : Nat} (h : m ≤ m') : scaled M m ≤ scaled M m' := by
  rcases Nat.lt_or_eq_of_le h with hlt | rfl
  · exact (scaled_lt_scaled hlt).le
  · exact Nat.le_refl _

theorem scaled_eq_zero_iff (m : Nat) : scaled M m = 0 ↔ m = 0 := by
  constructor
  · intro h
    by_contra hm
    have hlt := scaled_lt_scaled (M := M) (Nat.pos_of_ne_zero hm)
    rw [h] at hlt
    exact Nat.not_lt_zero _ hlt
  · rintro rfl
    simp [scaled]

theorem scaled_lt_scaled_iff {m m' : Nat} : scaled M m < scaled M m' ↔ m < m' :=
  ⟨fun h => Nat.lt_of_not_le fun hle => (Nat.lt_irrefl _ (Nat.lt_of_lt_of_le h (scaled_le_scaled hle))),
    scaled_lt_scaled⟩

theorem scaled_inj {m m' : Nat} (h : scaled M m = scaled M m') : m = m' := by
  rcases Nat.lt_trichotomy m m' with hm | hm | hm
  · exact absurd h (Nat.ne_of_lt (scaled_lt_scaled hm))
  · exact hm
  · exact absurd h (Nat.ne_of_gt (scaled_lt_scaled hm))

end Scaled

/-! ## The value -/

/-- `2 ^ (e - bias)` for an exponent field `e ≥ 1`, in units of the least subnormal. -/
theorem two_zpow_exp {e : Nat} (he : e ≠ 0) :
    (2 : ℚ) ^ ((e : ℤ) - (2 ^ (E - 1) - 1)) = 2 ^ (e - 1) * 2 ^ M * unit E M := by
  have h2 : (2 : ℚ) ≠ 0 := by norm_num
  rw [unit, ← zpow_natCast, ← zpow_natCast, ← zpow_add₀ h2, ← zpow_add₀ h2]
  congr 1
  rw [Nat.cast_sub (Nat.one_le_iff_ne_zero.2 he)]
  push_cast
  ring

/-- The value is the signed magnitude times the least subnormal. -/
theorem value_eq_signed (bits : Nat) : value E M bits = (signed E M bits : ℚ) * unit E M := by
  unfold value signed scaled
  simp only
  split_ifs with he hs hs
  · -- a subnormal
    rw [unit, Int.cast_neg, Int.cast_natCast]
    ring
  · rw [unit, Int.cast_natCast]
    ring
  · -- a normal number: `(1 + f / 2 ^ M) * 2 ^ (e - bias) = (2 ^ M + f) * 2 ^ (e - 1) * unit`
    rw [two_zpow_exp E M he, Int.cast_neg, Int.cast_natCast]
    push_cast
    field_simp
  · rw [two_zpow_exp E M he, Int.cast_natCast]
    push_cast
    field_simp

/-- Values compare as the signed magnitudes. -/
theorem value_lt_value_iff (a b : Nat) : value E M a < value E M b ↔ signed E M a < signed E M b := by
  rw [value_eq_signed, value_eq_signed, mul_lt_mul_iff_of_pos_right (unit_pos E M), Int.cast_lt]

theorem value_eq_value_iff (a b : Nat) : value E M a = value E M b ↔ signed E M a = signed E M b := by
  rw [value_eq_signed, value_eq_signed, mul_left_inj' (unit_pos E M).ne', Int.cast_inj]

/-! ## A sort key

Finite values sort as natural numbers: both zeros at `2 ^ (E + M)`, the
negative values below, the larger magnitude lower, and the positive values
above, moved up by `2 ^ M` to leave room for the zeros. -/

/-- The sort key of a pattern. -/
def sortKey (bits : Nat) : Nat :=
  if mag E M bits = 0 then 2 ^ (E + M)
  else if sign E M bits = 1 then 2 ^ (E + M) - 1 - mag E M bits
  else 2 ^ (E + M) + 2 ^ M + mag E M bits


/-- Keys compare as the values. -/
theorem sortKey_lt_sortKey_iff (a b : Nat) : sortKey E M a < sortKey E M b ↔ value E M a < value E M b := by
  rw [value_lt_value_iff]
  have ha := mag_lt E M a
  have hb := mag_lt E M b
  have hab : scaled M (mag E M a) < scaled M (mag E M b) ↔ mag E M a < mag E M b := scaled_lt_scaled_iff
  have hba : scaled M (mag E M b) < scaled M (mag E M a) ↔ mag E M b < mag E M a := scaled_lt_scaled_iff
  have ha0 := scaled_eq_zero_iff (M := M) (mag E M a)
  have hb0 := scaled_eq_zero_iff (M := M) (mag E M b)
  have hQ := Nat.two_pow_pos M
  -- the cases of the two signs and zeros are linear in the magnitudes
  unfold sortKey signed
  generalize 2 ^ (E + M) = P at *
  generalize 2 ^ M = Q at *
  split_ifs <;> omega

/-- Keys are equal exactly for equal values. -/
theorem sortKey_eq_sortKey_iff (a b : Nat) : sortKey E M a = sortKey E M b ↔ value E M a = value E M b := by
  rw [value_eq_value_iff]
  have ha := mag_lt E M a
  have hb := mag_lt E M b
  have hab : scaled M (mag E M a) = scaled M (mag E M b) ↔ mag E M a = mag E M b :=
    ⟨scaled_inj, fun h => h ▸ rfl⟩
  have ha0 := scaled_eq_zero_iff (M := M) (mag E M a)
  have hb0 := scaled_eq_zero_iff (M := M) (mag E M b)
  have hQ := Nat.two_pow_pos M
  unfold sortKey signed
  generalize 2 ^ (E + M) = P at *
  generalize 2 ^ M = Q at *
  split_ifs <;> omega

/-- The key of a finite value lies strictly between `0` and `2 ^ (E + M + 1)`. -/
theorem sortKey_pos_lt {bits : Nat} (h : Finite E M bits) :
    0 < sortKey E M bits ∧ sortKey E M bits < 2 ^ (E + M + 1) := by
  -- finite magnitudes stop `2 ^ M` short of `2 ^ (E + M)`
  have hroom : (2 ^ E - 1) * 2 ^ M + 2 ^ M = 2 ^ (E + M) := by
    rw [Nat.sub_mul, Nat.one_mul, pow_add, Nat.sub_add_cancel (Nat.le_mul_of_pos_left _ (Nat.two_pow_pos E))]
  have hM := Nat.two_pow_pos M
  have htop : 2 ^ (E + M + 1) = 2 ^ (E + M) + 2 ^ (E + M) := by rw [pow_succ]; omega
  unfold Finite at h
  unfold sortKey
  split_ifs <;> omega

end BinaryFloat
