import Mathlib.Data.List.Basic

/-! # Decimal text of numbers, as ASCII bytes

The text of a natural number is its decimal digits, most significant first
(`ofNat`), as C++ prints an unsigned integer; the text of an integer has a
`-` before the digits of a negative one (`ofInt`). `parse?` reads a
non-empty string of digits back as a number.

A printed number is a non-empty string of digits (`ofNat_ne_nil`,
`isDigit_of_mem_ofNat`), so it parses to the number printed
(`parse?_ofNat`), and it starts with a digit, never with a sign
(`exists_head_ofNat`). The digits are core's `Nat.toDigits 10`; the round
trip rests on core's `Nat.ofDigitChars_ten_toDigits`.
-/

namespace Decimal

/-- An ASCII decimal digit, `'0'` (48) to `'9'` (57). -/
def isDigit (b : UInt8) : Bool := 48 ≤ b && b ≤ 57

/-- The value of a string of digits, most significant first. -/
def value (s : List UInt8) : Nat := s.foldl (fun acc b => 10 * acc + (b.toNat - 48)) 0

/-- A non-empty string of digits, read as a number; `none` for anything else. -/
def parse? (s : List UInt8) : Option Nat :=
  if s ≠ [] ∧ s.all isDigit then some (value s) else none

/-- The decimal digits of `n`, most significant first. -/
def ofNat (n : Nat) : List UInt8 := (Nat.toDigits 10 n).map Char.toUInt8

/-- The decimal text of an integer: `-` (45) before the digits of a negative one. -/
def ofInt (v : Int) : List UInt8 := if v < 0 then 45 :: ofNat v.natAbs else ofNat v.toNat

/-- A digit character is one byte, its own code. -/
theorem toNat_toUInt8_of_isDigit {c : Char} (h : c.isDigit = true) : c.toUInt8.toNat = c.toNat := by
  have hc : c.toNat ≤ 57 := by
    simp only [Char.isDigit, Bool.and_eq_true, decide_eq_true_eq] at h
    exact h.2
  simp only [Char.toUInt8, Char.toNat, UInt32.toNat_toUInt8] at hc ⊢
  omega

theorem isDigit_toUInt8 {c : Char} (h : c.isDigit = true) : isDigit c.toUInt8 = true := by
  have hv := toNat_toUInt8_of_isDigit h
  simp only [Char.isDigit, Bool.and_eq_true, decide_eq_true_eq] at h
  have h1 : 48 ≤ c.toNat := h.1
  have h2 : c.toNat ≤ 57 := h.2
  simp only [isDigit, Bool.and_eq_true, decide_eq_true_eq, UInt8.le_iff_toNat_le, hv]
  exact ⟨h1, h2⟩

theorem isDigit_of_mem_ofNat {n : Nat} {b : UInt8} (h : b ∈ ofNat n) : isDigit b = true := by
  obtain ⟨c, hc, rfl⟩ := List.mem_map.1 h
  exact isDigit_toUInt8 (Nat.isDigit_of_mem_toDigits (by decide) (by decide) hc)

theorem ofNat_ne_nil (n : Nat) : ofNat n ≠ [] := by
  simp [ofNat]

/-- The printed digits start with a digit. -/
theorem exists_head_ofNat (n : Nat) : ∃ c cs, ofNat n = c :: cs ∧ isDigit c = true := by
  cases h : ofNat n with
  | nil => exact absurd h (ofNat_ne_nil n)
  | cons c cs => exact ⟨c, cs, rfl, isDigit_of_mem_ofNat (by rw [h]; exact List.mem_cons_self)⟩

/-- Reading the bytes of digit characters is reading the characters. -/
theorem foldl_map_toUInt8 (l : List Char) (hl : ∀ c ∈ l, c.isDigit = true) (acc : Nat) :
    (l.map Char.toUInt8).foldl (fun acc b => 10 * acc + (b.toNat - 48)) acc =
      Nat.ofDigitChars 10 l acc := by
  induction l generalizing acc with
  | nil => rfl
  | cons c l ih =>
    rw [List.map_cons, List.foldl_cons, Nat.ofDigitChars_cons,
      toNat_toUInt8_of_isDigit (hl c List.mem_cons_self)]
    exact ih (fun c' hc' => hl c' (List.mem_cons_of_mem _ hc')) _

theorem value_ofNat (n : Nat) : value (ofNat n) = n := by
  rw [value, ofNat, foldl_map_toUInt8 _ (fun _ hc => Nat.isDigit_of_mem_toDigits (by decide)
    (by decide) hc)]
  exact Nat.ofDigitChars_ten_toDigits

@[simp] theorem parse?_ofNat (n : Nat) : parse? (ofNat n) = some n := by
  have hall : (ofNat n).all isDigit = true := List.all_eq_true.2 fun _ h => isDigit_of_mem_ofNat h
  simp [parse?, ofNat_ne_nil, hall, value_ofNat]

/-- A `-` (45) is not a digit, so it never occurs in printed digits. -/
theorem not_mem_ofNat_of_not_isDigit {n : Nat} {b : UInt8} (h : isDigit b = false) : b ∉ ofNat n :=
  fun hb => by rw [isDigit_of_mem_ofNat hb] at h; exact absurd h (by decide)

end Decimal
