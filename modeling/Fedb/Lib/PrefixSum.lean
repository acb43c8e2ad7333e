import Mathlib

/-! # Packed layouts

A packed layout puts the items of a list one after the other: item `j` starts
at the sum of the widths of the items before it, `prefixSum f l j`. This
module collects what the proofs about such layouts use: how a prefix grows by
one item, that the fields of two different items do not overlap, and that two
prefixes with the same sum differ by items of width zero only.
-/

namespace PrefixSum

variable {α : Type*} (f : α → Nat) (l : List α)

/-- The total width of the first `j` items. -/
def prefixSum (j : Nat) : Nat := ((l.take j).map f).sum

@[simp] theorem prefixSum_zero : prefixSum f l 0 = 0 := by simp [prefixSum]

theorem prefixSum_succ {j : Nat} (hj : j < l.length) :
    prefixSum f l (j + 1) = prefixSum f l j + f l[j] := by
  simp only [prefixSum, List.take_add_one, List.getElem?_eq_getElem hj, Option.toList_some,
    List.map_append, List.map_cons, List.map_nil, List.sum_append, List.sum_cons, List.sum_nil,
    Nat.add_zero]

theorem prefixSum_of_length_le {j : Nat} (hj : l.length ≤ j) :
    prefixSum f l j = (l.map f).sum := by
  rw [prefixSum, List.take_of_length_le hj]

theorem prefixSum_mono {i j : Nat} (h : i ≤ j) : prefixSum f l i ≤ prefixSum f l j := by
  have hmono := List.monotone_sum_take (l.map f) h
  simpa [prefixSum, List.map_take] using hmono

theorem prefixSum_le_sum (j : Nat) : prefixSum f l j ≤ (l.map f).sum := by
  calc prefixSum f l j ≤ prefixSum f l (max j l.length) := prefixSum_mono f l (le_max_left _ _)
    _ = (l.map f).sum := prefixSum_of_length_le f l (le_max_right _ _)

/-- The field of an item ends where the next one can start at the earliest:
fields of different items do not overlap. -/
theorem prefixSum_add_le {i j : Nat} (hi : i < l.length) (hij : i < j) :
    prefixSum f l i + f l[i] ≤ prefixSum f l j := by
  rw [← prefixSum_succ f l hi]
  exact prefixSum_mono f l hij

/-- Two prefixes with the same sum differ by items of width zero only. -/
theorem eq_zero_of_prefixSum_eq {i j : Nat} (heq : prefixSum f l i = prefixSum f l j)
    {m : Nat} (hm : m < l.length) (him : i ≤ m) (hmj : m < j) : f l[m] = 0 := by
  have hlo := prefixSum_mono f l him
  have hhi := prefixSum_add_le f l hm hmj
  omega

/-- Items of width zero do not move the prefix sum. -/
theorem prefixSum_eq_of_eq_zero {i j : Nat} (hij : i ≤ j)
    (hz : ∀ m (hm : m < l.length), i ≤ m → m < j → f l[m] = 0) :
    prefixSum f l i = prefixSum f l j := by
  induction j with
  | zero => rw [Nat.le_zero.1 hij]
  | succ j ih =>
    by_cases hi : i = j + 1
    · rw [hi]
    · -- the item `j` has width zero, or lies past the end of the list
      have hstep : prefixSum f l (j + 1) = prefixSum f l j := by
        rcases Nat.lt_or_ge j l.length with hj | hj
        · rw [prefixSum_succ f l hj, hz j hj (by omega) (by omega), Nat.add_zero]
        · rw [prefixSum_of_length_le f l hj, prefixSum_of_length_le f l (by omega)]
      rw [hstep]
      exact ih (by omega) fun m hm h1 h2 => hz m hm h1 (by omega)

end PrefixSum
