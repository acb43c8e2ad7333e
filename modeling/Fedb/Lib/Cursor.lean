import Mathlib.Order.Basic

/-! # Reading a cursor to its end

A cursor is a state with a test `valid`, a step `next` and the item `cur` it
stands at. A reader tests it, takes the item and steps, until the test
fails: `drain` is that loop, run for at most `fuel` rounds so that it
computes. `ends n s` says the loop from `s` stops within `n` rounds; then
every fuel from `n` on gives the same items (`drain_eq_of_ends`), so a result
stated at such a fuel is what the reader gets. A measure that every step
lowers gives the bound (`ends_of_measure`).
-/

namespace Cursor

variable {σ α : Type*} (valid : σ → Bool) (next : σ → σ) (cur : σ → α)

/-- `while (valid(s)) { emit cur(s); s = next(s); }`, for at most `fuel` rounds. -/
def drain : Nat → σ → List α
  | 0, _ => []
  | n + 1, s => if valid s then cur s :: drain n (next s) else []

/-- The loop from `s` stops within `n` rounds. -/
def ends : Nat → σ → Bool
  | 0, s => !valid s
  | n + 1, s => !valid s || ends n (next s)

@[simp] theorem drain_zero (s : σ) : drain valid next cur 0 s = [] := rfl

theorem drain_succ_of_valid {s : σ} (h : valid s = true) (n : Nat) :
    drain valid next cur (n + 1) s = cur s :: drain valid next cur n (next s) := by
  rw [drain, if_pos h]

theorem drain_of_not_valid {s : σ} (h : valid s = false) (n : Nat) : drain valid next cur n s = [] := by
  cases n with
  | zero => rfl
  | succ n => rw [drain, if_neg (by simp [h])]

/-- Once the loop stops within `n` rounds, more fuel reads nothing more. -/
theorem drain_eq_of_ends : ∀ {n m : Nat} {s : σ}, ends valid next n s = true → n ≤ m →
    drain valid next cur m s = drain valid next cur n s
  | 0, m, s, h, _ => by
    simp only [ends, Bool.not_eq_true'] at h
    rw [drain_of_not_valid valid next cur h, drain_zero]
  | n + 1, m + 1, s, h, hnm => by
    rw [ends] at h
    cases hv : valid s with
    | false => rw [drain_of_not_valid valid next cur hv, drain_of_not_valid valid next cur hv]
    | true =>
      rw [hv, Bool.not_true, Bool.false_or] at h
      rw [drain_succ_of_valid valid next cur hv, drain_succ_of_valid valid next cur hv,
        drain_eq_of_ends h (by omega)]

/-- A measure that every step from a valid state lowers bounds the rounds. -/
theorem ends_of_measure (μ : σ → Nat) (hμ : ∀ s, valid s = true → μ (next s) < μ s) :
    ∀ (n : Nat) (s : σ), μ s ≤ n → ends valid next n s = true
  | 0, s, hs => by
    cases hv : valid s with
    | false => simp [ends, hv]
    | true => exact absurd (hμ s hv) (by omega)
  | n + 1, s, hs => by
    rw [ends]
    cases hv : valid s with
    | false => rfl
    | true =>
      rw [Bool.not_true, Bool.false_or]
      exact ends_of_measure μ hμ n (next s) (by have := hμ s hv; omega)

end Cursor
