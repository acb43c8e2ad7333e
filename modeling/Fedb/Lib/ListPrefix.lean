import Mathlib.Data.List.TakeWhile
import Mathlib.Data.List.Pairwise

/-! # Prefixes of sorted lists

A walk along a sorted list that stops at the first element failing a test
keeps a prefix, and when the test is closed downwards along the order that
prefix is exactly the elements passing the test. The same holds for a test
that also reads the position, as a retention rule "keep the first `n`" does.
This module states the two facts the proofs about such walks use:
`getElem_eq_decide_lt` for a test on the elements, `filterIdx_eq_take` for a
test on positions and elements.
-/

namespace ListPrefix

variable {α : Type*}

/-- The elements at whose position `p` holds, positions counted from `i`. -/
def filterIdxFrom (p : Nat → α → Bool) : Nat → List α → List α
  | _, [] => []
  | i, a :: xs => if p i a then a :: filterIdxFrom p (i + 1) xs else filterIdxFrom p (i + 1) xs

/-- The elements at whose position `p` holds. -/
def filterIdx (p : Nat → α → Bool) (xs : List α) : List α := filterIdxFrom p 0 xs

@[simp] theorem filterIdxFrom_nil (p : Nat → α → Bool) (i : Nat) : filterIdxFrom p i [] = [] := rfl

/-- A test that holds exactly at the first `n` positions keeps the first `n`
elements. -/
theorem filterIdxFrom_eq_take (p : Nat → α → Bool) :
    ∀ (xs : List α) (i n : Nat),
      (∀ j (hj : j < xs.length), p (i + j) xs[j] = decide (j < n)) →
      filterIdxFrom p i xs = xs.take n
  | [], _, _, _ => by simp
  | a :: xs, i, n, h => by
    have h0 := h 0 (by simp)
    simp only [Nat.add_zero, List.getElem_cons_zero] at h0
    -- the tail is tested from position `i + 1`, against `n - 1`
    have htail : ∀ j (hj : j < xs.length), p (i + 1 + j) xs[j] = decide (j < n - 1) := by
      intro j hj
      have hs := h (j + 1) (by simp; omega)
      rw [show i + (j + 1) = i + 1 + j by omega, List.getElem_cons_succ] at hs
      rw [hs]
      by_cases hn : n = 0
      · simp [hn]
      · exact decide_eq_decide.2 (by omega)
    cases n with
    | zero =>
      have hrest := filterIdxFrom_eq_take p xs (i + 1) 0 (by simpa using htail)
      simp only [filterIdxFrom, h0, hrest]
      rfl
    | succ n =>
      have hrest := filterIdxFrom_eq_take p xs (i + 1) n (by simpa using htail)
      simp only [filterIdxFrom, h0, hrest]
      simp

theorem filterIdx_eq_take (p : Nat → α → Bool) (xs : List α) (n : Nat)
    (h : ∀ j (hj : j < xs.length), p j xs[j] = decide (j < n)) : filterIdx p xs = xs.take n :=
  filterIdxFrom_eq_take p xs 0 n fun j hj => by rw [Nat.zero_add]; exact h j hj

theorem takeWhile_eq_take (p : α → Bool) :
    ∀ xs : List α, xs.takeWhile p = xs.take (xs.takeWhile p).length
  | [] => rfl
  | a :: xs => by
    by_cases ha : p a
    · simp only [List.takeWhile_cons_of_pos ha, List.length_cons, List.take_succ_cons]
      rw [← takeWhile_eq_take p xs]
    · simp [List.takeWhile_cons_of_neg ha]

theorem dropWhile_eq_drop (p : α → Bool) :
    ∀ xs : List α, xs.dropWhile p = xs.drop (xs.takeWhile p).length
  | [] => rfl
  | a :: xs => by
    by_cases ha : p a
    · simp only [List.dropWhile_cons_of_pos ha, List.takeWhile_cons_of_pos ha, List.length_cons,
        List.drop_succ_cons]
      exact dropWhile_eq_drop p xs
    · simp [List.dropWhile_cons_of_neg ha, List.takeWhile_cons_of_neg ha]

/-- A walk that passes the first `j` elements and stops at the next. -/
theorem length_takeWhile_eq (p : α → Bool) :
    ∀ (xs : List α) (j : Nat), (∀ i (hi : i < xs.length), i < j → p xs[i] = true) →
      (hj : j < xs.length) → p xs[j] = false → (xs.takeWhile p).length = j
  | [], _, _, hj, _ => absurd hj (by simp)
  | a :: xs, j, h, hj, hn => by
    cases j with
    | zero => simp [List.takeWhile_cons_of_neg (by simpa using hn)]
    | succ j =>
      have ha : p a = true := h 0 (by simp) (by omega)
      rw [List.takeWhile_cons_of_pos ha, List.length_cons]
      have hrest := length_takeWhile_eq p xs j
        (fun i hi hij => h (i + 1) (by simp; omega) (by omega)) (by simpa using hj)
        (by simpa using hn)
      rw [hrest]

/-- The last element, or `a` for the empty list: an element of `a :: xs`. -/
theorem getLast?_getD_mem (a : α) (xs : List α) : xs.getLast?.getD a ∈ a :: xs := by
  cases h : xs.getLast? with
  | none => exact List.mem_cons_self
  | some y => exact List.mem_cons_of_mem _ (List.mem_of_getLast? h)

section Sorted

variable {r : α → α → Prop} {p : α → Bool}

/-- On a list sorted by `r`, a test closed downwards along `r` holds exactly
at the positions before the end of the walk `takeWhile p`. -/
theorem getElem_eq_decide_lt (hp : ∀ a b, r a b → p b = true → p a = true) :
    ∀ (xs : List α), xs.Pairwise r →
      ∀ i (hi : i < xs.length), p xs[i] = decide (i < (xs.takeWhile p).length)
  | [], _, i, hi => absurd hi (by simp)
  | a :: xs, hs, i, hi => by
    rw [List.pairwise_cons] at hs
    by_cases ha : p a
    · rw [List.takeWhile_cons_of_pos ha, List.length_cons]
      cases i with
      | zero => simp [ha]
      | succ i =>
        rw [List.getElem_cons_succ, getElem_eq_decide_lt hp xs hs.2 i (by simpa using hi)]
        exact decide_eq_decide.2 (by omega)
    · -- the walk stops at the head, and every later element sorts after it
      rw [List.takeWhile_cons_of_neg ha, List.length_nil]
      cases i with
      | zero => simpa using ha
      | succ i =>
        have hi' : i < xs.length := by simpa using hi
        rw [List.getElem_cons_succ]
        have hlt : ¬ (i + 1 < 0) := by omega
        rw [decide_eq_false hlt]
        cases hb : p xs[i]
        · rfl
        · exact absurd (hp a _ (hs.1 _ (List.getElem_mem _)) hb) ha

/-- On a list sorted by `r`, the walk of a test closed downwards along `r`
keeps exactly the elements that pass it. -/
theorem takeWhile_eq_filter (hp : ∀ a b, r a b → p b = true → p a = true) :
    ∀ {xs : List α}, xs.Pairwise r → xs.takeWhile p = xs.filter p
  | [], _ => rfl
  | a :: xs, hs => by
    rw [List.pairwise_cons] at hs
    by_cases ha : p a
    · rw [List.takeWhile_cons_of_pos ha, List.filter_cons_of_pos ha, takeWhile_eq_filter hp hs.2]
    · -- no later element passes, since it would make `a` pass
      rw [List.takeWhile_cons_of_neg ha, List.filter_cons_of_neg ha]
      exact (List.filter_eq_nil_iff.2 fun b hb hpb => ha (hp a b (hs.1 b hb) hpb)).symm

/-- The rest of such a walk is exactly the elements that fail the test. -/
theorem dropWhile_eq_filter (hp : ∀ a b, r a b → p b = true → p a = true) :
    ∀ {xs : List α}, xs.Pairwise r → xs.dropWhile p = xs.filter fun a => !p a
  | [], _ => rfl
  | a :: xs, hs => by
    rw [List.pairwise_cons] at hs
    by_cases ha : p a
    · rw [List.dropWhile_cons_of_pos ha, List.filter_cons_of_neg (by simp [ha]),
        dropWhile_eq_filter hp hs.2]
    · -- every later element fails too
      rw [List.dropWhile_cons_of_neg ha, List.filter_cons_of_pos (by simpa using ha)]
      have hall : ∀ b ∈ xs, (!p b) = true := fun b hb => by
        cases hpb : p b
        · rfl
        · exact absurd (hp a b (hs.1 b hb) hpb) ha
      rw [List.filter_eq_self.2 hall]

/-- On a sorted list such a walk commutes with every filter. -/
theorem takeWhile_filter (hp : ∀ a b, r a b → p b = true → p a = true) (q : α → Bool)
    {xs : List α} (hs : xs.Pairwise r) : (xs.filter q).takeWhile p = (xs.takeWhile p).filter q := by
  rw [takeWhile_eq_filter hp (hs.filter q), takeWhile_eq_filter hp hs, List.filter_filter,
    List.filter_filter]
  exact List.filter_congr fun a _ => Bool.and_comm _ _

theorem dropWhile_filter (hp : ∀ a b, r a b → p b = true → p a = true) (q : α → Bool)
    {xs : List α} (hs : xs.Pairwise r) : (xs.filter q).dropWhile p = (xs.dropWhile p).filter q := by
  rw [dropWhile_eq_filter hp (hs.filter q), dropWhile_eq_filter hp hs, List.filter_filter,
    List.filter_filter]
  exact List.filter_congr fun a _ => Bool.and_comm _ _

end Sorted

end ListPrefix
