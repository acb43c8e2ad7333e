import Mathlib.Data.List.Basic

/-! # A map of keys to lists, kept as an ordered list of entries

`std::map<K, std::vector<V>>` filled by `m[k].push_back(v)`: a list of
entries ordered by a three-way comparison `cmp`, each key with the values
pushed under it, in the order they came. `push` appends under a key it
finds and otherwise inserts the key in front of the first larger one, so the
entries stay sorted (`sorted_push`). On a sorted map the values under a key
are the ones pushed with it (`values_push`), and after any run of pushes
from a map, the values it had followed by the pushed ones with that key
(`values_pushAll`).

The comparison only has to be a strict total order with `cmp a b = 0`
exactly for equal keys (`Lawful`).
-/

namespace OrderedMap

variable {κ α : Type*} (cmp : κ → κ → Int)

/-- `m[k].push_back(v)`: appended under `k`, or a new entry in front of the
first key above `k`. -/
def push : List (κ × List α) → κ → α → List (κ × List α)
  | [], k, v => [(k, [v])]
  | (k', vs) :: rest, k, v =>
    if cmp k' k = 0 then (k', vs ++ [v]) :: rest
    else if cmp k k' < 0 then (k, [v]) :: (k', vs) :: rest
    else (k', vs) :: push rest k v

/-- The pushes of a list of keys and values, in order. -/
def pushAll (m : List (κ × List α)) (kvs : List (κ × α)) : List (κ × List α) :=
  kvs.foldl (fun m kv => push cmp m kv.1 kv.2) m

/-- The entries are strictly increasing in key. -/
def Sorted (m : List (κ × List α)) : Prop := m.Pairwise fun a b => cmp a.1 b.1 < 0

/-- `m[k]` as a reader sees it: the values under `k`, none if `k` has no
entry. -/
def values [DecidableEq κ] (m : List (κ × List α)) (k : κ) : List α := (m.lookup k).getD []

/-- A three-way comparison that is a strict total order and is `0` exactly
on equal keys. -/
structure Lawful : Prop where
  eq_iff : ∀ a b, cmp a b = 0 ↔ a = b
  trans : ∀ a b c, cmp a b < 0 → cmp b c < 0 → cmp a c < 0
  lt_of_not_lt : ∀ a b, cmp a b ≠ 0 → ¬ cmp a b < 0 → cmp b a < 0

namespace Lawful

variable {cmp} (hcmp : Lawful cmp)
include hcmp

theorem self_eq (a : κ) : cmp a a = 0 := (hcmp.eq_iff a a).2 rfl

/-- Swapping the keys turns a positive comparison negative. -/
theorem neg_of_pos {a b : κ} (h : 0 < cmp a b) : cmp b a < 0 :=
  hcmp.lt_of_not_lt a b (Int.ne_of_gt h) (Int.not_lt.2 (Int.le_of_lt h))

theorem pos_of_neg {a b : κ} (h : cmp a b < 0) : 0 < cmp b a := by
  rcases Int.lt_trichotomy (cmp b a) 0 with hlt | heq | hpos
  · -- below each other both ways would put `a` below itself
    have hself := hcmp.trans a b a h hlt
    rw [hcmp.self_eq] at hself
    exact absurd hself (Int.lt_irrefl 0)
  · rw [(hcmp.eq_iff b a).1 heq, hcmp.self_eq] at h
    exact absurd h (Int.lt_irrefl 0)
  · exact hpos

theorem le_trans {a b c : κ} (hab : cmp a b ≤ 0) (hbc : cmp b c ≤ 0) : cmp a c ≤ 0 := by
  rcases Int.lt_or_eq_of_le hab with hlt | heq
  · rcases Int.lt_or_eq_of_le hbc with hlt' | heq'
    · exact Int.le_of_lt (hcmp.trans a b c hlt hlt')
    · rwa [← (hcmp.eq_iff b c).1 heq']
  · rwa [(hcmp.eq_iff a b).1 heq]

theorem lt_of_le_of_lt {a b c : κ} (hab : cmp a b ≤ 0) (hbc : cmp b c < 0) : cmp a c < 0 := by
  rcases Int.lt_or_eq_of_le hab with hlt | heq
  · exact hcmp.trans a b c hlt hbc
  · rwa [(hcmp.eq_iff a b).1 heq]

/-- A key above `b` is above every key at or below `b`. -/
theorem pos_of_le_of_pos {a b c : κ} (hab : cmp a b ≤ 0) (hcb : 0 < cmp c b) : 0 < cmp c a := by
  rcases Int.lt_or_eq_of_le hab with hlt | heq
  · exact hcmp.pos_of_neg (hcmp.trans a b c hlt (hcmp.neg_of_pos hcb))
  · rwa [(hcmp.eq_iff a b).1 heq]

end Lawful

theorem keys_push (m : List (κ × List α)) (k : κ) (v : α) :
    ∀ e ∈ push cmp m k v, e.1 = k ∨ ∃ e' ∈ m, e.1 = e'.1 := by
  induction m with
  | nil =>
    intro e he
    simp only [push, List.mem_singleton] at he
    exact Or.inl (by rw [he])
  | cons x rest ih =>
    obtain ⟨k', vs⟩ := x
    intro e he
    simp only [push] at he
    split_ifs at he
    · rcases List.mem_cons.mp he with rfl | he
      · exact Or.inr ⟨(k', vs), List.mem_cons_self, rfl⟩
      · exact Or.inr ⟨e, List.mem_cons_of_mem _ he, rfl⟩
    · rcases List.mem_cons.mp he with rfl | he
      · exact Or.inl rfl
      · exact Or.inr ⟨e, he, rfl⟩
    · rcases List.mem_cons.mp he with rfl | he
      · exact Or.inr ⟨(k', vs), List.mem_cons_self, rfl⟩
      · rcases ih e he with h | ⟨e', he', h⟩
        · exact Or.inl h
        · exact Or.inr ⟨e', List.mem_cons_of_mem _ he', h⟩

theorem values_cons [DecidableEq κ] (k' : κ) (vs : List α) (rest : List (κ × List α)) (k : κ) :
    values ((k', vs) :: rest) k = if k = k' then vs else values rest k := by
  by_cases h : k = k'
  · simp [values, h]
  · have hb : (k == k') = false := beq_false_of_ne h
    simp [values, List.lookup_cons, hb, h]

theorem values_nil [DecidableEq κ] (k : κ) : values ([] : List (κ × List α)) k = [] := rfl

section Lawful

variable {cmp} (hcmp : Lawful cmp)
include hcmp

theorem sorted_push {m : List (κ × List α)} (hm : Sorted cmp m) (k : κ) (v : α) :
    Sorted cmp (push cmp m k v) := by
  induction m with
  | nil => exact List.pairwise_singleton _ _
  | cons x rest ih =>
    obtain ⟨k', vs⟩ := x
    obtain ⟨hhead, hrest⟩ := List.pairwise_cons.mp hm
    simp only [push]
    split_ifs with heq hlt
    · -- `k` is found: the keys are those of `m`
      exact List.Pairwise.cons (fun e he => hhead e he) hrest
    · -- a new first entry, below `k'` and so below every key after it
      refine List.Pairwise.cons ?_ hm
      intro e he
      rcases List.mem_cons.mp he with rfl | he
      · exact hlt
      · exact hcmp.trans _ _ _ hlt (hhead e he)
    · -- `k'` stays first: it is below `k` and below every key of `rest`
      have hk'k : cmp k' k < 0 := hcmp.lt_of_not_lt k k' (fun h => heq ((hcmp.eq_iff _ _).mpr
        ((hcmp.eq_iff _ _).mp h).symm)) hlt
      refine List.Pairwise.cons ?_ (ih hrest)
      intro e he
      rcases keys_push cmp rest k v e he with h | ⟨e', he', h⟩
      · rw [h]
        exact hk'k
      · rw [h]
        exact hhead e' he'

variable [DecidableEq κ]

/-- A key below every key of a sorted map has no entry in it. -/
theorem values_of_lt {m : List (κ × List α)} {k : κ} (hlt : ∀ e ∈ m, cmp k e.1 < 0) : values m k = [] := by
  induction m with
  | nil => rfl
  | cons x rest ih =>
    obtain ⟨k', vs⟩ := x
    have hne : k ≠ k' := by
      intro h
      have hself := hlt (k', vs) List.mem_cons_self
      rw [h, (hcmp.eq_iff k' k').mpr rfl] at hself
      exact absurd hself (by decide)
    rw [values_cons, if_neg hne]
    exact ih fun e he => hlt e (List.mem_cons_of_mem _ he)

/-- On a sorted map, `m[k].push_back(v)` adds `v` under `k` and changes no
other key. -/
theorem values_push {m : List (κ × List α)} (hm : Sorted cmp m) (k k' : κ) (v : α) :
    values (push cmp m k v) k' = if k' = k then values m k ++ [v] else values m k' := by
  induction m with
  | nil =>
    rw [push, values_cons, values_nil, values_nil, List.nil_append]
  | cons x rest ih =>
    obtain ⟨k'', vs⟩ := x
    obtain ⟨hhead, hrest⟩ := List.pairwise_cons.mp hm
    by_cases heq : cmp k'' k = 0
    · -- `k''` is `k`
      have hk : k'' = k := (hcmp.eq_iff _ _).mp heq
      subst hk
      rw [push, if_pos heq, values_cons, values_cons, values_cons]
      by_cases h : k' = k'' <;> simp [h]
    · by_cases hlt : cmp k k'' < 0
      · -- `k` was absent: it is below every key of the map
        have habsent : values ((k'', vs) :: rest) k = [] := by
          apply values_of_lt hcmp
          intro e he
          rcases List.mem_cons.mp he with rfl | he
          · exact hlt
          · exact hcmp.trans _ _ _ hlt (hhead e he)
        rw [push, if_neg heq, if_pos hlt]
        by_cases h : k' = k
        · rw [values_cons, if_pos h, if_pos h, habsent, List.nil_append]
        · rw [values_cons, if_neg h, if_neg h]
      · -- the push goes past `k''`, which is not `k`
        have hne : k ≠ k'' := fun h => heq ((hcmp.eq_iff _ _).mpr h.symm)
        rw [push, if_neg heq, if_neg hlt, values_cons, ih hrest, values_cons, values_cons]
        by_cases h : k' = k
        · subst h
          rw [if_pos rfl, if_pos rfl, if_neg hne, if_neg hne]
        · rw [if_neg h, if_neg h]

/-- After a run of pushes from a sorted map, the values under a key are the
map's, then the pushed values with that key in the order they came. -/
theorem values_pushAll (kvs : List (κ × α)) :
    ∀ {m : List (κ × List α)}, Sorted cmp m → ∀ k,
      values (pushAll cmp m kvs) k = values m k ++ (kvs.filter fun kv => kv.1 = k).map Prod.snd := by
  induction kvs with
  | nil => intro m _ k; simp [pushAll]
  | cons kv kvs ih =>
    intro m hm k
    have hstep : pushAll cmp m (kv :: kvs) = pushAll cmp (push cmp m kv.1 kv.2) kvs := rfl
    rw [hstep, ih (sorted_push hcmp hm kv.1 kv.2) k, values_push hcmp hm]
    by_cases h : k = kv.1
    · subst h
      simp
    · have hne : ¬ kv.1 = k := fun h' => h h'.symm
      simp [h, hne]

end Lawful

end OrderedMap
