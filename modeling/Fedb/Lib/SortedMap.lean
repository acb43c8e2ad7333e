import Mathlib

/-! # A map kept as a list of entries sorted by key

`std::map<K, V>` as the list of its entries in key order; the keys strictly
increase, and the structure carries that as a field. `find?` is
`std::map::find`, `first?` is `begin()`, `insert` is `std::map::insert`,
which leaves an entry already under the key as it is, and `modify` changes
the value under a key in place, as a write through a pointer the map holds
does.

`find?` after `insert` and `modify` is `find?_insert`, `find?_modify_self`
and `find?_modify_of_ne`. The order is what lets `insert` put a new key in
front of a larger one without hiding an entry further on, what makes every
entry the one `find?` gives for its key (`find?_of_mem`), and what makes
`first?` the entry of the least key (`first?_eq_of_le`).
-/

/-- A map from `κ` to `α`: its entries in strictly increasing key order. -/
structure SortedMap (κ : Type*) [LinearOrder κ] (α : Type*) where
  entries : List (κ × α)
  sorted : entries.Pairwise fun a b => a.1 < b.1

namespace SortedMap

variable {κ α : Type*} [LinearOrder κ]

/-- The map without entries. -/
def empty : SortedMap κ α := ⟨[], .nil⟩

/-- `find(k)`: the value under `k`, if any. -/
def find? (m : SortedMap κ α) (k : κ) : Option α := m.entries.lookup k

/-- `begin()`: the entry of the least key, if any. -/
def first? (m : SortedMap κ α) : Option (κ × α) := m.entries.head?

/-- The entries after inserting `(k, v)` in front of the first larger key;
an entry under `k` stays as it is. -/
def insertList (k : κ) (v : α) : List (κ × α) → List (κ × α)
  | [] => [(k, v)]
  | (k', v') :: rest =>
    if k < k' then (k, v) :: (k', v') :: rest
    else if k = k' then (k', v') :: rest
    else (k', v') :: insertList k v rest

theorem mem_insertList {k : κ} {v : α} {e : κ × α} :
    ∀ {l : List (κ × α)}, e ∈ insertList k v l → e = (k, v) ∨ e ∈ l
  | [], h => by simpa [insertList] using h
  | (k', v') :: rest, h => by
    unfold insertList at h
    split_ifs at h with h1 h2
    · exact List.mem_cons.1 h
    · exact Or.inr h
    · rcases List.mem_cons.1 h with rfl | h
      · exact Or.inr List.mem_cons_self
      · rcases mem_insertList h with h | h
        · exact Or.inl h
        · exact Or.inr (List.mem_cons_of_mem _ h)

theorem pairwise_insertList (k : κ) (v : α) :
    ∀ {l : List (κ × α)}, l.Pairwise (fun a b => a.1 < b.1) →
      (insertList k v l).Pairwise fun a b => a.1 < b.1
  | [], _ => by simp [insertList]
  | (k', v') :: rest, h => by
    have hrest := List.pairwise_cons.1 h
    unfold insertList
    split_ifs with h1 h2
    · -- `k` goes in front: below `k'`, so below every key after it
      refine List.Pairwise.cons (fun e he => ?_) h
      rcases List.mem_cons.1 he with rfl | he
      · exact h1
      · exact h1.trans (hrest.1 e he)
    · exact h
    · -- `k` goes after `k'`, which stays below every key of the rest
      have hk : k' < k := lt_of_le_of_ne (not_lt.1 h1) (Ne.symm h2)
      refine List.Pairwise.cons (fun e he => ?_) (pairwise_insertList k v hrest.2)
      rcases mem_insertList he with rfl | he
      · exact hk
      · exact hrest.1 e he

/-- `insert({k, v})`. -/
def insert (m : SortedMap κ α) (k : κ) (v : α) : SortedMap κ α :=
  ⟨insertList k v m.entries, pairwise_insertList k v m.sorted⟩

/-- The value under `k` changed by `f`; the other entries stay. -/
def modify (m : SortedMap κ α) (k : κ) (f : α → α) : SortedMap κ α :=
  ⟨m.entries.map fun e => if e.1 = k then (e.1, f e.2) else e,
    List.pairwise_map.2 (m.sorted.imp fun {a b} h => by split_ifs <;> exact h)⟩

/-! ## Lookups -/

theorem lookup_cons (k k' : κ) (v : α) (l : List (κ × α)) :
    ((k', v) :: l).lookup k = if k = k' then some v else l.lookup k := by
  by_cases h : k = k'
  · subst h
    simp only [List.lookup_cons, beq_self_eq_true, if_true]
  · simp only [List.lookup_cons, beq_false_of_ne h, if_neg h]

@[simp] theorem find?_empty (k : κ) : (empty : SortedMap κ α).find? k = none := rfl

theorem mem_of_lookup {k : κ} {v : α} :
    ∀ {l : List (κ × α)}, l.lookup k = some v → (k, v) ∈ l
  | [], h => by simp at h
  | (k', v') :: rest, h => by
    rw [lookup_cons] at h
    split_ifs at h with hk
    · cases h
      rw [hk]
      exact List.mem_cons_self
    · exact List.mem_cons_of_mem _ (mem_of_lookup h)

/-- No key below the first key of a sorted list is in it. -/
theorem lookup_eq_none_of_lt {k k0 : κ} {v0 : α} {l : List (κ × α)}
    (hl : ((k0, v0) :: l).Pairwise fun a b => a.1 < b.1) (hk : k < k0) :
    ((k0, v0) :: l).lookup k = none := by
  rw [lookup_cons, if_neg (ne_of_lt hk)]
  cases h : l.lookup k with
  | none => rfl
  | some v =>
    have hlt : k0 < k := (List.pairwise_cons.1 hl).1 _ (mem_of_lookup h)
    exact absurd (hk.trans hlt) (lt_irrefl k)

theorem lookup_insertList (k k' : κ) (v : α) :
    ∀ {l : List (κ × α)}, l.Pairwise (fun a b => a.1 < b.1) →
      (insertList k' v l).lookup k = if k = k' then (l.lookup k).or (some v) else l.lookup k
  | [], _ => by by_cases h : k = k' <;> simp [insertList, lookup_cons, h]
  | (k'', v'') :: rest, hl => by
    have ih := lookup_insertList k k' v (List.pairwise_cons.1 hl).2
    by_cases h1 : k' < k''
    · -- `k'` goes in front of `k''`: it was not in the list
      rw [insertList, if_pos h1]
      by_cases hk : k = k'
      · rw [if_pos hk, lookup_cons, if_pos hk, hk, lookup_eq_none_of_lt hl h1]
        rfl
      · rw [lookup_cons, if_neg hk, if_neg hk]
    by_cases h2 : k' = k''
    · -- `k'` is the first key: the entry stays
      rw [insertList, if_neg h1, if_pos h2]
      by_cases hk : k = k'
      · rw [if_pos hk, lookup_cons, if_pos (hk.trans h2)]
        rfl
      · rw [if_neg hk]
    · -- `k'` goes into the rest, past `k''`
      have hlt : k'' < k' := lt_of_le_of_ne (not_lt.1 h1) (Ne.symm h2)
      rw [insertList, if_neg h1, if_neg h2]
      by_cases hk : k = k''
      · have hk' : k ≠ k' := by rw [hk]; exact ne_of_lt hlt
        rw [lookup_cons, if_pos hk, if_neg hk', lookup_cons, if_pos hk]
      · rw [lookup_cons, if_neg hk, ih, lookup_cons, if_neg hk]

/-- After `insert`, the value under `k'` is the old one if there was one,
and `v` otherwise. -/
theorem find?_insert (m : SortedMap κ α) (k k' : κ) (v : α) :
    (m.insert k' v).find? k = if k = k' then (m.find? k).or (some v) else m.find? k :=
  lookup_insertList k k' v m.sorted

theorem lookup_map_modify (k : κ) (f : α → α) (l : List (κ × α)) :
    (l.map fun e => if e.1 = k then (e.1, f e.2) else e).lookup k = (l.lookup k).map f := by
  induction l with
  | nil => rfl
  | cons e rest ih =>
    obtain ⟨k', v'⟩ := e
    by_cases h : k' = k
    · subst h
      rw [List.map_cons, if_pos rfl, lookup_cons, if_pos rfl, lookup_cons, if_pos rfl]
      rfl
    · simp [lookup_cons, h, Ne.symm h, ih]

theorem lookup_map_modify_of_ne {k k' : κ} (h : k' ≠ k) (f : α → α) (l : List (κ × α)) :
    (l.map fun e => if e.1 = k then (e.1, f e.2) else e).lookup k' = l.lookup k' := by
  induction l with
  | nil => rfl
  | cons e rest ih =>
    obtain ⟨k'', v''⟩ := e
    by_cases he : k'' = k
    · subst he
      simp [lookup_cons, h, ih]
    · simp [lookup_cons, he, ih]

theorem find?_modify_self (m : SortedMap κ α) (k : κ) (f : α → α) :
    (m.modify k f).find? k = (m.find? k).map f :=
  lookup_map_modify k f m.entries

theorem find?_modify_of_ne (m : SortedMap κ α) {k k' : κ} (h : k' ≠ k) (f : α → α) :
    (m.modify k f).find? k' = m.find? k' :=
  lookup_map_modify_of_ne h f m.entries

/-- With distinct keys, every entry is the one found under its key. -/
theorem lookup_of_mem {e : κ × α} :
    ∀ {l : List (κ × α)}, l.Pairwise (fun a b => a.1 < b.1) → e ∈ l → l.lookup e.1 = some e.2
  | [], _, he => by simp at he
  | (k', v') :: rest, hl, he => by
    rcases List.mem_cons.1 he with rfl | he
    · rw [lookup_cons, if_pos rfl]
    · have hlt : k' < e.1 := (List.pairwise_cons.1 hl).1 e he
      rw [lookup_cons, if_neg (ne_of_gt hlt)]
      exact lookup_of_mem (List.pairwise_cons.1 hl).2 he

theorem find?_of_mem (m : SortedMap κ α) {e : κ × α} (he : e ∈ m.entries) :
    m.find? e.1 = some e.2 :=
  lookup_of_mem m.sorted he

/-! ## The first entry -/

theorem find?_of_first? {m : SortedMap κ α} {e : κ × α} (h : m.first? = some e) :
    m.find? e.1 = some e.2 := by
  unfold first? at h
  unfold find?
  cases hm : m.entries with
  | nil => simp [hm] at h
  | cons e' rest =>
    rw [hm, List.head?_cons, Option.some.injEq] at h
    subst h
    rw [lookup_cons, if_pos rfl]

/-- A key at or below every key of the map is the key of `begin()`. -/
theorem first?_eq_of_le {m : SortedMap κ α} {k : κ} {v : α} (h : m.find? k = some v)
    (hle : ∀ k' v', m.find? k' = some v' → k ≤ k') : m.first? = some (k, v) := by
  have hsorted := m.sorted
  unfold first?
  unfold find? at h hle
  cases hm : m.entries with
  | nil => simp [hm] at h
  | cons e rest =>
    obtain ⟨k0, v0⟩ := e
    rw [hm] at h hle hsorted
    have h0 : k ≤ k0 := hle k0 v0 (by rw [lookup_cons, if_pos rfl])
    rw [lookup_cons] at h
    split_ifs at h with hk
    · cases h
      rw [hk]
      rfl
    · -- a key of the rest lies above `k0`, so above `k`
      have hmem := mem_of_lookup h
      have hlt : k0 < k := (List.pairwise_cons.1 hsorted).1 _ hmem
      exact absurd (lt_of_le_of_lt h0 hlt) (lt_irrefl k)

end SortedMap
