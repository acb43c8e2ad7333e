import Fedb.Lib.ListPrefix
import Fedb.Lib.OrderedMap
import Mathlib.Data.List.Perm.Basic

/-! # The level-0 chain of a `Skiplist`

A segment uses its skiplists through what their operations do to the chain
at level `0`, the nodes from the head in order: `Insert` links a node into
it, `Remove` unlinks one, and every split keeps a prefix of it and hands back
the rest, which `FreeList` then walks. This module states each operation
of `src/base/skiplist.h` by its effect on that chain, a list of nodes, for a
chain sorted by the comparator (`compare a b < 0` when `a` sorts before `b`):

* `FindLessOrEqual(k)` ends at the last node `k` sorts after, so `Insert`
  links before the first node `k` does not sort after, and `Split(k)` keeps
  the nodes `k` sorts after (`isAfter`);
* `SplitByPos`, `SplitByKeyOrPos` and `SplitByKeyAndPos` walk level `0` in
  the C++ itself and are the same walks here; `SplitOnPosNode(pos)` keeps the
  first `pos` nodes;
* `FindEqual(k)` ends at the last node whose key does not sort after `k`.

The nodes are of any type `α` with a key `key : α → K`; the upper levels, and
the heights only `RandomHeight` chooses, play no part. Every split returns a
prefix and the rest (`IsCut`), which is what the accounting of a segment needs.
-/

namespace Fedb.Base

namespace Chain

open ListPrefix

variable {α K : Type} (key : α → K) (compare : K → K → Int)

/-- `IsAfterNode(k, node)` for a node of the chain: `k` sorts after its key. -/
def isAfter (k : K) (a : α) : Bool := decide (compare k (key a) > 0)

/-- `Insert`: the node is linked after the nodes its key sorts after, so
before every node of an equal key. -/
def insert (a : α) (xs : List α) : List α :=
  xs.takeWhile (isAfter key compare (key a)) ++ a :: xs.dropWhile (isAfter key compare (key a))

/-- `Remove(k)`: the node after the last node `k` sorts after is unlinked if
its key equals `k`; it is returned. -/
def remove (k : K) (xs : List α) : List α × Option α :=
  match xs.dropWhile (isAfter key compare k) with
  | [] => (xs, none)
  | r :: rest =>
    if compare (key r) k ≠ 0 then (xs, none)
    else (xs.takeWhile (isAfter key compare k) ++ rest, some r)

/-- `Split(k)`: the nodes `k` sorts after stay, the rest is cut off. -/
def split (k : K) (xs : List α) : List α × List α :=
  (xs.takeWhile (isAfter key compare k), xs.dropWhile (isAfter key compare k))

/-- `SplitByPos(pos)`: the first `pos` nodes stay. On a chain of at most
`pos` nodes the C++ returns `NULL` and changes nothing, which is the same. -/
def splitByPos (pos : Nat) (xs : List α) : List α × List α := (xs.take pos, xs.drop pos)

/-- The walk of `SplitByKeyOrPos(k, pos)`, `n` positions left: a node whose
key does not sort before `k` ends it with `Split` at that node's key; at the
position it splits there; a chain that ends first is not changed. -/
def splitByKeyOrPosLoop (k : K) (pos : Nat) (xs : List α) : Nat → List α → List α × List α
  | _, [] => (xs, [])
  | 0, _ :: _ => splitByPos pos xs
  | n + 1, a :: rest =>
    if compare (key a) k ≥ 0 then split key compare (key a) xs
    else splitByKeyOrPosLoop k pos xs n rest

/-- `SplitByKeyOrPos(k, pos)`: split at whichever comes first. -/
def splitByKeyOrPos (k : K) (pos : Nat) (xs : List α) : List α × List α :=
  splitByKeyOrPosLoop key compare k pos xs pos xs

/-- The walk of `SplitByKeyAndPos(k, pos)`, `n` positions left, remembering
whether a key that does not sort before `k` was passed. -/
def splitByKeyAndPosLoop (k : K) (pos : Nat) (xs : List α) :
    Nat → List α → Bool → List α × List α
  | _, [], _ => (xs, [])
  | 0, _ :: _, findKey => if findKey then splitByPos pos xs else split key compare k xs
  | n + 1, a :: rest, findKey =>
    splitByKeyAndPosLoop k pos xs n rest (findKey || decide (compare (key a) k ≥ 0))

/-- `SplitByKeyAndPos(k, pos)`: split at whichever comes last. -/
def splitByKeyAndPos (k : K) (pos : Nat) (xs : List α) : List α × List α :=
  splitByKeyAndPosLoop key compare k pos xs pos xs false

/-- The walk of `FindEqual(k)`: the nodes whose key does not sort after `k`. -/
def findEqual (k : K) (xs : List α) : List α :=
  xs.takeWhile fun a => decide (compare (key a) k ≤ 0)

/-- `Get(k, v)`: the node `FindEqual` ends at, if its key equals `k`. Where
the walk ends at the head, the C++ compares the head's key and may hand back
the head's value, which is `NULL`; every caller treats that as not found. -/
def get (k : K) (xs : List α) : Option α :=
  match (findEqual key compare k xs).getLast? with
  | some a => if compare (key a) k = 0 then some a else none
  | none => none

/-- A write through the pointer `Get(k, v)` hands back: the node it finds is
replaced by `f` of it, every other node is kept. -/
def modify (k : K) (f : α → α) (xs : List α) : List α :=
  match get key compare k xs with
  | some a =>
    (findEqual key compare k xs).dropLast ++ f a ::
      xs.dropWhile fun a => decide (compare (key a) k ≤ 0)
  | none => xs

/-- `AddToFirst`: a node whose key does not sort after the first key goes in
front, and `true` is returned; otherwise the chain stays. -/
def addToFirst (a : α) (xs : List α) : List α × Bool :=
  match xs with
  | b :: _ => if compare (key a) (key b) > 0 then (xs, false) else (a :: xs, true)
  | [] => ([a], true)

/-! ## Every split keeps a prefix -/

/-- `r` is `xs` cut after some position: a prefix that stays and the rest. -/
def IsCut (xs : List α) (r : List α × List α) : Prop := ∃ n, r = (xs.take n, xs.drop n)

theorem IsCut.append_eq {xs : List α} {r : List α × List α} (h : IsCut xs r) : r.1 ++ r.2 = xs := by
  obtain ⟨n, rfl⟩ := h
  exact List.take_append_drop n xs

theorem IsCut.length_eq {xs : List α} {r : List α × List α} (h : IsCut xs r) :
    r.1.length + r.2.length = xs.length := by
  rw [← List.length_append, h.append_eq]

theorem isCut_self (xs : List α) : IsCut xs (xs, []) := ⟨xs.length, by simp⟩

theorem split_isCut (k : K) (xs : List α) : IsCut xs (split key compare k xs) :=
  ⟨_, by rw [split, ← takeWhile_eq_take, ← dropWhile_eq_drop]⟩

theorem splitByPos_isCut (pos : Nat) (xs : List α) : IsCut xs (splitByPos pos xs) := ⟨pos, rfl⟩

theorem splitByKeyOrPosLoop_isCut (k : K) (pos : Nat) (xs : List α) :
    ∀ n ys, IsCut xs (splitByKeyOrPosLoop key compare k pos xs n ys)
  | n, [] => by cases n <;> exact isCut_self xs
  | 0, _ :: _ => splitByPos_isCut pos xs
  | n + 1, a :: rest => by
    rw [splitByKeyOrPosLoop]
    split
    · exact split_isCut key compare _ xs
    · exact splitByKeyOrPosLoop_isCut k pos xs n rest

theorem splitByKeyOrPos_isCut (k : K) (pos : Nat) (xs : List α) :
    IsCut xs (splitByKeyOrPos key compare k pos xs) :=
  splitByKeyOrPosLoop_isCut key compare k pos xs pos xs

theorem splitByKeyAndPosLoop_isCut (k : K) (pos : Nat) (xs : List α) :
    ∀ n ys findKey, IsCut xs (splitByKeyAndPosLoop key compare k pos xs n ys findKey)
  | n, [], _ => by cases n <;> exact isCut_self xs
  | 0, _ :: _, findKey => by
    rw [splitByKeyAndPosLoop]
    split
    · exact splitByPos_isCut pos xs
    · exact split_isCut key compare k xs
  | n + 1, _ :: rest, _ => splitByKeyAndPosLoop_isCut k pos xs n rest _

theorem splitByKeyAndPos_isCut (k : K) (pos : Nat) (xs : List α) :
    IsCut xs (splitByKeyAndPos key compare k pos xs) :=
  splitByKeyAndPosLoop_isCut key compare k pos xs pos xs false

/-! ## Insert, Remove and the writes through `Get` -/

theorem insert_perm (a : α) (xs : List α) : (insert key compare a xs).Perm (a :: xs) := by
  have h := @List.perm_middle _ a (xs.takeWhile (isAfter key compare (key a)))
    (xs.dropWhile (isAfter key compare (key a)))
  rw [List.takeWhile_append_dropWhile] at h
  exact h

theorem remove_perm (k : K) (xs : List α) :
    xs.Perm ((remove key compare k xs).2.toList ++ (remove key compare k xs).1) := by
  unfold remove
  have hsplit := List.takeWhile_append_dropWhile (p := isAfter key compare k) (l := xs)
  split
  · simp
  · rename_i r rest heq
    split
    · simp
    · -- the node unlinked sits between the nodes before it and the rest
      simp only [Option.toList_some, List.singleton_append]
      rw [heq] at hsplit
      have hmid := @List.perm_middle _ r (xs.takeWhile (isAfter key compare k)) rest
      rw [hsplit] at hmid
      exact hmid

/-- `Remove(k)` where no node is left after the walk: nothing changes. -/
theorem remove_of_dropWhile_nil {k : K} {xs : List α} (h : xs.dropWhile (isAfter key compare k) = []) :
    remove key compare k xs = (xs, none) := by
  rw [remove, h]

/-- `Remove(k)` where the walk stops before `r`: `r` goes if its key is `k`. -/
theorem remove_of_dropWhile_cons {k : K} {xs : List α} {r : α} {rest : List α}
    (h : xs.dropWhile (isAfter key compare k) = r :: rest) :
    remove key compare k xs =
      if compare (key r) k ≠ 0 then (xs, none) else (xs.takeWhile (isAfter key compare k) ++ rest, some r) := by
  rw [remove, h]

theorem modify_of_get {k : K} {f : α → α} {xs : List α} {a : α}
    (h : get key compare k xs = some a) :
    ∃ ys zs, xs = ys ++ a :: zs ∧ modify key compare k f xs = ys ++ f a :: zs := by
  refine ⟨(findEqual key compare k xs).dropLast,
    xs.dropWhile fun a => decide (compare (key a) k ≤ 0), ?_, by rw [modify, h]⟩
  -- the node found is the last of the walk, so the walk is the nodes before it and it
  have hlast : (findEqual key compare k xs).getLast? = some a := by
    unfold get at h
    split at h
    · rename_i b hb
      split at h
      · rw [hb, Option.some.inj h]
      · simp at h
    · simp at h
  have hwalk : findEqual key compare k xs = (findEqual key compare k xs).dropLast ++ [a] := by
    rw [List.getLast?_eq_some_iff] at hlast
    obtain ⟨ys, hys⟩ := hlast
    rw [hys, List.dropLast_concat]
  calc xs = findEqual key compare k xs ++ xs.dropWhile fun a => decide (compare (key a) k ≤ 0) :=
        (List.takeWhile_append_dropWhile).symm
    _ = _ := by conv_lhs => rw [hwalk, List.append_assoc, List.singleton_append]

/-! ## Sorted chains

With a lawful comparison the tests of the walks are closed downwards along a
sorted chain, so `Insert` puts the node between the nodes its key sorts after
and the rest, and every operation keeps the chain sorted. -/

/-- No key of the chain sorts after a later one. -/
def Sorted (xs : List α) : Prop := xs.Pairwise fun a b => compare (key a) (key b) ≤ 0

theorem sorted_remove {xs : List α} (hs : Sorted key compare xs) (k : K) :
    Sorted key compare (remove key compare k xs).1 := by
  unfold remove
  split
  · exact hs
  · rename_i r rest heq
    split
    · exact hs
    · -- the nodes before the one unlinked and the rest after it, in order
      have hsplit := List.takeWhile_append_dropWhile (p := isAfter key compare k) (l := xs)
      rw [heq] at hsplit
      have hsub : (xs.takeWhile (isAfter key compare k) ++ rest).Sublist xs := by
        conv_rhs => rw [← hsplit]
        exact List.Sublist.append_left (List.sublist_cons_self r rest) _
      exact hs.sublist hsub

theorem sorted_split {xs : List α} (hs : Sorted key compare xs) (k : K) :
    Sorted key compare (split key compare k xs).1 :=
  hs.sublist (List.takeWhile_sublist _)

section Lawful

variable {compare} (hcmp : OrderedMap.Lawful compare)
include hcmp

theorem isAfter_of_le {k : K} {a b : α} (hab : compare (key a) (key b) ≤ 0)
    (hb : isAfter key compare k b = true) : isAfter key compare k a = true := by
  simp only [isAfter, decide_eq_true_eq] at hb ⊢
  exact hcmp.pos_of_le_of_pos hab hb

/-- On a sorted chain the walk of `isAfter` commutes with every filter. -/
theorem takeWhile_isAfter_filter (k : K) (q : α → Bool) {xs : List α} (hs : Sorted key compare xs) :
    (xs.filter q).takeWhile (isAfter key compare k) = (xs.takeWhile (isAfter key compare k)).filter q :=
  ListPrefix.takeWhile_filter (fun _ _ hab hb => isAfter_of_le key hcmp hab hb) q hs

theorem dropWhile_isAfter_filter (k : K) (q : α → Bool) {xs : List α} (hs : Sorted key compare xs) :
    (xs.filter q).dropWhile (isAfter key compare k) = (xs.dropWhile (isAfter key compare k)).filter q :=
  ListPrefix.dropWhile_filter (fun _ _ hab hb => isAfter_of_le key hcmp hab hb) q hs

/-- What the walk of `isAfter` leaves on a sorted chain does not sort before `k`. -/
theorem le_of_mem_dropWhile {k : K} {xs : List α} (hs : Sorted key compare xs) {d : α}
    (hd : d ∈ xs.dropWhile (isAfter key compare k)) : compare k (key d) ≤ 0 := by
  rw [ListPrefix.dropWhile_eq_filter (fun _ _ hab hb => isAfter_of_le key hcmp hab hb) hs] at hd
  have hnot := (List.mem_filter.1 hd).2
  simp only [isAfter, Bool.not_eq_true', decide_eq_false_iff_not] at hnot
  exact Int.not_lt.1 hnot

theorem sorted_insert {xs : List α} (hs : Sorted key compare xs) (a : α) :
    Sorted key compare (insert key compare a xs) := by
  have hsplit := List.takeWhile_append_dropWhile (p := isAfter key compare (key a)) (l := xs)
  have hs' := hs
  unfold Sorted at hs'
  rw [← hsplit, List.pairwise_append] at hs'
  obtain ⟨hT, hD, hTD⟩ := hs'
  -- the nodes before `a` sort before it, the nodes after it do not sort before it
  have hbefore : ∀ t ∈ xs.takeWhile (isAfter key compare (key a)), compare (key t) (key a) ≤ 0 := by
    intro t ht
    have hpos := List.mem_takeWhile_imp ht
    simp only [isAfter, decide_eq_true_eq] at hpos
    exact Int.le_of_lt (hcmp.neg_of_pos hpos)
  have hafter : ∀ d ∈ xs.dropWhile (isAfter key compare (key a)), compare (key a) (key d) ≤ 0 :=
    fun d hd => le_of_mem_dropWhile key hcmp hs hd
  unfold insert Sorted
  rw [List.pairwise_append, List.pairwise_cons]
  refine ⟨hT, ⟨hafter, hD⟩, fun t ht b hb => ?_⟩
  rcases List.mem_cons.1 hb with rfl | hb
  · exact hbefore t ht
  · exact hTD t ht b hb

theorem sorted_addToFirst {xs : List α} (hs : Sorted key compare xs) (a : α) :
    Sorted key compare (addToFirst key compare a xs).1 := by
  unfold addToFirst
  split
  · rename_i b rest
    split
    · exact hs
    · -- `a` does not sort after `b`, which sorts before the rest
      rename_i hle
      have hab : compare (key a) (key b) ≤ 0 := Int.not_lt.1 hle
      unfold Sorted at hs ⊢
      refine List.Pairwise.cons (fun c hc => ?_) hs
      rcases List.mem_cons.1 hc with rfl | hc
      · exact hab
      · exact hcmp.le_trans hab ((List.pairwise_cons.1 hs).1 c hc)
  · exact List.pairwise_singleton _ _

end Lawful

/-! ## The operations on the data of the nodes

A chain of pointers and the list of what they point to: every operation is
the same on both, when the key is read through the pointer. -/

section Map

variable {β : Type} {key} (key' : β → K) (f : α → β) (hf : ∀ a, key' (f a) = key a)
include hf

theorem isAfter_comp (k : K) : isAfter key' compare k ∘ f = isAfter key compare k :=
  funext fun a => by simp only [Function.comp, isAfter, hf]

theorem sorted_map {xs : List α} : Sorted key' compare (xs.map f) ↔ Sorted key compare xs := by
  unfold Sorted
  rw [List.pairwise_map]
  simp only [hf]

/-- `Insert` of an element into the images: the images of the nodes the
element's key sorts after, the element, and the images of the rest. -/
theorem insert_map (b : β) (xs : List α) :
    insert key' compare b (xs.map f) =
      (xs.takeWhile (isAfter key compare (key' b))).map f ++
        b :: (xs.dropWhile (isAfter key compare (key' b))).map f := by
  simp only [insert, List.takeWhile_map, List.dropWhile_map, isAfter_comp compare key' f hf]

theorem map_split (k : K) (xs : List α) :
    ((split key compare k xs).1.map f, (split key compare k xs).2.map f) =
      split key' compare k (xs.map f) := by
  simp only [split, List.takeWhile_map, List.dropWhile_map, isAfter_comp compare key' f hf]

theorem map_remove (k : K) (xs : List α) :
    ((remove key compare k xs).1.map f, (remove key compare k xs).2.map f) =
      remove key' compare k (xs.map f) := by
  unfold remove
  rw [List.dropWhile_map, isAfter_comp compare key' f hf]
  cases h : xs.dropWhile (isAfter key compare k) with
  | nil => rfl
  | cons r rest =>
    simp only [List.map_cons, hf]
    split_ifs
    · rfl
    · simp only [List.map_append, List.takeWhile_map, isAfter_comp compare key' f hf, Option.map_some]

end Map

end Chain

end Fedb.Base
