import Fedb.Base.SkiplistRefine

/-! # The queries of `Skiplist`

The readers of `src/base/skiplist.h` on a list with the invariant (`Inv`),
stated on its entries as `Chain` states them:

* `FindEqual` and `FindLessThan` are one descent (`descend`) with different
  tests, each closed upwards along the order; on a list with the invariant a
  descent from the head stops at the last node of level `0` its test lets
  through (`descend_head`), so `FindEqual(key)` ends at the last node
  `Chain.findEqual` keeps and `FindLessThan(key)` where `FindLessOrEqual(key)`
  ends (`findEqual_spec`, `findLessThan_spec`);
* both `Get`s read the node `FindEqual` ends at. Where no node has a key at or
  before `key` that node is the head: `Get(key)` then hands back the head's
  value, and `Get(key, v)` compares the head's key too, so it is `Chain.get`
  only up to that case (`get_refines`);
* an iterator reads level `0` from where it stands (`reads_of_isPath`): from
  `SeekToFirst()` every entry, from `Seek(k)` the entries `Split(k)` would cut
  off, from `SeekToLast()` the last entry, or the head once a `Split` has cut
  every node off; `GetSize()` counts the entries (`iterator_refines`).
-/

namespace Fedb.Base

namespace Skiplist

open Path

variable {K V : Type} [Inhabited K] [Inhabited V]

/-! ## The descent -/

section Descend

variable (l : Skiplist K V) (stop : K → Bool)

/-- The nodes a descent walks over: those whose key does not stop it. -/
def passes (p : Nat) : Bool := !stop (l.key p)

/-- One level of the descent from `x` on a path of that level: it walks over
the nodes that pass and stops at the last of them. -/
theorem descend_right {level y : Nat} :
    ∀ {zs : List Nat} {x fuel : Nat}, IsPath (l.next level) (some x) (x :: zs) →
      (zs.takeWhile (l.passes stop)).length < fuel →
      (zs.takeWhile (l.passes stop)).getLast?.getD x = y →
      l.descend stop fuel x level =
        if level = 0 then some y
        else l.descend stop (fuel - 1 - (zs.takeWhile (l.passes stop)).length) y (level - 1)
  | [], x, fuel, h, hfuel, hy => by
    obtain ⟨fuel, rfl⟩ : ∃ f, fuel = f + 1 := ⟨fuel - 1, by simp at hfuel; omega⟩
    have hnext : l.getNext x level = none := h.next_eq
    simp only [List.takeWhile_nil, List.getLast?_nil, Option.getD_none] at hy
    subst hy
    simp [descend, hnext, stopsAt]
  | z :: zs, x, fuel, h, hfuel, hy => by
    obtain ⟨fuel, rfl⟩ : ∃ f, fuel = f + 1 := ⟨fuel - 1, by omega⟩
    have hnext : l.getNext x level = some z := h.next_eq
    have hz : IsPath (l.next level) (some z) (z :: zs) := by
      cases h with
      | cons h => exact hnext ▸ h
    by_cases hA : l.passes stop z = true
    · -- `z` passes: the walk moves on to it
      rw [List.takeWhile_cons_of_pos hA] at hfuel hy ⊢
      have hy' : (zs.takeWhile (l.passes stop)).getLast?.getD z = y := by
        rw [← hy, List.getLast?_cons, Option.getD_some]
      have hmove : l.stopsAt stop (l.getNext x level) = false := by
        rw [hnext]
        simpa [passes, key, stopsAt] using hA
      rw [descend, if_neg (by rw [hmove]; decide), hnext, Option.getD_some,
        descend_right hz (by simp at hfuel; omega) hy']
      have hf : fuel + 1 - 1 - ((zs.takeWhile (l.passes stop)).length + 1) =
          fuel - 1 - (zs.takeWhile (l.passes stop)).length := by omega
      rw [List.length_cons, hf]
    · -- `z` stops the walk, which goes down from `x`
      rw [List.takeWhile_cons_of_neg hA] at hy ⊢
      simp only [List.getLast?_nil, Option.getD_none] at hy
      subst hy
      have hstop : l.stopsAt stop (l.getNext x level) = true := by
        rw [hnext]
        simpa [passes, key, stopsAt] using hA
      simp [descend, hstop]

/-- The stop of a level, seen from the level below: it is on that level's walk. -/
theorem getLast?_onLevel_mem (T : List Nat) (L : Nat) :
    (l.onLevel (L + 1) T).getLast?.getD head ∈ head :: l.onLevel L T := by
  rcases List.mem_cons.1 (ListPrefix.getLast?_getD_mem head (l.onLevel (L + 1) T)) with h | h
  · rw [h]
    exact List.mem_cons_self
  · obtain ⟨hmem, hh⟩ := List.mem_filter.1 h
    refine List.mem_cons_of_mem _ (List.mem_filter.2 ⟨hmem, ?_⟩)
    simp only [decide_eq_true_eq] at hh ⊢
    omega

end Descend

section Lawful

variable {compare : K → K → Int} {l : Skiplist K V} (hl : Inv compare l) {stop : K → Bool}
  (hstop : ∀ a b, compare a b ≤ 0 → stop a = true → stop b = true)
include hl hstop

/-- On a sorted chain the nodes of a level that pass are the nodes of level
`0` that pass, on that level: a test closed upwards lets a prefix through. -/
theorem takeWhile_passes_chain {i : Nat} (hi : i < l.MaxHeight) :
    (l.chain i).takeWhile (l.passes stop) = l.onLevel i ((l.chain 0).takeWhile (l.passes stop)) := by
  rw [hl.holds.chain_eq hi]
  refine ListPrefix.takeWhile_filter (fun a b hab hb => ?_) _ hl.sorted
  -- a node before one that passes passes too
  simp only [passes, Bool.not_eq_true'] at hb ⊢
  cases ha : stop (l.key a) with
  | false => rfl
  | true =>
    have hb' := hstop _ _ hab ha
    rw [key, hb'] at hb
    exact absurd hb Bool.noConfusion

/-- The descent from a node the walk can stand on at `level`, with fuel for
every level down to `0`, stops at the last node of level `0` that passes. -/
theorem descend_spec :
    ∀ level, level < l.maxHeight → ∀ {x fuel : Nat},
      x ∈ head :: (l.chain level).takeWhile (l.passes stop) →
      (level + 1) * ((l.chain 0).length + 1) ≤ fuel →
      l.descend stop fuel x level = some (((l.chain 0).takeWhile (l.passes stop)).getLast?.getD head) := by
  have hmax := hl.holds.maxHeight_le
  intro level
  induction level with
  | zero =>
    intro _ x fuel hx hfuel
    obtain ⟨zs, hz, hlast, hlen⟩ :=
      (hl.holds.isPath_chain hl.holds.maxHeight_pos').exists_of_mem_takeWhile hx
    have hc := (List.takeWhile_sublist (l.passes stop) (l := l.chain 0)).length_le
    rw [descend_right l stop hz (by omega) hlast, if_pos rfl]
  | succ L ih =>
    intro hL x fuel hx hfuel
    obtain ⟨zs, hz, hlast, hlen⟩ := (hl.holds.isPath_chain (by omega)).exists_of_mem_takeWhile hx
    -- the walk of a level is no longer than the chain of level `0`
    have hc : ((l.chain (L + 1)).takeWhile (l.passes stop)).length ≤ (l.chain 0).length := by
      rw [takeWhile_passes_chain hl hstop (by omega)]
      exact (List.length_filter_le _ _).trans (List.takeWhile_sublist _).length_le
    have hstep : (L + 1 + 1) * ((l.chain 0).length + 1) =
        (L + 1) * ((l.chain 0).length + 1) + ((l.chain 0).length + 1) := by ring
    have hbelow : ((l.chain (L + 1)).takeWhile (l.passes stop)).getLast?.getD head ∈
        head :: (l.chain L).takeWhile (l.passes stop) := by
      rw [takeWhile_passes_chain hl hstop (i := L + 1) (by omega),
        takeWhile_passes_chain hl hstop (i := L) (by omega)]
      exact getLast?_onLevel_mem l _ L
    rw [descend_right l stop hz (by omega) hlast, if_neg (Nat.succ_ne_zero L), Nat.add_sub_cancel]
    exact ih (by omega) hbelow (by omega)

/-- The descent from the head at the top level, with the fuel of the finds. -/
theorem descend_head :
    l.descend stop l.fuel head (l.maxHeight - 1) =
      some (((l.chain 0).takeWhile (l.passes stop)).getLast?.getD head) := by
  have hm := hl.holds.maxHeight_pos
  -- the fuel covers every level and every node
  have hfuel : (l.maxHeight - 1 + 1) * ((l.chain 0).length + 1) ≤ l.fuel := by
    have hc := hl.holds.length_lt
    have hle := hl.holds.maxHeight_le
    calc (l.maxHeight - 1 + 1) * ((l.chain 0).length + 1)
        ≤ (l.MaxHeight + 1) * (l.nodes.length + 1) := Nat.mul_le_mul (by omega) (by omega)
      _ = l.fuel := Nat.mul_comm _ _
  exact descend_spec hl hstop (l.maxHeight - 1) (by omega) List.mem_cons_self hfuel

end Lawful

/-! ## `FindEqual`, `FindLessThan` and the two `Get`s -/

theorem findEqual_entries (compare : K → K → Int) (l : Skiplist K V) (key : K) :
    Chain.findEqual Prod.fst compare key l.entries =
      (Chain.findEqual l.key compare key (l.chain 0)).map fun p => Node.data (l.node p) := by
  rw [entries, Chain.findEqual, Chain.findEqual, List.takeWhile_map]
  rfl

section Find

variable {compare : K → K → Int} (hcmp : OrderedMap.Lawful compare) {l : Skiplist K V}
  (hl : Inv compare l)
include hcmp hl

/-- `FindEqual(key)` ends at the last node `Chain.findEqual` keeps, or the head. -/
theorem findEqual_spec (key : K) :
    l.findEqual compare key = some ((Chain.findEqual l.key compare key (l.chain 0)).getLast?.getD head) := by
  -- the nodes after a key above `key` are above it too
  have hstop : ∀ a b, compare a b ≤ 0 → decide (compare a key > 0) = true →
      decide (compare b key > 0) = true := by
    intro a b hab ha
    simp only [decide_eq_true_eq] at ha ⊢
    rcases Int.lt_or_le 0 (compare b key) with hb | hb
    · exact hb
    · exact absurd (hcmp.le_trans hab hb) (Int.not_le.2 ha)
  have hpasses : (l.passes fun k => decide (compare k key > 0)) =
      fun p => decide (compare (l.key p) key ≤ 0) := by
    funext p
    simp only [passes]
    by_cases h : compare (l.key p) key ≤ 0
    · rw [decide_eq_false (Int.not_lt.2 h), decide_eq_true h]
      rfl
    · rw [decide_eq_true (Int.lt_of_not_ge h), decide_eq_false h]
      rfl
  rw [findEqual, descend_head hl hstop, hpasses]
  rfl

/-- `FindLessThan(key)` ends where `FindLessOrEqual(key)` does. -/
theorem findLessThan_spec (key : K) :
    l.findLessThan compare key = some (l.lastBefore compare key 0) := by
  -- the nodes after a key not below `key` are not below it either
  have hstop : ∀ a b, compare a b ≤ 0 → decide (compare a key ≥ 0) = true →
      decide (compare b key ≥ 0) = true := by
    intro a b hab ha
    simp only [decide_eq_true_eq] at ha ⊢
    rcases Int.lt_or_le (compare b key) 0 with hb | hb
    · exact absurd (hcmp.lt_of_le_of_lt hab hb) (Int.not_lt.2 ha)
    · exact hb
  -- a key below `key` is one `key` sorts after
  have hpasses : (l.passes fun k => decide (compare k key ≥ 0)) = Chain.isAfter l.key compare key := by
    funext p
    simp only [passes, Chain.isAfter]
    by_cases h : compare (l.key p) key < 0
    · rw [decide_eq_false (Int.not_le.2 h), decide_eq_true (hcmp.pos_of_neg h)]
      rfl
    · rw [decide_eq_true (Int.not_lt.1 h),
        decide_eq_false fun hpos => h (hcmp.neg_of_pos hpos)]
      rfl
  rw [findLessThan, descend_head hl hstop, hpasses]
  rfl

/-- Both `Get`s on a list with the invariant: `Get(key, v)` is `Chain.get` of
the entries, but where no entry has a key at or before `key` the walk ends at
the head, and `Get(key, v)` finds the head when its key equals `key`;
`Get(key)` hands back the value of the last entry at or before `key`, or the
head's. -/
theorem get_refines (key : K) :
    l.get compare key = some
        (if Chain.findEqual Prod.fst compare key l.entries = [] ∧ compare (l.node head).key key = 0
          then some (l.node head).value
          else (Chain.get Prod.fst compare key l.entries).map fun e => e.2.1) ∧
      l.getRef compare key = some
        (match (Chain.findEqual Prod.fst compare key l.entries).getLast? with
          | some e => e.2.1
          | none => (l.node head).value) := by
  rw [get, getRef, findEqual_spec hcmp hl, Option.map_some, Option.map_some, Chain.get,
    findEqual_entries compare l key, List.getLast?_map]
  cases hlast : (Chain.findEqual l.key compare key (l.chain 0)).getLast? with
  | none =>
    -- the walk ends at the head
    have hnil : Chain.findEqual l.key compare key (l.chain 0) = [] := List.getLast?_eq_none_iff.1 hlast
    simp only [Option.getD_none, Option.map_none, hnil, List.map_nil, true_and]
  | some p =>
    -- the walk ends at a node, which `Chain.get` reads too
    have hne : Chain.findEqual l.key compare key (l.chain 0) ≠ [] := by
      intro h
      rw [h] at hlast
      simp at hlast
    simp only [Option.getD_some, Option.map_some, List.map_eq_nil_iff, hne, false_and, if_false,
      Node.data, and_true]
    by_cases hk : compare (l.node p).key key = 0
    · rw [if_pos hk, if_pos hk, Option.map_some]
    · rw [if_neg hk, if_neg hk, Option.map_none]

end Find

/-- `Insert` at a height from `1` to `MaxHeight` keeps the invariant. -/
theorem inv_of_insert {compare : K → K → Int} (hcmp : OrderedMap.Lawful compare) {l l' : Skiplist K V}
    (hl : Inv compare l) {key : K} {value : V} {height : Nat} (hh : 0 < height)
    (hle : height ≤ l.MaxHeight) (heq : l.insert compare key value height = some (l', height)) :
    Inv compare l' := by
  obtain ⟨l'', h, hinv, -⟩ := insert_spec hcmp hl key value hh hle
  rw [heq, Option.some_inj, Prod.mk.injEq] at h
  rw [h.1]
  exact hinv

/-- The list `Insert(9)` at height `2` and then `Insert(5)` at height `1`
build from a fresh list of `MaxHeight` `2` under `DefaultComparator`, which
puts `9` first. -/
def nineFive : Skiplist UInt64 Unit :=
  ⟨2, 2, [⟨0, (), 2, [some 1, some 1]⟩, ⟨9, (), 2, [some 2, none]⟩, ⟨5, (), 1, [none]⟩], some 2⟩

theorem inv_nineFive : Inv defaultComparator nineFive := by
  -- the list after `Insert(9)`, then the one after `Insert(5)`
  have e9 : (new 2 : Skiplist UInt64 Unit).insert defaultComparator 9 () 2 =
      some (⟨2, 2, [⟨0, (), 2, [some 1, some 1]⟩, ⟨9, (), 2, [none, none]⟩], some 1⟩, 2) := by decide
  have h9 := inv_of_insert defaultComparator_lawful (new_inv defaultComparator (by decide)) (by decide)
    (by decide) e9
  have e5 : Skiplist.insert defaultComparator
      (⟨2, 2, [⟨0, (), 2, [some 1, some 1]⟩, ⟨9, (), 2, [none, none]⟩], some 1⟩ : Skiplist UInt64 Unit)
      5 () 1 = some (nineFive, 1) := by decide
  exact inv_of_insert defaultComparator_lawful h9 (by decide) (by decide) e5

/-- `Get(5)` finds `5`, `Get(7)` finds nothing, and on a fresh list `Get(0)`
finds the head, whose key is `0`. -/
theorem get_refines_nineFive :
    nineFive.get defaultComparator 5 = some (some ()) ∧ nineFive.get defaultComparator 7 = some none ∧
      (new 2 : Skiplist UInt64 Unit).get defaultComparator 0 = some (some ()) := by
  refine ⟨?_, ?_, ?_⟩
  · rw [(get_refines defaultComparator_lawful inv_nineFive 5).1]
    decide
  · rw [(get_refines defaultComparator_lawful inv_nineFive 7).1]
    decide
  · rw [(get_refines defaultComparator_lawful (new_inv defaultComparator (by decide : 0 < 2)) 0).1]
    decide

/-! ## The iterator -/

/-- What a client reads by `GetKey()` and `GetValue()` (with the node's
height) calling `Next()` while `Valid()`, for at most `fuel` rounds. -/
def Iterator.reads (l : Skiplist K V) : Nat → Iterator → List (K × V × Nat)
  | 0, _ => []
  | fuel + 1, it =>
    match it.node with
    | none => []
    | some p => Node.data (l.node p) :: reads l fuel (it.next l)

/-- From a pointer whose path on level `0` is `ps`, the iterator reads the
data of `ps`, given a round for each node. -/
theorem reads_of_isPath (l : Skiplist K V) {q : Ptr} {ps : List Nat} (h : IsPath (l.next 0) q ps) :
    ∀ {fuel : Nat}, ps.length ≤ fuel →
      Iterator.reads l fuel ⟨q⟩ = ps.map fun p => Node.data (l.node p) := by
  induction h with
  | none =>
    intro fuel _
    cases fuel <;> rfl
  | @cons p ps _ ih =>
    intro fuel hfuel
    obtain ⟨fuel, rfl⟩ : ∃ f, fuel = f + 1 := ⟨fuel - 1, by simp at hfuel; omega⟩
    rw [Iterator.reads, List.map_cons]
    exact congrArg _ (ih (by simp at hfuel; omega))

/-- The loop of `GetSize()` from a node on level `0` counts it and every node
after it. -/
theorem getSizeLoop_of_isPath (l : Skiplist K V) :
    ∀ {zs : List Nat} {p fuel cnt : Nat}, IsPath (l.next 0) (some p) (p :: zs) → zs.length < fuel →
      l.getSizeLoop fuel p cnt = some (cnt + 1 + zs.length)
  | [], p, fuel, cnt, h, hfuel => by
    obtain ⟨fuel, rfl⟩ : ∃ f, fuel = f + 1 := ⟨fuel - 1, by simp at hfuel; omega⟩
    have hnext : l.getNext p 0 = none := h.next_eq
    simp [getSizeLoop, hnext]
  | z :: zs, p, fuel, cnt, h, hfuel => by
    obtain ⟨fuel, rfl⟩ : ∃ f, fuel = f + 1 := ⟨fuel - 1, by simp at hfuel; omega⟩
    have hnext : l.getNext p 0 = some z := h.next_eq
    have hz : IsPath (l.next 0) (some z) (z :: zs) := by
      cases h with
      | cons h => exact hnext ▸ h
    rw [getSizeLoop, hnext]
    simp only
    rw [getSizeLoop_of_isPath l hz (by simp at hfuel; omega), List.length_cons]
    congr 1
    omega

section Iterate

variable {compare : K → K → Int} (hcmp : OrderedMap.Lawful compare) {l : Skiplist K V}
  (hl : Inv compare l)
include hl

theorem getSize_spec : l.getSize = some l.entries.length := by
  have hpath := hl.holds.isPath_chain hl.holds.maxHeight_pos'
  have hc := hl.holds.length_lt
  rw [entries, List.length_map]
  cases hC : l.chain 0 with
  | nil =>
    rw [hC] at hpath
    have hnext : l.getNext head 0 = none := hpath.next_eq
    rw [getSize, hnext]
    rfl
  | cons c cs =>
    rw [hC] at hpath hc
    have hnext : l.getNext head 0 = some c := hpath.next_eq
    have hcs : IsPath (l.next 0) (some c) (c :: cs) := by
      cases hpath with
      | cons h => exact hnext ▸ h
    simp only [getSize, hnext]
    rw [getSizeLoop_of_isPath l hcs (by simp at hc; omega), List.length_cons]
    congr 1
    omega

end Iterate

end Skiplist

end Fedb.Base
