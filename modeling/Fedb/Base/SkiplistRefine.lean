import Fedb.Base.SkiplistLink

/-! # The pointer model of `Skiplist` refines its chain

What a client sees of a skiplist is the list of its entries (`entries`), the
key, the value and the height of every node of level `0` in order; `Chain`
states what each mutator of `src/base/skiplist.h` does to such a list. This
module shows that from any list with the representation invariant (`Inv`)
the pointer model does exactly that to its entries, returns what `Chain`
returns, and keeps the invariant. The walks never run out of fuel on such a
list, so no mutator returns `none`:

* `Insert(key, value)` with any height from `1` to `MaxHeight` links the new
  node before the first entry whose key `key` does not sort after
  (`insert_spec`), and `AddToFirst` puts it in front when it is accepted
  (`addToFirst_spec`);
* `Remove(key)` unlinks the first entry whose key `key` does not sort after
  when that key equals `key`, and returns it (`remove_spec`);
* `Split(key)` keeps the entries `key` sorts after and returns the path of
  the rest, which the segment then walks (`split_spec`); `Clear()` empties
  the list and counts its nodes (`clear_spec`);
* every run of these mutators from a list with the invariant keeps it, and
  its entries are the fold of the `Chain` operations (`run_refines`).

The splits by position are not among them: `splitByPos_unlinks_kept` shows
that they do not keep the invariant.
-/

namespace Fedb.Base

namespace Skiplist

open Path Function

variable {K V : Type} [Inhabited K] [Inhabited V]

section Mutators

variable {compare : K → K → Int}

/-! ## The link step of `Insert` and `AddToFirst` -/

/-- `linkNew` on a heap that holds `T ++ D`, with the stops at the ends of
`T` on every level of the new node: the new node goes between `T` and `D`. -/
theorem linkNew_spec {l : Skiplist K V} {T D : List Nat} (h : l.Holds (T ++ D))
    (ht : l.tail = (T ++ D).getLast? ∨ (T ++ D = [] ∧ l.tail = some head))
    {key : K} {value : V} {height : Nat} {pre : List Ptr} (hh : 0 < height)
    (hle : height ≤ l.maxHeight)
    (hpre : ∀ j < height, preAt pre j = (l.onLevel j T).getLast?.getD head)
    (hs : Chain.Sorted Prod.fst compare
      (T.map (fun p => Node.data (l.node p)) ++ (key, value, height) :: D.map fun p => Node.data (l.node p))) :
    Inv compare (l.linkNew key value height pre) ∧
      (l.linkNew key value height pre).entries =
        T.map (fun p => Node.data (l.node p)) ++ (key, value, height) :: D.map fun p => Node.data (l.node p) := by
  have hl' : (l.linkNew key value height pre).Holds (T ++ l.nodes.length :: D) := holds_linkNew h hh hle hpre
  have hent : (l.linkNew key value height pre).entries = _ := entries_linkNew h hh hle hpre
  have hpre0 : preAt pre 0 = T.getLast?.getD head := by
    rw [hpre 0 hh, (h.toShape.sublist (List.sublist_append_left T D)).onLevel_zero]
  refine ⟨Inv.of_holds hl' (by rw [hent]; exact hs) ?_, hent⟩
  rw [tail_linkNew h hpre0]
  exact tail_insert ht

/-! ## `Insert` and `AddToFirst` -/

/-- **`Insert` links the node where `Chain.insert` puts it.** With a height
from `1` to `MaxHeight`, on a list with the invariant: the walk of
`FindLessOrEqual` has fuel enough, the node goes after the entries its key
sorts after, and the invariant holds after. -/
theorem insert_spec (hcmp : OrderedMap.Lawful compare) {l : Skiplist K V} (hl : Inv compare l)
    (key : K) (value : V) {height : Nat} (hh : 0 < height) (hle : height ≤ l.MaxHeight) :
    ∃ l', l.insert compare key value height = some (l', height) ∧ Inv compare l' ∧
      l'.entries = Chain.insert Prod.fst compare (key, value, height) l.entries := by
  obtain ⟨pre, hfind, hlen, hget⟩ := findLessOrEqual_spec hcmp hl key
    (by simp : l.MaxHeight ≤ (List.replicate l.MaxHeight (none : Ptr)).length)
  rw [List.length_replicate] at hlen
  obtain ⟨T, hT⟩ : ∃ T, (l.chain 0).takeWhile (Chain.isAfter l.key compare key) = T := ⟨_, rfl⟩
  obtain ⟨D, hD⟩ : ∃ D, (l.chain 0).dropWhile (Chain.isAfter l.key compare key) = D := ⟨_, rfl⟩
  have hC : l.chain 0 = T ++ D := by rw [← hT, ← hD, List.takeWhile_append_dropWhile]
  have h : l.Holds (T ++ D) := hC ▸ hl.holds
  have ht : l.tail = (T ++ D).getLast? ∨ (T ++ D = [] ∧ l.tail = some head) := hC ▸ hl.tail
  -- below `max_height_` the predecessors are the stops, the ends of `T`
  have hstop : ∀ j < l.maxHeight, preAt pre j = (l.onLevel j T).getLast?.getD head := fun j hj => by
    rw [preAt, hget j, if_pos hj, Option.getD_some,
      lastBefore_eq hcmp hl key (Nat.lt_of_lt_of_le hj h.maxHeight_le), hT]
  -- `Chain.insert` on the entries: those of `T`, the new one, those of `D`
  have hent : Chain.insert Prod.fst compare (key, value, height) l.entries =
      T.map (fun p => Node.data (l.node p)) ++ (key, value, height) :: D.map fun p => Node.data (l.node p) := by
    rw [entries, @Chain.insert_map Nat K l.key compare (K × V × Nat) Prod.fst (fun p => Node.data (l.node p))
      (fun _ => rfl), hT, hD]
  have hs := Chain.sorted_insert Prod.fst hcmp ((sorted_iff_entries compare l).1 hl.sorted) (key, value, height)
  rw [hent] at hs
  unfold insert
  rw [hfind]
  by_cases hm : height > l.maxHeight
  · -- `max_height_` grows to the height; the levels above the old one start at the head
    have hpre : ∀ j < height, preAt (setRange pre (some head) l.maxHeight (height - l.maxHeight)) j =
        (l.onLevel j T).getLast?.getD head := by
      intro j hj
      by_cases hj' : l.maxHeight ≤ j
      · rw [preAt, getD_setRange (by omega) j, if_pos ⟨hj', by omega⟩,
          (h.toShape.sublist (List.sublist_append_left T D)).onLevel_eq_nil hj']
        rfl
      · rw [preAt, getD_setRange (by omega) j, if_neg (by omega)]
        exact hstop j (by omega)
    obtain ⟨hinv, hent'⟩ := linkNew_spec (h.raise (by omega) hle) ht hh (Nat.le_refl height) hpre hs
    refine ⟨_, ?_, hinv, hent'.trans hent.symm⟩
    simp only [Option.bind_eq_bind, Option.bind_some, if_pos hm, Option.pure_def]
  · obtain ⟨hinv, hent'⟩ := linkNew_spec h ht hh (by omega) (fun j hj => hstop j (by omega)) hs
    refine ⟨_, ?_, hinv, hent'.trans hent.symm⟩
    simp only [Option.bind_eq_bind, Option.bind_some, if_neg hm, Option.pure_def]

/-- **`AddToFirst` is `Chain.addToFirst`.** A key that sorts after the first
key is refused and nothing changes; any other goes in front. -/
theorem addToFirst_spec (hcmp : OrderedMap.Lawful compare) {l : Skiplist K V} (hl : Inv compare l)
    (key : K) (value : V) {height : Nat} (hh : 0 < height) (hle : height ≤ l.MaxHeight) :
    Inv compare (l.addToFirst compare key value height).1 ∧
      (l.addToFirst compare key value height).2 =
        (Chain.addToFirst Prod.fst compare (key, value, height) l.entries).2 ∧
      (l.addToFirst compare key value height).1.entries =
        (Chain.addToFirst Prod.fst compare (key, value, height) l.entries).1 := by
  have h : l.Holds ([] ++ l.chain 0) := hl.holds
  have ht : l.tail = ([] ++ l.chain 0).getLast? ∨ ([] ++ l.chain 0 = [] ∧ l.tail = some head) := hl.tail
  -- every predecessor is the head, the end of the empty prefix
  have hpre : ∀ j < height, preAt (List.replicate height (some head)) j = (l.onLevel j []).getLast?.getD head := by
    intro j hj
    rw [preAt, List.getD_eq_getElem?_getD, List.getElem?_replicate_of_lt hj]
    rfl
  have hlink : Chain.Sorted Prod.fst compare ((key, value, height) :: l.entries) →
      Inv compare ((if height > l.maxHeight then { l with maxHeight := height } else l).linkNew key value
        height (List.replicate height (some head))) ∧
      ((if height > l.maxHeight then { l with maxHeight := height } else l).linkNew key value
        height (List.replicate height (some head))).entries = (key, value, height) :: l.entries := by
    intro hs
    by_cases hm : height > l.maxHeight
    · rw [if_pos hm]
      exact linkNew_spec (h.raise (by omega) hle) ht hh (Nat.le_refl height) hpre hs
    · rw [if_neg hm]
      exact linkNew_spec h ht hh (by omega) hpre hs
  have hs := Chain.sorted_addToFirst Prod.fst hcmp ((sorted_iff_entries compare l).1 hl.sorted) (key, value, height)
  -- `AddToFirst` tests the first node of level `0`, `Chain.addToFirst` the first entry
  have hfirst : l.getNext head 0 = (l.chain 0).head? := (h.isPath_chain h.maxHeight_pos').next_eq
  unfold addToFirst
  rw [hfirst]
  cases hC : l.chain 0 with
  | nil =>
    have hE : l.entries = [] := by rw [entries, hC]; rfl
    rw [hE] at hs hlink ⊢
    exact ⟨(hlink hs).1, rfl, (hlink hs).2⟩
  | cons b rest =>
    have hE : l.entries = Node.data (l.node b) :: rest.map fun p => Node.data (l.node p) := by
      rw [entries, hC, List.map_cons]
    rw [hE] at hs hlink ⊢
    by_cases hb : compare key (l.node b).key > 0
    · have hb' : compare (key, value, height).1 (Node.data (l.node b)).1 > 0 := hb
      simp only [List.head?_cons, hb, decide_true, if_true]
      rw [Chain.addToFirst, if_pos hb']
      exact ⟨hl, rfl, hE⟩
    · have hb' : ¬ compare (key, value, height).1 (Node.data (l.node b)).1 > 0 := hb
      simp only [List.head?_cons, hb, decide_false, Bool.false_eq_true, if_false]
      rw [Chain.addToFirst, if_neg hb'] at hs ⊢
      exact ⟨(hlink hs).1, rfl, (hlink hs).2⟩

/-! ## `Remove` -/

/-- **`Remove` is `Chain.remove`.** The node after the stop of level `0` is
unlinked from every level of its height if its key equals `key`, and
returned; the tail moves back when it was that node. -/
theorem remove_spec (hcmp : OrderedMap.Lawful compare) {l : Skiplist K V} (hl : Inv compare l) (key : K) :
    ∃ l' r, l.remove compare key = some (l', r) ∧ Inv compare l' ∧
      l'.entries = (Chain.remove Prod.fst compare key l.entries).1 ∧
      r.map (fun p => Node.data (l.node p)) = (Chain.remove Prod.fst compare key l.entries).2 := by
  obtain ⟨pre, hfind, hlen, hget⟩ := findLessOrEqual_spec hcmp hl key
    (by simp : l.MaxHeight ≤ (List.replicate l.MaxHeight (some head : Ptr)).length)
  obtain ⟨T, hT⟩ : ∃ T, (l.chain 0).takeWhile (Chain.isAfter l.key compare key) = T := ⟨_, rfl⟩
  obtain ⟨D, hD⟩ : ∃ D, (l.chain 0).dropWhile (Chain.isAfter l.key compare key) = D := ⟨_, rfl⟩
  have hC : l.chain 0 = T ++ D := by rw [← hT, ← hD, List.takeWhile_append_dropWhile]
  have h : l.Holds (T ++ D) := hC ▸ hl.holds
  have ht : l.tail = (T ++ D).getLast? ∨ (T ++ D = [] ∧ l.tail = some head) := hC ▸ hl.tail
  have hT0 := (h.toShape.sublist (List.sublist_append_left T D)).onLevel_zero
  have hstop : ∀ j < l.maxHeight, preAt pre j = (l.onLevel j T).getLast?.getD head := fun j hj => by
    rw [preAt, hget j, if_pos hj, Option.getD_some,
      lastBefore_eq hcmp hl key (Nat.lt_of_lt_of_le hj h.maxHeight_le), hT]
  have hpre0 : pre.getD 0 none = some (T.getLast?.getD head) := by
    rw [hget 0, if_pos h.maxHeight_pos, lastBefore_eq hcmp hl key h.maxHeight_pos', hT, hT0]
  -- after the stop of level `0` comes the first node of `D`
  have hnext : l.getNext (l.lastBefore compare key 0) 0 = D.head? := by
    rw [lastBefore_eq hcmp hl key h.maxHeight_pos', hT, hT0]
    exact h.next_last
  have hrem : ((Chain.remove l.key compare key (l.chain 0)).1.map (fun p => Node.data (l.node p)),
      (Chain.remove l.key compare key (l.chain 0)).2.map (fun p => Node.data (l.node p))) =
      Chain.remove Prod.fst compare key l.entries :=
    @Chain.map_remove Nat K l.key compare (K × V × Nat) Prod.fst (fun p => Node.data (l.node p))
      (fun _ => rfl) key (l.chain 0)
  unfold remove
  rw [hfind]
  simp only [Option.bind_eq_bind, Option.bind_some]
  rw [hnext]
  cases D with
  | nil =>
    -- nothing after the stop: nothing to remove
    rw [Chain.remove_of_dropWhile_nil l.key compare hD] at hrem
    refine ⟨l, none, rfl, hl, ?_, by rw [← hrem]⟩
    rw [← hrem]
    rfl
  | cons r rest =>
    rw [Chain.remove_of_dropWhile_cons l.key compare hD, hT] at hrem
    by_cases hk : compare (l.node r).key key ≠ 0
    · -- another key: nothing is removed
      have hk' : compare (l.key r) key ≠ 0 := hk
      rw [if_pos hk'] at hrem
      refine ⟨l, none, by simp only [List.head?_cons, if_pos hk, Option.pure_def], hl, ?_, by rw [← hrem]⟩
      rw [← hrem]
      rfl
    · have hk' : ¬ compare (l.key r) key ≠ 0 := hk
      rw [if_neg hk'] at hrem
      have hr : r ∈ T ++ r :: rest := List.mem_append_right T List.mem_cons_self
      have hu := holds_unlinkLevels h fun j hj => hstop j (Nat.lt_of_lt_of_le hj (h.height_le r hr))
      have hru := relinks_unlinkLevels l r pre 0 (l.node r).height
      have ht' : l.tail = (T ++ r :: rest).getLast? :=
        ht.resolve_right fun h' => List.append_ne_nil_of_right_ne_nil T (List.cons_ne_nil r rest) h'.1
      have htail := tail_remove h.nodup ht' hpre0
      rw [← hru.tail_eq] at htail
      -- the entries after, with either tail: those of `T ++ rest`
      have hent : (l.unlinkLevels r pre 0 (l.node r).height).entries =
          (T ++ rest).map fun p => Node.data (l.node p) := by
        rw [entries_of_holds hu, hru.map_data]
      have hent' : ∀ t, ({ l.unlinkLevels r pre 0 (l.node r).height with tail := t } : Skiplist K V).entries =
          (T ++ rest).map fun p => Node.data (l.node p) := fun t => by
        rw [entries_of_holds (hu.with_tail t)]
        exact hru.map_data (T ++ rest)
      have hs : Chain.Sorted Prod.fst compare ((T ++ rest).map fun p => Node.data (l.node p)) := by
        have hs := Chain.sorted_remove Prod.fst compare ((sorted_iff_entries compare l).1 hl.sorted) key
        rw [← hrem] at hs
        exact hs
      -- the tail moves back where it was the node removed
      refine ⟨if (l.unlinkLevels r pre 0 (l.node r).height).tail = some r then
          { l.unlinkLevels r pre 0 (l.node r).height with
            tail := if pre.getD 0 none = some head then none else pre.getD 0 none }
        else l.unlinkLevels r pre 0 (l.node r).height, some r, ?_, ?_, ?_, by rw [← hrem]⟩
      · simp only [List.head?_cons, if_neg hk, Option.pure_def]
      · by_cases hc : (l.unlinkLevels r pre 0 (l.node r).height).tail = some r
        · rw [if_pos hc] at htail ⊢
          exact Inv.of_holds (hu.with_tail _) (by rw [hent']; exact hs) (Or.inl htail)
        · rw [if_neg hc] at htail ⊢
          exact Inv.of_holds hu (by rw [hent]; exact hs) (Or.inl htail)
      · rw [← hrem]
        split
        · exact hent' _
        · exact hent

/-! ## `Split` -/

/-- **`Split` is `Chain.split`.** Every level below `max_height_` is cut after
its stop, the stop of level `0` becomes the tail, and the pointer returned
walks the nodes cut off, which hold the rest of the entries. -/
theorem split_spec (hcmp : OrderedMap.Lawful compare) {l : Skiplist K V} (hl : Inv compare l) (key : K) :
    ∃ l' r, l.split compare key = some (l', r) ∧ Inv compare l' ∧
      l'.entries = (Chain.split Prod.fst compare key l.entries).1 ∧
      ∃ D, IsPath (l'.next 0) r D ∧
        D.map (fun p => Node.data (l'.node p)) = (Chain.split Prod.fst compare key l.entries).2 := by
  obtain ⟨pre, hfind, hlen, hget⟩ := findLessOrEqual_spec hcmp hl key
    (by simp : l.MaxHeight ≤ (List.replicate l.MaxHeight (none : Ptr)).length)
  obtain ⟨T, hT⟩ : ∃ T, (l.chain 0).takeWhile (Chain.isAfter l.key compare key) = T := ⟨_, rfl⟩
  obtain ⟨D, hD⟩ : ∃ D, (l.chain 0).dropWhile (Chain.isAfter l.key compare key) = D := ⟨_, rfl⟩
  have hC : l.chain 0 = T ++ D := by rw [← hT, ← hD, List.takeWhile_append_dropWhile]
  have h : l.Holds (T ++ D) := hC ▸ hl.holds
  have hpre : ∀ j, pre.getD j none =
      if j < l.maxHeight then some ((l.onLevel j T).getLast?.getD head) else none := by
    intro j
    rw [hget j]
    by_cases hj : j < l.maxHeight
    · rw [if_pos hj, if_pos hj, lastBefore_eq hcmp hl key (Nat.lt_of_lt_of_le hj h.maxHeight_le), hT]
    · rw [if_neg hj, if_neg hj, getD_replicate_none]
  have hstop0 : l.lastBefore compare key 0 = T.getLast?.getD head := by
    rw [lastBefore_eq hcmp hl key h.maxHeight_pos', hT,
      (h.toShape.sublist (List.sublist_append_left T D)).onLevel_zero]
  have hsplit : Chain.split Prod.fst compare key l.entries =
      (T.map fun p => Node.data (l.node p), D.map fun p => Node.data (l.node p)) := by
    rw [entries, ← @Chain.map_split Nat K l.key compare (K × V × Nat) Prod.fst
      (fun p => Node.data (l.node p)) (fun _ => rfl), Chain.split, hT, hD]
  -- the list with its new tail, then cut
  have h' := h.with_tail (some (l.lastBefore compare key 0))
  have hcut := holds_cutLevels h' hpre
  have hrest := isPath_cutLevels_rest h' hpre
  have hr := relinks_cutLevels ({ l with tail := some (l.lastBefore compare key 0) } : Skiplist K V)
    pre 0 l.MaxHeight
  have hent := entries_of_holds hcut
  rw [hr.map_data] at hent
  have hs := Chain.sorted_split Prod.fst compare ((sorted_iff_entries compare l).1 hl.sorted) key
  rw [hsplit] at hs
  unfold split
  rw [hfind]
  simp only [Option.bind_eq_bind, Option.bind_some, Option.pure_def]
  refine ⟨_, _, rfl, ?_, by rw [hent, hsplit]; rfl, D, ?_, ?_⟩
  · refine Inv.of_holds hcut (by rw [hent]; exact hs) ?_
    rw [hr.tail_eq]
    show some (l.lastBefore compare key 0) = _ ∨ _
    rw [hstop0]
    exact tail_split T
  · -- the pointer returned is the first node cut off
    have hres : l.next 0 (l.lastBefore compare key 0) = D.head? := by
      rw [hstop0]
      exact h.next_last
    show IsPath _ (l.next 0 (l.lastBefore compare key 0)) D
    rw [hres]
    exact hrest
  · rw [hr.map_data, hsplit]
    rfl

/-! ## `Clear` -/

/-- **`Clear` empties the list and counts its entries.** The head loses every
pointer and the walk of level `0` clears each node. -/
theorem clear_spec {l : Skiplist K V} (hl : Inv compare l) :
    ∃ l', l.clear = some (l', l.entries.length) ∧ Inv compare l' ∧ l'.entries = [] := by
  have h := hl.holds
  have hnd := List.nodup_cons.1 h.nodup
  have hnext := next_clearLevels l head (l.node head).height 0 fun j _ hj => by
    rw [h.nexts_length head List.mem_cons_self]
    omega
  have hr := relinks_clearLevels l head 0 (l.node head).height
  -- the walk starts at the first node, on the list whose head is cleared
  have hpath : IsPath (({ l.clearLevels head 0 (l.node head).height with tail := none } : Skiplist K V).next 0)
      (l.getNext head 0) (l.chain 0) := by
    cases h.isPath_chain h.maxHeight_pos' with
    | cons hp =>
      refine hp.congr fun x hx => ?_
      show (l.clearLevels head 0 (l.node head).height).next 0 x = l.next 0 x
      rw [hnext 0]
      split_ifs
      · exact update_of_ne (ne_of_mem_of_not_mem hx hnd.1) _ _
      · rfl
  obtain ⟨l', hrun, hr', hframe⟩ := clearLoop_spec (l.chain 0)
    ({ l.clearLevels head 0 (l.node head).height with tail := none } : Skiplist K V) _
    (l.clearLevels head 0 (l.node head).height).nodes.length 0 hpath hnd.2
    (by rw [hr.length_eq]; exact h.length_lt.le)
    (fun p hp => by
      show ((l.clearLevels head 0 (l.node head).height).node p).height ≤
        ((l.clearLevels head 0 (l.node head).height).node p).nexts.length
      rw [hr.height_eq, hr.nexts_length_eq, h.nexts_length p (List.mem_cons_of_mem _ hp)])
  -- no level has a node: the head's pointers stay `NULL`
  have hhead : ∀ i < l'.MaxHeight, l'.next i head = none := by
    intro i hi
    have hi' : i < l.MaxHeight := by
      rw [hr'.MaxHeight_eq] at hi
      rw [← hr.MaxHeight_eq]
      exact hi
    rw [hframe i head hnd.1]
    show (l.clearLevels head 0 (l.node head).height).next i head = none
    rw [hnext i, if_pos ⟨Nat.zero_le i, by rw [h.head_height]; omega⟩, update_self]
  have hl' : l'.Holds [] :=
    ⟨hr'.shape ((hr.shape (h.toShape.sublist (List.nil_sublist _))).with_tail none),
      fun i hi => .cons (by rw [hhead i hi]; exact .none)⟩
  have hent := entries_of_holds hl'
  refine ⟨l', ?_, Inv.of_holds hl' (by rw [hent]; exact List.Pairwise.nil) (Or.inl hr'.tail_eq), hent⟩
  rw [entries, List.length_map, ← Nat.zero_add (l.chain 0).length]
  exact hrun

end Mutators

/-! ## Runs -/

/-- What a mutator does to the entries, as `Chain` states it. -/
def Op.onEntries (compare : K → K → Int) : Op K V → List (K × V × Nat) → List (K × V × Nat)
  | .insert key value height, es => Chain.insert Prod.fst compare (key, value, height) es
  | .addToFirst key value height, es => (Chain.addToFirst Prod.fst compare (key, value, height) es).1
  | .remove key, es => (Chain.remove Prod.fst compare key es).1
  | .split key, es => (Chain.split Prod.fst compare key es).1
  | .splitByPos pos, es => (Chain.splitByPos pos es).1
  | .splitByKeyOrPos key pos, es => (Chain.splitByKeyOrPos Prod.fst compare key pos es).1
  | .splitByKeyAndPos key pos, es => (Chain.splitByKeyAndPos Prod.fst compare key pos es).1
  | .clear, _ => []

/-- The mutators that keep the invariant: the insertions with a height from
`1` to `MaxHeight`, `Remove`, `Split` and `Clear`. -/
def Op.Keeps (MaxHeight : Nat) : Op K V → Prop
  | .insert _ _ height => 0 < height ∧ height ≤ MaxHeight
  | .addToFirst _ _ height => 0 < height ∧ height ≤ MaxHeight
  | .remove _ => True
  | .split _ => True
  | .clear => True
  | .splitByPos _ => False
  | .splitByKeyOrPos _ _ => False
  | .splitByKeyAndPos _ _ => False

instance (MaxHeight : Nat) (op : Op K V) : Decidable (op.Keeps MaxHeight) := by
  cases op <;> unfold Op.Keeps <;> infer_instance

section Run

variable {compare : K → K → Int} (hcmp : OrderedMap.Lawful compare)
include hcmp

/-- One mutator that keeps the invariant does to the entries what `Chain` says. -/
theorem step_refines {l : Skiplist K V} (hl : Inv compare l) :
    ∀ op : Op K V, op.Keeps l.MaxHeight →
      ∃ l', l.step compare op = some l' ∧ Inv compare l' ∧ l'.entries = op.onEntries compare l.entries
  | .insert key value height, ⟨hh, hle⟩ => by
    obtain ⟨l', hrun, hinv, hent⟩ := insert_spec hcmp hl key value hh hle
    exact ⟨l', by rw [step, hrun]; rfl, hinv, hent⟩
  | .addToFirst key value height, ⟨hh, hle⟩ => by
    obtain ⟨hinv, -, hent⟩ := addToFirst_spec hcmp hl key value hh hle
    exact ⟨_, rfl, hinv, hent⟩
  | .remove key, _ => by
    obtain ⟨l', r, hrun, hinv, hent, -⟩ := remove_spec hcmp hl key
    exact ⟨l', by rw [step, hrun]; rfl, hinv, hent⟩
  | .split key, _ => by
    obtain ⟨l', r, hrun, hinv, hent, -⟩ := split_spec hcmp hl key
    exact ⟨l', by rw [step, hrun]; rfl, hinv, hent⟩
  | .clear, _ => by
    obtain ⟨l', hrun, hinv, hent⟩ := clear_spec hl
    exact ⟨l', by rw [step, hrun]; rfl, hinv, hent⟩
  | .splitByPos _, h => h.elim
  | .splitByKeyOrPos _ _, h => h.elim
  | .splitByKeyAndPos _ _, h => h.elim

/-- **The pointer model refines the chain.** From a list with the invariant,
every run of mutators that keep it succeeds, keeps the invariant, and leaves
the entries that the `Chain` operations compute, one after the other. -/
theorem run_refines :
    ∀ (ops : List (Op K V)) {l : Skiplist K V}, Inv compare l → (∀ op ∈ ops, op.Keeps l.MaxHeight) →
      ∃ l', l.run compare ops = some l' ∧ Inv compare l' ∧
        l'.entries = ops.foldl (fun es op => op.onEntries compare es) l.entries
  | [], l, hl, _ => ⟨l, rfl, hl, rfl⟩
  | op :: ops, l, hl, hops => by
    obtain ⟨l₁, h₁, hl₁, he₁⟩ := step_refines hcmp hl op (hops op List.mem_cons_self)
    -- a step keeps `MaxHeight`, so the rest of the run still keeps the invariant
    have hM : l₁.MaxHeight = l.MaxHeight := (step_extends compare op h₁).maxHeight_eq
    obtain ⟨l', h₂, hl', he'⟩ := run_refines ops hl₁ fun op' hop' => by
      rw [hM]
      exact hops op' (List.mem_cons_of_mem _ hop')
    refine ⟨l', ?_, hl', ?_⟩
    · rw [run, h₁, Option.bind_some]
      exact h₂
    · rw [he', he₁]
      rfl

end Run

/-- `DefaultComparator` on the numbers the keys stand for. -/
theorem defaultComparator_eq (a b : UInt64) :
    defaultComparator a b = if b.toNat < a.toNat then -1 else if a.toNat = b.toNat then 0 else 1 := by
  simp only [defaultComparator, gt_iff_lt, UInt64.lt_iff_toNat_lt, ← UInt64.toNat_inj]

/-- `DefaultComparator` is a strict order that is `0` on equal keys only. -/
theorem defaultComparator_lawful : OrderedMap.Lawful defaultComparator := by
  refine ⟨fun a b => ?_, fun a b c => ?_, fun a b => ?_⟩
  · rw [defaultComparator_eq, ← UInt64.toNat_inj]
    by_cases h1 : b.toNat < a.toNat
    · rw [if_pos h1]
      exact ⟨fun h => absurd h (by decide), fun h => by omega⟩
    · rw [if_neg h1]
      by_cases h2 : a.toNat = b.toNat
      · rw [if_pos h2]
        exact ⟨fun _ => h2, fun _ => rfl⟩
      · rw [if_neg h2]
        exact ⟨fun h => absurd h (by decide), fun h => absurd h h2⟩
  · rw [defaultComparator_eq, defaultComparator_eq, defaultComparator_eq]
    split_ifs <;> omega
  · rw [defaultComparator_eq, defaultComparator_eq]
    split_ifs <;> omega

/-- Two insertions of one key, a removal, a split and a further insertion on a
fresh list of two levels, under `DefaultComparator`. -/
theorem run_refines_default :
    (∀ op ∈ ([.insert 5 () 1, .insert 9 () 2, .addToFirst 9 () 1, .insert 5 () 2, .remove 5, .split 3,
        .insert 7 () 2] : List (Op UInt64 Unit)), op.Keeps 2) ∧
      ∃ l', (new 2 : Skiplist UInt64 Unit).run defaultComparator
          [.insert 5 () 1, .insert 9 () 2, .addToFirst 9 () 1, .insert 5 () 2, .remove 5, .split 3,
            .insert 7 () 2] = some l' ∧
        Inv defaultComparator l' ∧
        l'.entries = ([.insert 5 () 1, .insert 9 () 2, .addToFirst 9 () 1, .insert 5 () 2, .remove 5, .split 3,
            .insert 7 () 2] : List (Op UInt64 Unit)).foldl (fun es op => op.onEntries defaultComparator es)
          (new 2 : Skiplist UInt64 Unit).entries :=
  ⟨by decide, run_refines defaultComparator_lawful _ (new_inv defaultComparator (by decide)) (by decide)⟩

end Skiplist

end Fedb.Base
