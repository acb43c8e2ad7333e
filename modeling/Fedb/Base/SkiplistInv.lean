import Fedb.Base.SkiplistRun
import Fedb.Base.Chain
import Fedb.Lib.Path

/-! # The representation invariant of `Skiplist`

`Chain` states what the mutators of `src/base/skiplist.h` do to the chain of
level `0`; this module and `SkiplistRefine` show that the pointer model does
it. Each level of the heap is read as a successor function (`next`), and its
chain as the path of that function from the head (`Path.IsPath`).

The invariant (`Inv`) says that one list of distinct nodes, sorted by the
comparator, is the chain of level `0`, and that the chain of every level `i`
is the nodes of that list taller than `i`, in the same order (`Holds`); that
`max_height_` is at least every height; and that `tail_` is the last node,
or the head once a `Split` has cut every node off. The upper levels are thus
fixed by level `0` and the heights. This module proves:

* every loop of the mutators over the levels writes each level on its own,
  from what that level held before (`next_levelLoop` and its instances);
* a fresh list has the invariant (`new_inv`), and the invariant gives the
  nesting and the linking of the levels the iterators assume (`Inv.nested`,
  `Inv.linked`);
* `FindLessOrEqual(key)` stops, at every level below `max_height_`, at the
  last node of that level whose key `key` sorts after, or at the head, and
  its fuel suffices (`findLessOrEqual_spec`).
-/

namespace Fedb.Base

namespace Skiplist

open Path Function

variable {K V : Type} [Inhabited K] [Inhabited V]

/-- The links of `level`: `GetNext(level)` of every node. -/
def next (l : Skiplist K V) (level p : Nat) : Ptr := l.getNext p level

/-- The key of a node. -/
def key (l : Skiplist K V) (p : Nat) : K := (l.node p).key

/-- The nodes of `C` that are on `level`. -/
def onLevel (l : Skiplist K V) (level : Nat) (C : List Nat) : List Nat :=
  C.filter fun p => decide (level < (l.node p).height)

/-! ## The heap, level by level -/

theorem chainFrom_eq_walk (l : Skiplist K V) (level : Nat) :
    ∀ fuel q, l.chainFrom level fuel q = walk (l.next level) fuel q
  | 0, _ => rfl
  | _ + 1, none => rfl
  | fuel + 1, some p => by
    rw [chainFrom, walk, chainFrom_eq_walk l level fuel]
    rfl

/-- A chain is the path of its level from the head, once the path is within
the fuel of `chain`. -/
theorem chain_eq_of_isPath {l : Skiplist K V} {i : Nat} {ps : List Nat}
    (h : IsPath (l.next i) (some head) (head :: ps)) (hlen : ps.length ≤ l.nodes.length) :
    l.chain i = ps := by
  cases h with
  | cons h =>
    rw [chain, chainFrom_eq_walk]
    exact h.walk_eq hlen

theorem nexts_length_setNext (l : Skiplist K V) (p i : Nat) (q : Ptr) (r : Nat) :
    ((l.setNext p i q).node r).nexts.length = (l.node r).nexts.length := by
  rw [node_setNext]
  split <;> simp

theorem data_setNext (l : Skiplist K V) (p i : Nat) (q : Ptr) (r : Nat) :
    Node.data ((l.setNext p i q).node r) = Node.data (l.node r) := by
  rw [node_setNext]
  split <;> rfl

/-- `SetNext(i, q)` on `p` writes `q` at `p` into the links of level `i`. -/
theorem next_setNext (l : Skiplist K V) {p i : Nat} (q : Ptr) (hi : i < (l.node p).nexts.length)
    (j : Nat) : (l.setNext p i q).next j = if j = i then update (l.next i) p q else l.next j := by
  funext r
  by_cases hj : j = i
  · subst hj
    by_cases hr : r = p
    · subst hr
      simp [next, getNext, node_setNext, List.getD_eq_getElem?_getD, hi]
    · simp [next, getNext, node_setNext, Ne.symm hr, update_of_ne hr]
  · by_cases hr : p = r
    · subst hr
      simp [next, getNext, node_setNext, hj, List.getD_eq_getElem?_getD, Ne.symm hj]
    · simp [next, getNext, node_setNext, hj, hr]

/-- A loop over `m` levels from `i` on whose round at level `i` writes only
the links of level `i`, as `u i` of what they were: each level of the result
is `u` of that level at the start. `Q l j` is what the round at `j` needs of
the state it runs on, and the rounds at other levels keep it. -/
theorem next_levelLoop {f : Skiplist K V → Nat → Nat → Skiplist K V}
    {g : Skiplist K V → Nat → Skiplist K V} {u : Nat → (Nat → Ptr) → Nat → Ptr}
    {Q : Skiplist K V → Nat → Prop}
    (h0 : ∀ l i, f l i 0 = l) (hs : ∀ l i m, f l i (m + 1) = f (g l i) (i + 1) m)
    (hg : ∀ l i, Q l i → ∀ j, (g l i).next j = if j = i then u i (l.next i) else l.next j)
    (hQ : ∀ l i j, Q l i → Q l j → Q (g l i) j) :
    ∀ m l i, (∀ j, i ≤ j → j < i + m → Q l j) →
      ∀ j, (f l i m).next j = if i ≤ j ∧ j < i + m then u j (l.next j) else l.next j := by
  intro m
  induction m with
  | zero =>
    intro l i _ j
    rw [h0, if_neg (by omega)]
  | succ m ih =>
    intro l i hq j
    have hqi : Q l i := hq i (Nat.le_refl i) (by omega)
    rw [hs, ih (g l i) (i + 1) fun j' h1 h2 => hQ l i j' hqi (hq j' (by omega) (by omega)),
      hg l i hqi]
    by_cases hji : j = i
    · -- the round at `i` itself, which the later rounds leave
      subst hji
      rw [if_neg (by omega), if_pos rfl, if_pos (by omega)]
    · rw [if_neg hji]
      by_cases hr : i + 1 ≤ j ∧ j < i + 1 + m
      · rw [if_pos hr, if_pos (by omega)]
      · rw [if_neg hr, if_neg (by omega)]

/-- The predecessor a loop over levels reads from the array: `pre[i]`, the
head where the array holds `NULL`. -/
def preAt (pre : List Ptr) (i : Nat) : Nat := (pre.getD i none).getD head

theorem next_linkLevels (l : Skiplist K V) (node : Nat) (pre : List Ptr) (m i : Nat)
    (hq : ∀ j, i ≤ j → j < i + m →
      j < (l.node node).nexts.length ∧ j < (l.node (preAt pre j)).nexts.length) (j : Nat) :
    (l.linkLevels node pre i m).next j =
      if i ≤ j ∧ j < i + m then
        update (update (l.next j) node (l.next j (preAt pre j))) (preAt pre j) (some node)
      else l.next j := by
  refine next_levelLoop (f := fun l i m => l.linkLevels node pre i m)
    (g := fun l i => (l.setNext node i (l.getNext (preAt pre i) i)).setNext (preAt pre i) i (some node))
    (u := fun i nx => update (update nx node (nx (preAt pre i))) (preAt pre i) (some node))
    (Q := fun l j => j < (l.node node).nexts.length ∧ j < (l.node (preAt pre j)).nexts.length)
    (fun _ _ => rfl) (fun _ _ _ => rfl) (fun l i hqi j => ?_) (fun l i j _ hj => ?_) m l i hq j
  · have h2 : i < ((l.setNext node i (l.getNext (preAt pre i) i)).node (preAt pre i)).nexts.length := by
      rw [nexts_length_setNext]
      exact hqi.2
    simp only [next_setNext _ _ h2, next_setNext _ _ hqi.1]
    by_cases hji : j = i
    · subst hji
      simp [next]
    · simp only [if_neg hji]
  · simp only [nexts_length_setNext]
    exact hj

theorem next_unlinkLevels (l : Skiplist K V) (result : Nat) (pre : List Ptr) (m i : Nat)
    (hq : ∀ j, i ≤ j → j < i + m →
      j < (l.node (preAt pre j)).nexts.length ∧ j < (l.node result).nexts.length) (j : Nat) :
    (l.unlinkLevels result pre i m).next j =
      if i ≤ j ∧ j < i + m then
        update (update (l.next j) (preAt pre j) (l.next j result)) result none
      else l.next j := by
  refine next_levelLoop (f := fun l i m => l.unlinkLevels result pre i m)
    (g := fun l i => (l.setNext (preAt pre i) i (l.getNext result i)).setNext result i none)
    (u := fun i nx => update (update nx (preAt pre i) (nx result)) result none)
    (Q := fun l j => j < (l.node (preAt pre j)).nexts.length ∧ j < (l.node result).nexts.length)
    (fun _ _ => rfl) (fun _ _ _ => rfl) (fun l i hqi j => ?_) (fun l i j _ hj => ?_) m l i hq j
  · have h2 : i < ((l.setNext (preAt pre i) i (l.getNext result i)).node result).nexts.length := by
      rw [nexts_length_setNext]
      exact hqi.2
    simp only [next_setNext _ _ h2, next_setNext _ _ hqi.1]
    by_cases hji : j = i
    · subst hji
      simp [next]
    · simp only [if_neg hji]
  · simp only [nexts_length_setNext]
    exact hj

theorem next_cutLevels (l : Skiplist K V) (pre : List Ptr) (m i : Nat)
    (hq : ∀ j, i ≤ j → j < i + m → ∀ p, pre.getD j none = some p → j < (l.node p).nexts.length)
    (j : Nat) :
    (l.cutLevels pre i m).next j =
      if i ≤ j ∧ j < i + m then
        (match pre.getD j none with
          | none => l.next j
          | some p => update (l.next j) p none)
      else l.next j := by
  refine next_levelLoop (f := fun l i m => l.cutLevels pre i m)
    (g := fun l i => match pre.getD i none with
      | none => l
      | some p => l.setNext p i none)
    (u := fun i nx => match pre.getD i none with
      | none => nx
      | some p => update nx p none)
    (Q := fun l j => ∀ p, pre.getD j none = some p → j < (l.node p).nexts.length)
    (fun _ _ => rfl) (fun l i m => ?_) (fun l i hqi j => ?_) (fun l i j _ hj => ?_) m l i hq j
  · show l.cutLevels pre i (m + 1) = _
    cases h : pre.getD i none <;> rw [cutLevels, h]
  · cases h : pre.getD i none with
    | none =>
      show l.next j = if j = i then l.next i else l.next j
      by_cases hji : j = i
      · rw [if_pos hji, hji]
      · rw [if_neg hji]
    | some p => exact next_setNext _ _ (hqi p h) j
  · intro p hp
    cases h : pre.getD i none with
    | none => exact hj p hp
    | some q =>
      show j < ((l.setNext q i none).node p).nexts.length
      rw [nexts_length_setNext]
      exact hj p hp

theorem next_clearLevels (l : Skiplist K V) (p : Nat) (m i : Nat)
    (hq : ∀ j, i ≤ j → j < i + m → j < (l.node p).nexts.length) (j : Nat) :
    (l.clearLevels p i m).next j =
      if i ≤ j ∧ j < i + m then update (l.next j) p none else l.next j := by
  refine next_levelLoop (f := fun l i m => l.clearLevels p i m)
    (g := fun l i => l.setNext p i none) (u := fun _ nx => update nx p none)
    (Q := fun l j => j < (l.node p).nexts.length)
    (fun _ _ => rfl) (fun _ _ _ => rfl) (fun l i hqi j => ?_) (fun l i j _ hj => ?_) m l i hq j
  · exact next_setNext _ _ hqi j
  · rw [nexts_length_setNext]
    exact hj

/-! ## The invariant -/

/-- What the heap must be for `C` to be its list of nodes, the links aside:
distinct nodes of the heap besides the head, each with a pointer for every
level of its height, which is from `1` to `max_height_`. -/
structure Shape (l : Skiplist K V) (C : List Nat) : Prop where
  head_lt : head < l.nodes.length
  head_height : (l.node head).height = l.MaxHeight
  maxHeight_pos : 0 < l.maxHeight
  maxHeight_le : l.maxHeight ≤ l.MaxHeight
  nodup : (head :: C).Nodup
  lt_length : ∀ p ∈ C, p < l.nodes.length
  nexts_length : ∀ p ∈ head :: C, (l.node p).nexts.length = (l.node p).height
  height_pos : ∀ p ∈ C, 0 < (l.node p).height
  height_le : ∀ p ∈ C, (l.node p).height ≤ l.maxHeight

/-- The heap holds the list of nodes `C` as its chains: it has the shape of
`C`, and at every level `i` the path from the head goes through the nodes of
`C` on that level, in order. -/
structure Holds (l : Skiplist K V) (C : List Nat) : Prop extends l.Shape C where
  path : ∀ i < l.MaxHeight, IsPath (l.next i) (some head) (head :: l.onLevel i C)

namespace Shape

variable {l : Skiplist K V} {C : List Nat}

theorem lt_of_mem (h : l.Shape C) {p : Nat} (hp : p ∈ head :: C) : p < l.nodes.length := by
  rcases List.mem_cons.1 hp with rfl | hp
  · exact h.head_lt
  · exact h.lt_length p hp

theorem length_lt (h : l.Shape C) : C.length < l.nodes.length := by
  have hle := length_le_of_nodup h.nodup fun p hp => h.lt_of_mem hp
  simpa using hle

theorem onLevel_zero (h : l.Shape C) : l.onLevel 0 C = C :=
  List.filter_eq_self.2 fun p hp => by simpa using h.height_pos p hp

theorem maxHeight_pos' (h : l.Shape C) : 0 < l.MaxHeight :=
  Nat.lt_of_lt_of_le h.maxHeight_pos h.maxHeight_le

end Shape

namespace Holds

variable {l : Skiplist K V} {C : List Nat}

theorem chain_eq (h : l.Holds C) {i : Nat} (hi : i < l.MaxHeight) : l.chain i = l.onLevel i C :=
  chain_eq_of_isPath (h.path i hi) ((List.length_filter_le _ _).trans h.length_lt.le)

theorem chain_zero (h : l.Holds C) : l.chain 0 = C := by
  rw [h.chain_eq h.maxHeight_pos', h.onLevel_zero]

/-- The chain of a level is a path of that level from the head. -/
theorem isPath_chain (h : l.Holds C) {i : Nat} (hi : i < l.MaxHeight) :
    IsPath (l.next i) (some head) (head :: l.chain i) := by
  rw [h.chain_eq hi]
  exact h.path i hi

end Holds

/-- What a client of the list sees: the key, the value and the height of each
node of level `0`, in order. -/
def entries (l : Skiplist K V) : List (K × V × Nat) := (l.chain 0).map fun p => Node.data (l.node p)

theorem entries_of_holds {l : Skiplist K V} {C : List Nat} (h : l.Holds C) :
    l.entries = C.map fun p => Node.data (l.node p) := by
  rw [entries, h.chain_zero]

theorem sorted_iff_entries (compare : K → K → Int) (l : Skiplist K V) :
    l.Sorted compare ↔ Chain.Sorted Prod.fst compare l.entries :=
  (Chain.sorted_map compare Prod.fst (fun p => Node.data (l.node p)) (fun _ => rfl) :
    Chain.Sorted Prod.fst compare l.entries ↔ Chain.Sorted l.key compare (l.chain 0)).symm

/-- The representation invariant: the heap holds its chain of level `0`,
the chain is sorted, and `tail_` is its last node, or the head when a
`Split` has cut every node off. -/
structure Inv (compare : K → K → Int) (l : Skiplist K V) : Prop where
  holds : l.Holds (l.chain 0)
  sorted : l.Sorted compare
  tail : l.tail = (l.chain 0).getLast? ∨ (l.chain 0 = [] ∧ l.tail = some head)

section Invariant

variable {compare : K → K → Int} {l : Skiplist K V}

/-- The invariant from a list the heap holds: sorted, with `tail_` its last
node, or the head once the list is empty. -/
theorem Inv.of_holds {C : List Nat} (h : l.Holds C) (hs : Chain.Sorted Prod.fst compare l.entries)
    (ht : l.tail = C.getLast? ∨ (C = [] ∧ l.tail = some head)) : Inv compare l := by
  have hc := h.chain_zero
  refine ⟨?_, (sorted_iff_entries compare l).2 hs, ?_⟩
  · rw [hc]
    exact h
  · rw [hc]
    exact ht

/-- Every upper level is a subsequence of the level below, through nodes tall
enough for it. -/
theorem Inv.nested (hl : Inv compare l) : l.Nested := by
  intro i hi hpos
  rw [hl.holds.chain_eq hi, hl.holds.chain_eq (i := i - 1) (by omega)]
  refine ⟨?_, fun p hp => by simpa using (List.mem_filter.1 hp).2⟩
  -- level `i` is the nodes of level `i - 1` that are taller than `i`
  have hsub : l.onLevel i (l.chain 0) = (l.onLevel (i - 1) (l.chain 0)).filter
      fun p => decide (i < (l.node p).height) := by
    unfold onLevel
    rw [List.filter_filter]
    refine List.filter_congr fun p _ => ?_
    by_cases hp : i < (l.node p).height
    · have hp' : i - 1 < (l.node p).height := by omega
      simp [hp, hp']
    · simp [hp]
  rw [hsub]
  exact List.filter_sublist

/-- Every node of level `0` is on each level below its height. -/
theorem Inv.linked (hl : Inv compare l) : l.Linked := by
  intro i hi p hp hh
  rw [hl.holds.chain_eq hi]
  exact List.mem_filter.2 ⟨hp, by simpa using hh⟩

/-- A fresh list, of any `MaxHeight` from `1` on, has the invariant. -/
theorem new_inv (compare : K → K → Int) {MaxHeight : Nat} (h : 0 < MaxHeight) :
    Inv compare (new MaxHeight : Skiplist K V) := by
  have hnext : ∀ i, (new MaxHeight : Skiplist K V).next i head = none := fun i => by
    show (List.replicate MaxHeight (none : Ptr)).getD i none = none
    rw [List.getD_eq_getElem?_getD, List.getElem?_getD_replicate_default_eq]
  refine ⟨?_, by simp [Sorted], Or.inl (by simp; rfl)⟩
  rw [chain_new]
  refine ⟨⟨by simp [new, head], rfl, Nat.one_pos, h, List.nodup_singleton _,
    fun p hp => absurd hp List.not_mem_nil, fun p hp => ?_, fun p hp => absurd hp List.not_mem_nil,
    fun p hp => absurd hp List.not_mem_nil⟩, fun i _ => ?_⟩
  · rw [List.mem_singleton.1 hp]
    exact List.length_replicate
  · rw [onLevel, List.filter_nil]
    exact .cons (by rw [hnext]; exact .none)

end Invariant

/-! ## `FindLessOrEqual` -/

section Find

variable (compare : K → K → Int)

/-- Where `FindLessOrEqual(key)` stops on `level`: the last node of the chain
whose key `key` sorts after, or the head. -/
def lastBefore (l : Skiplist K V) (key : K) (level : Nat) : Nat :=
  ((l.chain level).takeWhile (Chain.isAfter l.key compare key)).getLast?.getD head

/-- One level of the loop of `FindLessOrEqual`, from `x` on a path of that
level: it walks over the nodes `key` sorts after and records where it stops. -/
theorem findLessOrEqualLoop_right {l : Skiplist K V} {key : K} {level y : Nat} :
    ∀ {zs : List Nat} {x fuel : Nat} (pre : List Ptr), IsPath (l.next level) (some x) (x :: zs) →
      (zs.takeWhile (Chain.isAfter l.key compare key)).length < fuel →
      (zs.takeWhile (Chain.isAfter l.key compare key)).getLast?.getD x = y →
      l.findLessOrEqualLoop compare key fuel x level pre =
        if level = 0 then some (y, pre.set level (some y))
        else l.findLessOrEqualLoop compare key
          (fuel - 1 - (zs.takeWhile (Chain.isAfter l.key compare key)).length) y (level - 1)
          (pre.set level (some y))
  | [], x, fuel, pre, h, hfuel, hy => by
    obtain ⟨fuel, rfl⟩ : ∃ f, fuel = f + 1 := ⟨fuel - 1, by simp at hfuel; omega⟩
    have hnext : l.getNext x level = none := h.next_eq
    simp only [List.takeWhile_nil, List.getLast?_nil, Option.getD_none] at hy
    subst hy
    simp [findLessOrEqualLoop, hnext, isAfterNode]
  | z :: zs, x, fuel, pre, h, hfuel, hy => by
    obtain ⟨fuel, rfl⟩ : ∃ f, fuel = f + 1 := ⟨fuel - 1, by omega⟩
    have hnext : l.getNext x level = some z := h.next_eq
    have hz : IsPath (l.next level) (some z) (z :: zs) := by
      cases h with
      | cons h => exact hnext ▸ h
    by_cases hA : Chain.isAfter l.key compare key z = true
    · -- `key` sorts after `z`: the walk moves on to it
      rw [List.takeWhile_cons_of_pos hA] at hfuel hy ⊢
      have hy' : (zs.takeWhile (Chain.isAfter l.key compare key)).getLast?.getD z = y := by
        rw [← hy, List.getLast?_cons, Option.getD_some]
      have hmove : l.isAfterNode compare key (l.getNext x level) = true := by
        rw [hnext]
        exact hA
      rw [findLessOrEqualLoop, if_pos hmove, hnext, Option.getD_some,
        findLessOrEqualLoop_right pre hz (by simp at hfuel; omega) hy']
      have hf : fuel + 1 - 1 - ((zs.takeWhile (Chain.isAfter l.key compare key)).length + 1) =
          fuel - 1 - (zs.takeWhile (Chain.isAfter l.key compare key)).length := by omega
      rw [List.length_cons, hf]
    · -- the walk stops at `x` on this level
      rw [List.takeWhile_cons_of_neg hA] at hy ⊢
      simp only [List.getLast?_nil, Option.getD_none] at hy
      subst hy
      have hstop : l.isAfterNode compare key (l.getNext x level) = false := by
        rw [hnext]
        show Chain.isAfter l.key compare key z = false
        simpa using hA
      simp [findLessOrEqualLoop, hstop]

theorem getD_set_ptr {pre : List Ptr} {i : Nat} (hi : i < pre.length) (v : Ptr) (j : Nat) :
    (pre.set i v).getD j none = if j = i then v else pre.getD j none := by
  rw [List.getD_eq_getElem?_getD, List.getElem?_set, List.getD_eq_getElem?_getD]
  by_cases hj : j = i
  · subst hj
    simp [hi]
  · simp [Ne.symm hj, hj]

theorem lastBefore_mem (l : Skiplist K V) (key : K) (i : Nat) :
    l.lastBefore compare key i ∈ head :: (l.chain i).takeWhile (Chain.isAfter l.key compare key) :=
  ListPrefix.getLast?_getD_mem head _

section Lawful

variable {compare} (hcmp : OrderedMap.Lawful compare) {l : Skiplist K V} (hl : Inv compare l)
include hcmp hl

/-- On a sorted chain the nodes of a level that `key` sorts after are those of
level `0` on that level. -/
theorem takeWhile_chain (key : K) {i : Nat} (hi : i < l.MaxHeight) :
    (l.chain i).takeWhile (Chain.isAfter l.key compare key) =
      l.onLevel i ((l.chain 0).takeWhile (Chain.isAfter l.key compare key)) := by
  rw [hl.holds.chain_eq hi]
  exact Chain.takeWhile_isAfter_filter l.key hcmp key _ hl.sorted

/-- The stop of a level below `MaxHeight` is the last node on that level of
the nodes of level `0` that `key` sorts after, or the head. -/
theorem lastBefore_eq (key : K) {i : Nat} (hi : i < l.MaxHeight) :
    l.lastBefore compare key i =
      (l.onLevel i ((l.chain 0).takeWhile (Chain.isAfter l.key compare key))).getLast?.getD head := by
  rw [lastBefore, takeWhile_chain hcmp hl key hi]

/-- Where the walk stops on a level, it stands on the walk of the level below. -/
theorem lastBefore_mem_below (key : K) {L : Nat} (hL : L + 1 < l.MaxHeight) :
    l.lastBefore compare key (L + 1) ∈ head :: (l.chain L).takeWhile (Chain.isAfter l.key compare key) := by
  rcases List.mem_cons.1 (lastBefore_mem compare l key (L + 1)) with h | h
  · rw [h]
    exact List.mem_cons_self
  · rw [takeWhile_chain hcmp hl key hL] at h
    rw [takeWhile_chain hcmp hl key (by omega)]
    obtain ⟨hmem, hh⟩ := List.mem_filter.1 h
    refine List.mem_cons_of_mem _ (List.mem_filter.2 ⟨hmem, ?_⟩)
    simp only [decide_eq_true_eq] at hh ⊢
    omega

/-- The loop of `FindLessOrEqual` from a node the walk can stand on at
`level`, with fuel for every level down to `0`: it records the stop of each
level and returns the stop of level `0`. -/
theorem findLessOrEqualLoop_spec (key : K) :
    ∀ level, level < l.maxHeight → ∀ {x fuel : Nat} {pre : List Ptr}, l.MaxHeight ≤ pre.length →
      x ∈ head :: (l.chain level).takeWhile (Chain.isAfter l.key compare key) →
      (level + 1) * ((l.chain 0).length + 1) ≤ fuel →
      ∃ pre', l.findLessOrEqualLoop compare key fuel x level pre =
          some (l.lastBefore compare key 0, pre') ∧ pre'.length = pre.length ∧
        ∀ j, pre'.getD j none = if j ≤ level then some (l.lastBefore compare key j) else pre.getD j none := by
  have hmax := hl.holds.maxHeight_le
  intro level
  induction level with
  | zero =>
    intro _ x fuel pre hpre hx hfuel
    obtain ⟨zs, hz, hlast, hlen⟩ :=
      (hl.holds.isPath_chain hl.holds.maxHeight_pos').exists_of_mem_takeWhile hx
    have hc := (List.takeWhile_sublist (Chain.isAfter l.key compare key) (l := l.chain 0)).length_le
    refine ⟨pre.set 0 (some (l.lastBefore compare key 0)), ?_, List.length_set, fun j => ?_⟩
    · rw [findLessOrEqualLoop_right (y := l.lastBefore compare key 0) compare pre hz (by omega) hlast,
        if_pos rfl]
    · rw [getD_set_ptr (by omega)]
      by_cases hj : j = 0
      · rw [if_pos hj, if_pos (by omega), hj]
      · rw [if_neg hj, if_neg (by omega)]
  | succ L ih =>
    intro hL x fuel pre hpre hx hfuel
    obtain ⟨zs, hz, hlast, hlen⟩ := (hl.holds.isPath_chain (by omega)).exists_of_mem_takeWhile hx
    -- the walk of a level is no longer than the chain of level `0`
    have hc : ((l.chain (L + 1)).takeWhile (Chain.isAfter l.key compare key)).length ≤
        (l.chain 0).length := by
      rw [takeWhile_chain hcmp hl key (by omega)]
      exact (List.length_filter_le _ _).trans (List.takeWhile_sublist _).length_le
    have hstep : (L + 1 + 1) * ((l.chain 0).length + 1) =
        (L + 1) * ((l.chain 0).length + 1) + ((l.chain 0).length + 1) := by ring
    obtain ⟨pre', hrun, hlen', hget⟩ := ih (by omega)
      (show l.MaxHeight ≤ (pre.set (L + 1) (some (l.lastBefore compare key (L + 1)))).length by
        rw [List.length_set]; exact hpre)
      (lastBefore_mem_below hcmp hl key (by omega))
      (show (L + 1) * ((l.chain 0).length + 1) ≤
        fuel - 1 - (zs.takeWhile (Chain.isAfter l.key compare key)).length by omega)
    refine ⟨pre', ?_, hlen'.trans List.length_set, fun j => ?_⟩
    · rw [findLessOrEqualLoop_right (y := l.lastBefore compare key (L + 1)) compare pre hz
        (by omega) hlast, if_neg (Nat.succ_ne_zero L), Nat.add_sub_cancel]
      exact hrun
    · rw [hget j, getD_set_ptr (by omega)]
      by_cases hj : j ≤ L
      · rw [if_pos hj, if_pos (by omega)]
      · by_cases hj' : j = L + 1
        · rw [if_neg hj, if_pos hj', if_pos (by omega), hj']
        · rw [if_neg hj, if_neg hj', if_neg (by omega)]

/-- `FindLessOrEqual(key, pre)`: the stop of level `0`, and the array with the
stop of every level below `max_height_`, the rest as it was. -/
theorem findLessOrEqual_spec (key : K) {pre : List Ptr} (hpre : l.MaxHeight ≤ pre.length) :
    ∃ pre', l.findLessOrEqual compare key pre = some (l.lastBefore compare key 0, pre') ∧
      pre'.length = pre.length ∧ ∀ j, pre'.getD j none =
        if j < l.maxHeight then some (l.lastBefore compare key j) else pre.getD j none := by
  have hm := hl.holds.maxHeight_pos
  -- the fuel covers every level and every node
  have hfuel : (l.maxHeight - 1 + 1) * ((l.chain 0).length + 1) ≤ l.fuel := by
    have hc := hl.holds.length_lt
    have hle := hl.holds.maxHeight_le
    calc (l.maxHeight - 1 + 1) * ((l.chain 0).length + 1)
        ≤ (l.MaxHeight + 1) * (l.nodes.length + 1) := Nat.mul_le_mul (by omega) (by omega)
      _ = l.fuel := Nat.mul_comm _ _
  obtain ⟨pre', heq, hlen, hget⟩ := findLessOrEqualLoop_spec hcmp hl key (l.maxHeight - 1) (by omega)
    hpre List.mem_cons_self hfuel
  refine ⟨pre', heq, hlen, fun j => ?_⟩
  rw [hget j]
  by_cases hj : j < l.maxHeight
  · rw [if_pos (by omega), if_pos hj]
  · rw [if_neg (by omega), if_neg hj]

end Lawful

end Find

end Skiplist

end Fedb.Base
