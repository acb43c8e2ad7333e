import Fedb.Base.SkiplistInv

/-! # The mutators of `Skiplist`, level by level

On every level it touches, each mutator of `src/base/skiplist.h` is one piece
of list surgery on the path of that level (`Path.IsPath`), at the node where
`FindLessOrEqual` stops there. Here the heap holds a list of nodes `T ++ D`
(`Holds`), `T` being the nodes the walk passes, and the stop of each level is
the last node of `T` on it, or the head. This module proves:

* the loops of the mutators only rewrite next pointers (`Relinks`), so the
  shape of the heap carries over (`Relinks.shape`);
* `NewNode` and the linking loop of `Insert` and `AddToFirst` make the heap
  hold `T ++ n :: D` for the new node `n` (`holds_linkNew`), and the new node
  becomes the tail exactly when `D` is empty (`tail_linkNew`);
* the unlinking loop of `Remove` takes a heap that holds `T ++ r :: rest` to
  one that holds `T ++ rest` (`holds_unlinkLevels`);
* the cutting loop of `Split` makes it hold `T` (`holds_cutLevels`), and the
  nodes of `D` stay linked on level `0` from the first of them on
  (`isPath_cutLevels_rest`);
* the walk of `Clear` clears and counts every node of the chain it walks, and
  leaves the other nodes as they are (`clearLoop_spec`).
-/

namespace Fedb.Base

namespace Skiplist

open Path Function

variable {K V : Type} [Inhabited K] [Inhabited V]

/-! ## Rewriting next pointers -/

/-- `l'` is `l` with some next pointers rewritten: the same members besides
the heap, the same nodes, each with its data and its number of pointers. -/
structure Relinks (l l' : Skiplist K V) : Prop where
  MaxHeight_eq : l'.MaxHeight = l.MaxHeight
  maxHeight_eq : l'.maxHeight = l.maxHeight
  tail_eq : l'.tail = l.tail
  length_eq : l'.nodes.length = l.nodes.length
  data_eq : ∀ p, Node.data (l'.node p) = Node.data (l.node p)
  nexts_length_eq : ∀ p, (l'.node p).nexts.length = (l.node p).nexts.length

namespace Relinks

variable {l l₁ l₂ : Skiplist K V}

theorem refl (l : Skiplist K V) : Relinks l l := ⟨rfl, rfl, rfl, rfl, fun _ => rfl, fun _ => rfl⟩

theorem trans (h₁ : Relinks l l₁) (h₂ : Relinks l₁ l₂) : Relinks l l₂ :=
  ⟨h₂.MaxHeight_eq.trans h₁.MaxHeight_eq, h₂.maxHeight_eq.trans h₁.maxHeight_eq,
    h₂.tail_eq.trans h₁.tail_eq, h₂.length_eq.trans h₁.length_eq,
    fun p => (h₂.data_eq p).trans (h₁.data_eq p),
    fun p => (h₂.nexts_length_eq p).trans (h₁.nexts_length_eq p)⟩

theorem height_eq (h : Relinks l l₁) (p : Nat) : (l₁.node p).height = (l.node p).height :=
  congrArg (fun d => d.2.2) (h.data_eq p)

theorem onLevel_eq (h : Relinks l l₁) (i : Nat) (C : List Nat) : l₁.onLevel i C = l.onLevel i C :=
  List.filter_congr fun p _ => by rw [h.height_eq p]

theorem map_data (h : Relinks l l₁) (C : List Nat) :
    C.map (fun p => Node.data (l₁.node p)) = C.map fun p => Node.data (l.node p) :=
  List.map_congr_left fun p _ => h.data_eq p

/-- A rewrite of next pointers keeps the shape of the heap. -/
theorem shape (h : Relinks l l₁) {C : List Nat} (hs : l.Shape C) : l₁.Shape C where
  head_lt := by rw [h.length_eq]; exact hs.head_lt
  head_height := by rw [h.height_eq, h.MaxHeight_eq]; exact hs.head_height
  maxHeight_pos := by rw [h.maxHeight_eq]; exact hs.maxHeight_pos
  maxHeight_le := by rw [h.maxHeight_eq, h.MaxHeight_eq]; exact hs.maxHeight_le
  nodup := hs.nodup
  lt_length p hp := by rw [h.length_eq]; exact hs.lt_length p hp
  nexts_length p hp := by rw [h.nexts_length_eq, h.height_eq]; exact hs.nexts_length p hp
  height_pos p hp := by rw [h.height_eq]; exact hs.height_pos p hp
  height_le p hp := by rw [h.height_eq, h.maxHeight_eq]; exact hs.height_le p hp

end Relinks

theorem relinks_setNext (l : Skiplist K V) (p i : Nat) (q : Ptr) : Relinks l (l.setNext p i q) :=
  ⟨rfl, rfl, rfl, nodes_length_setNext l p i q, data_setNext l p i q, nexts_length_setNext l p i q⟩

/-- A loop of `SetNext` calls only rewrites next pointers. -/
theorem relinks_of_setNext_loop {f : Skiplist K V → Nat → Nat → Skiplist K V}
    (h0 : ∀ l i, f l i 0 = l)
    (hs : ∀ l i n, ∃ l₁, Relinks l l₁ ∧ f l i (n + 1) = f l₁ (i + 1) n) :
    ∀ n l i, Relinks l (f l i n) := by
  intro n
  induction n with
  | zero => intro l i; rw [h0]; exact Relinks.refl l
  | succ n ih =>
    intro l i
    obtain ⟨l₁, hl₁, heq⟩ := hs l i n
    rw [heq]
    exact hl₁.trans (ih l₁ (i + 1))

theorem relinks_linkLevels (l : Skiplist K V) (node : Nat) (pre : List Ptr) (i n : Nat) :
    Relinks l (l.linkLevels node pre i n) :=
  relinks_of_setNext_loop (f := fun l i n => l.linkLevels node pre i n) (fun _ _ => rfl)
    (fun _ _ _ => ⟨_, (relinks_setNext _ _ _ _).trans (relinks_setNext _ _ _ _), rfl⟩) n l i

theorem relinks_unlinkLevels (l : Skiplist K V) (result : Nat) (pre : List Ptr) (i n : Nat) :
    Relinks l (l.unlinkLevels result pre i n) :=
  relinks_of_setNext_loop (f := fun l i n => l.unlinkLevels result pre i n) (fun _ _ => rfl)
    (fun _ _ _ => ⟨_, (relinks_setNext _ _ _ _).trans (relinks_setNext _ _ _ _), rfl⟩) n l i

theorem relinks_cutLevels (l : Skiplist K V) (pre : List Ptr) (i n : Nat) :
    Relinks l (l.cutLevels pre i n) := by
  refine relinks_of_setNext_loop (f := fun l i n => l.cutLevels pre i n) (fun _ _ => rfl)
    (fun l i n => ?_) n l i
  cases h : pre.getD i none with
  | none => exact ⟨l, Relinks.refl l, by rw [cutLevels, h]⟩
  | some p => exact ⟨_, relinks_setNext l p i none, by rw [cutLevels, h]⟩

theorem relinks_clearLevels (l : Skiplist K V) (p i n : Nat) :
    Relinks l (l.clearLevels p i n) :=
  relinks_of_setNext_loop (f := fun l i n => l.clearLevels p i n) (fun _ _ => rfl)
    (fun l i _ => ⟨_, relinks_setNext l p i none, rfl⟩) n l i

/-! ## A level around the stop -/

theorem onLevel_append (l : Skiplist K V) (i : Nat) (xs ys : List Nat) :
    l.onLevel i (xs ++ ys) = l.onLevel i xs ++ l.onLevel i ys :=
  List.filter_append xs ys

/-- A node between two lists is on a level exactly when it is tall enough. -/
theorem onLevel_middle (l : Skiplist K V) (i : Nat) (xs ys : List Nat) (x : Nat) :
    l.onLevel i (xs ++ x :: ys) =
      if i < (l.node x).height then l.onLevel i xs ++ x :: l.onLevel i ys
      else l.onLevel i (xs ++ ys) := by
  unfold onLevel
  rw [List.filter_append, List.filter_append]
  by_cases hx : i < (l.node x).height
  · rw [if_pos hx, List.filter_cons_of_pos (by simpa using hx)]
  · rw [if_neg hx, List.filter_cons_of_neg (by simpa using hx)]

/-- The level from the head: the nodes up to the last node of `T` on it (or
the head), that node, and the nodes of `D` on it. -/
theorem onLevel_around (l : Skiplist K V) (T D : List Nat) (i : Nat) :
    ∃ ys, ys ++ [(l.onLevel i T).getLast?.getD head] = head :: l.onLevel i T ∧
      head :: l.onLevel i (T ++ D) = ys ++ (l.onLevel i T).getLast?.getD head :: l.onLevel i D := by
  obtain ⟨ys, hys⟩ : ∃ ys, ys ++ [(l.onLevel i T).getLast?.getD head] = head :: l.onLevel i T :=
    ⟨_, List.dropLast_append_getLast? _ (Option.mem_def.2 List.getLast?_cons)⟩
  refine ⟨ys, hys, ?_⟩
  rw [onLevel_append, ← List.cons_append, ← hys, List.append_assoc, List.singleton_append]

namespace Shape

variable {l : Skiplist K V} {C : List Nat}

theorem nodup_onLevel (h : l.Shape C) (i : Nat) : (head :: l.onLevel i C).Nodup :=
  h.nodup.sublist (List.filter_sublist.cons_cons head)

theorem lt_of_mem_onLevel (h : l.Shape C) {i p : Nat} (hp : p ∈ head :: l.onLevel i C) :
    p < l.nodes.length :=
  h.lt_of_mem ((List.filter_sublist.cons_cons head).subset hp)

theorem sublist (h : l.Shape C) {C' : List Nat} (hs : C'.Sublist C) : l.Shape C' where
  head_lt := h.head_lt
  head_height := h.head_height
  maxHeight_pos := h.maxHeight_pos
  maxHeight_le := h.maxHeight_le
  nodup := h.nodup.sublist (hs.cons_cons head)
  lt_length p hp := h.lt_length p (hs.subset hp)
  nexts_length p hp := h.nexts_length p ((hs.cons_cons head).subset hp)
  height_pos p hp := h.height_pos p (hs.subset hp)
  height_le p hp := h.height_le p (hs.subset hp)

/-- The tail is no part of the shape of the heap. -/
theorem with_tail (h : l.Shape C) (t : Ptr) : ({ l with tail := t } : Skiplist K V).Shape C :=
  ⟨h.head_lt, h.head_height, h.maxHeight_pos, h.maxHeight_le, h.nodup, h.lt_length, h.nexts_length,
    h.height_pos, h.height_le⟩

/-- The head and every node of a level below `max_height_` have a pointer
at that level. -/
theorem lt_nexts_length (h : l.Shape C) {i p : Nat} (hi : i < l.maxHeight)
    (hp : p ∈ head :: l.onLevel i C) : i < (l.node p).nexts.length := by
  rcases List.mem_cons.1 hp with rfl | hp
  · rw [h.nexts_length head List.mem_cons_self, h.head_height]
    exact Nat.lt_of_lt_of_le hi h.maxHeight_le
  · obtain ⟨hC, hh⟩ := List.mem_filter.1 hp
    rw [h.nexts_length p (List.mem_cons_of_mem _ hC)]
    simpa using hh

/-- No node is on a level at or above `max_height_`. -/
theorem onLevel_eq_nil (h : l.Shape C) {i : Nat} (hi : l.maxHeight ≤ i) : l.onLevel i C = [] :=
  List.filter_eq_nil_iff.2 fun p hp => by
    have := h.height_le p hp
    simp only [decide_eq_true_eq]
    omega

end Shape

namespace Holds

variable {l : Skiplist K V} {T D : List Nat}

/-- Raising `max_height_`, up to `MaxHeight`, keeps what the heap holds. -/
theorem raise {C : List Nat} (h : l.Holds C) {m : Nat} (hm : l.maxHeight ≤ m) (hM : m ≤ l.MaxHeight) :
    ({ l with maxHeight := m } : Skiplist K V).Holds C :=
  ⟨⟨h.head_lt, h.head_height, Nat.lt_of_lt_of_le h.maxHeight_pos hm, hM, h.nodup, h.lt_length,
    h.nexts_length, h.height_pos, fun p hp => (h.height_le p hp).trans hm⟩, h.path⟩

/-- The tail is no part of what the heap holds. -/
theorem with_tail {C : List Nat} (h : l.Holds C) (t : Ptr) : ({ l with tail := t } : Skiplist K V).Holds C :=
  ⟨h.toShape.with_tail t, h.path⟩

/-- On level `0` the last node of `T`, or the head, is followed by the first
node of `D`. -/
theorem next_last (h : l.Holds (T ++ D)) : l.next 0 (T.getLast?.getD head) = D.head? := by
  obtain ⟨ys, -, heq⟩ := l.onLevel_around T D 0
  have hpath := h.path 0 h.maxHeight_pos'
  rw [heq, (h.toShape.sublist (List.sublist_append_left T D)).onLevel_zero,
    (h.toShape.sublist (List.sublist_append_right T D)).onLevel_zero] at hpath
  exact hpath.of_append.next_eq

end Holds

/-- `pre[i] = q` for `n` entries from `lo` on, the rest as it was. -/
theorem getD_setRange {q : Ptr} :
    ∀ {pre : List Ptr} {lo n : Nat}, lo + n ≤ pre.length → ∀ j,
      (setRange pre q lo n).getD j none = if lo ≤ j ∧ j < lo + n then q else pre.getD j none
  | pre, lo, 0, _, j => by rw [setRange, if_neg (by omega)]
  | pre, lo, n + 1, hlen, j => by
    rw [setRange, getD_setRange (by rw [List.length_set]; omega) j, getD_set_ptr (by omega)]
    by_cases hj : j = lo
    · rw [if_neg (by omega), if_pos hj, if_pos (by omega)]
    · rw [if_neg hj]
      by_cases hr : lo + 1 ≤ j ∧ j < lo + 1 + n
      · rw [if_pos hr, if_pos (by omega)]
      · rw [if_neg hr, if_neg (by omega)]

/-! ## `NewNode` and the linking loop -/

/-- The heap after `NewNode` allocates `nd` at its end, with the tail `t`. -/
def withNode (l : Skiplist K V) (nd : Node K V) (t : Ptr) : Skiplist K V :=
  { l with nodes := l.nodes ++ [nd], tail := t }

section WithNode

variable (l : Skiplist K V) (nd : Node K V) (t : Ptr)

theorem node_withNode_of_lt {p : Nat} (hp : p < l.nodes.length) : (l.withNode nd t).node p = l.node p :=
  List.getD_append _ _ _ _ hp

theorem node_withNode_self : (l.withNode nd t).node l.nodes.length = nd := by
  simp [withNode, node]

/-- `NewNode` adds a node whose pointers are all `NULL`: no link changes. -/
theorem next_withNode (hnd : ∀ j, nd.nexts.getD j none = none) : (l.withNode nd t).next = l.next := by
  funext j p
  unfold next getNext
  by_cases hp : p < l.nodes.length
  · rw [node_withNode_of_lt l nd t hp]
  · -- the new node, or past the heap: no pointer on either side
    have hold : l.node p = default := List.getD_eq_default _ _ (by omega)
    rw [hold]
    by_cases hpe : p = l.nodes.length
    · rw [hpe, node_withNode_self, hnd]
      rfl
    · have hnew : (l.withNode nd t).node p = default := by
        apply List.getD_eq_default
        simp only [withNode, List.length_append, List.length_singleton]
        omega
      rw [hnew]

theorem onLevel_withNode {C : List Nat} (hC : ∀ p ∈ C, p < l.nodes.length) (i : Nat) :
    (l.withNode nd t).onLevel i C = l.onLevel i C :=
  List.filter_congr fun p hp => by rw [node_withNode_of_lt l nd t (hC p hp)]

end WithNode

theorem getD_replicate_none (height j : Nat) : (List.replicate height (none : Ptr)).getD j none = none := by
  rw [List.getD_eq_getElem?_getD, List.getElem?_getD_replicate_default_eq]

/-- A new node of a height from `1` to `max_height_`, added between `T` and `D`. -/
theorem Shape.withNode {l : Skiplist K V} {T D : List Nat} (h : l.Shape (T ++ D)) {key : K}
    {value : V} {height : Nat} (hh : 0 < height) (hle : height ≤ l.maxHeight) (t : Ptr) :
    (l.withNode ⟨key, value, height, List.replicate height none⟩ t).Shape (T ++ l.nodes.length :: D) := by
  -- every node but the new one is an old one, which keeps its node
  have hcases : ∀ p ∈ T ++ l.nodes.length :: D, p = l.nodes.length ∨ p ∈ T ++ D := by
    intro p hp
    simp only [List.mem_append, List.mem_cons] at hp ⊢
    tauto
  have hold : ∀ p ∈ head :: (T ++ D),
      (l.withNode ⟨key, value, height, List.replicate height none⟩ t).node p = l.node p :=
    fun p hp => node_withNode_of_lt l _ t (h.lt_of_mem hp)
  have hlen : (l.withNode ⟨key, value, height, List.replicate height none⟩ t).nodes.length =
      l.nodes.length + 1 := by simp [Skiplist.withNode]
  refine ⟨?_, ?_, h.maxHeight_pos, h.maxHeight_le, ?_, fun p hp => ?_, fun p hp => ?_,
    fun p hp => ?_, fun p hp => ?_⟩
  · rw [hlen]
    exact Nat.lt_succ_of_lt h.head_lt
  · rw [hold head List.mem_cons_self]
    exact h.head_height
  · rw [← List.cons_append, List.nodup_middle, List.cons_append]
    exact List.nodup_cons.2 ⟨fun hm => Nat.lt_irrefl _ (h.lt_of_mem hm), h.nodup⟩
  · rw [hlen]
    rcases hcases p hp with rfl | hp
    · exact Nat.lt_succ_self _
    · exact Nat.lt_succ_of_lt (h.lt_length p hp)
  · rcases List.mem_cons.1 hp with rfl | hp
    · rw [hold head List.mem_cons_self]
      exact h.nexts_length head List.mem_cons_self
    rcases hcases p hp with rfl | hp
    · rw [node_withNode_self]
      exact List.length_replicate
    · rw [hold p (List.mem_cons_of_mem _ hp)]
      exact h.nexts_length p (List.mem_cons_of_mem _ hp)
  · rcases hcases p hp with rfl | hp
    · rw [node_withNode_self]
      exact hh
    · rw [hold p (List.mem_cons_of_mem _ hp)]
      exact h.height_pos p hp
  · rcases hcases p hp with rfl | hp
    · rw [node_withNode_self]
      exact hle
    · rw [hold p (List.mem_cons_of_mem _ hp)]
      exact h.height_le p hp

/-- `linkNew` is the linking loop on the heap `NewNode` makes, whose tail is
the new node when the predecessor at level `0` has no successor. -/
theorem linkNew_eq (l : Skiplist K V) (key : K) (value : V) (height : Nat) (pre : List Ptr) :
    l.linkNew key value height pre =
      (l.withNode ⟨key, value, height, List.replicate height none⟩
        (if l.next 0 (preAt pre 0) = none then some l.nodes.length else l.tail)).linkLevels
        l.nodes.length pre 0 height := by
  have hc : (l.withNode ⟨key, value, height, List.replicate height none⟩ l.tail).getNext
      ((pre.getD 0 none).getD head) 0 = l.next 0 (preAt pre 0) :=
    congrFun (congrFun (next_withNode l _ l.tail (getD_replicate_none height)) 0) _
  show (if (l.withNode ⟨key, value, height, List.replicate height none⟩ l.tail).getNext
      ((pre.getD 0 none).getD head) 0 = none then
      { l.withNode ⟨key, value, height, List.replicate height none⟩ l.tail with
        tail := some l.nodes.length }
    else l.withNode ⟨key, value, height, List.replicate height none⟩ l.tail).linkLevels
      l.nodes.length pre 0 height = _
  rw [hc]
  by_cases h : l.next 0 (preAt pre 0) = none
  · simp only [if_pos h]
    rfl
  · simp only [if_neg h]

section LinkNew

variable {l : Skiplist K V} {T D : List Nat} {key : K} {value : V} {height : Nat} {pre : List Ptr}

/-- The new node and every predecessor the loop reads have a pointer at each
level of the new node. -/
theorem linkLevels_bounds (h : l.Shape (T ++ D)) (hle : height ≤ l.maxHeight)
    (t : Ptr) (hpre : ∀ j < height, preAt pre j = (l.onLevel j T).getLast?.getD head) :
    ∀ j, 0 ≤ j → j < 0 + height →
      j < ((l.withNode ⟨key, value, height, List.replicate height none⟩ t).node
        l.nodes.length).nexts.length ∧
      j < ((l.withNode ⟨key, value, height, List.replicate height none⟩ t).node
        (preAt pre j)).nexts.length := by
  intro j _ hj
  have hT := h.sublist (List.sublist_append_left T D)
  have hP := ListPrefix.getLast?_getD_mem head (l.onLevel j T)
  refine ⟨?_, ?_⟩
  · rw [node_withNode_self, List.length_replicate]
    omega
  · rw [hpre j (by omega), node_withNode_of_lt l _ t (hT.lt_of_mem_onLevel hP)]
    exact hT.lt_nexts_length (by omega) hP

/-- **The linking loop inserts the new node.** On every level below its
height the new node goes after the stop, the last node of `T` on that level;
the levels above it are not touched. -/
theorem holds_linkNew (h : l.Holds (T ++ D)) (hh : 0 < height) (hle : height ≤ l.maxHeight)
    (hpre : ∀ j < height, preAt pre j = (l.onLevel j T).getLast?.getD head) :
    (l.linkNew key value height pre).Holds (T ++ l.nodes.length :: D) := by
  rw [linkNew_eq]
  generalize (if l.next 0 (preAt pre 0) = none then some l.nodes.length else l.tail) = t
  have hr := relinks_linkLevels (l.withNode ⟨key, value, height, List.replicate height none⟩ t)
    l.nodes.length pre 0 height
  have hT : ∀ p ∈ T, p < l.nodes.length := fun p hp => h.lt_length p (List.mem_append_left D hp)
  have hD : ∀ p ∈ D, p < l.nodes.length := fun p hp => h.lt_length p (List.mem_append_right T hp)
  refine ⟨hr.shape (h.toShape.withNode hh hle t), fun i hi => ?_⟩
  have hi' : i < l.MaxHeight := by
    rw [hr.MaxHeight_eq] at hi
    exact hi
  rw [hr.onLevel_eq, next_linkLevels _ _ _ _ _ (linkLevels_bounds h.toShape hle t hpre),
    next_withNode l _ t (getD_replicate_none height), onLevel_middle, node_withNode_self]
  by_cases hih : i < height
  · -- a level of the new node: it is linked in after the stop
    rw [if_pos ⟨Nat.zero_le i, by omega⟩, if_pos hih, onLevel_withNode l _ t hT,
      onLevel_withNode l _ t hD, hpre i hih]
    obtain ⟨ys, hys, heq⟩ := l.onLevel_around T D i
    have hpath := h.path i hi'
    have hnd := h.nodup_onLevel i
    rw [heq] at hpath hnd
    have hn : l.nodes.length ∉ ys ++ (l.onLevel i T).getLast?.getD head :: l.onLevel i D := by
      intro hm
      rw [← heq] at hm
      exact Nat.lt_irrefl _ (h.lt_of_mem_onLevel hm)
    rw [← List.cons_append, ← hys, List.append_assoc, List.singleton_append]
    exact hpath.insertAfter hnd hn
  · -- a level above the new node: as it was
    rw [if_neg (by omega), if_neg hih,
      onLevel_withNode l _ t fun p hp => h.lt_length p hp]
    exact h.path i hi'

/-- The new node becomes the tail exactly when nothing follows it. -/
theorem tail_linkNew (h : l.Holds (T ++ D)) (hpre0 : preAt pre 0 = T.getLast?.getD head) :
    (l.linkNew key value height pre).tail = if D = [] then some l.nodes.length else l.tail := by
  rw [linkNew_eq, (relinks_linkLevels _ _ _ _ _).tail_eq]
  show (if l.next 0 (preAt pre 0) = none then some l.nodes.length else l.tail) = _
  rw [hpre0, h.next_last]
  cases D with
  | nil => rfl
  | cons d D => rfl

theorem data_linkNew_self (l : Skiplist K V) (key : K) (value : V) (height : Nat) (pre : List Ptr) :
    Node.data ((l.linkNew key value height pre).node l.nodes.length) = (key, value, height) := by
  rw [linkNew_eq, (relinks_linkLevels _ _ _ _ _).data_eq, node_withNode_self]
  rfl

/-- The entries after `linkNew`: those of `T`, the new one, those of `D`. -/
theorem entries_linkNew (h : l.Holds (T ++ D)) (hh : 0 < height) (hle : height ≤ l.maxHeight)
    (hpre : ∀ j < height, preAt pre j = (l.onLevel j T).getLast?.getD head) :
    (l.linkNew key value height pre).entries =
      T.map (fun p => Node.data (l.node p)) ++ (key, value, height) :: D.map fun p => Node.data (l.node p) := by
  have hold : ∀ p ∈ T ++ D, Node.data ((l.linkNew key value height pre).node p) = Node.data (l.node p) :=
    fun p hp => (extends_linkNew l key value height pre).data_eq p (h.lt_length p hp)
  rw [entries_of_holds (holds_linkNew h hh hle hpre), List.map_append, List.map_cons, data_linkNew_self,
    List.map_congr_left fun p hp => hold p (List.mem_append_left D hp),
    List.map_congr_left fun p hp => hold p (List.mem_append_right T hp)]

end LinkNew

/-! ## The unlinking loop of `Remove` -/

section Unlink

variable {l : Skiplist K V} {T rest : List Nat} {r : Nat} {pre : List Ptr}

/-- **The unlinking loop removes the node.** On every level below its height
the node after the stop, which is `r`, is unlinked; the levels above it are
not touched. -/
theorem holds_unlinkLevels (h : l.Holds (T ++ r :: rest))
    (hpre : ∀ j < (l.node r).height, preAt pre j = (l.onLevel j T).getLast?.getD head) :
    (l.unlinkLevels r pre 0 (l.node r).height).Holds (T ++ rest) := by
  have hT := h.toShape.sublist (List.sublist_append_left T (r :: rest))
  have hrmem : r ∈ T ++ r :: rest := List.mem_append_right T List.mem_cons_self
  have hq : ∀ j, 0 ≤ j → j < 0 + (l.node r).height →
      j < (l.node (preAt pre j)).nexts.length ∧ j < (l.node r).nexts.length := by
    intro j _ hj
    have hP := ListPrefix.getLast?_getD_mem head (l.onLevel j T)
    refine ⟨?_, ?_⟩
    · rw [hpre j (by omega)]
      exact hT.lt_nexts_length (Nat.lt_of_lt_of_le (by omega) (h.height_le r hrmem)) hP
    · rw [h.nexts_length r (List.mem_cons_of_mem _ hrmem)]
      omega
  have hr := relinks_unlinkLevels l r pre 0 (l.node r).height
  refine ⟨hr.shape (h.toShape.sublist ((List.sublist_cons_self r rest).append_left T)), fun i hi => ?_⟩
  have hi' : i < l.MaxHeight := by
    rw [hr.MaxHeight_eq] at hi
    exact hi
  rw [hr.onLevel_eq, next_unlinkLevels l r pre _ 0 hq]
  have hpath := h.path i hi'
  have hnd := h.nodup_onLevel i
  rw [onLevel_middle] at hpath hnd
  by_cases hir : i < (l.node r).height
  · -- a level of `r`: it follows the stop, and is unlinked there
    rw [if_pos ⟨Nat.zero_le i, by omega⟩, hpre i hir]
    rw [if_pos hir] at hpath hnd
    obtain ⟨ys, hys, heq⟩ := l.onLevel_around T rest i
    rw [← List.cons_append, ← hys, List.append_assoc, List.singleton_append] at hpath hnd
    rw [heq]
    exact hpath.unlinkAfter hnd
  · -- a level above `r`: as it was
    rw [if_neg (by omega)]
    rw [if_neg hir] at hpath
    exact hpath

end Unlink

/-! ## The cutting loop of `Split` -/

section Cut

variable {l : Skiplist K V} {T D : List Nat} {pre : List Ptr}

theorem cutLevels_bounds (h : l.Shape (T ++ D))
    (hpre : ∀ j, pre.getD j none =
      if j < l.maxHeight then some ((l.onLevel j T).getLast?.getD head) else none) :
    ∀ j, 0 ≤ j → j < 0 + l.MaxHeight → ∀ p, pre.getD j none = some p → j < (l.node p).nexts.length := by
  intro j _ _ p hp
  rw [hpre j] at hp
  by_cases hj : j < l.maxHeight
  · rw [if_pos hj, Option.some.injEq] at hp
    rw [← hp]
    exact (h.sublist (List.sublist_append_left T D)).lt_nexts_length hj
      (ListPrefix.getLast?_getD_mem head _)
  · rw [if_neg hj] at hp
    cases hp

/-- **The cutting loop keeps `T`.** Every level below `max_height_` is cut
after its stop; the levels above it are empty and stay so. -/
theorem holds_cutLevels (h : l.Holds (T ++ D))
    (hpre : ∀ j, pre.getD j none =
      if j < l.maxHeight then some ((l.onLevel j T).getLast?.getD head) else none) :
    (l.cutLevels pre 0 l.MaxHeight).Holds T := by
  have hT := h.toShape.sublist (List.sublist_append_left T D)
  have hr := relinks_cutLevels l pre 0 l.MaxHeight
  refine ⟨hr.shape hT, fun i hi => ?_⟩
  have hi' : i < l.MaxHeight := by
    rw [hr.MaxHeight_eq] at hi
    exact hi
  rw [hr.onLevel_eq, next_cutLevels l pre _ 0 (cutLevels_bounds h.toShape hpre),
    if_pos ⟨Nat.zero_le i, by omega⟩, hpre i]
  have hpath := h.path i hi'
  by_cases him : i < l.maxHeight
  · rw [if_pos him]
    show IsPath (update (l.next i) ((l.onLevel i T).getLast?.getD head) none) (some head)
      (head :: l.onLevel i T)
    obtain ⟨ys, hys, heq⟩ := l.onLevel_around T D i
    have hnd := h.nodup_onLevel i
    rw [heq] at hpath hnd
    have hP : (l.onLevel i T).getLast?.getD head ∉ ys := fun hm =>
      (List.nodup_cons.1 (List.nodup_middle.1 hnd)).1 (List.mem_append_left _ hm)
    rw [← hys]
    exact hpath.cutAfter hP
  · rw [if_neg him]
    show IsPath (l.next i) (some head) (head :: l.onLevel i T)
    rw [h.toShape.onLevel_eq_nil (by omega)] at hpath
    rw [hT.onLevel_eq_nil (by omega)]
    exact hpath

/-- The nodes cut off stay linked on level `0`, from the first of them on. -/
theorem isPath_cutLevels_rest (h : l.Holds (T ++ D))
    (hpre : ∀ j, pre.getD j none =
      if j < l.maxHeight then some ((l.onLevel j T).getLast?.getD head) else none) :
    IsPath ((l.cutLevels pre 0 l.MaxHeight).next 0) D.head? D := by
  rw [next_cutLevels l pre _ 0 (cutLevels_bounds h.toShape hpre), if_pos ⟨Nat.le_refl 0, by rw [Nat.zero_add]; exact h.maxHeight_pos'⟩,
    hpre 0, if_pos h.maxHeight_pos]
  show IsPath (update (l.next 0) ((l.onLevel 0 T).getLast?.getD head) none) D.head? D
  obtain ⟨ys, -, heq⟩ := l.onLevel_around T D 0
  have hpath := h.path 0 h.maxHeight_pos'
  have hnd := h.nodup_onLevel 0
  have hD0 := (h.toShape.sublist (List.sublist_append_right T D)).onLevel_zero
  rw [heq, hD0] at hpath hnd
  -- the cut is at the stop, which is not one of the nodes cut off
  have hP : (l.onLevel 0 T).getLast?.getD head ∉ D := fun hm =>
    (List.nodup_cons.1 (List.nodup_middle.1 hnd)).1 (List.mem_append_right _ hm)
  have hrest := hpath.of_append
  have hnext := hrest.next_eq
  cases hrest with
  | cons hD =>
    rw [hnext] at hD
    exact hD.congr fun x hx => update_of_ne (ne_of_mem_of_not_mem hx hP) _ _

end Cut

/-! ## The walk of `Clear` -/

/-- The walk of `Clear` over a path of level `0` through distinct nodes, each
with a pointer at every level of its height: it clears and counts them all,
and every other node keeps its pointers. -/
theorem clearLoop_spec : ∀ (ps : List Nat) (l : Skiplist K V) (q : Ptr) (fuel cnt : Nat),
    IsPath (l.next 0) q ps → ps.Nodup → ps.length ≤ fuel →
    (∀ p ∈ ps, (l.node p).height ≤ (l.node p).nexts.length) →
    ∃ l', l.clearLoop fuel q cnt = some (l', cnt + ps.length) ∧ Relinks l l' ∧
      ∀ j x, x ∉ ps → l'.next j x = l.next j x
  | [], l, q, fuel, cnt, hpath, _, _, _ => by
    cases hpath
    refine ⟨l, ?_, Relinks.refl l, fun _ _ _ => rfl⟩
    cases fuel <;> rfl
  | p :: ps, l, q, fuel, cnt, hpath, hnd, hfuel, hh => by
    obtain ⟨fuel, rfl⟩ : ∃ f, fuel = f + 1 := ⟨fuel - 1, by simp at hfuel; omega⟩
    cases hpath with
    | cons hps =>
      have hp : p ∉ ps := (List.nodup_cons.1 hnd).1
      have hnext := next_clearLevels l p (l.node p).height 0 fun j _ hj => by
        have := hh p List.mem_cons_self
        omega
      -- clearing `p` keeps the pointers of every other node
      have hframe : ∀ j x, x ≠ p → (l.clearLevels p 0 (l.node p).height).next j x = l.next j x := by
        intro j x hx
        rw [hnext j]
        split_ifs
        · exact update_of_ne hx _ _
        · rfl
      have hr := relinks_clearLevels l p 0 (l.node p).height
      obtain ⟨l', hrun, hr', hframe'⟩ := clearLoop_spec ps (l.clearLevels p 0 (l.node p).height)
        (l.getNext p 0) fuel (cnt + 1) (hps.congr fun x hx => hframe 0 x (ne_of_mem_of_not_mem hx hp))
        (List.nodup_cons.1 hnd).2 (by simp at hfuel; omega)
        (fun x hx => by
          rw [hr.height_eq, hr.nexts_length_eq]
          exact hh x (List.mem_cons_of_mem _ hx))
      refine ⟨l', ?_, hr.trans hr', fun j x hx => ?_⟩
      · rw [clearLoop, hrun, List.length_cons, Nat.add_comm ps.length 1, Nat.add_assoc]
      · rw [hframe' j x fun hm => hx (List.mem_cons_of_mem _ hm),
          hframe j x fun he => hx (he ▸ List.mem_cons_self)]

/-! ## Where the tail goes -/

/-- `linkNew`: the new node is the tail when it is the last. -/
theorem tail_insert {T D : List Nat} {n : Nat} {t : Ptr}
    (ht : t = (T ++ D).getLast? ∨ (T ++ D = [] ∧ t = some head)) :
    (if D = [] then some n else t) = (T ++ n :: D).getLast? ∨
      (T ++ n :: D = [] ∧ (if D = [] then some n else t) = some head) := by
  left
  cases D with
  | nil => simp
  | cons d D =>
    have hne : T ++ d :: D ≠ [] := by simp
    rw [if_neg (List.cons_ne_nil d D), ht.resolve_right fun h => hne h.1,
      List.getLast?_append_of_ne_nil _ (List.cons_ne_nil _ _),
      List.getLast?_append_of_ne_nil _ (List.cons_ne_nil _ _), List.getLast?_cons_cons]

/-- `Remove`: a tail that was the node unlinked moves back to the stop, or
to `NULL` for the head, and is the last node again. -/
theorem tail_remove {T rest : List Nat} {r : Nat} (hnd : (head :: (T ++ r :: rest)).Nodup)
    {t s : Ptr} (ht : t = (T ++ r :: rest).getLast?) (hs : s = some (T.getLast?.getD head)) :
    (if t = some r then (if s = some head then none else s) else t) = (T ++ rest).getLast? := by
  subst hs
  have hr : r ∉ rest := fun hm => (List.nodup_cons.1 (List.nodup_middle.1 (List.nodup_cons.1 hnd).2)).1
    (List.mem_append_right T hm)
  cases rest with
  | nil =>
    -- the node unlinked was the last one, so the tail
    rw [List.getLast?_append_of_ne_nil _ (List.cons_ne_nil _ _), List.getLast?_singleton] at ht
    rw [if_pos ht, List.append_nil]
    cases hT : T.getLast? with
    | none => simp
    | some x =>
      have hx : x ≠ head := fun hx => (List.nodup_cons.1 hnd).1
        (List.mem_append_left _ (hx ▸ List.mem_of_getLast? hT))
      simp [hx]
  | cons d rest =>
    rw [List.getLast?_append_of_ne_nil _ (List.cons_ne_nil _ _), List.getLast?_cons_cons] at ht
    have hne : t ≠ some r := fun h => hr (List.mem_of_getLast? (ht ▸ h))
    rw [if_neg hne, ht, List.getLast?_append_of_ne_nil _ (List.cons_ne_nil _ _)]

/-- `Split`: the stop becomes the tail; it is the last node kept, or the head
when none is. -/
theorem tail_split (T : List Nat) :
    some (T.getLast?.getD head) = T.getLast? ∨ (T = [] ∧ some (T.getLast?.getD head) = some head) := by
  cases hT : T.getLast? with
  | none => exact Or.inr ⟨List.getLast?_eq_none_iff.1 hT, rfl⟩
  | some x => exact Or.inl rfl

end Skiplist

end Fedb.Base
