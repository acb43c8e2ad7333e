import Fedb.Base.Skiplist
import Mathlib.Data.List.GetD

/-! # Runs of a `Skiplist`

A client drives a skiplist by a sequence of mutators (`Op`); `run` applies
them one after the other to a state. This module states what a run keeps:

* no operation changes the key, the value or the height of a node once it is
  allocated, nor frees one (`run_extends`): a node keeps the height it was
  created with;
* the representation invariant the iterators and the segment rely on,
  `Sorted`, `Nested`, `Linked` and `TailInv`, is stated on the chains; three
  runs show the mutators do not keep it. `SplitOnPosNode` cuts the upper levels by key
  while walking level `0`, so an equal key before the cut stays on level `0`
  but loses its upper levels (`splitByPos_unlinks_kept`), and a later
  `Remove` relinks the upper levels through the pointers such a node still
  holds (`splitByPos_breaks_nested`);
  `Split` at a key before every key stores the head sentinel as the tail
  (`split_tail_head`).
-/

namespace Fedb.Base

namespace Skiplist

variable {K V : Type} [Inhabited K] [Inhabited V]

/-- The mutators of `Skiplist`, with the height `RandomHeight()` returns for
the insertions. -/
inductive Op (K V : Type)
  | insert (key : K) (value : V) (height : Nat)
  | addToFirst (key : K) (value : V) (height : Nat)
  | remove (key : K)
  | split (key : K)
  | splitByPos (pos : Nat)
  | splitByKeyOrPos (key : K) (pos : Nat)
  | splitByKeyAndPos (key : K) (pos : Nat)
  | clear
  deriving Repr

section Run

variable (compare : K → K → Int)

/-- One mutator; `none` only where a walk runs out of fuel. -/
def step (l : Skiplist K V) : Op K V → Option (Skiplist K V)
  | .insert key value height => (l.insert compare key value height).map Prod.fst
  | .addToFirst key value height => some (l.addToFirst compare key value height).1
  | .remove key => (l.remove compare key).map Prod.fst
  | .split key => (l.split compare key).map Prod.fst
  | .splitByPos pos => some (l.splitByPos compare pos).1
  | .splitByKeyOrPos key pos => (l.splitByKeyOrPos compare key pos).map Prod.fst
  | .splitByKeyAndPos key pos => (l.splitByKeyAndPos compare key pos).map Prod.fst
  | .clear => l.clear.map Prod.fst

/-- A sequence of mutators. -/
def run (l : Skiplist K V) : List (Op K V) → Option (Skiplist K V)
  | [] => some l
  | op :: ops => (l.step compare op).bind fun l' => l'.run ops

end Run

/-! ## Nodes keep their data -/

/-- What a node holds besides its next pointers. -/
def Node.data (n : Node K V) : K × V × Nat := (n.key, n.value, n.height)

/-- `l'` has every node of `l`, each with the same key, value and height. -/
structure Extends (l l' : Skiplist K V) : Prop where
  maxHeight_eq : l'.MaxHeight = l.MaxHeight
  length_le : l.nodes.length ≤ l'.nodes.length
  data_eq : ∀ p < l.nodes.length, Node.data (l'.node p) = Node.data (l.node p)

theorem Extends.refl (l : Skiplist K V) : Extends l l := ⟨rfl, Nat.le_refl _, fun _ _ => rfl⟩

theorem Extends.trans {l₁ l₂ l₃ : Skiplist K V} (h₁ : Extends l₁ l₂) (h₂ : Extends l₂ l₃) :
    Extends l₁ l₃ :=
  ⟨h₂.maxHeight_eq.trans h₁.maxHeight_eq, Nat.le_trans h₁.length_le h₂.length_le,
    fun p hp => (h₂.data_eq p (by have := h₁.length_le; omega)).trans (h₁.data_eq p hp)⟩

/-- `SetNext` changes one next pointer of one node. -/
theorem node_setNext (l : Skiplist K V) (p i : Nat) (q : Ptr) (p' : Nat) :
    (l.setNext p i q).node p' =
      if p = p' then { l.node p' with nexts := (l.node p').nexts.set i q } else l.node p' := by
  unfold node setNext
  simp only [List.getD_eq_getElem?_getD, List.getElem?_modify]
  cases h : l.nodes[p']? with
  | none => split <;> rfl
  | some n => split <;> rfl

omit [Inhabited K] [Inhabited V] in
@[simp] theorem nodes_length_setNext (l : Skiplist K V) (p i : Nat) (q : Ptr) :
    (l.setNext p i q).nodes.length = l.nodes.length := by
  simp [setNext]

omit [Inhabited K] [Inhabited V] in
@[simp] theorem maxHeight_setNext (l : Skiplist K V) (p i : Nat) (q : Ptr) :
    (l.setNext p i q).MaxHeight = l.MaxHeight := rfl

theorem extends_setNext (l : Skiplist K V) (p i : Nat) (q : Ptr) : Extends l (l.setNext p i q) := by
  refine ⟨rfl, by simp, fun p' _ => ?_⟩
  rw [node_setNext]
  split <;> rfl

/-- A loop of `SetNext` calls keeps every node's data: the shape shared by
every pointer loop of the skiplist. -/
theorem extends_of_setNext_loop {f : Skiplist K V → Nat → Nat → Skiplist K V}
    (h0 : ∀ l i, f l i 0 = l)
    (hs : ∀ l i n, ∃ l₁, Extends l l₁ ∧ f l i (n + 1) = f l₁ (i + 1) n) :
    ∀ n l i, Extends l (f l i n) := by
  intro n
  induction n with
  | zero => intro l i; rw [h0]; exact Extends.refl l
  | succ n ih =>
    intro l i
    obtain ⟨l₁, hl₁, heq⟩ := hs l i n
    rw [heq]
    exact hl₁.trans (ih l₁ (i + 1))

theorem extends_linkLevels (l : Skiplist K V) (node : Nat) (pre : List Ptr) (i n : Nat) :
    Extends l (l.linkLevels node pre i n) :=
  extends_of_setNext_loop (f := fun l i n => l.linkLevels node pre i n) (fun _ _ => rfl)
    (fun _ _ _ => ⟨_, (extends_setNext _ _ _ _).trans (extends_setNext _ _ _ _), rfl⟩) n l i

theorem extends_unlinkLevels (l : Skiplist K V) (result : Nat) (pre : List Ptr) (i n : Nat) :
    Extends l (l.unlinkLevels result pre i n) :=
  extends_of_setNext_loop (f := fun l i n => l.unlinkLevels result pre i n) (fun _ _ => rfl)
    (fun _ _ _ => ⟨_, (extends_setNext _ _ _ _).trans (extends_setNext _ _ _ _), rfl⟩) n l i

theorem extends_cutLevels (l : Skiplist K V) (pre : List Ptr) (i n : Nat) :
    Extends l (l.cutLevels pre i n) := by
  refine extends_of_setNext_loop (f := fun l i n => l.cutLevels pre i n) (fun _ _ => rfl)
    (fun l i n => ?_) n l i
  cases h : pre.getD i none with
  | none => exact ⟨l, Extends.refl l, by rw [cutLevels, h]⟩
  | some p => exact ⟨_, extends_setNext l p i none, by rw [cutLevels, h]⟩

theorem extends_clearLevels (l : Skiplist K V) (p i n : Nat) :
    Extends l (l.clearLevels p i n) :=
  extends_of_setNext_loop (f := fun l i n => l.clearLevels p i n) (fun _ _ => rfl)
    (fun l i _ => ⟨_, extends_setNext l p i none, rfl⟩) n l i

/-- An update of the members other than the heap keeps every node. -/
theorem extends_of_nodes_eq {l l' : Skiplist K V} (hn : l'.nodes = l.nodes)
    (hm : l'.MaxHeight = l.MaxHeight) : Extends l l' :=
  ⟨hm, Nat.le_of_eq (by rw [hn]), fun p _ => by rw [node, node, hn]⟩

theorem extends_cutUpper (compare : K → K → Int) (l : Skiplist K V) (posKey : K) (node i n : Nat) :
    Extends l (l.cutUpper compare posKey node i n) := by
  induction n generalizing l i with
  | zero => exact Extends.refl l
  | succ n ih =>
    unfold cutUpper
    split
    · exact ih l (i + 1)
    · split
      · exact (extends_setNext _ _ _ _).trans (ih _ (i + 1))
      · exact ih l (i + 1)

/-- `NewNode` appends a node, which keeps the data of the others. -/
theorem extends_linkNew (l : Skiplist K V) (key : K) (value : V) (height : Nat) (pre : List Ptr) :
    Extends l (l.linkNew key value height pre) := by
  unfold linkNew
  have happend : Extends l
      { l with nodes := l.nodes ++ [⟨key, value, height, List.replicate height none⟩] } :=
    ⟨rfl, by simp, fun p hp => by simp only [node, List.getD_append _ _ _ _ hp]⟩
  refine happend.trans (Extends.trans ?_ (extends_linkLevels _ _ _ _ _))
  split
  · exact extends_of_nodes_eq rfl rfl
  · exact Extends.refl _

theorem extends_splitOnPosNodeLoop (compare : K → K → Int) (posKey : K) :
    ∀ k (l : Skiplist K V) node pre, Extends l (l.splitOnPosNodeLoop compare posKey k node pre).1 := by
  intro k
  induction k with
  | zero =>
    intro l node pre
    cases node with
    | none => exact Extends.refl l
    | some node =>
      -- the cut: the predecessor becomes the tail and loses its next pointers
      refine Extends.trans ?_ (extends_clearLevels _ _ _ _)
      exact extends_of_nodes_eq rfl rfl
  | succ k ih =>
    intro l node pre
    cases node with
    | none => exact Extends.refl l
    | some node => exact (extends_cutUpper compare l posKey node _ _).trans (ih _ _ _)

theorem extends_splitOnPosNode (compare : K → K → Int) (l : Skiplist K V) (pos posNode : Nat) :
    Extends l (l.splitOnPosNode compare pos posNode).1 :=
  extends_splitOnPosNodeLoop compare _ _ l _ _

theorem extends_split (compare : K → K → Int) {l : Skiplist K V} {key : K}
    {r : Skiplist K V × Ptr} (h : l.split compare key = some r) : Extends l r.1 := by
  unfold split at h
  cases hf : l.findLessOrEqual compare key (List.replicate l.MaxHeight none) with
  | none => simp [hf] at h
  | some res =>
    obtain ⟨target, pre⟩ := res
    simp only [hf, Option.bind_eq_bind, Option.bind_some, Option.pure_def, Option.some.injEq] at h
    subst h
    refine Extends.trans ?_ (extends_cutLevels _ _ _ _)
    exact extends_of_nodes_eq rfl rfl

theorem extends_insert (compare : K → K → Int) {l : Skiplist K V} {key : K} {value : V}
    {height : Nat} {r : Skiplist K V × Nat} (h : l.insert compare key value height = some r) :
    Extends l r.1 := by
  unfold insert at h
  cases hf : l.findLessOrEqual compare key (List.replicate l.MaxHeight none) with
  | none => simp [hf] at h
  | some res =>
    obtain ⟨target, pre⟩ := res
    simp only [hf, Option.bind_eq_bind, Option.bind_some, Option.pure_def, Option.some.injEq] at h
    subst h
    -- a height above `max_height_` raises it first, which keeps the heap
    split
    · refine Extends.trans ?_ (extends_linkNew _ _ _ _ _)
      exact extends_of_nodes_eq rfl rfl
    · exact extends_linkNew _ _ _ _ _

theorem extends_remove (compare : K → K → Int) {l : Skiplist K V} {key : K}
    {r : Skiplist K V × Ptr} (h : l.remove compare key = some r) : Extends l r.1 := by
  unfold remove at h
  cases hf : l.findLessOrEqual compare key (List.replicate l.MaxHeight (some head)) with
  | none => simp [hf] at h
  | some res =>
    obtain ⟨target, pre⟩ := res
    simp only [hf, Option.bind_eq_bind, Option.bind_some] at h
    cases hn : l.getNext target 0 with
    | none =>
      simp only [hn, Option.pure_def, Option.some.injEq] at h
      subst h
      exact Extends.refl l
    | some result =>
      simp only [hn] at h
      by_cases hkey : compare (l.node result).key key ≠ 0
      · simp only [if_pos hkey, Option.pure_def, Option.some.injEq] at h
        subst h
        exact Extends.refl l
      · simp only [if_neg hkey, Option.pure_def, Option.some.injEq] at h
        subst h
        refine (extends_unlinkLevels l result pre 0 (l.node result).height).trans ?_
        -- the tail moves back to the predecessor, which keeps the heap
        split
        · exact extends_of_nodes_eq rfl rfl
        · exact Extends.refl _

theorem extends_splitByPos (compare : K → K → Int) (l : Skiplist K V) (pos : Nat) :
    Extends l (l.splitByPos compare pos).1 := by
  unfold splitByPos
  split
  · exact Extends.refl l
  · exact extends_splitOnPosNode compare l pos _

theorem extends_splitByKeyOrPosLoop (compare : K → K → Int) (l : Skiplist K V) (key : K)
    (pos : Nat) : ∀ k q {r : Skiplist K V × Ptr},
      l.splitByKeyOrPosLoop compare key pos k q = some r → Extends l r.1 := by
  intro k
  induction k with
  | zero =>
    intro q r h
    cases q with
    | none =>
      simp only [splitByKeyOrPosLoop, Option.some.injEq] at h
      subst h
      exact Extends.refl l
    | some posNode =>
      simp only [splitByKeyOrPosLoop, Option.some.injEq] at h
      subst h
      exact extends_splitOnPosNode compare l pos posNode
  | succ k ih =>
    intro q r h
    cases q with
    | none =>
      simp only [splitByKeyOrPosLoop, Option.some.injEq] at h
      subst h
      exact Extends.refl l
    | some p =>
      simp only [splitByKeyOrPosLoop] at h
      split_ifs at h
      · exact extends_split compare h
      · exact ih _ h

theorem extends_splitByKeyOrPos (compare : K → K → Int) {l : Skiplist K V} {key : K}
    {pos : Nat} {r : Skiplist K V × Ptr} (h : l.splitByKeyOrPos compare key pos = some r) :
    Extends l r.1 :=
  extends_splitByKeyOrPosLoop compare l key pos _ _ h

theorem extends_splitByKeyAndPosLoop (compare : K → K → Int) (l : Skiplist K V) (key : K)
    (pos : Nat) : ∀ k q findKey {r : Skiplist K V × Ptr},
      l.splitByKeyAndPosLoop compare key pos k q findKey = some r → Extends l r.1 := by
  intro k
  induction k with
  | zero =>
    intro q findKey r h
    cases q with
    | none =>
      simp only [splitByKeyAndPosLoop, Option.some.injEq] at h
      subst h
      exact Extends.refl l
    | some posNode =>
      simp only [splitByKeyAndPosLoop] at h
      split_ifs at h
      · simp only [Option.some.injEq] at h
        subst h
        exact extends_splitOnPosNode compare l pos posNode
      · exact extends_split compare h
  | succ k ih =>
    intro q findKey r h
    cases q with
    | none =>
      simp only [splitByKeyAndPosLoop, Option.some.injEq] at h
      subst h
      exact Extends.refl l
    | some p => exact ih _ _ h

theorem extends_splitByKeyAndPos (compare : K → K → Int) {l : Skiplist K V} {key : K}
    {pos : Nat} {r : Skiplist K V × Ptr} (h : l.splitByKeyAndPos compare key pos = some r) :
    Extends l r.1 :=
  extends_splitByKeyAndPosLoop compare l key pos _ _ _ h

theorem extends_clearLoop : ∀ fuel (l : Skiplist K V) q cnt {r : Skiplist K V × Nat},
    l.clearLoop fuel q cnt = some r → Extends l r.1 := by
  intro fuel
  induction fuel with
  | zero =>
    intro l q cnt r h
    cases q with
    | none =>
      simp only [clearLoop, Option.some.injEq] at h
      subst h
      exact Extends.refl l
    | some p => simp [clearLoop] at h
  | succ fuel ih =>
    intro l q cnt r h
    cases q with
    | none =>
      simp only [clearLoop, Option.some.injEq] at h
      subst h
      exact Extends.refl l
    | some p => exact (extends_clearLevels l p 0 _).trans (ih _ _ _ h)

theorem extends_clear {l : Skiplist K V} {r : Skiplist K V × Nat} (h : l.clear = some r) :
    Extends l r.1 := by
  unfold clear at h
  refine Extends.trans ?_ (extends_clearLoop _ _ _ _ h)
  exact (extends_clearLevels l head 0 _).trans (extends_of_nodes_eq rfl rfl)

theorem extends_addToFirst (compare : K → K → Int) (l : Skiplist K V) (key : K) (value : V)
    (height : Nat) : Extends l (l.addToFirst compare key value height).1 := by
  have hlink : Extends l ((if height > l.maxHeight then { l with maxHeight := height } else l).linkNew
      key value height (List.replicate height (some head))) := by
    refine Extends.trans ?_ (extends_linkNew _ _ _ _ _)
    split
    · exact extends_of_nodes_eq rfl rfl
    · exact Extends.refl l
  unfold addToFirst
  dsimp only
  -- on either first node, `AddToFirst` keeps the list or links the new node
  split <;> split
  all_goals first | exact Extends.refl l | exact hlink

/-- One mutator keeps every node with its data. -/
theorem step_extends (compare : K → K → Int) {l l' : Skiplist K V} :
    ∀ op, l.step compare op = some l' → Extends l l'
  | .insert key value height, h => by
    obtain ⟨r, hr, rfl⟩ := Option.map_eq_some_iff.1 h
    exact extends_insert compare hr
  | .addToFirst key value height, h => by
    cases h
    exact extends_addToFirst compare l key value height
  | .remove key, h => by
    obtain ⟨r, hr, rfl⟩ := Option.map_eq_some_iff.1 h
    exact extends_remove compare hr
  | .split key, h => by
    obtain ⟨r, hr, rfl⟩ := Option.map_eq_some_iff.1 h
    exact extends_split compare hr
  | .splitByPos pos, h => by
    cases h
    exact extends_splitByPos compare l pos
  | .splitByKeyOrPos key pos, h => by
    obtain ⟨r, hr, rfl⟩ := Option.map_eq_some_iff.1 h
    exact extends_splitByKeyOrPos compare hr
  | .splitByKeyAndPos key pos, h => by
    obtain ⟨r, hr, rfl⟩ := Option.map_eq_some_iff.1 h
    exact extends_splitByKeyAndPos compare hr
  | .clear, h => by
    obtain ⟨r, hr, rfl⟩ := Option.map_eq_some_iff.1 h
    exact extends_clear hr

/-- **Nodes keep their data over a run.** Every node of the start state is in
the end state with its key, value and height: no mutator frees a node or
changes the height it was created with. -/
theorem run_extends (compare : K → K → Int) :
    ∀ ops {l l' : Skiplist K V}, l.run compare ops = some l' → Extends l l'
  | [], l, l', h => by
    cases h
    exact Extends.refl l
  | op :: ops, l, l', h => by
    obtain ⟨l₁, h₁, h₂⟩ := Option.bind_eq_some_iff.1 h
    exact (step_extends compare op h₁).trans (run_extends compare ops h₂)

/-! ## The representation invariant

What the iterators and the segment assume of the chains: level `0` is sorted,
every upper level is a subsequence of the one below through nodes tall enough
for it, and `tail_` is the last node of level `0`. A fresh list has it; the two
runs below leave it. -/

section Invariant

variable (compare : K → K → Int)

/-- The level-`0` chain is sorted: no key sorts after a later one. -/
def Sorted (l : Skiplist K V) : Prop :=
  (l.chain 0).Pairwise fun p q => compare (l.node p).key (l.node q).key ≤ 0

/-- Every upper level is a subsequence of the level below, through nodes that
have that level. -/
def Nested (l : Skiplist K V) : Prop :=
  ∀ i < l.MaxHeight, 0 < i →
    (l.chain i).Sublist (l.chain (i - 1)) ∧ ∀ p ∈ l.chain i, i < (l.node p).height

/-- Every node of level `0` is on each level below its height, as `Insert`
links it. -/
def Linked (l : Skiplist K V) : Prop :=
  ∀ i < l.MaxHeight, ∀ p ∈ l.chain 0, i < (l.node p).height → p ∈ l.chain i

/-- `GetLast()` is the last node of level `0`, `NULL` exactly on an empty list. -/
def TailInv (l : Skiplist K V) : Prop := l.getLast = (l.chain 0).getLast?

instance (l : Skiplist K V) : Decidable (l.Sorted compare) := by unfold Sorted; infer_instance

instance (l : Skiplist K V) : Decidable l.Nested := by unfold Nested; infer_instance

instance (l : Skiplist K V) : Decidable l.TailInv := by unfold TailInv; infer_instance

instance (l : Skiplist K V) : Decidable l.Linked :=
  inferInstanceAs (Decidable (∀ i < l.MaxHeight, ∀ p ∈ l.chain 0, i < (l.node p).height → p ∈ l.chain i))

@[simp] theorem chain_new (MaxHeight level : Nat) : (new MaxHeight : Skiplist K V).chain level = [] := by
  have hnext : (new MaxHeight : Skiplist K V).getNext head level = none := by
    show (List.replicate MaxHeight (none : Ptr)).getD level none = none
    rw [List.getD_eq_getElem?_getD, List.getElem?_getD_replicate_default_eq]
  rw [chain, hnext]
  cases (new MaxHeight : Skiplist K V).nodes.length <;> rfl

/-- A fresh list has the invariant, at every `MaxHeight`. -/
theorem new_invariant (MaxHeight : Nat) :
    (new MaxHeight : Skiplist K V).Sorted compare ∧ (new MaxHeight : Skiplist K V).Nested ∧
      (new MaxHeight : Skiplist K V).TailInv := by
  refine ⟨by simp [Sorted], fun i _ _ => by simp, ?_⟩
  rw [TailInv, chain_new]
  rfl

end Invariant

/-- `SplitByPos` breaks the nesting of the levels. Two nodes of key `9`, the
first of height `2`; `SplitByPos(1)` walks over the first and, its key not
sorting before the key `9` of the node at the cut, cuts the head's level `1`
in front of it, so the first `9` stays on level `0` without its upper level.
`7` and `5` are inserted after it on both levels. `Remove(9)` then relinks the
head's level `1` through the first `9`'s cleared pointer, which drops `7` and
`5` from level `1`; `Remove(5)` relinks level `1` at the head, not at `7`, so
`7` keeps its level-`1` pointer to the removed `5`; and `Remove(7)` relinks
the head's level `1` to that removed node. Level `1` then holds a node that
level `0` does not, and an `Insert(3)` finds its predecessor through it: the
new node is linked after the removed `5` and is on no chain from the head. -/
theorem splitByPos_breaks_nested :
    ∃ l, (new 2 : Skiplist UInt64 Unit).run defaultComparator
        [.insert 9 () 1, .insert 9 () 2, .splitByPos 1, .insert 7 () 2, .insert 5 () 2,
         .remove 9, .remove 5, .remove 7] = some l ∧
      ¬ l.Nested ∧ l.chain 0 = [] ∧ l.chain 1 = [4] ∧
      ∃ l', l.step defaultComparator (.insert 3 () 1) = some l' ∧ l'.chain 0 = [] :=
  ⟨_, rfl, by decide, by decide, by decide, _, rfl, by decide⟩

/-- `SplitByPos` takes a node it keeps off its upper levels. Two nodes of key
`9`, the first of height `2`, in the invariant; `SplitByPos(1)` keeps the
first on level `0`, but `SplitOnPosNode` cuts the head's level `1` in front
of it, since its key does not sort before the key `9` at the cut. -/
theorem splitByPos_unlinks_kept :
    ∃ l, (new 2 : Skiplist UInt64 Unit).run defaultComparator [.insert 9 () 1, .insert 9 () 2] = some l ∧
      l.Sorted defaultComparator ∧ l.Nested ∧ l.Linked ∧ l.TailInv ∧
      ∃ l', l.step defaultComparator (.splitByPos 1) = some l' ∧
        l'.chain 0 = [2] ∧ (l'.node 2).height = 2 ∧ l'.chain 1 = [] ∧ ¬ l'.Linked :=
  ⟨_, rfl, by decide, by decide, by decide, by decide, _, rfl, by decide, rfl, by decide, by decide⟩

/-- `Split` at a key that does not sort after the first key cuts every node
off, and `FindLessOrEqual` returns the head as the last node before the key:
the head sentinel becomes the tail of the empty list. -/
theorem split_tail_head :
    ∃ l, (new 2 : Skiplist UInt64 Unit).run defaultComparator [.insert 5 () 1, .split 5] = some l ∧
      l.isEmpty = true ∧ l.getLast = some head ∧ ¬ l.TailInv :=
  ⟨_, rfl, rfl, rfl, by decide⟩

end Skiplist

end Fedb.Base
