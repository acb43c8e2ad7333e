import Mathlib.Data.List.Basic

/-! # `Skiplist`: the pointer structure

`fedb::base::Skiplist` (`src/base/skiplist.h`) is the sorted index of every
segment: a head sentinel of height `MaxHeight` and nodes of random heights,
each with one next pointer per level. This module models it over an explicit
heap: the nodes are a list, a pointer is an index into it (`none` for `NULL`),
and index `0` is `head_`. Nodes are never freed by the model; a node the C++
deletes (`Clear`) or hands back (`Remove`, the splits) stays in the heap,
unreachable from the head, with the next pointers the C++ leaves in it.

Every operation is the C++ one step for step: the three finds, `GetSize` and
the walk of `Clear` loop over the chains with fuel (`fuel`), which suffices for a heap
whose chains have no cycle, and report running out of it as `none`; the walks
of the splits are bounded by the position and need none. `RandomHeight` is
not modelled: `Insert` and `AddToFirst` take the height as an argument, any
height from `1` to `MaxHeight` being one the generator can return. The
comparator is a parameter, `compare a b < 0` when `a` sorts before `b`.
-/

namespace Fedb.Base

/-- `Node<K, V>*`: an index into the heap, `none` for `NULL`. -/
abbrev Ptr := Option Nat

/-- `Node<K, V>`: the key, the value, the height and one next pointer per level. -/
structure Node (K V : Type) where
  key : K
  value : V
  height : Nat
  nexts : List Ptr
  deriving Repr, DecidableEq

instance {K V : Type} [Inhabited K] [Inhabited V] : Inhabited (Node K V) :=
  ⟨⟨default, default, 0, []⟩⟩

/-- The members of `Skiplist` the operations read: `MaxHeight`, `max_height_`,
the heap with `head_` at index `0`, and `tail_`. -/
structure Skiplist (K V : Type) where
  MaxHeight : Nat
  maxHeight : Nat
  nodes : List (Node K V)
  tail : Ptr
  deriving Repr, DecidableEq

/-- `DefaultComparator`: `uint64_t` keys in descending order. -/
def defaultComparator (a b : UInt64) : Int :=
  if a > b then -1 else if a = b then 0 else 1

namespace Skiplist

variable {K V : Type} [Inhabited K] [Inhabited V]

/-- `head_`. -/
def head : Nat := 0

/-- `Skiplist(max_height, branch, compare)`: the head sentinel of height
`MaxHeight`, every next pointer `NULL`, and `max_height_ = 1`. -/
def new (MaxHeight : Nat) : Skiplist K V :=
  { MaxHeight := MaxHeight, maxHeight := 1,
    nodes := [{ key := default, value := default, height := MaxHeight,
                nexts := List.replicate MaxHeight none }],
    tail := none }

/-- The node a pointer points to. -/
def node (l : Skiplist K V) (p : Nat) : Node K V := l.nodes.getD p default

/-- `GetNext(level)`. -/
def getNext (l : Skiplist K V) (p level : Nat) : Ptr := (l.node p).nexts.getD level none

/-- `SetNext(level, q)`, with or without a barrier. -/
def setNext (l : Skiplist K V) (p level : Nat) (q : Ptr) : Skiplist K V :=
  { l with nodes := l.nodes.modify p fun n => { n with nexts := n.nexts.set level q } }

/-- `IsEmpty()`. -/
def isEmpty (l : Skiplist K V) : Bool := l.getNext head 0 == none

/-- `GetLast()`. -/
def getLast (l : Skiplist K V) : Ptr := l.tail

/-- Enough iterations for a walk over chains without a cycle: every level,
every node. -/
def fuel (l : Skiplist K V) : Nat := (l.nodes.length + 1) * (l.MaxHeight + 1)

/-- The nodes of the chain at `level` from a pointer on, for at most `fuel` nodes. -/
def chainFrom (l : Skiplist K V) (level : Nat) : Nat → Ptr → List Nat
  | 0, _ => []
  | _ + 1, none => []
  | fuel + 1, some p => p :: l.chainFrom level fuel (l.getNext p level)

/-- The chain at `level` from the head. -/
def chain (l : Skiplist K V) (level : Nat) : List Nat :=
  l.chainFrom level l.nodes.length (l.getNext head level)

/-- `pre[i] = q` for `i` from `lo` on, `n` entries. -/
def setRange (pre : List Ptr) (q : Ptr) : Nat → Nat → List Ptr
  | _, 0 => pre
  | lo, n + 1 => setRange (pre.set lo q) q (lo + 1) n

/-- The linking loop of `Insert` and `AddToFirst`, from level `i` on, `n`
levels: `node->next(i) = pre[i]->next(i); pre[i]->next(i) = node`. -/
def linkLevels (l : Skiplist K V) (node : Nat) (pre : List Ptr) : Nat → Nat → Skiplist K V
  | _, 0 => l
  | i, n + 1 =>
    let p := (pre.getD i none).getD head
    let l := l.setNext node i (l.getNext p i)
    let l := l.setNext p i (some node)
    linkLevels l node pre (i + 1) n

/-- The unlinking loop of `Remove`, from level `i` on, `n` levels:
`pre[i]->next(i) = result->next(i); result->next(i) = NULL`. -/
def unlinkLevels (l : Skiplist K V) (result : Nat) (pre : List Ptr) : Nat → Nat → Skiplist K V
  | _, 0 => l
  | i, n + 1 =>
    let p := (pre.getD i none).getD head
    let l := l.setNext p i (l.getNext result i)
    let l := l.setNext result i none
    unlinkLevels l result pre (i + 1) n

/-- The cutting loop of `Split`, from level `i` on, `n` levels: every
predecessor found loses its successor. -/
def cutLevels (l : Skiplist K V) (pre : List Ptr) : Nat → Nat → Skiplist K V
  | _, 0 => l
  | i, n + 1 =>
    match pre.getD i none with
    | none => cutLevels l pre (i + 1) n
    | some p => cutLevels (l.setNext p i none) pre (i + 1) n

/-- Every next pointer of a node from level `i` on, `n` levels, set to `NULL`. -/
def clearLevels (l : Skiplist K V) (p : Nat) : Nat → Nat → Skiplist K V
  | _, 0 => l
  | i, n + 1 => clearLevels (l.setNext p i none) p (i + 1) n

section Operations

variable (compare : K → K → Int)

/-- `IsAfterNode(key, node)`: the node exists and `key` sorts after its key. -/
def isAfterNode (l : Skiplist K V) (key : K) : Ptr → Bool
  | none => false
  | some p => decide (compare key (l.node p).key > 0)

/-- The loop of `FindLessOrEqual(key, nodes)`: move right while the key sorts
after the next node, otherwise record the node for this level and go down;
at level `0` the node is the result. -/
def findLessOrEqualLoop (l : Skiplist K V) (key : K) :
    Nat → Nat → Nat → List Ptr → Option (Nat × List Ptr)
  | 0, _, _, _ => none
  | fuel + 1, node, level, pre =>
    let next := l.getNext node level
    if l.isAfterNode compare key next then
      findLessOrEqualLoop l key fuel (next.getD head) level pre
    else
      let pre := pre.set level (some node)
      if level = 0 then some (node, pre)
      else findLessOrEqualLoop l key fuel node (level - 1) pre

/-- `FindLessOrEqual(key, nodes)`, from the head at level `max_height_ - 1`:
the last node whose key sorts before `key`, and the predecessor array. -/
def findLessOrEqual (l : Skiplist K V) (key : K) (pre : List Ptr) : Option (Nat × List Ptr) :=
  l.findLessOrEqualLoop compare key l.fuel head (l.maxHeight - 1) pre

/-- Allocate a node of `height` (`NewNode`) and link it after the
predecessors: the last part of `Insert` and of `AddToFirst`. -/
def linkNew (l : Skiplist K V) (key : K) (value : V) (height : Nat) (pre : List Ptr) :
    Skiplist K V :=
  let node := l.nodes.length
  let l := { l with nodes := l.nodes ++ [{ key := key, value := value, height := height,
                                           nexts := List.replicate height none }] }
  let l : Skiplist K V :=
    if l.getNext ((pre.getD 0 none).getD head) 0 = none then { l with tail := some node } else l
  l.linkLevels node pre 0 height

/-- `Insert(key, value)` with `RandomHeight()` returning `height`: the
predecessors at the levels above `max_height_` are the head. Returns the height. -/
def insert (l : Skiplist K V) (key : K) (value : V) (height : Nat) :
    Option (Skiplist K V × Nat) := do
  let (_, pre) ← l.findLessOrEqual compare key (List.replicate l.MaxHeight none)
  let (l, pre) :=
    if height > l.maxHeight then
      ({ l with maxHeight := height }, setRange pre (some head) l.maxHeight (height - l.maxHeight))
    else (l, pre)
  return (l.linkNew key value height pre, height)

/-- `Remove(key)`: unlink the node after the predecessor if its key equals
`key`; if it was the tail, the predecessor becomes the tail, or `NULL` if that
is the head. Returns the node removed. -/
def remove (l : Skiplist K V) (key : K) : Option (Skiplist K V × Ptr) := do
  let (target, pre) ← l.findLessOrEqual compare key (List.replicate l.MaxHeight (some head))
  -- `target == NULL` cannot happen: `FindLessOrEqual` returns a node
  match l.getNext target 0 with
  | none => return (l, none)
  | some result =>
    if compare (l.node result).key key ≠ 0 then return (l, none)
    else
      let l := l.unlinkLevels result pre 0 (l.node result).height
      let l := if l.tail = some result then
          { l with tail := if pre.getD 0 none = some head then none else pre.getD 0 none }
        else l
      return (l, some result)

/-- `Split(key)`: cut every level after the last node whose key sorts before
`key`, which becomes the tail. Returns the first node cut off. -/
def split (l : Skiplist K V) (key : K) : Option (Skiplist K V × Ptr) := do
  let (target, pre) ← l.findLessOrEqual compare key (List.replicate l.MaxHeight none)
  let l := { l with tail := some target }
  let result := l.getNext target 0
  return (l.cutLevels pre 0 l.MaxHeight, result)

/-- The cut of the upper levels in the walk of `SplitOnPosNode`: at every
level from `i` on, `n` levels, a next node whose key does not sort before
`posKey` is cut off. -/
def cutUpper (l : Skiplist K V) (posKey : K) (node : Nat) : Nat → Nat → Skiplist K V
  | _, 0 => l
  | i, n + 1 =>
    match l.getNext node i with
    | none => l.cutUpper posKey node (i + 1) n
    | some next =>
      if compare posKey (l.node next).key ≤ 0 then (l.setNext node i none).cutUpper posKey node (i + 1) n
      else l.cutUpper posKey node (i + 1) n

/-- The loop of `SplitOnPosNode`, with `k` nodes left before the cut: each
node walked over has its upper levels cut at `posKey`; at the cut the
predecessor loses every next pointer and becomes the tail. -/
def splitOnPosNodeLoop (l : Skiplist K V) (posKey : K) : Nat → Ptr → Nat → Skiplist K V × Ptr
  | _, none, _ => (l, none)
  | 0, some node, pre =>
    (({ l with tail := some pre } : Skiplist K V).clearLevels pre 0 (l.node pre).height, some node)
  | k + 1, some node, _ =>
    let l := l.cutUpper compare posKey node 1 ((l.node node).height - 1)
    l.splitOnPosNodeLoop posKey k (l.getNext node 0) node

/-- `SplitOnPosNode(pos, pos_node)`: cut level `0` before the node at
position `pos` (counted from `0` after the head). -/
def splitOnPosNode (l : Skiplist K V) (pos posNode : Nat) : Skiplist K V × Ptr :=
  l.splitOnPosNodeLoop compare (l.node posNode).key (pos + 1) (some head) head

/-- The walk of `SplitByPos` to the node at position `pos`: `none` where the
chain ends first. -/
def nodeAt (l : Skiplist K V) : Nat → Ptr → Ptr
  | _, none => none
  | 0, some p => some p
  | k + 1, some p => l.nodeAt k (l.getNext p 0)

/-- `SplitByPos(pos)`. -/
def splitByPos (l : Skiplist K V) (pos : Nat) : Skiplist K V × Ptr :=
  match l.nodeAt pos (l.getNext head 0) with
  | none => (l, none)
  | some posNode => l.splitOnPosNode compare pos posNode

/-- The loop of `SplitByKeyOrPos`, with `k` positions left: a node whose key
does not sort before `key` ends it with `Split` at that node's key. -/
def splitByKeyOrPosLoop (l : Skiplist K V) (key : K) (pos : Nat) :
    Nat → Ptr → Option (Skiplist K V × Ptr)
  | _, none => some (l, none)
  | 0, some posNode => some (l.splitOnPosNode compare pos posNode)
  | k + 1, some p =>
    if compare (l.node p).key key ≥ 0 then l.split compare (l.node p).key
    else l.splitByKeyOrPosLoop key pos k (l.getNext p 0)

/-- `SplitByKeyOrPos(key, pos)`: split at whichever comes first, the key or
the position. -/
def splitByKeyOrPos (l : Skiplist K V) (key : K) (pos : Nat) : Option (Skiplist K V × Ptr) :=
  l.splitByKeyOrPosLoop compare key pos pos (l.getNext head 0)

/-- The loop of `SplitByKeyAndPos`, with `k` positions left, remembering
whether a key that does not sort before `key` was passed. -/
def splitByKeyAndPosLoop (l : Skiplist K V) (key : K) (pos : Nat) :
    Nat → Ptr → Bool → Option (Skiplist K V × Ptr)
  | _, none, _ => some (l, none)
  | 0, some posNode, findKey =>
    if findKey then some (l.splitOnPosNode compare pos posNode) else l.split compare key
  | k + 1, some p, findKey =>
    l.splitByKeyAndPosLoop key pos k (l.getNext p 0) (findKey || decide (compare (l.node p).key key ≥ 0))

/-- `SplitByKeyAndPos(key, pos)`: split at whichever comes last, the key or
the position. -/
def splitByKeyAndPos (l : Skiplist K V) (key : K) (pos : Nat) : Option (Skiplist K V × Ptr) :=
  l.splitByKeyAndPosLoop compare key pos pos (l.getNext head 0) false

/-- The walk of `Clear` over level `0`: count every node and set its next
pointers to `NULL` (the C++ then deletes it). -/
def clearLoop (l : Skiplist K V) : Nat → Ptr → Nat → Option (Skiplist K V × Nat)
  | _, none, cnt => some (l, cnt)
  | 0, some _, _ => none
  | fuel + 1, some p, cnt =>
    let next := l.getNext p 0
    (l.clearLevels p 0 (l.node p).height).clearLoop fuel next (cnt + 1)

/-- `Clear()`: the head loses every next pointer, the tail becomes `NULL`.
Returns the number of nodes. -/
def clear (l : Skiplist K V) : Option (Skiplist K V × Nat) :=
  let first := l.getNext head 0
  let l := { l.clearLevels head 0 (l.node head).height with tail := none }
  l.clearLoop l.nodes.length first 0

/-- `AddToFirst(key, value)` with `RandomHeight()` returning `height`: only a
key that does not sort after the first key is accepted, and it is linked
after the head at every level of its height. -/
def addToFirst (l : Skiplist K V) (key : K) (value : V) (height : Nat) : Skiplist K V × Bool :=
  let rejected := match l.getNext head 0 with
    | some first => decide (compare key (l.node first).key > 0)
    | none => false
  if rejected then (l, false)
  else
    let pre := List.replicate height (some head)
    let l : Skiplist K V := if height > l.maxHeight then { l with maxHeight := height } else l
    (l.linkNew key value height pre, true)

/-! ### The queries -/

/-- The test of `FindEqual` and `FindLessThan` on the next node: `NULL`, or a
node whose key `stop` holds of. -/
def stopsAt (l : Skiplist K V) (stop : K → Bool) : Ptr → Bool
  | none => true
  | some p => stop (l.node p).key

/-- The loop of `FindEqual` and `FindLessThan`, which differ only in the
test: move right until the next node stops the walk, then go down; at level
`0` the node is the result. -/
def descend (l : Skiplist K V) (stop : K → Bool) : Nat → Nat → Nat → Option Nat
  | 0, _, _ => none
  | fuel + 1, node, level =>
    let next := l.getNext node level
    if l.stopsAt stop next then
      if level = 0 then some node else descend l stop fuel node (level - 1)
    else descend l stop fuel (next.getD head) level

/-- `FindEqual(key)`: the last node whose key does not sort after `key`, or
the head. -/
def findEqual (l : Skiplist K V) (key : K) : Option Nat :=
  l.descend (fun k => decide (compare k key > 0)) l.fuel head (l.maxHeight - 1)

/-- `FindLessThan(key)`: the last node whose key sorts before `key`, or the
head. -/
def findLessThan (l : Skiplist K V) (key : K) : Option Nat :=
  l.descend (fun k => decide (compare k key ≥ 0)) l.fuel head (l.maxHeight - 1)

/-- `const V& Get(key)`: the value of the node `FindEqual` ends at, whatever
its key. -/
def getRef (l : Skiplist K V) (key : K) : Option V :=
  (l.findEqual compare key).map fun p => (l.node p).value

/-- `int Get(key, v)`: the value of the node `FindEqual` ends at if its key
equals `key` (`0`), otherwise `-1` (`none`). -/
def get (l : Skiplist K V) (key : K) : Option (Option V) :=
  (l.findEqual compare key).map fun p =>
    if compare (l.node p).key key = 0 then some (l.node p).value else none

/-- The loop of `GetSize()` at `node`, `cnt` nodes counted before it. -/
def getSizeLoop (l : Skiplist K V) : Nat → Nat → Nat → Option Nat
  | 0, _, _ => none
  | fuel + 1, node, cnt =>
    let cnt := cnt + 1
    match l.getNext node 0 with
    | none => some cnt
    | some tmp => getSizeLoop l fuel tmp cnt

/-- `GetSize()`: the number of nodes of level `0`. -/
def getSize (l : Skiplist K V) : Option Nat :=
  match l.getNext head 0 with
  | none => some 0
  | some node => l.getSizeLoop l.nodes.length node 0

end Operations

/-- `Skiplist::Iterator`: `node_`, `NULL` once past the end. `list_` is the
list each operation is given. -/
structure Iterator where
  node : Ptr
  deriving Repr, DecidableEq

namespace Iterator

/-- `Valid()`. -/
def valid (it : Iterator) : Bool := it.node.isSome

/-- `Next()`: the next node of level `0`. The C++ asserts `Valid()`; an
iterator past the end stays there. -/
def next (l : Skiplist K V) (it : Iterator) : Iterator :=
  ⟨it.node.bind fun p => l.getNext p 0⟩

/-- `Seek(k)`: the node after `FindLessThan(k)`. -/
def seek (compare : K → K → Int) (l : Skiplist K V) (k : K) : Option Iterator :=
  (l.findLessThan compare k).map fun p => next l ⟨some p⟩

/-- `SeekToFirst()`: the node after the head. -/
def seekToFirst (l : Skiplist K V) : Iterator := next l ⟨some head⟩

/-- `SeekToLast()`: `GetLast()`. -/
def seekToLast (l : Skiplist K V) : Iterator := ⟨l.getLast⟩

end Iterator

end Skiplist

end Fedb.Base
