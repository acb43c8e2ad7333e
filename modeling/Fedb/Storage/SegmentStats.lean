import Fedb.Storage.SegmentGc

/-! # The counters of a segment

A `Segment` keeps its statistics in counters updated by every operation
(`src/storage/segment.cc`): `idx_cnt_` (or `idx_cnt_vec_[j]` for each time
index of a segment of several), `pk_cnt_` and `idx_byte_size_`, and each
`KeyEntry` its own `count_`. Nothing recomputes them; `Put` creates keys
lazily, `Delete` only moves a key to the free list, `FreeEntry` adjusts some
counters and the collectors' loops others. This module states what the
counters count and shows that every operation keeps them so, from a fresh
segment on.

The key nodes of a segment are those of the index and those waiting on the
free list (`keyNodes`). The counters tally them (`Tally`): every node holds
one `KeyEntry` per time index (one in a segment of one), every `count_` is
the length of its list, `idx_cnt_vec_[j]` is the sum of the counts at `j`,
`pk_cnt_` the number of key nodes and `idx_byte_size_` the bytes of every
key node and record node, at their heights (`byteSum`). With `idx_cnt_`
as the sum of the counts in a segment of one time index, that is
`Accounted`.

A collection moves what it takes off the counts into `gc_idx_cnt`: the sum
of `gc_idx_cnt` and of all counts does not change (`recordSum`).

The proof goes by layers. A change of the key nodes whose counters change
by the same sums keeps a tally (`Tally.transfer`). The walk of the index
keeps any invariant of the counters that its body keeps at one node
(`walkIndex_keeps`); the bodies of the collectors over one time index are
all cuts of the node's record list (`CutStep`), the body of `GcAllType` a
cut of one list of the array per TTL. `FreeEntry` is the removal of a node,
list by list. Each operation gets its own lemma, and the run of any of
them from a fresh segment keeps `Accounted` (`Reachable`).

Where an operation is undefined (a collector of one time index reading a
node of several as one `KeyEntry`, `GcAllType` reading a node of one as an
array) there is no state after it; every state a collection does leave is
accounted.
-/

namespace Fedb.Storage

open Fedb.Base

namespace Segment

variable (sz : Sizes)

/-! ## What the counters count -/

/-- The key nodes a segment holds: those of the index, then those on the free list. -/
def keyNodes (s : Segment) : List EntryNode := s.entries ++ s.entryFreeList.map FreeNode.value

/-- The counts of the record lists at position `j` of the key nodes, summed. -/
def countSum (j : Nat) (ns : List EntryNode) : Nat := (ns.map fun n => (n.value.getD j default).count).sum

/-- Every count of the key nodes, summed. -/
def recordSum (ns : List EntryNode) : Nat := (ns.map fun n => (n.value.map KeyEntry.count).sum).sum

/-- The bytes of a key node itself in a segment of `tsCnt` time indexes, at
its height: `GetRecordPkMultiIdxSize` in a segment of several,
`GetRecordPkIdxSize` otherwise. -/
def pkBytes (keyEntryMaxHeight tsCnt : Nat) (n : EntryNode) : Nat :=
  if tsCnt > 1 then getRecordPkMultiIdxSize sz n.height n.key.length keyEntryMaxHeight tsCnt
  else getRecordPkIdxSize sz n.height n.key.length keyEntryMaxHeight

/-- The index bytes of a key node: its own, and those of its record nodes. -/
def nodeBytes (keyEntryMaxHeight tsCnt : Nat) (n : EntryNode) : Nat :=
  pkBytes sz keyEntryMaxHeight tsCnt n + (n.value.map fun e => tsBytes sz e.entries).sum

/-- The index bytes of the key nodes. -/
def byteSum (keyEntryMaxHeight tsCnt : Nat) (ns : List EntryNode) : Nat :=
  (ns.map (nodeBytes sz keyEntryMaxHeight tsCnt)).sum

/-- A change of the value leaves the bytes of the key node itself. -/
@[simp] theorem pkBytes_value (h t : Nat) (n : EntryNode) (v : List KeyEntry) :
    pkBytes sz h t { n with value := v } = pkBytes sz h t n := rfl

@[simp] theorem nodeBytes_eq (h t : Nat) (n : EntryNode) :
    nodeBytes sz h t n = pkBytes sz h t n + (n.value.map fun e => tsBytes sz e.entries).sum := rfl

@[simp] theorem countSum_nil (j : Nat) : countSum j [] = 0 := rfl

@[simp] theorem countSum_cons (j : Nat) (n : EntryNode) (ns : List EntryNode) :
    countSum j (n :: ns) = (n.value.getD j default).count + countSum j ns := by
  simp [countSum]

@[simp] theorem recordSum_cons (n : EntryNode) (ns : List EntryNode) :
    recordSum (n :: ns) = (n.value.map KeyEntry.count).sum + recordSum ns := by
  simp [recordSum]

@[simp] theorem byteSum_cons (h t : Nat) (n : EntryNode) (ns : List EntryNode) :
    byteSum sz h t (n :: ns) = nodeBytes sz h t n + byteSum sz h t ns := by
  simp [byteSum]

theorem countSum_perm {ns ns' : List EntryNode} (hp : ns.Perm ns') (j : Nat) :
    countSum j ns = countSum j ns' :=
  (hp.map _).sum_nat

theorem recordSum_perm {ns ns' : List EntryNode} (hp : ns.Perm ns') : recordSum ns = recordSum ns' :=
  (hp.map _).sum_nat

theorem byteSum_perm {ns ns' : List EntryNode} (hp : ns.Perm ns') (h t : Nat) :
    byteSum sz h t ns = byteSum sz h t ns' :=
  (hp.map _).sum_nat

theorem tsBytes_insert (d : DataNode) (xs : List DataNode) :
    tsBytes sz (Chain.insert DataNode.key timeComparator d xs) = getRecordTsIdxSize sz d.height + tsBytes sz xs := by
  have hp := ((Chain.insert_perm DataNode.key timeComparator d xs).map
    fun d => getRecordTsIdxSize sz d.height).sum_nat
  simp only [tsBytes, hp, List.map_cons, List.sum_cons]

theorem tsBytes_append (xs ys : List DataNode) : tsBytes sz (xs ++ ys) = tsBytes sz xs + tsBytes sz ys := by
  simp [tsBytes]

/-! ## The tally -/

/-- The counters of `s` other than `idx_cnt_` tally the key nodes `ns`. -/
structure Tally (s : Segment) (ns : List EntryNode) : Prop where
  /-- one record list per time index, one in a segment of one -/
  width : ∀ n ∈ ns, n.value.length = max s.tsCnt 1
  /-- `count_` is the length of its list -/
  count : ∀ n ∈ ns, ∀ e ∈ n.value, e.count = e.entries.length
  /-- `idx_cnt_vec_[j]` sums the counts at `j` -/
  idxCntVec : 1 < s.tsCnt → s.idxCntVec.length = s.tsCnt ∧ ∀ j < s.tsCnt, s.idxCntVec.getD j 0 = countSum j ns
  pkCnt : s.pkCnt = ns.length
  idxByteSize : s.idxByteSize = byteSum sz s.keyEntryMaxHeight s.tsCnt ns

/-- The counters of a segment count what it holds: `idx_cnt_` is the sum of
the counts in a segment of one time index, and the time indexes of
`ts_idx_map_` are positions of the arrays. -/
structure Accounted (s : Segment) : Prop where
  tsIdx : ∀ p ∈ s.tsIdxMap, p.2 < s.tsCnt
  tally : Tally sz s s.keyNodes
  idxCnt : s.tsCnt ≤ 1 → s.idxCnt = countSum 0 s.keyNodes

variable {sz}

theorem Tally.perm {s : Segment} {ns ns' : List EntryNode} (h : Tally sz s ns) (hp : ns.Perm ns') :
    Tally sz s ns' where
  width n hn := h.width n (hp.mem_iff.2 hn)
  count n hn := h.count n (hp.mem_iff.2 hn)
  idxCntVec ht := by
    obtain ⟨hl, hj⟩ := h.idxCntVec ht
    exact ⟨hl, fun j hjt => (hj j hjt).trans (countSum_perm hp j)⟩
  pkCnt := h.pkCnt.trans hp.length_eq
  idxByteSize := h.idxByteSize.trans (byteSum_perm sz hp _ _)

/-- A change of the counters and of the key nodes by the same sums keeps a
tally: the step from the nodes `ns` to `ns'` adds to each counter what it
adds to the sum it tallies. -/
theorem Tally.transfer {s s' : Segment} {ns ns' : List EntryNode} (h : Tally sz s ns)
    (ht : s'.tsCnt = s.tsCnt) (hh : s'.keyEntryMaxHeight = s.keyEntryMaxHeight)
    (hw : ∀ n ∈ ns', n.value.length = max s.tsCnt 1)
    (hc : ∀ n ∈ ns', ∀ e ∈ n.value, e.count = e.entries.length)
    (hv : 1 < s.tsCnt → s'.idxCntVec.length = s.idxCntVec.length ∧
      ∀ j < s.tsCnt, s'.idxCntVec.getD j 0 + countSum j ns = s.idxCntVec.getD j 0 + countSum j ns')
    (hp : s'.pkCnt + ns.length = s.pkCnt + ns'.length)
    (hb : s'.idxByteSize + byteSum sz s.keyEntryMaxHeight s.tsCnt ns =
      s.idxByteSize + byteSum sz s.keyEntryMaxHeight s.tsCnt ns') :
    Tally sz s' ns' where
  width := by rw [ht]; exact hw
  count := hc
  idxCntVec hlt := by
    rw [ht] at hlt ⊢
    obtain ⟨hl, hj⟩ := h.idxCntVec hlt
    obtain ⟨hl', hj'⟩ := hv hlt
    refine ⟨hl'.trans hl, fun j hjt => ?_⟩
    have := hj j hjt
    have := hj' j hjt
    omega
  pkCnt := by have := h.pkCnt; omega
  idxByteSize := by
    rw [ht, hh]
    have := h.idxByteSize
    omega

/-- A tally does not read `idx_cnt_`, the index or the free list. -/
theorem Tally.frame {s : Segment} {ns : List EntryNode} (h : Tally sz s ns) (idxCnt : Nat)
    (entries : List EntryNode) (entryFreeList : List FreeNode) :
    Tally sz { s with idxCnt := idxCnt, entries := entries, entryFreeList := entryFreeList } ns where
  width := h.width
  count := h.count
  idxCntVec := h.idxCntVec
  pkCnt := h.pkCnt
  idxByteSize := h.idxByteSize

/-- In a segment of one time index the counts at `0` are all the counts. -/
theorem countSum_zero_eq_recordSum {t : Nat} (ht : t ≤ 1) :
    ∀ (ns : List EntryNode), (∀ n ∈ ns, n.value.length = max t 1) → countSum 0 ns = recordSum ns
  | [], _ => rfl
  | n :: ns, hw => by
    have hn : n.value.length = 1 := by rw [hw n (by simp)]; omega
    obtain ⟨e, he⟩ := List.length_eq_one_iff.1 hn
    rw [countSum_cons, recordSum_cons, he,
      countSum_zero_eq_recordSum ht ns fun m hm => hw m (List.mem_cons_of_mem n hm)]
    simp

/-! ## The walk of the index -/

/-- The node a visit of the walk leaves, kept, unlinked or where it stops. -/
def Visit.node : Visit → EntryNode
  | .keep n => n
  | .unlink n => n
  | .stop n => n

/-- The walk of the index keeps an invariant of the state and of the key
nodes that reads the nodes up to order, and neither the index nor the free
list of the state, if the body keeps it at each node where it is defined and
leaves the free list. The invariant is carried over the nodes passed, those
to come and those on the free list. -/
theorem walkIndex_keeps (step : GcState → EntryNode → Option (GcState × Visit))
    (P : GcState → List EntryNode → Prop)
    (hperm : ∀ st ns ns', ns.Perm ns' → P st ns → P st ns')
    (hframe : ∀ st ns (es : List EntryNode) (fl : List FreeNode), P st ns →
      P { st with seg := { st.seg with entries := es, entryFreeList := fl } } ns)
    (hstep : ∀ st n ns v, step st n = some v → P st (n :: ns) →
      P v.1 (v.2.node :: ns) ∧ v.1.seg.entryFreeList = st.seg.entryFreeList) :
    ∀ (rest : List EntryNode) (st : GcState) (done : List EntryNode) (st' : GcState),
      walkIndex step st done rest = some st' →
        P st (done ++ rest ++ st.seg.entryFreeList.map FreeNode.value) → P st' st'.seg.keyNodes
  | [], st, done, st', hw, h => by
    rw [walkIndex, Option.some.injEq] at hw
    subst hw
    refine hframe st _ done.reverse st.seg.entryFreeList (hperm _ _ _ ?_ h)
    rw [List.append_nil]
    exact (List.reverse_perm done).symm.append_right _
  | n :: rest, st, done, st', hw, h => by
    have h' : P st (n :: (done ++ rest ++ st.seg.entryFreeList.map FreeNode.value)) :=
      hperm _ _ _ (by simp only [List.append_assoc]; exact List.perm_middle) h
    rw [walkIndex] at hw
    rcases hs : step st n with _ | ⟨st1, v⟩
    · -- the body is undefined at the node, and so is the walk
      rw [hs] at hw
      cases hw
    obtain ⟨hP, hfl⟩ := hstep st n _ _ hs h'
    rw [hs] at hw
    dsimp only at hP hfl
    cases v with
    | keep m =>
      -- the node joins those passed
      dsimp only [Visit.node] at hP hw
      refine walkIndex_keeps step P hperm hframe hstep rest st1 (m :: done) st' hw ?_
      rw [hfl]
      simpa using hP
    | unlink m =>
      -- the node moves to the free list
      dsimp only [Visit.node] at hP hw
      refine walkIndex_keeps step P hperm hframe hstep rest _ done st' hw ?_
      refine hperm _ _ _ ?_ (hframe st1 _ st1.seg.entries
        (Chain.insert FreeNode.key timeComparator ⟨st1.seg.gcVersion, m⟩ st1.seg.entryFreeList) hP)
      refine List.Perm.trans ?_ (List.Perm.append_left _
        ((Chain.insert_perm FreeNode.key timeComparator _ _).map FreeNode.value).symm)
      rw [hfl]
      exact List.perm_middle.symm
    | stop m =>
      -- the walk ends with the node and those to come in the index
      dsimp only [Visit.node] at hP hw
      rw [Option.some.injEq] at hw
      subst hw
      refine hframe st1 _ (done.reverse ++ m :: rest) st1.seg.entryFreeList (hperm _ _ _ ?_ hP)
      simp only [keyNodes, hfl, List.append_assoc, List.cons_append]
      refine List.Perm.symm (List.perm_middle.trans (List.Perm.cons m ?_))
      exact (List.reverse_perm done).append_right _

/-! ## Collections -/

variable (sz)

/-- What a collection from `st0` keeps up to `st`: the counters tally the
key nodes `ns`, the fields it does not write are those of `st0`, and what
left the counts is in `gc_idx_cnt`. -/
structure Collecting (st0 st : GcState) (ns : List EntryNode) : Prop where
  tally : Tally sz st.seg ns
  tsCnt : st.seg.tsCnt = st0.seg.tsCnt
  keyEntryMaxHeight : st.seg.keyEntryMaxHeight = st0.seg.keyEntryMaxHeight
  tsIdxMap : st.seg.tsIdxMap = st0.seg.tsIdxMap
  conserved : st.gc.idxCnt + recordSum ns = st0.gc.idxCnt + recordSum st0.seg.keyNodes
  gcMono : st0.gc.idxCnt ≤ st.gc.idxCnt

/-- What a split leaves of an entry `e`: the entry `r.1` keeps the records
before a cut of the list of `e` and the count of `e`, and `r.2` holds those
after the cut. -/
structure SplitOf (e : KeyEntry) (r : KeyEntry × List DataNode) : Prop where
  cut : Chain.IsCut e.entries (r.1.entries, r.2)
  count : r.1.count = e.count

/-- The body of a collector of one time index at a node: where it is
defined, the node stays as it is, or the node holds one entry, a split of it
is collected, and the node goes on with what is left. -/
def CutStep (step : GcState → EntryNode → Option (GcState × Visit)) : Prop :=
  ∀ st n v, step st n = some v → v = (st, .keep n) ∨
    ∃ e r, n.entry? = some e ∧ SplitOf e r ∧ v.1 = (collect sz st r).1 ∧
      v.2.node = n.setEntry (collect sz st r).2

variable {sz}

theorem Collecting.perm {st0 st : GcState} {ns ns' : List EntryNode} (h : Collecting sz st0 st ns)
    (hp : ns.Perm ns') : Collecting sz st0 st ns' :=
  ⟨h.tally.perm hp, h.tsCnt, h.keyEntryMaxHeight, h.tsIdxMap, (recordSum_perm hp) ▸ h.conserved, h.gcMono⟩

theorem Collecting.frame {st0 st : GcState} {ns : List EntryNode} (h : Collecting sz st0 st ns)
    (idxCnt : Nat) (es : List EntryNode) (fl : List FreeNode) :
    Collecting sz st0
      { st with seg := { st.seg with idxCnt := idxCnt, entries := es, entryFreeList := fl } } ns :=
  ⟨h.tally.frame idxCnt es fl, h.tsCnt, h.keyEntryMaxHeight, h.tsIdxMap, h.conserved, h.gcMono⟩

theorem Collecting.start {st : GcState} (h : Accounted sz st.seg) : Collecting sz st st st.seg.keyNodes :=
  ⟨h.tally, rfl, rfl, rfl, rfl, Nat.le_refl _⟩

/-- A collection goes on from `st` to `st'` where the segment keeps the
fields no collection writes, the counters tally the nodes `ns'`, and what
the counts lost since `st` is in `gc_idx_cnt`. -/
theorem Collecting.next {st0 st st' : GcState} {ns ns' : List EntryNode} (h : Collecting sz st0 st ns)
    (ht : Tally sz st'.seg ns')
    (hf : st'.seg.tsCnt = st.seg.tsCnt ∧ st'.seg.keyEntryMaxHeight = st.seg.keyEntryMaxHeight ∧
      st'.seg.tsIdxMap = st.seg.tsIdxMap)
    (hc : st'.gc.idxCnt + recordSum ns' = st.gc.idxCnt + recordSum ns) (hg : st.gc.idxCnt ≤ st'.gc.idxCnt) :
    Collecting sz st0 st' ns' where
  tally := ht
  tsCnt := hf.1.trans h.tsCnt
  keyEntryMaxHeight := hf.2.1.trans h.keyEntryMaxHeight
  tsIdxMap := hf.2.2.trans h.tsIdxMap
  conserved := hc.trans h.conserved
  gcMono := h.gcMono.trans hg

/-! ## The splits of a record list -/

theorem split_splitOf (e : KeyEntry) (time : UInt64) : SplitOf e (e.split time) :=
  ⟨Chain.split_isCut _ _ _ _, rfl⟩

theorem splitAt_splitOf {e : KeyEntry} {r : List DataNode × List DataNode} (h : Chain.IsCut e.entries r) :
    SplitOf e (e.splitAt r) :=
  ⟨h, rfl⟩

theorem splitIfFree_splitOf {e : KeyEntry} {r : KeyEntry × List DataNode} (h : SplitOf e r) :
    SplitOf e (splitIfFree e r) := by
  unfold splitIfFree
  split
  · exact h
  · exact ⟨Chain.isCut_self _, rfl⟩

theorem value_of_entry? {n : EntryNode} {e : KeyEntry} (h : n.entry? = some e) : n.value = [e] := by
  unfold EntryNode.entry? at h
  split at h
  · rename_i e' hv
    rw [hv, Option.some.inj h]
  · cases h

/-- The collection of a split of the entry of a node, which holds one: the
bytes of what is cut leave `idx_byte_size_`, its count leaves the entry's
and joins `gc_idx_cnt`. -/
theorem Collecting.collect {st0 st : GcState} {n : EntryNode} {ns : List EntryNode} {e : KeyEntry}
    {r : KeyEntry × List DataNode} (h : Collecting sz st0 st (n :: ns)) (hn : n.entry? = some e)
    (hr : SplitOf e r) :
    Collecting sz st0 (collect sz st r).1 (n.setEntry (collect sz st r).2 :: ns) := by
  have hv : n.value = [e] := value_of_entry? hn
  -- a node of one entry lies in a segment of one time index
  have h1 : st.seg.tsCnt ≤ 1 := by
    have := h.tally.width n (by simp)
    rw [hv, List.length_singleton] at this
    omega
  have hcnt : e.count = e.entries.length := h.tally.count n (by simp) e (by simp [hv])
  have hsplit : r.1.entries ++ r.2 = e.entries := hr.cut.append_eq
  have hlen12 : e.entries.length = r.1.entries.length + r.2.length := by
    rw [← hsplit, List.length_append]
  have hbytes : tsBytes sz e.entries = tsBytes sz r.1.entries + tsBytes sz r.2 := by
    rw [← hsplit, tsBytes_append]
  have hrc := hr.count
  have hseg := collect_seg sz st r
  have hgc := collect_gcIdxCnt sz st r
  rw [collect_entry]
  -- the node keeps its key and height, with the entry cut
  have hn' : (n.setEntry { r.1 with count := r.1.count - r.2.length }).value =
      [{ r.1 with count := r.1.count - r.2.length }] := by
    simp [EntryNode.setEntry, hv]
  have hold := h.tally.idxByteSize
  simp only [byteSum_cons, nodeBytes_eq, hv, List.map_cons, List.map_nil, List.sum_cons, List.sum_nil,
    hbytes] at hold
  refine h.next (h.tally.transfer (by rw [hseg]) (by rw [hseg]) ?_ ?_ (fun ht => absurd ht (by omega))
    (by rw [hseg]; simp) ?_) (by rw [hseg]; exact ⟨rfl, rfl, rfl⟩) ?_ (by rw [hgc]; omega)
  · intro m hm
    rcases List.mem_cons.1 hm with rfl | hm
    · rw [hn', List.length_singleton]
      omega
    · exact h.tally.width m (List.mem_cons_of_mem n hm)
  · intro m hm
    rcases List.mem_cons.1 hm with rfl | hm
    · rw [hn']
      intro e' he'
      rw [List.mem_singleton.1 he']
      simp only
      omega
    · exact h.tally.count m (List.mem_cons_of_mem n hm)
  · rw [hseg]
    simp only [byteSum_cons, nodeBytes_eq, hv, EntryNode.setEntry, pkBytes_value, List.set_cons_zero,
      List.map_cons, List.map_nil, List.sum_cons, List.sum_nil, hbytes]
    omega
  · simp only [recordSum_cons, hv, hn', List.map_cons, List.map_nil, List.sum_cons, List.sum_nil]
    rw [hgc]
    omega

/-- A collector of one time index keeps the counters: the walk keeps the
tally and leaves `idx_cnt_` to the end, which takes the collected count off
it. -/
theorem gcIndex_accounted {step : GcState → EntryNode → Option (GcState × Visit)} (hs : CutStep sz step)
    {st : GcState} (h : Accounted sz st.seg) {st' : GcState} (hg : gcIndex step st = some st') :
    Accounted sz st'.seg ∧
      st'.gc.idxCnt + recordSum st'.seg.keyNodes = st.gc.idxCnt + recordSum st.seg.keyNodes := by
  obtain ⟨stw, hw, rfl⟩ := Option.map_eq_some_iff.1 hg
  -- the walk keeps the tally and leaves `idx_cnt_` as it is
  have hstep : ∀ st' n ns v, step st' n = some v →
      Collecting sz st st' (n :: ns) ∧ st'.seg.idxCnt = st.seg.idxCnt →
      (Collecting sz st v.1 (v.2.node :: ns) ∧ v.1.seg.idxCnt = st.seg.idxCnt) ∧
        v.1.seg.entryFreeList = st'.seg.entryFreeList := by
    intro st' n ns v hv ⟨hP, hidx⟩
    rcases hs st' n v hv with rfl | ⟨e, r, he, hr, h1', h2'⟩
    · exact ⟨⟨hP, hidx⟩, rfl⟩
    · rw [h1', h2', collect_seg]
      exact ⟨⟨hP.collect he hr, hidx⟩, rfl⟩
  obtain ⟨hwalk, hi'⟩ := walkIndex_keeps step
    (fun st' ns => Collecting sz st st' ns ∧ st'.seg.idxCnt = st.seg.idxCnt)
    (fun _ _ _ hp h => ⟨h.1.perm hp, h.2⟩) (fun st' _ es fl h => ⟨h.1.frame st'.seg.idxCnt es fl, h.2⟩)
    hstep st.seg.entries st [] stw hw ⟨by simpa [keyNodes] using Collecting.start h, rfl⟩
  have hc := hwalk.conserved
  refine ⟨⟨?_, hwalk.tally.frame _ _ _, fun h1 => ?_⟩, hc⟩
  · simp only
    rw [hwalk.tsIdxMap, hwalk.tsCnt]
    exact h.tsIdx
  · -- the count collected comes off `idx_cnt_` once the walk is over
    have h1' : st.seg.tsCnt ≤ 1 := by rw [← hwalk.tsCnt]; exact h1
    have hw1 := hwalk.tally.width
    rw [hwalk.tsCnt] at hw1
    have hsum0 := countSum_zero_eq_recordSum h1' _ h.tally.width
    have hsum1 := countSum_zero_eq_recordSum h1' _ hw1
    have hm := hwalk.gcMono
    have hi := h.idxCnt h1'
    show stw.seg.idxCnt - (stw.gc.idxCnt - st.gc.idxCnt) = countSum 0 stw.seg.keyNodes
    rw [hsum1, hi', hi, hsum0]
    omega

/-! ## The bodies of the collectors of one time index -/

@[simp] theorem node_unlink_or_keep (c : Prop) [Decidable c] (n : EntryNode) :
    (if c then Visit.unlink n else .keep n).node = n := by
  split <;> rfl

/-- Each body reads the node's one entry, and cuts its record list by a
split of the chain, or leaves the node: only when the reader count allows
(`splitIfFree`). -/
theorem gc4HeadStep_cutStep (keepCnt : UInt64) : CutStep sz (gc4HeadStep sz keepCnt) := by
  intro st n v hv
  obtain ⟨e, he, rfl⟩ := Option.map_eq_some_iff.1 hv
  exact .inr ⟨e, _, he, splitIfFree_splitOf (splitAt_splitOf (Chain.splitByPos_isCut _ _)), rfl, rfl⟩

theorem gc4TTLStep_cutStep (time : UInt64) : CutStep sz (gc4TTLStep sz time) := by
  intro st n v hv
  obtain ⟨e, he, rfl⟩ := Option.map_eq_some_iff.1 hv
  dsimp only
  split
  · exact .inl rfl
  · split
    · exact .inl rfl
    · exact .inr ⟨e, _, he, splitIfFree_splitOf (split_splitOf _ _), rfl, by simp⟩

theorem gc4TTLAndHeadStep_cutStep (time keepCnt : UInt64) :
    CutStep sz (gc4TTLAndHeadStep sz time keepCnt) := by
  intro st n v hv
  obtain ⟨e, he, rfl⟩ := Option.map_eq_some_iff.1 hv
  dsimp only
  split
  · exact .inl rfl
  · split
    · exact .inl rfl
    · exact .inr ⟨e, _, he, splitIfFree_splitOf (splitAt_splitOf (Chain.splitByKeyAndPos_isCut _ _ _ _ _)),
        rfl, rfl⟩

theorem gc4TTLOrHeadStep_cutStep (time keepCnt : UInt64) :
    CutStep sz (gc4TTLOrHeadStep sz time keepCnt) := by
  intro st n v hv
  obtain ⟨e, he, rfl⟩ := Option.map_eq_some_iff.1 hv
  dsimp only
  split
  · exact .inl rfl
  · exact .inr ⟨e, _, he, splitIfFree_splitOf (splitAt_splitOf (Chain.splitByKeyOrPos_isCut _ _ _ _ _)),
      rfl, by simp⟩

/-! ## The collectors -/

variable (sz) in
/-- A collection from `st` with the result `r` keeps the counters: where it
is defined, they count what it leaves, and what left the counts went to
`gc_idx_cnt`. -/
def Keeps (st : GcState) (r : Option GcState) : Prop :=
  ∀ st', r = some st' → Accounted sz st'.seg ∧
    st'.gc.idxCnt + recordSum st'.seg.keyNodes = st.gc.idxCnt + recordSum st.seg.keyNodes

theorem Keeps.refl {st : GcState} (h : Accounted sz st.seg) : Keeps sz st (some st) := by
  intro st' hs
  cases hs
  exact ⟨h, rfl⟩

section One

variable {st : GcState} (h : Accounted sz st.seg)
include h

theorem gc4Head_keeps (keepCnt : UInt64) : Keeps sz st (gc4Head sz st keepCnt) := by
  unfold gc4Head
  split
  · exact .refl h
  · exact fun _ => gcIndex_accounted (gc4HeadStep_cutStep keepCnt) h

theorem gc4TTL_keeps (time : UInt64) : Keeps sz st (gc4TTL sz st time) :=
  fun _ => gcIndex_accounted (gc4TTLStep_cutStep time) h

theorem gc4TTLAndHead_keeps (time keepCnt : UInt64) : Keeps sz st (gc4TTLAndHead sz st time keepCnt) := by
  unfold gc4TTLAndHead
  split
  · exact .refl h
  · exact fun _ => gcIndex_accounted (gc4TTLAndHeadStep_cutStep time keepCnt) h

theorem gc4TTLOrHead_keeps (time keepCnt : UInt64) : Keeps sz st (gc4TTLOrHead sz st time keepCnt) := by
  unfold gc4TTLOrHead
  split
  · exact .refl h
  · split
    · exact gc4Head_keeps h keepCnt
    · split
      · exact gc4TTL_keeps h time
      · exact fun _ => gcIndex_accounted (gc4TTLOrHeadStep_cutStep time keepCnt) h

/-- `ExecuteGc(ttl)` runs one of the four, or none. -/
theorem executeGc_keeps (ttlSt : TTLSt) (curTime : UInt64) : Keeps sz st (executeGc sz st ttlSt curTime) := by
  unfold executeGc
  split
  · split
    · exact .refl h
    · exact gc4TTL_keeps h _
  · split
    · exact .refl h
    · exact gc4Head_keeps h _
  · split
    · exact .refl h
    · exact gc4TTLAndHead_keeps h _ _
  · split
    · exact .refl h
    · exact gc4TTLOrHead_keeps h _ _
  · exact .refl h

end One

/-! ## `GcAllType` over the arrays of several time indexes -/

/-- A counter of `idx_cnt_vec_` changed in place. -/
theorem getD_modify_self {v : List Nat} {pos : Nat} (f : Nat → Nat) (h : pos < v.length) :
    (v.modify pos f).getD pos 0 = f (v.getD pos 0) := by
  simp [List.getD_eq_getElem?_getD, List.getElem?_eq_getElem h]

/-- The other counters of `idx_cnt_vec_` as they were. -/
theorem getD_modify_of_ne {v : List Nat} {pos j : Nat} (f : Nat → Nat) (h : pos ≠ j) :
    (v.modify pos f).getD j 0 = v.getD j 0 := by
  simp [List.getD_eq_getElem?_getD, List.getElem?_modify_ne _ _ h]

/-- The list at `pos` of an array, and the array with `e'` there, hold the
lists of `e'` and of the array. -/
theorem getD_set_perm {arr : List KeyEntry} {pos : Nat} (e' : KeyEntry) (h : pos < arr.length) :
    (arr.getD pos default :: arr.set pos e').Perm (e' :: arr) := by
  have hd : arr.getD pos default = arr[pos] := by simp [List.getD_eq_getElem?_getD, List.getElem?_eq_getElem h]
  have := List.getD_set_perm_cons arr pos e'
  rwa [hd, ← Option.getD_some (a := arr[pos]) (b := e'), ← List.getElem?_eq_getElem h]

theorem getD_mem {arr : List KeyEntry} {pos : Nat} (h : pos < arr.length) : arr.getD pos default ∈ arr := by
  rw [List.getD_eq_getElem?_getD, List.getElem?_eq_getElem h, Option.getD_some]
  exact List.getElem_mem _

/-- A change of the list at `pos` of a node's array to `e'` by counters
that move with it: `idx_cnt_vec_[pos]` by the count in a segment of several
time indexes, `idx_byte_size_` by the index bytes, the others as they were. -/
theorem Tally.setAt {s s' : Segment} {n : EntryNode} {arr : List KeyEntry} {ns : List EntryNode}
    (h : Tally sz s ({ n with value := arr } :: ns)) {pos : Nat} (hpos : pos < max s.tsCnt 1)
    {e' : KeyEntry} (hcount : e'.count = e'.entries.length)
    (ht : s'.tsCnt = s.tsCnt) (hh : s'.keyEntryMaxHeight = s.keyEntryMaxHeight) (hp : s'.pkCnt = s.pkCnt)
    (hv : 1 < s.tsCnt → s'.idxCntVec.length = s.idxCntVec.length ∧
      s'.idxCntVec.getD pos 0 + (arr.getD pos default).count = s.idxCntVec.getD pos 0 + e'.count ∧
      ∀ j, pos ≠ j → s'.idxCntVec.getD j 0 = s.idxCntVec.getD j 0)
    (hb : s'.idxByteSize + tsBytes sz (arr.getD pos default).entries = s.idxByteSize + tsBytes sz e'.entries) :
    Tally sz s' ({ n with value := arr.set pos e' } :: ns) := by
  have hposl : pos < arr.length := by
    have := h.width _ (List.mem_cons_self ..)
    simp only at this
    omega
  have htsb := ((getD_set_perm e' hposl).map fun e => tsBytes sz e.entries).sum_nat
  simp only [List.map_cons, List.sum_cons] at htsb
  -- the array has `e'` at `pos`, and what it had elsewhere
  have hat_pos : (arr.set pos e').getD pos default = e' := by simp [List.getD_eq_getElem?_getD, hposl]
  have hat_ne : ∀ j, pos ≠ j → (arr.set pos e').getD j default = arr.getD j default := by
    intro j hj
    simp [List.getD_eq_getElem?_getD, hj]
  refine h.transfer ht hh ?_ ?_ ?_ (by rw [hp]; simp) ?_
  · intro m hm
    rcases List.mem_cons.1 hm with rfl | hm
    · simp only [List.length_set]
      exact h.width _ (List.mem_cons_self ..)
    · exact h.width m (List.mem_cons_of_mem _ hm)
  · intro m hm
    rcases List.mem_cons.1 hm with rfl | hm
    · intro e he
      rcases List.mem_or_eq_of_mem_set he with he | rfl
      · exact h.count _ (List.mem_cons_self ..) e he
      · exact hcount
    · exact h.count m (List.mem_cons_of_mem _ hm)
  · intro h1
    obtain ⟨hvl, hvpos, hvne⟩ := hv h1
    refine ⟨hvl, fun j _ => ?_⟩
    simp only [countSum_cons]
    by_cases hpj : pos = j
    · subst hpj
      rw [hat_pos]
      omega
    · rw [hvne j hpj, hat_ne j hpj]
  · simp only [byteSum_cons, nodeBytes_eq, pkBytes_value]
    omega

/-- Taking the records `cut` off the list at `pos` of a node's array, in a
segment of several time indexes, with `e'` left there: their bytes leave
`idx_byte_size_`, their count leaves `idx_cnt_vec_[pos]` and joins
`gc_idx_cnt`. -/
theorem Collecting.removeAt {st0 st st' : GcState} {n : EntryNode} {arr : List KeyEntry}
    {ns : List EntryNode} (h : Collecting sz st0 st ({ n with value := arr } :: ns)) (h1 : 1 < st.seg.tsCnt)
    {pos : Nat} (hpos : pos < st.seg.tsCnt) {cut : List DataNode} {e' : KeyEntry}
    (hsplit : e'.entries ++ cut = (arr.getD pos default).entries) (hcount : e'.count = e'.entries.length)
    (hseg : st'.seg = { st.seg with
      idxByteSize := st.seg.idxByteSize - tsBytes sz cut, idxCntVec := st.seg.idxCntVec.modify pos (· - cut.length) })
    (hgc : st'.gc.idxCnt = st.gc.idxCnt + cut.length) :
    Collecting sz st0 st' ({ n with value := arr.set pos e' } :: ns) := by
  have hposl : pos < arr.length := by
    have := h.tally.width _ (List.mem_cons_self ..)
    simp only at this
    omega
  have hcnt : (arr.getD pos default).count = (arr.getD pos default).entries.length :=
    h.tally.count _ (List.mem_cons_self ..) _ (getD_mem hposl)
  have hlen' : (arr.getD pos default).entries.length = e'.entries.length + cut.length := by
    rw [← hsplit, List.length_append]
  have hbytes : tsBytes sz (arr.getD pos default).entries = tsBytes sz e'.entries + tsBytes sz cut := by
    rw [← hsplit, tsBytes_append]
  -- the array with `e'` at `pos` has the counts and bytes of the array, less the cut
  have hperm := getD_set_perm e' hposl
  have hcs := (hperm.map KeyEntry.count).sum_nat
  have htsb := (hperm.map fun e => tsBytes sz e.entries).sum_nat
  simp only [List.map_cons, List.sum_cons] at hcs htsb
  -- so the counter at `pos` and `idx_byte_size_` hold at least what is cut
  obtain ⟨hvl, hvj⟩ := h.tally.idxCntVec h1
  have hv := hvj pos hpos
  rw [countSum_cons] at hv
  have hold := h.tally.idxByteSize
  simp only [byteSum_cons, nodeBytes_eq, pkBytes_value] at hold
  refine h.next (h.tally.setAt (by omega) hcount (by rw [hseg]) (by rw [hseg]) (by rw [hseg])
    (fun _ => ⟨by rw [hseg]; simp, ?_, ?_⟩) ?_) (by rw [hseg]; exact ⟨rfl, rfl, rfl⟩) ?_ (by rw [hgc]; omega)
  · rw [hseg]
    dsimp only at hv ⊢
    rw [getD_modify_self _ (by omega)]
    omega
  · intro j hj
    rw [hseg]
    exact getD_modify_of_ne _ hj
  · rw [hseg]
    dsimp only
    omega
  · -- what the list lost is in `gc_idx_cnt`
    simp only [recordSum_cons]
    rw [hgc]
    omega

/-- The collection of a split of the list at `pos` of a node's array, in a
segment of several time indexes: what `collect` takes off the counts leaves
`idx_cnt_vec_[pos]` too, as the loop of `GcAllType` writes it. -/
theorem Collecting.collectAt {st0 st : GcState} {n : EntryNode} {arr : List KeyEntry} {ns : List EntryNode}
    (h : Collecting sz st0 st ({ n with value := arr } :: ns)) (h1 : 1 < st.seg.tsCnt) {pos : Nat}
    (hpos : pos < st.seg.tsCnt) {r : KeyEntry × List DataNode} (hr : SplitOf (arr.getD pos default) r)
    {st' : GcState} {e' : KeyEntry} (hc : Segment.collect sz st r = (st', e')) :
    Collecting sz st0 { st' with seg := { st'.seg with
        idxCntVec := st'.seg.idxCntVec.modify pos (· - (st'.gc.idxCnt - st.gc.idxCnt)) } }
      ({ n with value := arr.set pos e' } :: ns) := by
  have he' : e' = { r.1 with count := r.1.count - r.2.length } := by
    rw [← collect_entry sz st, hc]
  have hseg := collect_seg sz st r
  have hgc := collect_gcIdxCnt sz st r
  rw [hc] at hseg hgc
  dsimp only at hseg hgc
  have hcnt : (arr.getD pos default).count = (arr.getD pos default).entries.length := by
    have hlen : arr.length = st.seg.tsCnt := by
      have := h.tally.width _ (List.mem_cons_self ..)
      simp only at this
      omega
    exact h.tally.count _ (List.mem_cons_self ..) _ (getD_mem (by omega : pos < arr.length))
  have hlen12 : r.1.entries.length + r.2.length = (arr.getD pos default).entries.length :=
    hr.cut.length_eq
  have hsplit' : e'.entries ++ r.2 = (arr.getD pos default).entries := by
    rw [he']
    exact hr.cut.append_eq
  have hcount' : e'.count = e'.entries.length := by
    rw [he', hr.count]
    dsimp only
    omega
  -- the counter at `pos` loses what `gc_idx_cnt` gained
  have hseg' : ({ st' with seg := { st'.seg with
      idxCntVec := st'.seg.idxCntVec.modify pos (· - (st'.gc.idxCnt - st.gc.idxCnt)) } } : GcState).seg =
      { st.seg with idxByteSize := st.seg.idxByteSize - tsBytes sz r.2,
                    idxCntVec := st.seg.idxCntVec.modify pos (· - r.2.length) } := by
    simp only [hseg, hgc, Nat.add_sub_cancel_left]
  exact h.removeAt h1 hpos hsplit' hcount' hseg' hgc

/-- Every split `GcAllType` makes of a record list is a split of the entry. -/
theorem gcAllTypeSplit_splitOf {ttl : TTLSt} {e : KeyEntry} {r : KeyEntry × List DataNode} {b : Bool}
    (h : gcAllTypeSplit ttl e = some (some (r, b))) : SplitOf e r := by
  unfold gcAllTypeSplit at h
  split at h
  · -- kAbsoluteTime
    split at h
    · cases h
    · split at h
      · cases h
      · cases h
        exact splitIfFree_splitOf (split_splitOf _ _)
  · -- kLatestTime
    cases h
    exact splitIfFree_splitOf (splitAt_splitOf (Chain.splitByPos_isCut _ _))
  · -- kAbsAndLat
    split at h
    · cases h
    · split at h
      · cases h
      · cases h
        exact splitIfFree_splitOf (splitAt_splitOf (Chain.splitByKeyAndPos_isCut _ _ _ _ _))
  · -- kAbsOrLat
    split at h
    · cases h
    · cases h
      refine splitIfFree_splitOf ?_
      split
      · exact splitAt_splitOf (Chain.splitByPos_isCut _ _)
      · split
        · exact split_splitOf _ _
        · exact splitAt_splitOf (Chain.splitByKeyOrPos_isCut _ _ _ _ _)
  · cases h

/-- The loop of `GcAllType` over the TTL map at one key node keeps the
collection going: each TTL it acts on cuts the list of its time index, in a
segment of several; in a segment of one it reads no list, and collects
nothing, or is undefined. `idx_cnt_` is not written. -/
theorem gcAllTypeLoop_collecting {st0 : GcState} {n : EntryNode} {ns : List EntryNode} :
    ∀ (kvs : List (Nat × TTLSt)) (st : GcState) (arr : List KeyEntry) (emptyCnt : Nat)
      (res : GcState × List KeyEntry × Option Nat),
      gcAllTypeLoop sz st arr emptyCnt kvs = some res → Collecting sz st0 st ({ n with value := arr } :: ns) →
        Collecting sz st0 res.1 ({ n with value := res.2.1 } :: ns) ∧
          res.1.seg.entryFreeList = st.seg.entryFreeList ∧ res.1.seg.idxCnt = st.seg.idxCnt ∧
          (st.seg.tsCnt ≤ 1 → res.1.gc.idxCnt = st.gc.idxCnt)
  | [], _, _, _, res, hl, h => by
    cases hl
    exact ⟨h, rfl, rfl, fun _ => rfl⟩
  | (raw, ttl) :: kvs, st, arr, emptyCnt, res, hl, h => by
    unfold gcAllTypeLoop at hl
    split at hl
    · exact gcAllTypeLoop_collecting kvs st arr emptyCnt res hl h
    · split at hl
      · exact gcAllTypeLoop_collecting kvs st arr emptyCnt res hl h
      · rename_i pos _
        split at hl
        · exact gcAllTypeLoop_collecting kvs st arr emptyCnt res hl h
        · rename_i hpos
          split at hl
          · -- the array of a segment of one time index: undefined
            cases hl
          rename_i h1
          have h1 : 1 < st.seg.tsCnt := by omega
          dsimp only at hl
          split at hl
          · cases hl
            exact ⟨h, rfl, rfl, fun h' => absurd h' (by omega)⟩
          · exact gcAllTypeLoop_collecting kvs st arr emptyCnt res hl h
          · -- a TTL that cuts the list at `pos`
            rename_i r emptied hsplit
            rcases hc : collect sz st r with ⟨st', e'⟩
            have hseg := collect_seg sz st r
            rw [hc] at hseg hl
            dsimp only at hseg hl
            have hnext := h.collectAt h1 (by omega) (gcAllTypeSplit_splitOf hsplit) hc
            obtain ⟨hk, hfl, hidx, -⟩ := gcAllTypeLoop_collecting kvs _ _ _ res hl hnext
            exact ⟨hk, by rw [hfl, hseg], by rw [hidx, hseg], fun h' => absurd h' (by omega)⟩

/-- The body of `GcAllType` leaves the state of its loop and the node with
the array the loop left, whether it keeps, unlinks or stops. -/
theorem gcAllTypeStep_eq {ttlStMap : List (Nat × TTLSt)} {st : GcState} {n : EntryNode} {v : GcState × Visit}
    (h : gcAllTypeStep sz ttlStMap st n = some v) :
    ∃ res, gcAllTypeLoop sz st n.value 0 ttlStMap = some res ∧ v.1 = res.1 ∧
      v.2.node = { n with value := res.2.1 } := by
  obtain ⟨⟨st', arr, _ | emptyCnt⟩, hl, rfl⟩ := Option.map_eq_some_iff.1 h
  · exact ⟨_, hl, rfl, rfl⟩
  · refine ⟨_, hl, ?_, ?_⟩ <;> dsimp only <;> split <;> rfl

/-- `GcAllType` keeps the counters. In a segment of several time indexes
its loop moves what it cuts from `idx_cnt_vec_` to `gc_idx_cnt`; in one of
one it collects nothing, so that `idx_cnt_`, which it does not write, still
counts every record. -/
theorem gcAllType_keeps {st : GcState} (h : Accounted sz st.seg) (ttlStMap : List (Nat × TTLSt)) :
    Keeps sz st (gcAllType sz st ttlStMap) := by
  intro st' hg
  have hstep : ∀ st' n ns v, gcAllTypeStep sz ttlStMap st' n = some v →
      Collecting sz st st' (n :: ns) ∧ st'.seg.idxCnt = st.seg.idxCnt ∧
        (st.seg.tsCnt ≤ 1 → st'.gc.idxCnt = st.gc.idxCnt) →
      (Collecting sz st v.1 (v.2.node :: ns) ∧ v.1.seg.idxCnt = st.seg.idxCnt ∧
        (st.seg.tsCnt ≤ 1 → v.1.gc.idxCnt = st.gc.idxCnt)) ∧
        v.1.seg.entryFreeList = st'.seg.entryFreeList := by
    intro st' n ns v hv ⟨hP, hidx, hgc⟩
    obtain ⟨res, hl, h1', h2'⟩ := gcAllTypeStep_eq hv
    rw [h1', h2']
    obtain ⟨hk, hfl, hidx', hgc'⟩ := gcAllTypeLoop_collecting ttlStMap st' n.value 0 res hl hP
    refine ⟨⟨hk, hidx'.trans hidx, fun h1 => ?_⟩, hfl⟩
    rw [hgc' (by rw [hP.tsCnt]; exact h1)]
    exact hgc h1
  obtain ⟨hwalk, hidx, hgc1⟩ := walkIndex_keeps (gcAllTypeStep sz ttlStMap)
    (fun st' ns => Collecting sz st st' ns ∧ st'.seg.idxCnt = st.seg.idxCnt ∧
      (st.seg.tsCnt ≤ 1 → st'.gc.idxCnt = st.gc.idxCnt))
    (fun _ _ _ hp h => ⟨h.1.perm hp, h.2⟩) (fun st' _ es fl h => ⟨h.1.frame st'.seg.idxCnt es fl, h.2⟩)
    hstep st.seg.entries st [] st' hg ⟨by simpa [keyNodes] using Collecting.start h, rfl, fun _ => rfl⟩
  refine ⟨⟨?_, hwalk.tally, fun h1 => ?_⟩, hwalk.conserved⟩
  · rw [hwalk.tsIdxMap, hwalk.tsCnt]
    exact h.tsIdx
  · -- with nothing collected, the counts are those `idx_cnt_` counted
    have h1' : st.seg.tsCnt ≤ 1 := by rw [← hwalk.tsCnt]; exact h1
    have hw1 := hwalk.tally.width
    rw [hwalk.tsCnt] at hw1
    have hsum0 := countSum_zero_eq_recordSum h1' _ h.tally.width
    have hsum1 := countSum_zero_eq_recordSum h1' _ hw1
    have hc := hwalk.conserved
    rw [hgc1 h1'] at hc
    rw [hsum1, hidx, h.idxCnt h1', hsum0]
    omega

/-- `ExecuteGc(ttl_st_map)` dispatches on the kind of segment itself. -/
theorem executeGcMap_keeps {st : GcState} (h : Accounted sz st.seg) (ttlStMap : List (Nat × TTLSt))
    (curTime : UInt64) : Keeps sz st (executeGcMap sz st ttlStMap curTime) := by
  unfold executeGcMap
  split
  · exact .refl h
  · split
    · exact executeGc_keeps h _ _
    · split
      · exact .refl h
      · split
        · exact .refl h
        · exact gcAllType_keeps h _

/-! ## Freeing the key nodes of the free list -/

variable (sz) in
/-- One round of the loop of `GcEntryFreeList`: `FreeEntry` and `pk_cnt_--`. -/
def freeOne (st : GcState) (node : FreeNode) : Option GcState :=
  (freeEntry sz st node.value).map fun st => { st with seg := { st.seg with pkCnt := st.seg.pkCnt - 1 } }

theorem gcEntryFreeList_eq (st : GcState) (version : UInt64) :
    gcEntryFreeList sz st version =
      (Chain.split FreeNode.key timeComparator version st.seg.entryFreeList).2.foldlM (freeOne sz)
        { st with seg := { st.seg with
          entryFreeList := (Chain.split FreeNode.key timeComparator version st.seg.entryFreeList).1 } } :=
  rfl

/-- `FreeEntry` splits every record list off whole. -/
theorem splitAll_eq (e : KeyEntry) : e.splitAll = e.entries := by
  unfold KeyEntry.splitAll
  split
  · rename_i h
    exact h.symm
  · rename_i first rest h
    rw [h]
    have hself : Chain.isAfter DataNode.key timeComparator first.key first = false := by
      simp [Chain.isAfter, timeComparator_pos]
    simp [Chain.split, hself]

variable (sz) in
/-- The loop of `FreeEntry` over the time indexes writes only
`idx_byte_size_` and `idx_cnt_vec_` of the segment. -/
theorem freeEntryLoop_seg (arr : List KeyEntry) :
    ∀ (is : List Nat) (st : GcState), ∃ b v,
      (freeEntryLoop sz arr is st).seg = { st.seg with idxByteSize := b, idxCntVec := v }
  | [], st => ⟨st.seg.idxByteSize, st.seg.idxCntVec, rfl⟩
  | i :: is, st => by
    unfold freeEntryLoop
    rcases hf : freeList sz st st.gc.idxCnt (arr.getD i default).splitAll with ⟨st', c⟩
    have hseg := freeList_seg sz (arr.getD i default).splitAll st st.gc.idxCnt
    rw [hf] at hseg
    dsimp only at hseg
    obtain ⟨b, v, hbv⟩ := freeEntryLoop_seg arr is
      { st' with gc := { st'.gc with idxCnt := c },
                 seg := { st'.seg with idxCntVec := st'.seg.idxCntVec.modify i (· - (c - st.gc.idxCnt)) } }
    refine ⟨b, v, ?_⟩
    dsimp only
    rw [hbv]
    simp only [hseg]

/-- The loop of `FreeEntry` empties the lists of the array one by one: after
the first `k`, the node holds empty lists there and the rest as it was. -/
theorem freeEntryLoop_collecting {st0 : GcState} {m : EntryNode} {ns : List EntryNode} (arr : List KeyEntry) :
    ∀ (j k : Nat) (st : GcState), k + j = arr.length → arr.length = st.seg.tsCnt → 1 < st.seg.tsCnt →
      Collecting sz st0 st ({ m with value := List.replicate k default ++ arr.drop k } :: ns) →
        Collecting sz st0 (freeEntryLoop sz arr (List.range' k j) st)
          ({ m with value := List.replicate arr.length default } :: ns)
  | 0, k, st, hk, _, _, h => by
    rw [Nat.add_zero] at hk
    subst hk
    rw [List.drop_length, List.append_nil] at h
    exact h
  | j + 1, k, st, hk, hlen, h1, h => by
    have hkl : k < arr.length := by omega
    -- the list at `k` is still the array's, and emptying it moves one more
    have hget : (List.replicate k (default : KeyEntry) ++ arr.drop k).getD k default = arr.getD k default := by
      rw [List.getD_eq_getElem?_getD, List.getElem?_append_right (by simp), List.length_replicate,
        Nat.sub_self, List.getElem?_drop, Nat.add_zero, ← List.getD_eq_getElem?_getD]
    have hset : (List.replicate k (default : KeyEntry) ++ arr.drop k).set k default =
        List.replicate (k + 1) default ++ arr.drop (k + 1) := by
      rw [List.set_append_right _ _ (by simp), List.length_replicate, Nat.sub_self,
        List.drop_eq_getElem_cons hkl, List.set_cons_zero, List.replicate_succ', List.append_assoc,
        List.singleton_append]
    rw [List.range'_succ]
    unfold freeEntryLoop
    rcases hf : freeList sz st st.gc.idxCnt (arr.getD k default).splitAll with ⟨st', c⟩
    have hseg := freeList_seg sz (arr.getD k default).splitAll st st.gc.idxCnt
    have hcnt := freeList_count sz (arr.getD k default).splitAll st st.gc.idxCnt
    rw [hf, splitAll_eq] at hseg hcnt
    dsimp only at hseg hcnt
    have hseg' : ({ st' with gc := { st'.gc with idxCnt := c },
                             seg := { st'.seg with
                               idxCntVec := st'.seg.idxCntVec.modify k (· - (c - st.gc.idxCnt)) } } : GcState).seg =
        { st.seg with idxByteSize := st.seg.idxByteSize - tsBytes sz (arr.getD k default).entries,
                      idxCntVec := st.seg.idxCntVec.modify k (· - (arr.getD k default).entries.length) } := by
      simp only [hseg, hcnt, Nat.add_sub_cancel_left]
    have hsplit : (default : KeyEntry).entries ++ (arr.getD k default).entries =
        (List.replicate k (default : KeyEntry) ++ arr.drop k |>.getD k default).entries := by
      rw [hget]
      rfl
    have hzero : (default : KeyEntry).count = (default : KeyEntry).entries.length := rfl
    have hnext := h.removeAt h1 (by omega : k < st.seg.tsCnt) hsplit hzero hseg' (by dsimp only; exact hcnt)
    rw [hset] at hnext
    dsimp only
    refine freeEntryLoop_collecting arr j (k + 1) _ (by omega) ?_ ?_ hnext
    · rw [hseg']
      exact hlen
    · rw [hseg']
      exact h1

/-- A key node all of whose lists are empty leaves with its own bytes and
one off `pk_cnt_`. -/
theorem Collecting.removeEmpty {st0 st st' : GcState} {m : EntryNode} {ns : List EntryNode}
    (h : Collecting sz st0 st (m :: ns)) (hm : ∀ e ∈ m.value, e = default)
    (hseg : st'.seg = { st.seg with
      idxByteSize := st.seg.idxByteSize - pkBytes sz st.seg.keyEntryMaxHeight st.seg.tsCnt m,
      pkCnt := st.seg.pkCnt - 1 })
    (hgc : st'.gc.idxCnt = st.gc.idxCnt) : Collecting sz st0 st' ns := by
  have hcount : (m.value.map KeyEntry.count).sum = 0 :=
    List.sum_eq_zero_iff_forall_eq_nat.2 fun c hc => by
      obtain ⟨e, he, rfl⟩ := List.mem_map.1 hc
      rw [hm e he]
      rfl
  have hbytes : (m.value.map fun e => tsBytes sz e.entries).sum = 0 :=
    List.sum_eq_zero_iff_forall_eq_nat.2 fun c hc => by
      obtain ⟨e, he, rfl⟩ := List.mem_map.1 hc
      rw [hm e he]
      rfl
  have hat : ∀ j, (m.value.getD j default).count = 0 := by
    intro j
    rw [List.getD_eq_getElem?_getD]
    cases hj : m.value[j]? with
    | none => rfl
    | some e => rw [Option.getD_some, hm e (List.mem_of_getElem? hj)]; rfl
  have hold := h.tally.idxByteSize
  have hpk := h.tally.pkCnt
  simp only [byteSum_cons, nodeBytes_eq, hbytes, List.length_cons] at hold hpk
  refine h.next (h.tally.transfer (by rw [hseg]) (by rw [hseg])
    (fun n hn => h.tally.width n (List.mem_cons_of_mem m hn))
    (fun n hn => h.tally.count n (List.mem_cons_of_mem m hn)) ?_ (by rw [hseg]; simp; omega) ?_)
    (by rw [hseg]; exact ⟨rfl, rfl, rfl⟩) ?_ (by rw [hgc])
  · intro _
    refine ⟨by rw [hseg], fun j _ => ?_⟩
    rw [hseg, countSum_cons, hat, Nat.zero_add]
  · rw [hseg]
    simp only [byteSum_cons, nodeBytes_eq, hbytes]
    omega
  · rw [recordSum_cons, hcount, hgc]
    omega

/-- A key node of one time index leaves with its list: the records and the
node's own bytes off `idx_byte_size_`, the records off `idx_cnt_` for
`gc_idx_cnt`, and one off `pk_cnt_`. -/
theorem Collecting.removeSingle {st0 st st' : GcState} {m : EntryNode} {ns : List EntryNode} {e : KeyEntry}
    (h : Collecting sz st0 st (m :: ns)) (h1 : ¬ 1 < st.seg.tsCnt) (hm : m.value = [e])
    (hseg : st'.seg = { st.seg with
      idxByteSize := st.seg.idxByteSize - tsBytes sz e.entries - pkBytes sz st.seg.keyEntryMaxHeight st.seg.tsCnt m,
      idxCnt := st.seg.idxCnt - e.entries.length, pkCnt := st.seg.pkCnt - 1 })
    (hgc : st'.gc.idxCnt = st.gc.idxCnt + e.entries.length) : Collecting sz st0 st' ns := by
  have hcnt : e.count = e.entries.length := h.tally.count _ (List.mem_cons_self ..) e (by simp [hm])
  have hold := h.tally.idxByteSize
  have hpk := h.tally.pkCnt
  simp only [byteSum_cons, nodeBytes_eq, hm, List.map_cons, List.map_nil, List.sum_cons, List.sum_nil,
    List.length_cons] at hold hpk
  refine h.next (h.tally.transfer (by rw [hseg]) (by rw [hseg])
    (fun n hn => h.tally.width n (List.mem_cons_of_mem _ hn))
    (fun n hn => h.tally.count n (List.mem_cons_of_mem _ hn)) (fun h' => absurd h' h1)
    (by rw [hseg]; simp; omega) ?_) (by rw [hseg]; exact ⟨rfl, rfl, rfl⟩) ?_ (by rw [hgc]; omega)
  · rw [hseg]
    simp only [byteSum_cons, nodeBytes_eq, hm, List.map_cons, List.map_nil, List.sum_cons, List.sum_nil]
    omega
  · simp only [recordSum_cons, hm, List.map_cons, List.map_nil, List.sum_cons, List.sum_nil]
    rw [hgc]
    omega

variable (sz) in
/-- `FreeEntry` of a key node of one time index: its records and its own
bytes leave `idx_byte_size_`, its records leave `idx_cnt_` for `gc_idx_cnt`. -/
theorem freeEntry_single {st : GcState} {m : EntryNode} {e : KeyEntry} (h1 : ¬ 1 < st.seg.tsCnt)
    (hm : m.value = [e]) :
    ∃ st', freeEntry sz st m = some st' ∧
      st'.seg = { st.seg with
        idxByteSize := st.seg.idxByteSize - tsBytes sz e.entries - pkBytes sz st.seg.keyEntryMaxHeight st.seg.tsCnt m,
        idxCnt := st.seg.idxCnt - e.entries.length } ∧
      st'.gc.idxCnt = st.gc.idxCnt + e.entries.length := by
  unfold freeEntry
  rw [if_neg h1, entry?_of_value hm, Option.map_some, splitAll_eq]
  rcases hf : freeList sz st st.gc.idxCnt e.entries with ⟨st', c⟩
  have hseg := freeList_seg sz e.entries st st.gc.idxCnt
  have hcnt := freeList_count sz e.entries st st.gc.idxCnt
  rw [hf] at hseg hcnt
  dsimp only at hseg hcnt ⊢
  refine ⟨_, rfl, ?_, hcnt⟩
  rw [hseg, hcnt, Nat.add_sub_cancel_left]
  simp [pkBytes, h1]

/-- One round of `GcEntryFreeList` is defined, removes a key node from those
the counters tally, and keeps `idx_cnt_` the sum of the counts in a segment
of one time index. -/
theorem Collecting.freeNode {st0 st : GcState} {node : FreeNode} {ns : List EntryNode}
    (h : Collecting sz st0 st (node.value :: ns))
    (hi : st.seg.tsCnt ≤ 1 → st.seg.idxCnt = countSum 0 (node.value :: ns)) :
    ∃ st', freeOne sz st node = some st' ∧ Collecting sz st0 st' ns ∧
      (st'.seg.tsCnt ≤ 1 → st'.seg.idxCnt = countSum 0 ns) ∧
      st'.seg.entries = st.seg.entries ∧ st'.seg.entryFreeList = st.seg.entryFreeList := by
  by_cases h1 : 1 < st.seg.tsCnt
  · -- several time indexes: the loop empties the lists, then the node leaves
    have hlen : node.value.value.length = st.seg.tsCnt := by
      have := h.tally.width _ (List.mem_cons_self ..)
      omega
    have hloop := freeEntryLoop_collecting (m := node.value) node.value.value st.seg.tsCnt 0 st
      (by rw [hlen, Nat.zero_add]) hlen h1 (by simpa using h)
    obtain ⟨b, v, hbv⟩ := freeEntryLoop_seg sz node.value.value (List.range' 0 st.seg.tsCnt) st
    have hF : freeOne sz st node =
        let st1 := freeEntryLoop sz node.value.value (List.range' 0 st.seg.tsCnt) st
        some { st1 with seg := { st1.seg with
          idxByteSize := st1.seg.idxByteSize - pkBytes sz st.seg.keyEntryMaxHeight st.seg.tsCnt node.value,
          pkCnt := st1.seg.pkCnt - 1 } } := by
      unfold freeOne freeEntry
      rw [if_pos h1, List.range_eq_range', Option.map_some]
      simp only [hbv, pkBytes, if_pos h1]
    generalize freeEntryLoop sz node.value.value (List.range' 0 st.seg.tsCnt) st = st1 at hloop hbv hF
    dsimp only at hF
    refine ⟨_, hF, hloop.removeEmpty (fun e he => List.eq_of_mem_replicate he) ?_ rfl, fun h' => ?_, ?_, ?_⟩
    · rw [pkBytes_value, hbv]
      rfl
    · -- the segment has several time indexes still
      have := hloop.tsCnt
      simp only [hbv] at h' this
      omega
    · show st1.seg.entries = _
      rw [hbv]
    · show st1.seg.entryFreeList = _
      rw [hbv]
  · -- one time index: the node's single list and the node go at once
    have hlen : node.value.value.length = 1 := by
      have := h.tally.width _ (List.mem_cons_self ..)
      omega
    obtain ⟨e, hm⟩ := List.length_eq_one_iff.1 hlen
    obtain ⟨st1, hfe, hseg0, hgc⟩ := freeEntry_single sz h1 hm
    refine ⟨{ st1 with seg := { st1.seg with pkCnt := st1.seg.pkCnt - 1 } }, by rw [freeOne, hfe, Option.map_some],
      h.removeSingle h1 hm (by simp only [hseg0]) hgc, fun _ => ?_, by simp only [hseg0], by simp only [hseg0]⟩
    have hcnt : e.count = e.entries.length := h.tally.count _ (List.mem_cons_self ..) e (by simp [hm])
    have hi' := hi (by omega)
    rw [countSum_cons, hm] at hi'
    simp only [List.getD_cons_zero] at hi'
    simp only [hseg0]
    omega

/-- `GcEntryFreeList(version)` frees the key nodes put on the free list at or
before the version, one by one; the counters then tally the nodes left. -/
theorem gcEntryFreeList_keeps {st : GcState} (h : Accounted sz st.seg) (version : UInt64) :
    Keeps sz st (gcEntryFreeList sz st version) := by
  intro stF hg
  rw [gcEntryFreeList_eq] at hg
  have hcut := Chain.split_isCut FreeNode.key timeComparator version st.seg.entryFreeList
  generalize Chain.split FreeNode.key timeComparator version st.seg.entryFreeList = r at hcut hg
  obtain ⟨kept, cut⟩ := r
  have happ : kept ++ cut = st.seg.entryFreeList := hcut.append_eq
  -- the loop over the nodes cut off, carried over the nodes still to free
  have hfold : ∀ (rest : List FreeNode) (st' : GcState),
      Collecting sz st st' (st.seg.entries ++ kept.map FreeNode.value ++ rest.map FreeNode.value) →
      (st'.seg.tsCnt ≤ 1 →
        st'.seg.idxCnt = countSum 0 (st.seg.entries ++ kept.map FreeNode.value ++ rest.map FreeNode.value)) →
      st'.seg.entries = st.seg.entries → st'.seg.entryFreeList = kept →
      ∃ res, rest.foldlM (freeOne sz) st' = some res ∧
        Collecting sz st res (st.seg.entries ++ kept.map FreeNode.value) ∧
        (res.seg.tsCnt ≤ 1 → res.seg.idxCnt = countSum 0 (st.seg.entries ++ kept.map FreeNode.value)) ∧
        res.seg.entries = st.seg.entries ∧ res.seg.entryFreeList = kept := by
    intro rest
    induction rest with
    | nil =>
      intro st' h1 h2 h3 h4
      simp only [List.map_nil, List.append_nil] at h1 h2
      exact ⟨st', rfl, h1, h2, h3, h4⟩
    | cons node rest ih =>
      intro st' h1 h2 h3 h4
      have hp : (st.seg.entries ++ kept.map FreeNode.value ++ (node :: rest).map FreeNode.value).Perm
          (node.value :: (st.seg.entries ++ kept.map FreeNode.value ++ rest.map FreeNode.value)) := by
        rw [List.map_cons]
        exact List.perm_middle
      obtain ⟨st1, hf, c1, c2, c3, c4⟩ := (h1.perm hp).freeNode fun ht => (h2 ht).trans (countSum_perm hp 0)
      obtain ⟨res, hres, hrest⟩ := ih st1 c1 c2 (c3.trans h3) (c4.trans h4)
      exact ⟨res, by rw [List.foldlM_cons, hf]; exact hres, hrest⟩
  have hnodes : st.seg.keyNodes = st.seg.entries ++ kept.map FreeNode.value ++ cut.map FreeNode.value := by
    rw [keyNodes, ← happ, List.map_append, List.append_assoc]
  obtain ⟨res, hres, c1, c2, c3, c4⟩ := hfold cut { st with seg := { st.seg with entryFreeList := kept } }
    (by simpa [hnodes] using (Collecting.start h).frame st.seg.idxCnt st.seg.entries kept)
    (fun ht => by rw [← hnodes]; exact h.idxCnt ht) rfl rfl
  rw [hres, Option.some.injEq] at hg
  subst hg
  have hfinal : res.seg.keyNodes = st.seg.entries ++ kept.map FreeNode.value := by
    rw [keyNodes, c3, c4]
  refine ⟨⟨?_, hfinal ▸ c1.tally, fun ht => hfinal ▸ c2 ht⟩, hfinal ▸ c1.conserved⟩
  rw [c1.tsIdxMap, c1.tsCnt]
  exact h.tsIdx

/-- `GcFreeList()`: the free list up to `gc_deleted_pk_version_delta`
versions back, if the version has reached it. -/
theorem gcFreeList_keeps {st : GcState} (h : Accounted sz st.seg) (gcDeletedPkVersionDelta : UInt64) :
    Keeps sz st (gcFreeList sz st gcDeletedPkVersionDelta) := by
  unfold gcFreeList
  dsimp only
  split
  · exact .refl h
  · exact gcEntryFreeList_keeps h _

end Segment

end Fedb.Storage
