import Fedb.Storage.SegmentStats

/-! # The runs of a segment

The writes of a segment (`src/storage/segment.cc`) count what they add as
they add it: `Put(key, time, row)` adds the record's bytes and `idx_cnt_`, and
the key's bytes and `pk_cnt_` where it links a new key node;
`Put(key, ts_dimension, row)` does so once per time index it writes, creating
the key's array at the first, and links or writes back the array at the end.
`Delete` only moves a key node to the free list, which the counters count as
well. Each write keeps the counters of `SegmentStats` (`Accounted`).

With the collectors of `SegmentStats`, every operation a segment offers is
an `Op`; its `step` gives no state where the C++ is undefined, as where a
collector reads a key node's value as the wrong type. A run from a fresh
segment (`Reachable`) keeps the counters, and every collection on the way
moves exactly what it takes off the counts into `gc_idx_cnt`
(`segment_counters`).
-/

namespace Fedb.Storage

open Fedb.Base

namespace Segment

variable {sz : Sizes}

/-! ## A record put into a list -/

@[simp] theorem entryPut_count (e : KeyEntry) (d : DataNode) : (e.put d).count = e.count + 1 := rfl

theorem entryPut_length (e : KeyEntry) (d : DataNode) : (e.put d).entries.length = e.entries.length + 1 := by
  simp [KeyEntry.put, (Chain.insert_perm DataNode.key timeComparator d e.entries).length_eq]

variable (sz) in
theorem tsBytes_entryPut (e : KeyEntry) (d : DataNode) :
    tsBytes sz (e.put d).entries = tsBytes sz e.entries + getRecordTsIdxSize sz d.height := by
  rw [KeyEntry.put, tsBytes_insert]
  omega

/-- A record put into the list at `pos` of a node's array, with the counters
that count it: `idx_cnt_vec_[pos]` in a segment of several time indexes and
`idx_byte_size_` by the record node's bytes. -/
theorem Tally.addAt {s s' : Segment} {n : EntryNode} {arr : List KeyEntry} {ns : List EntryNode}
    (h : Tally sz s ({ n with value := arr } :: ns)) {pos : Nat} (hpos : pos < max s.tsCnt 1) (d : DataNode)
    (ht : s'.tsCnt = s.tsCnt) (hh : s'.keyEntryMaxHeight = s.keyEntryMaxHeight) (hp : s'.pkCnt = s.pkCnt)
    (hv : 1 < s.tsCnt → s'.idxCntVec = s.idxCntVec.modify pos (· + 1))
    (hb : s'.idxByteSize = s.idxByteSize + getRecordTsIdxSize sz d.height) :
    Tally sz s' ({ n with value := arr.modify pos (·.put d) } :: ns) := by
  have hposl : pos < arr.length := by
    have := h.width _ (List.mem_cons_self ..)
    simp only at this
    omega
  have hcnt : (arr.getD pos default).count = (arr.getD pos default).entries.length :=
    h.count _ (List.mem_cons_self ..) _ (getD_mem hposl)
  rw [List.modify_eq_set, ← List.getD_eq_getElem?_getD]
  refine h.setAt hpos (by rw [entryPut_count, entryPut_length, hcnt]) ht hh hp (fun h1 => ?_) ?_
  · -- the counter of the list at `pos` counts the record, the others stay
    have hvl : pos < s.idxCntVec.length := by
      rw [(h.idxCntVec h1).1]
      omega
    rw [hv h1]
    refine ⟨List.length_modify .., ?_, fun j hj => getD_modify_of_ne _ hj⟩
    rw [getD_modify_self _ hvl, entryPut_count]
    omega
  · rw [hb, tsBytes_entryPut]
    omega

/-- A key node joins the tallied ones, with the counters that count it. -/
theorem Tally.cons {s s' : Segment} {ns : List EntryNode} (h : Tally sz s ns) {node : EntryNode}
    (ht : s'.tsCnt = s.tsCnt) (hh : s'.keyEntryMaxHeight = s.keyEntryMaxHeight)
    (hw : node.value.length = max s.tsCnt 1) (hc : ∀ e ∈ node.value, e.count = e.entries.length)
    (hv : 1 < s.tsCnt → s'.idxCntVec.length = s.idxCntVec.length ∧
      ∀ j < s.tsCnt, s'.idxCntVec.getD j 0 = s.idxCntVec.getD j 0 + (node.value.getD j default).count)
    (hp : s'.pkCnt = s.pkCnt + 1)
    (hb : s'.idxByteSize = s.idxByteSize + nodeBytes sz s.keyEntryMaxHeight s.tsCnt node) :
    Tally sz s' (node :: ns) := by
  refine h.transfer ht hh ?_ ?_ ?_ (by rw [hp, List.length_cons]; omega) (by rw [byteSum_cons, hb]; omega)
  · intro m hm
    rcases List.mem_cons.1 hm with rfl | hm
    · exact hw
    · exact h.width m hm
  · intro m hm
    rcases List.mem_cons.1 hm with rfl | hm
    · exact hc
    · exact h.count m hm
  · intro h1
    obtain ⟨hl, hj⟩ := hv h1
    refine ⟨hl, fun j hjt => ?_⟩
    rw [countSum_cons, hj j hjt]
    omega

/-! ## The key nodes under the writes -/

/-- A write through `Get` replaces the node it finds among the key nodes. -/
theorem keyNodes_modifyEntry {s : Segment} {key : Slice} {n : EntryNode} (f : EntryNode → EntryNode)
    (hg : s.getEntry key = some n) :
    ∃ R, s.keyNodes.Perm (n :: R) ∧ (s.modifyEntry key f).keyNodes.Perm (f n :: R) := by
  obtain ⟨ys, zs, hxs, hmod⟩ := Chain.modify_of_get EntryNode.key sliceCompare (f := f) hg
  refine ⟨ys ++ zs ++ s.entryFreeList.map FreeNode.value, ?_, ?_⟩
  · rw [keyNodes, hxs, List.append_assoc, List.append_assoc]
    exact List.perm_middle
  · simp only [keyNodes, modifyEntry]
    rw [hmod, List.append_assoc, List.append_assoc]
    exact List.perm_middle

theorem keyNodes_insert (s : Segment) (node : EntryNode) :
    ({ s with entries := Chain.insert EntryNode.key sliceCompare node s.entries } : Segment).keyNodes.Perm
      (node :: s.keyNodes) :=
  (Chain.insert_perm EntryNode.key sliceCompare node s.entries).append_right _

/-- `Delete` moves a key node from the index to the free list. -/
theorem keyNodes_delete (s : Segment) (key : Slice) : (s.delete key).1.keyNodes.Perm s.keyNodes := by
  unfold delete
  split
  · exact List.Perm.refl _
  · rename_i entries node heq
    have hp := Chain.remove_perm EntryNode.key sliceCompare key s.entries
    rw [heq] at hp
    simp only [keyNodes, Option.toList_some, List.singleton_append] at hp ⊢
    -- the node unlinked joins the free list
    have hfl : (entries ++ (Chain.insert FreeNode.key timeComparator ⟨s.gcVersion, node⟩ s.entryFreeList).map
        FreeNode.value).Perm (entries ++ node :: s.entryFreeList.map FreeNode.value) :=
      ((Chain.insert_perm FreeNode.key timeComparator _ _).map FreeNode.value).append_left _
    exact hfl.trans (List.perm_middle.trans (hp.append_right _).symm)

/-! ## `Put` of one timestamp -/

theorem getD_modify_put {arr : List KeyEntry} {pos : Nat} (d : DataNode) (h : pos < arr.length) :
    (arr.modify pos (·.put d)).getD pos default = (arr.getD pos default).put d := by
  simp [List.getD_eq_getElem?_getD, List.getElem?_eq_getElem h]

/-- `Put(key, time, row)`: the record joins the list of its key, linked in a
new key node if the key is absent. A segment of several time indexes is left
as it is. -/
theorem put_accounted {s : Segment} (h : Accounted sz s) (key : Slice) (time : UInt64)
    (row keyHeight height : Nat) : Accounted sz (s.put sz key time row keyHeight height) := by
  unfold put
  split
  · exact h
  · rename_i h1
    have h1' : s.tsCnt ≤ 1 := by omega
    dsimp only
    split
    · -- the key is there: the record joins its list
      rename_i n hg
      obtain ⟨R, hR, hR'⟩ := keyNodes_modifyEntry
        (fun n => { n with value := n.value.modify 0 (·.put ⟨time, row, height⟩) }) hg
      have ht : Tally sz s ({ n with value := n.value } :: R) := h.tally.perm hR
      have hn : 0 < n.value.length := by
        have := h.tally.width n (hR.mem_iff.2 (List.mem_cons_self ..))
        omega
      refine ⟨h.tsIdx, (ht.addAt (by omega) ⟨time, row, height⟩ ?_ ?_ ?_ ?_ ?_).perm hR'.symm, fun _ => ?_⟩
      · rfl
      · rfl
      · rfl
      · intro h'
        exact absurd h' h1
      · rfl
      · -- `idx_cnt_` counts the record
        have e1 := countSum_perm hR' 0
        have e2 := countSum_perm hR 0
        simp only [countSum_cons, getD_modify_put _ hn, entryPut_count] at e1 e2
        have e3 := h.idxCnt h1'
        show s.idxCnt + 1 = countSum 0 (s.modifyEntry key _).keyNodes
        omega
    · -- a new key node holds the record
      refine ⟨h.tsIdx, (h.tally.cons ?_ ?_ ?_ ?_ ?_ ?_ ?_).perm
        (keyNodes_insert s ⟨key, [(default : KeyEntry).put ⟨time, row, height⟩], keyHeight⟩).symm, fun _ => ?_⟩
      · rfl
      · rfl
      · simp only [List.length_singleton]
        omega
      · intro e he
        rw [List.mem_singleton] at he
        subst he
        rw [entryPut_count, entryPut_length]
        rfl
      · intro h'
        exact absurd h' h1
      · rfl
      · simp only [nodeBytes_eq, pkBytes, h1, if_false, List.map_singleton, List.sum_singleton, tsBytes_entryPut]
        show _ = _ + (_ + (tsBytes sz [] + _))
        simp only [tsBytes, List.map_nil, List.sum_nil]
        omega
      · -- `idx_cnt_` counts the record of the new node
        have e1 := countSum_perm (keyNodes_insert s ⟨key, [(default : KeyEntry).put ⟨time, row, height⟩], keyHeight⟩) 0
        simp only [countSum_cons, List.getD_cons_zero, entryPut_count] at e1
        have e3 := h.idxCnt h1'
        have e4 : (default : KeyEntry).count = 0 := rfl
        exact (show s.idxCnt + 1 = (default : KeyEntry).count + 1 + countSum 0 s.keyNodes by omega).trans e1.symm

/-! ## `Put` of several timestamps -/

theorem tsIdxFind_lt {s : Segment} (h : Accounted sz s) {raw pos : Nat}
    (hf : tsIdxFind s.tsIdxMap raw = some pos) : pos < s.tsCnt := by
  unfold tsIdxFind at hf
  obtain ⟨q, hq, rfl⟩ := Option.map_eq_some_iff.1 hf
  exact h.tsIdx q (List.mem_of_find?_eq_some hq)

theorem getD_replicate_default (k j : Nat) : (List.replicate k (default : KeyEntry)).getD j default = default := by
  rw [List.getD_eq_getElem?_getD, List.getElem?_replicate]
  split <;> rfl

variable (sz) in
/-- What the loop of `Put(key, ts_dimension, row)` keeps of the segment `s0`
it starts at. Without an array nothing has changed. With one, the segment
has several time indexes and the fields of `s0` but for the three counters,
and its counters tally the key nodes of `s0` with the key's node holding the
array: a new node where the loop created it, the node found otherwise. -/
def PutTsInv (s0 : Segment) (key : Slice) (keyHeight : Nat) :
    Segment × Option (List KeyEntry × Bool) → Prop
  | (s, none) => s = s0
  | (s, some (arr, created)) =>
    1 < s0.tsCnt ∧ (∃ p b v, s = { s0 with pkCnt := p, idxByteSize := b, idxCntVec := v }) ∧
      ∃ n R, Tally sz s ({ n with value := arr } :: R) ∧
        if created then s0.getEntry key = none ∧ n.key = key ∧ n.height = keyHeight ∧ R = s0.keyNodes
        else s0.getEntry key = some n ∧ s0.keyNodes.Perm (n :: R)

/-- Each round of the loop puts the record of a dimension kept into the list
of its time index: the array is opened first, found or created and counted. -/
theorem putTsLoop_inv {s0 : Segment} (h : Accounted sz s0) (hts : s0.tsCnt ≠ 1) (key : Slice)
    (row keyHeight : Nat) (height : Nat → Nat) :
    ∀ (ds : List TSDimension) (j : Nat) (acc : Segment × Option (List KeyEntry × Bool)),
      PutTsInv sz s0 key keyHeight acc →
        PutTsInv sz s0 key keyHeight (putTsLoop sz key row keyHeight height j ds acc)
  | [], _, _, hi => hi
  | d :: ds, j, (s, none), hi => by
    have hs : s = s0 := hi
    subst s
    rw [putTsLoop]
    rcases hf : tsIdxFind s0.tsIdxMap d.idx with _ | pos
    · -- a column that is no time index of the segment is skipped
      exact putTsLoop_inv h hts key row keyHeight height ds (j + 1) (s0, none) rfl
    · have hpos : pos < s0.tsCnt := tsIdxFind_lt h hf
      have h1 : 1 < s0.tsCnt := by omega
      -- the first time index the write reaches: the key is looked up
      rcases hg : s0.getEntry key with _ | n
      · -- absent: a new array, tallied as a key node from here on
        dsimp only
        refine putTsLoop_inv h hts key row keyHeight height ds (j + 1) _ ?_
        have hc1 : Tally sz
            { s0 with
              pkCnt := s0.pkCnt + 1
              idxByteSize := s0.idxByteSize +
                getRecordPkMultiIdxSize sz keyHeight key.length s0.keyEntryMaxHeight s0.tsCnt }
            (⟨key, List.replicate s0.tsCnt default, keyHeight⟩ :: s0.keyNodes) := by
          refine h.tally.cons rfl rfl ?_ ?_ (fun _ => ⟨rfl, fun j _ => ?_⟩) rfl ?_
          · simp only [List.length_replicate]
            omega
          · intro e he
            rw [List.eq_of_mem_replicate he]
            rfl
          · rw [getD_replicate_default]
            rfl
          · simp [pkBytes, h1, tsBytes, show (default : KeyEntry).entries = [] from rfl]
        refine ⟨h1, ⟨_, _, _, rfl⟩, ⟨key, [], keyHeight⟩, s0.keyNodes, ?_, ?_⟩
        · refine hc1.addAt (n := ⟨key, [], keyHeight⟩) (by omega : pos < max s0.tsCnt 1) ⟨d.ts, row, height j⟩
            rfl rfl rfl (fun _ => rfl) ?_
          dsimp only
          omega
        · rw [if_pos rfl]
          exact ⟨hg, rfl, rfl, rfl⟩
      · -- present: its array, and the other key nodes
        dsimp only
        refine putTsLoop_inv h hts key row keyHeight height ds (j + 1) _ ?_
        obtain ⟨R, hR, -⟩ := keyNodes_modifyEntry id hg
        refine ⟨h1, ⟨_, _, _, rfl⟩, n, R, ?_, ?_⟩
        · refine (h.tally.perm hR).addAt (n := n) (by omega : pos < max s0.tsCnt 1) ⟨d.ts, row, height j⟩
            rfl rfl rfl (fun _ => rfl) ?_
          dsimp only
          omega
        · rw [if_neg Bool.false_ne_true]
          exact ⟨hg, hR⟩
  | d :: ds, j, (s, some (a, created)), hi => by
    obtain ⟨h1, ⟨p, b, v, rfl⟩, n, R, ht, hcond⟩ := hi
    rw [putTsLoop]
    rcases hf : tsIdxFind s0.tsIdxMap d.idx with _ | pos
    · -- a column that is no time index of the segment is skipped
      exact putTsLoop_inv h hts key row keyHeight height ds (j + 1) _ ⟨h1, ⟨p, b, v, rfl⟩, n, R, ht, hcond⟩
    · -- the array is open: the record joins it
      have hpos : pos < s0.tsCnt := tsIdxFind_lt h hf
      dsimp only
      refine putTsLoop_inv h hts key row keyHeight height ds (j + 1) _ ?_
      refine ⟨h1, ⟨p, _, _, rfl⟩, n, R, ?_, hcond⟩
      refine ht.addAt (n := n) (by omega : pos < max s0.tsCnt 1) ⟨d.ts, row, height j⟩ rfl rfl rfl (fun _ => rfl) ?_
      dsimp only
      omega

/-- `Put(key, ts_dimension, row)`: with one time index, `Put` of the
timestamp chosen; with several, the loop, after which the array is linked in
a new key node or written back to the node found. -/
theorem putTs_accounted {s : Segment} (h : Accounted sz s) (key : Slice) (tsDimension : List TSDimension)
    (row keyHeight : Nat) (height : Nat → Nat) :
    Accounted sz (s.putTs sz key tsDimension row keyHeight height) := by
  unfold putTs
  split
  · exact h
  · rename_i d ds
    split
    · -- one time index: `Put` of one of the timestamps, or nothing
      split
      · exact put_accounted h _ _ _ _ _
      · split
        · split
          · exact put_accounted h _ _ _ _ _
          · exact h
        · exact h
    · -- several: what the loop left
      rename_i hts
      have hi := putTsLoop_inv h hts key row keyHeight height (d :: ds) 0 (s, none) rfl
      split
      · -- no time index written
        rename_i s' heq
        rw [heq] at hi
        have hs : s' = s := hi
        rw [hs]
        exact h
      · -- a new array: linked in a new key node
        rename_i s' arr heq
        rw [heq] at hi
        obtain ⟨h1, ⟨p, b, v, rfl⟩, ⟨nkey, nvalue, nheight⟩, R, ht, hcond⟩ := hi
        rw [if_pos rfl] at hcond
        obtain ⟨-, hk, hh, rfl⟩ := hcond
        dsimp only at hk hh
        subst hk hh
        refine ⟨h.tsIdx, ?_, fun h' => absurd h' (show ¬ s.tsCnt ≤ 1 by omega)⟩
        exact (ht.frame s.idxCnt _ s.entryFreeList).perm
          (keyNodes_insert { s with pkCnt := p, idxByteSize := b, idxCntVec := v } ⟨nkey, arr, nheight⟩).symm
      · -- the array of the node found: written back to it
        rename_i s' arr heq
        rw [heq] at hi
        obtain ⟨h1, ⟨p, b, v, rfl⟩, n, R, ht, hcond⟩ := hi
        rw [if_neg Bool.false_ne_true] at hcond
        obtain ⟨hg, hR⟩ := hcond
        obtain ⟨R', hR1, hR2⟩ := keyNodes_modifyEntry (s := { s with pkCnt := p, idxByteSize := b, idxCntVec := v })
          (fun m => { m with value := arr }) hg
        -- the other key nodes are those the loop started from
        have hRR : R.Perm R' := (List.perm_cons n).1 (hR.symm.trans hR1)
        refine ⟨h.tsIdx, ?_, fun h' => absurd h' (show ¬ s.tsCnt ≤ 1 by omega)⟩
        exact ((ht.perm (hRR.cons _)).frame s.idxCnt _ s.entryFreeList).perm hR2.symm

/-! ## `Delete` and `IncrGcVersion` -/

theorem delete_accounted {s : Segment} (h : Accounted sz s) (key : Slice) : Accounted sz (s.delete key).1 := by
  have hp := keyNodes_delete s key
  have hd : ∃ es fl, (s.delete key).1 = { s with entries := es, entryFreeList := fl } := by
    unfold delete
    split
    · exact ⟨s.entries, s.entryFreeList, rfl⟩
    · exact ⟨_, _, rfl⟩
  obtain ⟨es, fl, hd⟩ := hd
  rw [hd] at hp ⊢
  refine ⟨h.tsIdx, (h.tally.frame s.idxCnt es fl).perm hp.symm, fun h1 => ?_⟩
  rw [countSum_perm hp 0]
  exact h.idxCnt h1

/-- The version is no counter. -/
theorem incrGcVersion_accounted {s : Segment} (h : Accounted sz s) : Accounted sz s.incrGcVersion :=
  ⟨h.tsIdx, ⟨h.tally.width, h.tally.count, h.tally.idxCntVec, h.tally.pkCnt, h.tally.idxByteSize⟩, h.idxCnt⟩

/-! ## Fresh segments -/

/-- Every time index of the map the constructor builds is a position of the
vector it was built from. -/
theorem buildTsIdxMap_lt (tsIdxVec : List Nat) : ∀ p ∈ buildTsIdxMap tsIdxVec, p.2 < tsIdxVec.length := by
  -- the fold keeps the values of the pairs assigned so far, all positions of the vector
  have hfold : ∀ (l m : List (Nat × Nat)), (∀ q ∈ l, q.2 < tsIdxVec.length) →
      (∀ p ∈ m, p.2 < tsIdxVec.length) →
        ∀ p ∈ l.foldl (fun m q => tsIdxAssign m q.1 q.2) m, p.2 < tsIdxVec.length := by
    intro l
    induction l with
    | nil =>
      intro m _ hm
      exact hm
    | cons q l ih =>
      intro m hl hm
      refine ih _ (fun q' hq' => hl q' (List.mem_cons_of_mem _ hq')) ?_
      intro p hp
      rcases List.mem_cons.1 hp with rfl | hp
      · exact hl _ (List.mem_cons_self ..)
      · exact hm p (List.mem_filter.1 hp).1
  refine hfold _ [] (fun q hq => ?_) (fun _ hp => absurd hp List.not_mem_nil)
  have := List.snd_lt_add_of_mem_zipIdx hq
  omega

theorem new_accounted (height : Nat) (ttlOffset : UInt64) : Accounted sz (Segment.new height ttlOffset) where
  tsIdx _ hp := absurd hp List.not_mem_nil
  tally :=
    { width := fun _ hn => absurd hn List.not_mem_nil
      count := fun _ hn => absurd hn List.not_mem_nil
      idxCntVec := fun h1 => absurd h1 (Nat.lt_irrefl 1)
      pkCnt := rfl
      idxByteSize := rfl }
  idxCnt _ := rfl

theorem newTs_accounted (height : Nat) (tsIdxVec : List Nat) (ttlOffset : UInt64) :
    Accounted sz (Segment.newTs height tsIdxVec ttlOffset) where
  tsIdx := buildTsIdxMap_lt tsIdxVec
  tally :=
    { width := fun _ hn => absurd hn List.not_mem_nil
      count := fun _ hn => absurd hn List.not_mem_nil
      idxCntVec := fun _ => ⟨List.length_replicate .., fun j _ => by
        simp only [newTs, keyNodes, List.getD_eq_getElem?_getD, List.getElem?_replicate, countSum]
        split <;> rfl⟩
      pkCnt := rfl
      idxByteSize := rfl }
  idxCnt _ := rfl

/-! ## Runs -/

/-- The operations of a segment, with the arguments the C++ takes: `row` the
address of the record's block, `keyHeight` and `height` the heights
`RandomHeight()` returns. -/
inductive Op
  | put (key : Slice) (time : UInt64) (row keyHeight height : Nat)
  | putTs (key : Slice) (tsDimension : List TSDimension) (row keyHeight : Nat) (height : Nat → Nat)
  | delete (key : Slice)
  | gc4TTL (time : UInt64)
  | gc4Head (keepCnt : UInt64)
  | gc4TTLAndHead (time keepCnt : UInt64)
  | gc4TTLOrHead (time keepCnt : UInt64)
  | gcAllType (ttlStMap : List (Nat × TTLSt))
  | executeGc (ttlSt : TTLSt) (curTime : UInt64)
  | executeGcMap (ttlStMap : List (Nat × TTLSt)) (curTime : UInt64)
  | incrGcVersion
  | gcFreeList (gcDeletedPkVersionDelta : UInt64)

variable (sz) in
/-- An operation on what a collection changes; the writes change the
segment only. `none` where the operation is undefined. -/
def step (st : GcState) : Op → Option GcState
  | .put key time row keyHeight height => some { st with seg := st.seg.put sz key time row keyHeight height }
  | .putTs key tsDimension row keyHeight height =>
    some { st with seg := st.seg.putTs sz key tsDimension row keyHeight height }
  | .delete key => some { st with seg := (st.seg.delete key).1 }
  | .gc4TTL time => gc4TTL sz st time
  | .gc4Head keepCnt => gc4Head sz st keepCnt
  | .gc4TTLAndHead time keepCnt => gc4TTLAndHead sz st time keepCnt
  | .gc4TTLOrHead time keepCnt => gc4TTLOrHead sz st time keepCnt
  | .gcAllType ttlStMap => gcAllType sz st ttlStMap
  | .executeGc ttlSt curTime => executeGc sz st ttlSt curTime
  | .executeGcMap ttlStMap curTime => executeGcMap sz st ttlStMap curTime
  | .incrGcVersion => some { st with seg := st.seg.incrGcVersion }
  | .gcFreeList gcDeletedPkVersionDelta => gcFreeList sz st gcDeletedPkVersionDelta

/-- The collections: the operations that report what they take in `gc_idx_cnt`. -/
def Op.IsGc : Op → Prop
  | .put .. | .putTs .. | .delete _ | .incrGcVersion => False
  | _ => True

/-- A collection keeps the counters wherever it is defined. -/
theorem step_keeps {st : GcState} (h : Accounted sz st.seg) (op : Op) (hg : op.IsGc) :
    Keeps sz st (step sz st op) := by
  cases op with
  | put | putTs | delete | incrGcVersion => exact hg.elim
  | gc4TTL time => exact gc4TTL_keeps h time
  | gc4Head keepCnt => exact gc4Head_keeps h keepCnt
  | gc4TTLAndHead time keepCnt => exact gc4TTLAndHead_keeps h time keepCnt
  | gc4TTLOrHead time keepCnt => exact gc4TTLOrHead_keeps h time keepCnt
  | gcAllType ttlStMap => exact gcAllType_keeps h ttlStMap
  | executeGc ttlSt curTime => exact executeGc_keeps h ttlSt curTime
  | executeGcMap ttlStMap curTime => exact executeGcMap_keeps h ttlStMap curTime
  | gcFreeList gcDeletedPkVersionDelta => exact gcFreeList_keeps h gcDeletedPkVersionDelta

/-- Every operation keeps the counters wherever it is defined. -/
theorem step_accounted {st st' : GcState} (h : Accounted sz st.seg) (op : Op) (hs : step sz st op = some st') :
    Accounted sz st'.seg := by
  by_cases hg : op.IsGc
  · exact (step_keeps h op hg st' hs).1
  -- a write, kept by its lemma above
  cases op with
  | put key time row keyHeight height =>
    cases hs
    exact put_accounted h key time row keyHeight height
  | putTs key tsDimension row keyHeight height =>
    cases hs
    exact putTs_accounted h key tsDimension row keyHeight height
  | delete key =>
    cases hs
    exact delete_accounted h key
  | incrGcVersion =>
    cases hs
    exact incrGcVersion_accounted h
  | _ => exact (hg trivial).elim

variable (sz) in
/-- The states a run of operations, each defined where it is applied,
reaches from a fresh segment of either kind. -/
inductive Reachable : GcState → Prop
  | new (height : Nat) (ttlOffset : UInt64) (blocks : Blocks) (gc : GcCnt) :
    Reachable ⟨Segment.new height ttlOffset, blocks, gc⟩
  | newTs (height : Nat) (tsIdxVec : List Nat) (ttlOffset : UInt64) (blocks : Blocks) (gc : GcCnt) :
    Reachable ⟨Segment.newTs height tsIdxVec ttlOffset, blocks, gc⟩
  | step {st st' : GcState} (op : Op) : Reachable st → step sz st op = some st' → Reachable st'

theorem reachable_accounted {st : GcState} (h : Reachable sz st) : Accounted sz st.seg := by
  induction h with
  | new height ttlOffset => exact new_accounted height ttlOffset
  | newTs height tsIdxVec ttlOffset => exact newTs_accounted height tsIdxVec ttlOffset
  | step op _ hs ih => exact step_accounted ih op hs

/-- In every state a run reaches, the counters count what the segment holds
(`Accounted`), and every collection from it moves what it takes off the
counts into `gc_idx_cnt`. -/
theorem segment_counters {st : GcState} (h : Reachable sz st) :
    Accounted sz st.seg ∧ ∀ (op : Op) (st' : GcState), step sz st op = some st' → op.IsGc →
      st'.gc.idxCnt + recordSum st'.seg.keyNodes = st.gc.idxCnt + recordSum st.seg.keyNodes := by
  have hacc := reachable_accounted h
  exact ⟨hacc, fun op st' hs hg => (step_keeps hacc op hg st' hs).2⟩

/-- A segment of one time index after one `Put`. -/
def afterPut : GcState := ⟨(Segment.new 4 0).put ⟨1, 1, 1, 1, 1⟩ [1] 5 0 1 1, [], ⟨0, 0, 0⟩⟩

/-- The run of that `Put` reaches it, and its counters and every collection
from it are as `segment_counters` says. -/
theorem segment_counters_after_put :
    step ⟨1, 1, 1, 1, 1⟩ ⟨Segment.new 4 0, [], ⟨0, 0, 0⟩⟩ (.put [1] 5 0 1 1) = some afterPut ∧
      Reachable ⟨1, 1, 1, 1, 1⟩ afterPut ∧
      Accounted ⟨1, 1, 1, 1, 1⟩ afterPut.seg ∧
      ∀ (op : Op) (st' : GcState), step ⟨1, 1, 1, 1, 1⟩ afterPut op = some st' → op.IsGc →
        st'.gc.idxCnt + recordSum st'.seg.keyNodes = afterPut.gc.idxCnt + recordSum afterPut.seg.keyNodes := by
  have hr : Reachable ⟨1, 1, 1, 1, 1⟩ afterPut := .step (.put [1] 5 0 1 1) (.new 4 0 [] ⟨0, 0, 0⟩) rfl
  exact ⟨rfl, hr, segment_counters hr⟩

end Segment

end Fedb.Storage
