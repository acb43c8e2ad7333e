import Fedb.Storage.Segment

/-! # What a TTL collection of a segment keeps

`ExecuteGc(ttl)` dispatches on the type of the TTL to one of four loops over
the key index. On a segment of one time index, each loop body cuts a key's
record list after some position and frees the rest; the position depends on
the type and on how many records are newer than the expire time. This module
shows that on newest-first record lists the position is the one `TTLSt.live`
asks for, so that a collection leaves every key with exactly its live
records, unlinks a key whose records all went, and puts it on the free list
(`executeGc_live`).

The development goes by layers. `freeList`, `collect` and `walkIndex` get one
spec lemma each. On a sorted list every split of the chain is a cut after
`newer k xs` records, or after the smaller or the larger of that and a
position (`split_time`, `splitByKeyOrPos_time`, `splitByKeyAndPos_time`),
and the live records are a cut after `liveCount` (`liveRecords_eq_take`).
Each loop body is then a cut of its node's list (`cutNode`), and the walk of
the index is a map of the cut over the nodes (`Collects`).

The expire time must not be `0` where the TTL has an absolute bound:
`Gc4TTLAndHead` and `Gc4TTLOrHead` read a time of `0` as no bound. It is
`cur_time - ttl_offset_ - abs_ttl` with `cur_time` the clock in
milliseconds, and is `0` only at the one millisecond `ttl_offset_ + abs_ttl`.

`GcAllType`, the collector of a segment of several time indexes, compares
the timestamps with `abs_ttl` itself, a length of time, and does not read
the clock: it keeps records the rule has expired for as long as their
timestamps exceed the TTL's length (`gcAllType_reads_ttl_as_time`).
-/

namespace Fedb.Storage

open Fedb.Base ListPrefix

namespace Segment

variable (sz : Sizes)
/-- The index bytes of a list of record nodes. -/
def tsBytes (nodes : List DataNode) : Nat := (nodes.map fun d => getRecordTsIdxSize sz d.height).sum

/-! ## Freeing and collecting -/

theorem releaseBlock_idxCnt (blocks : Blocks) (gc : GcCnt) (p : Nat) :
    (releaseBlock sz blocks gc p).2.idxCnt = gc.idxCnt := by
  unfold releaseBlock
  split
  · split <;> rfl
  · rfl

/-- `FreeList` counts every node it frees in its counter. -/
theorem freeList_count :
    ∀ (nodes : List DataNode) (st : GcState) (c : Nat), (freeList sz st c nodes).2 = c + nodes.length
  | [], _, _ => rfl
  | _ :: rest, _, c => by
    rw [freeList, freeList_count rest, List.length_cons]
    omega

/-- `FreeList` changes only `idx_byte_size_` of the segment. -/
theorem freeList_seg :
    ∀ (nodes : List DataNode) (st : GcState) (c : Nat),
      (freeList sz st c nodes).1.seg =
        { st.seg with idxByteSize := st.seg.idxByteSize - tsBytes sz nodes }
  | [], st, _ => by simp [freeList, tsBytes]
  | tmp :: rest, st, c => by
    rw [freeList, freeList_seg rest]
    simp only [tsBytes, List.map_cons, List.sum_cons, Nat.sub_sub]

theorem freeList_gcIdxCnt :
    ∀ (nodes : List DataNode) (st : GcState) (c : Nat),
      (freeList sz st c nodes).1.gc.idxCnt = st.gc.idxCnt
  | [], _, _ => rfl
  | tmp :: rest, st, c => by
    rw [freeList, freeList_gcIdxCnt rest]
    exact releaseBlock_idxCnt sz _ _ _

/-- The entry a loop body leaves: the one the split left, its count lowered
by the nodes cut. -/
theorem collect_entry (st : GcState) (r : KeyEntry × List DataNode) :
    (collect sz st r).2 = { r.1 with count := r.1.count - r.2.length } := by
  simp [collect, freeList_count]

theorem collect_seg (st : GcState) (r : KeyEntry × List DataNode) :
    (collect sz st r).1.seg = { st.seg with idxByteSize := st.seg.idxByteSize - tsBytes sz r.2 } := by
  simp [collect, freeList_seg]

theorem collect_gcIdxCnt (st : GcState) (r : KeyEntry × List DataNode) :
    (collect sz st r).1.gc.idxCnt = st.gc.idxCnt + r.2.length := by
  simp [collect, freeList_gcIdxCnt, freeList_count]

/-! ## The walk of the index -/

/-- A walk whose body maps every node by `f`, unlinking those `drop` holds
of, and keeps the GC version and the free list: the index becomes the nodes
kept, mapped, and the free list gains the others at the version. -/
theorem walkIndex_spec (step : GcState → EntryNode → Option (GcState × Visit)) (drop : EntryNode → Bool)
    (f : EntryNode → EntryNode) :
    ∀ (rest : List EntryNode) (st : GcState) (done : List EntryNode),
      (∀ n ∈ rest, ∀ st : GcState, ∃ st',
        step st n = some (st', if drop n then .unlink (f n) else .keep (f n)) ∧
          st'.seg.gcVersion = st.seg.gcVersion ∧ st'.seg.entryFreeList = st.seg.entryFreeList) →
      ∃ st', walkIndex step st done rest = some st' ∧
        st'.seg.entries = done.reverse ++ (rest.filter fun n => !drop n).map f ∧
        st'.seg.entryFreeList.Perm
          ((rest.filter drop).map (fun n => (⟨st.seg.gcVersion, f n⟩ : FreeNode)) ++ st.seg.entryFreeList)
  | [], st, done, _ => ⟨_, rfl, by simp, by simp⟩
  | n :: rest, st, done, h => by
    obtain ⟨st', hstep, hver, hfree⟩ := h n (by simp) st
    have hrest : ∀ m ∈ rest, ∀ st : GcState, ∃ st',
        step st m = some (st', if drop m then .unlink (f m) else .keep (f m)) ∧
          st'.seg.gcVersion = st.seg.gcVersion ∧ st'.seg.entryFreeList = st.seg.entryFreeList :=
      fun m hm => h m (List.mem_cons_of_mem n hm)
    cases hd : drop n with
    | false =>
      -- the node is kept: it joins `done`, the free list is as it was
      rw [hd, if_neg Bool.false_ne_true] at hstep
      obtain ⟨st'', hw, hent, hperm⟩ := walkIndex_spec step drop f rest st' (f n :: done) hrest
      refine ⟨st'', by rw [walkIndex, hstep]; exact hw, ?_, ?_⟩
      · rw [hent]
        simp [hd]
      · rw [hver, hfree] at hperm
        simpa [hd] using hperm
    | true =>
      -- the node is unlinked: it goes on the free list at the version
      rw [hd, if_pos rfl] at hstep
      obtain ⟨st'', hw, hent, hperm⟩ := walkIndex_spec step drop f rest _ done hrest
      refine ⟨st'', by rw [walkIndex, hstep]; exact hw, ?_, ?_⟩
      · rw [hent]
        simp [hd]
      · simp only [hver, hfree] at hperm
        refine hperm.trans ?_
        simp only [List.filter_cons, hd, if_true, List.map_cons, List.cons_append]
        refine (List.Perm.append_left _ (Chain.insert_perm _ _ _ _)).trans ?_
        exact List.perm_middle

/-! ## Record lists newest first -/

/-- A record list in the order of `TimeComparator`: newest first. -/
def Sorted (xs : List DataNode) : Prop := xs.Pairwise fun a b => b.key ≤ a.key

instance (xs : List DataNode) : Decidable (Sorted xs) :=
  inferInstanceAs (Decidable (xs.Pairwise _))

/-- The number of records at the head of a list that are newer than `k`. -/
def newer (k : UInt64) (xs : List DataNode) : Nat :=
  (xs.takeWhile fun d => decide (k < d.key)).length

theorem timeComparator_pos (a b : UInt64) : timeComparator a b > 0 ↔ a < b := by
  unfold timeComparator defaultComparator
  split_ifs with h1 h2 <;> simp_all [UInt64.lt_iff_toNat_lt, UInt64.ext_iff] <;> omega

theorem timeComparator_nonneg (a b : UInt64) : timeComparator a b ≥ 0 ↔ a ≤ b := by
  unfold timeComparator defaultComparator
  split_ifs with h1 h2 <;> simp_all [UInt64.lt_iff_toNat_lt, UInt64.le_iff_toNat_le]

theorem decide_timeComparator_nonneg (a b : UInt64) :
    decide (timeComparator a b ≥ 0) = decide (a ≤ b) :=
  decide_eq_decide.2 (timeComparator_nonneg a b)

@[simp] theorem isAfter_time (k : UInt64) (d : DataNode) :
    Chain.isAfter DataNode.key timeComparator k d = decide (k < d.key) := by
  rw [Chain.isAfter, decide_eq_decide]
  exact timeComparator_pos k d.key

theorem newer_le_length (k : UInt64) (xs : List DataNode) : newer k xs ≤ xs.length :=
  (List.takeWhile_sublist _).length_le

/-- On a sorted list, a record is newer than `k` exactly at the positions
before `newer k xs`. -/
theorem newer_iff {xs : List DataNode} (hs : Sorted xs) (k : UInt64) (i : Nat) (hi : i < xs.length) :
    decide (k < xs[i].key) = decide (i < newer k xs) :=
  getElem_eq_decide_lt (p := fun d => decide (k < d.key))
    (fun a b hab hb => by
      simp only [decide_eq_true_eq] at hb ⊢
      rw [UInt64.lt_iff_toNat_lt] at hb ⊢
      rw [UInt64.le_iff_toNat_le] at hab
      omega) xs hs i hi

/-- `Split(k)` keeps the records newer than `k`, on any list. -/
theorem split_time (k : UInt64) (xs : List DataNode) :
    Chain.split DataNode.key timeComparator k xs = Chain.splitByPos (newer k xs) xs := by
  have hp : Chain.isAfter DataNode.key timeComparator k = fun d => decide (k < d.key) :=
    funext (isAfter_time k)
  rw [Chain.split, Chain.splitByPos, hp, newer, ← takeWhile_eq_take, ← dropWhile_eq_drop]

/-- The walk of `SplitByKeyAndPos` on a sorted list, `j` positions in: it
has passed a record not newer than `k` exactly when `newer k xs < j`. -/
theorem splitByKeyAndPosLoop_time {xs : List DataNode} (hs : Sorted xs) (k : UInt64) (pos : Nat) :
    ∀ n j, j + n = pos →
      Chain.splitByKeyAndPosLoop DataNode.key timeComparator k pos xs n (xs.drop j)
          (decide (newer k xs < j)) =
        Chain.splitByPos (max (newer k xs) pos) xs := by
  intro n
  induction n with
  | zero =>
    intro j hj
    rcases Nat.lt_or_ge j xs.length with hlt | hge
    · rw [List.drop_eq_getElem_cons hlt, Chain.splitByKeyAndPosLoop]
      -- at the position: split there if a key was passed, else by key
      by_cases hc : newer k xs < j
      · rw [if_pos (decide_eq_true hc), show max (newer k xs) pos = pos by omega]
      · rw [if_neg (by simpa using hc), split_time, show max (newer k xs) pos = newer k xs by omega]
    · rw [List.drop_of_length_le hge]
      have hlen := newer_le_length k xs
      cases hn : decide (newer k xs < j) <;>
        simp [Chain.splitByKeyAndPosLoop, Chain.splitByPos, List.take_of_length_le (by omega : xs.length ≤ max (newer k xs) pos),
          List.drop_of_length_le (by omega : xs.length ≤ max (newer k xs) pos)]
  | succ n ih =>
    intro j hj
    rcases Nat.lt_or_ge j xs.length with hlt | hge
    · rw [List.drop_eq_getElem_cons hlt, Chain.splitByKeyAndPosLoop]
      -- the record at `j` is passed: a key was passed by `j + 1` iff by `j` or at `j`
      have hkey : (decide (newer k xs < j) || decide (timeComparator xs[j].key k ≥ 0)) =
          decide (newer k xs < j + 1) := by
        have hnew := newer_iff hs k j hlt
        rw [decide_timeComparator_nonneg]
        by_cases hj' : j < newer k xs
        · have : ¬ (xs[j].key ≤ k) := by
            have h := (decide_eq_decide.1 hnew).2 hj'
            rw [UInt64.lt_iff_toNat_lt] at h
            rw [UInt64.le_iff_toNat_le]
            omega
          simp [this]
          omega
        · have : xs[j].key ≤ k := by
            have h : ¬ (k < xs[j].key) := fun h' => hj' ((decide_eq_decide.1 hnew).1 h')
            rw [UInt64.lt_iff_toNat_lt] at h
            rw [UInt64.le_iff_toNat_le]
            omega
          simp [this]
          omega
      rw [hkey]
      exact ih (j + 1) (by omega)
    · rw [List.drop_of_length_le hge]
      have hlen := newer_le_length k xs
      simp [Chain.splitByKeyAndPosLoop, Chain.splitByPos, List.take_of_length_le (by omega : xs.length ≤ max (newer k xs) pos),
        List.drop_of_length_le (by omega : xs.length ≤ max (newer k xs) pos)]

/-- `SplitByKeyAndPos(k, pos)` on a sorted list keeps the larger of the
records newer than `k` and the first `pos`. -/
theorem splitByKeyAndPos_time {xs : List DataNode} (hs : Sorted xs) (k : UInt64) (pos : Nat) :
    Chain.splitByKeyAndPos DataNode.key timeComparator k pos xs =
      Chain.splitByPos (max (newer k xs) pos) xs := by
  have h := splitByKeyAndPosLoop_time hs k pos pos 0 (by omega)
  rw [List.drop_zero, decide_eq_false (Nat.not_lt_zero _)] at h
  exact h

/-- The walk of `SplitByKeyOrPos` on a sorted list, `j` positions in, every
record passed newer than `k`. -/
theorem splitByKeyOrPosLoop_time {xs : List DataNode} (hs : Sorted xs) (k : UInt64) (pos : Nat) :
    ∀ n j, j + n = pos → j ≤ newer k xs →
      Chain.splitByKeyOrPosLoop DataNode.key timeComparator k pos xs n (xs.drop j) =
        Chain.splitByPos (min (newer k xs) pos) xs := by
  intro n
  induction n with
  | zero =>
    intro j hj hjc
    rcases Nat.lt_or_ge j xs.length with hlt | hge
    · rw [List.drop_eq_getElem_cons hlt, Chain.splitByKeyOrPosLoop,
        show min (newer k xs) pos = pos by omega]
    · rw [List.drop_of_length_le hge]
      have hlen := newer_le_length k xs
      simp [Chain.splitByKeyOrPosLoop, Chain.splitByPos, List.take_of_length_le (by omega : xs.length ≤ min (newer k xs) pos),
        List.drop_of_length_le (by omega : xs.length ≤ min (newer k xs) pos)]
  | succ n ih =>
    intro j hj hjc
    rcases Nat.lt_or_ge j xs.length with hlt | hge
    · rw [List.drop_eq_getElem_cons hlt, Chain.splitByKeyOrPosLoop]
      have hnew := newer_iff hs k j hlt
      split
      · -- the record at `j` is not newer than `k`: `Split` at its key cuts at `j`
        rename_i hge0
        have hle : xs[j].key ≤ k := (timeComparator_nonneg _ _).1 hge0
        have hc : newer k xs = j := by
          have : ¬ (j < newer k xs) := fun h' => by
            have h := (decide_eq_decide.1 hnew).2 h'
            rw [UInt64.lt_iff_toNat_lt] at h
            rw [UInt64.le_iff_toNat_le] at hle
            omega
          omega
        have hcut : newer xs[j].key xs = j := by
          refine length_takeWhile_eq _ xs j (fun i hi hij => ?_) hlt (by simp)
          have hi' := (decide_eq_decide.1 (newer_iff hs k i hi)).2 (by omega)
          simp only [decide_eq_true_eq]
          rw [UInt64.lt_iff_toNat_lt] at hi' ⊢
          rw [UInt64.le_iff_toNat_le] at hle
          omega
        rw [split_time, hcut, show min (newer k xs) pos = j by omega]
      · -- the record at `j` is newer than `k`: the walk goes on
        rename_i hlt0
        have hgt : ¬ (xs[j].key ≤ k) := fun h => hlt0 ((timeComparator_nonneg _ _).2 h)
        have hjc' : j < newer k xs := by
          have h : k < xs[j].key := by
            rw [UInt64.le_iff_toNat_le] at hgt
            rw [UInt64.lt_iff_toNat_lt]
            omega
          exact (decide_eq_decide.1 hnew).1 h
        exact ih (j + 1) (by omega) (by omega)
    · rw [List.drop_of_length_le hge]
      have hlen := newer_le_length k xs
      simp [Chain.splitByKeyOrPosLoop, Chain.splitByPos, List.take_of_length_le (by omega : xs.length ≤ min (newer k xs) pos),
        List.drop_of_length_le (by omega : xs.length ≤ min (newer k xs) pos)]

/-- `SplitByKeyOrPos(k, pos)` on a sorted list keeps the smaller of the
records newer than `k` and the first `pos`. -/
theorem splitByKeyOrPos_time {xs : List DataNode} (hs : Sorted xs) (k : UInt64) (pos : Nat) :
    Chain.splitByKeyOrPos DataNode.key timeComparator k pos xs =
      Chain.splitByPos (min (newer k xs) pos) xs := by
  have h := splitByKeyOrPosLoop_time hs k pos pos 0 (by omega) (Nat.zero_le _)
  rw [List.drop_zero] at h
  exact h

/-- A sorted list whose last record is newer than `k` has only records newer
than `k`. -/
theorem newer_of_getLast {xs : List DataNode} (hs : Sorted xs) {k : UInt64} {last : DataNode}
    (hlast : xs.getLast? = some last) (hk : last.key > k) : newer k xs = xs.length := by
  have hlen := newer_le_length k xs
  have hne : xs ≠ [] := by
    rintro rfl
    simp at hlast
  have hpos : 0 < xs.length := List.length_pos_iff.2 hne
  -- every record is at least as new as the last one
  have hall : ∀ i (hi : i < xs.length), k < xs[i].key := by
    intro i hi
    have hl : last = xs[xs.length - 1] := by
      rw [List.getLast?_eq_getElem?, List.getElem?_eq_getElem (by omega)] at hlast
      exact (Option.some.inj hlast).symm
    have hle : last.key ≤ xs[i].key := by
      rcases Nat.lt_or_ge i (xs.length - 1) with h | h
      · rw [hl]
        exact List.pairwise_iff_getElem.1 hs i (xs.length - 1) hi (by omega) h
      · have hi' : i = xs.length - 1 := by omega
        subst hi'
        rw [hl]
        exact UInt64.le_refl _
    rw [GT.gt, UInt64.lt_iff_toNat_lt] at hk
    rw [UInt64.le_iff_toNat_le] at hle
    rw [UInt64.lt_iff_toNat_lt]
    omega
  have hlast' := (decide_eq_decide.1 (newer_iff hs k (xs.length - 1) (by omega))).1
    (hall _ (by omega))
  omega


/-! ## The live records -/

/-- The records of a list a TTL keeps live at expire time `expire`. -/
def liveRecords (ttl : TTLSt) (expire : UInt64) (xs : List DataNode) : List DataNode :=
  filterIdx (fun i d => ttl.live expire i d.key) xs

/-- Whether the collection takes every record of a list that has some. -/
def emptiedList (ttl : TTLSt) (expire : UInt64) (xs : List DataNode) : Bool :=
  !xs.isEmpty && (liveRecords ttl expire xs).isEmpty

/-- A record list collected as the TTL says: its live records, its count
lowered by the records gone, and its tail at the head sentinel where every
record went. -/
def liveEntry (ttl : TTLSt) (expire : UInt64) (e : KeyEntry) : KeyEntry :=
  { e with
    entries := liveRecords ttl expire e.entries,
    count := e.count - (e.entries.length - (liveRecords ttl expire e.entries).length),
    tailHead := e.tailHead || emptiedList ttl expire e.entries }

/-- A key node collected as the TTL says, list by list. -/
def collected (ttl : TTLSt) (expire : UInt64) (n : EntryNode) : EntryNode :=
  { n with value := n.value.map (liveEntry ttl expire) }

/-- Whether the collection empties a list of the node. -/
def emptied (ttl : TTLSt) (expire : UInt64) (n : EntryNode) : Bool :=
  n.value.any fun e => emptiedList ttl expire e.entries

/-- How many records at the head of a newest-first list are live: a zero
bound keeps every record. -/
def liveCount (ttl : TTLSt) (expire : UInt64) (xs : List DataNode) : Nat :=
  let byTime := if ttl.absTtl = 0 then xs.length else newer expire xs
  let byCount := if ttl.latTtl = 0 then xs.length else ttl.latTtl.toNat
  match ttl.ttlType with
  | .kAbsoluteTime => byTime
  | .kLatestTime => byCount
  | .kAbsAndLat => max byTime byCount
  | .kAbsOrLat => min byTime byCount
  | .kRelativeTime => xs.length

/-- On a newest-first list the live records are the first `liveCount`. -/
theorem live_eq_decide_lt {xs : List DataNode} (hs : Sorted xs) (ttl : TTLSt) (expire : UInt64)
    (i : Nat) (hi : i < xs.length) :
    ttl.live expire i xs[i].key = decide (i < liveCount ttl expire xs) := by
  -- the time part and the count part, each a cut
  have htime : (decide (ttl.absTtl = 0) || decide (xs[i].key > expire)) =
      decide (i < if ttl.absTtl = 0 then xs.length else newer expire xs) := by
    by_cases ha : ttl.absTtl = 0
    · simp [ha, hi]
    · simp only [ha, decide_false, Bool.false_or, if_false, GT.gt]
      exact newer_iff hs expire i hi
  have hcount : (decide (ttl.latTtl = 0) || decide (i < ttl.latTtl.toNat)) =
      decide (i < if ttl.latTtl = 0 then xs.length else ttl.latTtl.toNat) := by
    by_cases hl : ttl.latTtl = 0
    · simp [hl, hi]
    · simp [hl]
  unfold TTLSt.live liveCount
  cases ttl.ttlType with
  | kAbsoluteTime => exact htime
  | kLatestTime => exact hcount
  | kAbsAndLat =>
    dsimp only
    rw [htime, hcount, ← Bool.decide_or, decide_eq_decide]
    omega
  | kAbsOrLat =>
    dsimp only
    rw [htime, hcount, ← Bool.decide_and, decide_eq_decide]
    omega
  | kRelativeTime => simp [hi]

theorem liveRecords_eq_take {xs : List DataNode} (hs : Sorted xs) (ttl : TTLSt) (expire : UInt64) :
    liveRecords ttl expire xs = xs.take (liveCount ttl expire xs) :=
  filterIdx_eq_take _ xs _ fun i hi => live_eq_decide_lt hs ttl expire i hi

/-! ## Cutting a record list -/

/-- A record list cut after its first `k` records, the count of those cut
taken off `count_`, and the tail moved to the last record kept (the head
where none is) if a record is cut. -/
def cutEntry (k : Nat) (e : KeyEntry) : KeyEntry :=
  { e with entries := e.entries.take k, count := e.count - (e.entries.drop k).length,
           tailHead := if (e.entries.drop k).isEmpty then e.tailHead else (e.entries.take k).isEmpty }

/-- Each record list of a key node cut after the number `k` gives for it. -/
def cutNode (k : List DataNode → Nat) (n : EntryNode) : EntryNode :=
  { n with value := n.value.map fun e => cutEntry (k e.entries) e }

/-- Whether the cut takes every record of a list of the node that has some. -/
def cutEmpties (k : List DataNode → Nat) (n : EntryNode) : Bool :=
  n.value.any fun e => !e.entries.isEmpty && (e.entries.take (k e.entries)).isEmpty

section Node

variable {n : EntryNode} {e : KeyEntry}

theorem entry?_of_value (hn : n.value = [e]) : n.entry? = some e := by
  simp [EntryNode.entry?, hn]

theorem setEntry_of_value (hn : n.value = [e]) (e' : KeyEntry) : n.setEntry e' = { n with value := [e'] } := by
  simp [EntryNode.setEntry, hn]

theorem setEntry_self (hn : n.value = [e]) : n.setEntry e = n := by
  rw [setEntry_of_value hn, ← hn]

theorem cutNode_of_value (hn : n.value = [e]) (k : List DataNode → Nat) :
    cutNode k n = n.setEntry (cutEntry (k e.entries) e) := by
  rw [setEntry_of_value hn]
  simp [cutNode, hn]

theorem cutEmpties_of_value (hn : n.value = [e]) (k : List DataNode → Nat) :
    cutEmpties k n = (!e.entries.isEmpty && (e.entries.take (k e.entries)).isEmpty) := by
  simp [cutEmpties, hn]

end Node

/-- A cut after every record leaves the list as it is. -/
theorem cutEntry_of_length_le {e : KeyEntry} {k : Nat} (hk : e.entries.length ≤ k) : cutEntry k e = e := by
  rw [cutEntry, List.take_of_length_le hk, List.drop_of_length_le hk]
  simp

theorem cutNode_self {n : EntryNode} {e : KeyEntry} (hn : n.value = [e]) {k : List DataNode → Nat}
    (hk : e.entries.length ≤ k e.entries) : cutNode k n = n := by
  rw [cutNode_of_value hn, cutEntry_of_length_le hk, setEntry_self hn]

/-- A cut only depends on how much of the list it keeps. -/
theorem cutEntry_congr {e : KeyEntry} {k k' : Nat} (h : min k e.entries.length = min k' e.entries.length) :
    cutEntry k e = cutEntry k' e := by
  have htake : e.entries.take k = e.entries.take k' := by
    rw [List.take_eq_take_min, h, ← List.take_eq_take_min]
  have hdrop : e.entries.drop k = e.entries.drop k' := by
    rw [List.drop_eq_drop_min, h, ← List.drop_eq_drop_min]
  rw [cutEntry, cutEntry, htake, hdrop]

/-- From a tail at the last record, a cut leaves the tail at the head
exactly where it takes every record of a list that has some. -/
theorem cut_tail (xs : List DataNode) (k : Nat) :
    (if (xs.drop k).isEmpty then false else (xs.take k).isEmpty) = (!xs.isEmpty && (xs.take k).isEmpty) := by
  by_cases hk : xs.length ≤ k
  · rw [List.drop_of_length_le hk, List.take_of_length_le hk]
    cases xs <;> rfl
  · have hne : xs ≠ [] := by
      rintro rfl
      simp at hk
    have hd : (xs.drop k).isEmpty = false := by
      simp only [List.isEmpty_eq_false_iff, ne_eq, List.drop_eq_nil_iff]
      omega
    simp [hd, hne]

/-- On a newest-first list whose tail is its last record, the TTL's
collection is the cut after the live records. -/
theorem liveEntry_eq_cutEntry {e : KeyEntry} (hs : Sorted e.entries) (ht : e.tailHead = false)
    (ttl : TTLSt) (expire : UInt64) : liveEntry ttl expire e = cutEntry (liveCount ttl expire e.entries) e := by
  rw [liveEntry, cutEntry, emptiedList, liveRecords_eq_take hs, ht, cut_tail]
  generalize liveCount ttl expire e.entries = k
  have hcount : e.entries.length - (e.entries.take k).length = (e.entries.drop k).length := by
    simp only [List.length_take, List.length_drop]
    omega
  rw [hcount, Bool.false_or]

/-- The end of a loop body at a cut after `k`. -/
theorem collect_cut (st : GcState) (e : KeyEntry) (k : Nat) :
    ∃ st', collect sz st (e.splitAt (Chain.splitByPos k e.entries)) = (st', cutEntry k e) ∧
      st'.seg.gcVersion = st.seg.gcVersion ∧ st'.seg.entryFreeList = st.seg.entryFreeList :=
  ⟨_, Prod.ext rfl (collect_entry sz st _), by rw [collect_seg], by rw [collect_seg]⟩

/-- `Split(time)` on a list with records whose tail is the last one is the
cut after the records newer than `time`. -/
theorem split_eq_splitAt {e : KeyEntry} (ht : e.tailHead = false) (hne : e.entries ≠ []) (time : UInt64) :
    e.split time = e.splitAt (Chain.splitByPos (newer time e.entries) e.entries) := by
  rw [KeyEntry.split, KeyEntry.splitAt, split_time, ht]
  cases hd : (Chain.splitByPos (newer time e.entries) e.entries).2.isEmpty with
  | false => rfl
  | true =>
    -- nothing is cut: the list keeps its records, and its tail
    have hkept : (Chain.splitByPos (newer time e.entries) e.entries).1 = e.entries :=
      List.take_of_length_le (List.drop_eq_nil_iff.1 (List.isEmpty_iff.1 hd))
    rw [hkept, List.isEmpty_eq_false_iff.2 hne]
    rfl

theorem splitIfFree_of_refs {e : KeyEntry} (hr : e.refs = 0) (r : KeyEntry × List DataNode) :
    splitIfFree e r = r := by
  simp [splitIfFree, hr]

/-- With its tail at its last record, `GetLast()` of an entry is that record. -/
theorem getLast_of_tail {e : KeyEntry} (ht : e.tailHead = false) :
    e.getLast = e.entries.getLast?.map DataNode.key := by
  unfold KeyEntry.getLast
  cases e.entries.getLast? <;> simp [ht]

/-! ## Each loop body cuts its node -/

section Steps

variable {n : EntryNode} {e : KeyEntry}

/-- The body of `Gc4Head` keeps the first `keep_cnt` records. -/
theorem gc4HeadStep_cut (hn : n.value = [e]) (hr : e.refs = 0) (keepCnt : UInt64) (st : GcState) :
    ∃ st', gc4HeadStep sz keepCnt st n = some (st', .keep (cutNode (fun _ => keepCnt.toNat) n)) ∧
      st'.seg.gcVersion = st.seg.gcVersion ∧ st'.seg.entryFreeList = st.seg.entryFreeList := by
  obtain ⟨st', hc, hv, hf⟩ := collect_cut sz st e keepCnt.toNat
  refine ⟨st', ?_, hv, hf⟩
  rw [gc4HeadStep, entry?_of_value hn, Option.map_some, splitIfFree_of_refs hr, hc, cutNode_of_value hn]

/-- The body of `Gc4TTL(time)` keeps the records newer than `time`, and
unlinks a node it empties. -/
theorem gc4TTLStep_cut (hn : n.value = [e]) (hs : Sorted e.entries) (hr : e.refs = 0)
    (ht : e.tailHead = false) (time : UInt64) (st : GcState) :
    ∃ st', gc4TTLStep sz time st n =
        some (st', if !e.entries.isEmpty && (e.entries.take (newer time e.entries)).isEmpty then
          .unlink (cutNode (newer time) n) else .keep (cutNode (newer time) n)) ∧
      st'.seg.gcVersion = st.seg.gcVersion ∧ st'.seg.entryFreeList = st.seg.entryFreeList := by
  rw [gc4TTLStep, entry?_of_value hn, Option.map_some, getLast_of_tail ht]
  cases hlast : e.entries.getLast? with
  | none =>
    -- an empty list, its tail `NULL`: the node is kept as it is
    have he : e.entries = [] := List.getLast?_eq_none_iff.1 hlast
    refine ⟨st, ?_, rfl, rfl⟩
    rw [he, cutNode_self hn (by simp [he])]
    rfl
  | some last =>
    dsimp only [Option.map_some]
    have hne : e.entries ≠ [] := List.ne_nil_of_mem (List.mem_of_getLast? hlast)
    by_cases hk : last.key > time
    · -- the last record is newer: nothing to collect
      have hall := newer_of_getLast hs hlast hk
      refine ⟨st, ?_, rfl, rfl⟩
      rw [if_pos hk, cutNode_self hn (by omega), List.take_of_length_le (by omega)]
      simp
    · obtain ⟨st', hc, hv, hf⟩ := collect_cut sz st e (newer time e.entries)
      refine ⟨st', ?_, hv, hf⟩
      rw [if_neg hk, splitIfFree_of_refs hr, split_eq_splitAt ht hne, hc, cutNode_of_value hn]
      simp [cutEntry, hne]

/-- The body of `Gc4TTLAndHead(time, keep_cnt)` keeps the larger of the
records newer than `time` and the first `keep_cnt`. -/
theorem gc4TTLAndHeadStep_cut (hn : n.value = [e]) (hs : Sorted e.entries) (hr : e.refs = 0)
    (ht : e.tailHead = false) (time keepCnt : UInt64) (st : GcState) :
    ∃ st', gc4TTLAndHeadStep sz time keepCnt st n =
        some (st', .keep (cutNode (fun xs => max (newer time xs) keepCnt.toNat) n)) ∧
      st'.seg.gcVersion = st.seg.gcVersion ∧ st'.seg.entryFreeList = st.seg.entryFreeList := by
  rw [gc4TTLAndHeadStep, entry?_of_value hn, Option.map_some, getLast_of_tail ht]
  cases hlast : e.entries.getLast? with
  | none =>
    have he : e.entries = [] := List.getLast?_eq_none_iff.1 hlast
    refine ⟨st, ?_, rfl, rfl⟩
    rw [cutNode_self hn (by simp [he])]
    rfl
  | some last =>
    dsimp only [Option.map_some]
    by_cases hk : last.key > time
    · have hall := newer_of_getLast hs hlast hk
      exact ⟨st, by rw [if_pos hk, cutNode_self hn (by omega)], rfl, rfl⟩
    · obtain ⟨st', hc, hv, hf⟩ := collect_cut sz st e (max (newer time e.entries) keepCnt.toNat)
      refine ⟨st', ?_, hv, hf⟩
      rw [if_neg hk, splitIfFree_of_refs hr, splitByKeyAndPos_time hs, hc, cutNode_of_value hn]

/-- The body of `Gc4TTLOrHead(time, keep_cnt)` keeps the smaller of the
records newer than `time` and the first `keep_cnt`, and unlinks a node it
empties. -/
theorem gc4TTLOrHeadStep_cut (hn : n.value = [e]) (hs : Sorted e.entries) (hr : e.refs = 0)
    (ht : e.tailHead = false) (time keepCnt : UInt64) (st : GcState) :
    ∃ st', gc4TTLOrHeadStep sz time keepCnt st n =
        some (st', if !e.entries.isEmpty &&
            (e.entries.take (min (newer time e.entries) keepCnt.toNat)).isEmpty then
          .unlink (cutNode (fun xs => min (newer time xs) keepCnt.toNat) n)
          else .keep (cutNode (fun xs => min (newer time xs) keepCnt.toNat) n)) ∧
      st'.seg.gcVersion = st.seg.gcVersion ∧ st'.seg.entryFreeList = st.seg.entryFreeList := by
  rw [gc4TTLOrHeadStep, entry?_of_value hn, Option.map_some, getLast_of_tail ht]
  cases hlast : e.entries.getLast? with
  | none =>
    have he : e.entries = [] := List.getLast?_eq_none_iff.1 hlast
    refine ⟨st, ?_, rfl, rfl⟩
    rw [he, cutNode_self hn (by simp [he])]
    rfl
  | some last =>
    dsimp only [Option.map_some]
    have hne : e.entries ≠ [] := List.ne_nil_of_mem (List.mem_of_getLast? hlast)
    obtain ⟨st', hc, hv, hf⟩ := collect_cut sz st e (min (newer time e.entries) keepCnt.toNat)
    refine ⟨st', ?_, hv, hf⟩
    rw [splitIfFree_of_refs hr, splitByKeyOrPos_time hs, hc, cutNode_of_value hn]
    simp [cutEntry, hne]

end Steps

/-! ## The collections -/

/-- A collection from `st` to `st'` that maps every key node by `f` and
unlinks those `drop` holds of: the index is the nodes kept, mapped, and the
free list gains the others at the GC version. -/
def Collects (st st' : GcState) (drop : EntryNode → Bool) (f : EntryNode → EntryNode) : Prop :=
  st'.seg.entries = (st.seg.entries.filter fun n => !drop n).map f ∧
    st'.seg.entryFreeList.Perm
      ((st.seg.entries.filter drop).map (fun n => (⟨st.seg.gcVersion, f n⟩ : FreeNode)) ++
        st.seg.entryFreeList)

/-- Every key node holds one record list, newest first, that no reader
holds, with its tail at its last record: a segment of one time index
between reads. -/
def Collectable (s : Segment) : Prop :=
  ∀ n ∈ s.entries, ∃ e, n.value = [e] ∧ Sorted e.entries ∧ e.refs = 0 ∧ e.tailHead = false

section Collections

variable {st st' : GcState} {drop drop' : EntryNode → Bool} {f f' : EntryNode → EntryNode}

/-- A collection is determined by what it does at the nodes of the index. -/
theorem Collects.congr (h : Collects st st' drop f)
    (hc : ∀ n ∈ st.seg.entries, drop n = drop' n ∧ f n = f' n) : Collects st st' drop' f' := by
  have hkeep : st.seg.entries.filter (fun n => !drop n) = st.seg.entries.filter fun n => !drop' n :=
    List.filter_congr fun n hn => by rw [(hc n hn).1]
  have hdrop : st.seg.entries.filter drop = st.seg.entries.filter drop' :=
    List.filter_congr fun n hn => (hc n hn).1
  refine ⟨?_, ?_⟩
  · rw [h.1, hkeep]
    exact List.map_congr_left fun n hn => (hc n (List.mem_of_mem_filter hn)).2
  · have hmap : (st.seg.entries.filter drop').map (fun n => (⟨st.seg.gcVersion, f n⟩ : FreeNode)) =
        (st.seg.entries.filter drop').map fun n => (⟨st.seg.gcVersion, f' n⟩ : FreeNode) :=
      List.map_congr_left fun n hn => by rw [(hc n (List.mem_of_mem_filter hn)).2]
    rw [← hmap, ← hdrop]
    exact h.2

/-- Returning at once is the collection that keeps every node as it is. -/
theorem collects_self (hc : ∀ n ∈ st.seg.entries, drop n = false ∧ f n = n) : Collects st st drop f := by
  have hnone : st.seg.entries.filter drop = [] :=
    List.filter_eq_nil_iff.2 fun n hn => by simp [(hc n hn).1]
  refine ⟨?_, by rw [hnone]; exact List.Perm.refl _⟩
  rw [List.filter_eq_self.2 fun n hn => by simp [(hc n hn).1]]
  exact ((List.map_congr_left fun n hn => (hc n hn).2).trans (List.map_id _)).symm

/-- The loop of `gcIndex` is a collection when each body is. -/
theorem gcIndex_collects (step : GcState → EntryNode → Option (GcState × Visit))
    (h : ∀ n ∈ st.seg.entries, ∀ st : GcState, ∃ st',
        step st n = some (st', if drop n then .unlink (f n) else .keep (f n)) ∧
          st'.seg.gcVersion = st.seg.gcVersion ∧ st'.seg.entryFreeList = st.seg.entryFreeList) :
    ∃ st', gcIndex step st = some st' ∧ Collects st st' drop f := by
  obtain ⟨st', hw, hent, hperm⟩ := walkIndex_spec step drop f st.seg.entries st [] h
  rw [List.reverse_nil, List.nil_append] at hent
  exact ⟨{ st' with seg := { st'.seg with idxCnt := st'.seg.idxCnt - (st'.gc.idxCnt - st.gc.idxCnt) } },
    by rw [gcIndex, hw, Option.map_some], hent, hperm⟩

theorem gc4Head_collects (hw : Collectable st.seg) {keepCnt : UInt64} (hk : keepCnt ≠ 0) :
    ∃ st', gc4Head sz st keepCnt = some st' ∧
      Collects st st' (fun _ => false) (cutNode fun _ => keepCnt.toNat) := by
  rw [gc4Head, if_neg hk]
  refine gcIndex_collects _ fun n hn st => ?_
  obtain ⟨e, hv, -, hr, -⟩ := hw n hn
  simpa using gc4HeadStep_cut sz hv hr keepCnt st

theorem gc4TTL_collects (hw : Collectable st.seg) (time : UInt64) :
    ∃ st', gc4TTL sz st time = some st' ∧ Collects st st' (cutEmpties (newer time)) (cutNode (newer time)) := by
  refine gcIndex_collects _ fun n hn st => ?_
  obtain ⟨e, hv, hs, hr, ht⟩ := hw n hn
  rw [cutEmpties_of_value hv]
  exact gc4TTLStep_cut sz hv hs hr ht time st

theorem gc4TTLAndHead_collects (hw : Collectable st.seg) {time keepCnt : UInt64} (ht : time ≠ 0)
    (hk : keepCnt ≠ 0) :
    ∃ st', gc4TTLAndHead sz st time keepCnt = some st' ∧
      Collects st st' (fun _ => false) (cutNode fun xs => max (newer time xs) keepCnt.toNat) := by
  rw [gc4TTLAndHead, if_neg (by simp [ht, hk])]
  refine gcIndex_collects _ fun n hn st => ?_
  obtain ⟨e, hv, hs, hr, htail⟩ := hw n hn
  simpa using gc4TTLAndHeadStep_cut sz hv hs hr htail time keepCnt st

/-- With both bounds set, `Gc4TTLOrHead` runs its own loop. -/
theorem gc4TTLOrHead_collects (hw : Collectable st.seg) {time keepCnt : UInt64} (ht : time ≠ 0)
    (hk : keepCnt ≠ 0) :
    ∃ st', gc4TTLOrHead sz st time keepCnt = some st' ∧
      Collects st st' (cutEmpties fun xs => min (newer time xs) keepCnt.toNat)
        (cutNode fun xs => min (newer time xs) keepCnt.toNat) := by
  rw [gc4TTLOrHead, if_neg (by simp [ht]), if_neg ht, if_neg hk]
  refine gcIndex_collects _ fun n hn st => ?_
  obtain ⟨e, hv, hs, hr, htail⟩ := hw n hn
  rw [cutEmpties_of_value hv]
  exact gc4TTLOrHeadStep_cut sz hv hs hr htail time keepCnt st

end Collections

/-! ## `ExecuteGc` keeps the live records -/

/-- Whether the collector a TTL's type dispatches to unlinks a key node it
empties: `Gc4TTL` and `Gc4TTLOrHead` do; `kAbsOrLat` without a time bound
reaches `Gc4Head`, which does not. -/
def unlinksEmptied (ttl : TTLSt) : Bool :=
  match ttl.ttlType with
  | .kAbsoluteTime => true
  | .kAbsOrLat => ttl.absTtl != 0
  | _ => false

/-- Whether the collection of `ttl` at `expire` unlinks the node. -/
def unlinked (ttl : TTLSt) (expire : UInt64) (n : EntryNode) : Bool :=
  unlinksEmptied ttl && emptied ttl expire n

section ExecuteGc

variable {n : EntryNode} {e : KeyEntry}

/-- A cut that keeps as much of the list as the rule does is the rule's
collection, and empties the node exactly when the rule does. -/
theorem collected_of_cut (hn : n.value = [e]) (hs : Sorted e.entries) (ht : e.tailHead = false)
    {ttl : TTLSt} {expire : UInt64} {k : List DataNode → Nat}
    (h : min (k e.entries) e.entries.length = min (liveCount ttl expire e.entries) e.entries.length) :
    cutEmpties k n = emptied ttl expire n ∧ cutNode k n = collected ttl expire n := by
  have htake : e.entries.take (k e.entries) = e.entries.take (liveCount ttl expire e.entries) := by
    rw [List.take_eq_take_min, h, ← List.take_eq_take_min]
  refine ⟨?_, ?_⟩
  · rw [cutEmpties_of_value hn, htake]
    simp [emptied, emptiedList, hn, liveRecords_eq_take hs]
  · rw [cutNode_of_value hn, cutEntry_congr h, ← liveEntry_eq_cutEntry hs ht, setEntry_of_value hn]
    simp [collected, hn]

/-- A rule that keeps every record of a node leaves it as it is. -/
theorem collected_of_length_le (hn : n.value = [e]) (hs : Sorted e.entries) (ht : e.tailHead = false)
    {ttl : TTLSt} {expire : UInt64} (h : e.entries.length ≤ liveCount ttl expire e.entries) :
    emptied ttl expire n = false ∧ collected ttl expire n = n := by
  obtain ⟨hemp, hcut⟩ := collected_of_cut hn hs ht (k := List.length)
    (show min e.entries.length e.entries.length = min (liveCount ttl expire e.entries) e.entries.length by omega)
  refine ⟨?_, ?_⟩
  · rw [← hemp, cutEmpties_of_value hn, List.take_length]
    cases e.entries <;> rfl
  · rw [← hcut, cutNode_self hn (Nat.le_refl _)]

variable {st st' : GcState} {drop : EntryNode → Bool}

/-- A collection that unlinks nothing the rule keeps is the rule's. -/
theorem collects_self_of_liveCount (hw : Collectable st.seg) {ttl : TTLSt} {expire : UInt64}
    (h : ∀ xs : List DataNode, xs.length ≤ liveCount ttl expire xs) :
    Collects st st (unlinked ttl expire) (collected ttl expire) :=
  collects_self fun n hn => by
    obtain ⟨e, hv, hs, -, ht⟩ := hw n hn
    obtain ⟨hemp, hcol⟩ := collected_of_length_le hv hs ht (h e.entries)
    exact ⟨by rw [unlinked, hemp, Bool.and_false], hcol⟩

/-- A collection that cuts every list after `k` of its records, as much as
the rule keeps, and unlinks the nodes it empties where the type's collector
does, is the rule's. -/
theorem Collects.of_cut (hw : Collectable st.seg) {ttl : TTLSt} {expire : UInt64}
    {k : List DataNode → Nat} (hc : Collects st st' drop (cutNode k))
    (hd : ∀ n, drop n = (unlinksEmptied ttl && cutEmpties k n))
    (hk : ∀ xs, min (k xs) xs.length = min (liveCount ttl expire xs) xs.length) :
    Collects st st' (unlinked ttl expire) (collected ttl expire) :=
  hc.congr fun n hn => by
    obtain ⟨e, hv, hs, -, ht⟩ := hw n hn
    obtain ⟨hemp, hcut⟩ := collected_of_cut hv hs ht (hk e.entries)
    exact ⟨by rw [hd, unlinked, hemp], hcut⟩

/-- `ExecuteGc(ttl)` on a segment of one time index no reader holds, whose
lists end at their tails: every key keeps exactly its live records in their
order, the keys `Gc4TTL` or `Gc4TTLOrHead` empty are unlinked and put on the
free list, and nothing else changes in the index. The expire time must not
be `0` where there is an absolute bound: the collectors read `0` as none. -/
theorem executeGc_live (hw : Collectable st.seg) (ttl : TTLSt) (curTime : UInt64)
    (hE : ttl.absTtl ≠ 0 → curTime - st.seg.ttlOffset - ttl.absTtl ≠ 0) :
    ∃ st', executeGc sz st ttl curTime = some st' ∧
      Collects st st' (unlinked ttl (curTime - st.seg.ttlOffset - ttl.absTtl))
        (collected ttl (curTime - st.seg.ttlOffset - ttl.absTtl)) := by
  obtain ⟨absTtl, latTtl, ttlType⟩ := ttl
  simp only at hE ⊢
  rw [executeGc]
  generalize curTime - st.seg.ttlOffset - absTtl = E at hE ⊢
  -- one case per type, and in each one per zero bound, as `ExecuteGc` dispatches
  cases ttlType with
  | kAbsoluteTime =>
    dsimp only
    by_cases ha : absTtl = 0
    · rw [if_pos ha]
      exact ⟨st, rfl, collects_self_of_liveCount hw fun xs => by simp [liveCount, ha]⟩
    · rw [if_neg ha]
      obtain ⟨st', hg, hc⟩ := gc4TTL_collects sz hw E
      exact ⟨st', hg, hc.of_cut hw (fun n => by simp [unlinksEmptied]) fun xs => by simp [liveCount, ha]⟩
  | kLatestTime =>
    dsimp only
    by_cases hl : latTtl = 0
    · rw [if_pos hl]
      exact ⟨st, rfl, collects_self_of_liveCount hw fun xs => by simp [liveCount, hl]⟩
    · rw [if_neg hl]
      obtain ⟨st', hg, hc⟩ := gc4Head_collects sz hw hl
      exact ⟨st', hg, hc.of_cut hw (fun n => by simp [unlinksEmptied]) fun xs => by simp [liveCount, hl]⟩
  | kAbsAndLat =>
    dsimp only
    by_cases h0 : absTtl = 0 ∨ latTtl = 0
    · rw [if_pos h0]
      refine ⟨st, rfl, collects_self_of_liveCount hw fun xs => ?_⟩
      rcases h0 with h | h
      · simp only [liveCount, h, if_true]
        exact Nat.le_max_left _ _
      · simp only [liveCount, h, if_true]
        exact Nat.le_max_right _ _
    · rw [if_neg h0]
      obtain ⟨ha, hl⟩ := not_or.1 h0
      obtain ⟨st', hg, hc⟩ := gc4TTLAndHead_collects sz hw (hE ha) hl
      exact ⟨st', hg, hc.of_cut hw (fun n => by simp [unlinksEmptied]) fun xs => by simp [liveCount, ha, hl]⟩
  | kAbsOrLat =>
    dsimp only
    by_cases ha : absTtl = 0 <;> by_cases hl : latTtl = 0
    · -- no bound at all
      rw [if_pos ⟨ha, hl⟩]
      exact ⟨st, rfl, collects_self_of_liveCount hw fun xs => by simp [liveCount, ha, hl]⟩
    · -- no time bound: `Gc4TTLOrHead` hands over to `Gc4Head`
      rw [if_neg (by simp [hl]), if_pos ha, gc4TTLOrHead, if_neg (by simp [hl]), if_pos rfl]
      obtain ⟨st', hg, hc⟩ := gc4Head_collects sz hw hl
      refine ⟨st', hg, hc.of_cut hw (fun n => by simp [unlinksEmptied, ha]) fun xs => ?_⟩
      simp only [liveCount, ha, hl, if_true, if_false]
      omega
    · -- no count bound: `Gc4TTLOrHead` hands over to `Gc4TTL`
      rw [if_neg (by simp [ha]), if_neg ha, gc4TTLOrHead, if_neg (by simp [hE ha]), if_neg (hE ha),
        if_pos hl]
      obtain ⟨st', hg, hc⟩ := gc4TTL_collects sz hw E
      refine ⟨st', hg, hc.of_cut hw (fun n => by simp [unlinksEmptied, ha]) fun xs => ?_⟩
      have := newer_le_length E xs
      simp only [liveCount, ha, hl, if_true, if_false]
      omega
    · rw [if_neg (by simp [ha]), if_neg ha]
      obtain ⟨st', hg, hc⟩ := gc4TTLOrHead_collects sz hw (hE ha) hl
      exact ⟨st', hg, hc.of_cut hw (fun n => by simp [unlinksEmptied, ha]) fun xs => by
        simp [liveCount, ha, hl]⟩
  | kRelativeTime => exact ⟨st, rfl, collects_self_of_liveCount hw fun xs => Nat.le_refl _⟩

end ExecuteGc

/-! ## `GcAllType` and the clock -/

/-- A segment of two time indexes, with the offset `ttl_offset_` of the
collections (`FLAGS_gc_safe_offset` minutes), after a write of one key at the
wall-clock timestamp `1600000000000` ms for both: each of its lists holds one
record. -/
def twoTsAged (ttlOffset : UInt64) : GcState :=
  ⟨(Segment.newTs 4 [0, 1] ttlOffset).putTs sz [1] [⟨0, 1600000000000⟩, ⟨1, 1600000000000⟩] 0 1 fun _ => 1,
    [some ⟨2, 3⟩], ⟨0, 0, 0⟩⟩

/-- A TTL map giving both time indexes an absolute TTL of one minute, the
`60000` ms that `TTLSt(ttl_desc)` makes of an `abs_ttl` of `1`. -/
def absTtlMap : List (Nat × TTLSt) := [(0, ⟨60000, 0, .kAbsoluteTime⟩), (1, ⟨60000, 0, .kAbsoluteTime⟩)]

/-- `ExecuteGc(ttl_st_map)` of that map on that segment, whatever its offset,
at any clock time a minute or more past the write and the offset:
`GcAllType` compares each list's tail with the TTL's `60000` as if it were a
time, skips the list, and keeps both records, no reader holding them, where
the rule at the expire time `cur_time - ttl_offset_ - 60000` keeps neither. -/
theorem gcAllType_reads_ttl_as_time (ttlOffset curTime : UInt64)
    (hc : ttlOffset.toNat + 1600000060000 ≤ curTime.toNat) :
    (absTtlMap.map fun kv => kv.2.needGc) = [true, true] ∧
      (twoTsAged sz ttlOffset).seg.entries.map (fun n => n.value.map KeyEntry.refs) = [[0, 0]] ∧
      (twoTsAged sz ttlOffset).seg.entries.map (fun n => n.value.map fun e =>
          liveRecords ⟨60000, 0, .kAbsoluteTime⟩
            (curTime - (twoTsAged sz ttlOffset).seg.ttlOffset - 60000) e.entries) = [[[], []]] ∧
      ∃ st', executeGcMap sz (twoTsAged sz ttlOffset) absTtlMap curTime = some st' ∧
        st'.seg.entries.map (fun n => n.value.map KeyEntry.entries) =
          [[[⟨1600000000000, 0, 1⟩], [⟨1600000000000, 0, 1⟩]]] := by
  have hent : (twoTsAged sz ttlOffset).seg.entries =
      [⟨[1], [⟨[⟨1600000000000, 0, 1⟩], 0, 1, false⟩, ⟨[⟨1600000000000, 0, 1⟩], 0, 1, false⟩], 1⟩] := rfl
  have hoff : (twoTsAged sz ttlOffset).seg.ttlOffset = ttlOffset := rfl
  -- at the expire time the record has expired
  have hE : (1600000000000 : UInt64) ≤ curTime - ttlOffset - 60000 := by
    have hoffset : ttlOffset ≤ curTime := by
      rw [UInt64.le_iff_toNat_le]
      omega
    have httl : (60000 : UInt64) ≤ curTime - ttlOffset := by
      rw [UInt64.le_iff_toNat_le, UInt64.toNat_sub_of_le _ _ hoffset,
        show (60000 : UInt64).toNat = 60000 from rfl]
      omega
    rw [UInt64.le_iff_toNat_le, UInt64.toNat_sub_of_le _ _ httl, UInt64.toNat_sub_of_le _ _ hoffset,
      show (60000 : UInt64).toNat = 60000 from rfl, show (1600000000000 : UInt64).toNat = 1600000000000 from rfl]
    omega
  refine ⟨rfl, by rw [hent]; rfl, ?_, _, rfl, rfl⟩
  rw [hent, hoff]
  simp [liveRecords, filterIdx, filterIdxFrom, TTLSt.live, hE]

/-- With the default offset of one minute, at a clock of `1700000000000` ms,
in 2023. -/
theorem gcAllType_reads_ttl_as_time_2023 :
    (60000 : UInt64).toNat + 1600000060000 ≤ (1700000000000 : UInt64).toNat ∧
      (absTtlMap.map fun kv => kv.2.needGc) = [true, true] ∧
      (twoTsAged ⟨0, 0, 0, 0, 0⟩ 60000).seg.entries.map (fun n => n.value.map KeyEntry.refs) = [[0, 0]] ∧
      (twoTsAged ⟨0, 0, 0, 0, 0⟩ 60000).seg.entries.map (fun n => n.value.map fun e =>
          liveRecords ⟨60000, 0, .kAbsoluteTime⟩
            (1700000000000 - (twoTsAged ⟨0, 0, 0, 0, 0⟩ 60000).seg.ttlOffset - 60000) e.entries) = [[[], []]] ∧
      ∃ st', executeGcMap ⟨0, 0, 0, 0, 0⟩ (twoTsAged ⟨0, 0, 0, 0, 0⟩ 60000) absTtlMap 1700000000000 = some st' ∧
        st'.seg.entries.map (fun n => n.value.map KeyEntry.entries) =
          [[[⟨1600000000000, 0, 1⟩], [⟨1600000000000, 0, 1⟩]]] :=
  ⟨by decide, gcAllType_reads_ttl_as_time ⟨0, 0, 0, 0, 0⟩ 60000 1700000000000 (by decide)⟩

end Segment

end Fedb.Storage
